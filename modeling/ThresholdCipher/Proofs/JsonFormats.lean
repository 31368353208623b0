import ThresholdCipher.Json.Record
import ThresholdCipher.Proofs.JsonTexts
import ThresholdCipher.Proofs.Outcome

/-
What JSON formats write and read back.

A format keeps a value if it writes it as a text that it reads as that value, whatever
follows of what may follow a value (`Format.Keeps`).  Arrays keep what their items keep.
Records keep what their fields keep if the names of the fields are distinct: the members
come back one by one, each into the empty slot of its own field (`Record.TakesAll`).
-/

namespace ThresholdCipher.Json

namespace Format

variable {α β : Type} {format : Format α} {a : α} {b : β}

/-- The text stands for `a`, whatever follows it. -/
structure Reads (format : Format α) (text : Bytes) (a : α) : Prop where
  opens : Opens text
  back : ∀ rest, Follows rest → format.read (text ++ rest) = .ok (a, rest)

def Keeps (format : Format α) (a : α) : Prop :=
  ∃ text, format.write a = .ok text ∧ format.Reads text a

/-- A value is written, and the whole of what is written is decoded to it. -/
def RoundTrips (format : Format α) (a : α) : Prop :=
  ∃ text, format.write a = .ok text ∧ format.decode text = .ok a

theorem Keeps.roundTrips (h : format.Keeps a) : format.RoundTrips a := by
  obtain ⟨text, hwrite, htext⟩ := h
  refine ⟨text, hwrite, ?_⟩
  have hread := htext.back [] trivial
  rw [List.append_nil] at hread
  rw [Format.decode, hread]
  rfl

theorem Keeps.refine {toValue : α → Except Mismatch β} {ofValue : β → Except Failure α}
    (h : format.Keeps a) (hout : ofValue b = .ok a) (hback : toValue a = .ok b) :
    (format.refine toValue ofValue).Keeps b := by
  obtain ⟨text, hwrite, htext⟩ := h
  refine ⟨text, ?_, htext.opens, fun rest hrest => ?_⟩
  · show (ofValue b >>= format.write) = _
    rw [hout]
    exact hwrite
  · show (format.read (text ++ rest) >>= fun p =>
      (toValue p.1).mapError Problem.mismatch >>= fun b => Except.ok (b, p.2)) = _
    rw [htext.back rest hrest]
    show ((toValue a).mapError Problem.mismatch >>= fun b => Except.ok (b, rest)) = _
    rw [hback]
    rfl

theorem Keeps.convert {toValue : α → β} {ofValue : β → α} (h : format.Keeps (ofValue b))
    (hback : toValue (ofValue b) = b) : (format.convert toValue ofValue).Keeps b :=
  h.refine rfl (congrArg Except.ok hback)

theorem keeps_natural {bound n : Nat} (hbound : bound ≤ UInt64.size) (hn : n < bound) :
    (natural bound).Keeps n := by
  obtain ⟨first, ds, d, hdecimal, hfirst, -⟩ := decimal_eq_cons n
  obtain ⟨hopens, -⟩ := digit_opens hfirst ds
  refine ⟨decimal n, rfl, hdecimal ▸ hopens, fun rest hrest => ?_⟩
  have hnumber := number_decimal (Nat.lt_of_lt_of_le hn hbound) hrest
  rw [hdecimal, List.cons_append] at hnumber ⊢
  show readNatural bound (first :: (ds ++ rest)) = _
  simp only [readNatural, skipSpace_cons hopens.1, (digit_opens hfirst (ds ++ rest)).2, hnumber]
  exact if_pos hn

theorem keeps_word64 (n : UInt64) : word64.Keeps n :=
  Keeps.convert (keeps_natural (Nat.le_refl _) n.toNat_lt) UInt64.ofNat_toNat

theorem keeps_byte (b : UInt8) : byte.Keeps b :=
  Keeps.convert (keeps_natural (by decide) b.toNat_lt) UInt8.ofNat_toNat

/-! ## Arrays -/

theorem nextElement_first {part : Bytes} (h : Opens part) (rest : Bytes) :
    nextElement true (part ++ rest) = .ok (true, part ++ rest) := by
  rw [nextElement, h.skipSpace]
  cases part with
  | nil => cases h
  | cons b part => exact if_neg h.2.1

theorem nextElement_comma {part : Bytes} (h : Opens part) (rest : Bytes) :
    nextElement false (comma :: part ++ rest) = .ok (true, part ++ rest) := by
  have hcomma : isSpace comma = false := rfl
  simp only [nextElement, List.cons_append, skipSpace_cons hcomma, h.skipSpace]
  cases part with
  | nil => cases h
  | cons b part => exact if_neg h.2.1

/-- One element that is there. -/
theorem readElements_succ {part s tail : Bytes} {first : Bool} (hpart : format.Reads part a)
    (hnext : nextElement first s = .ok (true, part ++ tail)) (htail : Follows tail) (steps : Nat) :
    format.readElements (steps + 1) first s =
      (format.readElements steps false tail).map fun p => (a :: p.1, p.2) := by
  rw [readElements, hnext]
  show (format.read (part ++ tail) >>= fun p => format.readElements steps false p.2 >>= fun q =>
    Except.ok (p.1 :: q.1, q.2)) = _
  rw [hpart.back tail htail]
  show (format.readElements steps false tail >>= fun q => Except.ok (a :: q.1, q.2)) = _
  cases format.readElements steps false tail with
  | error problem => rfl
  | ok p => rfl

/-- The elements after the first one. -/
theorem readElements_parts {as : List α} {parts : List Bytes}
    (h : List.Forall₂ (fun a part => format.Reads part a) as parts) {steps : Nat}
    (hsteps : parts.length ≤ steps) (rest : Bytes) :
    format.readElements (steps + 1) false (parts.flatMap (comma :: ·) ++ closeBracket :: rest) =
      .ok (as, rest) := by
  induction h generalizing steps with
  | nil => rfl
  | @cons a part as parts hpart _ ih =>
    obtain ⟨steps, rfl⟩ := Nat.exists_eq_add_of_lt hsteps
    rw [List.flatMap_cons, List.append_assoc,
      readElements_succ hpart (nextElement_comma hpart.opens _)
        (follows_parts parts (.inl rfl) rest),
      ih (Nat.le_add_right _ steps)]
    rfl

theorem readElements_separated {as : List α} {parts : List Bytes}
    (h : List.Forall₂ (fun a part => format.Reads part a) as parts) {steps : Nat}
    (hsteps : parts.length ≤ steps) (rest : Bytes) :
    format.readElements (steps + 1) true (separated parts ++ closeBracket :: rest) =
      .ok (as, rest) := by
  cases h with
  | nil => rfl
  | @cons a part as parts hpart hparts =>
    obtain ⟨steps, rfl⟩ := Nat.exists_eq_add_of_lt hsteps
    rw [separated_cons, List.append_assoc,
      readElements_succ hpart (nextElement_first hpart.opens _)
        (follows_parts parts (.inl rfl) rest),
      readElements_parts hparts (Nat.le_add_right _ steps)]
    rfl

theorem exists_parts {as : List α} (h : ∀ a ∈ as, format.Keeps a) : ∃ parts,
    as.mapM format.write = .ok parts ∧
    List.Forall₂ (fun a part => format.Reads part a) as parts := by
  induction as with
  | nil => exact ⟨[], rfl, .nil⟩
  | cons a as ih =>
    obtain ⟨part, hwrite, hpart⟩ := h a List.mem_cons_self
    obtain ⟨parts, hwrites, hparts⟩ := ih fun a ha => h a (List.mem_cons_of_mem _ ha)
    refine ⟨part :: parts, ?_, .cons hpart hparts⟩
    rw [List.mapM_cons, hwrite, hwrites]
    rfl

theorem keeps_list {as : List α} (h : ∀ a ∈ as, format.Keeps a) : format.list.Keeps as := by
  obtain ⟨parts, hparts, hreads⟩ := exists_parts h
  refine ⟨openBracket :: separated parts ++ [closeBracket], ?_, ⟨rfl, by decide, by decide⟩,
    fun rest _ => ?_⟩
  · show (as.mapM format.write >>= fun parts =>
      Except.ok (openBracket :: separated parts ++ [closeBracket])) = _
    rw [hparts]
    rfl
  · rw [List.append_assoc]
    exact readElements_separated hreads (length_le_separated parts closeBracket rest) rest

theorem keeps_bytes (bs : Bytes) : bytes.Keeps bs := keeps_list fun b _ => keeps_byte b

/-! ## Names -/

theorem keeps_choice {names : List (String × α)} {name : α → String}
    (hplain : Plain (Bytes.ofText (name a)))
    (hnamed : named names (Bytes.ofText (name a)) = .ok a) : (choice names name).Keeps a := by
  refine ⟨writeString (name a), rfl, ⟨rfl, by decide, by decide⟩, fun rest _ => ?_⟩
  show (string (Bytes.ofText (name a) ++ [quote] ++ rest) >>= fun p =>
    named names p.1 >>= fun a => Except.ok (a, p.2)) = _
  rw [List.append_assoc, List.singleton_append, string_plain hplain]
  show (named names (Bytes.ofText (name a)) >>= fun a => Except.ok (a, rest)) = _
  rw [hnamed]
  rfl

/-- A value is not taken for null. -/
theorem nullable_read {text : Bytes} (h : Opens text) (rest : Bytes) :
    format.nullable.read (text ++ rest) =
      format.read (text ++ rest) >>= fun p => Except.ok (some p.1, p.2) := by
  cases text with
  | nil => cases h
  | cons b text =>
    have hspace := skipSpace_cons h.1 (text ++ rest)
    simp only [nullable, List.cons_append, hspace, if_neg h.2.2]
    rfl

end Format

/-! ## Fields -/

namespace Field

variable {α : Type}

/-- The field is written and read back, or is left out for what its absence stands for. -/
inductive Keeps (field : Field α) (a : α) : Prop
  | present {text : Bytes} (written : field.write a = .ok (some text))
      (back : ∀ rest, Follows rest → field.read (text ++ rest) = .ok (a, rest))
  | leftOut (written : field.write a = .ok none) (absent : field.absent = some a)

variable {format : Format α} {a : α} (name : String)

theorem keeps_required (h : format.Keeps a) : (required name format).Keeps a := by
  obtain ⟨text, hwrite, htext⟩ := h
  refine .present (?_ : (required name format).write a = .ok (some text)) htext.back
  show (format.write a >>= fun text => Except.ok (some text)) = _
  rw [hwrite]
  rfl

theorem keeps_some (h : format.Keeps a) : (optional name format).Keeps (some a) := by
  obtain ⟨text, hwrite, htext⟩ := h
  refine .present (?_ : (optional name format).write (some a) = .ok (some text))
    fun rest hrest => ?_
  · show (format.write a >>= fun text => Except.ok (some text)) = _
    rw [hwrite]
    rfl
  · show format.nullable.read (text ++ rest) = _
    rw [Format.nullable_read htext.opens, htext.back rest hrest]
    rfl

theorem keeps_none (format : Format α) : (optional name format).Keeps none := .leftOut rfl rfl

end Field

/-! ## Records -/

/-- A member of an object, with its key as it is. -/
def memberText (member : Bytes × Bytes) : Bytes :=
  quote :: member.1 ++ quote :: colon :: member.2

theorem memberText_ofText (name : String) (value : Bytes) :
    writeString name ++ colon :: value = memberText (Bytes.ofText name, value) := by
  rw [writeString, List.append_assoc]
  rfl

theorem nextMember_first {key : Bytes} (hkey : Plain key) (value rest : Bytes) :
    nextMember true (memberText (key, value) ++ rest) = .ok (some key, colon :: value ++ rest) := by
  show (punctuation quote (quote :: (key ++ quote :: colon :: value) ++ rest) >>= fun s =>
    string s >>= fun p => Except.ok (some p.1, p.2)) = _
  rw [List.cons_append, punctuation_cons rfl]
  show (string (key ++ quote :: (colon :: value) ++ rest) >>= fun p =>
    Except.ok (some p.1, p.2)) = _
  rw [List.append_assoc, List.cons_append, string_plain hkey]
  rfl

theorem nextMember_comma {key : Bytes} (hkey : Plain key) (value rest : Bytes) :
    nextMember false (comma :: (memberText (key, value) ++ rest)) =
      .ok (some key, colon :: value ++ rest) := nextMember_first hkey value rest

namespace Record

variable {α β : Type}

def keys : {α : Type} → Record α → List Bytes
  | _, done => []
  | _, field first rest => Bytes.ofText first.name :: rest.keys

/-- Keys that are distinct and stand for themselves in a text. -/
def WellNamed (keys : List Bytes) : Prop := keys.Nodup ∧ ∀ key ∈ keys, Plain key

instance (keys : List Bytes) : Decidable (WellNamed keys) :=
  inferInstanceAs (Decidable (keys.Nodup ∧ ∀ key ∈ keys, Plain key))

def KeepsFields : {α : Type} → Record α → α → Prop
  | _, done, _ => True
  | _, field first rest, (a, as) => first.Keeps a ∧ rest.KeepsFields as

/-- The value after the key fills a slot. -/
def Takes (record : Record α) (key value : Bytes) (slots filled : record.Slots) : Prop :=
  ∀ tail, Follows tail → record.readMember key (colon :: value ++ tail) slots = .ok (filled, tail)

/-- The members one by one fill the slots. -/
inductive TakesAll (record : Record α) :
    List (Bytes × Bytes) → record.Slots → record.Slots → Prop
  | nil (slots : record.Slots) : TakesAll record [] slots slots
  | cons {key value : Bytes} {members : List (Bytes × Bytes)}
      {slots filled full : record.Slots} (taken : record.Takes key value slots filled)
      (others : TakesAll record members filled full) :
      TakesAll record ((key, value) :: members) slots full

theorem readMembers_succ {record : Record α} {slots filled : record.Slots}
    {key value s tail : Bytes} {first : Bool}
    (hnext : nextMember first s = .ok (some key, colon :: value ++ tail))
    (htaken : record.Takes key value slots filled) (htail : Follows tail) (steps : Nat) :
    record.readMembers (steps + 1) first slots s =
      record.readMembers steps false filled tail := by
  rw [readMembers, hnext]
  show (record.readMember key (colon :: value ++ tail) slots >>= fun p =>
    record.readMembers steps false p.1 p.2) = _
  rw [htaken tail htail]
  rfl

theorem readMembers_parts {record : Record α} {members : List (Bytes × Bytes)}
    {slots full : record.Slots} (h : record.TakesAll members slots full)
    (hplain : ∀ m ∈ members, Plain m.1) {steps : Nat} (hsteps : members.length ≤ steps)
    (rest : Bytes) :
    record.readMembers (steps + 1) false slots
      ((members.map memberText).flatMap (comma :: ·) ++ closeBrace :: rest) = .ok (full, rest) := by
  induction h generalizing steps with
  | nil slots => rfl
  | @cons key value members slots filled full htaken _ ih =>
    obtain ⟨steps, rfl⟩ := Nat.exists_eq_add_of_lt hsteps
    obtain ⟨hkey, hothers⟩ := List.forall_mem_cons.mp hplain
    rw [List.map_cons, List.flatMap_cons, List.append_assoc, List.cons_append,
      readMembers_succ (nextMember_comma hkey value _) htaken (follows_parts _ (.inr rfl) rest),
      ih hothers (Nat.le_add_right _ steps)]

theorem readMembers_separated {record : Record α} {members : List (Bytes × Bytes)}
    {slots full : record.Slots} (h : record.TakesAll members slots full)
    (hplain : ∀ m ∈ members, Plain m.1) {steps : Nat} (hsteps : members.length ≤ steps)
    (rest : Bytes) :
    record.readMembers (steps + 1) true slots
      (separated (members.map memberText) ++ closeBrace :: rest) = .ok (full, rest) := by
  cases h with
  | nil => rfl
  | @cons key value members slots filled full htaken hothers =>
    obtain ⟨steps, rfl⟩ := Nat.exists_eq_add_of_lt hsteps
    obtain ⟨hkey, hkeys⟩ := List.forall_mem_cons.mp hplain
    rw [List.map_cons, separated_cons, List.append_assoc,
      readMembers_succ (nextMember_first hkey value _) htaken (follows_parts _ (.inr rfl) rest),
      readMembers_parts hothers hkeys (Nat.le_add_right _ steps)]

/-- A member for a later field leaves the slot of the first as it is. -/
theorem Takes.field {rest : Record β} {key value : Bytes} {others filled : rest.Slots}
    (h : rest.Takes key value others filled) {first : Field α}
    (hkey : key ≠ Bytes.ofText first.name) (slot : Option α) :
    (Record.field first rest).Takes key value (slot, others) (slot, filled) := by
  intro tail htail
  rw [readMember, if_neg hkey.symm, h tail htail]
  rfl

theorem TakesAll.field {rest : Record β} {members : List (Bytes × Bytes)}
    {others full : rest.Slots} (h : rest.TakesAll members others full) {first : Field α}
    (hkeys : ∀ m ∈ members, m.1 ≠ Bytes.ofText first.name) (slot : Option α) :
    (Record.field first rest).TakesAll members (slot, others) (slot, full) := by
  induction h with
  | nil slots => exact .nil _
  | cons htaken _ ih =>
    obtain ⟨hkey, hothers⟩ := List.forall_mem_cons.mp hkeys
    exact .cons (htaken.field hkey slot) (ih hothers)

theorem takes_first {first : Field α} {a : α} {text : Bytes}
    (h : ∀ rest, Follows rest → first.read (text ++ rest) = .ok (a, rest)) {rest : Record β}
    (others : rest.Slots) :
    (Record.field first rest).Takes (Bytes.ofText first.name) text (none, others)
      (some a, others) := by
  intro tail htail
  rw [readMember, if_pos rfl]
  show (punctuation colon (colon :: (text ++ tail)) >>= fun s => first.read s >>= fun p =>
    Except.ok ((some p.1, others), p.2)) = _
  rw [punctuation_cons rfl]
  show (first.read (text ++ tail) >>= fun p => Except.ok ((some p.1, others), p.2)) = _
  rw [h tail htail]
  rfl

/-- What is written of the fields fills the slots from which the value is made again. -/
theorem exists_members {record : Record α} {a : α} (hnames : record.keys.Nodup)
    (h : record.KeepsFields a) : ∃ members full,
    record.members a = .ok (members.map memberText) ∧ (∀ m ∈ members, m.1 ∈ record.keys) ∧
    record.TakesAll members record.empty full ∧ record.value full = .ok a := by
  induction record with
  | done => exact ⟨[], Record.done.empty, rfl, fun _ hm => (nomatch hm), .nil _, rfl⟩
  | field first rest ih =>
    obtain ⟨a, as⟩ := a
    obtain ⟨hfirst, hrest⟩ := h
    obtain ⟨hfresh, hnames⟩ := List.nodup_cons.mp hnames
    obtain ⟨members, full, hwrites, hkeys, htaken, hvalue⟩ := ih hnames hrest
    -- A fresh name is what keeps the members of the rest away from the slot of the first field.
    have hothers : ∀ slot, (Record.field first rest).TakesAll members (slot, rest.empty)
        (slot, full) :=
      htaken.field fun m hm hkey => hfresh (hkey ▸ hkeys m hm)
    have hmem : ∀ m ∈ members, m.1 ∈ (Record.field first rest).keys := fun m hm =>
      List.mem_cons_of_mem _ (hkeys m hm)
    cases hfirst with
    | @present text hwrite hback =>
      refine ⟨(Bytes.ofText first.name, text) :: members, (some a, full), ?_,
        List.forall_mem_cons.mpr ⟨List.mem_cons_self, hmem⟩,
        .cons (takes_first hback rest.empty) (hothers (some a)), ?_⟩
      · rw [Record.members, hwrite, hwrites]
        exact congrArg (fun m => Except.ok (m :: members.map memberText))
          (memberText_ofText first.name text)
      · rw [Record.value, hvalue]
        rfl
    | leftOut hwrite habsent =>
      refine ⟨members, (none, full), ?_, hmem, hothers none, ?_⟩
      · rw [Record.members, hwrite, hwrites]
        rfl
      · rw [Record.value, hvalue, Field.value, habsent]
        rfl

theorem keeps_format {record : Record α} {a : α} (hnames : WellNamed record.keys)
    (h : record.KeepsFields a) : record.format.Keeps a := by
  obtain ⟨members, full, hwrites, hkeys, htaken, hvalue⟩ := exists_members hnames.1 h
  have hplain : ∀ m ∈ members, Plain m.1 := fun m hm => hnames.2 m.1 (hkeys m hm)
  refine ⟨openBrace :: separated (members.map memberText) ++ [closeBrace], ?_,
    ⟨rfl, by decide, by decide⟩, fun rest _ => ?_⟩
  · show (record.members a >>= fun parts =>
      Except.ok (openBrace :: separated parts ++ [closeBrace])) = _
    rw [hwrites]
    rfl
  · rw [List.append_assoc]
    have hsteps := length_le_separated (members.map memberText) closeBrace rest
    rw [List.length_map] at hsteps
    show (record.readMembers
      ((separated (members.map memberText) ++ closeBrace :: rest).length + 1) true record.empty
      (separated (members.map memberText) ++ closeBrace :: rest) >>= fun p =>
        record.value p.1 >>= fun a => Except.ok (a, p.2)) = _
    rw [readMembers_separated htaken hplain hsteps]
    show (record.value full >>= fun a => Except.ok (a, rest)) = _
    rw [hvalue]
    rfl

end Record
end ThresholdCipher.Json
