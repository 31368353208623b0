import ThresholdCipher.Json.Format

/-
How numbers, strings and sequences of parts are read back from a text.

What is written for a number or a string is read as far as it goes and no further.  A number
would read on through more digits, so only a rest that may follow a value is allowed after it
(`Follows`); a string ends at its quote, so anything may follow.  Spaces, the end of an array
and the null of an optional field are told from a value by their first byte (`Opens`).
-/

namespace ThresholdCipher.Json

/-- What may come after a value: nothing, or what separates or closes. -/
def Follows : Bytes → Prop
  | [] => True
  | b :: _ => b = comma ∨ b = closeBracket ∨ b = closeBrace

/-- A text that no array takes for its end, and no optional field for null. -/
def Opens : Bytes → Prop
  | [] => False
  | b :: _ => isSpace b = false ∧ b ≠ closeBracket ∧ b ≠ 'n'.toUInt8

theorem skipSpace_cons {b : UInt8} (hb : isSpace b = false) (s : Bytes) :
    skipSpace (b :: s) = b :: s := List.dropWhile_cons_of_neg (by rw [hb]; decide)

theorem Opens.skipSpace {text : Bytes} (h : Opens text) (rest : Bytes) :
    skipSpace (text ++ rest) = text ++ rest := by
  cases text with
  | nil => cases h
  | cons b text => exact skipSpace_cons h.1 (text ++ rest)

theorem punctuation_cons {b : UInt8} (hb : isSpace b = false) (s : Bytes) :
    punctuation b (b :: s) = .ok s := by
  rw [punctuation, skipSpace_cons hb]
  exact if_pos rfl

/-! ## Numbers -/

theorem digit?_ofNat {d : Nat} (hd : d < 10) : digit? (UInt8.ofNat (0x30 + d)) = some d := by
  have hbyte : (UInt8.ofNat (0x30 + d)).toNat = 0x30 + d := by
    rw [UInt8.toNat_ofNat']
    omega
  rw [digit?, hbyte, if_pos (by omega), Nat.add_sub_cancel_left]

theorem significandDigits_cons {n d count : Nat} {b : UInt8} (hb : digit? b = some d)
    (hfits : n * 10 + d < UInt64.size) (s : Bytes) :
    significandDigits n count (b :: s) = significandDigits (n * 10 + d) (count + 1) s := by
  rw [significandDigits, hb]
  exact if_pos hfits

/-- The digits after the first one take a significand on to the whole number.  Only zero itself
starts with a zero. -/
theorem decimal_eq_cons (n : Nat) : ∃ first ds d, decimal n = first :: ds ∧
    digit? first = some d ∧ (d = 0 → n = 0 ∧ ds = []) ∧
    (n < UInt64.size → ∀ count tail, significandDigits d count (ds ++ tail) =
      significandDigits n (count + ds.length) tail) := by
  induction n using decimal.induct with
  | case1 n hn =>
    refine ⟨UInt8.ofNat (0x30 + n), [], n, ?_, digit?_ofNat hn, fun h => ⟨h, rfl⟩,
      fun _ _ _ => rfl⟩
    rw [decimal, if_pos hn]
  | case2 n hn ih =>
    -- The last digit joins those of the quotient, which keep their first one.
    obtain ⟨first, ds, d, hdecimal, hfirst, hzero, hread⟩ := ih
    have hlast : digit? (UInt8.ofNat (0x30 + n % 10)) = some (n % 10) :=
      digit?_ofNat (Nat.mod_lt n (by decide))
    have hsum : n / 10 * 10 + n % 10 = n := by omega
    refine ⟨first, ds ++ [UInt8.ofNat (0x30 + n % 10)], d, ?_, hfirst, ?_, ?_⟩
    · rw [decimal, if_neg hn, hdecimal, List.cons_append]
    · intro hd
      have := (hzero hd).1
      omega
    · intro hfits count tail
      rw [List.append_assoc, List.singleton_append, hread (by omega),
        significandDigits_cons hlast (by rwa [hsum]), hsum, List.length_append, Nat.add_assoc]
      rfl

/-- No number reads on into what follows it. -/
theorem Follows.ends {rest : Bytes} (h : Follows rest) (n count : Nat) :
    startsWithDigit rest = false ∧ significandDigits n count rest = (n, count, rest) ∧
    rest.takeWhile isDigit = [] ∧ rest.dropWhile isDigit = rest ∧
    afterInteger false n 0 rest = .ok (.natural n, rest) := by
  cases rest with
  | nil => exact ⟨rfl, rfl, rfl, rfl, rfl⟩
  | cons b rest => rcases h with rfl | rfl | rfl <;> exact ⟨rfl, rfl, rfl, rfl, rfl⟩

theorem number_decimal {n : Nat} (hn : n < UInt64.size) {rest : Bytes} (h : Follows rest) :
    number false (decimal n ++ rest) = .ok (.natural n, rest) := by
  obtain ⟨first, ds, d, hdecimal, hfirst, hzero, hread⟩ := decimal_eq_cons n
  obtain ⟨hdigit, hsignificand, htake, hdrop, hinteger⟩ := h.ends n (0 + ds.length)
  rw [hdecimal, List.cons_append, number, hfirst]
  cases d with
  | zero =>
    -- Nothing may follow a zero that comes first, and nothing does.
    obtain ⟨rfl, rfl⟩ := hzero rfl
    show (if startsWithDigit rest then _ else afterInteger false 0 0 rest) = _
    rw [hdigit]
    exact hinteger
  | succ d =>
    show (afterInteger false (significandDigits (d + 1) 0 (ds ++ rest)).1
      ((significandDigits (d + 1) 0 (ds ++ rest)).2.2.takeWhile isDigit).length
      ((significandDigits (d + 1) 0 (ds ++ rest)).2.2.dropWhile isDigit)) = _
    rw [hread hn, hsignificand, htake, hdrop]
    exact hinteger

theorem digit_opens {b : UInt8} {d : Nat} (hb : digit? b = some d) (s : Bytes) :
    Opens (b :: s) ∧ number? b s = some (number false (b :: s)) := by
  have hrange : 0x30 ≤ b.toNat ∧ b.toNat ≤ 0x39 := by
    rw [digit?] at hb
    split at hb
    next hrange => exact hrange
    next => cases hb
  have hne : ∀ c : UInt8, ¬(0x30 ≤ c.toNat ∧ c.toNat ≤ 0x39) → b ≠ c := by
    rintro c hc rfl
    exact hc hrange
  have hspace : isSpace b = false := by
    simp only [isSpace, Bool.or_eq_false_iff, decide_eq_false_iff_not]
    exact ⟨⟨⟨hne _ (by decide), hne _ (by decide)⟩, hne _ (by decide)⟩, hne _ (by decide)⟩
  refine ⟨⟨hspace, hne _ (by decide), hne _ (by decide)⟩, ?_⟩
  rw [number?, if_neg (hne _ (by decide)), isDigit, hb]
  rfl

/-! ## Strings -/

/-- A byte that stands for itself in a string. -/
def isPlain (b : UInt8) : Bool := b != quote && b != backslash && !(b < 0x20)

def Plain (text : Bytes) : Prop := text.all isPlain = true

instance (text : Bytes) : Decidable (Plain text) :=
  inferInstanceAs (Decidable (text.all isPlain = true))

theorem plain_cons {b : UInt8} {text : Bytes} :
    Plain (b :: text) ↔ (b ≠ quote ∧ b ≠ backslash ∧ ¬b < 0x20) ∧ Plain text := by
  simp [Plain, isPlain, and_assoc]

theorem stringWithin_plain {text : Bytes} (h : Plain text) {steps : Nat}
    (hsteps : text.length ≤ steps) (rest : Bytes) :
    stringWithin (steps + 1) (text ++ quote :: rest) = .ok (text, rest) := by
  induction text generalizing steps with
  | nil => exact if_pos rfl
  | cons b text ih =>
    obtain ⟨steps, rfl⟩ := Nat.exists_eq_add_of_lt hsteps
    obtain ⟨⟨hquote, hbackslash, hcontrol⟩, htext⟩ := plain_cons.mp h
    rw [List.cons_append, stringWithin, if_neg hquote, if_neg hbackslash, if_neg hcontrol,
      ih htext (Nat.le_add_right text.length steps)]
    rfl

theorem string_plain {text : Bytes} (h : Plain text) (rest : Bytes) :
    string (text ++ quote :: rest) = .ok (text, rest) := by
  refine stringWithin_plain h ?_ rest
  rw [List.length_append]
  omega

/-! ## Parts -/

theorem separated_cons (part : Bytes) (parts : List Bytes) :
    separated (part :: parts) = part ++ parts.flatMap (comma :: ·) := by
  induction parts generalizing part with
  | nil => exact (List.append_nil part).symm
  | cons next parts ih =>
    rw [separated, ih next, List.flatMap_cons, List.cons_append]
    exact nofun

theorem length_le_flatMap (parts : List Bytes) :
    parts.length ≤ (parts.flatMap (comma :: ·)).length := by
  induction parts with
  | nil => exact Nat.le_refl 0
  | cons part parts ih =>
    rw [List.flatMap_cons, List.length_append, List.length_cons, List.length_cons]
    omega

theorem length_le_separated (parts : List Bytes) (close : UInt8) (rest : Bytes) :
    parts.length ≤ (separated parts ++ close :: rest).length := by
  cases parts with
  | nil => exact Nat.zero_le _
  | cons part parts =>
    have := length_le_flatMap parts
    rw [separated_cons]
    simp only [List.length_append, List.length_cons]
    omega

/-- More parts and a closing byte may follow a value. -/
theorem follows_parts (parts : List Bytes) {close : UInt8}
    (hclose : close = closeBracket ∨ close = closeBrace) (rest : Bytes) :
    Follows (parts.flatMap (comma :: ·) ++ close :: rest) := by
  cases parts with
  | nil => exact .inr hclose
  | cons part parts => exact .inl rfl

end ThresholdCipher.Json
