import ThresholdCipher.Proofs.PairingLaws

/-
What layouts write and read back.

Only the numbers of a value that have 32-bit fields decide whether it is written.  If all
of them fit, reading gives the value back, takes up just what was written and leaves
whatever follows; otherwise the first that does not fit is reported (`Carries`).  One part
after another keeps this, also where the second depends on what was read first
(`Carries.andThen`), and the composite layouts are all of that form.
-/

namespace ThresholdCipher

/-- A curve group whose encoding has its fixed size and is undone by decoding. -/
class LawfulPointEncoding (G : Type) [CurveGroup G] : Prop where
  length_encode : ∀ p : G, (CurveGroup.encode p).length = CurveGroup.encodedSize G
  decode_encode : ∀ p : G, CurveGroup.decode (CurveGroup.encode p) = .ok p

/-- A target group in which all elements but the identity have an encoding, which is undone by
decoding, and whose length fits the field in front of it. -/
class LawfulTargetEncoding (T : Type) [TargetGroup T] : Prop where
  exists_encode : ∀ t : T, t ≠ 1 → ∃ bs, TargetGroup.encode t = some bs ∧
    bs.length ≤ maxWord32 ∧ TargetGroup.decode bs = .ok t

theorem Cursor.take_append (offset : Nat) (bs rest : Bytes) :
    Cursor.take bs.length ⟨offset, bs ++ rest⟩ = .ok (bs, ⟨offset + bs.length, rest⟩) := by
  have hlen : bs.length ≤ (bs ++ rest).length := by
    rw [List.length_append]
    omega
  rw [Cursor.take, if_pos hlen, List.take_left, List.drop_left]

namespace Layout

variable {α β γ : Type}

/-- `numbers` are the numbers of `a` that have 32-bit fields, in the order of the fields. -/
structure Carries (layout : Layout α) (numbers : List Nat) (a : α) : Prop where
  written : numbers.find? (maxWord32 < ·) = none → ∃ bs, layout.write a = .ok bs ∧
    ∀ offset rest, layout.read ⟨offset, bs ++ rest⟩ = .ok (a, ⟨offset + bs.length, rest⟩)
  refused : ∀ n, numbers.find? (maxWord32 < ·) = some n →
    layout.write a = .error (.malformed (.exceedsWord n))

variable {layout : Layout α} {ns ms : List Nat} {a : α} {b : β}

/-! ## One part after another -/

/-- The second part may depend on what was read as the first. -/
theorem Carries.andThen {whole : Layout γ} (ha : layout.Carries ns a) (second : α → Layout β)
    (join : α → β → γ) (hb : (second a).Carries ms b)
    (hwrite : whole.write (join a b) = do
      let front ← layout.write a
      let back ← (second a).write b
      return front ++ back)
    (hread : ∀ c, whole.read c = do
      let (x, c) ← layout.read c
      let (y, c) ← (second x).read c
      return (join x y, c)) :
    whole.Carries (ns ++ ms) (join a b) := by
  constructor
  · intro hfits
    rw [List.find?_append, Option.or_eq_none_iff] at hfits
    obtain ⟨front, hfront, hreadFront⟩ := ha.written hfits.1
    obtain ⟨back, hback, hreadBack⟩ := hb.written hfits.2
    refine ⟨front ++ back, ?_, ?_⟩
    · rw [hwrite, hfront, hback]
      rfl
    · intro offset rest
      rw [hread, List.append_assoc, hreadFront]
      show ((second a).read ⟨offset + front.length, back ++ rest⟩ >>= fun p =>
        Except.ok (join a p.1, p.2)) = _
      rw [hreadBack, List.length_append, ← Nat.add_assoc]
      rfl
  · intro n hn
    rw [List.find?_append] at hn
    rw [hwrite]
    cases hfirst : ns.find? (maxWord32 < ·) with
    | some m =>
      rw [hfirst, Option.some_or, Option.some.injEq] at hn
      rw [ha.refused m hfirst, hn]
      rfl
    | none =>
      obtain ⟨front, hfront, -⟩ := ha.written hfirst
      rw [hfirst, Option.none_or] at hn
      rw [hfront, hb.refused n hn]
      rfl

theorem Carries.both {second : Layout β} (ha : layout.Carries ns a) (hb : second.Carries ms b) :
    (layout.both second).Carries (ns ++ ms) (a, b) :=
  ha.andThen (fun _ => second) Prod.mk hb rfl fun _ => rfl

/-- The first part says how to read the second and is not kept. -/
theorem Carries.after {whole : Layout β} (ha : layout.Carries ns a) (second : α → Layout β)
    (hb : (second a).Carries ms b)
    (hwrite : whole.write b = do
      let front ← layout.write a
      let back ← (second a).write b
      return front ++ back)
    (hread : ∀ c, whole.read c = layout.read c >>= fun p => (second p.1).read p.2) :
    whole.Carries (ns ++ ms) b :=
  ha.andThen second (fun _ b => b) hb hwrite fun c => (hread c).trans
    (congrArg (layout.read c >>= ·) (funext fun p => (bind_pure ((second p.1).read p.2)).symm))

theorem Carries.convert {toValue : α → β} {ofValue : β → α} (h : layout.Carries ns (ofValue b))
    (hback : toValue (ofValue b) = b) : (layout.convert toValue ofValue).Carries ns b := by
  refine ⟨fun hfits => ?_, h.refused⟩
  obtain ⟨bs, hbs, hread⟩ := h.written hfits
  refine ⟨bs, hbs, fun offset rest => ?_⟩
  show (layout.read ⟨offset, bs ++ rest⟩ >>= fun p => Except.ok (toValue p.1, p.2)) = _
  rw [hread]
  exact congrArg (fun v => Except.ok (v, _)) hback

/-! ## Bytes and numbers -/

/-- A given number of bytes, as they are. -/
def bytes (count : Nat) : Layout Bytes where
  write := .ok
  read := Cursor.take count

theorem carries_bytes (bs : Bytes) : (bytes bs.length).Carries [] bs :=
  ⟨fun _ => ⟨bs, rfl, fun offset rest => Cursor.take_append offset bs rest⟩,
    fun _ h => (nomatch h)⟩

theorem carries_word32 (n : Nat) : word32.Carries [n] n := by
  constructor
  · intro hfits
    have hn : ¬maxWord32 < n := by simpa using hfits
    have hmod : n % Bytes.capacity 4 = n :=
      Nat.mod_eq_of_lt (Nat.lt_succ_of_le (Nat.not_lt.mp hn))
    refine ⟨Bytes.bigEndian 4 n, if_neg hn, fun offset rest => ?_⟩
    have htake := Cursor.take_append offset (Bytes.bigEndian 4 n) rest
    rw [Bytes.length_bigEndian] at htake ⊢
    show (Cursor.take 4 ⟨offset, Bytes.bigEndian 4 n ++ rest⟩ >>= fun p =>
      Except.ok (Bytes.ofBigEndian p.1, p.2)) = _
    rw [htake]
    show Except.ok (Bytes.ofBigEndian (Bytes.bigEndian 4 n), _) = _
    rw [Bytes.ofBigEndian_bigEndian, hmod]
  · intro m hm
    obtain ⟨hlarge, hmem⟩ : maxWord32 < m ∧ m = n := by
      have hfound := List.find?_some hm
      exact ⟨of_decide_eq_true hfound, List.mem_singleton.mp (List.mem_of_find?_eq_some hm)⟩
    subst hmem
    exact if_pos hlarge

theorem carries_participant (p : Participant) : participant.Carries [p.toNat] p :=
  (carries_word32 p.toNat).convert UInt64.ofNat_toNat

theorem carries_sized (bs : Bytes) : sized.Carries [bs.length] bs :=
  (carries_word32 bs.length).after bytes (carries_bytes bs) rfl fun _ => rfl

/-! ## Encoded elements -/

theorem carries_decoded {raw : Layout Bytes} {decode : Bytes → Except DecodingError α} {bs : Bytes}
    (h : raw.Carries ns bs) (hdecode : decode bs = .ok a)
    (hwrite : layout.write a = raw.write bs)
    (hread : ∀ c, layout.read c = do
      let (bs, c) ← raw.read c
      return (← decoding (decode bs), c)) :
    layout.Carries ns a := by
  constructor
  · intro hfits
    obtain ⟨written, hwritten, hreadRaw⟩ := h.written hfits
    refine ⟨written, hwrite.trans hwritten, fun offset rest => ?_⟩
    rw [hread, hreadRaw]
    show (decoding (decode bs) >>= fun a => Except.ok (a, _)) = _
    rw [hdecode]
    rfl
  · intro n hn
    rw [hwrite, h.refused n hn]

theorem carries_element {size : Nat} {encode : α → Bytes} {decode : Bytes → Except DecodingError α}
    (hlen : (encode a).length = size) (hdecode : decode (encode a) = .ok a) :
    (element size encode decode).Carries [] a := by
  subst hlen
  exact carries_decoded (carries_bytes (encode a)) hdecode rfl fun _ => rfl

theorem carries_scalar (s : Scalar) : scalar.Carries [] s :=
  carries_element (Bytes.length_bigEndian 32 s.val) (Scalar.decode_encode s)

theorem carries_point {G : Type} [CurveGroup G] [LawfulPointEncoding G] (p : G) :
    point.Carries [] p :=
  carries_element (LawfulPointEncoding.length_encode p) (LawfulPointEncoding.decode_encode p)

theorem carries_target {T : Type} [TargetGroup T] [LawfulTargetEncoding T] {t : T} (ht : t ≠ 1) :
    target.Carries [] t := by
  obtain ⟨bs, hencode, hlen, hdecode⟩ := LawfulTargetEncoding.exists_encode t ht
  have hwrite : (target : Layout T).write t = sized.write bs := by
    show (encodeTarget t >>= fun bs => sized.write bs) = _
    rw [encodeTarget, hencode]
    rfl
  have h : (target : Layout T).Carries [bs.length] t :=
    carries_decoded (carries_sized bs) hdecode hwrite fun _ => rfl
  -- The length in front always fits, so it is none of the numbers that decide.
  refine ⟨fun _ => h.written ?_, fun n hn => absurd hn.symm (Option.some_ne_none n)⟩
  simpa using hlen

/-! ## Lists and alternatives -/

/-- A given number of values of one layout. -/
def many (layout : Layout α) (count : Nat) : Layout (List α) where
  write := layout.writeAll
  read := layout.readMany count

theorem carries_many {numbers : α → List Nat} {as : List α}
    (h : ∀ a ∈ as, layout.Carries (numbers a) a) :
    (layout.many as.length).Carries (as.flatMap numbers) as := by
  induction as with
  | nil => exact ⟨fun _ => ⟨[], rfl, fun _ _ => rfl⟩, fun _ hn => (nomatch hn)⟩
  | cons a as ih =>
    have htail := ih fun a' ha' => h a' (List.mem_cons_of_mem a ha')
    exact (h a List.mem_cons_self).andThen (fun _ => layout.many as.length) List.cons htail rfl
      fun _ => rfl

theorem carries_counted {numbers : α → List Nat} {as : List α}
    (h : ∀ a ∈ as, layout.Carries (numbers a) a) :
    layout.counted.Carries (as.length :: as.flatMap numbers) as :=
  (carries_word32 as.length).after layout.many (carries_many h) rfl fun _ => rfl

def byte : Layout UInt8 where
  write b := pure [b]
  read := Cursor.byte

theorem carries_byte (b : UInt8) : byte.Carries [] b :=
  ⟨fun _ => ⟨[b], rfl, fun _ _ => rfl⟩, fun _ h => (nomatch h)⟩

/-- What follows a tag: the head, and the body that the tag stands for. -/
def afterTag (unknown : UInt8 → Malformation) (head : Layout α) (zero : Layout β) (one : Layout γ)
    (tag : UInt8) : Layout (α × (β ⊕ γ)) where
  write p := do
    let front ← head.write p.1
    match p.2 with
    | .inl b => return front ++ (← zero.write b)
    | .inr c => return front ++ (← one.write c)
  read c := do
    let (a, c) ← head.read c
    if tag = 0 then
      let (b, c) ← zero.read c
      return ((a, .inl b), c)
    else if tag = 1 then
      let (b, c) ← one.read c
      return ((a, .inr b), c)
    else .error (.malformedInput (unknown tag))

variable {unknown : UInt8 → Malformation} {head : Layout α} {zero : Layout β} {one : Layout γ}
  {c : γ}

theorem carries_tagged_zero (ha : head.Carries ns a) (hb : zero.Carries ms b) :
    (tagged unknown head zero one).Carries (ns ++ ms) (a, .inl b) := by
  have hrest : (afterTag unknown head zero one 0).Carries (ns ++ ms) (a, .inl b) :=
    ha.andThen (fun _ => zero) (fun a b => (a, Sum.inl b)) hb rfl fun _ => rfl
  refine (carries_byte 0).after (afterTag unknown head zero one) hrest ?_ fun _ => rfl
  simp [tagged, afterTag, byte]

theorem carries_tagged_one (ha : head.Carries ns a) (hc : one.Carries ms c) :
    (tagged unknown head zero one).Carries (ns ++ ms) (a, .inr c) := by
  have hrest : (afterTag unknown head zero one 1).Carries (ns ++ ms) (a, .inr c) :=
    ha.andThen (fun _ => one) (fun a c => (a, Sum.inr c)) hc rfl fun _ => rfl
  refine (carries_byte 1).after (afterTag unknown head zero one) hrest ?_ fun _ => rfl
  simp [tagged, afterTag, byte]

end Layout
end ThresholdCipher
