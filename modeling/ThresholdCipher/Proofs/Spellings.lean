import ThresholdCipher.Proofs.Layouts

/-
Which bytes a layout reads as which value.

Reading finds one spelling of the value at the front of the input and looks no further, and an
input that ends within a spelling is refused as too short (`Spells`).  Nothing is assumed of
the groups here: a spelling of an element is whatever its decoder accepts, and only where the
decoders are canonical does a value have one spelling, the written one.
-/

namespace ThresholdCipher

/-- An error that reports an input which ends before a part of known length does. -/
def Cursor.EndsEarly (c : Cursor) (e : Error) : Prop :=
  ∃ needed offset remaining, e = .malformedInput (.shortInput needed offset remaining) ∧
    remaining < needed ∧ offset + remaining = c.offset + c.rest.length

namespace Layout

variable {α β γ : Type}

/-- `spelling a` holds of the byte strings that are read as `a`. -/
structure Spells (layout : Layout α) (spelling : α → Bytes → Prop) : Prop where
  found : ∀ {c c' : Cursor} {a : α}, layout.read c = .ok (a, c') →
    ∃ bs, spelling a bs ∧ c.rest = bs ++ c'.rest
  whole : ∀ {a : α} {bs : Bytes}, spelling a bs → ∀ offset rest,
    layout.read ⟨offset, bs ++ rest⟩ = .ok (a, ⟨offset + bs.length, rest⟩)
  cut : ∀ {a : α} {bs : Bytes}, spelling a bs → ∀ offset part, part <+: bs → part ≠ bs →
    ∃ e, layout.read ⟨offset, part⟩ = .error e ∧ Cursor.EndsEarly ⟨offset, part⟩ e

variable {layout : Layout α} {spelling : α → Bytes → Prop} {spelling' : β → Bytes → Prop}

theorem Spells.congr {other : α → Bytes → Prop} (h : layout.Spells spelling)
    (hiff : ∀ a bs, spelling a bs ↔ other a bs) : layout.Spells other :=
  (funext fun a => funext fun bs => propext (hiff a bs)) ▸ h

/-! ## One part after another -/

/-- A shorter front of two parts ends within the first or within the second. -/
theorem cut_append {front back part : Bytes} (hpart : part <+: front ++ back)
    (hne : part ≠ front ++ back) :
    (part <+: front ∧ part ≠ front) ∨
      ∃ part', part = front ++ part' ∧ part' <+: back ∧ part' ≠ back := by
  rcases List.prefix_or_prefix_of_prefix hpart (List.prefix_append front back) with h | h
  · by_cases heq : part = front
    · subst heq
      refine .inr ⟨[], (List.append_nil part).symm, List.nil_prefix, ?_⟩
      rintro rfl
      exact hne (List.append_nil part).symm
    · exact .inl ⟨h, heq⟩
  · obtain ⟨part', rfl⟩ := h
    refine .inr ⟨part', rfl, (List.prefix_append_right_inj front).mp hpart, ?_⟩
    rintro rfl
    exact hne rfl

/-- The second part may depend on what was read as the first. -/
theorem Spells.andThen {second : α → Layout β} {whole : Layout γ}
    {rest : α → β → Bytes → Prop} (ha : layout.Spells spelling)
    (hb : ∀ a, (second a).Spells (rest a)) (join : α → β → γ)
    (hread : ∀ c, whole.read c = do
      let (x, c) ← layout.read c
      let (y, c) ← (second x).read c
      return (join x y, c)) :
    whole.Spells fun v bs => ∃ a b front back, spelling a front ∧ rest a b back ∧
      v = join a b ∧ bs = front ++ back := by
  constructor
  · intro c c' v h
    rw [hread] at h
    obtain ⟨⟨a, c₁⟩, hfirst, h⟩ := Outcome.bind_eq_ok.mp h
    obtain ⟨⟨b, c₂⟩, hsecond, h⟩ := Outcome.bind_eq_ok.mp h
    cases h
    obtain ⟨front, hfront, hrest⟩ := ha.found hfirst
    obtain ⟨back, hback, hrest'⟩ := (hb a).found hsecond
    refine ⟨front ++ back, ⟨a, b, front, back, hfront, hback, rfl, rfl⟩, ?_⟩
    rw [hrest, hrest', List.append_assoc]
  · rintro v bs ⟨a, b, front, back, hfront, hback, rfl, rfl⟩ offset tail
    rw [hread, List.append_assoc, ha.whole hfront]
    show ((second a).read ⟨offset + front.length, back ++ tail⟩ >>= fun p =>
      Except.ok (join a p.1, p.2)) = _
    rw [(hb a).whole hback, List.length_append, ← Nat.add_assoc]
    rfl
  · rintro v bs ⟨a, b, front, back, hfront, hback, rfl, rfl⟩ offset part hpart hne
    rw [hread]
    rcases cut_append hpart hne with ⟨hbegins, hshort⟩ | ⟨part', rfl, hbegins, hshort⟩
    · obtain ⟨e, he, hends⟩ := ha.cut hfront offset part hbegins hshort
      refine ⟨e, ?_, hends⟩
      rw [he]
      rfl
    · obtain ⟨e, he, needed, at', remaining, rfl, hremaining, hplace⟩ :=
        (hb a).cut hback (offset + front.length) part' hbegins hshort
      refine ⟨_, ?_, needed, at', remaining, rfl, hremaining, ?_⟩
      · rw [ha.whole hfront]
        show ((second a).read ⟨offset + front.length, part'⟩ >>= fun p =>
          Except.ok (join a p.1, p.2)) = _
        rw [he]
        rfl
      · rw [hplace]
        show offset + front.length + part'.length = offset + (front ++ part').length
        rw [List.length_append, Nat.add_assoc]

theorem Spells.both {second : Layout β} (ha : layout.Spells spelling)
    (hb : second.Spells spelling') :
    (layout.both second).Spells fun p bs => ∃ front back,
      spelling p.1 front ∧ spelling' p.2 back ∧ bs = front ++ back := by
  refine (ha.andThen (fun _ => hb) Prod.mk fun _ => rfl).congr fun p bs => ?_
  constructor
  · rintro ⟨a, b, front, back, hfront, hback, rfl, rfl⟩
    exact ⟨front, back, hfront, hback, rfl⟩
  · rintro ⟨front, back, hfront, hback, rfl⟩
    exact ⟨p.1, p.2, front, back, hfront, hback, rfl, rfl⟩

/-- The first part says how to read the second and is not kept. -/
theorem Spells.after {whole : Layout β} {rest : α → β → Bytes → Prop}
    (ha : layout.Spells spelling) (second : α → Layout β) (hb : ∀ a, (second a).Spells (rest a))
    (hread : ∀ c, whole.read c = layout.read c >>= fun p => (second p.1).read p.2) :
    whole.Spells fun b bs => ∃ a front back, spelling a front ∧ rest a b back ∧
      bs = front ++ back := by
  have h : whole.Spells _ := ha.andThen hb (fun _ b => b) fun c => (hread c).trans
    (congrArg (layout.read c >>= ·) (funext fun p => (bind_pure ((second p.1).read p.2)).symm))
  refine h.congr fun b bs => ?_
  constructor
  · rintro ⟨a, b, front, back, hfront, hback, rfl, rfl⟩
    exact ⟨a, front, back, hfront, hback, rfl⟩
  · rintro ⟨a, front, back, hfront, hback, rfl⟩
    exact ⟨a, b, front, back, hfront, hback, rfl, rfl⟩

/-- What is read is examined, and is another value or none. -/
theorem Spells.examine {whole : Layout β} (h : layout.Spells spelling)
    (examine : α → Except Error β)
    (hread : ∀ c, whole.read c = do
      let (a, c) ← layout.read c
      return (← examine a, c)) :
    whole.Spells fun b bs => ∃ a, spelling a bs ∧ examine a = .ok b := by
  constructor
  · intro c c' b hb
    rw [hread] at hb
    obtain ⟨⟨a, c₁⟩, ha, hb⟩ := Outcome.bind_eq_ok.mp hb
    obtain ⟨b', hexamine, hb⟩ := Outcome.bind_eq_ok.mp hb
    cases hb
    obtain ⟨bs, hbs, hrest⟩ := h.found ha
    exact ⟨bs, ⟨a, hbs, hexamine⟩, hrest⟩
  · rintro b bs ⟨a, hbs, hexamine⟩ offset rest
    rw [hread, h.whole hbs]
    show (examine a >>= fun b => Except.ok (b, _)) = _
    rw [hexamine]
    rfl
  · rintro b bs ⟨a, hbs, -⟩ offset part hpart hne
    obtain ⟨e, he, hends⟩ := h.cut hbs offset part hpart hne
    refine ⟨e, ?_, hends⟩
    rw [hread, he]
    rfl

theorem Spells.convert (h : layout.Spells spelling) (toValue : α → β) (ofValue : β → α) :
    (layout.convert toValue ofValue).Spells fun b bs => ∃ a, spelling a bs ∧ toValue a = b :=
  (h.examine (fun a => .ok (toValue a)) fun _ => rfl).congr fun b bs => by
    simp only [Except.ok.injEq]

/-! ## Bytes and numbers -/

theorem Cursor.take_eq_ok {n : Nat} {c c' : Cursor} {bs : Bytes} :
    c.take n = .ok (bs, c') ↔
      bs.length = n ∧ c.rest = bs ++ c'.rest ∧ c'.offset = c.offset + n := by
  unfold Cursor.take
  split
  next hle =>
    rw [Except.ok.injEq, Prod.mk.injEq]
    constructor
    · rintro ⟨rfl, rfl⟩
      exact ⟨List.length_take_of_le hle, (List.take_append_drop n c.rest).symm, rfl⟩
    · rintro ⟨rfl, hrest, hoffset⟩
      rw [hrest, List.take_left, List.drop_left, ← hoffset]
      exact ⟨rfl, rfl⟩
  next hle =>
    constructor
    · exact fun h => nomatch h
    · rintro ⟨rfl, hrest, -⟩
      rw [hrest, List.length_append] at hle
      omega

theorem spells_bytes (count : Nat) :
    (bytes count).Spells fun a bs => a.length = count ∧ bs = a := by
  constructor
  · intro c c' a h
    obtain ⟨hlen, hrest, -⟩ := Cursor.take_eq_ok.mp h
    exact ⟨a, ⟨hlen, rfl⟩, hrest⟩
  · rintro a bs ⟨rfl, rfl⟩ offset rest
    exact Cursor.take_append offset bs rest
  · rintro a bs ⟨rfl, rfl⟩ offset part hpart hne
    have hshort : part.length < bs.length :=
      Nat.lt_of_le_of_ne hpart.length_le fun h => hne (hpart.eq_of_length h)
    exact ⟨_, if_neg (Nat.not_le.mpr hshort), bs.length, offset, part.length, rfl, hshort, rfl⟩

theorem spells_byte : byte.Spells fun b bs => bs = [b] := by
  constructor
  · rintro ⟨offset, _ | ⟨b, rest⟩⟩ c' a h
    · cases h
    · cases h
      exact ⟨[b], rfl, rfl⟩
  · rintro b bs rfl offset rest
    rfl
  · rintro b bs rfl offset part hpart hne
    rcases List.prefix_cons_iff.mp hpart with rfl | ⟨tail, rfl, htail⟩
    · exact ⟨_, rfl, 1, offset, 0, rfl, Nat.one_pos, rfl⟩
    · exact absurd (by rw [List.prefix_nil.mp htail]) hne

theorem spells_word32 :
    word32.Spells fun n bs => n ≤ maxWord32 ∧ bs = Bytes.bigEndian 4 n := by
  refine ((spells_bytes 4).examine (fun bs => .ok (Bytes.ofBigEndian bs)) fun _ => rfl).congr
    fun n bs => ?_
  constructor
  · rintro ⟨a, ⟨hlen, rfl⟩, h⟩
    cases h
    have hlt := Bytes.ofBigEndian_lt bs
    have hback := Bytes.bigEndian_ofBigEndian bs
    rw [hlen] at hlt hback
    exact ⟨Nat.le_of_lt_succ hlt, hback.symm⟩
  · rintro ⟨hn, rfl⟩
    have hmod : n % Bytes.capacity 4 = n := Nat.mod_eq_of_lt (Nat.lt_succ_of_le hn)
    refine ⟨_, ⟨Bytes.length_bigEndian 4 n, rfl⟩, ?_⟩
    rw [Bytes.ofBigEndian_bigEndian, hmod]

theorem spells_participant : participant.Spells fun p bs =>
    p.toNat ≤ maxWord32 ∧ bs = Bytes.bigEndian 4 p.toNat := by
  refine (spells_word32.convert UInt64.ofNat UInt64.toNat).congr fun p bs => ?_
  constructor
  · rintro ⟨n, ⟨hn, rfl⟩, rfl⟩
    have hsmall : n < 2 ^ 64 := Nat.lt_of_le_of_lt hn (by decide)
    rw [UInt64.toNat_ofNat_of_lt' hsmall]
    exact ⟨hn, rfl⟩
  · rintro ⟨hp, rfl⟩
    exact ⟨p.toNat, ⟨hp, rfl⟩, UInt64.ofNat_toNat⟩

theorem spells_sized : sized.Spells fun a bs =>
    a.length ≤ maxWord32 ∧ bs = Bytes.bigEndian 4 a.length ++ a := by
  refine (spells_word32.after bytes spells_bytes fun _ => rfl).congr fun a bs => ?_
  constructor
  · rintro ⟨n, front, back, ⟨hn, rfl⟩, ⟨rfl, rfl⟩, rfl⟩
    exact ⟨hn, rfl⟩
  · rintro ⟨hlen, rfl⟩
    exact ⟨a.length, _, a, ⟨hlen, rfl⟩, ⟨rfl, rfl⟩, rfl⟩

/-! ## Encoded elements -/

theorem decoding_eq_ok {x : Except DecodingError α} {a : α} : decoding x = .ok a ↔ x = .ok a :=
  Outcome.mapError_eq_ok

theorem spells_element (size : Nat) (encode : α → Bytes) (decode : Bytes → Except DecodingError α) :
    (element size encode decode).Spells fun a bs => bs.length = size ∧ decode bs = .ok a := by
  refine ((spells_bytes size).examine (fun bs => decoding (decode bs)) fun _ => rfl).congr
    fun a bs => ?_
  simp only [decoding_eq_ok]
  constructor
  · rintro ⟨body, ⟨hlen, rfl⟩, h⟩
    exact ⟨hlen, h⟩
  · rintro ⟨hlen, h⟩
    exact ⟨bs, ⟨hlen, rfl⟩, h⟩

theorem spells_scalar : scalar.Spells fun s bs => bs = s.encode := by
  refine (spells_element 32 Scalar.encode Scalar.decode).congr fun s bs => ?_
  constructor
  · rintro ⟨-, h⟩
    exact (Scalar.encode_of_decode h).symm
  · rintro rfl
    exact ⟨Bytes.length_bigEndian 32 s.val, Scalar.decode_encode s⟩

/-- A spelling of a point is accepted by its decoder. -/
def spellsPoint {G : Type} [CurveGroup G] (p : G) (bs : Bytes) : Prop :=
  bs.length = CurveGroup.encodedSize G ∧ CurveGroup.decode bs = .ok p

theorem spells_point {G : Type} [CurveGroup G] : (point : Layout G).Spells spellsPoint :=
  spells_element (CurveGroup.encodedSize G) CurveGroup.encode CurveGroup.decode

theorem spells_target {T : Type} [TargetGroup T] : (target : Layout T).Spells fun t bs =>
    ∃ body, body.length ≤ maxWord32 ∧ bs = Bytes.bigEndian 4 body.length ++ body ∧
      TargetGroup.decode body = .ok t := by
  refine (spells_sized.examine (fun bs => decoding (TargetGroup.decode bs)) fun _ => rfl).congr
    fun t bs => ?_
  simp only [decoding_eq_ok, and_assoc]

/-! ## Lists and alternatives -/

theorem spells_many (h : layout.Spells spelling) (count : Nat) :
    (layout.many count).Spells fun as bs =>
      as.length = count ∧ ∃ parts, List.Forall₂ spelling as parts ∧ bs = parts.flatten := by
  induction count with
  | zero =>
    constructor
    · intro c c' as has
      cases has
      exact ⟨[], ⟨rfl, [], .nil, rfl⟩, rfl⟩
    · rintro as bs ⟨hlen, parts, hparts, rfl⟩ offset rest
      obtain rfl := List.length_eq_zero_iff.mp hlen
      obtain rfl := List.forall₂_nil_left_iff.mp hparts
      rfl
    · rintro as bs ⟨hlen, parts, hparts, rfl⟩ offset part hpart hne
      obtain rfl := List.length_eq_zero_iff.mp hlen
      obtain rfl := List.forall₂_nil_left_iff.mp hparts
      exact absurd (List.prefix_nil.mp hpart) hne
  | succ count ih =>
    refine (h.andThen (fun _ => ih) List.cons fun _ => rfl).congr fun as bs => ?_
    constructor
    · rintro ⟨a, as, front, back, hfront, ⟨rfl, parts, hparts, rfl⟩, rfl, rfl⟩
      exact ⟨rfl, front :: parts, .cons hfront hparts, rfl⟩
    · rintro ⟨hlen, parts, hparts, rfl⟩
      obtain ⟨a, as, rfl⟩ := List.exists_cons_of_length_eq_add_one hlen
      obtain ⟨front, tail, hfront, htail, rfl⟩ := List.forall₂_cons_left_iff.mp hparts
      exact ⟨a, as, front, tail.flatten, hfront, ⟨Nat.succ.inj hlen, tail, htail, rfl⟩, rfl, rfl⟩

theorem spells_counted (h : layout.Spells spelling) : layout.counted.Spells fun as bs =>
    as.length ≤ maxWord32 ∧ ∃ parts, List.Forall₂ spelling as parts ∧
      bs = Bytes.bigEndian 4 as.length ++ parts.flatten := by
  refine (spells_word32.after layout.many (spells_many h) fun _ => rfl).congr
    fun as bs => ?_
  constructor
  · rintro ⟨n, front, back, ⟨hn, rfl⟩, ⟨rfl, parts, hparts, rfl⟩, rfl⟩
    exact ⟨hn, parts, hparts, rfl⟩
  · rintro ⟨hlen, parts, hparts, rfl⟩
    exact ⟨as.length, _, parts.flatten, ⟨hlen, rfl⟩, ⟨rfl, parts, hparts, rfl⟩, rfl⟩

/-- The bodies of a tag, each with its own spellings. -/
def spellsBody (zeros : β → Bytes → Prop) (ones : γ → Bytes → Prop) :
    UInt8 → β ⊕ γ → Bytes → Prop
  | tag, .inl b, bs => tag = 0 ∧ zeros b bs
  | tag, .inr c, bs => tag = 1 ∧ ones c bs

theorem spells_afterTag {unknown : UInt8 → Malformation} {head : Layout α} {zero : Layout β}
    {one : Layout γ} {zeros : β → Bytes → Prop} {ones : γ → Bytes → Prop}
    (hhead : head.Spells spelling) (hzero : zero.Spells zeros) (hone : one.Spells ones)
    (tag : UInt8) :
    (afterTag unknown head zero one tag).Spells fun p bs => ∃ front back,
      spelling p.1 front ∧ spellsBody zeros ones tag p.2 back ∧ bs = front ++ back := by
  by_cases h0 : tag = 0
  · subst h0
    refine (hhead.andThen (fun _ => hzero) (fun a b => (a, Sum.inl b)) fun _ => rfl).congr
      fun p bs => ?_
    constructor
    · rintro ⟨a, b, front, back, hfront, hback, rfl, rfl⟩
      exact ⟨front, back, hfront, ⟨rfl, hback⟩, rfl⟩
    · rintro ⟨front, back, hfront, hback, rfl⟩
      obtain ⟨a, b | c⟩ := p
      · exact ⟨a, b, front, back, hfront, hback.2, rfl, rfl⟩
      · exact absurd hback.1 (by decide)
  · by_cases h1 : tag = 1
    · subst h1
      refine (hhead.andThen (fun _ => hone) (fun a c => (a, Sum.inr c)) fun _ => rfl).congr
        fun p bs => ?_
      constructor
      · rintro ⟨a, c, front, back, hfront, hback, rfl, rfl⟩
        exact ⟨front, back, hfront, ⟨rfl, hback⟩, rfl⟩
      · rintro ⟨front, back, hfront, hback, rfl⟩
        obtain ⟨a, b | c⟩ := p
        · exact absurd hback.1 (by decide)
        · exact ⟨a, c, front, back, hfront, hback.2, rfl, rfl⟩
    · -- Nothing is read after another tag.
      have hnone : ∀ p bs, ¬spellsBody zeros ones tag p bs := by
        rintro (b | c) bs ⟨htag, -⟩
        · exact h0 htag
        · exact h1 htag
      constructor
      · intro c c' p h
        obtain ⟨⟨a, c₁⟩, -, h⟩ := Outcome.bind_eq_ok.mp h
        simp only [if_neg h0, if_neg h1] at h
        cases h
      · rintro p bs ⟨front, back, -, hback, -⟩
        exact absurd hback (hnone _ _)
      · rintro p bs ⟨front, back, -, hback, -⟩
        exact absurd hback (hnone _ _)

theorem spells_tagged {unknown : UInt8 → Malformation} {head : Layout α} {zero : Layout β}
    {one : Layout γ} {zeros : β → Bytes → Prop} {ones : γ → Bytes → Prop}
    (hhead : head.Spells spelling) (hzero : zero.Spells zeros) (hone : one.Spells ones) :
    (tagged unknown head zero one).Spells fun p bs => ∃ tag front back,
      spelling p.1 front ∧ spellsBody zeros ones tag p.2 back ∧ bs = tag :: front ++ back := by
  refine (spells_byte.after (afterTag unknown head zero one)
    (spells_afterTag hhead hzero hone) fun _ => rfl).congr fun p bs => ?_
  constructor
  · rintro ⟨tag, _, _, rfl, ⟨front, back, hfront, hback, rfl⟩, rfl⟩
    exact ⟨tag, front, back, hfront, hback, rfl⟩
  · rintro ⟨tag, front, back, hfront, hback, rfl⟩
    exact ⟨tag, [tag], front ++ back, rfl, ⟨front, back, hfront, hback, rfl⟩, rfl⟩

/-! ## Whole inputs -/

variable {bs part extra : Bytes} {a : α}

theorem decode_eq_ok {layout : Layout α} :
    layout.decode bs = .ok a ↔ ∃ c, layout.read (.start bs) = .ok (a, c) ∧ c.rest = [] := by
  constructor
  · intro h
    obtain ⟨⟨b, c⟩, hread, h⟩ := Outcome.bind_eq_ok.mp h
    obtain ⟨_, hfinish, h⟩ := Outcome.bind_eq_ok.mp h
    cases h
    refine ⟨c, hread, ?_⟩
    by_contra hne
    rw [Cursor.finish, if_neg (by rwa [List.isEmpty_iff])] at hfinish
    cases hfinish
  · rintro ⟨⟨offset, rest⟩, hread, rfl⟩
    show (layout.read (.start bs) >>= fun p => p.2.finish >>= fun _ => Except.ok p.1) = _
    rw [hread]
    rfl

/-- An input is accepted exactly if it is a spelling as a whole. -/
theorem Spells.decode_eq_ok (h : layout.Spells spelling) :
    layout.decode bs = .ok a ↔ spelling a bs := by
  rw [Layout.decode_eq_ok]
  constructor
  · rintro ⟨c, hread, hempty⟩
    obtain ⟨front, hfront, hrest⟩ := h.found hread
    rw [hempty, List.append_nil] at hrest
    exact (show bs = front from hrest) ▸ hfront
  · intro hbs
    have hread := h.whole hbs 0 []
    rw [List.append_nil] at hread
    exact ⟨_, hread, rfl⟩

/-- What goes on after a spelling is refused for what is left. -/
theorem Spells.decode_extended (h : layout.Spells spelling) (hbs : spelling a bs)
    (hextra : extra ≠ []) :
    layout.decode (bs ++ extra) = .error (.malformedInput (.trailingBytes extra.length)) := by
  show (layout.read ⟨0, bs ++ extra⟩ >>= fun p => p.2.finish >>= fun _ => Except.ok p.1) = _
  rw [h.whole hbs]
  show (Cursor.finish ⟨0 + bs.length, extra⟩ >>= fun _ => Except.ok a) = _
  rw [Cursor.finish, if_neg (by rwa [List.isEmpty_iff])]
  rfl

/-- What ends within a spelling is refused at the part that it cuts. -/
theorem Spells.decode_truncated (h : layout.Spells spelling) (hbs : spelling a bs)
    (hpart : part <+: bs) (hne : part ≠ bs) :
    ∃ e, layout.decode part = .error e ∧ (Cursor.start part).EndsEarly e := by
  obtain ⟨e, he, hends⟩ := h.cut hbs 0 part hpart hne
  refine ⟨e, ?_, hends⟩
  show (layout.read ⟨0, part⟩ >>= fun p => p.2.finish >>= fun _ => Except.ok p.1) = _
  rw [he]
  rfl

end Layout
end ThresholdCipher
