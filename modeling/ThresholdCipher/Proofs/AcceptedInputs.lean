import ThresholdCipher.Bls12381.Target
import ThresholdCipher.Proofs.Spellings
import ThresholdCipher.Wire

/-
Which inputs are accepted as the wire form of a value.

An accepted input is accepted only as a whole: cut short it is refused where it ends, and
continued it is refused for what follows (`delimits`).  Where the decoders of the groups
accept nothing but encodings, it is moreover the written form of its value.  The one exception
is the value of a simple share.  It has its length in front, and the decoder of the target
group looks only at the front of that many bytes, so any padding after the encoding is
accepted and lost (`canonical_unless_padded`).
-/

namespace ThresholdCipher

/-! ## Layouts that accept the written form only -/

namespace Layout

variable {α β γ : Type} {layout : Layout α} {spelling : α → Bytes → Prop}

/-- Whatever is read is what would be written. -/
structure Canonical (layout : Layout α) : Prop where
  written : ∀ {c c' : Cursor} {a : α}, layout.read c = .ok (a, c') →
    ∃ bs, layout.write a = .ok bs ∧ c.rest = bs ++ c'.rest

theorem Spells.canonical (h : layout.Spells spelling)
    (hwrite : ∀ a bs, spelling a bs → layout.write a = .ok bs) : layout.Canonical := by
  constructor
  intro c c' a hread
  obtain ⟨bs, hbs, hrest⟩ := h.found hread
  exact ⟨bs, hwrite a bs hbs, hrest⟩

theorem Canonical.andThen {second : α → Layout β} {whole : Layout γ} (ha : layout.Canonical)
    (hb : ∀ a, (second a).Canonical) (join : α → β → γ)
    (hwrite : ∀ a b, whole.write (join a b) = do
      let front ← layout.write a
      let back ← (second a).write b
      return front ++ back)
    (hread : ∀ c, whole.read c = do
      let (x, c) ← layout.read c
      let (y, c) ← (second x).read c
      return (join x y, c)) :
    whole.Canonical := by
  constructor
  intro c c' v h
  rw [hread] at h
  obtain ⟨⟨a, c₁⟩, hfirst, h⟩ := Outcome.bind_eq_ok.mp h
  obtain ⟨⟨b, c₂⟩, hsecond, h⟩ := Outcome.bind_eq_ok.mp h
  cases h
  obtain ⟨front, hfront, hrest⟩ := ha.written hfirst
  obtain ⟨back, hback, hrest'⟩ := (hb a).written hsecond
  refine ⟨front ++ back, ?_, ?_⟩
  · rw [hwrite, hfront, hback]
    rfl
  · rw [hrest, hrest', List.append_assoc]

theorem Canonical.both {second : Layout β} (ha : layout.Canonical) (hb : second.Canonical) :
    (layout.both second).Canonical :=
  ha.andThen (fun _ => hb) Prod.mk (fun _ _ => rfl) fun _ => rfl

theorem Canonical.convert {toValue : α → β} {ofValue : β → α} (h : layout.Canonical)
    (hback : ∀ a, ofValue (toValue a) = a) : (layout.convert toValue ofValue).Canonical := by
  constructor
  intro c c' b hb
  obtain ⟨⟨a, c₁⟩, ha, hb⟩ := Outcome.bind_eq_ok.mp hb
  cases hb
  obtain ⟨bs, hbs, hrest⟩ := h.written ha
  refine ⟨bs, ?_, hrest⟩
  show layout.write (ofValue (toValue a)) = _
  rw [hback, hbs]

theorem Canonical.many (h : layout.Canonical) (count : Nat) :
    ∀ {c c' : Cursor} {as : List α}, (layout.many count).read c = .ok (as, c') →
      as.length = count ∧ ∃ bs, layout.writeAll as = .ok bs ∧ c.rest = bs ++ c'.rest := by
  induction count with
  | zero =>
    intro c c' as has
    cases has
    exact ⟨rfl, [], rfl, rfl⟩
  | succ count ih =>
    intro c c' as has
    obtain ⟨⟨a, c₁⟩, hfirst, has⟩ := Outcome.bind_eq_ok.mp has
    obtain ⟨⟨tail, c₂⟩, htail, has⟩ := Outcome.bind_eq_ok.mp has
    cases has
    obtain ⟨front, hfront, hrest⟩ := h.written hfirst
    obtain ⟨rfl, back, hback, hrest'⟩ := ih htail
    refine ⟨rfl, front ++ back, ?_, ?_⟩
    · rw [writeAll, hfront, hback]
      rfl
    · rw [hrest, hrest', List.append_assoc]

theorem write_word32_eq_ok {n : Nat} {bs : Bytes} :
    word32.write n = .ok bs ↔ n ≤ maxWord32 ∧ bs = Bytes.bigEndian 4 n := by
  show (if maxWord32 < n then _ else _) = _ ↔ _
  split
  next hlarge => exact ⟨fun h => (nomatch h), fun h => absurd h.1 (Nat.not_le.mpr hlarge)⟩
  next hsmall =>
    rw [Except.ok.injEq]
    exact ⟨fun h => ⟨Nat.not_lt.mp hsmall, h.symm⟩, fun h => h.2.symm⟩

theorem write_sized_eq_ok {body bs : Bytes} : sized.write body = .ok bs ↔
    body.length ≤ maxWord32 ∧ bs = Bytes.bigEndian 4 body.length ++ body := by
  show (word32.write body.length >>= fun length => Except.ok (length ++ body)) = _ ↔ _
  rw [Outcome.bind_eq_ok]
  constructor
  · rintro ⟨length, hlength, h⟩
    obtain ⟨hsmall, rfl⟩ := write_word32_eq_ok.mp hlength
    cases h
    exact ⟨hsmall, rfl⟩
  · rintro ⟨hsmall, rfl⟩
    exact ⟨_, write_word32_eq_ok.mpr ⟨hsmall, rfl⟩, rfl⟩

theorem Canonical.counted (h : layout.Canonical) : layout.counted.Canonical := by
  constructor
  intro c c' as has
  obtain ⟨⟨count, c₁⟩, hcount, has⟩ := Outcome.bind_eq_ok.mp has
  obtain ⟨front, ⟨hsmall, rfl⟩, hrest⟩ := spells_word32.found hcount
  obtain ⟨rfl, back, hback, hrest'⟩ := h.many count has
  refine ⟨Bytes.bigEndian 4 as.length ++ back, ?_, ?_⟩
  · show (word32.write as.length >>= fun count => layout.writeAll as >>= fun entries =>
      Except.ok (count ++ entries)) = _
    rw [write_word32_eq_ok.mpr ⟨hsmall, rfl⟩, hback]
    rfl
  · rw [hrest, hrest', List.append_assoc]

theorem canonical_participant : participant.Canonical :=
  spells_participant.canonical fun _ _ h => write_word32_eq_ok.mpr h

theorem canonical_scalar : scalar.Canonical :=
  spells_scalar.canonical fun _ _ hbs => hbs ▸ rfl

theorem canonical_sized : sized.Canonical :=
  spells_sized.canonical fun _ _ h => write_sized_eq_ok.mpr h

theorem Canonical.write_of_decode {bs : Bytes} {a : α} (h : layout.Canonical)
    (hdecode : layout.decode bs = .ok a) : layout.write a = .ok bs := by
  obtain ⟨c, hread, hempty⟩ := decode_eq_ok.mp hdecode
  obtain ⟨written, hwritten, hrest⟩ := h.written hread
  rw [hempty, List.append_nil] at hrest
  exact hwritten.trans (congrArg Except.ok hrest.symm)

end Layout

/-! ## Decoders of the groups -/

/-- A curve group whose decoder accepts nothing but encodings. -/
class CanonicalPointDecoding (G : Type) [CurveGroup G] : Prop where
  encode_of_decode : ∀ {bs : Bytes} {p : G}, CurveGroup.decode bs = .ok p →
    CurveGroup.encode p = bs

/-- A target group whose decoder looks for an encoding at the front of the bytes and does not
look at any that follow. -/
class FrontTargetDecoding (T : Type) [TargetGroup T] : Prop where
  decode_eq_ok_iff : ∀ {bs : Bytes} {t : T}, TargetGroup.decode bs = .ok t ↔
    ∃ front padding, TargetGroup.encode t = some front ∧ bs = front ++ padding

/-- The decoder of the BLS12-381 target group is of this kind: it takes six coordinates of 48
bytes each. -/
theorem Bls12381.Fp12.decompress_append {bs : Bytes} (h : 288 ≤ bs.length) (padding : Bytes) :
    decompress (bs ++ padding) = decompress bs := by
  have hcoordinate : ∀ i < 6,
      ((bs ++ padding).drop (48 * i)).take 48 = (bs.drop (48 * i)).take 48 := by
    intro i hi
    rw [List.drop_append_of_le_length (by omega), List.take_append_of_le_length]
    rw [List.length_drop]
    omega
  have hlong : ¬(bs ++ padding).length < 288 := by
    rw [List.length_append]
    omega
  have hfront : Fp6.ofBytes? (bs ++ padding) = Fp6.ofBytes? bs := by
    unfold Fp6.ofBytes?
    rw [if_neg hlong, if_neg (Nat.not_lt.mpr h)]
    simp only [hcoordinate 0 (by decide), hcoordinate 1 (by decide), hcoordinate 2 (by decide),
      hcoordinate 3 (by decide), hcoordinate 4 (by decide), hcoordinate 5 (by decide)]
  rw [decompress, decompress, hfront]

theorem Layout.canonical_point {G : Type} [CurveGroup G] [CanonicalPointDecoding G] :
    (Layout.point : Layout G).Canonical :=
  Layout.spells_point.canonical fun _ _ h =>
    congrArg Except.ok (CanonicalPointDecoding.encode_of_decode h.2)

namespace Wire

variable {G1 G2 T : Type} [CurveGroup G1] [CurveGroup G2] [TargetGroup T]

theorem canonical_seat : seat.Canonical := Layout.canonical_participant.both Layout.canonical_scalar

theorem canonical_keyShare : (layout : Layout KeyShare).Canonical :=
  (canonical_seat.both Layout.canonical_scalar).convert fun _ => rfl

theorem canonical_vector [CanonicalPointDecoding G1] :
    (layout : Layout (VerificationVector G1)).Canonical := by
  have hentry : (entry : Layout (ShareCommitment G1)).Canonical :=
    (canonical_seat.both Layout.canonical_point).convert fun _ => rfl
  exact (Layout.canonical_point.both hentry.counted).convert fun _ => rfl

theorem canonical_ciphertext [CanonicalPointDecoding G1] [CanonicalPointDecoding G2] :
    (layout : Layout (Ciphertext G1 G2)).Canonical := by
  have hheader : (header : Layout (Header G1 G2)).Canonical :=
    (Layout.canonical_point.both (Layout.canonical_point.both Layout.canonical_point)).convert
      fun _ => rfl
  exact (hheader.both Layout.canonical_sized).convert fun _ => rfl

theorem canonical_prepared [CanonicalPointDecoding G2] :
    (layout : Layout (PreparedDecryptionShare G2)).Canonical :=
  (canonical_seat.both Layout.canonical_point).convert fun _ => rfl

/-! ## Spellings of the exchanged values -/

/-- The bytes of a participant and its point. -/
def seatBytes (p : Participant) (x : Scalar) : Bytes := Bytes.bigEndian 4 p.toNat ++ x.encode

def proofBytes (proof : EqualityProof) : Bytes := proof.challenge.encode ++ proof.response.encode

/-- The bytes of a simple share in which `body` stands for the value. -/
def simpleForm (s : SimpleShare T) (body : Bytes) : Bytes :=
  1 :: seatBytes s.participant s.domainPoint ++
    (Bytes.bigEndian 4 body.length ++ body ++ proofBytes s.proof)

omit [TargetGroup T] in
theorem length_simpleForm (s : SimpleShare T) (body : Bytes) :
    (simpleForm s body).length = 105 + body.length := by
  simp only [simpleForm, seatBytes, proofBytes, Scalar.encode, List.length_append,
    List.length_cons, Bytes.length_bigEndian]
  omega

theorem spells_seat : seat.Spells fun s bs =>
    s.1.toNat ≤ maxWord32 ∧ bs = seatBytes s.1 s.2 := by
  refine (Layout.spells_participant.both Layout.spells_scalar).congr fun s bs => ?_
  constructor
  · rintro ⟨front, back, ⟨hsmall, rfl⟩, rfl, rfl⟩
    exact ⟨hsmall, rfl⟩
  · rintro ⟨hsmall, rfl⟩
    exact ⟨_, _, ⟨hsmall, rfl⟩, rfl, rfl⟩

theorem spells_proof : proof.Spells fun p bs => bs = proofBytes p := by
  refine ((Layout.spells_scalar.both Layout.spells_scalar).convert _ _).congr fun p bs => ?_
  constructor
  · rintro ⟨a, ⟨front, back, rfl, rfl, rfl⟩, rfl⟩
    rfl
  · rintro rfl
    exact ⟨(p.challenge, p.response), ⟨_, _, rfl, rfl, rfl⟩, rfl⟩

/-- The spellings of a decryption share; those of the value of a simple share are whatever the
target group decodes to it. -/
def spellsShare : DecryptionShare G2 T → Bytes → Prop
  | .fast s, bs => s.participant.toNat ≤ maxWord32 ∧ ∃ body, Layout.spellsPoint s.value body ∧
      bs = 0 :: seatBytes s.participant s.domainPoint ++ body
  | .simple s, bs => s.participant.toNat ≤ maxWord32 ∧ ∃ body, body.length ≤ maxWord32 ∧
      TargetGroup.decode body = .ok s.value ∧ bs = simpleForm s body

theorem spells_decryptionShare : (layout : Layout (DecryptionShare G2 T)).Spells spellsShare := by
  refine ((Layout.spells_tagged spells_seat Layout.spells_point
    (Layout.spells_target.both spells_proof)).convert _ _).congr fun share bs => ?_
  constructor
  · rintro ⟨⟨⟨p, x⟩, value | ⟨value, proof⟩⟩, ⟨tag, front, back, ⟨hsmall, rfl⟩, hback, rfl⟩, rfl⟩
    · obtain ⟨rfl, hvalue⟩ := hback
      exact ⟨hsmall, back, hvalue, rfl⟩
    · obtain ⟨rfl, first, last, ⟨body, hlen, rfl, hdecode⟩, rfl, rfl⟩ := hback
      exact ⟨hsmall, body, hlen, hdecode, rfl⟩
  · cases share with
    | fast s =>
      rintro ⟨hsmall, body, hvalue, rfl⟩
      exact ⟨((s.participant, s.domainPoint), .inl s.value),
        ⟨0, _, body, ⟨hsmall, rfl⟩, ⟨rfl, hvalue⟩, rfl⟩, rfl⟩
    | simple s =>
      rintro ⟨hsmall, body, hlen, hdecode, rfl⟩
      exact ⟨((s.participant, s.domainPoint), .inr (s.value, s.proof)),
        ⟨1, _, _, ⟨hsmall, rfl⟩, ⟨rfl, _, _, ⟨body, hlen, rfl, hdecode⟩, rfl, rfl⟩, rfl⟩, rfl⟩

/-! ## What is written for a decryption share -/

theorem write_seat_eq_ok {s : Participant × Scalar} {bs : Bytes} :
    seat.write s = .ok bs ↔ s.1.toNat ≤ maxWord32 ∧ bs = seatBytes s.1 s.2 := by
  show (Layout.word32.write s.1.toNat >>= fun front => Except.ok (front ++ s.2.encode)) = _ ↔ _
  rw [Outcome.bind_eq_ok]
  constructor
  · rintro ⟨front, hfront, h⟩
    obtain ⟨hsmall, rfl⟩ := Layout.write_word32_eq_ok.mp hfront
    cases h
    exact ⟨hsmall, rfl⟩
  · rintro ⟨hsmall, rfl⟩
    exact ⟨_, Layout.write_word32_eq_ok.mpr ⟨hsmall, rfl⟩, rfl⟩

theorem encode_fast_of_decode [CanonicalPointDecoding G2] {bs : Bytes} {s : FastShare G2}
    (h : decode bs = .ok (.fast s : DecryptionShare G2 T)) :
    encode (.fast s : DecryptionShare G2 T) = .ok bs := by
  obtain ⟨hsmall, body, hbody, rfl⟩ := spells_decryptionShare.decode_eq_ok.mp h
  show (seat.write (s.participant, s.domainPoint) >>= fun front =>
    Except.ok (0 :: front ++ CurveGroup.encode s.value)) = _
  rw [write_seat_eq_ok.mpr ⟨hsmall, rfl⟩, CanonicalPointDecoding.encode_of_decode hbody.2]
  rfl

theorem write_target_eq_ok {t : T} {bs : Bytes} :
    (Layout.target : Layout T).write t = .ok bs ↔ ∃ body, body.length ≤ maxWord32 ∧
      TargetGroup.encode t = some body ∧ bs = Bytes.bigEndian 4 body.length ++ body := by
  show (encodeTarget t >>= Layout.sized.write) = _ ↔ _
  rw [encodeTarget]
  cases TargetGroup.encode t with
  | none =>
    constructor
    · intro h
      cases h
    · rintro ⟨body, -, h, -⟩
      cases h
  | some body =>
    show Layout.sized.write body = _ ↔ _
    rw [Layout.write_sized_eq_ok]
    constructor
    · rintro ⟨hlen, rfl⟩
      exact ⟨body, hlen, rfl, rfl⟩
    · rintro ⟨body', hlen, h, rfl⟩
      cases h
      exact ⟨hlen, rfl⟩

/-- A simple share is written with the encoding of its value and nothing after it. -/
theorem encode_simple_eq_ok {bs : Bytes} {s : SimpleShare T} :
    encode (.simple s : DecryptionShare G2 T) = .ok bs ↔ s.participant.toNat ≤ maxWord32 ∧
      ∃ body, body.length ≤ maxWord32 ∧ TargetGroup.encode s.value = some body ∧
        bs = simpleForm s body := by
  show (seat.write (s.participant, s.domainPoint) >>= fun front =>
    ((Layout.target : Layout T).write s.value >>= fun value =>
      Except.ok (value ++ proofBytes s.proof)) >>= fun back =>
        Except.ok (1 :: front ++ back)) = _ ↔ _
  rw [Outcome.bind_eq_ok]
  constructor
  · rintro ⟨front, hfront, h⟩
    obtain ⟨back, hback, h⟩ := Outcome.bind_eq_ok.mp h
    obtain ⟨value, hvalue, hback⟩ := Outcome.bind_eq_ok.mp hback
    obtain ⟨hsmall, rfl⟩ := write_seat_eq_ok.mp hfront
    obtain ⟨body, hlen, hencode, rfl⟩ := write_target_eq_ok.mp hvalue
    cases hback
    cases h
    exact ⟨hsmall, body, hlen, hencode, rfl⟩
  · rintro ⟨hsmall, body, hlen, hencode, rfl⟩
    refine ⟨_, write_seat_eq_ok.mpr ⟨hsmall, rfl⟩, ?_⟩
    rw [write_target_eq_ok.mpr ⟨body, hlen, hencode, rfl⟩]
    rfl

/-! ## Cut and continued inputs -/

/-- Where an input is accepted, none that it begins with and none that begins with it is. -/
structure Delimits (α : Type) [Wire α] : Prop where
  truncated : ∀ {bs part : Bytes} {a : α}, decode bs = .ok a → part <+: bs → part ≠ bs →
    ∃ needed offset remaining, remaining < needed ∧ offset + remaining = part.length ∧
      (decode part : Except Error α) =
        .error (.malformedInput (.shortInput needed offset remaining))
  extended : ∀ {bs extra : Bytes} {a : α}, decode bs = .ok a → extra ≠ [] →
    (decode (bs ++ extra) : Except Error α) =
      .error (.malformedInput (.trailingBytes extra.length))
  alone : ∀ {bs bs' : Bytes} {a a' : α}, decode bs = .ok a → decode bs' = .ok a' → bs <+: bs' →
    bs = bs'

theorem delimits_of_spells {α : Type} [Wire α] {spelling : α → Bytes → Prop}
    (h : (layout : Layout α).Spells spelling) : Delimits α := by
  have htruncated : ∀ {bs part : Bytes} {a : α}, decode bs = .ok a → part <+: bs → part ≠ bs →
      ∃ needed offset remaining, remaining < needed ∧ offset + remaining = part.length ∧
        (decode part : Except Error α) =
          .error (.malformedInput (.shortInput needed offset remaining)) := by
    intro bs part a hbs hpart hne
    obtain ⟨e, he, needed, offset, remaining, rfl, hremaining, hplace⟩ :=
      h.decode_truncated (h.decode_eq_ok.mp hbs) hpart hne
    rw [Cursor.start, Nat.zero_add] at hplace
    exact ⟨needed, offset, remaining, hremaining, hplace, he⟩
  refine ⟨htruncated, fun hbs hextra => h.decode_extended (h.decode_eq_ok.mp hbs) hextra, ?_⟩
  intro bs bs' a a' hbs hbs' hpart
  by_contra hne
  obtain ⟨needed, offset, remaining, -, -, hshort⟩ := htruncated hbs' hpart hne
  rw [hbs] at hshort
  cases hshort

/-- No format accepts an input that another accepted input begins with, and each names the
place where an input ends or goes on. -/
theorem delimits : Delimits KeyShare ∧ Delimits (VerificationVector G1) ∧
    Delimits (Ciphertext G1 G2) ∧ Delimits (DecryptionShare G2 T) ∧
    Delimits (PreparedDecryptionShare G2) := by
  refine ⟨?_, ?_, ?_, ?_, ?_⟩
  · exact delimits_of_spells ((spells_seat.both Layout.spells_scalar).convert _ _)
  · have hentry : (entry : Layout (ShareCommitment G1)).Spells _ :=
      (spells_seat.both Layout.spells_point).convert _ _
    exact delimits_of_spells
      ((Layout.spells_point.both (Layout.spells_counted hentry)).convert _ _)
  · have hheader : (header : Layout (Header G1 G2)).Spells _ :=
      (Layout.spells_point.both (Layout.spells_point.both Layout.spells_point)).convert _ _
    exact delimits_of_spells ((hheader.both Layout.spells_sized).convert _ _)
  · exact delimits_of_spells spells_decryptionShare
  · exact delimits_of_spells ((spells_seat.both Layout.spells_point).convert _ _)

/-- A key share cut by a byte and continued by one. -/
theorem delimits_first_participant :
    (decode (seatBytes 0 1 ++ Bytes.bigEndian 32 8) : Except Error KeyShare) = .ok ⟨0, 1, 8⟩ ∧
    (∃ needed offset remaining, remaining < needed ∧ offset + remaining = 67 ∧
      (decode ((seatBytes 0 1 ++ Bytes.bigEndian 32 8).take 67) : Except Error KeyShare) =
        .error (.malformedInput (.shortInput needed offset remaining))) ∧
    (decode (seatBytes 0 1 ++ Bytes.bigEndian 32 8 ++ [0]) : Except Error KeyShare) =
      .error (.malformedInput (.trailingBytes 1)) := by
  have hdecode : (decode (seatBytes 0 1 ++ Bytes.bigEndian 32 8) : Except Error KeyShare) =
      .ok ⟨0, 1, 8⟩ := by cbv
  obtain ⟨hshare, -⟩ := @delimits LogPoint LogPoint LogTarget _ _ _
  exact ⟨hdecode, hshare.truncated hdecode (List.take_prefix 67 _) (by decide),
    hshare.extended hdecode (by decide)⟩

/-! ## Accepted inputs as written forms -/

/-- An accepted input is the written form of its value, except that the value of a simple share
may be followed by padding.  Such a share is the written form exactly if there is none, and is
accepted with any that its length field can count. -/
theorem canonical_unless_padded [CanonicalPointDecoding G1] [CanonicalPointDecoding G2]
    [FrontTargetDecoding T] :
    (∀ (bs : Bytes) (share : KeyShare), decode bs = .ok share → encode share = .ok bs) ∧
    (∀ (bs : Bytes) (vector : VerificationVector G1), decode bs = .ok vector →
      encode vector = .ok bs) ∧
    (∀ (bs : Bytes) (ciphertext : Ciphertext G1 G2), decode bs = .ok ciphertext →
      encode ciphertext = .ok bs) ∧
    (∀ (bs : Bytes) (share : PreparedDecryptionShare G2), decode bs = .ok share →
      encode share = .ok bs) ∧
    (∀ (bs : Bytes) (s : FastShare G2), decode bs = .ok (.fast s : DecryptionShare G2 T) →
      encode (.fast s : DecryptionShare G2 T) = .ok bs) ∧
    (∀ (bs : Bytes) (s : SimpleShare T), decode bs = .ok (.simple s : DecryptionShare G2 T) →
      ∃ front padding, TargetGroup.encode s.value = some front ∧
        bs = simpleForm s (front ++ padding) ∧
        (encode (.simple s : DecryptionShare G2 T) = .ok bs ↔ padding = [])) ∧
    ∀ (s : SimpleShare T) (front padding : Bytes), TargetGroup.encode s.value = some front →
      s.participant.toNat ≤ maxWord32 → (front ++ padding).length ≤ maxWord32 →
      decode (simpleForm s (front ++ padding)) = .ok (.simple s : DecryptionShare G2 T) := by
  refine ⟨fun _ _ => canonical_keyShare.write_of_decode,
    fun _ _ => canonical_vector.write_of_decode, fun _ _ => canonical_ciphertext.write_of_decode,
    fun _ _ => canonical_prepared.write_of_decode, fun _ _ => encode_fast_of_decode, ?_, ?_⟩
  · intro bs s hdecode
    obtain ⟨hsmall, body, hlen, hbody, rfl⟩ := spells_decryptionShare.decode_eq_ok.mp hdecode
    obtain ⟨front, padding, hfront, rfl⟩ := FrontTargetDecoding.decode_eq_ok_iff.mp hbody
    refine ⟨front, padding, hfront, rfl, ?_⟩
    rw [encode_simple_eq_ok]
    constructor
    · rintro ⟨-, written, -, hwritten, hsame⟩
      cases hfront.symm.trans hwritten
      have hlength := congrArg List.length hsame
      rw [length_simpleForm, length_simpleForm, List.length_append] at hlength
      exact List.length_eq_zero_iff.mp (by omega)
    · rintro rfl
      rw [List.append_nil] at hlen ⊢
      exact ⟨hsmall, front, hlen, hfront, rfl⟩
  · intro s front padding hfront hsmall hlen
    exact spells_decryptionShare.decode_eq_ok.mpr ⟨hsmall, front ++ padding, hlen,
      FrontTargetDecoding.decode_eq_ok_iff.mpr ⟨front, padding, hfront, rfl⟩, rfl⟩

end Wire

/-! ## Decoders of the model -/

instance : CanonicalPointDecoding LogPoint where
  encode_of_decode h := by
    obtain ⟨s, hs, hp⟩ := Outcome.map_eq_ok.mp h
    rw [← hp]
    exact Scalar.encode_of_decode hs

/-- A target element known by its exponent, with a decoder that reads 32 bytes and ignores
those after them. -/
structure FrontTarget where
  log : Scalar
  deriving DecidableEq

def FrontTarget.ofScalar (s : Scalar) : Except DecodingError FrontTarget :=
  if s = 0 then .error (.bytes .target) else .ok ⟨s⟩

instance : TargetGroup FrontTarget where
  one := ⟨0⟩
  mul s t := ⟨s.log + t.log⟩
  pow t a := ⟨t.log * a⟩
  decEq := inferInstance
  encode t := if t.log = 0 then none else some t.log.encode
  decode bs := Scalar.decode (bs.take 32) >>= FrontTarget.ofScalar

instance : FrontTargetDecoding FrontTarget where
  decode_eq_ok_iff := by
    intro bs t
    show (Scalar.decode (bs.take 32) >>= FrontTarget.ofScalar) = .ok t ↔
      ∃ front padding, (if t.log = 0 then none else some t.log.encode) = some front ∧
        bs = front ++ padding
    rw [Outcome.bind_eq_ok]
    constructor
    · rintro ⟨s, hs, h⟩
      unfold FrontTarget.ofScalar at h
      split at h
      next => cases h
      next hne =>
        cases h
        refine ⟨s.encode, bs.drop 32, if_neg hne, ?_⟩
        rw [Scalar.encode_of_decode hs, List.take_append_drop]
    · rintro ⟨front, padding, hfront, rfl⟩
      split at hfront
      next => cases hfront
      next hne =>
        cases hfront
        have htake : (t.log.encode ++ padding).take 32 = t.log.encode :=
          List.take_left' (Bytes.length_bigEndian 32 t.log.val)
        exact ⟨t.log, by rw [htake, Scalar.decode_encode], if_neg hne⟩

namespace Wire

/-- Two inputs that are accepted as one share, of which only the shorter is written for it. -/
theorem two_inputs_one_share :
    decode (simpleForm ⟨0, 1, (⟨56⟩ : FrontTarget), ⟨1, 2⟩⟩ (Scalar.encode 56)) =
      .ok (.simple ⟨0, 1, ⟨56⟩, ⟨1, 2⟩⟩ : DecryptionShare LogPoint FrontTarget) ∧
    decode (simpleForm ⟨0, 1, (⟨56⟩ : FrontTarget), ⟨1, 2⟩⟩ (Scalar.encode 56 ++ [255])) =
      .ok (.simple ⟨0, 1, ⟨56⟩, ⟨1, 2⟩⟩ : DecryptionShare LogPoint FrontTarget) ∧
    encode (.simple ⟨0, 1, ⟨56⟩, ⟨1, 2⟩⟩ : DecryptionShare LogPoint FrontTarget) =
      .ok (simpleForm ⟨0, 1, (⟨56⟩ : FrontTarget), ⟨1, 2⟩⟩ (Scalar.encode 56)) ∧
    simpleForm ⟨0, 1, (⟨56⟩ : FrontTarget), ⟨1, 2⟩⟩ (Scalar.encode 56) ≠
      simpleForm ⟨0, 1, (⟨56⟩ : FrontTarget), ⟨1, 2⟩⟩ (Scalar.encode 56 ++ [255]) := by
  have hfront : TargetGroup.encode (⟨56⟩ : FrontTarget) = some (Scalar.encode 56) := by decide
  have haccepted : ∀ padding, (Scalar.encode 56 ++ padding).length ≤ maxWord32 →
      decode (simpleForm ⟨0, 1, (⟨56⟩ : FrontTarget), ⟨1, 2⟩⟩ (Scalar.encode 56 ++ padding)) =
        .ok (.simple ⟨0, 1, ⟨56⟩, ⟨1, 2⟩⟩ : DecryptionShare LogPoint FrontTarget) := by
    intro padding hlen
    exact spells_decryptionShare.decode_eq_ok.mpr ⟨by decide, _, hlen,
      FrontTargetDecoding.decode_eq_ok_iff.mpr ⟨_, padding, hfront, rfl⟩, rfl⟩
  refine ⟨?_, haccepted [255] (by decide), ?_, fun h => ?_⟩
  · have hplain := haccepted [] (by decide)
    rwa [List.append_nil] at hplain
  · exact encode_simple_eq_ok.mpr ⟨by decide, _, by decide, hfront, rfl⟩
  · have hlength := congrArg List.length h
    rw [length_simpleForm, length_simpleForm] at hlength
    simp at hlength

/-- A simple share of the first participant with one byte after the encoding of its value. -/
theorem canonical_unless_padded_one_byte :
    decode (simpleForm ⟨0, 1, (⟨56⟩ : FrontTarget), ⟨1, 2⟩⟩ (Scalar.encode 56 ++ [255])) =
      .ok (.simple ⟨0, 1, ⟨56⟩, ⟨1, 2⟩⟩ : DecryptionShare LogPoint FrontTarget) ∧
    encode (.simple ⟨0, 1, ⟨56⟩, ⟨1, 2⟩⟩ : DecryptionShare LogPoint FrontTarget) ≠
      .ok (simpleForm ⟨0, 1, (⟨56⟩ : FrontTarget), ⟨1, 2⟩⟩ (Scalar.encode 56 ++ [255])) := by
  obtain ⟨-, -, -, -, -, hexact, hpadded⟩ := @canonical_unless_padded LogPoint LogPoint
    FrontTarget _ _ _ _ _ _
  have hfront : TargetGroup.encode (⟨56⟩ : FrontTarget) = some (Scalar.encode 56) := by decide
  have hdecode := hpadded ⟨0, 1, ⟨56⟩, ⟨1, 2⟩⟩ (Scalar.encode 56) [255] hfront (by decide)
    (by decide)
  refine ⟨hdecode, fun hencode => ?_⟩
  obtain ⟨front, padding, hsame, hform, hiff⟩ := hexact _ _ hdecode
  cases hfront.symm.trans hsame
  have hpadding : padding = [] := hiff.mp hencode
  have hlength := congrArg List.length hform
  rw [length_simpleForm, length_simpleForm, hpadding] at hlength
  simp at hlength

end Wire
end ThresholdCipher
