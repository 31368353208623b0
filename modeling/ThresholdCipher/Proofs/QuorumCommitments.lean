import ThresholdCipher.Proofs.FullQuorum
import ThresholdCipher.Proofs.Transcripts

/-
The commitments that a quorum's prepared shares are checked against.

A quorum lists its members, their points and their weights apart from each other, and the vector
finds entries by participant alone.  `Quorum.seats` puts members and points together.  Where the
vector has every member at its seat, the prepared commitments commit to the members' logarithms
with their weights, in the quorum's order (`prepare_eq_ok`).  So a prepared share passes its check
exactly if it is its member's multiple of `v`.
-/

namespace ThresholdCipher

variable {participants : List Participant} {points : List Scalar} {quorum : Quorum}
  {p : Participant} {x : Scalar}

/-! ## The members of a quorum -/

namespace Quorum

/-- The members with their points, in the quorum's order. -/
def seats (quorum : Quorum) : List Seat :=
  (quorum.participants.zip quorum.domainPoints).map fun member => ⟨member.1, member.2⟩

/-- The vector has an entry for each member, at the quorum's point for it. -/
def SeatedIn {G : Type} (quorum : Quorum) (vector : VerificationVector G) : Prop :=
  ∀ seat ∈ quorum.seats, ∃ entry, vector.entry? seat.participant = some entry ∧
    entry.domainPoint = seat.domainPoint

/-- A member's logarithm with its weight at zero. -/
def weighted (quorum : Quorum) (s : Participant → Scalar) (seat : Seat) : Scalar :=
  Interpolation.weight quorum.domainPoints 0 seat.domainPoint * s seat.participant

theorem getElem?_seats {i : Nat} :
    quorum.seats[i]? = some ⟨p, x⟩ ↔
      quorum.participants[i]? = some p ∧ quorum.domainPoints[i]? = some x := by
  rw [seats, List.getElem?_map, Option.map_eq_some_iff]
  constructor
  · intro h
    obtain ⟨⟨q, y⟩, hmember, hseat⟩ := h
    cases hseat
    exact List.getElem?_zip_eq_some.mp hmember
  · intro h
    exact ⟨(p, x), List.getElem?_zip_eq_some.mpr h, rfl⟩

variable (hquorum : (new participants points).result = .ok quorum)

include hquorum

theorem participants_seats : quorum.seats.map (·.participant) = quorum.participants := by
  obtain ⟨hlen, -, -, -, rfl⟩ := new_eq_ok.mp hquorum
  rw [seats, List.map_map]
  exact List.map_fst_zip hlen.le

theorem mem_participants : p ∈ quorum.participants ↔ ∃ x, ⟨p, x⟩ ∈ quorum.seats := by
  rw [← participants_seats hquorum, List.mem_map]
  constructor
  · intro h
    obtain ⟨⟨q, x⟩, hseat, rfl⟩ := h
    exact ⟨x, hseat⟩
  · intro h
    obtain ⟨x, hseat⟩ := h
    exact ⟨_, hseat, rfl⟩

/-- A member's seat is where its participant stands, and nowhere else. -/
theorem mem_seats_iff :
    ⟨p, x⟩ ∈ quorum.seats ↔
      ∃ i, quorum.participants.idxOf? p = some i ∧ quorum.domainPoints[i]? = some x := by
  rw [List.mem_iff_getElem?]
  constructor
  · intro h
    obtain ⟨i, hi⟩ := h
    obtain ⟨hp, hx⟩ := getElem?_seats.mp hi
    obtain ⟨hlt, rfl⟩ := List.getElem?_eq_some_iff.mp hp
    exact ⟨i, idxOf?_getElem (nodup_of_new hquorum).1 hlt, hx⟩
  · intro h
    obtain ⟨i, hi, hx⟩ := h
    obtain ⟨hlt, rfl, -⟩ := List.idxOf?_eq_some_iff.mp hi
    exact ⟨i, getElem?_seats.mpr ⟨List.getElem?_eq_getElem hlt, hx⟩⟩

theorem eq_of_mem_seats {y : Scalar} (hx : ⟨p, x⟩ ∈ quorum.seats) (hy : ⟨p, y⟩ ∈ quorum.seats) :
    x = y := by
  obtain ⟨i, hi, hx⟩ := (mem_seats_iff hquorum).mp hx
  obtain ⟨j, hj, hy⟩ := (mem_seats_iff hquorum).mp hy
  cases hi.symm.trans hj
  exact Option.some.inj (hx.symm.trans hy)

/-- Members have weights at their seats, and nobody has one anywhere else. -/
theorem weight_eq_ok_iff {w : Scalar} :
    quorum.weight p x = .ok w ↔
      ⟨p, x⟩ ∈ quorum.seats ∧ Interpolation.weight quorum.domainPoints 0 x = w := by
  have hweights : quorum.weights = quorum.domainPoints.map
      (Interpolation.weight quorum.domainPoints 0) := by
    obtain ⟨-, -, -, -, rfl⟩ := new_eq_ok.mp hquorum
    rfl
  rw [weight_eq_ok, mem_seats_iff hquorum, hweights]
  constructor
  · intro h
    obtain ⟨i, hi, hx, hw⟩ := h
    rw [List.getElem?_map, hx, Option.map_some, Option.some.injEq] at hw
    exact ⟨⟨i, hi, hx⟩, hw⟩
  · intro h
    obtain ⟨⟨i, hi, hx⟩, hw⟩ := h
    refine ⟨i, hi, hx, ?_⟩
    rw [List.getElem?_map, hx, Option.map_some, hw]

end Quorum

/-! ## Their commitments -/

namespace PreparedCommitments

section

variable {G : Type} [CurveGroup G] {vector : VerificationVector G}
  {prepared : PreparedCommitments G}

/-- Every member that is seated in the vector gets a commitment. -/
theorem exists_prepare (hquorum : (Quorum.new participants points).result = .ok quorum)
    (hseated : quorum.SeatedIn vector) : ∃ prepared, prepare vector quorum = .ok prepared := by
  have hfound : ∀ p ∈ quorum.participants, ∃ entry, Quorum.requireEntry vector p = .ok entry := by
    intro p hp
    obtain ⟨x, hseat⟩ := (Quorum.mem_participants hquorum).mp hp
    obtain ⟨entry, hentry, -⟩ := hseated _ hseat
    exact ⟨entry, Quorum.requireEntry_eq_ok.mpr hentry⟩
  obtain ⟨entries, hentries⟩ := Outcome.exists_mapM_eq_ok hfound
  have hscaled : ∀ entry ∈ entries, ∃ c : G, (do
      let weight ← quorum.weight entry.participant entry.domainPoint
      return weight • entry.commitment) = Except.ok c := by
    intro entry hentry
    obtain ⟨p, hp, hrequired⟩ := Outcome.mem_of_mapM hentries hentry
    have hlookup := Quorum.requireEntry_eq_ok.mp hrequired
    obtain ⟨x, hseat⟩ := (Quorum.mem_participants hquorum).mp hp
    obtain ⟨own, hown, rfl⟩ := hseated _ hseat
    cases hlookup.symm.trans hown
    obtain ⟨-, rfl⟩ := VerificationVector.mem_of_lookup hlookup
    rw [(Quorum.weight_eq_ok_iff hquorum).mpr ⟨hseat, rfl⟩]
    exact ⟨_, rfl⟩
  obtain ⟨commitments, hcommitments⟩ := Outcome.exists_mapM_eq_ok hscaled
  exact ⟨_, Outcome.bind_eq_ok.mpr ⟨entries, hentries,
    Outcome.bind_eq_ok.mpr ⟨commitments, hcommitments, rfl⟩⟩⟩

variable [LawfulCurveGroup G] {s : Participant → Scalar}

/-- Commitments are prepared where the vector has all members at their seats, and then commit to
the members' logarithms with their weights. -/
theorem prepare_eq_ok (hquorum : (Quorum.new participants points).result = .ok quorum)
    (hs : ∀ p entry, vector.entry? p = some entry → entry.commitment = s p • generator) :
    prepare vector quorum = .ok prepared ↔
      quorum.SeatedIn vector ∧
        ⟨quorum.participants, quorum.seats.map fun seat => quorum.weighted s seat • generator⟩ =
          prepared := by
  have hmembers : ∀ {prepared}, prepare vector quorum = .ok prepared →
      quorum.SeatedIn vector ∧
        ⟨quorum.participants, quorum.seats.map fun seat => quorum.weighted s seat • generator⟩ =
          prepared := by
    intro prepared h
    obtain ⟨members, hmembers, hparticipants, hpoints, rfl⟩ :=
      exists_members_of_prepare hquorum h
    have hseats : quorum.seats = members.map fun m => ⟨m.participant, m.domainPoint⟩ := by
      rw [Quorum.seats, ← hparticipants, ← hpoints, List.zip_map', List.map_map]
      rfl
    have hlookup : ∀ m ∈ members, vector.entry? m.participant = some m := by
      intro m hm
      obtain ⟨p, -, hrequired⟩ := Outcome.mem_of_mapM hmembers hm
      have hfound := Quorum.requireEntry_eq_ok.mp hrequired
      obtain ⟨-, rfl⟩ := VerificationVector.mem_of_lookup hfound
      exact hfound
    constructor
    · intro seat hseat
      rw [hseats] at hseat
      obtain ⟨m, hm, rfl⟩ := List.mem_map.mp hseat
      exact ⟨m, hlookup m hm, rfl⟩
    · rw [hseats, List.map_map]
      congr 1
      refine List.map_congr_left fun m hm => ?_
      rw [Function.comp_apply, Quorum.weighted, mul_smul, hs _ m (hlookup m hm)]
  constructor
  · exact hmembers
  · intro h
    obtain ⟨hseated, rfl⟩ := h
    obtain ⟨prepared, hprepared⟩ := exists_prepare hquorum hseated
    rw [(hmembers hprepared).2, hprepared]

end

/-- Commitments in the order of the members are found by participant. -/
theorem commitment?_eq_some {G : Type} {commit : Seat → G}
    (hquorum : (Quorum.new participants points).result = .ok quorum)
    (hseat : ⟨p, x⟩ ∈ quorum.seats) :
    (⟨quorum.participants, quorum.seats.map commit⟩ : PreparedCommitments G).commitment? p =
      .ok (some (commit ⟨p, x⟩)) := by
  obtain ⟨i, hi, hx⟩ := (Quorum.mem_seats_iff hquorum).mp hseat
  obtain ⟨hlt, hp, -⟩ := List.idxOf?_eq_some_iff.mp hi
  have hplace : quorum.seats[i]? = some ⟨p, x⟩ :=
    Quorum.getElem?_seats.mpr ⟨List.getElem?_eq_some_iff.mpr ⟨hlt, hp⟩, hx⟩
  simp only [commitment?, hi, List.getElem?_map, hplace, Option.map_some]

theorem commitment?_eq_none {G : Type} {prepared : PreparedCommitments G}
    (h : p ∉ prepared.participants) : prepared.commitment? p = .ok none := by
  simp only [commitment?, List.idxOf?_eq_none_iff.mpr h]

end PreparedCommitments

/-! ## What they are for -/

variable {G1 G2 T : Type} [CurveGroup G1] [CurveGroup G2] [TargetGroup T] [Pairing G1 G2 T]
  [LawfulCurveGroup G1] [LawfulCurveGroup G2] [LawfulTargetGroup T] [LawfulPairing G1 G2 T]
  {vector : VerificationVector G1} {s : Participant → Scalar}

/-- A member whose key share is accepted prepares it to its logarithm with its weight. -/
theorem KeyShare.prepare_of_accepted
    (hquorum : (Quorum.new participants points).result = .ok quorum)
    (hs : ∀ p entry, vector.entry? p = some entry → entry.commitment = s p • generator)
    (hseated : quorum.SeatedIn vector) {share : KeyShare}
    (hmember : share.participant ∈ quorum.participants)
    (hshare : (vector.verifyShare share).value = true) :
    ⟨share.participant, share.domainPoint⟩ ∈ quorum.seats ∧
      (share.prepare quorum).result = .ok ⟨share.participant, share.domainPoint,
        quorum.weighted s ⟨share.participant, share.domainPoint⟩⟩ := by
  obtain ⟨entry, hentry, hpoint, hcommitment⟩ :=
    VerificationVector.verifyShare_eq_true.mp hshare
  obtain ⟨x, hseat⟩ := (Quorum.mem_participants hquorum).mp hmember
  obtain ⟨own, hown, rfl⟩ := hseated _ hseat
  cases hentry.symm.trans hown
  rw [hpoint] at hseat
  have hvalue : share.value = s share.participant :=
    smul_generator_injective (hcommitment.trans (hs _ _ hentry))
  have hweight := (Quorum.weight_eq_ok_iff hquorum).mpr ⟨hseat, rfl⟩
  refine ⟨hseat, prepare_eq_ok.mpr ⟨_, hweight, ?_⟩⟩
  rw [hvalue]
  rfl

/-- The check of a prepared share accepts its member's multiple of `v`, and no other value. -/
theorem PreparedDecryptionShare.exists_verify_iff
    (hquorum : (Quorum.new participants points).result = .ok quorum)
    (ciphertext : Ciphertext G1 G2) (share : PreparedDecryptionShare G2) :
    ∃ accepted, share.verify ciphertext ⟨quorum.participants,
        quorum.seats.map fun seat => quorum.weighted s seat • generator⟩ = .ok accepted ∧
      (accepted = true ↔ ∃ x, ⟨share.participant, x⟩ ∈ quorum.seats ∧
        share.value = quorum.weighted s ⟨share.participant, x⟩ • ciphertext.header.v) := by
  by_cases hmember : share.participant ∈ quorum.participants
  · obtain ⟨x, hseat⟩ := (Quorum.mem_participants hquorum).mp hmember
    rw [PreparedDecryptionShare.verify, PreparedCommitments.commitment?_eq_some hquorum hseat]
    refine ⟨_, rfl, ?_⟩
    rw [sameMultiple_iff, exponent_smul, exponent_generator, mul_one]
    constructor
    · intro h
      exact ⟨x, hseat, h⟩
    · intro h
      obtain ⟨y, hy, hvalue⟩ := h
      rwa [Quorum.eq_of_mem_seats hquorum hseat hy]
  · rw [PreparedDecryptionShare.verify, PreparedCommitments.commitment?_eq_none hmember]
    refine ⟨false, rfl, ?_⟩
    simp only [Bool.false_eq_true, false_iff]
    intro h
    obtain ⟨x, hseat, -⟩ := h
    exact hmember ((Quorum.mem_participants hquorum).mpr ⟨x, hseat⟩)

/-- For a quorum and a vector whose entries commit to logarithms: commitments can be prepared
exactly if the vector has each member at the quorum's point for it.  They are then the members'
logarithms with their weights, in the quorum's order; they commit to what accepted key shares of
members are prepared to; and under any header they accept a prepared share exactly if it is from
a member and has that member's value. -/
theorem PreparedCommitments.prepare_exact
    (hquorum : (Quorum.new participants points).result = .ok quorum)
    (hs : ∀ p entry, vector.entry? p = some entry → entry.commitment = s p • generator) :
    ((∃ prepared, prepare vector quorum = .ok prepared) ↔
      ∀ seat ∈ quorum.seats, ∃ entry, vector.entry? seat.participant = some entry ∧
        entry.domainPoint = seat.domainPoint) ∧
    ∀ prepared, prepare vector quorum = .ok prepared →
      prepared.participants = quorum.participants ∧
      prepared.commitments = quorum.seats.map (fun seat =>
        (Interpolation.weight quorum.domainPoints 0 seat.domainPoint * s seat.participant) •
          generator) ∧
      (∀ share : KeyShare, share.participant ∈ quorum.participants →
        (vector.verifyShare share).value = true →
        ∃ own, (share.prepare quorum).result = .ok own ∧
          prepared.commitment? share.participant = .ok (some (own.value • generator))) ∧
      ∀ (ciphertext : Ciphertext G1 G2) (share : PreparedDecryptionShare G2),
        ∃ accepted, share.verify ciphertext prepared = .ok accepted ∧
          (accepted = true ↔ ∃ x, ⟨share.participant, x⟩ ∈ quorum.seats ∧
            share.value = (Interpolation.weight quorum.domainPoints 0 x * s share.participant) •
              ciphertext.header.v) := by
  constructor
  · constructor
    · intro h
      obtain ⟨prepared, h⟩ := h
      exact ((prepare_eq_ok hquorum hs).mp h).1
    · exact exists_prepare hquorum
  · intro prepared h
    obtain ⟨hseated, rfl⟩ := (prepare_eq_ok hquorum hs).mp h
    refine ⟨rfl, rfl, ?_, PreparedDecryptionShare.exists_verify_iff hquorum⟩
    intro share hmember hshare
    obtain ⟨hseat, hprepared⟩ := KeyShare.prepare_of_accepted hquorum hs hseated hmember hshare
    exact ⟨_, hprepared, commitment?_eq_some hquorum hseat⟩

/-- The vector of the small dealing, with its entries in another order. -/
def LogPoint.rearranged : VerificationVector LogPoint :=
  ⟨⟨5⟩, [⟨2, 3, ⟨14⟩⟩, ⟨0, 1, ⟨8⟩⟩, ⟨1, 2, ⟨11⟩⟩]⟩

/-- Three members, none of whose entries stands at its index. -/
theorem PreparedCommitments.prepare_exact_rearranged :
    ∃ prepared,
      prepare LogPoint.rearranged ⟨[0, 1, 2], [1, 2, 3], [3, -3, 1]⟩ = .ok prepared ∧
      prepared.commitment? 1 = .ok (some ⟨-33⟩) ∧
      (⟨1, 2, ⟨-231⟩⟩ : PreparedDecryptionShare LogPoint).verify LogPoint.sevenfold prepared =
        .ok true := by
  have hs : ∀ p entry, LogPoint.rearranged.entry? p = some entry →
      entry.commitment = SharingPolynomial.evaluate ⟨5, [3]⟩ (Scalar.domainPoint p) •
        (generator : LogPoint) := by
    intro p entry h
    obtain ⟨hentry, rfl⟩ := VerificationVector.mem_of_lookup h
    rcases List.mem_cons.mp hentry with rfl | hentry
    · decide
    · rcases List.mem_pair.mp hentry with rfl | rfl
      · decide
      · decide
  have hweight : Interpolation.weight [1, 2, 3] 0 2 = -3 :=
    ((Quorum.weight_eq_ok_iff LogPoint.quorum_weights).mp
      (by decide : Quorum.weight _ 1 2 = .ok (-3))).2
  obtain ⟨hexists, hexact⟩ := @prepare_exact _ _ _ LogPoint LogPoint _ _ _ _ _ _ _ _ _ _ _
    LogPoint.quorum_weights hs
  obtain ⟨prepared, hprepared⟩ := hexists.mpr (by decide)
  obtain ⟨-, -, hcommits, hverifies⟩ := hexact prepared hprepared
  obtain ⟨own, hown, hcommitment⟩ := hcommits ⟨1, 2, 11⟩ (by decide) (by decide)
  have hvalue : (KeyShare.prepare ⟨1, 2, 11⟩ ⟨[0, 1, 2], [1, 2, 3], [3, -3, 1]⟩).result =
      .ok ⟨1, 2, -33⟩ := by decide
  cases hown.symm.trans hvalue
  obtain ⟨accepted, hverified, haccepted⟩ := hverifies LogPoint.sevenfold ⟨1, 2, ⟨-231⟩⟩
  have hpasses : accepted = true := haccepted.mpr ⟨2, by decide, by rw [hweight]; decide⟩
  exact ⟨prepared, hprepared, hcommitment, hpasses ▸ hverified⟩

end ThresholdCipher
