import ThresholdCipher.Proofs.Combination

/-
Prepared shares, and what their sum is short of.

A quorum's members have entries at the quorum's points, and its prepared commitments
are the members' commitments with their weights (`exists_members_of_prepare`).  A
prepared share that verifies is its member's contribution to the secret, so a sum
over some of the members is short of the secret by what the others contribute
(`combinePreparedVerified_value`).
-/

namespace ThresholdCipher

namespace Quorum

variable {quorum : Quorum} {participants : List Participant} {points : List Scalar}

theorem new_eq_ok :
    (new participants points).result = .ok quorum ↔
      participants.length = points.length ∧ participants.Nodup ∧ points ≠ [] ∧ points.Nodup ∧
        ⟨participants, points, points.map (Interpolation.weight points 0)⟩ = quorum := by
  unfold new
  by_cases hlen : participants.length = points.length
  · by_cases hnodup : participants.Nodup
    · rw [if_neg (not_not.mpr hlen), if_pos hnodup, Attempt.result_bind_eq_ok]
      simp only [Interpolation.weights_eq_ok, Attempt.result_pure, Except.ok.injEq]
      constructor
      · intro h
        obtain ⟨_, ⟨hne, hpoints, rfl⟩, h⟩ := h
        exact ⟨hlen, hnodup, hne, hpoints, h⟩
      · intro h
        obtain ⟨-, -, hne, hpoints, h⟩ := h
        exact ⟨_, ⟨hne, hpoints, rfl⟩, h⟩
    · simp [hlen, hnodup]
  · simp [hlen]

theorem nodup_of_new (h : (new participants points).result = .ok quorum) :
    quorum.participants.Nodup ∧ quorum.domainPoints.Nodup := by
  obtain ⟨-, hparticipants, -, hpoints, rfl⟩ := new_eq_ok.mp h
  exact ⟨hparticipants, hpoints⟩

theorem requireEntry_eq_ok {G : Type} {vector : VerificationVector G} {p : Participant}
    {entry : ShareCommitment G} :
    requireEntry vector p = .ok entry ↔ vector.entry? p = some entry := by
  unfold requireEntry
  cases vector.entry? p with
  | none => simp
  | some found => simp

theorem weight_eq_ok {p : Participant} {x w : Scalar} :
    quorum.weight p x = .ok w ↔
      ∃ i, quorum.participants.idxOf? p = some i ∧ quorum.domainPoints[i]? = some x ∧
        quorum.weights[i]? = some w := by
  unfold weight
  cases quorum.participants.idxOf? p with
  | none => simp
  | some i =>
    simp only [Option.some.injEq, exists_eq_left']
    cases quorum.domainPoints[i]? with
    | none => simp
    | some x' =>
      cases quorum.weights[i]? with
      | none => simp
      | some w' =>
        by_cases hx : x' = x
        · simp [hx]
        · simp [hx]

end Quorum

theorem KeyShare.prepare_eq_ok {share : KeyShare} {quorum : Quorum} {own : PreparedShare} :
    (share.prepare quorum).result = .ok own ↔
      ∃ w, quorum.weight share.participant share.domainPoint = .ok w ∧
        ⟨share.participant, share.domainPoint, w * share.value⟩ = own := by
  rw [prepare, Attempt.result_liftM_bind, Attempt.result_bind_eq_ok]
  simp only [Attempt.result_orRefuse_eq_ok, Attempt.result_pure, Except.ok.injEq]

namespace PreparedCommitments

variable {G : Type} [CurveGroup G] {vector : VerificationVector G} {quorum : Quorum}
  {participants : List Participant} {points : List Scalar} {prepared : PreparedCommitments G}

/-- The members of a prepared quorum: their entries are at its points, and the prepared
commitments are theirs with their weights. -/
theorem exists_members_of_prepare (hquorum : (Quorum.new participants points).result = .ok quorum)
    (h : prepare vector quorum = .ok prepared) :
    ∃ members : List (ShareCommitment G),
      quorum.participants.mapM (Quorum.requireEntry vector) = .ok members ∧
      members.map (·.participant) = quorum.participants ∧
      members.map (·.domainPoint) = quorum.domainPoints ∧
      prepared = ⟨quorum.participants, members.map fun m =>
        Interpolation.weight quorum.domainPoints 0 m.domainPoint • m.commitment⟩ := by
  obtain ⟨hlen, hnodup, -, -, rfl⟩ := Quorum.new_eq_ok.mp hquorum
  obtain ⟨members, hmembers, h⟩ := Outcome.bind_eq_ok.mp h
  obtain ⟨commitments, hcommitments, h⟩ := Outcome.bind_eq_ok.mp h
  cases h
  have hparticipants : members.map (·.participant) = participants := by
    have hids := Outcome.map_eq_of_mapM (g := (·.participant)) (k := id) hmembers
      fun p _ m _ hm => (VerificationVector.mem_of_lookup (Quorum.requireEntry_eq_ok.mp hm)).2
    rwa [List.map_id] at hids
  have hweight : ∀ m ∈ members, ∃ i, participants.idxOf? m.participant = some i ∧
      points[i]? = some m.domainPoint ∧
      (points.map (Interpolation.weight points 0))[i]? =
        some (Interpolation.weight points 0 m.domainPoint) := by
    intro m hm
    obtain ⟨_, -, hscaled⟩ := Outcome.exists_of_mapM hcommitments hm
    obtain ⟨w, hw, -⟩ := Outcome.bind_eq_ok.mp hscaled
    obtain ⟨i, hi, hx, -⟩ := Quorum.weight_eq_ok.mp hw
    exact ⟨i, hi, hx, by rw [List.getElem?_map, hx, Option.map_some]⟩
  have hmembersLen : members.length = points.length := by
    rw [← hlen, ← hparticipants, List.length_map]
  refine ⟨members, hmembers, hparticipants, ?_, ?_⟩
  · -- A member's index is where it stands, since no participant is in the quorum twice.
    refine List.ext_getElem (by rw [List.length_map, hmembersLen]) ?_
    intro k hk hk'
    rw [List.length_map] at hk
    rw [List.getElem_map]
    obtain ⟨i, hi, hx, -⟩ := hweight members[k] (List.getElem_mem hk)
    obtain ⟨hlt, hip, -⟩ := List.idxOf?_eq_some_iff.mp hi
    have hkn : k < participants.length := by omega
    have hkp : participants[k] = members[k].participant := by
      simp only [← hparticipants, List.getElem_map]
    have hik : i = k := (List.Nodup.getElem_inj_iff hnodup).mp (hip.trans hkp.symm)
    rw [hik, List.getElem?_eq_getElem hk'] at hx
    exact (Option.some.inj hx).symm
  · congr 1
    have hmap := Outcome.map_eq_of_mapM (g := id)
      (k := fun m => Interpolation.weight points 0 m.domainPoint • m.commitment) hcommitments ?_
    · rwa [List.map_id] at hmap
    · intro m hm c _ hscaled
      obtain ⟨w, hw, hscaled⟩ := Outcome.bind_eq_ok.mp hscaled
      obtain ⟨i, hi, hx, hwi⟩ := hweight m hm
      obtain ⟨j, hj, -, hwj⟩ := Quorum.weight_eq_ok.mp hw
      cases hi.symm.trans hj
      cases hwi.symm.trans hwj
      cases hscaled
      rfl

end PreparedCommitments

/-! ## Contributions -/

/-- What a participant adds to the secret as a member of a quorum. -/
def Quorum.contribution {G : Type} (quorum : Quorum) (vector : VerificationVector G)
    (f : SharingPolynomial) (p : Participant) : Scalar :=
  match vector.entry? p with
  | some entry =>
    Interpolation.weight quorum.domainPoints 0 entry.domainPoint * f.evaluate entry.domainPoint
  | none => 0

/-- What the members who are not present would add. -/
def Quorum.shortfall {G : Type} (quorum : Quorum) (vector : VerificationVector G)
    (f : SharingPolynomial) (present : List Participant) : Scalar :=
  ((quorum.participants.filter (· ∉ present)).map (quorum.contribution vector f)).sum

theorem Quorum.shortfall_eq_zero {G : Type} {quorum : Quorum} {vector : VerificationVector G}
    {f : SharingPolynomial} {present : List Participant}
    (hall : ∀ p ∈ quorum.participants, p ∈ present) : quorum.shortfall vector f present = 0 := by
  rw [shortfall, List.filter_eq_nil_iff.mpr fun p hp => by simpa using hall p hp]
  rfl

theorem sum_present_add_absent {all present : List Participant} (g : Participant → Scalar)
    (hall : all.Nodup) (hpresent : present.Nodup) (hsub : ∀ p ∈ present, p ∈ all) :
    (present.map g).sum + ((all.filter (· ∉ present)).map g).sum = (all.map g).sum := by
  have hperm : present.Perm (all.filter (· ∈ present)) := by
    refine (List.perm_ext_iff_of_nodup hpresent (hall.filter _)).mpr fun p => ?_
    rw [List.mem_filter, decide_eq_true_iff]
    exact ⟨fun hp => ⟨hsub p hp, hp⟩, fun hp => hp.2⟩
  have hsplit := (List.filter_append_perm (· ∈ present) all).map g
  rw [← hsplit.sum_eq, List.map_append, List.sum_append, (hperm.map g).sum_eq]
  simp only [decide_not]

section

variable {G : Type} [CurveGroup G] [LawfulCurveGroup G] {vector : VerificationVector G}
  {quorum : Quorum} {participants : List Participant} {points : List Scalar}
  {prepared : PreparedCommitments G} {f : SharingPolynomial}

omit [LawfulCurveGroup G] in
/-- A quorum with enough members contributes the whole secret. -/
theorem Quorum.sum_contribution (hquorum : (new participants points).result = .ok quorum)
    (hprepared : PreparedCommitments.prepare vector quorum = .ok prepared)
    (henough : f.threshold ≤ quorum.participants.length) :
    (quorum.participants.map (quorum.contribution vector f)).sum = f.constant := by
  obtain ⟨members, hmembers, hparticipants, hpoints, -⟩ :=
    PreparedCommitments.exists_members_of_prepare hquorum hprepared
  have hnodup := (nodup_of_new hquorum).2
  have hcontribution : quorum.participants.map (quorum.contribution vector f) =
      members.map fun m => Interpolation.weight quorum.domainPoints 0 m.domainPoint *
        f.evaluate m.domainPoint := by
    refine (Outcome.map_eq_of_mapM hmembers ?_).symm
    intro p _ m _ hm
    rw [contribution, requireEntry_eq_ok.mp hm]
  have hlen : members.length = quorum.participants.length := by
    rw [← hparticipants, List.length_map]
  rw [hcontribution, ← hpoints, Interpolation.sum_weight_mul (by rwa [hpoints]) (by rwa [hlen]),
    SharingPolynomial.evaluate_zero]

omit [LawfulCurveGroup G] in
theorem Quorum.sum_contribution_add_shortfall
    (hquorum : (new participants points).result = .ok quorum)
    (hprepared : PreparedCommitments.prepare vector quorum = .ok prepared)
    {present : List Participant} (hpresent : present.Nodup)
    (hsub : ∀ p ∈ present, p ∈ quorum.participants) (henough : f.threshold ≤ present.length) :
    (present.map (quorum.contribution vector f)).sum + quorum.shortfall vector f present =
      f.constant := by
  have hle := (hpresent.subperm hsub).length_le
  rw [← sum_contribution hquorum hprepared (henough.trans hle)]
  exact sum_present_add_absent _ (nodup_of_new hquorum).1 hpresent hsub

/-- A prepared commitment commits to the contribution. -/
theorem PreparedCommitments.commitment_eq (hvector : vector.CommitsTo f)
    (hquorum : (Quorum.new participants points).result = .ok quorum)
    (hprepared : prepare vector quorum = .ok prepared) {p : Participant} {c : G}
    (h : prepared.commitment? p = .ok (some c)) :
    p ∈ quorum.participants ∧ c = quorum.contribution vector f p • generator := by
  obtain ⟨members, hmembers, hparticipants, -, rfl⟩ := exists_members_of_prepare hquorum hprepared
  unfold commitment? at h
  split at h
  next i hi =>
    obtain ⟨hlt, rfl, -⟩ := List.idxOf?_eq_some_iff.mp hi
    have hget : i < members.length := by
      rw [Outcome.length_of_mapM hmembers]
      exact hlt
    have hentry : vector.entry? quorum.participants[i] = some members[i] := by
      have hsome := (List.forall₂_iff_get.mp (Outcome.mapM_eq_ok.mp hmembers)).2 i hlt hget
      exact Quorum.requireEntry_eq_ok.mp hsome
    refine ⟨List.getElem_mem hlt, ?_⟩
    rw [List.getElem?_map, List.getElem?_eq_getElem hget] at h
    cases h
    show _ = Quorum.contribution quorum vector f quorum.participants[i] • generator
    rw [Quorum.contribution, hentry, mul_smul,
      ← hvector.commitment _ (VerificationVector.mem_of_lookup hentry).1]
  next => cases h

end

/-! ## Verified combination -/

/-- No flag is down exactly where every step raised one. -/
theorem find?_down_eq_none {α ε : Type} {verify : α → Except ε Bool} {xs : List α}
    {flags : List Bool} (h : xs.mapM verify = .ok flags) :
    (List.zip xs flags).find? (fun p => !p.2) = none ↔ ∀ x ∈ xs, verify x = .ok true := by
  induction xs generalizing flags with
  | nil => simp
  | cons x xs ih =>
    obtain ⟨flag, rest, hflag, hrest, rfl⟩ :=
      List.forall₂_cons_left_iff.mp (Outcome.mapM_eq_ok.mp h)
    have htail := ih (Outcome.mapM_eq_ok.mpr hrest)
    rw [List.zip_cons_cons, List.forall_mem_cons, ← htail, hflag]
    cases flag with
    | true => simp
    | false => simp

variable {G1 G2 T : Type} [CurveGroup G1] [CurveGroup G2] [TargetGroup T] [Pairing G1 G2 T]

namespace SharedSecret

variable {shares : List (PreparedDecryptionShare G2)} {threshold : Nat} {secret : SharedSecret T}
  {ciphertext : Ciphertext G1 G2} {prepared : PreparedCommitments G1}

omit [TargetGroup T] in
theorem combinePrepared_eq_ok :
    (combinePrepared G1 shares threshold).result = .ok secret ↔
      (0 < threshold ∧ threshold ≤ shares.length) ∧ (shares.map (·.participant)).Nodup ∧
        ⟨pair (generator : G1) (sum (shares.map (·.value)))⟩ = secret := by
  rw [combinePrepared, Attempt.result_liftM_bind, Attempt.result_check_bind_eq_ok,
    Attempt.result_check_bind_eq_ok, Attempt.result_orRefuse_eq_ok, Attempt.result_orRefuse_eq_ok,
    requireEnough_eq_ok, requireDistinct_eq_ok, Attempt.result_pure, Except.ok.injEq]

/-- Verified combination is combination of shares that all verify. -/
theorem combinePreparedVerified_eq_ok :
    (combinePreparedVerified shares ciphertext prepared threshold).result = .ok secret ↔
      (∀ share ∈ shares, share.verify ciphertext prepared = .ok true) ∧
        (combinePrepared G1 shares threshold).result = .ok secret := by
  rw [combinePreparedVerified, Attempt.result_liftM_bind, Attempt.result_bind_eq_ok]
  constructor
  · intro h
    obtain ⟨flags, hflags, h⟩ := h
    split at h
    next => cases h
    next hnone => exact ⟨(find?_down_eq_none hflags).mp hnone, h⟩
  · intro h
    obtain ⟨hall, h⟩ := h
    obtain ⟨flags, hflags⟩ := Outcome.exists_mapM_eq_ok fun share hshare =>
      ⟨true, hall share hshare⟩
    refine ⟨flags, hflags, ?_⟩
    rw [(find?_down_eq_none hflags).mpr hall]
    exact h

end SharedSecret

variable [LawfulCurveGroup G1] [LawfulCurveGroup G2] [LawfulTargetGroup T] [LawfulPairing G1 G2 T]
  {vector : VerificationVector G1} {quorum : Quorum} {participants : List Participant}
  {points : List Scalar} {prepared : PreparedCommitments G1} {f : SharingPolynomial}
  {ciphertext : Ciphertext G1 G2} {ρ : Scalar}

/-- A prepared share that verifies is a member's contribution, times the header's exponent. -/
theorem PreparedDecryptionShare.value_of_verify (hvector : vector.CommitsTo f)
    (hquorum : (Quorum.new participants points).result = .ok quorum)
    (hprepared : PreparedCommitments.prepare vector quorum = .ok prepared)
    (hv : ciphertext.header.v = ρ • generator) {share : PreparedDecryptionShare G2}
    (h : share.verify ciphertext prepared = .ok true) :
    share.participant ∈ quorum.participants ∧
      exponent share.value = ρ * quorum.contribution vector f share.participant := by
  obtain ⟨found, hfound, h⟩ := Outcome.bind_eq_ok.mp h
  cases found with
  | none => cases h
  | some c =>
    obtain ⟨hmember, rfl⟩ :=
      PreparedCommitments.commitment_eq hvector hquorum hprepared hfound
    refine ⟨hmember, ?_⟩
    have hsame := (pairsCancel_iff _ _ _).mp (Except.ok.inj h)
    rw [hv, exponent_smul, exponent_smul, exponent_generator, exponent_generator] at hsame
    rw [← hsame]
    ring

/-- The sum of shares that verify, for one each of enough members. -/
theorem exponent_sum_of_verify (hvector : vector.CommitsTo f)
    (hquorum : (Quorum.new participants points).result = .ok quorum)
    (hprepared : PreparedCommitments.prepare vector quorum = .ok prepared)
    (hv : ciphertext.header.v = ρ • generator) {shares : List (PreparedDecryptionShare G2)}
    (hverified : ∀ share ∈ shares, share.verify ciphertext prepared = .ok true)
    (hdistinct : (shares.map (·.participant)).Nodup) (henough : f.threshold ≤ shares.length) :
    exponent (sum (shares.map (·.value))) =
      ρ * (f.constant - quorum.shortfall vector f (shares.map (·.participant))) := by
  have hvalue := fun share hshare => PreparedDecryptionShare.value_of_verify hvector hquorum
    hprepared hv (hverified share hshare)
  have hsub : ∀ p ∈ shares.map (·.participant), p ∈ quorum.participants := by
    intro p hp
    obtain ⟨share, hshare, rfl⟩ := List.mem_map.mp hp
    exact (hvalue share hshare).1
  have htotal := Quorum.sum_contribution_add_shortfall hquorum hprepared hdistinct hsub
    (by rwa [List.length_map] : f.threshold ≤ (shares.map (·.participant)).length)
  rw [← htotal, add_sub_cancel_right, sum_eq_sum, exponent_sum, List.map_map, List.map_map,
    ← List.sum_map_mul_left]
  congr 1
  exact List.map_congr_left fun share hshare => (hvalue share hshare).2

/-- Verified combination falls short of the secret by exactly what the members without a share
contribute.  With a share from every member it arrives at the secret. -/
theorem SharedSecret.combinePreparedVerified_value (hvector : vector.CommitsTo f)
    (hquorum : (Quorum.new participants points).result = .ok quorum)
    (hprepared : PreparedCommitments.prepare vector quorum = .ok prepared) {aad : Bytes}
    (hvalid : (ciphertext.checkValidity aad).result = .ok ())
    (hu : ciphertext.header.u = ρ • generator) {shares : List (PreparedDecryptionShare G2)}
    {secret : SharedSecret T}
    (h : (combinePreparedVerified shares ciphertext prepared f.threshold).result = .ok secret) :
    secret.value = pair (generator : G1) (generator : G2) ^
      (ρ * (f.constant - quorum.shortfall vector f (shares.map (·.participant)))) ∧
    (secret.value = pair (generator : G1) (generator : G2) ^ (ρ * f.constant) ↔
      quorum.shortfall vector f (shares.map (·.participant)) = 0) ∧
    ((∀ p ∈ quorum.participants, p ∈ shares.map (·.participant)) →
      secret.value = pair (generator : G1) (generator : G2) ^ (ρ * f.constant)) := by
  obtain ⟨hverified, h⟩ := combinePreparedVerified_eq_ok.mp h
  obtain ⟨⟨-, henough⟩, hdistinct, rfl⟩ := combinePrepared_eq_ok.mp h
  have hρ : ρ ≠ 0 := by
    rintro rfl
    exact (Ciphertext.checkValidity_eq_ok.mp hvalid).1 (by rw [hu, zero_smul])
  have hv := Ciphertext.v_eq_of_checkValidity hvalid hu
  have hsecret : pair (generator : G1) (sum (shares.map (·.value))) =
      pair (generator : G1) (generator : G2) ^
        (ρ * (f.constant - quorum.shortfall vector f (shares.map (·.participant)))) := by
    rw [pair_eq_pow, exponent_generator, one_mul,
      exponent_sum_of_verify hvector hquorum hprepared hv hverified hdistinct henough]
  refine ⟨hsecret, ?_, ?_⟩
  · rw [hsecret]
    constructor
    · intro heq
      have hcancel := mul_left_cancel₀ hρ (pair_pow_injective heq)
      exact sub_eq_self.mp hcancel
    · intro hzero
      rw [hzero, sub_zero]
  · intro hall
    rw [hsecret, Quorum.shortfall_eq_zero hall, sub_zero]

/-- A valid header with the exponent seven, for nothing. -/
def LogPoint.sevenfold : Ciphertext LogPoint LogPoint where
  header :=
    { u := ⟨7⟩
      v := ⟨7⟩
      w := (7 : Scalar) • Pairing.hashToCurve LogPoint
        (authenticationMessage (⟨7⟩ : LogPoint) (⟨7⟩ : LogPoint) [] []) authenticationTag }
  payload := []

theorem LogPoint.checkValidity_sevenfold : (sevenfold.checkValidity []).result = .ok () := by
  refine Ciphertext.checkValidity_eq_ok.mpr ⟨by decide, _,
    authenticationPoint_eq_ok.mpr ⟨hashToCurve_ne_zero _ _, rfl⟩, ?_, rfl⟩
  have hu : sevenfold.header.u = (7 : Scalar) • generator := by decide
  rw [hu, exponent_smul, exponent_generator, mul_one]
  exact exponent_smul 7 _

theorem LogPoint.quorum_weights :
    (Quorum.new [0, 1, 2] [1, 2, 3]).result = .ok ⟨[0, 1, 2], [1, 2, 3], [3, -3, 1]⟩ := by
  decide +kernel

theorem LogPoint.prepare_quorum :
    PreparedCommitments.prepare LogPoint.dealing.vector ⟨[0, 1, 2], [1, 2, 3], [3, -3, 1]⟩ =
      .ok ⟨[0, 1, 2], [⟨24⟩, ⟨-33⟩, ⟨14⟩]⟩ := by
  decide

/-- A prepared share from each of three members. -/
theorem SharedSecret.combinePreparedVerified_complete :
    (combinePreparedVerified [⟨0, 1, ⟨168⟩⟩, ⟨1, 2, ⟨-231⟩⟩, ⟨2, 3, ⟨98⟩⟩] LogPoint.sevenfold
      ⟨[0, 1, 2], [⟨24⟩, ⟨-33⟩, ⟨14⟩]⟩ 2).result = .ok ⟨⟨35⟩⟩ ∧
    (⟨35⟩ : LogTarget) = pair (generator : LogPoint) (generator : LogPoint) ^ (7 * 5 : Scalar) := by
  have hcombined : (combinePreparedVerified [⟨0, 1, ⟨168⟩⟩, ⟨1, 2, ⟨-231⟩⟩, ⟨2, 3, ⟨98⟩⟩]
      LogPoint.sevenfold ⟨[0, 1, 2], [⟨24⟩, ⟨-33⟩, ⟨14⟩]⟩ 2).result = .ok ⟨⟨35⟩⟩ := by
    decide
  have hu : LogPoint.sevenfold.header.u = (7 : Scalar) • generator := by decide
  have hall : ∀ p ∈ ([0, 1, 2] : List Participant), p ∈
      ([⟨0, 1, ⟨168⟩⟩, ⟨1, 2, ⟨-231⟩⟩, ⟨2, 3, ⟨98⟩⟩] :
        List (PreparedDecryptionShare LogPoint)).map (·.participant) := by
    simp
  refine ⟨hcombined, ?_⟩
  exact (combinePreparedVerified_value LogPoint.dealt_dealing.commitsTo LogPoint.quorum_weights
    LogPoint.prepare_quorum LogPoint.checkValidity_sevenfold hu hcombined).2.2 hall

/-- Prepared shares from two of three members, as many as the threshold, pass and combine to
another secret. -/
theorem SharedSecret.combinePreparedVerified_incomplete :
    LogPoint.dealing.vector.CommitsTo ⟨5, [3]⟩ ∧
    (Quorum.new [0, 1, 2] [1, 2, 3]).result = .ok ⟨[0, 1, 2], [1, 2, 3], [3, -3, 1]⟩ ∧
    PreparedCommitments.prepare LogPoint.dealing.vector ⟨[0, 1, 2], [1, 2, 3], [3, -3, 1]⟩ =
      .ok ⟨[0, 1, 2], [⟨24⟩, ⟨-33⟩, ⟨14⟩]⟩ ∧
    (LogPoint.sevenfold.checkValidity []).result = .ok () ∧
    (combinePreparedVerified [⟨0, 1, ⟨168⟩⟩, ⟨1, 2, ⟨-231⟩⟩] LogPoint.sevenfold
      ⟨[0, 1, 2], [⟨24⟩, ⟨-33⟩, ⟨14⟩]⟩ 2).result = .ok ⟨⟨-63⟩⟩ ∧
    (⟨-63⟩ : LogTarget) ≠
      pair (generator : LogPoint) (generator : LogPoint) ^ (7 * 5 : Scalar) := by
  refine ⟨LogPoint.dealt_dealing.commitsTo, LogPoint.quorum_weights,
    LogPoint.prepare_quorum, LogPoint.checkValidity_sevenfold, ?_, ?_⟩
  all_goals decide

end ThresholdCipher
