import ThresholdCipher.Proofs.Combination

/-
What verification of decryption shares reports, and what is combined after it.

A share that names no entry of the vector at its own point is rejected; any other is
checked against the commitment there.  Verification of a list of fast shares reports
the positions of those that pass and of those that do not, both in increasing order
(`run_fast`), and verified combination is combination of the accepted shares
(`result_combineVerified_of_run`).
-/

namespace ThresholdCipher

/-! ## Commitments by participant and point -/

namespace VerificationVector

variable {G : Type} {vector : VerificationVector G} {p : Participant} {x : Scalar}

theorem commitmentAt_eq_some {c : G} :
    (vector.commitmentAt p x).value = some c ↔
      ∃ entry, vector.entry? p = some entry ∧ entry.domainPoint = x ∧ entry.commitment = c := by
  unfold commitmentAt
  cases vector.entry? p with
  | none => exact ⟨fun h => (nomatch h), fun ⟨_, h, _⟩ => (nomatch h)⟩
  | some entry =>
    by_cases hx : entry.domainPoint = x
    · simp [hx]
    · simp only [if_neg hx, Journaled.value_bind, Journaled.value_pure, Option.some.injEq]
      exact ⟨fun h => (nomatch h), fun ⟨_, he, hx', _⟩ => absurd (he ▸ hx') hx⟩

theorem CommitsTo.commitmentAt_eq_some [CurveGroup G] {f : SharingPolynomial}
    (hvector : vector.CommitsTo f) (hnodup : (vector.entries.map (·.participant)).Nodup) {c : G} :
    (vector.commitmentAt p x).value = some c ↔
      ⟨p, x⟩ ∈ vector.seats ∧ c = f.evaluate x • generator := by
  rw [VerificationVector.commitmentAt_eq_some, mem_seats]
  constructor
  · intro h
    obtain ⟨entry, hentry, rfl, rfl⟩ := h
    obtain ⟨hmem, hp⟩ := mem_of_lookup hentry
    exact ⟨⟨entry, hmem, hp, rfl⟩, hvector.commitment entry hmem⟩
  · intro h
    obtain ⟨⟨entry, hmem, rfl, rfl⟩, rfl⟩ := h
    exact ⟨entry, entry?_of_mem hnodup hmem, rfl, hvector.commitment entry hmem⟩

end VerificationVector

/-! ## Positions -/

namespace ShareVerification

theorem positions_eq_findIdxs (value : Bool) (flags : List Bool) :
    positions value flags = flags.findIdxs (· = value) := by
  have hfrom : ∀ start, ((flags.zipIdx start).filter fun p => p.1 = value).map (·.2) =
      flags.findIdxs (· = value) start := by
    induction flags with
    | nil => exact fun _ => rfl
    | cons flag flags ih =>
      intro start
      rw [List.zipIdx_cons, List.filter_cons, List.findIdxs_cons, ← ih]
      split
      · rfl
      · rfl
  exact hfrom 0

theorem ofFlags_map {α : Type} (pass : α → Bool) (xs : List α) :
    ofFlags (xs.map pass) = ⟨xs.findIdxs pass, xs.findIdxs fun x => !pass x⟩ := by
  rw [ofFlags, positions_eq_findIdxs, positions_eq_findIdxs, List.findIdxs_map, List.findIdxs_map]
  simp [Function.comp_def]

/-- Accepting all is the outcome of single checks where none of them fails. -/
theorem ofFlags_accept_all_eq_iff {α : Type} {pass : α → Bool} {xs : List α} :
    ofFlags (xs.map fun _ => true) = ofFlags (xs.map pass) ↔ ∀ x ∈ xs, pass x = true := by
  constructor
  · intro h
    rw [ofFlags_map, ofFlags_map, ShareVerification.mk.injEq] at h
    have hnone : xs.findIdxs (fun x => !pass x) = [] := by
      rw [← h.2, List.findIdxs_eq_nil_iff]
      exact fun _ _ => rfl
    intro x hx
    simpa using List.findIdxs_eq_nil_iff.mp hnone x hx
  · intro h
    rw [List.map_congr_left h]

/-- At the positions where a property holds stand the elements that have it, in order. -/
theorem map_findIdxs {α : Type} (p : α → Bool) (xs : List α) :
    (xs.findIdxs p).map (xs[·]?) = (xs.filter p).map some := by
  induction xs with
  | nil => rfl
  | cons x xs ih =>
    have htail : (xs.findIdxs p 1).map ((x :: xs)[·]?) = (xs.filter p).map some := by
      rw [List.findIdxs_start, List.map_map, ← ih]
      rfl
    rw [List.findIdxs_cons, List.filter_cons, Nat.zero_add]
    split
    next => rw [List.map_cons, List.map_cons, htail, List.getElem?_cons_zero]
    next => exact htail

theorem filterMap_findIdxs {α : Type} (p : α → Bool) (xs : List α) :
    (xs.findIdxs p).filterMap (xs[·]?) = xs.filter p := by
  calc (xs.findIdxs p).filterMap (xs[·]?) = ((xs.findIdxs p).map (xs[·]?)).filterMap id := by
        rw [List.filterMap_map, Function.id_comp]
    _ = xs.filter p := by
        rw [map_findIdxs, List.filterMap_map, Function.id_comp, List.filterMap_some]

/-- What is rejected stands in the list. -/
theorem lt_length_of_mem_rejected {flags : List Bool} {position : Nat}
    (h : position ∈ (ofFlags flags).rejected) : position < flags.length := by
  have hrejected : (ofFlags flags).rejected = flags.findIdxs (· = false) :=
    positions_eq_findIdxs false flags
  rw [hrejected] at h
  have hmem : flags[position]? ∈ (flags.findIdxs (· = false)).map (flags[·]?) :=
    List.mem_map_of_mem h
  rw [map_findIdxs] at hmem
  obtain ⟨flag, -, hflag⟩ := List.mem_map.mp hmem
  exact (List.getElem?_eq_some_iff.mp hflag.symm).1

variable {G2 T : Type} {strategy : VerificationStrategy}

/-- The participant of the first share that is rejected is named. -/
theorem requireAllValid_ofFlags {flags : List Bool} {shares : List (DecryptionShare G2 T)}
    (hlength : flags.length = shares.length) :
    ((ofFlags flags).rejected = [] → (ofFlags flags).requireAllValid shares = .ok ()) ∧
      ∀ position later, (ofFlags flags).rejected = position :: later →
        ∃ share, shares[position]? = some share ∧
          (ofFlags flags).requireAllValid shares = .error (.invalidShare share.participant) := by
  constructor
  · intro h
    rw [requireAllValid, h]
  · intro position later h
    have hlt : position < shares.length := by
      rw [← hlength]
      exact lt_length_of_mem_rejected (h ▸ List.mem_cons_self)
    have hshare : shares[position]? = some shares[position] := List.getElem?_eq_getElem hlt
    refine ⟨shares[position], hshare, ?_⟩
    rw [requireAllValid, h]
    simp only [hshare]

/-! ## Variants -/

theorem requireVariant_eq_ok {shares : List (DecryptionShare G2 T)} :
    requireVariant strategy shares = .ok () ↔
      ∀ share ∈ shares, share.variant = expectedVariant strategy := by
  unfold requireVariant
  cases h : shares.find? (·.variant ≠ expectedVariant strategy) with
  | none => simpa using h
  | some share =>
    have hshare := List.find?_some h
    simp only [reduceCtorEq, false_iff]
    intro hall
    exact absurd (hall share (List.mem_of_find?_eq_some h)) (of_decide_eq_true hshare)

theorem requireVariant_fast (hstrategy : expectedVariant strategy = .fast)
    (shares : List (FastShare G2)) :
    requireVariant strategy (shares.map (DecryptionShare.fast (T := T))) = .ok () := by
  rw [requireVariant_eq_ok, hstrategy]
  intro d hd
  obtain ⟨s, -, rfl⟩ := List.mem_map.mp hd
  rfl

theorem exists_fasts {shares : List (DecryptionShare G2 T)}
    (h : ∀ share ∈ shares, share.variant = .fast) :
    ∃ fasts : List (FastShare G2), fasts.map DecryptionShare.fast = shares := by
  induction shares with
  | nil => exact ⟨[], rfl⟩
  | cons share shares ih =>
    obtain ⟨fasts, rfl⟩ := ih fun share hshare => h share (List.mem_cons_of_mem _ hshare)
    cases share with
    | fast share => exact ⟨share :: fasts, rfl⟩
    | simple share => cases h _ List.mem_cons_self

theorem filterMap_fast? (shares : List (FastShare G2)) :
    (shares.map (DecryptionShare.fast (T := T))).filterMap (·.fast?) = shares := by
  rw [List.filterMap_map]
  exact List.filterMap_some

end ShareVerification

variable {G1 G2 T : Type} [CurveGroup G1] [TargetGroup T] [Pairing G1 G2 T]
  {ciphertext : Ciphertext G1 G2} {vector : VerificationVector G1}

/-! ## One share -/

theorem sameMultiple_iff [CurveGroup G2] [LawfulCurveGroup G1] [LawfulCurveGroup G2]
    [LawfulTargetGroup T] [LawfulPairing G1 G2 T] {commitment : G1} {v value : G2} :
    sameMultiple commitment v value = true ↔ value = exponent commitment • v := by
  rw [sameMultiple, pairsCancel_iff, eq_comm, exponent_eq_iff, mul_smul, exponent_smul_generator]

namespace FastShare

variable {share : FastShare G2}

theorem verify_of_known {c : G1}
    (h : (vector.commitmentAt share.participant share.domainPoint).value = some c) :
    (share.verify ciphertext vector).value = sameMultiple c ciphertext.header.v share.value := by
  rw [FastShare.verify, Journaled.value_bind, h, Journaled.value_pure]

theorem verify_of_unknown
    (h : (vector.commitmentAt share.participant share.domainPoint).value = none) :
    (share.verify ciphertext vector).value = false := by
  rw [FastShare.verify, Journaled.value_bind, h, Journaled.value_pure]

end FastShare

variable [CurveGroup G2]

namespace SimpleShare

variable {share : SimpleShare T}

theorem result_verify_of_known {c : G1}
    (h : (vector.commitmentAt share.participant share.domainPoint).value = some c) :
    (share.verify ciphertext vector).result = share.proofHolds ciphertext c := by
  rw [SimpleShare.verify, Attempt.result_liftM_bind, h, Attempt.result_ofExcept]

theorem result_verify_of_unknown
    (h : (vector.commitmentAt share.participant share.domainPoint).value = none) :
    (share.verify ciphertext vector).result = .ok false := by
  rw [SimpleShare.verify, Attempt.result_liftM_bind, h, Attempt.result_pure]

/-- The commitment to the nonce in the target group, as a power of the pairing of the
generators. -/
theorem targetCommitment_eq_pow [LawfulTargetGroup T] {ρ γ : Scalar}
    (hvalue : share.value = pair (generator : G1) (generator : G2) ^ γ) :
    (pair (generator : G1) (generator : G2) ^ ρ) ^ share.proof.response *
        share.value ^ (-share.proof.challenge) =
      pair (generator : G1) (generator : G2) ^
        (ρ * share.proof.response - γ * share.proof.challenge) := by
  rw [hvalue, ← LawfulTargetGroup.pow_mul, ← LawfulTargetGroup.pow_mul,
    ← LawfulTargetGroup.pow_add, mul_neg, sub_eq_add_neg]

end SimpleShare

namespace DecryptionShare

theorem result_verify_fast (share : FastShare G2) :
    ((fast share : DecryptionShare G2 T).verify ciphertext vector).result =
      .ok (share.verify ciphertext vector).value := by
  rw [DecryptionShare.verify, Attempt.result_liftM_bind, Attempt.result_liftM]

theorem result_verify_simple (share : SimpleShare T) :
    ((simple share : DecryptionShare G2 T).verify ciphertext vector).result =
      (share.verify ciphertext vector).result := by
  rw [DecryptionShare.verify, Attempt.result_liftM_bind]

end DecryptionShare

/-! ## Lists of shares -/

theorem Journaled.value_mapM {α β : Type} (f : α → Journaled β) (xs : List α) :
    (xs.mapM f).value = xs.map fun x => (f x).value := by
  induction xs with
  | nil => rfl
  | cons x xs ih => rw [List.mapM_cons, value_bind, value_bind, value_pure, ih, List.map_cons]

namespace ShareVerification

/-- Verification checks the variants first and then the shares. -/
theorem result_run (strategy : VerificationStrategy) (shares : List (DecryptionShare G2 T))
    (e : Entropy) :
    (run strategy shares ciphertext vector e).result =
      (requireVariant strategy shares).mapError .error >>= fun _ =>
        (flags strategy shares ciphertext vector e).result >>= fun p =>
          .ok (ofFlags p.1, p.2) := by
  rw [run, Attempt.result_liftM_bind, Attempt.result_bind, Attempt.result_orRefuse]
  simp only [Attempt.result_bind, Attempt.result_liftM]
  rfl

/-- Without batches, every share is verified by itself. -/
theorem result_flags_each {strategy : VerificationStrategy} (hstrategy : strategy ≠ .fastBatch)
    (shares : List (DecryptionShare G2 T)) (e : Entropy) :
    (flags strategy shares ciphertext vector e).result =
      (shares.mapM fun d => (d.verify ciphertext vector).result) >>= fun passed =>
        .ok (passed, e) := by
  cases strategy with
  | fast =>
    rw [flags, Attempt.result_bind, Attempt.result_mapM]
    rfl
  | simple =>
    rw [flags, Attempt.result_bind, Attempt.result_mapM]
    rfl
  | fastBatch => exact absurd rfl hstrategy

theorem result_flags_fast (shares : List (FastShare G2)) (e : Entropy) :
    (flags (T := T) .fast (shares.map .fast) ciphertext vector e).result =
      .ok (shares.map fun s => (s.verify ciphertext vector).value, e) := by
  have hflags : (shares.map (DecryptionShare.fast (T := T))).mapM
      (fun d => (d.verify ciphertext vector).result) =
      .ok (shares.map fun s => (s.verify ciphertext vector).value) := by
    rw [List.mapM_map]
    exact Outcome.mapM_eq_ok_map fun s _ => DecryptionShare.result_verify_fast s
  rw [result_flags_each (by decide), hflags]
  rfl

theorem run_fast (shares : List (FastShare G2)) (e : Entropy) :
    (run (T := T) .fast (shares.map .fast) ciphertext vector e).result =
      .ok (⟨shares.findIdxs fun s => (s.verify ciphertext vector).value,
        shares.findIdxs fun s => !(s.verify ciphertext vector).value⟩, e) := by
  rw [result_run, requireVariant_fast rfl, result_flags_fast, ← ofFlags_map]
  rfl

variable {shares : List (FastShare G2)} {e rest : Entropy}

theorem result_flags_fastBatch {passed : Bool}
    (h : (batch shares ciphertext vector e).result = .ok (passed, rest)) :
    (flags .fastBatch (shares.map (DecryptionShare.fast (T := T))) ciphertext vector e).result =
      .ok (if passed then shares.map fun _ => true
        else shares.map fun s => (s.verify ciphertext vector).value, rest) := by
  rw [flags]
  simp only [filterMap_fast?]
  rw [Attempt.result_bind_of_ok h]
  cases passed with
  | true => rfl
  | false =>
    show (liftM _ >>= fun _ => liftM (shares.mapM (·.verify ciphertext vector)) >>= fun flags =>
      pure (flags, rest) : Attempt _).result = _
    rw [Attempt.result_liftM_bind, Attempt.result_liftM_bind, Journaled.value_mapM]
    rfl

/-- A batch that passes is accepted as a whole, and one that does not is checked share by
share. -/
theorem run_fastBatch_of_batch {passed : Bool}
    (h : (batch shares ciphertext vector e).result = .ok (passed, rest)) :
    (run .fastBatch (shares.map (DecryptionShare.fast (T := T))) ciphertext vector e).result =
      .ok (ofFlags (if passed then shares.map fun _ => true
        else shares.map fun s => (s.verify ciphertext vector).value), rest) := by
  rw [result_run, requireVariant_fast rfl, result_flags_fastBatch h]
  rfl

/-- An outcome has a flag for each share. -/
theorem exists_flags_of_run {strategy : VerificationStrategy}
    {shares : List (DecryptionShare G2 T)} {outcome : ShareVerification}
    (h : (run strategy shares ciphertext vector e).result = .ok (outcome, rest)) :
    ∃ flags : List Bool, flags.length = shares.length ∧ ofFlags flags = outcome := by
  rw [result_run] at h
  obtain ⟨_, hvariants, h⟩ := Outcome.bind_eq_ok.mp h
  obtain ⟨⟨passed, rest'⟩, hflags, h⟩ := Outcome.bind_eq_ok.mp h
  cases h
  refine ⟨passed, ?_, rfl⟩
  by_cases hbatch : strategy = .fastBatch
  · subst hbatch
    have hall := requireVariant_eq_ok.mp (Outcome.mapError_eq_ok.mp hvariants)
    obtain ⟨fasts, rfl⟩ := exists_fasts hall
    have hdrawn := hflags
    rw [flags] at hdrawn
    simp only [filterMap_fast?] at hdrawn
    obtain ⟨⟨passes, _⟩, hchecked, -⟩ := Attempt.result_bind_eq_ok.mp hdrawn
    rw [result_flags_fastBatch hchecked] at hflags
    obtain ⟨rfl, -⟩ := Prod.mk.inj (Except.ok.inj hflags)
    rw [List.length_map]
    split
    next => exact List.length_map _
    next => exact List.length_map _
  · rw [result_flags_each hbatch] at hflags
    obtain ⟨_, hpassed, h⟩ := Outcome.bind_eq_ok.mp hflags
    cases h
    exact Outcome.length_of_mapM hpassed

end ShareVerification

/-! ## Combination of what is accepted -/

namespace SharedSecret

variable {shares : List (DecryptionShare G2 T)} {threshold : Nat}

theorem result_combine_of_number {cause : Error}
    (h : requireEnough threshold shares.length = .error cause) :
    (combine G1 shares threshold).result = .error (.error cause) := by
  rw [combine, Attempt.result_liftM_bind, Attempt.result_bind, Attempt.result_orRefuse, h]
  rfl

/-- Too few shares are refused with their number. -/
theorem result_combine_of_short (hpos : 0 < threshold) (hshort : shares.length < threshold) :
    (combine G1 shares threshold).result =
      .error (.error (.insufficientShares threshold shares.length)) := by
  refine result_combine_of_number ?_
  rw [requireEnough, if_neg hpos.ne', if_pos hshort]

theorem result_combine_of_repeated (hpos : 0 < threshold) (henough : threshold ≤ shares.length)
    (hrepeated : ¬(shares.map (·.participant)).Nodup) :
    (combine G1 shares threshold).result = .error (.error .duplicatePoint) := by
  have hnumber := Attempt.result_orRefuse_eq_ok.mpr (requireEnough_eq_ok.mpr ⟨hpos, henough⟩)
  rw [combine, Attempt.result_liftM_bind, Attempt.result_bind_of_ok hnumber, Attempt.result_bind,
    Attempt.result_orRefuse, requireDistinct, if_neg hrepeated]
  rfl

/-- Verified combination is combination of the accepted shares. -/
theorem result_combineVerified_of_run {strategy : VerificationStrategy} {e rest : Entropy}
    {outcome : ShareVerification}
    (h : (ShareVerification.run strategy shares ciphertext vector e).result = .ok (outcome, rest)) :
    (combineVerified strategy shares ciphertext vector threshold e).result =
      (combine G1 (outcome.accepted.filterMap (shares[·]?)) threshold).result.map
        fun secret => (secret, rest) := by
  rw [combineVerified, Attempt.result_liftM_bind, Attempt.result_bind_of_ok h]
  simp only [Attempt.result_ite, Attempt.result_liftM_bind, ite_self]
  rw [Attempt.result_bind, Attempt.result_orRefuse]
  -- Combination makes the same check of the number first.
  cases hnumber : requireEnough threshold (outcome.accepted.filterMap (shares[·]?)).length with
  | error cause =>
    rw [result_combine_of_number hnumber]
    rfl
  | ok =>
    show (combine G1 (outcome.accepted.filterMap (shares[·]?)) threshold >>= _).result = _
    rw [Attempt.result_bind]
    cases (combine G1 (outcome.accepted.filterMap (shares[·]?)) threshold).result with
    | error cause => rfl
    | ok secret => rfl

end SharedSecret
end ThresholdCipher
