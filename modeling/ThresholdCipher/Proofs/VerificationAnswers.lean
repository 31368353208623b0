import ThresholdCipher.Proofs.BatchVerification

/-
Which verifications have an answer.

A simple share is checked against a hash of encodings, and one of the elements encoded
is computed from the challenge and the response that the share brings along.  Where
this element is the identity, or the value is, there is nothing to hash, and
verification stops without an answer.  In exponents that is one equation between
challenge and response (`encodesIdentity_iff`), and zero for both solves it whatever
the value is.  Anything else that can go wrong in verification, and in combination after
it, is an error for the caller.
-/

namespace ThresholdCipher

/-! ## Answers -/

/-- A value, or an error for the caller. -/
inductive Answered {α : Type} : Except Failure α → Prop
  | value (a : α) : Answered (.ok a)
  | refusal (cause : Error) : Answered (.error (.error cause))

namespace Answered

variable {α β : Type}

theorem mapError (x : Except Error α) : Answered (x.mapError Failure.error) := by
  cases x with
  | error cause => exact .refusal cause
  | ok a => exact .value a

theorem bind {x : Except Failure α} {f : α → Except Failure β} (hx : Answered x)
    (hf : ∀ a, x = .ok a → Answered (f a)) : Answered (x >>= f) := by
  cases hx with
  | value a => exact hf a rfl
  | refusal cause => exact .refusal cause

theorem map {x : Except Failure α} (hx : Answered x) (f : α → β) : Answered (x.map f) := by
  cases hx with
  | value a => exact .value (f a)
  | refusal cause => exact .refusal cause

end Answered

/-- Stops at an encoding of the identity in one case, and has an answer in every other. -/
structure AnswersUnless {α : Type} (condition : Prop) (x : Except Failure α) : Prop where
  stops : condition → x = .error .identityEncoded
  answers : ¬condition → Answered x

/-! ## The case without an answer -/

section

variable {G1 G2 T : Type} [CurveGroup G1] [CurveGroup G2] [TargetGroup T] [Pairing G1 G2 T]

/-- The share names a participant at its own point, and its value or the nonce's commitment in
the target group is the identity. -/
def SimpleShare.EncodesIdentity (share : SimpleShare T) (ciphertext : Ciphertext G1 G2)
    (vector : VerificationVector G1) : Prop :=
  (∃ entry, vector.entry? share.participant = some entry ∧
    entry.domainPoint = share.domainPoint) ∧
  (share.value = 1 ∨
    ciphertext.pairingBase ^ share.proof.response * share.value ^ (-share.proof.challenge) = 1)

def DecryptionShare.EncodesIdentity (ciphertext : Ciphertext G1 G2)
    (vector : VerificationVector G1) : DecryptionShare G2 T → Prop
  | fast _ => False
  | simple share => share.EncodesIdentity ciphertext vector

/-- Only lists of simple shares are checked by their proofs. -/
def ShareVerification.EncodesIdentity (strategy : VerificationStrategy)
    (shares : List (DecryptionShare G2 T)) (ciphertext : Ciphertext G1 G2)
    (vector : VerificationVector G1) : Prop :=
  strategy = .simple ∧ (∀ share ∈ shares, share.variant = .simple) ∧
    ∃ share ∈ shares, share.EncodesIdentity ciphertext vector

end

variable {G1 G2 T : Type} [CurveGroup G1] [CurveGroup G2] [TargetGroup T] [Pairing G1 G2 T]
  [LawfulTargetGroup T] {ciphertext : Ciphertext G1 G2} {vector : VerificationVector G1}

omit [CurveGroup G2] [Pairing G1 G2 T] in
/-- There is no challenge where an element that it hashes is the identity. -/
theorem EqualityProof.challengeFor_of_identity {participant : Participant} {commitment : G1}
    {context : Bytes} {value t2 : T} {t1 : G1} (h : value = 1 ∨ t2 = 1) :
    challengeFor participant commitment context value t1 t2 = .error .identityEncoded := by
  by_cases hvalue : value = 1
  · rw [challengeFor, hvalue, encodeTarget_one]
    rfl
  · obtain ⟨bs, hbs⟩ := encodeTarget_ok hvalue
    rw [challengeFor, hbs, h.resolve_left hvalue, encodeTarget_one]
    rfl

namespace SimpleShare

variable {share : SimpleShare T}

theorem verify_of_encodesIdentity (h : share.EncodesIdentity ciphertext vector) :
    (share.verify ciphertext vector).result = .error .identityEncoded := by
  obtain ⟨⟨entry, hentry, hpoint⟩, hidentity⟩ := h
  rw [result_verify_of_known
    (VerificationVector.commitmentAt_eq_some.mpr ⟨entry, hentry, hpoint, rfl⟩)]
  show EqualityProof.challengeFor _ _ _ _ _ _ >>= _ = _
  rw [EqualityProof.challengeFor_of_identity hidentity]
  rfl

theorem exists_verify_eq_ok (h : ¬share.EncodesIdentity ciphertext vector) :
    ∃ passes, (share.verify ciphertext vector).result = .ok passes := by
  cases hlookup : (vector.commitmentAt share.participant share.domainPoint).value with
  | none => exact ⟨false, result_verify_of_unknown hlookup⟩
  | some commitment =>
    obtain ⟨entry, hentry, hpoint, -⟩ := VerificationVector.commitmentAt_eq_some.mp hlookup
    rw [EncodesIdentity, not_and, not_or] at h
    obtain ⟨hvalue, hnonce⟩ := h ⟨entry, hentry, hpoint⟩
    rw [result_verify_of_known hlookup, proofHolds]
    obtain ⟨challenge, hchallenge⟩ := EqualityProof.challengeFor_ok share.participant commitment
      ciphertext.context (share.nonceCommitments commitment ciphertext.pairingBase).1 hvalue hnonce
    exact ⟨_, Outcome.bind_eq_ok.mpr ⟨challenge, hchallenge, rfl⟩⟩

/-- In exponents, the case without an answer is an equation between challenge and response. -/
theorem encodesIdentity_iff [LawfulPairing G1 G2 T] {ρ γ : Scalar}
    (hu : ciphertext.header.u = ρ • generator)
    (hvalue : share.value = pair (generator : G1) (generator : G2) ^ γ) (hγ : γ ≠ 0) :
    share.EncodesIdentity ciphertext vector ↔
      (∃ entry, vector.entry? share.participant = some entry ∧
        entry.domainPoint = share.domainPoint) ∧
      ρ * share.proof.response = γ * share.proof.challenge := by
  have hne : pair (generator : G1) (generator : G2) ≠ 1 := LawfulPairing.pair_generators_ne_one
  rw [EncodesIdentity, Ciphertext.pairingBase_eq hu, targetCommitment_eq_pow hvalue, hvalue,
    pow_eq_one_iff_eq_zero hne, pow_eq_one_iff_eq_zero hne, sub_eq_zero, or_iff_right hγ]

end SimpleShare

namespace DecryptionShare

variable {share : DecryptionShare G2 T}

theorem verify_of_encodesIdentity (h : share.EncodesIdentity ciphertext vector) :
    (share.verify ciphertext vector).result = .error .identityEncoded := by
  cases share with
  | fast share => cases h
  | simple share =>
    rw [result_verify_simple]
    exact SimpleShare.verify_of_encodesIdentity h

theorem exists_verify_eq_ok (h : ¬share.EncodesIdentity ciphertext vector) :
    ∃ passes, (share.verify ciphertext vector).result = .ok passes := by
  cases share with
  | fast share => exact ⟨_, result_verify_fast share⟩
  | simple share =>
    rw [result_verify_simple]
    exact SimpleShare.exists_verify_eq_ok h

end DecryptionShare

/-! ## Lists of shares -/

namespace ShareVerification

variable {shares : List (DecryptionShare G2 T)} {e : Entropy}

theorem run_of_encodesIdentity {strategy : VerificationStrategy}
    (h : EncodesIdentity strategy shares ciphertext vector) :
    (run strategy shares ciphertext vector e).result = .error .identityEncoded := by
  obtain ⟨rfl, hvariants, share, hmem, hidentity⟩ := h
  have hstops : (shares.mapM fun share => (share.verify ciphertext vector).result) =
      .error .identityEncoded := by
    refine Outcome.mapM_eq_error (fun share _ => ?_)
      ⟨share, hmem, DecryptionShare.verify_of_encodesIdentity hidentity⟩
    by_cases h : share.EncodesIdentity ciphertext vector
    · exact .inl (DecryptionShare.verify_of_encodesIdentity h)
    · exact .inr (DecryptionShare.exists_verify_eq_ok h)
  rw [result_run, requireVariant_eq_ok.mpr hvariants, result_flags_each (by decide), hstops]
  rfl

theorem exists_run_simple (h : ¬∃ share ∈ shares, share.EncodesIdentity ciphertext vector)
    (hvariants : requireVariant .simple shares = .ok ()) :
    ∃ outcome, (run .simple shares ciphertext vector e).result = .ok (outcome, e) := by
  push Not at h
  obtain ⟨passed, hpassed⟩ := Outcome.exists_mapM_eq_ok fun share hshare =>
    DecryptionShare.exists_verify_eq_ok (h share hshare)
  rw [result_run, hvariants, result_flags_each (by decide), hpassed]
  exact ⟨_, rfl⟩

variable [LawfulCurveGroup G1] [LawfulCurveGroup G2] [LawfulPairing G1 G2 T]

/-- A batch has an outcome where the random words last. -/
theorem exists_batch (fasts : List (FastShare G2)) {drawn : List Scalar × Entropy}
    (hdraw : e.scalars? fasts.length = some drawn) :
    ∃ passed rest, (batch fasts ciphertext vector e).result = .ok (passed, rest) := by
  obtain ⟨ρ, hρ⟩ := LawfulCurveGroup.spanned ciphertext.header.v
  rcases exists_exponents_or_unknown vector fasts with ⟨exponents, hknown⟩ | hunknown
  · exact ⟨_, _, batch_of_known hρ.symm hknown hdraw⟩
  · exact ⟨_, _, batch_of_unknown hunknown e⟩

theorem answersUnless_run (strategy : VerificationStrategy) (shares : List (DecryptionShare G2 T))
    (hdraws : strategy = .fastBatch → ∃ drawn, e.scalars? shares.length = some drawn) :
    AnswersUnless (EncodesIdentity strategy shares ciphertext vector)
      (run strategy shares ciphertext vector e).result := by
  refine ⟨run_of_encodesIdentity, fun h => ?_⟩
  cases hvariants : requireVariant strategy shares with
  | error cause =>
    rw [result_run, hvariants]
    exact .refusal cause
  | ok =>
    have hall := requireVariant_eq_ok.mp hvariants
    cases strategy with
    | fast =>
      obtain ⟨fasts, rfl⟩ := exists_fasts hall
      rw [run_fast]
      exact .value _
    | simple =>
      obtain ⟨outcome, houtcome⟩ : ∃ outcome,
          (run .simple shares ciphertext vector e).result = .ok (outcome, e) :=
        exists_run_simple (fun hidentity => h ⟨rfl, hall, hidentity⟩) hvariants
      rw [houtcome]
      exact .value _
    | fastBatch =>
      obtain ⟨fasts, rfl⟩ := exists_fasts hall
      obtain ⟨drawn, hdraw⟩ := hdraws rfl
      rw [List.length_map] at hdraw
      obtain ⟨passed, rest, hbatch⟩ : ∃ passed rest,
          (batch fasts ciphertext vector e).result = .ok (passed, rest) := exists_batch fasts hdraw
      rw [run_fastBatch_of_batch hbatch]
      exact .value _

end ShareVerification

/-! ## Combination -/

omit [CurveGroup G1] [CurveGroup G2] [TargetGroup T] [Pairing G1 G2 T] [LawfulTargetGroup T] in
/-- A sum under at least one weight has a value, or the lists differ in length. -/
theorem answered_weightedSum {G : Type} [CurveGroup G] {points : List G} {weights : List Scalar}
    (h : weights ≠ []) : Answered (weightedSum points weights) := by
  unfold weightedSum
  split
  next => exact .refusal _
  next hlen =>
    rw [if_neg]
    · exact .value _
    · rw [List.isEmpty_iff]
      rintro rfl
      exact h (List.length_eq_zero_iff.mp (not_not.mp hlen).symm)

namespace Interpolation

theorem answered_weights (points : List Scalar) (z : Scalar) :
    Answered (weights points z).result := by
  rw [weights, Attempt.result_liftM_bind]
  exact .mapError _

theorem answered_target {T : Type} [TargetGroup T] (points : List Scalar) (values : List T)
    (z : Scalar) : Answered (target points values z).result := by
  rw [target, Attempt.result_bind]
  refine .bind (.mapError _) fun _ _ => ?_
  rw [Attempt.result_bind]
  exact .bind (answered_weights points z) fun _ _ => .value _

end Interpolation

namespace SharedSecret

variable {strategy : VerificationStrategy} {shares : List (DecryptionShare G2 T)} {threshold : Nat}
  {e : Entropy}

omit [LawfulTargetGroup T] in
theorem answered_combine (shares : List (DecryptionShare G2 T)) (threshold : Nat) :
    Answered (combine G1 shares threshold).result := by
  rw [combine, Attempt.result_liftM_bind, Attempt.result_bind]
  refine .bind (.mapError _) fun _ _ => ?_
  rw [Attempt.result_bind]
  refine .bind (.mapError _) fun _ _ => ?_
  cases shares.mapM (·.fast?) with
  | some fasts =>
    show Answered (Interpolation.weights _ _ >>= _ : Attempt _).result
    rw [Attempt.result_bind]
    refine .bind (Interpolation.answered_weights _ _) fun ws hws => ?_
    -- There is a weight, since there are no weights for no points.
    have hne : ws ≠ [] := by
      obtain ⟨hpoints, -, rfl⟩ := Interpolation.weights_eq_ok.mp hws
      exact fun h => hpoints (List.map_eq_nil_iff.mp h)
    rw [Attempt.result_bind]
    exact .bind (answered_weightedSum hne) fun _ _ => .value _
  | none =>
    show Answered (liftM _ >>= fun _ => Interpolation.target _ _ _ >>= _ : Attempt _).result
    rw [Attempt.result_liftM_bind, Attempt.result_bind]
    exact .bind (Interpolation.answered_target _ _ _) fun _ _ => .value _

omit [LawfulTargetGroup T] in
theorem result_combineVerified_of_run_error {failure : Failure}
    (h : (ShareVerification.run strategy shares ciphertext vector e).result = .error failure) :
    (combineVerified strategy shares ciphertext vector threshold e).result = .error failure := by
  rw [combineVerified, Attempt.result_liftM_bind, Attempt.result_bind, h]
  rfl

omit [LawfulTargetGroup T] in
/-- Combination has an answer where verification has one. -/
theorem answersUnless_combineVerified {condition : Prop}
    (h : AnswersUnless condition
      (ShareVerification.run strategy shares ciphertext vector e).result) (threshold : Nat) :
    AnswersUnless condition
      (combineVerified strategy shares ciphertext vector threshold e).result := by
  refine ⟨fun hcondition => result_combineVerified_of_run_error (h.stops hcondition),
    fun hcondition => ?_⟩
  have hrun := h.answers hcondition
  cases houtcome : (ShareVerification.run strategy shares ciphertext vector e).result with
  | error failure =>
    rw [result_combineVerified_of_run_error houtcome]
    rw [houtcome] at hrun
    cases hrun with
    | refusal cause => exact .refusal cause
  | ok outcome =>
    rw [result_combineVerified_of_run houtcome]
    exact (answered_combine _ _).map _

end SharedSecret

/-! ## Exactly one case without an answer -/

variable [LawfulCurveGroup G1] [LawfulCurveGroup G2] [LawfulPairing G1 G2 T]

/-- Verification of one share has an outcome, and verification of a list and combination after
it have an answer, except where a simple share that is checked encodes the identity; there they
stop.  For a value other than the identity this is one equation between the challenge and the
response of its proof.  To require that all shares of a verified list are valid is then to be told
the participant of the first that is not. -/
theorem verification_answers (ciphertext : Ciphertext G1 G2) (vector : VerificationVector G1) :
    (∀ share : DecryptionShare G2 T,
      (share.EncodesIdentity ciphertext vector →
        (share.verify ciphertext vector).result = .error .identityEncoded) ∧
      (¬share.EncodesIdentity ciphertext vector →
        ∃ passes, (share.verify ciphertext vector).result = .ok passes)) ∧
    (∀ (strategy : VerificationStrategy) (shares : List (DecryptionShare G2 T)) (threshold : Nat)
      (e : Entropy), (strategy = .fastBatch → ∃ drawn, e.scalars? shares.length = some drawn) →
      AnswersUnless (ShareVerification.EncodesIdentity strategy shares ciphertext vector)
        (ShareVerification.run strategy shares ciphertext vector e).result ∧
      AnswersUnless (ShareVerification.EncodesIdentity strategy shares ciphertext vector)
        (SharedSecret.combineVerified strategy shares ciphertext vector threshold e).result) ∧
    (∀ (share : SimpleShare T) (ρ γ : Scalar), ciphertext.header.u = ρ • generator →
      share.value = pair (generator : G1) (generator : G2) ^ γ → γ ≠ 0 →
      (share.EncodesIdentity ciphertext vector ↔
        (∃ entry, vector.entry? share.participant = some entry ∧
          entry.domainPoint = share.domainPoint) ∧
        ρ * share.proof.response = γ * share.proof.challenge)) ∧
    ∀ (strategy : VerificationStrategy) (shares : List (DecryptionShare G2 T))
      (outcome : ShareVerification) (e rest : Entropy),
      (ShareVerification.run strategy shares ciphertext vector e).result = .ok (outcome, rest) →
      (outcome.rejected = [] → outcome.requireAllValid shares = .ok ()) ∧
      ∀ position later, outcome.rejected = position :: later →
        ∃ share, shares[position]? = some share ∧
          outcome.requireAllValid shares = .error (.invalidShare share.participant) := by
  refine ⟨fun share => ⟨DecryptionShare.verify_of_encodesIdentity,
    DecryptionShare.exists_verify_eq_ok⟩, ?_, ?_, ?_⟩
  · intro strategy shares threshold e hdraws
    have hrun : AnswersUnless (ShareVerification.EncodesIdentity strategy shares ciphertext vector)
        (ShareVerification.run strategy shares ciphertext vector e).result :=
      ShareVerification.answersUnless_run strategy shares hdraws
    exact ⟨hrun, SharedSecret.answersUnless_combineVerified hrun threshold⟩
  · exact fun share ρ γ hu hvalue hγ => SimpleShare.encodesIdentity_iff hu hvalue hγ
  · intro strategy shares outcome e rest hrun
    obtain ⟨flags, hlength, rfl⟩ := ShareVerification.exists_flags_of_run hrun
    exact ShareVerification.requireAllValid_ofFlags hlength

/-- The first participant's value with a challenge and a response that solve the equation, and
a batch of two shares. -/
theorem verification_answers_first_participant :
    ((DecryptionShare.simple ⟨0, 1, ⟨56⟩, ⟨1, 8⟩⟩ : DecryptionShare LogPoint LogTarget).verify
      LogPoint.sevenfold LogPoint.dealing.vector).result = .error .identityEncoded ∧
    Answered (SharedSecret.combineVerified .fastBatch
      ([.fast ⟨0, 1, ⟨56⟩⟩, .fast ⟨1, 2, ⟨76⟩⟩] : List (DecryptionShare LogPoint LogTarget))
      LogPoint.sevenfold LogPoint.dealing.vector 2 (.ofList [3, 0, 0, 0, 4, 0, 0, 0])).result := by
  obtain ⟨hone, hlist, hequation, -⟩ :=
    verification_answers LogPoint.sevenfold LogPoint.dealing.vector
  constructor
  · refine (hone _).1 ?_
    exact (hequation ⟨0, 1, ⟨56⟩, ⟨1, 8⟩⟩ 7 56 (by decide) (by decide) (by decide)).mpr
      ⟨⟨⟨0, 1, ⟨8⟩⟩, by decide, by decide⟩, by decide⟩
  · exact (hlist .fastBatch _ 2 _ fun _ => ⟨_, rfl⟩).2.answers fun h => (nomatch h.1)

/-- The encoding of the first participant's value under a proof of zeroes. -/
def LogPoint.zeroProofBytes : Bytes :=
  [1] ++ Bytes.bigEndian 4 0 ++ Scalar.encode 1 ++ Bytes.bigEndian 4 32 ++ Scalar.encode 56 ++
    Scalar.encode 0 ++ Scalar.encode 0

/-- A share that decodes, with the right value, leaves its verification without an answer. -/
theorem verification_without_answer :
    Wire.decode LogPoint.zeroProofBytes =
      .ok (.simple ⟨0, 1, ⟨56⟩, ⟨0, 0⟩⟩ : DecryptionShare LogPoint LogTarget) ∧
    (⟨56⟩ : LogTarget) ≠ 1 ∧ (LogPoint.sevenfold.checkValidity []).result = .ok () ∧
    ((DecryptionShare.simple ⟨0, 1, ⟨56⟩, ⟨0, 0⟩⟩ : DecryptionShare LogPoint LogTarget).verify
      LogPoint.sevenfold LogPoint.dealing.vector).result = .error .identityEncoded ∧
    (ShareVerification.run .simple
      ([.simple ⟨0, 1, ⟨56⟩, ⟨0, 0⟩⟩] : List (DecryptionShare LogPoint LogTarget))
      LogPoint.sevenfold LogPoint.dealing.vector (.ofList [])).result =
        .error .identityEncoded ∧
    (SharedSecret.combineVerified .simple
      ([.simple ⟨0, 1, ⟨56⟩, ⟨0, 0⟩⟩] : List (DecryptionShare LogPoint LogTarget))
      LogPoint.sevenfold LogPoint.dealing.vector 2 (.ofList [])).result =
        .error .identityEncoded ∧
    ¬∀ share : DecryptionShare LogPoint LogTarget,
      Answered (share.verify LogPoint.sevenfold LogPoint.dealing.vector).result := by
  have hidentity : (⟨0, 1, ⟨56⟩, ⟨0, 0⟩⟩ : SimpleShare LogTarget).EncodesIdentity
      LogPoint.sevenfold LogPoint.dealing.vector :=
    ⟨⟨⟨0, 1, ⟨8⟩⟩, by decide, by decide⟩, .inr (by decide)⟩
  have hverified : ((DecryptionShare.simple ⟨0, 1, ⟨56⟩, ⟨0, 0⟩⟩ :
      DecryptionShare LogPoint LogTarget).verify LogPoint.sevenfold
        LogPoint.dealing.vector).result = .error .identityEncoded :=
    DecryptionShare.verify_of_encodesIdentity hidentity
  have hrun : (ShareVerification.run .simple
      ([.simple ⟨0, 1, ⟨56⟩, ⟨0, 0⟩⟩] : List (DecryptionShare LogPoint LogTarget))
      LogPoint.sevenfold LogPoint.dealing.vector (.ofList [])).result =
        .error .identityEncoded :=
    ShareVerification.run_of_encodesIdentity
      ⟨rfl, by decide, _, List.mem_singleton_self _, hidentity⟩
  refine ⟨by cbv, by decide, LogPoint.checkValidity_sevenfold, hverified, hrun,
    SharedSecret.result_combineVerified_of_run_error hrun, ?_⟩
  intro h
  have hanswered := h (.simple ⟨0, 1, ⟨56⟩, ⟨0, 0⟩⟩)
  rw [hverified] at hanswered
  cases hanswered

end ThresholdCipher
