import ThresholdCipher.Proofs.VerificationAnswers

/-
Which encryptions, decryption shares and decryptions have an answer.

Keys and challenges are derived from encodings of target elements, and the identity has none.
It is there to be encoded for a public key that is the identity, for a simple share of a key
share that is zero, and for prepared shares that cancel; whoever sends such values stops the
operation without an answer.  Everything else ends with a value or an error for the caller, and
a secret that is not the right one opens nothing but what was sealed under it.
-/

namespace ThresholdCipher

/-! ## Steps one after the other -/

namespace AnswersUnless

variable {α β : Type} {condition condition' : Prop} {x : Except Failure α}
  {f : α → Except Failure β}

theorem congr (h : AnswersUnless condition x) (hiff : condition ↔ condition') :
    AnswersUnless condition' x where
  stops hcondition := h.stops (hiff.mpr hcondition)
  answers hcondition := h.answers (mt hiff.mp hcondition)

/-- The cases of two steps are those of the first, and those of the second after it. -/
theorem bind_unless {next : α → Prop} (hx : AnswersUnless condition x)
    (hf : ∀ a, x = .ok a → AnswersUnless (next a) (f a)) :
    AnswersUnless (condition ∨ ∃ a, x = .ok a ∧ next a) (x >>= f) where
  stops h := by
    rcases h with hcondition | hnext
    · rw [hx.stops hcondition]
      rfl
    · obtain ⟨a, ha, hnext⟩ := hnext
      rw [ha]
      exact (hf a ha).stops hnext
  answers h := by
    obtain ⟨hcondition, hnext⟩ := not_or.mp h
    exact (hx.answers hcondition).bind fun a ha =>
      (hf a ha).answers fun ha' => hnext ⟨a, ha, ha'⟩

/-- What always has an answer has no case without one. -/
theorem of_answered (hx : Answered x) : AnswersUnless False x where
  stops h := h.elim
  answers _ := hx

/-- Steps that always have an answer leave the one case of the step before them. -/
theorem bind (hx : AnswersUnless condition x) (hf : ∀ a, x = .ok a → Answered (f a)) :
    AnswersUnless condition (x >>= f) := by
  refine (hx.bind_unless fun a ha => of_answered (hf a ha)).congr ?_
  simp

end AnswersUnless

/-- A step that always has an answer leaves the cases of what follows it. -/
theorem Answered.bind_unless {α β : Type} {condition : α → Prop} {x : Except Failure α}
    {f : α → Except Failure β} (hx : Answered x)
    (hf : ∀ a, x = .ok a → AnswersUnless (condition a) (f a)) :
    AnswersUnless (∃ a, x = .ok a ∧ condition a) (x >>= f) :=
  ((AnswersUnless.of_answered hx).bind_unless hf).congr (Iff.of_eq (false_or _))

section

variable {T : Type} [TargetGroup T] [LawfulTargetGroup T]

theorem answersUnless_encodeTarget (t : T) : AnswersUnless (t = 1) (encodeTarget t) where
  stops h := by rw [h, encodeTarget_one]
  answers h := by
    obtain ⟨bs, hbs⟩ := encodeTarget_ok h
    rw [hbs]
    exact .value bs

theorem EqualityProof.answersUnless_challengeFor {G1 : Type} [CurveGroup G1]
    (participant : Participant) (commitment : G1) (context : Bytes) (value : T) (t1 : G1) (t2 : T) :
    AnswersUnless (value = 1 ∨ t2 = 1)
      (challengeFor participant commitment context value t1 t2) where
  stops := challengeFor_of_identity
  answers h := by
    obtain ⟨hvalue, ht2⟩ := not_or.mp h
    obtain ⟨challenge, hchallenge⟩ :=
      challengeFor_ok participant commitment context t1 hvalue ht2
    rw [hchallenge]
    exact .value challenge

end

variable {G1 G2 T : Type} [CurveGroup G1] [CurveGroup G2] [TargetGroup T] [Pairing G1 G2 T]
  [LawfulCurveGroup G1] [LawfulCurveGroup G2] [LawfulTargetGroup T] [LawfulPairing G1 G2 T]

/-! ## Encryption -/

/-- The secret of an encryption is the identity if the public key is. -/
theorem PayloadCipher.answersUnless_encrypt (cipher : PayloadCipher) (publicKey : G1)
    (plaintext aad : Bytes) {e rest : Entropy} {r : Scalar}
    (hr : e.nonzeroScalar? = some (r, rest)) :
    AnswersUnless (publicKey = 0)
      (cipher.encrypt publicKey plaintext aad e : Attempt (Ciphertext G1 G2 × Entropy)).result := by
  have hsecret : pair (r • publicKey) (generator : G2) = 1 ↔ publicKey = 0 := by
    rw [pair_eq_one_iff, or_iff_left LawfulCurveGroup.generator_ne_zero, smul_eq_zero,
      or_iff_right (Entropy.ne_zero_of_nonzeroScalar? hr)]
  rw [encrypt, Attempt.result_liftM_bind,
    Attempt.result_bind_of_ok (Attempt.result_drawn_eq_ok.mpr hr), Attempt.result_bind,
    Attempt.result_ofExcept]
  refine ((answersUnless_encodeTarget _).bind fun material _ => ?_).congr hsecret
  rw [Attempt.result_bind, Attempt.result_orRefuse]
  refine .bind (.mapError _) fun payload _ => ?_
  rw [Attempt.result_bind, Attempt.result_orRefuse]
  exact .bind (.mapError _) fun hashed _ => .value _

/-! ## Decryption shares -/

namespace Ciphertext

variable {ciphertext : Ciphertext G1 G2}

omit [LawfulCurveGroup G1] [LawfulCurveGroup G2] [LawfulTargetGroup T] [LawfulPairing G1 G2 T] in
theorem answered_checkValidity (ciphertext : Ciphertext G1 G2) (aad : Bytes) :
    Answered (ciphertext.checkValidity aad).result := by
  rw [checkValidity, Attempt.result_liftM_bind, Attempt.result_ite]
  split
  next => exact .refusal _
  next =>
    rw [Attempt.result_bind, Attempt.result_orRefuse]
    refine .bind (.mapError _) fun hashed _ => ?_
    rw [Attempt.result_ite]
    split
    next => exact .value _
    next => exact .refusal _

omit [LawfulCurveGroup G1] [LawfulCurveGroup G2] [LawfulTargetGroup T] [LawfulPairing G1 G2 T] in
/-- A ciphertext that is not valid is refused before anything that follows its check. -/
theorem answersUnless_checkValidity_bind {α : Type} {condition : Prop} {aad : Bytes}
    {f : Unit → Except Failure α}
    (hf : (ciphertext.checkValidity aad).result = .ok () → AnswersUnless condition (f ())) :
    AnswersUnless ((ciphertext.checkValidity aad).result = .ok () ∧ condition)
      ((ciphertext.checkValidity aad).result >>= f) :=
  ((answered_checkValidity ciphertext aad).bind_unless fun _ h => hf h).congr Unique.exists_iff

/-- Only the proof of a simple share encodes target elements. -/
theorem answersUnless_shareOf (hu : ciphertext.header.u ≠ 0) (variant : ShareVariant)
    (share : KeyShare) :
    AnswersUnless (variant = .simple ∧
        (share.value = 0 ∨ EqualityProof.nonce share ciphertext.context = 0))
      (ciphertext.shareOf variant share : Except Failure (DecryptionShare G2 T)) := by
  cases variant with
  | fast => exact ⟨fun h => (nomatch h.1), fun _ => .value _⟩
  | simple =>
    have hbase : ciphertext.pairingBase ≠ 1 := by
      rw [pairingBase, Ne, pair_eq_one_iff, not_or]
      exact ⟨hu, LawfulCurveGroup.generator_ne_zero⟩
    refine .congr ?_ (and_iff_right rfl).symm
    rw [← pow_eq_one_iff_eq_zero hbase, ← pow_eq_one_iff_eq_zero hbase, shareOf, simpleShare]
    refine .bind (.bind (EqualityProof.answersUnless_challengeFor _ _ _ _ _ _) ?_) ?_
    · exact fun challenge _ => .value _
    · exact fun simple _ => .value _

theorem answersUnless_createShare (ciphertext : Ciphertext G1 G2) (aad : Bytes)
    (share : KeyShare) (variant : ShareVariant) :
    AnswersUnless ((ciphertext.checkValidity aad).result = .ok () ∧ variant = .simple ∧
        (share.value = 0 ∨ EqualityProof.nonce share ciphertext.context = 0))
      (ciphertext.createShare aad share variant : Attempt (DecryptionShare G2 T)).result := by
  rw [createShare, Attempt.result_liftM_bind, Attempt.result_bind]
  refine answersUnless_checkValidity_bind fun hvalid => ?_
  rw [Attempt.result_ofExcept]
  exact answersUnless_shareOf (checkValidity_eq_ok.mp hvalid).1 variant share

end Ciphertext

/-! ## Decryption -/

namespace PayloadCipher

variable {cipher : PayloadCipher} {ciphertext : Ciphertext G1 G2} {aad : Bytes}
  {secret : SharedSecret T}

omit [Pairing G1 G2 T] [LawfulCurveGroup G1] [LawfulCurveGroup G2] [LawfulPairing G1 G2 T] in
theorem answersUnless_decrypt (cipher : PayloadCipher) (ciphertext : Ciphertext G1 G2)
    (aad : Bytes) (secret : SharedSecret T) :
    AnswersUnless (secret.value = 1) (cipher.decrypt ciphertext aad secret).result := by
  rw [decrypt, Attempt.result_liftM_bind, Attempt.result_bind, Attempt.result_ofExcept]
  refine (answersUnless_encodeTarget secret.value).bind fun material _ => ?_
  rw [Attempt.result_orRefuse]
  exact .mapError _

omit [Pairing G1 G2 T] [LawfulCurveGroup G1] [LawfulCurveGroup G2] [LawfulPairing G1 G2 T] in
/-- A secret opens what is sealed under it, and nothing else. -/
theorem result_decrypt_of_ne_one (h : secret.value ≠ 1) :
    (cipher.decrypt ciphertext aad secret).result = .error (.error .authenticationFailure) ∨
    ∃ material plaintext, encodeTarget secret.value = .ok material ∧
      cipher.wrap material ciphertext.context plaintext aad = .ok ciphertext.payload ∧
      (cipher.decrypt ciphertext aad secret).result = .ok plaintext := by
  obtain ⟨material, hmaterial⟩ := encodeTarget_ok h
  rw [decrypt, SharedSecret.encode, Attempt.result_liftM_bind,
    Attempt.result_bind_of_ok ((Attempt.result_ofExcept _).trans hmaterial),
    Attempt.result_orRefuse]
  rcases unwrap_ok_or_refused cipher material ciphertext.context ciphertext.payload aad with
    hopened | hrefused
  · obtain ⟨plaintext, hunwrap⟩ := hopened
    rw [hunwrap]
    exact .inr ⟨material, plaintext, hmaterial, wrap_of_unwrap hunwrap, rfl⟩
  · rw [hrefused]
    exact .inl rfl

omit [LawfulCurveGroup G1] [LawfulCurveGroup G2] [LawfulPairing G1 G2 T] in
theorem answersUnless_checkedDecrypt (cipher : PayloadCipher) (ciphertext : Ciphertext G1 G2)
    (aad : Bytes) (secret : SharedSecret T) :
    AnswersUnless ((ciphertext.checkValidity aad).result = .ok () ∧ secret.value = 1)
      (cipher.checkedDecrypt ciphertext aad secret).result := by
  rw [checkedDecrypt, Attempt.result_bind]
  exact Ciphertext.answersUnless_checkValidity_bind fun _ =>
    answersUnless_decrypt cipher ciphertext aad secret

end PayloadCipher

/-! ## Combination and decryption -/

omit [LawfulCurveGroup G1] [LawfulCurveGroup G2] [LawfulPairing G1 G2 T] in
theorem answersUnless_combine_decrypt (cipher : PayloadCipher) (ciphertext : Ciphertext G1 G2)
    (aad : Bytes) (shares : List (DecryptionShare G2 T)) (threshold : Nat) :
    AnswersUnless ((SharedSecret.combine G1 shares threshold).result = .ok ⟨1⟩)
      (SharedSecret.combine G1 shares threshold >>= cipher.decrypt ciphertext aad).result := by
  rw [Attempt.result_bind]
  refine (Answered.bind_unless (SharedSecret.answered_combine shares threshold) fun secret _ =>
    PayloadCipher.answersUnless_decrypt cipher ciphertext aad secret).congr ?_
  constructor
  · rintro ⟨⟨value⟩, hsecret, rfl⟩
    exact hsecret
  · exact fun h => ⟨⟨1⟩, h, rfl⟩

/-- Verification may stop, and the verified shares may combine to the identity. -/
theorem PayloadCipher.answersUnless_decryptWithShares (cipher : PayloadCipher)
    (ciphertext : Ciphertext G1 G2) (aad : Bytes) (shares : List (DecryptionShare G2 T))
    (vector : VerificationVector G1) (threshold : Nat) (strategy : VerificationStrategy)
    {e : Entropy}
    (hdraws : strategy = .fastBatch → ∃ drawn, e.scalars? shares.length = some drawn) :
    AnswersUnless (ShareVerification.EncodesIdentity strategy shares ciphertext vector ∨
        ∃ rest,
          (SharedSecret.combineVerified strategy shares ciphertext vector threshold e).result =
            .ok (⟨1⟩, rest))
      (cipher.decryptWithShares ciphertext aad shares vector threshold strategy e).result := by
  have hrun : AnswersUnless (ShareVerification.EncodesIdentity strategy shares ciphertext vector)
      (ShareVerification.run strategy shares ciphertext vector e).result :=
    ShareVerification.answersUnless_run strategy shares hdraws
  have hdecrypt : ∀ combined : SharedSecret T × Entropy, AnswersUnless (combined.1.value = 1)
      (cipher.decrypt ciphertext aad combined.1 >>= fun plaintext =>
        pure (plaintext, combined.2)).result := by
    intro combined
    rw [Attempt.result_bind]
    exact (answersUnless_decrypt cipher ciphertext aad combined.1).bind fun _ _ => .value _
  rw [decryptWithShares, Attempt.result_bind]
  refine ((SharedSecret.answersUnless_combineVerified hrun threshold).bind_unless fun combined _ =>
    hdecrypt combined).congr (or_congr_right ?_)
  constructor
  · intro h
    obtain ⟨⟨⟨value⟩, rest⟩, hcombine, hone⟩ := h
    cases hone
    exact ⟨rest, hcombine⟩
  · intro h
    obtain ⟨rest, hcombine⟩ := h
    exact ⟨_, hcombine, rfl⟩

omit [TargetGroup T] [LawfulCurveGroup G1] [LawfulCurveGroup G2] [LawfulTargetGroup T]
  [LawfulPairing G1 G2 T] in
theorem SharedSecret.answered_combinePrepared (shares : List (PreparedDecryptionShare G2))
    (threshold : Nat) :
    Answered (combinePrepared G1 shares threshold : Attempt (SharedSecret T)).result := by
  rw [combinePrepared, Attempt.result_liftM_bind, Attempt.result_bind, Attempt.result_orRefuse]
  refine .bind (.mapError _) fun _ _ => ?_
  rw [Attempt.result_bind, Attempt.result_orRefuse]
  exact .bind (.mapError _) fun _ _ => .value _

/-- Prepared shares that cancel combine to the identity. -/
theorem PayloadCipher.answersUnless_decryptWithPrepared (cipher : PayloadCipher)
    (ciphertext : Ciphertext G1 G2) (aad : Bytes) (shares : List (PreparedDecryptionShare G2))
    (threshold : Nat) :
    AnswersUnless ((0 < threshold ∧ threshold ≤ shares.length) ∧
        (shares.map (·.participant)).Nodup ∧ sum (shares.map (·.value)) = 0)
      (cipher.decryptWithPrepared ciphertext aad shares threshold).result := by
  rw [decryptWithPrepared, Attempt.result_bind]
  refine (Answered.bind_unless (SharedSecret.answered_combinePrepared shares threshold)
    fun secret _ => answersUnless_decrypt cipher ciphertext aad secret).congr ?_
  have hidentity : pair (generator : G1) (sum (shares.map (·.value))) = 1 ↔
      sum (shares.map (·.value)) = 0 := by
    rw [pair_eq_one_iff, or_iff_right LawfulCurveGroup.generator_ne_zero]
  rw [← hidentity]
  constructor
  · intro h
    obtain ⟨secret, hsecret, hone⟩ := h
    obtain ⟨henough, hnodup, rfl⟩ := SharedSecret.combinePrepared_eq_ok.mp hsecret
    exact ⟨henough, hnodup, hone⟩
  · intro h
    obtain ⟨henough, hnodup, hone⟩ := h
    exact ⟨_, SharedSecret.combinePrepared_eq_ok.mpr ⟨henough, hnodup, rfl⟩, hone⟩

/-- Encryption, the making of decryption shares, and decryption with given, combined or prepared
secrets have an answer except where a target element to be encoded is the identity, which is one
case for each; combination always has one.  Decryption with any other secret fails to
authenticate, or gives a text whose sealing under that secret is the payload.  Decryption after a
check of the ciphertext, or with shares that are verified first, has the cases of its parts. -/
theorem operations_answer (cipher : PayloadCipher) :
    (∀ (publicKey : G1) (plaintext aad : Bytes) (e rest : Entropy) (r : Scalar),
      e.nonzeroScalar? = some (r, rest) → AnswersUnless (publicKey = 0)
        (cipher.encrypt publicKey plaintext aad e :
          Attempt (Ciphertext G1 G2 × Entropy)).result) ∧
    (∀ (ciphertext : Ciphertext G1 G2) (aad : Bytes) (share : KeyShare) (variant : ShareVariant),
      AnswersUnless ((ciphertext.checkValidity aad).result = .ok () ∧ variant = .simple ∧
          (share.value = 0 ∨ EqualityProof.nonce share ciphertext.context = 0))
        (ciphertext.createShare aad share variant : Attempt (DecryptionShare G2 T)).result) ∧
    (∀ (ciphertext : Ciphertext G1 G2) (aad : Bytes) (secret : SharedSecret T),
      AnswersUnless (secret.value = 1) (cipher.decrypt ciphertext aad secret).result ∧
      (secret.value ≠ 1 →
        (cipher.decrypt ciphertext aad secret).result = .error (.error .authenticationFailure) ∨
        ∃ material plaintext, encodeTarget secret.value = .ok material ∧
          cipher.wrap material ciphertext.context plaintext aad = .ok ciphertext.payload ∧
          (cipher.decrypt ciphertext aad secret).result = .ok plaintext)) ∧
    (∀ (ciphertext : Ciphertext G1 G2) (aad : Bytes) (shares : List (DecryptionShare G2 T))
      (threshold : Nat), Answered (SharedSecret.combine G1 shares threshold).result ∧
      AnswersUnless ((SharedSecret.combine G1 shares threshold).result = .ok ⟨1⟩)
        (SharedSecret.combine G1 shares threshold >>= cipher.decrypt ciphertext aad).result) ∧
    (∀ (ciphertext : Ciphertext G1 G2) (aad : Bytes) (shares : List (PreparedDecryptionShare G2))
      (threshold : Nat),
      Answered (SharedSecret.combinePrepared G1 shares threshold :
        Attempt (SharedSecret T)).result ∧
      AnswersUnless ((0 < threshold ∧ threshold ≤ shares.length) ∧
          (shares.map (·.participant)).Nodup ∧ sum (shares.map (·.value)) = 0)
        (cipher.decryptWithPrepared ciphertext aad shares threshold).result) ∧
    (∀ (ciphertext : Ciphertext G1 G2) (aad : Bytes) (secret : SharedSecret T),
      AnswersUnless ((ciphertext.checkValidity aad).result = .ok () ∧ secret.value = 1)
        (cipher.checkedDecrypt ciphertext aad secret).result) ∧
    ∀ (ciphertext : Ciphertext G1 G2) (aad : Bytes) (shares : List (DecryptionShare G2 T))
      (vector : VerificationVector G1) (threshold : Nat) (strategy : VerificationStrategy)
      (e : Entropy), (strategy = .fastBatch → ∃ drawn, e.scalars? shares.length = some drawn) →
      AnswersUnless (ShareVerification.EncodesIdentity strategy shares ciphertext vector ∨
          ∃ rest, (SharedSecret.combineVerified strategy shares ciphertext vector threshold
            e).result = .ok (⟨1⟩, rest))
        (cipher.decryptWithShares ciphertext aad shares vector threshold strategy e).result := by
  refine ⟨?_, Ciphertext.answersUnless_createShare, ?_, ?_, ?_,
    cipher.answersUnless_checkedDecrypt, ?_⟩
  · intro publicKey plaintext aad e rest r hr
    exact cipher.answersUnless_encrypt publicKey plaintext aad hr
  · intro ciphertext aad secret
    exact ⟨cipher.answersUnless_decrypt ciphertext aad secret,
      PayloadCipher.result_decrypt_of_ne_one⟩
  · intro ciphertext aad shares threshold
    exact ⟨SharedSecret.answered_combine shares threshold,
      answersUnless_combine_decrypt cipher ciphertext aad shares threshold⟩
  · intro ciphertext aad shares threshold
    exact ⟨SharedSecret.answered_combinePrepared shares threshold,
      cipher.answersUnless_decryptWithPrepared ciphertext aad shares threshold⟩
  · intro ciphertext aad shares vector threshold strategy e hdraws
    exact cipher.answersUnless_decryptWithShares ciphertext aad shares vector threshold strategy
      hdraws

/-- Encryption to a key that is not the identity and to one that is, a fast share of zero, prepared
shares that do not cancel, and a valid ciphertext with the identity as its secret. -/
theorem operations_answer_at_sevenfold :
    Answered (PayloadCipher.standard.encrypt (⟨5⟩ : LogPoint) [1, 2, 3] [9]
      (.ofList [7, 0, 0, 0]) : Attempt (Ciphertext LogPoint LogPoint × Entropy)).result ∧
    (PayloadCipher.standard.encrypt (0 : LogPoint) [1, 2, 3] [9] (.ofList [7, 0, 0, 0]) :
      Attempt (Ciphertext LogPoint LogPoint × Entropy)).result = .error .identityEncoded ∧
    Answered (LogPoint.sevenfold.createShare [] ⟨0, 1, 0⟩ .fast :
      Attempt (DecryptionShare LogPoint LogTarget)).result ∧
    Answered (PayloadCipher.standard.decryptWithPrepared LogPoint.sevenfold []
      [⟨0, 1, ⟨5⟩⟩, ⟨1, 2, ⟨6⟩⟩] 2).result ∧
    (PayloadCipher.standard.checkedDecrypt LogPoint.sevenfold []
      (⟨1⟩ : SharedSecret LogTarget)).result = .error .identityEncoded := by
  have hseven : ∃ rest, (Entropy.ofList [7, 0, 0, 0]).nonzeroScalar? = some (7, rest) := ⟨_, rfl⟩
  obtain ⟨rest, hseven⟩ := hseven
  obtain ⟨hencrypt, hshare, -, -, hprepared, hchecked, -⟩ :=
    @operations_answer LogPoint LogPoint _ _ _ _ _ _ _ _ _ PayloadCipher.standard
  refine ⟨?_, ?_, ?_, ?_, ?_⟩
  · exact (hencrypt ⟨5⟩ [1, 2, 3] [9] _ rest 7 hseven).answers (by decide)
  · exact (hencrypt 0 [1, 2, 3] [9] _ rest 7 hseven).stops rfl
  · exact (hshare LogPoint.sevenfold [] ⟨0, 1, 0⟩ .fast).answers fun h => (nomatch h.2.1)
  · exact (hprepared LogPoint.sevenfold [] [⟨0, 1, ⟨5⟩⟩, ⟨1, 2, ⟨6⟩⟩] 2).2.answers (by decide)
  · exact (hchecked LogPoint.sevenfold [] ⟨1⟩).stops ⟨LogPoint.checkValidity_sevenfold, rfl⟩

/-- The encodings of two prepared shares that cancel. -/
def LogPoint.cancellingBytes : List Bytes :=
  [Bytes.bigEndian 4 0 ++ Scalar.encode 1 ++ Scalar.encode 5,
    Bytes.bigEndian 4 1 ++ Scalar.encode 2 ++ Scalar.encode (-5)]

/-- Shares that decode leave decryption without an answer, and a key share of zero that decodes
leaves the making of a simple share without one. -/
theorem operations_without_answer :
    (LogPoint.sevenfold.checkValidity []).result = .ok () ∧
    LogPoint.cancellingBytes.mapM Wire.decode =
      .ok ([⟨0, 1, ⟨5⟩⟩, ⟨1, 2, ⟨-5⟩⟩] : List (PreparedDecryptionShare LogPoint)) ∧
    (PayloadCipher.standard.decryptWithPrepared LogPoint.sevenfold []
      [⟨0, 1, ⟨5⟩⟩, ⟨1, 2, ⟨-5⟩⟩] 2).result = .error .identityEncoded ∧
    Wire.decode (Bytes.bigEndian 4 0 ++ Scalar.encode 1 ++ Scalar.encode 0) =
      .ok (⟨0, 1, 0⟩ : KeyShare) ∧
    (LogPoint.sevenfold.createShare [] ⟨0, 1, 0⟩ .simple :
      Attempt (DecryptionShare LogPoint LogTarget)).result = .error .identityEncoded ∧
    ¬∀ shares : List (PreparedDecryptionShare LogPoint), Answered
      (PayloadCipher.standard.decryptWithPrepared LogPoint.sevenfold [] shares 2).result := by
  have hcancels : (PayloadCipher.standard.decryptWithPrepared LogPoint.sevenfold []
      [⟨0, 1, ⟨5⟩⟩, ⟨1, 2, ⟨-5⟩⟩] 2).result = .error .identityEncoded :=
    (PayloadCipher.answersUnless_decryptWithPrepared _ _ _ _ 2).stops (by decide)
  have hzero : (LogPoint.sevenfold.createShare [] ⟨0, 1, 0⟩ .simple :
      Attempt (DecryptionShare LogPoint LogTarget)).result = .error .identityEncoded :=
    (Ciphertext.answersUnless_createShare _ _ _ .simple).stops
      ⟨LogPoint.checkValidity_sevenfold, rfl, .inl rfl⟩
  refine ⟨LogPoint.checkValidity_sevenfold, by cbv, hcancels, by cbv, hzero, ?_⟩
  intro h
  have hanswered := h [⟨0, 1, ⟨5⟩⟩, ⟨1, 2, ⟨-5⟩⟩]
  rw [hcancels] at hanswered
  cases hanswered

end ThresholdCipher
