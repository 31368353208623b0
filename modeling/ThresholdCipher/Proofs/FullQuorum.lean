import ThresholdCipher.Proofs.CombinationOutcome
import ThresholdCipher.Proofs.PreparedShares

/-
The two ways to a shared secret agree on a whole quorum.

Shares at distinct seats form a quorum, and each of them finds its own weight there, wherever
it stands (`weight_of_member`).  The prepared values therefore add up to the interpolated
value at zero.  Both combinations refuse the same lists, in the same order of checks, and
pairing turns the sum of the weighted shares into the product of the weighted lifts, so they
arrive at the same secret.  The shares need not be values of any polynomial.
-/

namespace ThresholdCipher

/-- Where nothing is repeated, an element's index is where it stands. -/
theorem idxOf?_getElem {xs : List Participant} (hnodup : xs.Nodup) {i : Nat} (hi : i < xs.length) :
    xs.idxOf? xs[i] = some i := by
  refine List.idxOf?_eq_some_iff.mpr ⟨hi, rfl, ?_⟩
  intro j hj heq
  have hsame := (List.Nodup.getElem_inj_iff hnodup).mp heq
  omega

/-! ## Preparing every member -/

section

variable {shares : List KeyShare} {share : KeyShare} {quorum : Quorum}

namespace Quorum

theorem exists_ofShares (hne : shares ≠ []) (hparticipants : (shares.map (·.participant)).Nodup)
    (hpoints : (shares.map (·.domainPoint)).Nodup) :
    ∃ quorum, (ofShares shares).result = .ok quorum := by
  have hlen : (shares.map (·.participant)).length = (shares.map (·.domainPoint)).length := by
    rw [List.length_map, List.length_map]
  have hsome : shares.map (·.domainPoint) ≠ [] := fun h => hne (List.map_eq_nil_iff.mp h)
  exact ⟨_, new_eq_ok.mpr ⟨hlen, hparticipants, hsome, hpoints, rfl⟩⟩

end Quorum

namespace KeyShare

/-- The weight of a share's point among those of all the shares, for interpolation at zero. -/
def weightAmong (shares : List KeyShare) (share : KeyShare) : Scalar :=
  Interpolation.weight (shares.map (·.domainPoint)) 0 share.domainPoint

/-- A share multiplied by its weight among all the shares. -/
def preparedAmong (shares : List KeyShare) (share : KeyShare) : PreparedShare :=
  ⟨share.participant, share.domainPoint, share.weightAmong shares * share.value⟩

/-- A member finds the weight of its own point, whatever its position. -/
theorem weight_of_member (hquorum : (Quorum.ofShares shares).result = .ok quorum)
    (hshare : share ∈ shares) :
    quorum.weight share.participant share.domainPoint = .ok (share.weightAmong shares) := by
  obtain ⟨-, hparticipants, -, -, rfl⟩ := Quorum.new_eq_ok.mp hquorum
  obtain ⟨i, hi, rfl⟩ := List.getElem_of_mem hshare
  have hfound := idxOf?_getElem hparticipants (by rwa [List.length_map] : i < _)
  rw [List.getElem_map] at hfound
  refine Quorum.weight_eq_ok.mpr ⟨i, hfound, ?_, ?_⟩
  · simp [hi]
  · simp [hi, weightAmong]

theorem prepare_of_member (hquorum : (Quorum.ofShares shares).result = .ok quorum)
    (hshare : share ∈ shares) :
    (share.prepare quorum).result = .ok (share.preparedAmong shares) :=
  prepare_eq_ok.mpr ⟨_, weight_of_member hquorum hshare, rfl⟩

/-- The prepared values add up to what interpolation gives. -/
theorem interpolate_of_quorum (hquorum : (Quorum.ofShares shares).result = .ok quorum) :
    (Interpolation.scalar (shares.map (·.domainPoint)) (shares.map (·.value)) 0).result =
      .ok ((shares.map (preparedAmong shares)).map (·.value)).sum := by
  obtain ⟨-, -, hne, hpoints, -⟩ := Quorum.new_eq_ok.mp hquorum
  refine Interpolation.scalar_eq_ok.mpr ⟨mt List.map_eq_nil_iff.mpr hne, hpoints, ?_⟩
  rw [List.map_map]
  rfl

end KeyShare
end

/-! ## Both combinations -/

section

variable {G1 G2 T : Type} [CurveGroup G1] [CurveGroup G2] [Pairing G1 G2 T] [LawfulCurveGroup G2]

/-- The outcome of adding up prepared shares, with the checks that `result_combine` has. -/
theorem SharedSecret.result_combinePrepared (shares : List (PreparedDecryptionShare G2))
    (threshold : Nat) :
    (combinePrepared G1 shares threshold).result =
      if threshold = 0 then .error (.parameters .thresholdZero)
      else if shares.length < threshold then
        .error (.error (.insufficientShares threshold shares.length))
      else if (shares.map (·.participant)).Nodup then
        .ok ⟨pair (generator : G1) (shares.map (·.value)).sum⟩
      else .error (.error .duplicatePoint) := by
  rw [combinePrepared, Attempt.result_liftM_bind, Attempt.result_bind, Attempt.result_orRefuse,
    requireEnough]
  split
  · rfl
  · split
    · rfl
    · show (Attempt.orRefuse (requireDistinct (shares.map (·.participant))) >>= _ :
        Attempt _).result = _
      rw [Attempt.result_bind, Attempt.result_orRefuse, requireDistinct]
      split
      · rw [← sum_eq_sum]
        rfl
      · rfl

end

variable {G1 G2 T : Type} [CurveGroup G1] [CurveGroup G2] [TargetGroup T] [Pairing G1 G2 T]
  {ciphertext : Ciphertext G1 G2} {aad : Bytes} {shares : List KeyShare}

namespace Ciphertext

/-- The decryption share that a prepared share makes. -/
def preparedShare (ciphertext : Ciphertext G1 G2) (share : PreparedShare) :
    PreparedDecryptionShare G2 :=
  ⟨share.participant, share.domainPoint, share.value • ciphertext.header.v⟩

theorem result_mapM_createPrepared (hvalid : (ciphertext.checkValidity aad).result = .ok ())
    (prepared : List PreparedShare) :
    (prepared.mapM (ciphertext.createPrepared aad)).result =
      .ok (prepared.map ciphertext.preparedShare) := by
  rw [Attempt.result_mapM]
  exact Outcome.mapM_eq_ok_map fun share _ => createPrepared_eq_ok.mpr ⟨hvalid, rfl⟩

end Ciphertext

variable [LawfulCurveGroup G1] [LawfulCurveGroup G2] [LawfulTargetGroup T] [LawfulPairing G1 G2 T]

namespace SharedSecret

/-- Pairing the sum of the prepared shares is interpolating the lifts of the fast ones. -/
theorem pair_sum_preparedShare (ciphertext : Ciphertext G1 G2) (shares : List KeyShare) :
    (⟨pair (generator : G1) (((shares.map (KeyShare.preparedAmong shares)).map
      ciphertext.preparedShare).map (·.value)).sum⟩ : SharedSecret T) =
      interpolated G1 (shares.map fun s => .fast (ciphertext.fastShare s)) := by
  have hlift : ∀ s : KeyShare,
      pair (generator : G1) ((s.weightAmong shares * s.value) • ciphertext.header.v) =
        pair (generator : G1) (s.value • ciphertext.header.v) ^ s.weightAmong shares := by
    intro s
    rw [mul_smul, LawfulPairing.pair_smul_right]
  have hpoints : (shares.map fun s =>
      (DecryptionShare.fast (ciphertext.fastShare s) : DecryptionShare G2 T)).map (·.domainPoint) =
      shares.map (·.domainPoint) := by
    rw [List.map_map]
    rfl
  rw [interpolated, product_eq_prod, hpoints, pair_sum, List.map_map, List.map_map, List.map_map,
    List.map_map]
  congr 2
  exact List.map_congr_left fun s _ => hlift s

/-- The prepared shares of a whole quorum are refused where its fast shares are, and otherwise lead
to the same secret. -/
theorem result_combinePrepared_eq (ciphertext : Ciphertext G1 G2)
    (hparticipants : (shares.map (·.participant)).Nodup)
    (hpoints : (shares.map (·.domainPoint)).Nodup)
    {listed : List (PreparedDecryptionShare G2)} (threshold : Nat)
    (hlisted : listed.Perm
      ((shares.map (KeyShare.preparedAmong shares)).map ciphertext.preparedShare)) :
    (combinePrepared G1 listed threshold : Attempt (SharedSecret T)).result =
      (combine G1 (shares.map fun s => .fast (ciphertext.fastShare s)) threshold).result := by
  have hlen : listed.length = shares.length := by
    rw [hlisted.length_eq, List.length_map, List.length_map]
  have hlistedParticipants : (listed.map (·.participant)).Nodup := by
    rw [(hlisted.map _).nodup_iff, List.map_map, List.map_map]
    exact hparticipants
  have hsum := (hlisted.map (·.value)).sum_eq
  have hseats : ((shares.map fun s =>
        (DecryptionShare.fast (ciphertext.fastShare s) : DecryptionShare G2 T)).map
          (·.participant)).Nodup ∧
      ((shares.map fun s =>
        (DecryptionShare.fast (ciphertext.fastShare s) : DecryptionShare G2 T)).map
          (·.domainPoint)).Nodup := by
    rw [List.map_map, List.map_map]
    exact ⟨hparticipants, hpoints⟩
  rw [result_combinePrepared, result_combine, if_pos hlistedParticipants, if_pos hseats, hsum,
    pair_sum_preparedShare, hlen, List.length_map]

/-- On a whole quorum, whatever its members' values are, every member can prepare its share, the
prepared values add up to the interpolated value at zero, and combining the prepared shares, in
any order, has the outcome of combining the fast ones. -/
theorem combinePrepared_eq_combine (hne : shares ≠ [])
    (hparticipants : (shares.map (·.participant)).Nodup)
    (hpoints : (shares.map (·.domainPoint)).Nodup)
    (hvalid : (ciphertext.checkValidity aad).result = .ok ()) :
    ∃ (quorum : Quorum) (prepared : List PreparedShare)
        (contributed : List (PreparedDecryptionShare G2)) (fasts : List (DecryptionShare G2 T)),
      (Quorum.ofShares shares).result = .ok quorum ∧
      (shares.mapM fun share : KeyShare => share.prepare quorum).result = .ok prepared ∧
      (Interpolation.scalar (shares.map (·.domainPoint)) (shares.map (·.value)) 0).result =
        .ok (prepared.map (·.value)).sum ∧
      (prepared.mapM (ciphertext.createPrepared aad)).result = .ok contributed ∧
      (shares.mapM fun share => ciphertext.createShare aad share .fast).result = .ok fasts ∧
      ∀ (listed : List (PreparedDecryptionShare G2)) (listed' : List (DecryptionShare G2 T))
        (threshold : Nat), listed.Perm contributed → listed'.Perm fasts →
        (combinePrepared G1 listed threshold).result = (combine G1 listed' threshold).result := by
  obtain ⟨quorum, hquorum⟩ := Quorum.exists_ofShares hne hparticipants hpoints
  refine ⟨quorum, shares.map (KeyShare.preparedAmong shares),
    (shares.map (KeyShare.preparedAmong shares)).map ciphertext.preparedShare,
    shares.map fun s => .fast (ciphertext.fastShare s), hquorum, ?_, ?_, ?_, ?_, ?_⟩
  · rw [Attempt.result_mapM]
    exact Outcome.mapM_eq_ok_map fun s hs => KeyShare.prepare_of_member hquorum hs
  · exact KeyShare.interpolate_of_quorum hquorum
  · exact Ciphertext.result_mapM_createPrepared hvalid _
  · rw [Attempt.result_mapM]
    exact Outcome.mapM_eq_ok_map fun s _ => Ciphertext.createShare_eq_ok.mpr ⟨hvalid, rfl⟩
  · intro listed listed' threshold hlisted hlisted'
    rw [result_combine_congr (hlisted'.map _)]
    exact result_combinePrepared_eq ciphertext hparticipants hpoints threshold hlisted

/-- Three members whose values are not on one line, their prepared shares listed backwards. -/
theorem combinePrepared_eq_combine_three_members :
    ([⟨0, 1, 8⟩, ⟨1, 2, 11⟩, ⟨2, 3, 15⟩].mapM fun share : KeyShare =>
      share.prepare ⟨[0, 1, 2], [1, 2, 3], [3, -3, 1]⟩).result =
        .ok [⟨0, 1, 24⟩, ⟨1, 2, -33⟩, ⟨2, 3, 15⟩] ∧
    ∃ fasts : List (DecryptionShare LogPoint LogTarget),
      ([⟨0, 1, 8⟩, ⟨1, 2, 11⟩, ⟨2, 3, 15⟩].mapM fun share : KeyShare =>
        LogPoint.sevenfold.createShare [] share .fast).result = .ok fasts ∧
      (combine LogPoint fasts 2).result = .ok ⟨⟨42⟩⟩ ∧
      (combinePrepared LogPoint ([⟨2, 3, ⟨105⟩⟩, ⟨1, 2, ⟨-231⟩⟩, ⟨0, 1, ⟨168⟩⟩] :
        List (PreparedDecryptionShare LogPoint)) 2).result = (combine LogPoint fasts 2).result := by
  have hprepared : ([⟨0, 1, 8⟩, ⟨1, 2, 11⟩, ⟨2, 3, 15⟩].mapM fun share : KeyShare =>
      share.prepare ⟨[0, 1, 2], [1, 2, 3], [3, -3, 1]⟩).result =
        .ok [⟨0, 1, 24⟩, ⟨1, 2, -33⟩, ⟨2, 3, 15⟩] := by
    decide
  have hne : ([⟨0, 1, 8⟩, ⟨1, 2, 11⟩, ⟨2, 3, 15⟩] : List KeyShare) ≠ [] := by simp
  obtain ⟨quorum, prepared, contributed, fasts, hquorum, hprepared', -, hcontributed, hfasts,
    hcombine⟩ := combinePrepared_eq_combine (T := LogTarget) hne (by decide) (by decide)
      LogPoint.checkValidity_sevenfold
  cases hquorum.symm.trans LogPoint.quorum_weights
  cases hprepared'.symm.trans hprepared
  have hlisted : contributed =
      [⟨0, 1, ⟨168⟩⟩, ⟨1, 2, ⟨-231⟩⟩, ⟨2, 3, ⟨105⟩⟩] := by
    rw [Except.ok.inj (hcontributed.symm.trans
      (Ciphertext.result_mapM_createPrepared LogPoint.checkValidity_sevenfold _))]
    decide
  have hsame := hcombine [⟨2, 3, ⟨105⟩⟩, ⟨1, 2, ⟨-231⟩⟩, ⟨0, 1, ⟨168⟩⟩] fasts 2
    (by rw [hlisted]; decide) (List.Perm.refl _)
  refine ⟨hprepared, fasts, hfasts, ?_, hsame⟩
  rw [← hsame]
  decide

end SharedSecret
end ThresholdCipher
