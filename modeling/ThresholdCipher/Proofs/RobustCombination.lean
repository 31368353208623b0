import ThresholdCipher.Proofs.PreparedShares
import ThresholdCipher.Proofs.ShareChecks

/-
Combination of fast shares of which any number may be wrong.

The pairing check accepts exactly the shares that their holders would send
(`FastShare.verify_eq_isHonest`), so what is combined are the honest shares, and which
outcome it has depends on them alone: on their number, and on whether a participant
occurs twice among them (`combineVerified_honest`).
-/

namespace ThresholdCipher

/-- The share that the holder of a seat would send: the polynomial's value at its point,
times `v`. -/
def FastShare.IsHonest {G1 G2 : Type} [CurveGroup G2] (share : FastShare G2)
    (vector : VerificationVector G1) (f : SharingPolynomial) (v : G2) : Prop :=
  ⟨share.participant, share.domainPoint⟩ ∈ vector.seats ∧
    share.value = f.evaluate share.domainPoint • v

instance {G1 G2 : Type} [CurveGroup G2] (share : FastShare G2) (vector : VerificationVector G1)
    (f : SharingPolynomial) (v : G2) : Decidable (share.IsHonest vector f v) :=
  inferInstanceAs (Decidable (_ ∧ _))

/-- Two holders at one point are one participant. -/
theorem VerificationVector.participant_eq_of_seats {G : Type} {vector : VerificationVector G}
    (hpoints : (vector.entries.map (·.domainPoint)).Nodup) {p q : Participant} {x : Scalar}
    (hp : ⟨p, x⟩ ∈ vector.seats) (hq : ⟨q, x⟩ ∈ vector.seats) : p = q := by
  obtain ⟨a, ha, rfl, hax⟩ := mem_seats.mp hp
  obtain ⟨b, hb, rfl, hbx⟩ := mem_seats.mp hq
  rw [List.inj_on_of_nodup_map hpoints ha hb (hax.trans hbx.symm)]

/-- The keys of the selected elements are distinct exactly where no two positions of such
elements show the same key. -/
theorem nodup_map_filter_iff {α β : Type} {p : α → Bool} {key : α → β} {xs : List α} :
    ((xs.filter p).map key).Nodup ↔
      ∀ i ∈ xs.findIdxs p, ∀ j ∈ xs.findIdxs p, xs[i]?.map key = xs[j]?.map key → i = j := by
  have hkeys : (xs.findIdxs p).map (fun i => xs[i]?.map key) =
      ((xs.filter p).map key).map some := by
    have hmap := congrArg (List.map (Option.map key)) (ShareVerification.map_findIdxs p xs)
    rw [List.map_map, List.map_map] at hmap
    rw [List.map_map]
    exact hmap
  rw [← List.nodup_map_iff_inj_on List.nodup_findIdxs, hkeys,
    List.nodup_map_iff (Option.some_injective β)]

variable {G1 G2 T : Type} [CurveGroup G1] [CurveGroup G2] [TargetGroup T] [Pairing G1 G2 T]
  [LawfulCurveGroup G1] [LawfulCurveGroup G2] [LawfulTargetGroup T] [LawfulPairing G1 G2 T]
  {vector : VerificationVector G1} {f : SharingPolynomial} {ciphertext : Ciphertext G1 G2}
  {ρ : Scalar} {threshold : Nat}

/-- The pairing check accepts honest shares and no others. -/
theorem FastShare.verify_eq_isHonest (hvector : vector.CommitsTo f)
    (hparticipants : (vector.entries.map (·.participant)).Nodup) (share : FastShare G2) :
    (share.verify ciphertext vector).value =
      decide (share.IsHonest vector f ciphertext.header.v) := by
  rw [Bool.eq_iff_iff, decide_eq_true_iff]
  cases hlookup : (vector.commitmentAt share.participant share.domainPoint).value with
  | none =>
    rw [verify_of_unknown hlookup]
    refine ⟨fun h => (nomatch h), fun h => ?_⟩
    have hknown := (hvector.commitmentAt_eq_some hparticipants).mpr ⟨h.1, rfl⟩
    rw [hlookup] at hknown
    cases hknown
  | some c =>
    obtain ⟨hseat, hc⟩ := (hvector.commitmentAt_eq_some hparticipants).mp hlookup
    rw [verify_of_known hlookup, sameMultiple_iff, exponent_eq_iff.mpr hc]
    exact ⟨fun h => ⟨hseat, h⟩, fun h => h.2⟩

namespace ShareVerification

/-- Accepted are the positions of the honest shares, and rejected all others. -/
theorem run_honest (hvector : vector.CommitsTo f)
    (hparticipants : (vector.entries.map (·.participant)).Nodup) (shares : List (FastShare G2))
    (e : Entropy) :
    (run .fast (shares.map .fast) ciphertext vector e).result =
      .ok (⟨shares.findIdxs fun s => s.IsHonest vector f ciphertext.header.v,
        shares.findIdxs fun s => ¬s.IsHonest vector f ciphertext.header.v⟩, e) := by
  rw [run_fast]
  simp only [FastShare.verify_eq_isHonest hvector hparticipants, decide_not]

end ShareVerification

namespace SharedSecret

/-- Honest shares of enough participants combine to the secret. -/
theorem combine_honest (hpoints : (vector.entries.map (·.domainPoint)).Nodup)
    (hv : ciphertext.header.v = ρ • generator) (hthreshold : f.threshold ≤ threshold)
    {shares : List (FastShare G2)}
    (hhonest : ∀ s ∈ shares, s.IsHonest vector f ciphertext.header.v)
    (hdistinct : (shares.map (·.participant)).Nodup) (henough : threshold ≤ shares.length) :
    (combine G1 (shares.map .fast) threshold).result =
      .ok ⟨pair (generator : G1) (generator : G2) ^ (ρ * f.constant)⟩ := by
  have hlen : (shares.map (DecryptionShare.fast (T := T))).length = shares.length :=
    List.length_map _
  have hseats : (shares.map (·.domainPoint)).Nodup := by
    rw [List.Nodup, List.pairwise_map] at hdistinct ⊢
    refine hdistinct.imp_of_mem fun {a b} ha hb hne hx => hne ?_
    exact VerificationVector.participant_eq_of_seats hpoints (hhonest a ha).1
      (hx ▸ (hhonest b hb).1)
  refine combine_values (f.threshold_pos.trans_le hthreshold) (by omega) (by omega) ?_ ?_ ?_
  · rwa [List.map_map]
  · rwa [List.map_map]
  · intro d hd
    obtain ⟨s, hs, rfl⟩ := List.mem_map.mp hd
    show pair generator s.value = _
    rw [(hhonest s hs).2, hv, LawfulPairing.pair_smul_right, LawfulPairing.pair_smul_right,
      ← LawfulTargetGroup.pow_mul]
    rfl

/-- Verified combination under the fast strategy, for any list of fast shares.  Accepted are
exactly the positions of the honest ones, and the outcome is the secret unless they are too few
or name a participant twice. -/
theorem combineVerified_honest (hvector : vector.CommitsTo f)
    (hparticipants : (vector.entries.map (·.participant)).Nodup)
    (hpoints : (vector.entries.map (·.domainPoint)).Nodup)
    (hv : ciphertext.header.v = ρ • generator) (hthreshold : f.threshold ≤ threshold)
    (shares : List (FastShare G2)) (e : Entropy) :
    let honest := shares.findIdxs fun s => s.IsHonest vector f ciphertext.header.v
    (ShareVerification.run .fast (shares.map .fast) ciphertext vector e).result =
      .ok (⟨honest, shares.findIdxs fun s => ¬s.IsHonest vector f ciphertext.header.v⟩, e) ∧
    (combineVerified .fast (shares.map .fast) ciphertext vector threshold e).result =
      if honest.length < threshold then
        .error (.error (.insufficientShares threshold honest.length))
      else if ∃ i ∈ honest, ∃ j ∈ honest,
          i ≠ j ∧ shares[i]?.map (·.participant) = shares[j]?.map (·.participant) then
        .error (.error .duplicatePoint)
      else .ok (⟨pair (generator : G1) (generator : G2) ^ (ρ * f.constant)⟩, e) := by
  intro honest
  let survivors := shares.filter fun s => s.IsHonest vector f ciphertext.header.v
  have hrun : (ShareVerification.run .fast (shares.map .fast) ciphertext vector e).result = _ :=
    ShareVerification.run_honest hvector hparticipants shares e
  have haccepted : honest.filterMap ((shares.map (DecryptionShare.fast (T := T)))[·]?) =
      survivors.map .fast := by
    simp only [List.getElem?_map]
    rw [← List.map_filterMap, ShareVerification.filterMap_findIdxs]
  have hlen : survivors.length = honest.length := by
    rw [List.length_findIdxs, List.countP_eq_length_filter]
  have hpos : 0 < threshold := f.threshold_pos.trans_le hthreshold
  refine ⟨hrun, ?_⟩
  rw [result_combineVerified_of_run hrun, haccepted]
  split
  next hshort =>
    rw [result_combine_of_short hpos (by rwa [List.length_map, hlen]), List.length_map, hlen]
    rfl
  next henough =>
    rw [not_lt, ← hlen] at henough
    split
    next hrepeated =>
      obtain ⟨i, hi, j, hj, hne, hsame⟩ := hrepeated
      rw [result_combine_of_repeated hpos (by rwa [List.length_map])]
      · rfl
      · rw [List.map_map]
        exact fun h => hne (nodup_map_filter_iff.mp h i hi j hj hsame)
    next hdistinct =>
      rw [combine_honest hpoints hv hthreshold _ _ henough]
      · rfl
      · exact fun s hs => of_decide_eq_true (List.mem_filter.mp hs).2
      · refine nodup_map_filter_iff.mpr fun i hi j hj hsame => ?_
        by_contra hne
        exact hdistinct ⟨i, hi, j, hj, hne, hsame⟩

/-- Two honest shares of three participants, between a wrong value and a foreign point. -/
theorem combineVerified_two_honest :
    (ShareVerification.run (T := LogTarget) .fast
      ([⟨0, 1, ⟨56⟩⟩, ⟨1, 2, ⟨1⟩⟩, ⟨2, 9, ⟨98⟩⟩, ⟨2, 3, ⟨98⟩⟩].map .fast) LogPoint.sevenfold
      LogPoint.dealing.vector (.ofList [])).result = .ok (⟨[0, 3], [1, 2]⟩, .ofList []) ∧
    (combineVerified .fast
      ([⟨0, 1, ⟨56⟩⟩, ⟨1, 2, ⟨1⟩⟩, ⟨2, 9, ⟨98⟩⟩, ⟨2, 3, ⟨98⟩⟩].map .fast) LogPoint.sevenfold
      LogPoint.dealing.vector 2 (.ofList [])).result = .ok (⟨⟨35⟩⟩, .ofList []) := by
  have hv : LogPoint.sevenfold.header.v = (7 : Scalar) • generator := by decide
  obtain ⟨hrun, hcombined⟩ := combineVerified_honest LogPoint.dealt_dealing.commitsTo
    (by decide) (by decide) hv (le_refl 2)
    [⟨0, 1, ⟨56⟩⟩, ⟨1, 2, ⟨1⟩⟩, ⟨2, 9, ⟨98⟩⟩, ⟨2, 3, ⟨98⟩⟩] (.ofList [])
  refine ⟨hrun, hcombined.trans ?_⟩
  have hsecret : pair (generator : LogPoint) (generator : LogPoint) ^ (7 * 5 : Scalar) =
    (⟨35⟩ : LogTarget) := by decide
  rw [if_neg (by decide), if_neg (by decide)]
  rw [← hsecret]
  rfl

end SharedSecret
end ThresholdCipher
