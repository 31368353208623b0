import ThresholdCipher.Proofs.ShareChecks

/-
The outcome of a combination, for any list of shares.

Whether fast shares are added up and paired once or all are interpolated in the target group,
the outcome is the same function of what the shares contribute: their participants, their
points and their lifts (`result_combine`).  Neither the order of the shares nor their variants
have a part in it (`result_combine_congr`).  Nothing is asked of the shares, which need not
belong to any polynomial or ciphertext.
-/

namespace ThresholdCipher

variable {G1 G2 T : Type} [CurveGroup G1] [TargetGroup T] [Pairing G1 G2 T]

/-- What a share brings to a combination: its seat and its lift. -/
def DecryptionShare.contribution (G1 : Type) {G2 T : Type} [CurveGroup G1] [Pairing G1 G2 T]
    (share : DecryptionShare G2 T) : Participant × Scalar × T :=
  (share.participant, share.domainPoint, share.lift G1)

namespace SharedSecret

open DecryptionShare (contribution)

/-- The lifts of the shares, weighted for interpolation at zero over their own points. -/
def interpolated (G1 : Type) {G2 T : Type} [CurveGroup G1] [TargetGroup T] [Pairing G1 G2 T]
    (shares : List (DecryptionShare G2 T)) : SharedSecret T :=
  ⟨product (shares.map fun d =>
    d.lift G1 ^ Interpolation.weight (shares.map (·.domainPoint)) 0 d.domainPoint)⟩

variable {shares shares' : List (DecryptionShare G2 T)} {threshold : Nat}

/-- What combination interpolates depends on the contributions only, in any order. -/
theorem interpolated_congr [LawfulTargetGroup T]
    (h : (shares.map (contribution G1)).Perm (shares'.map (contribution G1))) :
    interpolated G1 shares = interpolated G1 shares' := by
  have hpoints : (shares.map (·.domainPoint)).Perm (shares'.map (·.domainPoint)) := by
    have hmap := h.map fun c => c.2.1
    rwa [List.map_map, List.map_map] at hmap
  have hfactors := h.map fun c => c.2.2 ^ Interpolation.weight (shares.map (·.domainPoint)) 0 c.2.1
  rw [List.map_map, List.map_map] at hfactors
  have hweights : ∀ x, Interpolation.weight (shares'.map (·.domainPoint)) 0 x =
      Interpolation.weight (shares.map (·.domainPoint)) 0 x :=
    fun x => Interpolation.weight_perm hpoints.symm 0 x
  rw [interpolated, interpolated, product_eq_prod, product_eq_prod]
  simp only [hweights]
  exact congrArg SharedSecret.mk hfactors.prod_eq

variable [CurveGroup G2]

/-- Points that coincide are found on either way, also where the participants differ. -/
theorem result_combine_of_coinciding [LawfulTargetGroup T] (hpos : 0 < threshold)
    (henough : threshold ≤ shares.length) (hdistinct : (shares.map (·.participant)).Nodup)
    (hrepeated : ¬(shares.map (·.domainPoint)).Nodup) :
    (combine G1 shares threshold).result = .error (.error .duplicatePoint) := by
  have hnumber := Attempt.result_orRefuse_eq_ok.mpr (requireEnough_eq_ok.mpr ⟨hpos, henough⟩)
  have hparticipants := Attempt.result_orRefuse_eq_ok.mpr (requireDistinct_eq_ok.mpr hdistinct)
  rw [combine, Attempt.result_liftM_bind, Attempt.result_bind_of_ok hnumber,
    Attempt.result_bind_of_ok hparticipants]
  cases shares.mapM (·.fast?) with
  | some fasts =>
    show (Interpolation.weights (shares.map (·.domainPoint)) 0 >>= _).result = _
    rw [Attempt.result_bind, Interpolation.result_weights_of_repeated hrepeated]
    rfl
  | none =>
    have hlen : (shares.map (·.domainPoint)).length = (shares.map (·.lift G1)).length := by
      rw [List.length_map, List.length_map]
    show (liftM _ >>= fun _ => Interpolation.target (shares.map (·.domainPoint))
      (shares.map (·.lift G1)) 0 >>= _ : Attempt _).result = _
    rw [Attempt.result_liftM_bind, Attempt.result_bind, Interpolation.result_target, if_pos hlen,
      Interpolation.result_weights_of_repeated hrepeated]
    rfl

variable [LawfulCurveGroup G1] [LawfulCurveGroup G2] [LawfulTargetGroup T]
  [LawfulPairing G1 G2 T]

/-- Too small a threshold, too few shares and coinciding seats are refused in this order; any
other list of shares is interpolated. -/
theorem result_combine (shares : List (DecryptionShare G2 T)) (threshold : Nat) :
    (combine G1 shares threshold).result =
      if threshold = 0 then .error (.parameters .thresholdZero)
      else if shares.length < threshold then
        .error (.error (.insufficientShares threshold shares.length))
      else if (shares.map (·.participant)).Nodup ∧ (shares.map (·.domainPoint)).Nodup then
        .ok (interpolated G1 shares)
      else .error (.error .duplicatePoint) := by
  split
  next hzero => exact result_combine_of_number (by rw [requireEnough, if_pos hzero])
  next hzero =>
    have hpos : 0 < threshold := Nat.pos_of_ne_zero hzero
    split
    next hshort => exact result_combine_of_short hpos hshort
    next hshort =>
      have henough : threshold ≤ shares.length := Nat.not_lt.mp hshort
      split
      next hdistinct =>
        exact combine_eq_ok.mpr
          ⟨hpos, henough, hdistinct.1, hdistinct.2, (product_eq_prod _).symm⟩
      next hrepeated =>
        by_cases hparticipants : (shares.map (·.participant)).Nodup
        · exact result_combine_of_coinciding hpos henough hparticipants fun hpoints =>
            hrepeated ⟨hparticipants, hpoints⟩
        · exact result_combine_of_repeated hpos henough hparticipants

theorem result_combine_congr
    (h : (shares.map (contribution G1)).Perm (shares'.map (contribution G1))) :
    (combine G1 shares threshold).result = (combine G1 shares' threshold).result := by
  have hlen : shares.length = shares'.length := by
    have hlength := h.length_eq
    rwa [List.length_map, List.length_map] at hlength
  have hparticipants := (h.map fun c => c.1).nodup_iff
  have hpoints := (h.map fun c => c.2.1).nodup_iff
  rw [List.map_map, List.map_map] at hparticipants hpoints
  have hseats : ((shares.map (·.participant)).Nodup ∧ (shares.map (·.domainPoint)).Nodup) ↔
      (shares'.map (·.participant)).Nodup ∧ (shares'.map (·.domainPoint)).Nodup :=
    and_congr hparticipants hpoints
  rw [result_combine, result_combine, hlen, interpolated_congr h]
  simp only [hseats]

/-- The outcome of a combination, which neither the order of the shares nor the variant of one
of them changes. -/
theorem combine_outcome (shares : List (DecryptionShare G2 T)) (threshold : Nat) :
    (combine G1 shares threshold).result =
      (if threshold = 0 then .error (.parameters .thresholdZero)
      else if shares.length < threshold then
        .error (.error (.insufficientShares threshold shares.length))
      else if (shares.map (·.participant)).Nodup ∧ (shares.map (·.domainPoint)).Nodup then
        .ok (interpolated G1 shares)
      else .error (.error .duplicatePoint)) ∧
    (∀ shares', shares.Perm shares' →
      (combine G1 shares' threshold).result = (combine G1 shares threshold).result) ∧
    ∀ (front back : List (DecryptionShare G2 T)) (fast : FastShare G2) (simple : SimpleShare T),
      shares = front ++ .fast fast :: back → simple.participant = fast.participant →
      simple.domainPoint = fast.domainPoint → simple.value = pair (generator : G1) fast.value →
      (combine G1 (front ++ .simple simple :: back) threshold).result =
        (combine G1 shares threshold).result := by
  refine ⟨result_combine shares threshold, fun shares' h => ?_, ?_⟩
  · exact result_combine_congr (h.symm.map _)
  · rintro front back fast simple rfl hparticipant hpoint hvalue
    have hcontribution : contribution G1 (.simple simple : DecryptionShare G2 T) =
        contribution G1 (.fast fast : DecryptionShare G2 T) := by
      show (simple.participant, simple.domainPoint, simple.value) = _
      rw [hparticipant, hpoint, hvalue]
      rfl
    refine result_combine_congr (.of_eq ?_)
    rw [List.map_append, List.map_append, List.map_cons, List.map_cons, hcontribution]

/-- Two fast shares of the secret five at the exponent seven, the same in the other order with
a simple share among them, and two shares at one point. -/
theorem combine_outcome_two_shares :
    (combine LogPoint [.fast ⟨0, 1, (⟨56⟩ : LogPoint)⟩, .fast ⟨1, 2, ⟨77⟩⟩] 2).result =
      .ok (⟨⟨35⟩⟩ : SharedSecret LogTarget) ∧
    (combine LogPoint [.fast ⟨1, 2, (⟨77⟩ : LogPoint)⟩, .simple ⟨0, 1, ⟨56⟩, ⟨0, 0⟩⟩] 2).result =
      .ok (⟨⟨35⟩⟩ : SharedSecret LogTarget) ∧
    (combine LogPoint [.fast ⟨0, 1, (⟨56⟩ : LogPoint)⟩, .fast ⟨1, 1, ⟨77⟩⟩] 2 :
      Attempt (SharedSecret LogTarget)).result = .error (.error .duplicatePoint) := by
  have hsecret : (combine LogPoint [.fast ⟨0, 1, (⟨56⟩ : LogPoint)⟩, .fast ⟨1, 2, ⟨77⟩⟩] 2 :
      Attempt (SharedSecret LogTarget)).result = .ok ⟨⟨35⟩⟩ :=
    combine_values (f := ⟨5, [3]⟩) (ρ := 7) (by decide) (by decide) (by decide) (by decide)
      (by decide) (by decide)
  have houtcome := @combine_outcome LogPoint LogPoint LogTarget _ _ _ _ _ _ _ _
  have hvariant := (houtcome _ 2).2.2 [] [.fast ⟨1, 2, ⟨77⟩⟩] ⟨0, 1, ⟨56⟩⟩ ⟨0, 1, ⟨56⟩, ⟨0, 0⟩⟩
    rfl rfl rfl (by decide)
  have horder := (houtcome _ 2).2.1 _
    (.swap (.fast ⟨1, 2, ⟨77⟩⟩) (.simple ⟨0, 1, ⟨56⟩, ⟨0, 0⟩⟩) [])
  refine ⟨hsecret, horder.trans (hvariant.trans hsecret), ?_⟩
  · rw [(houtcome _ 2).1]
    decide

end SharedSecret
end ThresholdCipher
