import ThresholdCipher.Proofs.Lagrange

/-
Interpolation in its three settings, as a whole.

A weight is the product over the other positions of its list (`weight_get`).  The values of a
polynomial with no more coefficients than distinct points lead to its value at any target, as
scalars, as multiples of a curve point and as powers of a target element.  What else an
interpolation can come to, for any points and values, is said together with that
(`interpolation_exact`).
-/

namespace ThresholdCipher
namespace Interpolation

/-! ## Weights by position -/

/-- The other points of a list without repetitions are those at the other positions. -/
theorem weight_get {points : List Scalar} (h : points.Nodup) (z : Scalar)
    (i : Fin points.length) :
    weight points z (points.get i) =
      ∏ j ∈ Finset.univ.erase i, (z - points.get j) / (points.get i - points.get j) := by
  have hinj : Function.Injective points.get := h.injective_get
  have hpositions : points.toFinset = Finset.univ.image points.get := by
    ext y
    simp [List.mem_iff_get]
  rw [weight, ← List.prod_toFinset _ (h.erase _), toFinset_erase h, hpositions,
    ← Finset.image_erase hinj, Finset.prod_image hinj.injOn]

theorem map_weight_eq_ofFn {points : List Scalar} (h : points.Nodup) (z : Scalar) :
    points.map (weight points z) = List.ofFn fun i =>
      ∏ j ∈ Finset.univ.erase i, (z - points.get j) / (points.get i - points.get j) := by
  rw [← List.ofFn_getElem_eq_map]
  congr 1
  funext i
  exact weight_get h z i

/-! ## Values of a polynomial -/

section

variable {points : List Scalar} (h : points.Nodup) {f : SharingPolynomial}
  (hf : f.threshold ≤ points.length) (z : Scalar)

include h hf

theorem weights_of_enough : (weights points z).result = .ok (points.map (weight points z)) :=
  weights_eq_ok.mpr ⟨List.length_pos_iff.mp (f.threshold_pos.trans_le hf), h, rfl⟩

theorem scalar_of_values :
    (scalar points (points.map f.evaluate) z).result = .ok (f.evaluate z) := by
  have hsum : (List.zipWith (· * ·) (points.map f.evaluate) (points.map (weight points z))).sum =
      f.evaluate z := by
    rw [← sum_weight_mul_evaluate h hf z, List.zipWith_map, List.zipWith_self]
    congr 1
    exact List.map_congr_left fun x _ => mul_comm _ _
  rw [result_scalar, if_pos (List.length_map _).symm, weights_of_enough h hf z]
  exact congrArg Except.ok hsum

theorem point_of_values {G : Type} [CurveGroup G] [LawfulCurveGroup G] (p : G) :
    (point points (points.map fun x => f.evaluate x • p) z).result = .ok (f.evaluate z • p) := by
  have hsum : (List.zipWith (fun v w => w • v) (points.map fun x => f.evaluate x • p)
      (points.map (weight points z))).sum = f.evaluate z • p := by
    rw [← sum_weight_mul_evaluate h hf z, List.sum_smul, List.zipWith_map, List.zipWith_self,
      List.map_map]
    congr 1
    exact List.map_congr_left fun x _ => (mul_smul _ _ p).symm
  rw [result_point, if_pos (List.length_map _).symm, weights_of_enough h hf z]
  exact congrArg Except.ok hsum

theorem target_of_values {T : Type} [TargetGroup T] [LawfulTargetGroup T] (t : T) :
    (target points (points.map fun x => t ^ f.evaluate x) z).result = .ok (t ^ f.evaluate z) := by
  have hprod : (List.zipWith (fun v w => v ^ w) (points.map fun x => t ^ f.evaluate x)
      (points.map (weight points z))).prod = t ^ f.evaluate z := by
    rw [← sum_weight_mul_evaluate h hf z, ← pow_sum, List.zipWith_map, List.zipWith_self,
      List.map_map]
    congr 1
    refine List.map_congr_left fun x _ => ?_
    rw [Function.comp_apply, ← LawfulTargetGroup.pow_mul, mul_comm]
  rw [result_target, if_pos (List.length_map _).symm, weights_of_enough h hf z]
  exact congrArg Except.ok hprod

end

/-- Interpolation is exact.  Weights are the products over the other points, in the order of the
points, and refused only where there are no points or two coincide: the denominators are never
zero where they are inverted together.  The values of a polynomial with no more coefficients than
distinct points interpolate to its value at any target, as scalars, as multiples of any point and
as powers of any target element.  Any values whatsoever are interpolated with the same weights,
and besides the points only lists of different lengths are refused. -/
theorem interpolation_exact {G T : Type} [CurveGroup G] [TargetGroup T] [LawfulCurveGroup G]
    [LawfulTargetGroup T] (points : List Scalar) (z : Scalar) :
    ((weights points z).result =
      if points.isEmpty then .error (.parameters .noPoints)
      else if points.Nodup then
        .ok (List.ofFn fun i =>
          ∏ j ∈ Finset.univ.erase i, (z - points.get j) / (points.get i - points.get j))
      else .error (.error .duplicatePoint)) ∧
    (points.Nodup → 0 ∉ denominators points ∧
      Scalar.batchInverse (denominators points) = .ok ((denominators points).map fun d => d⁻¹)) ∧
    (points.Nodup → ∀ f : SharingPolynomial, f.threshold ≤ points.length →
      (scalar points (points.map f.evaluate) z).result = .ok (f.evaluate z) ∧
      (∀ p : G, (point points (points.map fun x => f.evaluate x • p) z).result =
        .ok (f.evaluate z • p)) ∧
      ∀ t : T, (target points (points.map fun x => t ^ f.evaluate x) z).result =
        .ok (t ^ f.evaluate z)) ∧
    (∀ values : List Scalar, (scalar points values z).result =
      if points.length = values.length then
        (weights points z).result.map fun ws => (List.zipWith (· * ·) values ws).sum
      else .error (.malformed (.pointsAndValues points.length values.length))) ∧
    (∀ values : List G, (point points values z).result =
      if points.length = values.length then
        (weights points z).result.map fun ws => (List.zipWith (fun v w => w • v) values ws).sum
      else .error (.malformed (.pointsAndValues points.length values.length))) ∧
    ∀ values : List T, (target points values z).result =
      if points.length = values.length then
        (weights points z).result.map fun ws => (List.zipWith (fun v w => v ^ w) values ws).prod
      else .error (.malformed (.pointsAndValues points.length values.length)) := by
  refine ⟨?_, ?_, ?_, fun values => result_scalar points values z,
    fun values => result_point points values z, fun values => result_target points values z⟩
  · rw [result_weights]
    by_cases h : points.Nodup
    · rw [if_pos h, if_pos h, map_weight_eq_ofFn h]
    · rw [if_neg h, if_neg h]
  · intro h
    exact ⟨fun hzero => denominators_ne_zero h 0 hzero rfl, batchInverse_denominators h⟩
  · intro h f hf
    exact ⟨scalar_of_values h hf z, fun p => point_of_values h hf z p,
      fun t => target_of_values h hf z t⟩

/-- Three points in no order, with zero and one of the points as targets, and a repeated point. -/
theorem interpolation_exact_three_points :
    (scalar [3, 1, 5] [14, 8, 20] 0).result = .ok 5 ∧
    (point [3, 1, 5] [⟨28⟩, ⟨16⟩, ⟨40⟩] 0).result = .ok (⟨10⟩ : LogPoint) ∧
    (target [3, 1, 5] [⟨28⟩, ⟨16⟩, ⟨40⟩] 1).result = .ok (⟨16⟩ : LogTarget) ∧
    (weights [3, 1, 3] 0).result = .error (.error .duplicatePoint) := by
  have hnodup : ([3, 1, 5] : List Scalar).Nodup := by decide
  obtain ⟨-, -, hvalues, -⟩ := @interpolation_exact LogPoint LogTarget _ _ _ _ [3, 1, 5] 0
  obtain ⟨hscalar, hpoint, -⟩ := hvalues hnodup ⟨5, [3]⟩ (by decide)
  obtain ⟨-, -, hlisted, -⟩ := @interpolation_exact LogPoint LogTarget _ _ _ _ [3, 1, 5] 1
  have htarget := (hlisted hnodup ⟨5, [3]⟩ (by decide)).2.2 ⟨2⟩
  have hrepeated := (@interpolation_exact LogPoint LogTarget _ _ _ _ [3, 1, 3] 0).1
  refine ⟨hscalar, hpoint ⟨2⟩, htarget, ?_⟩
  rw [hrepeated]
  decide

end Interpolation
end ThresholdCipher
