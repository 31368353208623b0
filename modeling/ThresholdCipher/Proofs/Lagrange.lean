import ThresholdCipher.Proofs.Polynomial

/-
Interpolation is exact.

The weight of a point is the product of `(z - y) / (x - y)` over the other points.
The operations compute exactly these weights wherever the points are distinct and
at least one (`result_weights`), and the values of a polynomial with no more
coefficients than points, weighted so, add up to its value at the target
(`sum_weight_mul`).  Group and target interpolation are sums with the same weights,
and all three refuse lists that are not aligned before they look at the points
(`result_scalar`, `result_point`, `result_target`).
-/

namespace ThresholdCipher

/-! ## Inverting many scalars with one inversion -/

namespace Scalar

/-- The inverse handed back at each step is that of the product before it. -/
theorem sharedInverses_eq {p : Scalar} (hp : p ≠ 0) {xs : List Scalar} (hxs : ∀ x ∈ xs, x ≠ 0) :
    sharedInverses p xs = (p⁻¹, xs.map fun x => x⁻¹) := by
  induction xs generalizing p with
  | nil => rfl
  | cons x xs ih =>
    have hx : x ≠ 0 := hxs x List.mem_cons_self
    rw [sharedInverses, ih (mul_ne_zero hp hx) fun y hy => hxs y (List.mem_cons_of_mem x hy)]
    have hfirst : (p * x)⁻¹ * x = p⁻¹ := by field_simp
    have hsecond : (p * x)⁻¹ * p = x⁻¹ := by field_simp
    show ((p * x)⁻¹ * x, (p * x)⁻¹ * p :: xs.map fun x => x⁻¹) = _
    rw [hfirst, hsecond, List.map_cons]

theorem batchInverse_eq {xs : List Scalar} (hxs : ∀ x ∈ xs, x ≠ 0) :
    batchInverse xs = .ok (xs.map fun x => x⁻¹) := by
  have hany : ¬ xs.any (· = 0) := by
    rw [List.any_eq_true]
    rintro ⟨x, hx, h⟩
    exact hxs x hx (of_decide_eq_true h)
  rw [batchInverse, if_neg hany, sharedInverses_eq one_ne_zero hxs]

end Scalar

namespace Interpolation

/-! ## The weights -/

/-- The weight at the target `z` of the point `x`. -/
def weight (points : List Scalar) (z x : Scalar) : Scalar :=
  ((points.erase x).map fun y => (z - y) / (x - y)).prod

theorem withOthers_eq {points : List Scalar} (h : points.Nodup) :
    withOthers points = points.map fun x => (x, points.erase x) := by
  induction points with
  | nil => rfl
  | cons x xs ih =>
    obtain ⟨hx, hxs⟩ := List.nodup_cons.mp h
    rw [withOthers, ih hxs, List.map_map, List.map_cons, List.erase_cons_head]
    congr 1
    apply List.map_congr_left
    intro y hy
    have hne : x ≠ y := fun heq => hx (heq ▸ hy)
    rw [Function.comp_apply, List.erase_cons_tail (by simpa using hne)]

theorem differences_eq (a : Scalar) (others : List Scalar) :
    differences a others = (others.map fun y => a - y).prod := by
  have hfold : ∀ acc, others.foldl (fun acc y => acc * (a - y)) acc =
      acc * (others.map fun y => a - y).prod := by
    induction others with
    | nil => exact fun acc => (mul_one acc).symm
    | cons y ys ih =>
      intro acc
      rw [List.foldl_cons, ih, List.map_cons, List.prod_cons, mul_assoc]
  rw [differences, hfold, one_mul]

theorem weight_eq_mul (points : List Scalar) (z x : Scalar) :
    weight points z x =
      differences z (points.erase x) * (differences x (points.erase x))⁻¹ := by
  rw [weight, differences_eq, differences_eq]
  induction points.erase x with
  | nil => simp
  | cons y ys ih =>
    rw [List.map_cons, List.prod_cons, ih, List.map_cons, List.prod_cons, List.map_cons,
      List.prod_cons, mul_inv, div_eq_mul_inv]
    ring

theorem differences_ne_zero {points : List Scalar} (h : points.Nodup) (x : Scalar) :
    differences x (points.erase x) ≠ 0 := by
  rw [differences_eq]
  apply List.prod_ne_zero
  intro hmem
  obtain ⟨y, hy, hzero⟩ := List.mem_map.mp hmem
  exact (h.mem_erase_iff.mp hy).1 (sub_eq_zero.mp hzero).symm

theorem denominators_ne_zero {points : List Scalar} (h : points.Nodup) :
    ∀ d ∈ denominators points, d ≠ 0 := by
  intro d hd
  rw [denominators, withOthers_eq h, List.map_map] at hd
  obtain ⟨x, -, rfl⟩ := List.mem_map.mp hd
  exact differences_ne_zero h x

/-- The denominators of distinct points have inverses, which are found together. -/
theorem batchInverse_denominators {points : List Scalar} (h : points.Nodup) :
    Scalar.batchInverse (denominators points) = .ok ((denominators points).map fun d => d⁻¹) :=
  Scalar.batchInverse_eq (denominators_ne_zero h)

theorem weights?_eq {points : List Scalar} (hne : points ≠ []) (h : points.Nodup) (z : Scalar) :
    weights? points z = .ok (points.map (weight points z)) := by
  have hempty : ¬ points.isEmpty := by rwa [List.isEmpty_iff]
  have hden : (denominators points).map (fun d => d⁻¹) =
      points.map fun x => (differences x (points.erase x))⁻¹ := by
    rw [denominators, withOthers_eq h, List.map_map, List.map_map]
    rfl
  have hnum : numerators points z = points.map fun x => differences z (points.erase x) := by
    rw [numerators, withOthers_eq h, List.map_map]
    rfl
  have hproducts : List.zipWith (· * ·) (numerators points z)
      ((denominators points).map fun d => d⁻¹) = points.map (weight points z) := by
    rw [hnum, hden, List.zipWith_map, List.zipWith_self]
    exact List.map_congr_left fun x _ => (weight_eq_mul points z x).symm
  rw [weights?, if_neg hempty, if_pos h, batchInverse_denominators h, ← hproducts]

/-- Without points there are no weights, and points that coincide have none. -/
theorem result_weights (points : List Scalar) (z : Scalar) :
    (weights points z).result =
      if points.isEmpty then .error (.parameters .noPoints)
      else if points.Nodup then .ok (points.map (weight points z))
      else .error (.error .duplicatePoint) := by
  rw [weights, Attempt.result_liftM_bind, Attempt.result_orRefuse]
  by_cases hempty : points.isEmpty
  · rw [weights?, if_pos hempty, if_pos hempty]
    rfl
  · by_cases hpoints : points.Nodup
    · rw [weights?_eq (mt List.isEmpty_iff.mpr hempty) hpoints, if_neg hempty, if_pos hpoints]
      rfl
    · rw [weights?, if_neg hempty, if_neg hpoints, if_neg hempty, if_neg hpoints]
      rfl

theorem result_weights_of_repeated {points : List Scalar} (h : ¬points.Nodup) (z : Scalar) :
    (weights points z).result = .error (.error .duplicatePoint) := by
  have hne : ¬points.isEmpty := by
    rw [List.isEmpty_iff]
    rintro rfl
    exact h List.nodup_nil
  rw [result_weights, if_neg hne, if_neg h]

/-- Weights exist exactly for distinct points, and at least one. -/
theorem weights_eq_ok {points ws : List Scalar} {z : Scalar} :
    (weights points z).result = .ok ws ↔
      points ≠ [] ∧ points.Nodup ∧ points.map (weight points z) = ws := by
  rw [result_weights]
  by_cases hempty : points.isEmpty
  · simp [List.isEmpty_iff.mp hempty]
  · have hne : points ≠ [] := mt List.isEmpty_iff.mpr hempty
    rw [if_neg hempty]
    by_cases h : points.Nodup
    · simp [hne, h]
    · simp [h]

/-- A weight is a product over the other points, in whatever order they are listed. -/
theorem weight_perm {points points' : List Scalar} (h : points.Perm points') (z x : Scalar) :
    weight points z x = weight points' z x :=
  ((h.erase x).map fun y => (z - y) / (x - y)).prod_eq

/-! ## Sums with these weights -/

theorem toFinset_erase {points : List Scalar} (h : points.Nodup) (x : Scalar) :
    (points.erase x).toFinset = points.toFinset.erase x := by
  ext y
  rw [List.mem_toFinset, h.mem_erase_iff, Finset.mem_erase, List.mem_toFinset]

open Polynomial in
/-- The values of a polynomial at enough distinct points, weighted, add up to its value at
the target. -/
theorem sum_weight_mul_evaluate {points : List Scalar} (h : points.Nodup) {f : SharingPolynomial}
    (hf : f.threshold ≤ points.length) (z : Scalar) :
    (points.map fun x => weight points z x * f.evaluate x).sum = f.evaluate z := by
  have hcard : points.toFinset.card = points.length := List.toFinset_card_of_nodup h
  have hdegree : f.toPoly.degree < points.toFinset.card := by
    rw [hcard]
    exact lt_of_lt_of_le f.degree_toPoly_lt (by exact_mod_cast hf)
  -- Nodes are a finset there; at a distinct list its products are those of `weight`.
  have hlagrange := Lagrange.eq_interpolate (v := id) (Set.injOn_id _) hdegree
  rw [← List.sum_toFinset _ h, ← f.eval_toPoly z, hlagrange, Lagrange.interpolate_apply,
    eval_finsetSum]
  apply Finset.sum_congr rfl
  intro x hx
  rw [eval_mul, eval_C, id_eq, f.eval_toPoly, Lagrange.basis, eval_prod, weight,
    ← List.prod_toFinset _ (h.erase x), toFinset_erase h, mul_comm]
  congr 1
  apply Finset.prod_congr rfl
  intro y _
  rw [Lagrange.basisDivisor, eval_mul, eval_C, eval_sub, eval_X, eval_C, id_eq, id_eq,
    div_eq_mul_inv, mul_comm]

/-- The same over items that carry their points. -/
theorem sum_weight_mul {α : Type} {items : List α} {point : α → Scalar}
    (h : (items.map point).Nodup) {f : SharingPolynomial} (hf : f.threshold ≤ items.length)
    (z : Scalar) :
    (items.map fun i => weight (items.map point) z (point i) * f.evaluate (point i)).sum =
      f.evaluate z := by
  rw [← sum_weight_mul_evaluate h (by rwa [List.length_map]) z, List.map_map]
  rfl

/-! ## Outcomes -/

variable {α β : Type}

/-- Only lists of one length are weighted.  Where the weighted values have a sum, nothing else is
refused than the points. -/
theorem result_use_weights {points : List Scalar} {count : Nat} {z : Scalar}
    {use : List Scalar → Attempt β} {value : List Scalar → β}
    (huse : points.length = count → ∀ ws, (weights points z).result = .ok ws →
      (use ws).result = .ok (value ws)) :
    (Attempt.orRefuse (requireAligned points.length count) >>= fun _ =>
        weights points z >>= use).result =
      if points.length = count then (weights points z).result.map value
      else .error (.malformed (.pointsAndValues points.length count)) := by
  by_cases haligned : points.length = count
  · have hchecked : requireAligned points.length count = .ok () := if_pos haligned
    rw [if_pos haligned,
      Attempt.result_bind_of_ok (Attempt.result_orRefuse_eq_ok.mpr hchecked), Attempt.result_bind]
    cases hws : (weights points z).result with
    | error failure => rfl
    | ok ws => exact huse haligned ws hws
  · rw [if_neg haligned, Attempt.result_bind, Attempt.result_orRefuse, requireAligned,
      if_neg haligned]
    rfl

theorem result_scalar (points values : List Scalar) (z : Scalar) :
    (scalar points values z).result =
      if points.length = values.length then
        (weights points z).result.map fun ws => (List.zipWith (· * ·) values ws).sum
      else .error (.malformed (.pointsAndValues points.length values.length)) := by
  refine result_use_weights fun _ ws _ => ?_
  rw [Attempt.result_pure, List.sum_eq_foldl]

/-- What is summed up has as many points as weights, and at least one. -/
theorem result_point {G : Type} [CurveGroup G] [LawfulCurveGroup G] (points : List Scalar)
    (values : List G) (z : Scalar) :
    (point points values z).result =
      if points.length = values.length then
        (weights points z).result.map fun ws => (List.zipWith (fun v w => w • v) values ws).sum
      else .error (.malformed (.pointsAndValues points.length values.length)) := by
  refine result_use_weights fun haligned ws hws => ?_
  obtain ⟨hne, -, rfl⟩ := weights_eq_ok.mp hws
  have hlength : values.length = (points.map (weight points z)).length := by
    rw [List.length_map, haligned]
  have hvalues : values ≠ [] := by
    rw [← List.length_pos_iff, ← haligned]
    exact List.length_pos_iff.mpr hne
  rw [Attempt.result_ofExcept, weightedSum_eq_ok]
  exact ⟨hlength, hvalues, rfl⟩

theorem result_target {T : Type} [TargetGroup T] [LawfulTargetGroup T] (points : List Scalar)
    (values : List T) (z : Scalar) :
    (target points values z).result =
      if points.length = values.length then
        (weights points z).result.map fun ws => (List.zipWith (fun v w => v ^ w) values ws).prod
      else .error (.malformed (.pointsAndValues points.length values.length)) := by
  refine result_use_weights fun _ ws _ => ?_
  rw [Attempt.result_pure, weightedProduct_eq_prod]

/-- Items that carry their points are used with the weights of these, which must be distinct. -/
theorem map_weights_eq_ok {items : List α} {position : α → Scalar} {z : Scalar}
    {value : List Scalar → β} {b : β} :
    (weights (items.map position) z).result.map value = .ok b ↔
      items ≠ [] ∧ (items.map position).Nodup ∧
        value (items.map fun i => weight (items.map position) z (position i)) = b := by
  have hmap : (items.map position).map (weight (items.map position) z) =
      items.map fun i => weight (items.map position) z (position i) := List.map_map
  simp only [Outcome.map_eq_ok, weights_eq_ok, hmap, Ne, List.map_eq_nil_iff]
  constructor
  · intro h
    obtain ⟨ws, ⟨hne, hnodup, rfl⟩, hb⟩ := h
    exact ⟨hne, hnodup, hb⟩
  · intro h
    obtain ⟨hne, hnodup, hb⟩ := h
    exact ⟨_, ⟨hne, hnodup, rfl⟩, hb⟩

/-- Scalar interpolation over items that carry their points and values. -/
theorem scalar_eq_ok {items : List α} {position value : α → Scalar} {z v : Scalar} :
    (scalar (items.map position) (items.map value) z).result = .ok v ↔
      items ≠ [] ∧ (items.map position).Nodup ∧
        (items.map fun i => weight (items.map position) z (position i) * value i).sum = v := by
  simp only [result_scalar, List.length_map, if_true, map_weights_eq_ok, List.zipWith_map,
    List.zipWith_self, mul_comm]

theorem point_eq_ok {G : Type} [CurveGroup G] [LawfulCurveGroup G] {items : List α}
    {position : α → Scalar} {value : α → G} {z : Scalar} {q : G} :
    (point (items.map position) (items.map value) z).result = .ok q ↔
      items ≠ [] ∧ (items.map position).Nodup ∧
        (items.map fun i => weight (items.map position) z (position i) • value i).sum = q := by
  simp only [result_point, List.length_map, if_true, map_weights_eq_ok, List.zipWith_map,
    List.zipWith_self]

theorem target_eq_ok {T : Type} [TargetGroup T] [LawfulTargetGroup T] {items : List α}
    {position : α → Scalar} {value : α → T} {z : Scalar} {t : T} :
    (target (items.map position) (items.map value) z).result = .ok t ↔
      items ≠ [] ∧ (items.map position).Nodup ∧
        (items.map fun i => value i ^ weight (items.map position) z (position i)).prod = t := by
  simp only [result_target, List.length_map, if_true, map_weights_eq_ok, List.zipWith_map,
    List.zipWith_self]

end Interpolation
end ThresholdCipher
