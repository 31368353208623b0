import ThresholdCipher.Proofs.WindowTable

/-
Sharing polynomials as elements of the polynomial ring.

`toPoly` carries evaluation and the bound on the degree over to the ring, which is
all that interpolation needs.  Polynomials of one threshold are added coefficient
by coefficient, and moving the constant term moves every value by the same
amount, so a polynomial can be given any root without changing its threshold.
-/

namespace ThresholdCipher
namespace SharingPolynomial

open Polynomial

/-- The value of a list of coefficients, the constant term first. -/
def horner (cs : List Scalar) (x : Scalar) : Scalar := cs.foldr (fun c acc => acc * x + c) 0

@[simp] theorem horner_nil (x : Scalar) : horner [] x = 0 := rfl

@[simp] theorem horner_cons (c : Scalar) (cs : List Scalar) (x : Scalar) :
    horner (c :: cs) x = horner cs x * x + c := rfl

theorem evaluate_eq (p : SharingPolynomial) (x : Scalar) :
    p.evaluate x = horner p.upper x * x + p.constant := rfl

@[simp] theorem evaluate_zero (p : SharingPolynomial) : p.evaluate 0 = p.constant := by
  rw [evaluate_eq, mul_zero, zero_add]

theorem threshold_eq (p : SharingPolynomial) : p.threshold = p.upper.length + 1 := rfl

theorem threshold_pos (p : SharingPolynomial) : 0 < p.threshold := Nat.succ_pos _

/-! ## In the polynomial ring -/

noncomputable def polyOf : List Scalar → Scalar[X]
  | [] => 0
  | c :: cs => polyOf cs * X + C c

noncomputable def toPoly (p : SharingPolynomial) : Scalar[X] := polyOf p.coefficients

theorem eval_polyOf (cs : List Scalar) (x : Scalar) : (polyOf cs).eval x = horner cs x := by
  induction cs with
  | nil => exact eval_zero
  | cons c cs ih => rw [polyOf, eval_add, eval_mul, eval_X, eval_C, ih, horner_cons]

theorem eval_toPoly (p : SharingPolynomial) (x : Scalar) : p.toPoly.eval x = p.evaluate x :=
  eval_polyOf p.coefficients x

theorem coeff_polyOf (cs : List Scalar) (n : Nat) : (polyOf cs).coeff n = cs.getD n 0 := by
  induction cs generalizing n with
  | nil => exact coeff_zero n
  | cons c cs ih =>
    cases n with
    | zero => rw [polyOf, coeff_add, coeff_mul_X_zero, coeff_C_zero, zero_add, List.getD_cons_zero]
    | succ n => rw [polyOf, coeff_add, coeff_mul_X, coeff_C_succ, add_zero, ih, List.getD_cons_succ]

theorem degree_toPoly_lt (p : SharingPolynomial) : p.toPoly.degree < p.threshold := by
  refine (degree_lt_iff_coeff_zero _ _).mpr fun n hn => ?_
  rw [toPoly, coeff_polyOf, List.getD_eq_default _ _ hn]

/-! ## Sums -/

instance : Add SharingPolynomial where
  add p q := ⟨p.constant + q.constant, List.zipWith (· + ·) p.upper q.upper⟩

theorem constant_add (p q : SharingPolynomial) : (p + q).constant = p.constant + q.constant := rfl

theorem threshold_add {p q : SharingPolynomial} (h : p.threshold = q.threshold) :
    (p + q).threshold = p.threshold := by
  have hlen : (List.zipWith (· + ·) p.upper q.upper).length = p.upper.length := by
    rw [List.length_zipWith]
    rw [threshold_eq, threshold_eq] at h
    omega
  show (List.zipWith (· + ·) p.upper q.upper).length + 1 = p.upper.length + 1
  rw [hlen]

theorem horner_zipWith {cs ds : List Scalar} (h : cs.length = ds.length) (x : Scalar) :
    horner (List.zipWith (· + ·) cs ds) x = horner cs x + horner ds x := by
  induction cs generalizing ds with
  | nil =>
    cases ds with
    | nil => exact (add_zero 0).symm
    | cons d ds => cases h
  | cons c cs ih =>
    cases ds with
    | nil => cases h
    | cons d ds =>
      rw [List.zipWith_cons_cons, horner_cons, horner_cons, horner_cons, ih (Nat.succ.inj h)]
      ring

theorem evaluate_add {p q : SharingPolynomial} (h : p.threshold = q.threshold) (x : Scalar) :
    (p + q).evaluate x = p.evaluate x + q.evaluate x := by
  have hlen : p.upper.length = q.upper.length := Nat.succ.inj h
  rw [evaluate_eq, evaluate_eq, evaluate_eq, constant_add,
    show (p + q).upper = List.zipWith (· + ·) p.upper q.upper from rfl, horner_zipWith hlen]
  ring

theorem threshold_foldl_add {f : SharingPolynomial} {ps : List SharingPolynomial}
    (h : ∀ p ∈ ps, p.threshold = f.threshold) : (ps.foldl (· + ·) f).threshold = f.threshold := by
  induction ps generalizing f with
  | nil => rfl
  | cons p ps ih =>
    have hp : (f + p).threshold = f.threshold := threshold_add (h p List.mem_cons_self).symm
    rw [List.foldl_cons, ih, hp]
    intro q hq
    rw [hp]
    exact h q (List.mem_cons_of_mem p hq)

theorem evaluate_foldl_add {f : SharingPolynomial} {ps : List SharingPolynomial}
    (h : ∀ p ∈ ps, p.threshold = f.threshold) (x : Scalar) :
    (ps.foldl (· + ·) f).evaluate x = f.evaluate x + (ps.map (·.evaluate x)).sum := by
  induction ps generalizing f with
  | nil => exact (add_zero _).symm
  | cons p ps ih =>
    have hp : f.threshold = p.threshold := (h p List.mem_cons_self).symm
    rw [List.foldl_cons, ih, evaluate_add hp, List.map_cons, List.sum_cons, add_assoc]
    intro q hq
    rw [threshold_add hp]
    exact h q (List.mem_cons_of_mem p hq)

/-! ## Constant terms and roots -/

@[simp] theorem threshold_withConstant (p : SharingPolynomial) (c : Scalar) :
    (p.withConstant c).threshold = p.threshold := rfl

@[simp] theorem threshold_withRoot (p : SharingPolynomial) (z : Scalar) :
    (p.withRoot z).threshold = p.threshold := rfl

theorem evaluate_withConstant (p : SharingPolynomial) (c x : Scalar) :
    (p.withConstant c).evaluate x = p.evaluate x - p.constant + c := by
  rw [evaluate_eq, evaluate_eq]
  show horner p.upper x * x + c = _
  ring

@[simp] theorem evaluate_withRoot (p : SharingPolynomial) (z : Scalar) :
    (p.withRoot z).evaluate z = 0 := by
  rw [withRoot, evaluate_withConstant]
  ring

/-! ## Values from powers -/

theorem sum_iterates (cs : List Scalar) (x a : Scalar) :
    (List.zipWith (fun c w => w * c) cs (iterates (· * x) cs.length a)).sum = a * horner cs x := by
  induction cs generalizing a with
  | nil => exact (mul_zero a).symm
  | cons c cs ih =>
    rw [List.length_cons, iterates, List.zipWith_cons_cons, List.sum_cons, ih, horner_cons]
    ring

/-- The coefficients weighted with the powers of a point add up to the value there. -/
theorem sum_powers (cs : List Scalar) (x : Scalar) :
    (List.zipWith (fun c w => w * c) cs (Transcript.powers x cs.length)).sum = horner cs x := by
  rw [Transcript.powers, sum_iterates, one_mul]

/-! ## Sampling -/

theorem length_of_scalars {n : Nat} {e rest : Entropy} {cs : List Scalar}
    (h : Entropy.scalars? n e = some (cs, rest)) : cs.length = n := by
  induction n generalizing e cs with
  | zero => cases h; rfl
  | succ n ih =>
    rw [Entropy.scalars?] at h
    obtain ⟨⟨s, e₁⟩, -, h⟩ := Option.bind_eq_some_iff.mp h
    obtain ⟨⟨tail, e₂⟩, htail, h⟩ := Option.bind_eq_some_iff.mp h
    cases h
    rw [List.length_cons, ih htail]

theorem threshold_ofCoefficients {cs : List Scalar} (h : cs ≠ []) :
    (ofCoefficients cs).threshold = cs.length := by
  cases cs with
  | nil => exact absurd rfl h
  | cons c cs => rfl

theorem evaluate_ofCoefficients (cs : List Scalar) (x : Scalar) :
    (ofCoefficients cs).evaluate x = horner cs x := by
  cases cs with
  | nil =>
    show (0 : Scalar) * x + 0 = 0
    ring
  | cons c cs => rfl

theorem threshold_of_sample {t : Nat} {e rest : Entropy} {p : SharingPolynomial} (ht : 0 < t)
    (h : sample? t e = some (p, rest)) : p.threshold = t := by
  have hmax : max t 1 = t := by omega
  rw [sample?, hmax] at h
  obtain ⟨⟨cs, e₁⟩, hcs, h⟩ := Option.map_eq_some_iff.mp h
  cases h
  have hlen := length_of_scalars hcs
  rw [threshold_ofCoefficients (fun hnil => by rw [hnil, List.length_nil] at hlen; omega), hlen]

end SharingPolynomial
end ThresholdCipher
