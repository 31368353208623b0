import ThresholdCipher.Proofs.BatchVerification

/-
What uniformly drawn coefficients show.

A polynomial is determined by as many values as it has coefficients (`ext_of_evaluate`).  Where
one value is known, the coefficients above the constant term and the values at as many further
points are therefore in bijection (`bijective_evaluate`).  A view that shows values of this kind
is uniform over all of them, and each of them is shown for as many draws as there are scalars
(`UniformOver.of_bijective`).
-/

namespace ThresholdCipher

/-! ## The number of scalars -/

namespace Residue

def equivFin (m : Nat) : Residue m ≃ Fin m where
  toFun a := ⟨a.val, a.isLt⟩
  invFun i := ⟨i.val, i.isLt⟩
  left_inv _ := rfl
  right_inv _ := rfl

instance (m : Nat) : Fintype (Residue m) := .ofEquiv (Fin m) (equivFin m).symm

theorem card (m : Nat) : Fintype.card (Residue m) = m := by
  rw [Fintype.card_congr (equivFin m), Fintype.card_fin]

end Residue

theorem Scalar.card_vectors (n : Nat) : Fintype.card (Fin n → Scalar) = groupOrder ^ n := by
  rw [Fintype.card_fun, Residue.card, Fintype.card_fin]

/-! ## Polynomials and their values -/

namespace SharingPolynomial

open Polynomial

theorem ext_of_toPoly {p q : SharingPolynomial} (hthreshold : p.threshold = q.threshold)
    (h : p.toPoly = q.toPoly) : p = q := by
  have hcoefficients : p.coefficients = q.coefficients := by
    refine List.ext_getElem hthreshold fun n hp hq => ?_
    have hn := congrArg (fun f : Scalar[X] => f.coeff n) h
    simpa [toPoly, coeff_polyOf, hp, hq] using hn
  obtain ⟨c, cs⟩ := p
  obtain ⟨d, ds⟩ := q
  obtain ⟨rfl, rfl⟩ := List.cons.inj hcoefficients
  rfl

/-- Polynomials are the same if they agree at as many points as they have coefficients. -/
theorem ext_of_evaluate {n : Nat} {nodes : Fin n → Scalar} (hnodes : Function.Injective nodes)
    {p q : SharingPolynomial} (hp : p.threshold = n) (hq : q.threshold = n)
    (h : ∀ i, p.evaluate (nodes i) = q.evaluate (nodes i)) : p = q := by
  have hdegree : ∀ f : SharingPolynomial, f.threshold = n →
      f.toPoly.degree < ((Finset.univ : Finset (Fin n)).card : WithBot Nat) := by
    intro f hf
    rw [Finset.card_univ, Fintype.card_fin, ← hf]
    exact degree_toPoly_lt f
  refine ext_of_toPoly (hp.trans hq.symm) ?_
  refine eq_of_degrees_lt_of_eval_index_eq Finset.univ hnodes.injOn (hdegree p hp) (hdegree q hq) ?_
  intro i _
  rw [eval_toPoly, eval_toPoly]
  exact h i

/-- The polynomial with a constant term and a vector of coefficients above it. -/
def ofVector {k : Nat} (constant : Scalar) (upper : Fin k → Scalar) : SharingPolynomial :=
  ⟨constant, List.ofFn upper⟩

variable {k : Nat} {points : Fin k → Scalar} {z : Scalar}

theorem threshold_ofVector (constant : Scalar) (upper : Fin k → Scalar) :
    (ofVector constant upper).threshold = k + 1 := by
  rw [threshold_eq, ofVector, List.length_ofFn]

theorem exists_eq_ofVector {p : SharingPolynomial} (h : p.threshold = k + 1) :
    ∃ upper : Fin k → Scalar, p = ofVector p.constant upper := by
  obtain ⟨constant, cs⟩ := p
  obtain rfl : cs.length = k := Nat.succ.inj h
  exact ⟨cs.get, by rw [ofVector, List.ofFn_get]⟩

theorem ofVector_injective {constant constant' : Scalar} {upper upper' : Fin k → Scalar}
    (h : ofVector constant upper = ofVector constant' upper') : upper = upper' :=
  List.ofFn_injective (congrArg SharingPolynomial.upper h)

theorem injective_cons (hpoints : Function.Injective points) (hz : ∀ i, points i ≠ z) :
    Function.Injective (Fin.cons z points : Fin (k + 1) → Scalar) := by
  refine Fin.cons_injective_iff.mpr ⟨?_, hpoints⟩
  intro hmem
  obtain ⟨i, hi⟩ := hmem
  exact hz i hi

/-- With one value known, `k` further values leave one polynomial. -/
theorem ext_of_evaluate_cons (hpoints : Function.Injective points) (hz : ∀ i, points i ≠ z)
    {p q : SharingPolynomial} (hp : p.threshold = k + 1) (hq : q.threshold = k + 1)
    (hknown : p.evaluate z = q.evaluate z)
    (h : ∀ i, p.evaluate (points i) = q.evaluate (points i)) : p = q := by
  refine ext_of_evaluate (injective_cons hpoints hz) hp hq fun i => ?_
  cases i using Fin.cases with
  | zero => exact hknown
  | succ i => exact h i

/-- With the constant term chosen so that one value is known, the coefficients above it are in
bijection with the values at `k` further points. -/
theorem bijective_evaluate (hpoints : Function.Injective points) (hz : ∀ i, points i ≠ z)
    {constant : (Fin k → Scalar) → Scalar} {known : Scalar}
    (hknown : ∀ upper, (ofVector (constant upper) upper).evaluate z = known) :
    Function.Bijective fun upper i => (ofVector (constant upper) upper).evaluate (points i) := by
  -- Both sides are vectors of `k` scalars, so it is enough that no two give the same values.
  refine Function.Injective.bijective_of_finite ?_
  intro upper upper' h
  refine ofVector_injective (ext_of_evaluate_cons hpoints hz (threshold_ofVector _ _)
    (threshold_ofVector _ _) ?_ (congrFun h))
  rw [hknown, hknown]

end SharingPolynomial

/-! ## Uniform views -/

section

variable {k : Nat}

/-- A view of `k + 1` drawn scalars that shows `k` values, in some form, and nothing else.
Whatever the first scalar is, the others can be chosen in one way for each of the values, so as
many draws show them as there are scalars, and uniform draws show uniform values. -/
structure UniformOver {β : Type} (view : (Fin (k + 1) → Scalar) → β)
    (form : (Fin k → Scalar) → β) : Prop where
  injective : Function.Injective form
  tail : ∀ first values, ∃! tail : Fin k → Scalar, view (Fin.cons first tail) = form values
  card : ∀ values, Nat.card {draws // view draws = form values} = groupOrder
  law : (PMF.uniformOfFintype (Fin (k + 1) → Scalar)).map view =
    (PMF.uniformOfFintype (Fin k → Scalar)).map form

variable {shown : (Fin k → Scalar) → Fin k → Scalar} (hshown : Function.Bijective shown)

include hshown in
/-- Draws that show the same values are told apart by their first scalar, which is arbitrary. -/
theorem card_draws (values : Fin k → Scalar) :
    Nat.card {draws : Fin (k + 1) → Scalar // shown (Fin.tail draws) = values} = groupOrder := by
  have hfirst : Function.Bijective
      fun draws : {draws : Fin (k + 1) → Scalar // shown (Fin.tail draws) = values} =>
        draws.1 0 := by
    constructor
    · intro draws draws' h
      obtain ⟨draws, hdraws⟩ := draws
      obtain ⟨draws', hdraws'⟩ := draws'
      have hhead : draws 0 = draws' 0 := h
      have htail : Fin.tail draws = Fin.tail draws' := hshown.1 (hdraws.trans hdraws'.symm)
      rw [Subtype.mk.injEq, ← Fin.cons_self_tail draws, ← Fin.cons_self_tail draws', hhead, htail]
    · intro first
      obtain ⟨tail, htail⟩ := hshown.2 values
      exact ⟨⟨Fin.cons first tail, by rwa [Fin.tail_cons]⟩, rfl⟩
  rw [Nat.card_eq_of_bijective _ hfirst, Nat.card_eq_fintype_card, Residue.card]

include hshown in
/-- Each vector is shown by one in `groupOrder ^ k` draws. -/
theorem map_uniform_draws :
    (PMF.uniformOfFintype (Fin (k + 1) → Scalar)).map (fun draws => shown (Fin.tail draws)) =
      PMF.uniformOfFintype (Fin k → Scalar) := by
  classical
  ext values
  have hcard : (Finset.univ.filter
      fun draws : Fin (k + 1) → Scalar => values = shown (Fin.tail draws)).card = groupOrder := by
    refine Eq.trans ?_ (card_draws hshown values)
    rw [Nat.card_eq_fintype_card, Fintype.card_subtype]
    simp only [eq_comm]
  have horder : (groupOrder : ENNReal) ≠ 0 := by
    exact_mod_cast groupOrder_prime.ne_zero
  rw [PMF.map_apply, tsum_fintype]
  simp only [PMF.uniformOfFintype_apply, Scalar.card_vectors]
  rw [← Finset.sum_filter, Finset.sum_const, hcard, nsmul_eq_mul, pow_succ, Nat.cast_mul,
    ENNReal.mul_inv (Or.inr (ENNReal.natCast_ne_top _)) (Or.inr horder), mul_left_comm,
    ENNReal.mul_inv_cancel horder (ENNReal.natCast_ne_top _), mul_one]

include hshown in
/-- A view is uniform if it shows, in a form that tells them apart, values in bijection with the
scalars after the first. -/
theorem UniformOver.of_bijective {β : Type} {view : (Fin (k + 1) → Scalar) → β}
    {form : (Fin k → Scalar) → β} (hform : Function.Injective form)
    (hview : ∀ draws, view draws = form (shown (Fin.tail draws))) : UniformOver view form := by
  obtain rfl : view = fun draws => form (shown (Fin.tail draws)) := funext hview
  refine ⟨hform, ?_, ?_, ?_⟩
  · intro first values
    simp only [hform.eq_iff, Fin.tail_cons]
    exact hshown.existsUnique values
  · intro values
    simp only [hform.eq_iff]
    exact card_draws hshown values
  · rw [← map_uniform_draws hshown, PMF.map_comp]
    rfl

/-- Shares at fixed seats are told apart by their values. -/
theorem injective_shares {ε β : Type} (participants : Fin k → Participant)
    (points : Fin k → Scalar) {wrap : KeyShare → β} (hwrap : Function.Injective wrap) :
    Function.Injective fun values : Fin k → Scalar =>
      (.ok fun i => wrap ⟨participants i, points i, values i⟩ : Except ε (Fin k → β)) := by
  intro values values' h
  funext i
  have hi := congrFun (Except.ok.inj h) i
  exact congrArg KeyShare.value (hwrap hi)

end

/-! ## Sources for every draw -/

namespace Entropy

/-- For each vector of scalars, a source that gives them in turn. -/
def Draws {n : Nat} (source : (Fin n → Scalar) → Entropy) : Prop :=
  ∀ draws, ∃ rest, (source draws).scalars? n = some (List.ofFn draws, rest)

theorem draws_ofScalars (n : Nat) :
    Draws fun draws : Fin n → Scalar => ofScalars (List.ofFn draws) 0 := by
  intro draws
  have hlen : n + 0 = (List.ofFn draws).length := by rw [List.length_ofFn, Nat.add_zero]
  exact ⟨_, scalars?_ofScalars _ hlen⟩

/-- The polynomial that is sampled has the drawn coefficients. -/
theorem Draws.sample? {k : Nat} {source : (Fin (k + 1) → Scalar) → Entropy} (h : Draws source)
    (draws : Fin (k + 1) → Scalar) :
    ∃ rest, SharingPolynomial.sample? (k + 1) (source draws) =
      some (.ofVector (draws 0) (Fin.tail draws), rest) := by
  obtain ⟨rest, hrest⟩ := h draws
  refine ⟨rest, ?_⟩
  rw [SharingPolynomial.sample?, Nat.max_eq_left (Nat.succ_pos k), hrest, List.ofFn_succ]
  rfl

end Entropy
end ThresholdCipher
