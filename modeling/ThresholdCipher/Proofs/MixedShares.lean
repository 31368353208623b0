import ThresholdCipher.Proofs.Blinding

/-
Old shares among refreshed ones.

A refreshed share differs from the old one by the value of the update polynomial at its point.
So where some shares of a quorum are refreshed and others are not, reconstruction is off by the
weighted sum of these values.  No weight at zero is zero, and the values of the update polynomial
at all points but one are arbitrary.  The sum is therefore a linear form in the drawn scalars
that is not the zero form, and it vanishes for one in `groupOrder` of the draws.
-/

namespace ThresholdCipher

theorem Interpolation.weight_zero_ne_zero {points : List Scalar} (h : points.Nodup)
    (hzero : ∀ y ∈ points, y ≠ 0) (x : Scalar) : weight points 0 x ≠ 0 := by
  apply List.prod_ne_zero
  intro hmem
  obtain ⟨y, hy, hfactor⟩ := List.mem_map.mp hmem
  obtain ⟨hne, hy⟩ := h.mem_erase_iff.mp hy
  rw [zero_sub] at hfactor
  exact div_ne_zero (neg_ne_zero.mpr (hzero y hy)) (sub_ne_zero.mpr hne.symm) hfactor

/-! ## The zeros of a linear form -/

namespace Scalar

/-- The form with the given coefficients. -/
def linearForm {n : Nat} (c : Fin n → Scalar) : (Fin n → Scalar) →+ Scalar where
  toFun v := ∑ i, c i * v i
  map_zero' := by simp only [Pi.zero_apply, mul_zero, Finset.sum_const_zero]
  map_add' v w := by simp only [Pi.add_apply, mul_add, Finset.sum_add_distrib]

variable {k n : Nat}

theorem linearForm_surjective {c : Fin n → Scalar} {i : Fin n} (hi : c i ≠ 0) :
    Function.Surjective (linearForm c) := by
  intro y
  refine ⟨Pi.single i (y / c i), ?_⟩
  show ∑ j, c j * (Pi.single i (y / c i) : Fin n → Scalar) j = y
  rw [Finset.sum_eq_single i]
  · rw [Pi.single_eq_same, mul_div_cancel₀ y hi]
  · intro j _ hj
    rw [Pi.single_eq_of_ne hj, mul_zero]
  · exact fun h => absurd (Finset.mem_univ i) h

/-- All values are taken equally often, so one in `groupOrder` of the vectors is a zero. -/
theorem card_zeros {c : Fin (n + 1) → Scalar} {i : Fin (n + 1)} (hi : c i ≠ 0) :
    Nat.card {v // linearForm c v = 0} = groupOrder ^ n := by
  have hall := AddSubgroup.card_mul_index (linearForm c).ker
  have hindex : (linearForm c).ker.index = groupOrder := by
    rw [AddSubgroup.index_ker, AddMonoidHom.range_eq_top.mpr (linearForm_surjective hi),
      AddSubgroup.card_top, Nat.card_eq_fintype_card, Residue.card]
  have hvectors : Nat.card (Fin (n + 1) → Scalar) = groupOrder ^ n * groupOrder := by
    rw [Nat.card_eq_fintype_card, card_vectors, pow_succ]
  rw [hindex, hvectors] at hall
  exact Nat.eq_of_mul_eq_mul_right groupOrder_prime.pos hall

/-- The same where the vector is shown by the draws after the first. -/
theorem card_draws_zeros {shown : (Fin k → Scalar) → Fin k → Scalar}
    (hshown : Function.Bijective shown) {c : Fin k → Scalar} {i : Fin k} (hi : c i ≠ 0) :
    Nat.card {draws : Fin (k + 1) → Scalar // linearForm c (shown (Fin.tail draws)) = 0} =
      groupOrder ^ k := by
  let split := Fin.consEquiv fun _ : Fin (k + 1) => Scalar
  let spread := (split.symm.trans (.prodCongr (.refl _) (.ofBijective shown hshown))).trans split
  have hcoefficient : (Fin.cons 0 c : Fin (k + 1) → Scalar) i.succ ≠ 0 := by rwa [Fin.cons_succ]
  rw [← card_zeros hcoefficient]
  refine Nat.card_congr (spread.subtypeEquiv fun draws => ?_)
  -- The first draw has no part in the form.
  have hform : linearForm (Fin.cons 0 c) (spread draws) =
      linearForm c (shown (Fin.tail draws)) := by
    show ∑ j, (Fin.cons 0 c : Fin (k + 1) → Scalar) j * spread draws j = _
    rw [Fin.sum_univ_succ, Fin.cons_zero, zero_mul, zero_add]
    rfl
  rw [hform]

end Scalar

/-! ## Mixing -/

namespace KeyShare

/-- Shares, some of which are replaced by those at the same places of another list. -/
def mixed (replaced : Finset KeyShare) (old new : List KeyShare) : List KeyShare :=
  List.zipWith (fun o n => if o ∈ replaced then n else o) old new

variable {shares : List KeyShare} {replaced : Finset KeyShare} {f d : SharingPolynomial}

theorem mixed_blind (replaced : Finset KeyShare) (shares : List KeyShare)
    (d : SharingPolynomial) :
    mixed replaced shares (shares.map (blind d)) =
      shares.map fun s => if s ∈ replaced then blind d s else s := by
  rw [mixed, List.zipWith_map_right, List.zipWith_self]

/-- A sum over the shares in which only the replaced ones count. -/
theorem sum_replaced {weighted : KeyShare → Scalar} (hnodup : shares.Nodup)
    (hreplaced : replaced ⊆ shares.toFinset) :
    (shares.map fun s => if s ∈ replaced then weighted s else 0).sum =
      ∑ s ∈ replaced, weighted s := by
  rw [← List.sum_toFinset _ hnodup, Finset.sum_ite_mem, Finset.inter_eq_right.mpr hreplaced]

/-- With some shares refreshed, the secret is missed by the weighted values of the update
polynomial at their points. -/
theorem reconstructSecret_mixed_blind (henough : f.threshold ≤ shares.length)
    (hpoints : (shares.map (·.domainPoint)).Nodup)
    (hvalues : ∀ s ∈ shares, s.value = f.evaluate s.domainPoint)
    (hreplaced : replaced ⊆ shares.toFinset) :
    (reconstructSecret (mixed replaced shares (shares.map (blind d))) f.threshold).result =
      .ok (f.constant + ∑ s ∈ replaced,
        Interpolation.weight (shares.map (·.domainPoint)) 0 s.domainPoint *
          d.evaluate s.domainPoint) := by
  have hseat : ∀ s : KeyShare,
      (if s ∈ replaced then blind d s else s).domainPoint = s.domainPoint := by
    intro s
    split <;> rfl
  have hvalue : ∀ s : KeyShare, (if s ∈ replaced then blind d s else s).value =
      s.value + if s ∈ replaced then d.evaluate s.domainPoint else 0 := by
    intro s
    split
    · rfl
    · exact (add_zero s.value).symm
  obtain ⟨hthreshold, hne, -, -⟩ :=
    reconstructSecret_eq_ok.mp (reconstructSecret_values henough hpoints hvalues)
  rw [mixed_blind, reconstructSecret_eq_ok, List.length_map, Ne, List.map_eq_nil_iff,
    List.map_map, List.map_map]
  simp only [Function.comp_def, hseat, hvalue]
  refine ⟨hthreshold, hne, hpoints, ?_⟩
  simp only [mul_add, mul_ite, mul_zero, List.sum_map_add]
  rw [KeyShare.sum_weight_mul hpoints hvalues henough, SharingPolynomial.evaluate_zero,
    sum_replaced hpoints.of_map hreplaced]

variable {others : List KeyShare} {weighting : KeyShare → Scalar}

/-- The coefficients of the replaced shares among others, zero for those that are not replaced. -/
def replacedWeights (replaced : Finset KeyShare) (others : List KeyShare)
    (weighting : KeyShare → Scalar) (i : Fin others.length) : Scalar :=
  if others.get i ∈ replaced then weighting (others.get i) else 0

theorem sum_eq_linearForm (hnodup : others.Nodup) (hreplaced : replaced ⊆ others.toFinset)
    (value : KeyShare → Scalar) :
    ∑ s ∈ replaced, weighting s * value s =
      Scalar.linearForm (replacedWeights replaced others weighting)
        fun i => value (others.get i) := by
  rw [← sum_replaced hnodup hreplaced, ← Fin.sum_univ_fun_getElem]
  show _ = ∑ i, replacedWeights replaced others weighting i * value (others.get i)
  refine Finset.sum_congr rfl fun i _ => ?_
  rw [replacedWeights, ite_mul, zero_mul]
  rfl

/-- The points of the replaced shares are among those of others, where the update polynomial
takes arbitrary values. -/
theorem card_draws_sum (hpoints : (others.map (·.domainPoint)).Nodup)
    (hzero : ∀ s ∈ others, s.domainPoint ≠ 0) (hsome : replaced.Nonempty)
    (hreplaced : replaced ⊆ others.toFinset) (hweighting : ∀ s, weighting s ≠ 0) :
    Nat.card {draws : Fin (others.length + 1) → Scalar // ∑ s ∈ replaced, weighting s *
      (SharingPolynomial.vanishing 0 (Fin.tail draws)).evaluate s.domainPoint = 0} =
      groupOrder ^ others.length := by
  have hinjective : Function.Injective fun i => (others.get i).domainPoint := by
    intro i j h
    have hij := List.inj_on_of_nodup_map hpoints (others.get_mem i) (others.get_mem j) h
    exact hpoints.of_map.get_inj_iff.mp hij
  have hshown := SharingPolynomial.bijective_vanishing hinjective fun i =>
    hzero (others.get i) (others.get_mem i)
  obtain ⟨s, hs⟩ := hsome
  obtain ⟨i, rfl⟩ := List.get_of_mem (List.mem_toFinset.mp (hreplaced hs))
  have hcoefficient : replacedWeights replaced others weighting i ≠ 0 := by
    rw [replacedWeights, if_pos hs]
    exact hweighting (others.get i)
  simp only [sum_eq_linearForm hpoints.of_map hreplaced]
  exact Scalar.card_draws_zeros hshown hcoefficient

variable {k : Nat}

/-- One share is not replaced, and the replaced ones are among the others. -/
theorem card_draws_shift (hlength : shares.length = k + 1)
    (hpoints : (shares.map (·.domainPoint)).Nodup) (hzero : ∀ s ∈ shares, s.domainPoint ≠ 0)
    (hsome : replaced.Nonempty) (hproper : replaced ⊂ shares.toFinset) :
    Nat.card {draws : Fin (k + 1) → Scalar // ∑ s ∈ replaced,
      Interpolation.weight (shares.map (·.domainPoint)) 0 s.domainPoint *
        (SharingPolynomial.vanishing 0 (Fin.tail draws)).evaluate s.domainPoint = 0} =
      groupOrder ^ k := by
  obtain ⟨hsubset, hmissing⟩ := Finset.ssubset_def.mp hproper
  obtain ⟨kept, hkept, hnot⟩ := Finset.not_subset.mp hmissing
  have hkept := List.mem_toFinset.mp hkept
  obtain rfl : (shares.erase kept).length = k := by
    rw [List.length_erase_of_mem hkept, hlength, Nat.add_sub_cancel]
  have hreplaced : replaced ⊆ (shares.erase kept).toFinset := by
    intro s hs
    have hne : s ≠ kept := fun h => hnot (h ▸ hs)
    exact List.mem_toFinset.mpr ((List.mem_erase_of_ne hne).mpr (List.mem_toFinset.mp (hsubset hs)))
  refine card_draws_sum (hpoints.sublist (List.erase_sublist.map _))
    (fun s hs => hzero s (List.mem_of_mem_erase hs)) hsome hreplaced fun s => ?_
  refine Interpolation.weight_zero_ne_zero hpoints ?_ s.domainPoint
  intro y hy
  obtain ⟨s, hs, rfl⟩ := List.mem_map.mp hy
  exact hzero s hs

variable {t : Nat}

/-- Old and refreshed shares of one quorum do not combine.  If some of its shares are replaced by
their refreshed counterparts and others are not, reconstruction gives the secret and the weighted
values of the update polynomial, and that is the secret for one in `groupOrder` of the draws. -/
theorem reconstructSecret_mixed (hthreshold : f.threshold = t) (hlength : shares.length = t)
    (hpoints : (shares.map (·.domainPoint)).Nodup) (hzero : ∀ s ∈ shares, s.domainPoint ≠ 0)
    (hvalues : ∀ s ∈ shares, s.value = f.evaluate s.domainPoint)
    (hsome : replaced.Nonempty) (hproper : replaced ⊂ shares.toFinset) :
    (∀ (e rest : Entropy) (drawn : SharingPolynomial),
      SharingPolynomial.sample? t e = some (drawn, rest) →
        ∃ refreshed, (refreshAll shares t e).result = .ok (refreshed, rest) ∧
          refreshed = shares.map (blind (drawn.withRoot 0)) ∧
          (reconstructSecret (mixed replaced shares refreshed) t).result =
            .ok (f.constant + ∑ s ∈ replaced,
              Interpolation.weight (shares.map (·.domainPoint)) 0 s.domainPoint *
                (drawn.withRoot 0).evaluate s.domainPoint)) ∧
    (∀ source : (Fin t → Scalar) → Entropy, Entropy.Draws source →
      Nat.card {draws // ∃ refreshed rest,
        (refreshAll shares t (source draws)).result = .ok (refreshed, rest) ∧
          (reconstructSecret (mixed replaced shares refreshed) t).result = .ok f.constant} =
        groupOrder ^ (t - 1)) ∧
    Nat.card (Fin t → Scalar) = groupOrder ^ t := by
  obtain ⟨k, rfl⟩ : ∃ k, t = k + 1 := ⟨f.upper.length, hthreshold.symm⟩
  have hmixed : ∀ d, (reconstructSecret (mixed replaced shares (shares.map (blind d)))
      (k + 1)).result = .ok (f.constant + ∑ s ∈ replaced,
        Interpolation.weight (shares.map (·.domainPoint)) 0 s.domainPoint *
          d.evaluate s.domainPoint) := by
    intro d
    rw [← hthreshold]
    exact reconstructSecret_mixed_blind (hthreshold.trans hlength.symm).le hpoints hvalues
      hproper.subset
  refine ⟨?_, ?_, ?_⟩
  · intro e rest drawn hdrawn
    exact ⟨_, refreshAll_of_sample (Nat.succ_pos k) hdrawn shares, rfl, hmixed _⟩
  · intro source hsource
    rw [Nat.add_sub_cancel, ← card_draws_shift hlength hpoints hzero hsome hproper]
    refine Nat.card_congr (.subtypeEquivRight fun draws => ?_)
    obtain ⟨rest, hrefreshed⟩ := refreshAll_of_draws hsource shares draws
    constructor
    · intro h
      obtain ⟨refreshed, rest', hr, hsecret⟩ := h
      rw [hrefreshed] at hr
      cases hr
      rw [hmixed, Except.ok.injEq] at hsecret
      exact add_eq_left.mp hsecret
    · intro h
      refine ⟨_, rest, hrefreshed, ?_⟩
      rw [hmixed, h, add_zero]
  · rw [Nat.card_eq_fintype_card, Scalar.card_vectors]

/-- The second of two shares of five, refreshed by the polynomial `x`. -/
theorem reconstructSecret_mixed_second :
    (∃ refreshed rest,
      (refreshAll [⟨0, 1, 8⟩, ⟨1, 2, 11⟩] 2 (.ofList [0, 0, 0, 0, 1, 0, 0, 0])).result =
        .ok (refreshed, rest) ∧ refreshed = [⟨0, 1, 9⟩, ⟨1, 2, 13⟩] ∧
      (reconstructSecret (mixed {⟨1, 2, 11⟩} [⟨0, 1, 8⟩, ⟨1, 2, 11⟩] refreshed) 2).result =
        .ok 3) ∧
    Nat.card {draws : Fin 2 → Scalar // ∃ refreshed rest,
      (refreshAll [⟨0, 1, 8⟩, ⟨1, 2, 11⟩] 2 (.ofScalars (List.ofFn draws) 0)).result =
        .ok (refreshed, rest) ∧
      (reconstructSecret (mixed {⟨1, 2, 11⟩} [⟨0, 1, 8⟩, ⟨1, 2, 11⟩] refreshed) 2).result =
        .ok 5} = groupOrder ^ 1 := by
  have hvalues : ∀ s ∈ ([⟨0, 1, 8⟩, ⟨1, 2, 11⟩] : List KeyShare),
      s.value = SharingPolynomial.evaluate ⟨5, [3]⟩ s.domainPoint := by decide
  have hproper : ({⟨1, 2, 11⟩} : Finset KeyShare) ⊂
      ([⟨0, 1, 8⟩, ⟨1, 2, 11⟩] : List KeyShare).toFinset := by decide
  have hsome : ({⟨1, 2, 11⟩} : Finset KeyShare).Nonempty := Finset.singleton_nonempty _
  obtain ⟨hshift, hcount, -⟩ := reconstructSecret_mixed (t := 2) (f := ⟨5, [3]⟩) rfl rfl
    (by decide) (by decide) hvalues hsome hproper
  have hdraw : ∃ rest, SharingPolynomial.sample? 2 (.ofList [0, 0, 0, 0, 1, 0, 0, 0]) =
    some (⟨0, [1]⟩, rest) := ⟨_, rfl⟩
  obtain ⟨rest, hdraw⟩ := hdraw
  obtain ⟨refreshed, hrefreshed, hblinded, hmixed⟩ := hshift _ rest ⟨0, [1]⟩ hdraw
  refine ⟨⟨refreshed, rest, hrefreshed, ?_, ?_⟩, hcount _ (Entropy.draws_ofScalars 2)⟩
  · rw [hblinded]
    decide
  · have hweight : Interpolation.weight [1, 2] 0 2 = -1 := by
      rw [Interpolation.weight_eq_mul,
        show Interpolation.differences 0 ([1, 2].erase 2) = -1 by decide,
        show Interpolation.differences 2 ([1, 2].erase 2) = 1 by decide, inv_one, mul_one]
    refine hmixed.trans (congrArg Except.ok ?_)
    simp only [Finset.sum_singleton, List.map_cons, List.map_nil, hweight]
    decide

end KeyShare
end ThresholdCipher
