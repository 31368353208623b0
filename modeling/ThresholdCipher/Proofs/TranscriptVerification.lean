import ThresholdCipher.Proofs.Transcripts

/-
Verification of transcripts is exact.

The coefficients commit to one polynomial `c₀ + c₁ X + …`.  A transcript passes where it
presents that polynomial: it has as many coefficients as the threshold, the polynomial
vanishes at the root, and every update is its value at the update's own point, with the
commitment to that value.  Sampling makes transcripts of this kind only, whatever it draws
and whichever way it commits.
-/

namespace ThresholdCipher

open Polynomial

namespace SharingPolynomial

/-- The polynomial `c₀ + c₁ X + c₂ X² + …`. -/
noncomputable def powerSum (cs : List Scalar) : Scalar[X] :=
  ∑ k : Fin cs.length, C cs[k] * X ^ (k : Nat)

theorem powerSum_eq_polyOf (cs : List Scalar) : powerSum cs = polyOf cs := by
  induction cs with
  | nil => exact Finset.sum_empty
  | cons c cs ih =>
    have htail : ∑ k : Fin cs.length, C cs[k] * X ^ ((k : Nat) + 1) = powerSum cs * X := by
      rw [powerSum, Finset.sum_mul]
      exact Finset.sum_congr rfl fun k _ => by rw [pow_succ, mul_assoc]
    rw [polyOf, ← ih, ← htail, add_comm]
    refine (Fin.sum_univ_succ _).trans ?_
    simp

/-- The powers of the point and Horner's scheme give the same value. -/
theorem eval_powerSum (cs : List Scalar) (x : Scalar) : (powerSum cs).eval x = horner cs x := by
  rw [powerSum_eq_polyOf, eval_polyOf]

end SharingPolynomial

namespace Transcript

variable {G : Type} [CurveGroup G] {transcript : Transcript G} {cs : List Scalar} {root z : Scalar}
  {threshold : Nat}

/-- The transcript is one of the polynomial `d`, with the given root and number of
coefficients. -/
structure Presents (transcript : Transcript G) (d : Scalar[X]) (root : Scalar)
    (threshold : Nat) : Prop where
  count : transcript.coefficients.length = threshold
  root_eq : transcript.root = root
  eval_root : d.eval root = 0
  update_eq : ∀ update ∈ transcript.updates, update.update = d.eval update.domainPoint
  commitment_eq : ∀ update ∈ transcript.updates,
    update.commitment = d.eval update.domainPoint • generator

variable [LawfulCurveGroup G]

/-! ## What passes -/

theorem evaluate_polynomial (hcs : transcript.coefficients = cs.map (· • generator)) (x : Scalar) :
    transcript.polynomial.evaluate x = (SharingPolynomial.powerSum cs).eval x := by
  have hexponents : transcript.coefficients.map exponent = cs := by
    rw [hcs, List.map_map]
    refine (List.map_congr_left fun c _ => ?_).trans (List.map_id cs)
    rw [Function.comp_apply, exponent_smul, exponent_generator, mul_one, id]
  rw [polynomial, hexponents, SharingPolynomial.evaluate_ofCoefficients,
    SharingPolynomial.eval_powerSum]

theorem verifyRoot_eq_ok_iff_presents (hcs : transcript.coefficients = cs.map (· • generator))
    (ht : 0 < threshold) :
    (transcript.verifyRoot root threshold).result = .ok () ↔
      transcript.Presents (SharingPolynomial.powerSum cs) root threshold := by
  rw [verifyRoot_eq_ok]
  simp only [evaluate_polynomial hcs]
  constructor
  · intro h
    obtain ⟨hne, hcount, hroot, hzero, hupdates⟩ := h
    have hvalue : ∀ update ∈ transcript.updates,
        update.update = (SharingPolynomial.powerSum cs).eval update.domainPoint := by
      intro update hupdate
      rw [(hupdates update hupdate).update_eq, evaluate_polynomial hcs]
    refine ⟨(threshold_polynomial hne).symm.trans hcount, hroot, hzero, hvalue, ?_⟩
    intro update hupdate
    rw [(hupdates update hupdate).commitment_eq, hvalue update hupdate]
  · intro h
    -- Without coefficients no sum is formed, which the threshold excludes.
    have hne : transcript.coefficients ≠ [] := List.ne_nil_of_length_pos (h.count ▸ ht)
    refine ⟨hne, (threshold_polynomial hne).trans h.count, h.root_eq, h.eval_root, ?_⟩
    intro update hupdate
    constructor
    · rw [h.update_eq update hupdate, evaluate_polynomial hcs]
    · rw [h.commitment_eq update hupdate, h.update_eq update hupdate]

/-! ## What is sampled -/

variable {seats : List Seat} {strategy : DealerStrategy G} {e rest : Entropy}

theorem coefficients_ofPolynomial (hs : strategy.Standard) (d : SharingPolynomial) :
    (ofPolynomial seats root d strategy).coefficients = d.coefficients.map (· • generator) := by
  rw [ofPolynomial_eq]
  exact List.map_congr_left fun c _ => DealerStrategy.commit_eq hs c

/-- A polynomial is presented by its own transcript over any seats. -/
theorem presents_ofPolynomial (hs : strategy.Standard) {d : SharingPolynomial}
    (hroot : d.evaluate root = 0) :
    (ofPolynomial seats root d strategy).Presents (SharingPolynomial.powerSum d.coefficients) root
      d.threshold := by
  have heval : ∀ x, (SharingPolynomial.powerSum d.coefficients).eval x = d.evaluate x :=
    fun x => SharingPolynomial.eval_powerSum d.coefficients x
  rw [ofPolynomial_eq]
  refine ⟨List.length_map _, rfl, (heval root).trans hroot, ?_, ?_⟩
  · intro update hupdate
    obtain ⟨seat, -, rfl⟩ := List.mem_map.mp hupdate
    exact (heval seat.domainPoint).symm
  · intro update hupdate
    obtain ⟨seat, -, rfl⟩ := List.mem_map.mp hupdate
    rw [heval]
    exact DealerStrategy.commit_eq hs _

theorem verifyRoot_of_sample (hs : strategy.Standard)
    (h : (sample seats root threshold strategy e).result = .ok (transcript, rest)) :
    (transcript.verifyRoot root threshold).result = .ok () := by
  obtain ⟨ht, d, hdrawn, rfl⟩ := sample_eq_ok.mp h
  have hthreshold : (d.withRoot root).threshold = threshold :=
    (d.threshold_withRoot root).trans (SharingPolynomial.threshold_of_sample ht hdrawn)
  have hpresents : (ofPolynomial seats root (d.withRoot root) strategy).Presents _ root _ :=
    presents_ofPolynomial hs (d.evaluate_withRoot root)
  rw [hthreshold] at hpresents
  exact (verifyRoot_eq_ok_iff_presents (coefficients_ofPolynomial hs _) ht).mpr hpresents

/-- Transcripts pass exactly where they present the polynomial that their coefficients commit
to, with the expected root, and every sampled transcript passes. -/
theorem verification_exact (ht : 0 < threshold) (z : Scalar) :
    (∀ (transcript : Transcript G) (cs : List Scalar),
      transcript.coefficients = cs.map (· • generator) →
      ((transcript.verifyRefresh threshold).result = .ok () ↔
        transcript.Presents (SharingPolynomial.powerSum cs) 0 threshold) ∧
      ((transcript.verifyRecovery z threshold).result = .ok () ↔
        transcript.Presents (SharingPolynomial.powerSum cs) z threshold)) ∧
    ∀ (seats : List Seat) (strategy : DealerStrategy G) (e rest : Entropy)
      (transcript : Transcript G), strategy.Standard →
      ((refresh seats threshold strategy e).result = .ok (transcript, rest) →
        (transcript.verifyRefresh threshold).result = .ok ()) ∧
      ((recovery seats z threshold strategy e).result = .ok (transcript, rest) →
        (transcript.verifyRecovery z threshold).result = .ok ()) := by
  constructor
  · intro transcript cs hcs
    exact ⟨verifyRoot_eq_ok_iff_presents hcs ht, verifyRoot_eq_ok_iff_presents hcs ht⟩
  · intro seats strategy e rest transcript hs
    refine ⟨fun h => ?_, fun h => ?_⟩
    · exact verifyRoot_of_sample hs (refresh_eq_ok.mp h)
    · exact verifyRoot_of_sample hs (recovery_eq_ok.mp h).2

/-- The transcript of `x - 3` for the first two participants. -/
def vanishingAtThree : Transcript LogPoint :=
  ⟨3, [⟨-3⟩, ⟨1⟩], [⟨0, 1, -2, ⟨-2⟩⟩, ⟨1, 2, -1, ⟨-1⟩⟩]⟩

/-- A transcript sampled for the point three, and the same with a foreign update. -/
theorem verification_exact_root_three :
    (∃ rest, (recovery [⟨0, 1⟩, ⟨1, 2⟩] 3 2 (.simple : DealerStrategy LogPoint)
      (.ofList [4, 0, 0, 0, 1, 0, 0, 0])).result = .ok (vanishingAtThree, rest)) ∧
    (vanishingAtThree.verifyRecovery 3 2).result = .ok () ∧
    (verifyRecovery { vanishingAtThree with updates := [⟨0, 1, -1, ⟨-1⟩⟩] } 3 2).result ≠
      .ok () := by
  obtain ⟨hexact, hsampled⟩ := @verification_exact LogPoint _ 2 _ (by decide) 3
  have hdrawn : ∃ rest, (recovery [⟨0, 1⟩, ⟨1, 2⟩] 3 2 (.simple : DealerStrategy LogPoint)
      (.ofList [4, 0, 0, 0, 1, 0, 0, 0])).result = .ok (vanishingAtThree, rest) := ⟨_, rfl⟩
  obtain ⟨rest, hdrawn⟩ := hdrawn
  refine ⟨⟨rest, hdrawn⟩, (hsampled _ _ _ _ _ (.inl rfl)).2 hdrawn, ?_⟩
  intro hpasses
  have hcoefficients : ([⟨-3⟩, ⟨1⟩] : List LogPoint) = [-3, 1].map (· • generator) := by decide
  have hupdate := ((hexact _ [-3, 1] hcoefficients).2.mp hpasses).update_eq _ List.mem_cons_self
  rw [SharingPolynomial.eval_powerSum] at hupdate
  exact absurd hupdate (by decide)

end Transcript
end ThresholdCipher
