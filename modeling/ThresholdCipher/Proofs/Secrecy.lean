import ThresholdCipher.Proofs.Dealing
import ThresholdCipher.Proofs.Uniformity

/-
Perfect secrecy below the threshold.

The dealer overwrites the constant term that it drew with the secret and keeps the other
coefficients.  The secret is the value at zero, where nobody's point is, so these coefficients
are in bijection with the values of any coalition one short of the threshold, whatever the
secret is.
-/

namespace ThresholdCipher
namespace Dealing

variable {G : Type} [CurveGroup G] {parameters : Parameters} {strategy : DealerStrategy G}

/-- A participant's share stands at the place of its index. -/
theorem getElem?_shares_ofPolynomial {p : Participant} (hp : p.toNat < parameters.parties)
    (f : SharingPolynomial) :
    (ofPolynomial parameters f strategy).shares[p.toNat]? =
      some ⟨p, Scalar.domainPoint p, f.evaluate (Scalar.domainPoint p)⟩ := by
  show (parameters.participants.map fun p =>
    KeyShare.mk p (Scalar.domainPoint p) (f.evaluate (Scalar.domainPoint p)))[p.toNat]? = _
  rw [Parameters.participants, List.map_map, List.getElem?_map, List.getElem?_range hp,
    Option.map_some, Function.comp_apply, UInt64.ofNat_toNat]

variable {k : Nat} {source : (Fin (k + 1) → Scalar) → Entropy}

/-- The first draw is spent on a constant term that the secret replaces. -/
theorem dealSecret_of_draws (hvalid : parameters.validate = .ok ())
    (hthreshold : parameters.threshold = k + 1) (hsource : Entropy.Draws source)
    (secret : Scalar) (strategy : DealerStrategy G) (draws : Fin (k + 1) → Scalar) :
    ∃ rest, (dealSecret parameters secret strategy (source draws)).result =
      .ok (ofPolynomial parameters (.ofVector secret (Fin.tail draws)) strategy, rest) := by
  obtain ⟨rest, hdrawn⟩ := hsource.sample? draws
  refine ⟨rest, dealSecret_eq_ok.mpr ⟨hvalid, .ofVector (draws 0) (Fin.tail draws), ?_, rfl⟩⟩
  rw [hthreshold]
  exact hdrawn

/-- Of all the draws with which a secret can be dealt, those that give a coalition one short of
the threshold any chosen values are as many as there are scalars, one for each first draw.  What
the coalition holds is its seats and uniform values, and the secret has no part in it. -/
theorem dealSecret_uniformOver (hvalid : parameters.validate = .ok ())
    (hthreshold : parameters.threshold = k + 1) (coalition : Fin k → Participant)
    (hdistinct : Function.Injective coalition)
    (hbelow : ∀ i, (coalition i).toNat < parameters.parties) (hsource : Entropy.Draws source)
    (secret : Scalar) (strategy : DealerStrategy G) :
    UniformOver
      (fun draws => (dealSecret parameters secret strategy (source draws)).result.map
        fun dealt i => dealt.1.shares[(coalition i).toNat]?)
      (fun values => .ok fun i =>
        some ⟨coalition i, Scalar.domainPoint (coalition i), values i⟩) := by
  have hvalues : Function.Bijective fun upper i =>
      (SharingPolynomial.ofVector secret upper).evaluate (Scalar.domainPoint (coalition i)) :=
    SharingPolynomial.bijective_evaluate (Scalar.domainPoint_injective.comp hdistinct)
      (fun i => Scalar.domainPoint_ne_zero (coalition i))
      fun upper => SharingPolynomial.evaluate_zero (.ofVector secret upper)
  refine UniformOver.of_bijective hvalues
    (injective_shares _ _ (Option.some_injective KeyShare)) fun draws => ?_
  obtain ⟨rest, hdealt⟩ := dealSecret_of_draws hvalid hthreshold hsource secret strategy draws
  rw [hdealt]
  refine congrArg Except.ok (funext fun i => ?_)
  exact getElem?_shares_ofPolynomial (hbelow i) _

/-- One of three participants, two of whom determine the secret. -/
theorem dealSecret_uniformOver_one_of_three :
    UniformOver
      (fun draws : Fin 2 → Scalar => (dealSecret ⟨3, 2, .blst⟩ 5 (.simple : DealerStrategy LogPoint)
        (.ofScalars (List.ofFn draws) 0)).result.map fun dealt (_ : Fin 1) => dealt.1.shares[1]?)
      (fun values => .ok fun i => some ⟨1, Scalar.domainPoint 1, values i⟩) :=
  dealSecret_uniformOver (by decide) rfl (fun _ => 1) (Function.injective_of_subsingleton _)
    (by decide) (Entropy.draws_ofScalars 2) 5 .simple

end Dealing
end ThresholdCipher
