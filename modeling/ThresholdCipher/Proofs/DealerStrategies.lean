import ThresholdCipher.Renewal
import ThresholdCipher.Proofs.Dealing

/-
A dealer's strategy shows in the journal alone.

All that an operation takes from its strategy, besides a name for the journal, are the
commitments to one batch of values.  Dealings and transcripts are therefore the same under
two strategies that commit to batches alike (`result_deal_congr` and the lemmas like it), and
a strategy with the table of the generator commits as the one without a table does
(`commitMany_tabled`).
-/

namespace ThresholdCipher

variable {G : Type} [CurveGroup G]

namespace DealerStrategy

theorem commitMany_tabled [LawfulCurveGroup G] :
    (simple : DealerStrategy G).commitMany =
      (precomputed (WindowTable.new generator).value).commitMany := by
  funext values
  exact List.map_congr_left fun s _ => (WindowTable.mul_build generator s).symm

end DealerStrategy

variable {strategy strategy' : DealerStrategy G}

/-! ## Dealing -/

namespace Dealing

variable (h : strategy.commitMany = strategy'.commitMany)
include h

theorem ofPolynomial_congr (parameters : Parameters) (f : SharingPolynomial) :
    ofPolynomial parameters f strategy = ofPolynomial parameters f strategy' := by
  simp only [ofPolynomial, h]

theorem result_deal_congr (parameters : Parameters) (e : Entropy) :
    (deal parameters strategy e).result = (deal parameters strategy' e).result := by
  rw [deal, deal, Attempt.result_liftM_bind, Attempt.result_liftM_bind]
  simp only [ofPolynomial_congr h]

theorem result_dealForScheme_congr (parameters : Parameters) (e : Entropy) :
    (dealForScheme parameters strategy e).result =
      (dealForScheme parameters strategy' e).result := by
  rw [dealForScheme, dealForScheme, Attempt.result_liftM_bind, Attempt.result_liftM_bind,
    result_deal_congr h]

theorem result_dealSecret_congr (parameters : Parameters) (secret : Scalar) (e : Entropy) :
    (dealSecret parameters secret strategy e).result =
      (dealSecret parameters secret strategy' e).result := by
  rw [dealSecret, dealSecret, Attempt.result_liftM_bind, Attempt.result_liftM_bind]
  simp only [ofPolynomial_congr h]

end Dealing

/-! ## Transcripts -/

namespace Transcript

variable (h : strategy.commitMany = strategy'.commitMany)
include h

theorem ofPolynomial_congr (seats : List Seat) (root : Scalar) (f : SharingPolynomial) :
    ofPolynomial seats root f strategy = ofPolynomial seats root f strategy' := by
  rw [ofPolynomial, ofPolynomial, h]

theorem sample_congr (seats : List Seat) (root : Scalar) (threshold : Nat) (e : Entropy) :
    sample seats root threshold strategy e = sample seats root threshold strategy' e := by
  simp only [sample, ofPolynomial_congr h]

theorem refresh_congr (seats : List Seat) (threshold : Nat) (e : Entropy) :
    refresh seats threshold strategy e = refresh seats threshold strategy' e := by
  rw [refresh, refresh, sample_congr h]

theorem recovery_congr (seats : List Seat) (target : Scalar) (threshold : Nat) (e : Entropy) :
    recovery seats target threshold strategy e = recovery seats target threshold strategy' e := by
  rw [recovery, recovery, sample_congr h]

end Transcript

theorem VerificationVector.refresh_congr (h : strategy.commitMany = strategy'.commitMany)
    (vector : VerificationVector G) (shares : List KeyShare) (threshold : Nat) (e : Entropy) :
    vector.refresh shares threshold strategy e = vector.refresh shares threshold strategy' e := by
  simp only [refresh, Transcript.refresh_congr h]

/-! ## The strategies of a dealer -/

namespace DealerStrategy

/-- An operation has the same outcome without a table as with the table of the generator.  With
the value, if there is one, the outcome has the rest of the source, and so the number of
words drawn.  As it is the same for sources of every length, the operation also runs dry at the
same word, whatever error it would end in with more. -/
def Interchangeable {α : Type}
    (operation : DealerStrategy G → Entropy → Attempt (α × Entropy)) : Prop :=
  ∀ e, (operation simple e).result =
    (operation (precomputed (WindowTable.new generator).value) e).result

/-- Every operation that commits has the same outcome, value or error, under both strategies. -/
theorem strategies_interchangeable [LawfulCurveGroup G] (parameters : Parameters)
    (secret target : Scalar) (seats : List Seat) (threshold : Nat)
    (vector : VerificationVector G) (shares : List KeyShare) :
    Interchangeable (G := G) (Dealing.deal parameters) ∧
    Interchangeable (G := G) (Dealing.dealForScheme parameters) ∧
    Interchangeable (G := G) (Dealing.dealSecret parameters secret) ∧
    Interchangeable (G := G) (Transcript.refresh seats threshold) ∧
    Interchangeable (G := G) (Transcript.recovery seats target threshold) ∧
    Interchangeable (vector.refresh shares threshold) := by
  refine ⟨?_, ?_, ?_, ?_, ?_, ?_⟩
  · exact Dealing.result_deal_congr commitMany_tabled parameters
  · exact Dealing.result_dealForScheme_congr commitMany_tabled parameters
  · exact Dealing.result_dealSecret_congr commitMany_tabled parameters secret
  · intro e
    rw [Transcript.refresh_congr commitMany_tabled]
  · intro e
    rw [Transcript.recovery_congr commitMany_tabled]
  · intro e
    rw [VerificationVector.refresh_congr commitMany_tabled]

/-- The small dealing and its refresh by `3 * x`, both with the table. -/
theorem strategies_interchangeable_small_dealing :
    (∃ rest, (Dealing.deal ⟨3, 2, .blst⟩
      (precomputed (WindowTable.new (generator : LogPoint)).value)
      (.ofList [5, 0, 0, 0, 3, 0, 0, 0])).result = .ok (LogPoint.dealing, rest)) ∧
    ∃ vector rest, (LogPoint.dealing.vector.refresh LogPoint.dealing.shares 2
      (precomputed (WindowTable.new generator).value) (.ofList [9, 0, 0, 0, 3, 0, 0, 0])).result =
        .ok (([⟨0, 1, 11⟩, ⟨1, 2, 17⟩, ⟨2, 3, 23⟩], vector), rest) := by
  obtain ⟨hdeal, -, -, -, -, hrefresh⟩ := strategies_interchangeable (G := LogPoint) ⟨3, 2, .blst⟩
    5 0 LogPoint.dealing.vector.seats 2 LogPoint.dealing.vector LogPoint.dealing.shares
  rw [← hdeal, ← hrefresh]
  exact ⟨⟨_, rfl⟩, _, _, rfl⟩

end DealerStrategy
end ThresholdCipher
