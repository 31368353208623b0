import ThresholdCipher.Proofs.BlindedRecovery
import ThresholdCipher.Proofs.Uniformity

/-
Refreshing and blinding hide the old values.

A polynomial that is given a root keeps the coefficients above its constant term, and these are
in bijection with its values at as many points away from the root.  Added to old values, the
new ones are again in bijection with the coefficients (`bijective_blinded`), so they are uniform
whatever the old ones are: after a refresh, where the root is zero, and after the transcript of
one helper for a lost share, where the root is the lost share's point.
-/

namespace ThresholdCipher

variable {k : Nat} {source : (Fin (k + 1) → Scalar) → Entropy}
  {points : Fin k → Scalar} {z : Scalar}

namespace SharingPolynomial

/-- The polynomial with a root and a vector of coefficients above the constant term. -/
def vanishing (z : Scalar) (upper : Fin k → Scalar) : SharingPolynomial :=
  (ofVector 0 upper).withRoot z

theorem threshold_vanishing (z : Scalar) (upper : Fin k → Scalar) :
    (vanishing z upper).threshold = k + 1 := threshold_ofVector _ upper

theorem evaluate_vanishing (z : Scalar) (upper : Fin k → Scalar) :
    (vanishing z upper).evaluate z = 0 := evaluate_withRoot _ z

/-- The constant term that a polynomial had before has no part in the one with the root. -/
theorem withRoot_ofVector (constant : Scalar) (upper : Fin k → Scalar) :
    (ofVector constant upper).withRoot z = vanishing z upper := by
  have hconstant : constant - (ofVector constant upper).evaluate z =
      0 - (ofVector 0 upper).evaluate z := by
    rw [evaluate_eq, evaluate_eq]
    show constant - (horner (List.ofFn upper) z * z + constant) =
      0 - (horner (List.ofFn upper) z * z + 0)
    ring
  exact congrArg (fun c => ofVector c upper) hconstant

theorem exists_eq_vanishing {d : SharingPolynomial} (hthreshold : d.threshold = k + 1)
    (hroot : d.evaluate z = 0) : ∃ upper : Fin k → Scalar, d = vanishing z upper := by
  obtain ⟨upper, hupper⟩ := exists_eq_ofVector hthreshold
  refine ⟨upper, ?_⟩
  have hsame : d = d.withRoot z := by rw [withRoot, hroot, sub_zero, withConstant]
  rw [hsame, hupper, withRoot_ofVector]

theorem bijective_vanishing (hpoints : Function.Injective points) (hz : ∀ i, points i ≠ z) :
    Function.Bijective fun (upper : Fin k → Scalar) i => (vanishing z upper).evaluate (points i) :=
  bijective_evaluate hpoints hz fun upper => evaluate_vanishing z upper

/-- Values with a vanishing polynomial's added to them, whatever they were. -/
theorem bijective_blinded (hpoints : Function.Injective points) (hz : ∀ i, points i ≠ z)
    (old : Fin k → Scalar) :
    Function.Bijective fun (upper : Fin k → Scalar) i =>
      old i + (vanishing z upper).evaluate (points i) := by
  have hshift : Function.Bijective fun (values : Fin k → Scalar) i => old i + values i :=
    AddGroup.addLeft_bijective old
  exact hshift.comp (bijective_vanishing hpoints hz)

/-- One polynomial with a root takes given values at other points. -/
theorem existsUnique_vanishing (hpoints : Function.Injective points) (hz : ∀ i, points i ≠ z)
    (values : Fin k → Scalar) :
    ∃! d : SharingPolynomial, d.threshold = k + 1 ∧ d.evaluate z = 0 ∧
      ∀ i, d.evaluate (points i) = values i := by
  obtain ⟨upper, hupper⟩ := (bijective_vanishing hpoints hz).2 values
  refine ⟨vanishing z upper, ⟨threshold_vanishing z upper, evaluate_vanishing z upper,
    congrFun hupper⟩, ?_⟩
  intro d hd
  obtain ⟨hthreshold, hroot, hvalues⟩ := hd
  refine ext_of_evaluate_cons hpoints hz hthreshold (threshold_vanishing z upper)
    (hroot.trans (evaluate_vanishing z upper).symm) fun i => ?_
  exact (hvalues i).trans (congrFun hupper i).symm

/-- Sampling with a root shows the coefficients above the constant term. -/
theorem sample_withRoot_uniformOver (hsource : Entropy.Draws source) (z : Scalar) :
    UniformOver
      (fun draws => (sample? (k + 1) (source draws)).map fun drawn => drawn.1.withRoot z)
      (fun upper => some (vanishing z upper)) := by
  refine UniformOver.of_bijective Function.bijective_id ?_ ?_
  · intro upper upper' h
    exact ofVector_injective (Option.some.inj h)
  · intro draws
    obtain ⟨rest, hdrawn⟩ := hsource.sample? draws
    rw [hdrawn, Option.map_some, withRoot_ofVector]
    rfl

end SharingPolynomial

/-! ## Refreshing -/

namespace KeyShare

open SharingPolynomial (vanishing)

/-- Refreshing adds the values of the sampled polynomial after it is given the root zero. -/
theorem refreshAll_of_sample {threshold : Nat} {e rest : Entropy} {drawn : SharingPolynomial}
    (hpos : 0 < threshold)
    (h : SharingPolynomial.sample? threshold e = some (drawn, rest)) (shares : List KeyShare) :
    (refreshAll shares threshold e).result =
      .ok (shares.map (blind (drawn.withRoot 0)), rest) :=
  refreshAll_eq_ok.mpr ⟨hpos, drawn, h, rfl⟩

theorem refreshAll_of_draws (hsource : Entropy.Draws source) (shares : List KeyShare)
    (draws : Fin (k + 1) → Scalar) :
    ∃ rest, (refreshAll shares (k + 1) (source draws)).result =
      .ok (shares.map (blind (vanishing 0 (Fin.tail draws))), rest) := by
  obtain ⟨rest, hdrawn⟩ := hsource.sample? draws
  refine ⟨rest, ?_⟩
  rw [refreshAll_of_sample (Nat.succ_pos k) hdrawn, SharingPolynomial.withRoot_ofVector]

/-- Refreshed shares keep their seats, and any `k` of them have uniform values. -/
theorem refreshAll_uniformOver (hsource : Entropy.Draws source) (shares : List KeyShare)
    (chosen : Fin k → Fin shares.length)
    (hpoints : Function.Injective fun i => (shares.get (chosen i)).domainPoint)
    (hzero : ∀ i, (shares.get (chosen i)).domainPoint ≠ 0) :
    UniformOver
      (fun draws => (refreshAll shares (k + 1) (source draws)).result.map
        fun refreshed i => refreshed.1[(chosen i).val]?)
      (fun values => .ok fun i => some { shares.get (chosen i) with value := values i }) := by
  have hvalues := SharingPolynomial.bijective_blinded hpoints hzero
    fun i => (shares.get (chosen i)).value
  refine UniformOver.of_bijective hvalues
    (injective_shares _ _ (Option.some_injective KeyShare)) fun draws => ?_
  obtain ⟨rest, hrefreshed⟩ := refreshAll_of_draws hsource shares draws
  rw [hrefreshed]
  refine congrArg Except.ok (funext fun i => ?_)
  show (shares.map _)[(chosen i).val]? = _
  rw [List.getElem?_map, List.getElem?_eq_getElem (chosen i).isLt]
  rfl

end KeyShare

/-! ## Blinding for a recovery -/

section

variable {G : Type} {before after : List (Transcript G)} {transcript : Transcript G}
  {share moved : KeyShare} {update : ShareUpdate G}

/-- One more transcript, wherever it stands among the others, adds its own update. -/
theorem KeyShare.applyTranscripts_insert
    (h : share.applyTranscripts (before ++ after) = .ok moved)
    (hupdate : transcript.requireUpdate share.participant = .ok update)
    (hpoint : update.domainPoint = share.domainPoint) :
    share.applyTranscripts (before ++ transcript :: after) =
      .ok { share with value := moved.value + update.update } := by
  obtain ⟨updates, hupdates, happlied⟩ := applyTranscripts_eq_ok.mp h
  obtain ⟨hseats, rfl⟩ := applyUpdates_eq_ok.mp happlied
  rw [List.mapM_append] at hupdates
  obtain ⟨front, hfront, hupdates⟩ := Outcome.bind_eq_ok.mp hupdates
  obtain ⟨back, hback, hupdates⟩ := Outcome.bind_eq_ok.mp hupdates
  cases hupdates
  have hinserted : (before ++ transcript :: after).mapM (·.requireUpdate share.participant) =
      .ok (front ++ update :: back) := by
    rw [List.mapM_append, List.mapM_cons, hfront, hupdate, hback]
    rfl
  have hown := (Transcript.mem_of_update? (Transcript.requireUpdate_eq_ok.mp hupdate)).2
  refine applyTranscripts_eq_ok.mpr ⟨_, hinserted, applyUpdates_eq_ok.mpr ⟨?_, ?_⟩⟩
  · intro u hu
    rcases List.mem_append.mp hu with hfrontMem | hu
    · exact hseats u (List.mem_append_left _ hfrontMem)
    rcases List.mem_cons.mp hu with rfl | hbackMem
    · exact ⟨hown, hpoint⟩
    · exact hseats u (List.mem_append_right _ hbackMem)
  · rw [KeyShare.mk.injEq]
    refine ⟨rfl, rfl, ?_⟩
    simp only [List.map_append, List.map_cons, List.sum_append, List.sum_cons]
    ring

variable [CurveGroup G] {seats : List Seat} {target : Scalar}

namespace Transcript

/-- The update for a participant is the value at the first of its seats. -/
theorem requireUpdate_ofPolynomial {p : Participant} {x : Scalar}
    (hseat : seats.find? (·.participant = p) = some ⟨p, x⟩) (root : Scalar)
    (f : SharingPolynomial) (strategy : DealerStrategy G) :
    (ofPolynomial seats root f strategy).requireUpdate p =
      .ok ⟨p, x, f.evaluate x, strategy.commit (f.evaluate x)⟩ := by
  rw [requireUpdate_eq_ok, update?, ofPolynomial_eq, List.find?_map]
  show (seats.find? (·.participant = p)).map _ = _
  rw [hseat]
  rfl

theorem recovery_of_draws (hsource : Entropy.Draws source)
    (hfree : ∀ seat ∈ seats, seat.domainPoint ≠ target) (strategy : DealerStrategy G)
    (draws : Fin (k + 1) → Scalar) :
    ∃ rest, (recovery seats target (k + 1) strategy (source draws)).result =
      .ok (ofPolynomial seats target (.vanishing target (Fin.tail draws)) strategy, rest) := by
  obtain ⟨rest, hdrawn⟩ := hsource.sample? draws
  refine ⟨rest, recovery_eq_ok.mpr ⟨hfree, sample_eq_ok.mpr ⟨Nat.succ_pos k, _, hdrawn, ?_⟩⟩⟩
  rw [SharingPolynomial.withRoot_ofVector]

end Transcript

/-- One transcript for a recovery, among any others, leaves `k` shares with their seats and
uniform values. -/
theorem KeyShare.applyRecovery_uniformOver (hsource : Entropy.Draws source)
    (hfree : ∀ seat ∈ seats, seat.domainPoint ≠ target) (strategy : DealerStrategy G)
    (shares : Fin k → KeyShare)
    (hpoints : Function.Injective fun i => (shares i).domainPoint)
    (hseats : ∀ i, seats.find? (·.participant = (shares i).participant) =
      some ⟨(shares i).participant, (shares i).domainPoint⟩)
    (hothers : ∀ i, ∀ transcript ∈ before ++ after, transcript.Updates (shares i)) :
    UniformOver
      (fun draws => (Transcript.recovery seats target (k + 1) strategy (source draws)).result.map
        fun made i => (shares i).applyTranscripts (before ++ made.1 :: after))
      (fun values => .ok fun i => .ok { shares i with value := values i }) := by
  have hmoved := fun i => exists_applyTranscripts_iff.mpr (hothers i)
  choose moved hmoved using hmoved
  have htarget : ∀ i, (shares i).domainPoint ≠ target := fun i =>
    hfree _ (List.mem_of_find?_eq_some (hseats i))
  have hvalues := SharingPolynomial.bijective_blinded hpoints htarget fun i => (moved i).value
  refine UniformOver.of_bijective hvalues
    (injective_shares _ _ fun _ _ h => Except.ok.inj h) fun draws => ?_
  obtain ⟨rest, hmade⟩ := Transcript.recovery_of_draws hsource hfree strategy draws
  rw [hmade]
  refine congrArg Except.ok (funext fun i => ?_)
  have hupdate := Transcript.requireUpdate_ofPolynomial (hseats i) target
    (.vanishing target (Fin.tail draws)) strategy
  have hinserted := applyTranscripts_insert (hmoved i) hupdate rfl
  exact hinserted

/-- One polynomial with a given root takes given values at `k` other points, and as many draws
sample it as there are scalars.  So the values of any `k` shares are uniform and independent of
the old ones after a refresh, and after the transcript of one helper is added for a recovery,
whatever the other helpers' transcripts are. -/
theorem blinding_uniform (hsource : Entropy.Draws source) :
    (∀ (z : Scalar) (points values : Fin k → Scalar), Function.Injective points →
      (∀ i, points i ≠ z) →
        ∃! d : SharingPolynomial, d.threshold = k + 1 ∧ d.evaluate z = 0 ∧
          ∀ i, d.evaluate (points i) = values i) ∧
    (∀ (z : Scalar) (d : SharingPolynomial), d.threshold = k + 1 → d.evaluate z = 0 →
      Nat.card {draws // (SharingPolynomial.sample? (k + 1) (source draws)).map
        (fun drawn => drawn.1.withRoot z) = some d} = groupOrder) ∧
    (∀ (shares : List KeyShare) (chosen : Fin k → Fin shares.length),
      Function.Injective (fun i => (shares.get (chosen i)).domainPoint) →
      (∀ i, (shares.get (chosen i)).domainPoint ≠ 0) →
        UniformOver
          (fun draws => (KeyShare.refreshAll shares (k + 1) (source draws)).result.map
            fun refreshed i => refreshed.1[(chosen i).val]?)
          (fun values => .ok fun i => some { shares.get (chosen i) with value := values i })) ∧
    (∀ (seats : List Seat) (target : Scalar) (strategy : DealerStrategy G)
      (before after : List (Transcript G)) (shares : Fin k → KeyShare),
      (∀ seat ∈ seats, seat.domainPoint ≠ target) →
      Function.Injective (fun i => (shares i).domainPoint) →
      (∀ i, seats.find? (·.participant = (shares i).participant) =
        some ⟨(shares i).participant, (shares i).domainPoint⟩) →
      (∀ i, ∀ transcript ∈ before ++ after, transcript.Updates (shares i)) →
        UniformOver
          (fun draws =>
            (Transcript.recovery seats target (k + 1) strategy (source draws)).result.map
              fun made i => (shares i).applyTranscripts (before ++ made.1 :: after))
          (fun values => .ok fun i => .ok { shares i with value := values i })) := by
  refine ⟨?_, ?_, ?_, ?_⟩
  · intro z points values hpoints hz
    exact SharingPolynomial.existsUnique_vanishing hpoints hz values
  · intro z d hthreshold hroot
    obtain ⟨upper, rfl⟩ := SharingPolynomial.exists_eq_vanishing hthreshold hroot
    exact (SharingPolynomial.sample_withRoot_uniformOver hsource z).card upper
  · intro shares chosen hpoints hzero
    exact KeyShare.refreshAll_uniformOver hsource shares chosen hpoints hzero
  · intro seats target strategy before after shares hfree hpoints hseats hothers
    exact KeyShare.applyRecovery_uniformOver hsource hfree strategy shares hpoints hseats hothers

end

/-- With two coefficients: the polynomial `x - 3`, the second of two shares refreshed, and the
first of them blinded for a recovery at three, after another transcript. -/
theorem blinding_uniform_two_coefficients :
    (∃! d : SharingPolynomial, d.threshold = 2 ∧ d.evaluate 3 = 0 ∧
      ∀ _ : Fin 1, d.evaluate 1 = -2) ∧
    Nat.card {draws : Fin 2 → Scalar // (SharingPolynomial.sample? 2
      (.ofScalars (List.ofFn draws) 0)).map (fun drawn => drawn.1.withRoot 3) =
        some ⟨-3, [1]⟩} = groupOrder ∧
    UniformOver
      (fun draws : Fin 2 → Scalar => (KeyShare.refreshAll [⟨0, 1, 8⟩, ⟨1, 2, 11⟩] 2
        (.ofScalars (List.ofFn draws) 0)).result.map fun refreshed (_ : Fin 1) => refreshed.1[1]?)
      (fun values => .ok fun i => some ⟨1, 2, values i⟩) ∧
    UniformOver
      (fun draws : Fin 2 → Scalar => (Transcript.recovery [⟨0, 1⟩, ⟨1, 2⟩] 3 2
        (.simple : DealerStrategy LogPoint) (.ofScalars (List.ofFn draws) 0)).result.map
          fun made (_ : Fin 1) =>
            KeyShare.applyTranscripts ⟨0, 1, 8⟩ [Transcript.vanishingAtThree, made.1])
      (fun values => .ok fun i => .ok ⟨0, 1, values i⟩) := by
  obtain ⟨hunique, hcard, hrefresh, hrecovery⟩ :=
    blinding_uniform (G := LogPoint) (k := 1) (Entropy.draws_ofScalars 2)
  have hupdates : ∀ transcript ∈ [Transcript.vanishingAtThree],
      transcript.Updates ⟨0, 1, 8⟩ := by
    intro transcript htranscript
    rw [List.mem_singleton.mp htranscript]
    exact ⟨⟨0, 1, -2, ⟨-2⟩⟩, by decide, rfl⟩
  refine ⟨?_, ?_, ?_, ?_⟩
  · exact hunique 3 (fun _ => 1) (fun _ => -2) (Function.injective_of_subsingleton _) (by decide)
  · exact hcard 3 ⟨-3, [1]⟩ rfl (by decide)
  · exact hrefresh [⟨0, 1, 8⟩, ⟨1, 2, 11⟩] (fun _ => 1) (Function.injective_of_subsingleton _)
      (by decide)
  · exact hrecovery [⟨0, 1⟩, ⟨1, 2⟩] 3 .simple [Transcript.vanishingAtThree] []
      (fun _ => ⟨0, 1, 8⟩) (by decide) (Function.injective_of_subsingleton _) (by decide)
      fun _ => hupdates

end ThresholdCipher
