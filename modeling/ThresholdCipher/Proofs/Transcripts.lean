import ThresholdCipher.Proofs.Dealing

/-
What a verified transcript moves, on both sides.

The coefficients of a transcript commit to a polynomial.  Verification accepts it
where this polynomial has the right number of coefficients and the right root, and
every update is its value at the update's own point.  Shares take their
participant's updates only at their own point, while commitments take them at any:
the two sides agree exactly where each transcript addresses every participant at
the point that the vector has for it (`applyRefresh_sound_iff`).
-/

namespace ThresholdCipher

variable {G : Type}

namespace Transcript

variable {transcript : Transcript G} {p : Participant} {update : ShareUpdate G}

theorem requireUpdate_eq_ok :
    transcript.requireUpdate p = .ok update ↔ transcript.update? p = some update := by
  unfold requireUpdate
  cases transcript.update? p with
  | none => exact ⟨fun h => (nomatch h), fun h => (nomatch h)⟩
  | some u => rw [Except.ok.injEq, Option.some.injEq]

theorem mem_of_update? (h : transcript.update? p = some update) :
    update ∈ transcript.updates ∧ update.participant = p :=
  ⟨List.mem_of_find?_eq_some h, by simpa using List.find?_some h⟩

/-- The updates are for the points that the vector has for their participants. -/
def Addresses (transcript : Transcript G) (vector : VerificationVector G) : Prop :=
  ∀ entry ∈ vector.entries, ∀ update, transcript.update? entry.participant = some update →
    update.domainPoint = entry.domainPoint

variable [CurveGroup G]

/-- The two parts of the batch are the commitments to the coefficients and to the updates. -/
theorem ofPolynomial_eq (seats : List Seat) (root : Scalar) (f : SharingPolynomial)
    (strategy : DealerStrategy G) :
    ofPolynomial seats root f strategy =
      { root := root
        coefficients := f.coefficients.map strategy.commit
        updates := seats.map fun seat =>
          ⟨seat.participant, seat.domainPoint, f.evaluate seat.domainPoint,
            strategy.commit (f.evaluate seat.domainPoint)⟩ } := by
  have hlength : (f.coefficients.map strategy.commit).length = f.threshold := List.length_map _
  simp only [ofPolynomial, DealerStrategy.commitMany_eq_map, List.map_append,
    List.take_left' hlength, List.drop_left' hlength, List.map_map, List.zip_map',
    List.zipWith_map_right, List.zipWith_self, Function.comp_def]

theorem addresses_ofPolynomial {vector : VerificationVector G} {root : Scalar}
    {polynomial : SharingPolynomial} {strategy : DealerStrategy G}
    (hnodup : (vector.entries.map (·.participant)).Nodup) :
    (ofPolynomial vector.seats root polynomial strategy).Addresses vector := by
  rw [ofPolynomial_eq]
  intro entry hentry update hupdate
  obtain ⟨hmem, hp⟩ := mem_of_update? hupdate
  obtain ⟨seat, hseat, rfl⟩ := List.mem_map.mp hmem
  obtain ⟨own, hown, rfl⟩ := List.mem_map.mp hseat
  rw [VerificationVector.eq_of_participant_eq hnodup hown hentry hp]

variable {root z : Scalar} {threshold : Nat}

/-! ## Sampling -/

section

variable {seats : List Seat} {strategy : DealerStrategy G} {e rest : Entropy}

/-- Where a threshold of zero is refused, anything may be made of the drawn polynomial. -/
theorem sampled_eq_ok {α : Type} (make : SharingPolynomial → α) {a : α} :
    (if threshold = 0 then Attempt.refuse (.invalidParameters .thresholdZero)
      else do
        let (d, e) ← Attempt.drawn (SharingPolynomial.sample? threshold e)
        return (make d, e) : Attempt (α × Entropy)).result = .ok (a, rest) ↔
      0 < threshold ∧ ∃ d, SharingPolynomial.sample? threshold e = some (d, rest) ∧
        make d = a := by
  rw [Attempt.result_ite]
  by_cases hzero : threshold = 0
  · rw [if_pos hzero]
    exact ⟨fun h => (nomatch h), fun h => absurd hzero h.1.ne'⟩
  · rw [if_neg hzero, Attempt.result_bind_eq_ok]
    constructor
    · intro h
      obtain ⟨⟨d, rest'⟩, hdrawn, h⟩ := h
      rw [Attempt.result_drawn_eq_ok] at hdrawn
      cases h
      exact ⟨Nat.pos_of_ne_zero hzero, d, hdrawn, rfl⟩
    · intro h
      obtain ⟨-, d, hdrawn, rfl⟩ := h
      exact ⟨(d, rest), Attempt.result_drawn_eq_ok.mpr hdrawn, rfl⟩

theorem sample_eq_ok :
    (sample seats root threshold strategy e).result = .ok (transcript, rest) ↔
      0 < threshold ∧ ∃ d, SharingPolynomial.sample? threshold e = some (d, rest) ∧
        ofPolynomial seats root (d.withRoot root) strategy = transcript :=
  sampled_eq_ok fun d => ofPolynomial seats root (d.withRoot root) strategy

theorem refresh_eq_ok :
    (refresh seats threshold strategy e).result = .ok (transcript, rest) ↔
      (sample seats 0 threshold strategy e).result = .ok (transcript, rest) := by
  rw [refresh, Attempt.result_liftM_bind]

theorem recovery_eq_ok :
    (recovery seats z threshold strategy e).result = .ok (transcript, rest) ↔
      (∀ seat ∈ seats, seat.domainPoint ≠ z) ∧
        (sample seats z threshold strategy e).result = .ok (transcript, rest) := by
  rw [recovery, Attempt.result_liftM_bind, Attempt.result_ite]
  by_cases htaken : seats.any (·.domainPoint = z)
  · rw [if_pos htaken]
    obtain ⟨seat, hseat, hz⟩ := List.any_eq_true.mp htaken
    exact ⟨fun h => (nomatch h), fun h => absurd (of_decide_eq_true hz) (h.1 seat hseat)⟩
  · rw [if_neg htaken]
    refine ⟨fun h => ⟨?_, h⟩, fun h => h.2⟩
    intro seat hseat hz
    exact htaken (List.any_eq_true.mpr ⟨seat, hseat, decide_eq_true hz⟩)

end

/-! ## Verification -/

variable [LawfulCurveGroup G]

/-- The polynomial that the coefficients commit to. -/
noncomputable def polynomial (transcript : Transcript G) : SharingPolynomial :=
  .ofCoefficients (transcript.coefficients.map exponent)

/-- An update that is the polynomial's value at its point, with the commitment to it. -/
structure IsValue (transcript : Transcript G) (update : ShareUpdate G) : Prop where
  update_eq : update.update = transcript.polynomial.evaluate update.domainPoint
  commitment_eq : update.commitment = update.update • generator

theorem commitmentAt_eq_ok {x : Scalar} {q : G} :
    transcript.commitmentAt x = .ok q ↔
      transcript.coefficients ≠ [] ∧ transcript.polynomial.evaluate x • generator = q := by
  have hlen : transcript.coefficients.length =
      (powers x transcript.coefficients.length).length := (length_iterates _ _ _).symm
  have hsum : (List.zipWith (fun p w => w • p) transcript.coefficients
      (powers x transcript.coefficients.length)).sum =
      transcript.polynomial.evaluate x • (generator : G) := by
    rw [← exponent_eq_iff, exponent_sum, polynomial, SharingPolynomial.evaluate_ofCoefficients,
      ← SharingPolynomial.sum_powers, List.length_map, List.map_zipWith, List.zipWith_map_left]
    simp only [exponent_smul]
  rw [commitmentAt, weightedSum_eq_ok, hsum]
  exact ⟨fun h => h.2, fun h => ⟨hlen, h⟩⟩

theorem threshold_polynomial (h : transcript.coefficients ≠ []) :
    transcript.polynomial.threshold = transcript.coefficients.length := by
  rw [polynomial, SharingPolynomial.threshold_ofCoefficients (mt List.map_eq_nil_iff.mp h),
    List.length_map]

theorem verifyUpdate_eq_ok :
    (transcript.verifyUpdate update).result = .ok () ↔
      transcript.coefficients ≠ [] ∧ transcript.IsValue update := by
  rw [verifyUpdate, Attempt.result_bind_eq_ok]
  simp only [Attempt.result_ofExcept, commitmentAt_eq_ok, Attempt.result_ite]
  constructor
  · rintro ⟨_, ⟨hne, rfl⟩, h⟩
    split at h
    next hboth =>
      obtain ⟨hopens, hon⟩ := (Bool.and_eq_true _ _).mp hboth
      have hopens := of_decide_eq_true hopens
      have hon := of_decide_eq_true hon
      exact ⟨hne, smul_generator_injective (hopens.trans hon.symm), hopens.symm⟩
    next =>
      rw [Attempt.result_liftM_bind] at h
      cases h
  · rintro ⟨hne, hvalue, hcommitment⟩
    refine ⟨_, ⟨hne, rfl⟩, ?_⟩
    rw [← hvalue, hcommitment]
    simp

theorem hasRoot_eq_ok_true :
    transcript.hasRoot root = .ok true ↔
      transcript.root = root ∧ transcript.coefficients ≠ [] ∧
        transcript.polynomial.evaluate root = 0 := by
  unfold hasRoot
  split
  next hroot =>
    rw [Outcome.bind_eq_ok]
    constructor
    · rintro ⟨q, hq, h⟩
      obtain ⟨hne, rfl⟩ := commitmentAt_eq_ok.mp hq
      have hzero : transcript.polynomial.evaluate root • (generator : G) = 0 :=
        of_decide_eq_true (Except.ok.inj h)
      exact ⟨hroot, hne, (smul_eq_zero_iff_left LawfulCurveGroup.generator_ne_zero).mp hzero⟩
    · rintro ⟨-, hne, hzero⟩
      refine ⟨0, commitmentAt_eq_ok.mpr ⟨hne, by rw [hzero, zero_smul]⟩, ?_⟩
      exact congrArg Except.ok (decide_eq_true rfl)
  next hroot => exact ⟨fun h => (nomatch h), fun h => absurd h.1 hroot⟩

theorem verifyRoot_eq_ok :
    (transcript.verifyRoot root threshold).result = .ok () ↔
      transcript.coefficients ≠ [] ∧ transcript.polynomial.threshold = threshold ∧
        transcript.root = root ∧ transcript.polynomial.evaluate root = 0 ∧
        ∀ update ∈ transcript.updates, transcript.IsValue update := by
  unfold verifyRoot
  by_cases hcount : transcript.coefficients.length = threshold
  · rw [if_neg (not_not.mpr hcount), Attempt.result_bind_eq_ok]
    constructor
    · rintro ⟨rooted, hrooted, h⟩
      cases rooted with
      | false => cases h
      | true =>
        obtain ⟨hroot, hne, hzero⟩ := hasRoot_eq_ok_true.mp hrooted
        rw [if_pos rfl, Attempt.result_forM, Outcome.forM_eq_ok] at h
        refine ⟨hne, (threshold_polynomial hne).trans hcount, hroot, hzero, ?_⟩
        exact fun update hu => (verifyUpdate_eq_ok.mp (h update hu)).2
    · rintro ⟨hne, -, hroot, hzero, hupdates⟩
      refine ⟨true, hasRoot_eq_ok_true.mpr ⟨hroot, hne, hzero⟩, ?_⟩
      rw [if_pos rfl, Attempt.result_forM, Outcome.forM_eq_ok]
      exact fun update hu => verifyUpdate_eq_ok.mpr ⟨hne, hupdates update hu⟩
  · rw [if_pos hcount, Attempt.result_liftM_bind]
    constructor
    · exact fun h => (nomatch h)
    · rintro ⟨hne, hthreshold, -⟩
      exact absurd ((threshold_polynomial hne).symm.trans hthreshold) hcount

end Transcript

/-! ## Application -/

section

variable {share share' : KeyShare} {transcripts : List (Transcript G)}
  {updates : List (ShareUpdate G)}

theorem KeyShare.applyUpdate_eq_ok {update : ShareUpdate G} :
    share.applyUpdate update = .ok share' ↔
      (update.participant = share.participant ∧ update.domainPoint = share.domainPoint) ∧
        { share with value := share.value + update.update } = share' := by
  unfold applyUpdate
  split
  next h => simp [h]
  next h => simp [h]

theorem KeyShare.applyUpdates_eq_ok :
    share.applyUpdates updates = .ok share' ↔
      (∀ update ∈ updates,
        update.participant = share.participant ∧ update.domainPoint = share.domainPoint) ∧
        { share with value := share.value + (updates.map (·.update)).sum } = share' := by
  induction updates generalizing share with
  | nil =>
    have hsame : share.applyUpdates ([] : List (ShareUpdate G)) = .ok share := rfl
    rw [hsame]
    simp
  | cons update updates ih =>
    have hstep : share.applyUpdates (update :: updates) =
        share.applyUpdate update >>= fun s => s.applyUpdates updates := List.foldlM_cons
    rw [hstep, Outcome.bind_eq_ok]
    constructor
    · intro h
      obtain ⟨s, hs, h⟩ := h
      obtain ⟨hseat, rfl⟩ := applyUpdate_eq_ok.mp hs
      obtain ⟨hseats, rfl⟩ := ih.mp h
      refine ⟨List.forall_mem_cons.mpr ⟨hseat, hseats⟩, ?_⟩
      rw [List.map_cons, List.sum_cons, add_assoc]
    · intro h
      obtain ⟨hseats, rfl⟩ := h
      obtain ⟨hseat, hseats⟩ := List.forall_mem_cons.mp hseats
      refine ⟨_, applyUpdate_eq_ok.mpr ⟨hseat, rfl⟩, ih.mpr ⟨hseats, ?_⟩⟩
      rw [List.map_cons, List.sum_cons, add_assoc]

theorem KeyShare.applyTranscripts_eq_ok :
    share.applyTranscripts transcripts = .ok share' ↔
      ∃ updates, transcripts.mapM (·.requireUpdate share.participant) = .ok updates ∧
        share.applyUpdates updates = .ok share' := Outcome.bind_eq_ok

variable [CurveGroup G] [LawfulCurveGroup G]

theorem ShareCommitment.applyTranscripts_eq_ok {entry entry' : ShareCommitment G} :
    entry.applyTranscripts transcripts = .ok entry' ↔
      ∃ updates, transcripts.mapM (·.requireUpdate entry.participant) = .ok updates ∧
        { entry with commitment := entry.commitment + (updates.map (·.commitment)).sum } =
          entry' := by
  have hfold : ∀ (updates : List (ShareUpdate G)) (q : G),
      updates.foldl (fun acc u => acc + u.commitment) q =
        q + (updates.map (·.commitment)).sum := by
    intro updates
    induction updates with
    | nil => exact fun q => (add_zero q).symm
    | cons update updates ih =>
      intro q
      rw [List.foldl_cons, ih, List.map_cons, List.sum_cons, add_assoc]
  rw [applyTranscripts, Outcome.bind_eq_ok]
  simp only [hfold, Pure.pure, Except.pure, Except.ok.injEq]

/-! ## Values moved by verified transcripts -/

variable {f : SharingPolynomial} {root : Scalar}

/-- The polynomial that shares and commitments have moved to. -/
noncomputable def SharingPolynomial.movedBy (f : SharingPolynomial)
    (transcripts : List (Transcript G)) : SharingPolynomial :=
  (transcripts.map (·.polynomial)).foldl (· + ·) f

variable (hverified : ∀ transcript ∈ transcripts,
  (transcript.verifyRoot root f.threshold).result = .ok ())

include hverified in
theorem SharingPolynomial.threshold_movedBy : (f.movedBy transcripts).threshold = f.threshold := by
  apply threshold_foldl_add
  intro p hp
  obtain ⟨transcript, htranscript, rfl⟩ := List.mem_map.mp hp
  exact (Transcript.verifyRoot_eq_ok.mp (hverified transcript htranscript)).2.1

include hverified in
theorem SharingPolynomial.evaluate_movedBy (x : Scalar) :
    (f.movedBy transcripts).evaluate x =
      f.evaluate x + (transcripts.map (·.polynomial.evaluate x)).sum := by
  rw [movedBy, evaluate_foldl_add, List.map_map]
  · rfl
  · intro p hp
    obtain ⟨transcript, htranscript, rfl⟩ := List.mem_map.mp hp
    exact (Transcript.verifyRoot_eq_ok.mp (hverified transcript htranscript)).2.1

include hverified in
theorem SharingPolynomial.evaluate_movedBy_root :
    (f.movedBy transcripts).evaluate root = f.evaluate root := by
  have hzero : ∀ transcript ∈ transcripts, transcript.polynomial.evaluate root = 0 :=
    fun transcript h => (Transcript.verifyRoot_eq_ok.mp (hverified transcript h)).2.2.2.1
  rw [evaluate_movedBy hverified, List.map_congr_left hzero, List.map_const', List.sum_replicate,
    smul_zero, add_zero]

theorem SharingPolynomial.constant_movedBy (hverified : ∀ transcript ∈ transcripts,
    (transcript.verifyRoot 0 f.threshold).result = .ok ()) :
    (f.movedBy transcripts).constant = f.constant := by
  rw [← evaluate_zero, evaluate_movedBy_root hverified, evaluate_zero]

include hverified in
/-- Updates that are all for one point add up to what the polynomials add there. -/
theorem Transcript.sum_updates {p : Participant} {x : Scalar}
    (hupdates : transcripts.mapM (·.requireUpdate p) = .ok updates)
    (hx : ∀ update ∈ updates, update.domainPoint = x) :
    (updates.map (·.update)).sum = (transcripts.map (·.polynomial.evaluate x)).sum ∧
      ∀ update ∈ updates, update.commitment = update.update • generator := by
  have hvalue : ∀ transcript ∈ transcripts, ∀ update, transcript.requireUpdate p = .ok update →
      transcript.IsValue update := by
    intro transcript htranscript update hupdate
    have hmem := (mem_of_update? (requireUpdate_eq_ok.mp hupdate)).1
    exact (verifyRoot_eq_ok.mp (hverified transcript htranscript)).2.2.2.2 update hmem
  constructor
  · congr 1
    refine Outcome.map_eq_of_mapM hupdates ?_
    intro transcript htranscript update hupdate hfound
    rw [(hvalue transcript htranscript update hfound).update_eq, hx update hupdate]
  · intro update hupdate
    obtain ⟨transcript, htranscript, hfound⟩ := Outcome.mem_of_mapM hupdates hupdate
    exact (hvalue transcript htranscript update hfound).commitment_eq

/-! ## Both sides -/

namespace VerificationVector

variable {vector moved : VerificationVector G} {threshold : Nat}

omit [LawfulCurveGroup G] in
theorem applyRefresh_eq_ok :
    (vector.applyRefresh transcripts threshold).result = .ok moved ↔
      (∀ transcript ∈ transcripts, (transcript.verifyRoot 0 threshold).result = .ok ()) ∧
        ∃ entries, vector.entries.mapM (·.applyTranscripts transcripts) = .ok entries ∧
          { vector with entries := entries } = moved := by
  rw [applyRefresh, Attempt.result_check_bind_eq_ok, Attempt.result_forM, Outcome.forM_eq_ok,
    Attempt.result_bind_eq_ok]
  simp only [Attempt.result_orRefuse_eq_ok, Attempt.result_pure, Except.ok.injEq]
  rfl

omit [LawfulCurveGroup G] in
theorem seats_of_applyRefresh
    (h : (vector.applyRefresh transcripts threshold).result = .ok moved) :
    moved.seats = vector.seats := by
  obtain ⟨-, entries, hentries, rfl⟩ := applyRefresh_eq_ok.mp h
  refine Outcome.map_eq_of_mapM hentries ?_
  intro entry _ entry' _ hentry'
  obtain ⟨updates, -, hmoved⟩ := Outcome.bind_eq_ok.mp hentry'
  cases hmoved
  rfl

/-- Where every transcript addresses the vector, its commitments move to the sum of the
polynomials. -/
theorem CommitsTo.applyRefresh (hvector : vector.CommitsTo f)
    (haddressed : ∀ transcript ∈ transcripts, transcript.Addresses vector)
    (h : (vector.applyRefresh transcripts f.threshold).result = .ok moved) :
    moved.CommitsTo (f.movedBy transcripts) := by
  obtain ⟨hverified, entries, hentries, rfl⟩ := applyRefresh_eq_ok.mp h
  constructor
  · rw [SharingPolynomial.constant_movedBy hverified]
    exact hvector.publicKey
  · intro entry' hentry'
    obtain ⟨entry, hentry, happlied⟩ := Outcome.mem_of_mapM hentries hentry'
    obtain ⟨updates, hupdates, rfl⟩ := ShareCommitment.applyTranscripts_eq_ok.mp happlied
    have hx : ∀ update ∈ updates, update.domainPoint = entry.domainPoint := by
      intro update hupdate
      obtain ⟨transcript, htranscript, hfound⟩ := Outcome.mem_of_mapM hupdates hupdate
      exact haddressed transcript htranscript entry hentry update
        (Transcript.requireUpdate_eq_ok.mp hfound)
    -- Every update opens its own commitment, so the exponents behind them are the updates.
    obtain ⟨hsum, hcommitments⟩ := Transcript.sum_updates hverified hupdates hx
    have hexponents : (updates.map (·.commitment)).map exponent = updates.map (·.update) := by
      rw [List.map_map]
      refine List.map_congr_left fun update hupdate => ?_
      rw [Function.comp_apply, hcommitments update hupdate, exponent_smul, exponent_generator,
        mul_one]
    rw [← exponent_eq_iff, exponent_add, exponent_sum, hexponents, hsum,
      hvector.commitment entry hentry, exponent_smul, exponent_generator, mul_one,
      SharingPolynomial.evaluate_movedBy hverified]

/-- Where every transcript addresses the vector, an accepted share can be moved along, and the
moved vector accepts it. -/
theorem CommitsTo.verifyShare_applyTranscripts (hvector : vector.CommitsTo f)
    (hnodup : (vector.entries.map (·.participant)).Nodup)
    (haddressed : ∀ transcript ∈ transcripts, transcript.Addresses vector)
    (h : (vector.applyRefresh transcripts f.threshold).result = .ok moved)
    {share : KeyShare} (hshare : (vector.verifyShare share).value = true) :
    ∃ share', share.applyTranscripts transcripts = .ok share' ∧
      (moved.verifyShare share').value = true := by
  have hmoved := hvector.applyRefresh haddressed h
  have hseats := seats_of_applyRefresh h
  have hnodup' : (moved.entries.map (·.participant)).Nodup := by
    rwa [← participants_seats, hseats, participants_seats]
  obtain ⟨hverified, entries, hentries, -⟩ := applyRefresh_eq_ok.mp h
  obtain ⟨hseat, hvalue⟩ := (hvector.verifyShare_iff_seat hnodup).mp hshare
  obtain ⟨entry, hentry, hp, hx⟩ := mem_seats.mp hseat
  -- The vector found an update for the entry in every transcript; the share finds the same ones.
  obtain ⟨_, -, happlied⟩ := Outcome.exists_of_mapM hentries hentry
  obtain ⟨updates, hupdates, -⟩ := ShareCommitment.applyTranscripts_eq_ok.mp happlied
  have haddress : ∀ update ∈ updates,
      update.participant = share.participant ∧ update.domainPoint = share.domainPoint := by
    intro update hupdate
    obtain ⟨transcript, htranscript, hfound⟩ := Outcome.mem_of_mapM hupdates hupdate
    have hfound := Transcript.requireUpdate_eq_ok.mp hfound
    rw [← hp, ← hx]
    exact ⟨(Transcript.mem_of_update? hfound).2, haddressed transcript htranscript entry hentry
      update hfound⟩
  rw [hp] at hupdates
  refine ⟨_, KeyShare.applyTranscripts_eq_ok.mpr ⟨updates, hupdates,
    KeyShare.applyUpdates_eq_ok.mpr ⟨haddress, rfl⟩⟩, ?_⟩
  refine (hmoved.verifyShare_iff_seat hnodup').mpr ⟨hseats ▸ hseat, ?_⟩
  rw [SharingPolynomial.evaluate_movedBy hverified, ← hvalue,
    (Transcript.sum_updates hverified hupdates fun update hu => (haddress update hu).2).1]

/-- Refreshing the commitments is sound, and agrees with refreshing the shares, exactly where
every transcript addresses every participant at its own point. -/
theorem applyRefresh_sound_iff (hnodup : (vector.entries.map (·.participant)).Nodup)
    (hvector : vector.CommitsTo f)
    (h : (vector.applyRefresh transcripts f.threshold).result = .ok moved) :
    moved.seats = vector.seats ∧
    ((∀ transcript ∈ transcripts, transcript.Addresses vector) ↔
      (∃ f' : SharingPolynomial,
        f'.threshold = f.threshold ∧ f'.constant = f.constant ∧ moved.CommitsTo f') ∧
      ∀ share : KeyShare, (vector.verifyShare share).value = true →
        ∃ share', share.applyTranscripts transcripts = .ok share' ∧
          (moved.verifyShare share').value = true) := by
  have hverified := (applyRefresh_eq_ok.mp h).1
  refine ⟨seats_of_applyRefresh h, ?_⟩
  constructor
  · intro haddressed
    refine ⟨⟨f.movedBy transcripts, SharingPolynomial.threshold_movedBy hverified,
      SharingPolynomial.constant_movedBy hverified, hvector.applyRefresh haddressed h⟩, ?_⟩
    exact fun share hshare => hvector.verifyShare_applyTranscripts hnodup haddressed h hshare
  · intro hsound transcript htranscript entry hentry update hupdate
    -- The entry's own share is accepted, so all of its updates must be for its point.
    have hshare : (vector.verifyShare
        ⟨entry.participant, entry.domainPoint, f.evaluate entry.domainPoint⟩).value = true :=
      (hvector.verifyShare_iff_seat hnodup).mpr ⟨mem_seats.mpr ⟨entry, hentry, rfl, rfl⟩, rfl⟩
    obtain ⟨_, happlied, -⟩ := hsound.2 _ hshare
    obtain ⟨updates, hupdates, happlied⟩ := KeyShare.applyTranscripts_eq_ok.mp happlied
    obtain ⟨found, hfound, hrequired⟩ := Outcome.exists_of_mapM hupdates htranscript
    have hsame : found = update :=
      Option.some.inj ((Transcript.requireUpdate_eq_ok.mp hrequired).symm.trans hupdate)
    exact hsame ▸ ((KeyShare.applyUpdates_eq_ok.mp happlied).1 found hfound).2

/-- A transcript over the vector's own points. -/
theorem applyRefresh_own_points :
    ∃ moved : VerificationVector LogPoint,
      (LogPoint.dealing.vector.applyRefresh [Transcript.ofPolynomial
        [⟨0, 1⟩, ⟨1, 2⟩, ⟨2, 3⟩] 0 ⟨0, [1]⟩ .simple] 2).result = .ok moved ∧
      ∃ f' : SharingPolynomial, f'.threshold = 2 ∧ f'.constant = 5 ∧ moved.CommitsTo f' := by
  have hrefresh : ∃ moved : VerificationVector LogPoint,
      (LogPoint.dealing.vector.applyRefresh [Transcript.ofPolynomial
        [⟨0, 1⟩, ⟨1, 2⟩, ⟨2, 3⟩] 0 ⟨0, [1]⟩ .simple] 2).result = .ok moved :=
    Outcome.exists_eq_ok (by decide)
  obtain ⟨moved, hrefresh⟩ := hrefresh
  have hdealt := LogPoint.dealt_dealing
  obtain ⟨-, hsound⟩ := applyRefresh_sound_iff hdealt.nodup_entries hdealt.commitsTo hrefresh
  refine ⟨moved, hrefresh, (hsound.mp ?_).1⟩
  intro transcript htranscript
  rw [List.mem_singleton.mp htranscript]
  exact Transcript.addresses_ofPolynomial hdealt.nodup_entries

/-- A transcript over a foreign point of the first participant. -/
theorem applyRefresh_foreign_point :
    LogPoint.dealing.vector.CommitsTo ⟨5, [3]⟩ ∧
    ∃ moved : VerificationVector LogPoint,
      (LogPoint.dealing.vector.applyRefresh [Transcript.ofPolynomial
        [⟨0, 5⟩, ⟨1, 2⟩, ⟨2, 3⟩] 0 ⟨0, [1]⟩ .simple] 2).result = .ok moved ∧
      ¬∃ f' : SharingPolynomial, f'.threshold = 2 ∧ f'.constant = 5 ∧ moved.CommitsTo f' := by
  refine ⟨LogPoint.dealt_dealing.commitsTo, ?_⟩
  refine ⟨⟨⟨5⟩, [⟨0, 1, ⟨13⟩⟩, ⟨1, 2, ⟨13⟩⟩, ⟨2, 3, ⟨17⟩⟩]⟩, by decide, ?_⟩
  intro h
  obtain ⟨⟨c, upper⟩, hthreshold, hconstant, hmoved⟩ := h
  obtain ⟨a, rfl⟩ := List.length_eq_one_iff.mp (Nat.succ.inj hthreshold)
  have hfirst := congrArg LogPoint.log (hmoved.commitment ⟨0, 1, ⟨13⟩⟩ (by simp))
  have hsecond := congrArg LogPoint.log (hmoved.commitment ⟨1, 2, ⟨13⟩⟩ (by simp))
  have hc : c = 5 := hconstant
  have hone : (13 : Scalar) = ((0 * 1 + a) * 1 + c) * 1 := hfirst
  have htwo : (13 : Scalar) = ((0 * 2 + a) * 2 + c) * 1 := hsecond
  have habsurd : (13 : Scalar) = 5 := by linear_combination 2 * hone - htwo + hc
  exact absurd habsurd (by decide)

end VerificationVector

end
end ThresholdCipher
