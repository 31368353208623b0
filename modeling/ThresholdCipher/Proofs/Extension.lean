import ThresholdCipher.Proofs.BlindedRecovery

/-
Extending a vector by one more participant.

For any vector, an extension interpolates over all entries or is refused for one of four causes
(`result_extend`).  Entries that commit to enough values of a polynomial interpolate to the
commitment to its value at the new point, so the new entry accepts the share that is recovered
there (`extend_exact`).  Done in place, an extension stores the vector after all that can fail, and
whatever fails leaves the vector as it was (`run_extendInPlace`).
-/

namespace ThresholdCipher

namespace Interpolation

/-- Items that carry their points and values are always aligned. -/
theorem result_point_map {α G : Type} [CurveGroup G] [LawfulCurveGroup G] (items : List α)
    (position : α → Scalar) (value : α → G) (z : Scalar) :
    (point (items.map position) (items.map value) z).result =
      if items.isEmpty then .error (.parameters .noPoints)
      else if (items.map position).Nodup then
        .ok (items.map fun i => weight (items.map position) z (position i) • value i).sum
      else .error (.error .duplicatePoint) := by
  have haligned : (items.map position).length = (items.map value).length := by
    rw [List.length_map, List.length_map]
  rw [result_point, if_pos haligned, result_weights, List.isEmpty_map]
  split
  · rfl
  · split
    · show Except.ok (List.zipWith _ (items.map value) (List.map _ (items.map position))).sum = _
      rw [List.map_map, List.zipWith_map, List.zipWith_self]
      rfl
    · rfl

end Interpolation

variable {G : Type} [CurveGroup G]

/-! ## The outcome -/

namespace VerificationVector

variable {vector : VerificationVector G} {p : Participant} {x : Scalar}

omit [CurveGroup G] in
/-- An entry of a new participant is found at the end of any entries. -/
theorem entry?_of_appended {own : ShareCommitment G}
    (hnew : ∀ entry ∈ vector.entries, entry.participant ≠ own.participant) :
    entry? { vector with entries := vector.entries ++ [own] } own.participant = some own := by
  cases hfound : entry? { vector with entries := vector.entries ++ [own] } own.participant with
  | none =>
    exact absurd rfl (entry?_eq_none.mp hfound own
      (List.mem_append_right _ (List.mem_singleton_self own)))
  | some found =>
    obtain ⟨hmem, hp⟩ := mem_of_lookup hfound
    rcases List.mem_append.mp hmem with hold | hlast
    · exact absurd hp (hnew found hold)
    · rw [List.mem_singleton.mp hlast]

variable [LawfulCurveGroup G]

/-- What the commitments interpolate to. -/
def interpolatedAt (vector : VerificationVector G) (x : Scalar) : G :=
  (vector.entries.map fun entry =>
    Interpolation.weight (vector.entries.map (·.domainPoint)) x entry.domainPoint •
      entry.commitment).sum

/-- Too large an index, a participant with an entry, no entries and coinciding points are refused
in this order; any other vector is extended. -/
theorem result_extend (vector : VerificationVector G) (p : Participant) (x : Scalar) :
    (vector.extend p x).result =
      if maxWord32 < p.toNat then .error (.parameters (.participantTooLarge p))
      else if p ∈ vector.entries.map (·.participant) then
        .error (.malformed (.participantCommitted p))
      else if vector.entries.isEmpty then .error (.parameters .noPoints)
      else if (vector.entries.map (·.domainPoint)).Nodup then
        .ok { vector with entries := vector.entries ++ [⟨p, x, vector.interpolatedAt x⟩] }
      else .error (.error .duplicatePoint) := by
  by_cases hlarge : maxWord32 < p.toNat
  · rw [if_pos hlarge, extend, Attempt.result_bind, Attempt.result_orRefuse, checkParticipant,
      if_pos hlarge]
    rfl
  · have hfits := Attempt.result_orRefuse_eq_ok.mpr (checkParticipant_eq_ok.mpr (not_lt.mp hlarge))
    rw [if_neg hlarge, extend, Attempt.result_bind_of_ok hfits, Attempt.result_ite]
    have htaken : (vector.entry? p).isSome ↔ p ∈ vector.entries.map (·.participant) := by
      rw [Option.isSome_iff_ne_none, Ne, entry?_eq_none]
      simp
    by_cases hmem : p ∈ vector.entries.map (·.participant)
    · rw [if_pos (htaken.mpr hmem), if_pos hmem]
      rfl
    · rw [if_neg (mt htaken.mp hmem), if_neg hmem, Attempt.result_bind,
        Interpolation.result_point_map]
      by_cases hnone : vector.entries.isEmpty
      · rw [if_pos hnone, if_pos hnone]
        rfl
      · rw [if_neg hnone, if_neg hnone]
        by_cases hpoints : (vector.entries.map (·.domainPoint)).Nodup
        · rw [if_pos hpoints, if_pos hpoints]
          rfl
        · rw [if_neg hpoints, if_neg hpoints]
          rfl

/-- Entries at distinct points leave only the participant to be refused. -/
theorem exists_extend_iff (hne : vector.entries ≠ [])
    (hpoints : (vector.entries.map (·.domainPoint)).Nodup) :
    (∃ extended, (vector.extend p x).result = .ok extended) ↔
      p.toNat ≤ maxWord32 ∧ ∀ entry ∈ vector.entries, entry.participant ≠ p := by
  constructor
  · intro h
    obtain ⟨extended, h⟩ := h
    obtain ⟨hp, hnone, -⟩ := extend_eq_ok.mp h
    exact ⟨checkParticipant_eq_ok.mp hp, entry?_eq_none.mp hnone⟩
  · intro h
    obtain ⟨hp, hnew⟩ := h
    have hfree : p ∉ vector.entries.map (·.participant) := by simpa using hnew
    have hsome : ¬vector.entries.isEmpty := by rwa [List.isEmpty_iff]
    rw [result_extend, if_neg (not_lt.mpr hp), if_neg hfree, if_neg hsome, if_pos hpoints]
    exact ⟨_, rfl⟩

end VerificationVector

/-! ## In place -/

/-- An attempt on a stored vector.  What was stored stays stored if the attempt fails later on. -/
abbrev OnVector (G α : Type) := ExceptT Failure (StateT (VerificationVector G) Journaled) α

/-- A step that neither reads nor stores the vector. -/
def OnVector.step {G α : Type} (x : Attempt α) : OnVector G α := ExceptT.mk (StateT.lift x.run)

namespace VerificationVector

/-- The extension of a stored vector. -/
def extendInPlace (p : Participant) (x : Scalar) : OnVector G Unit := do
  OnVector.step (Attempt.orRefuse (checkParticipant p))
  let vector : VerificationVector G ← get
  if (vector.entry? p).isSome then
    OnVector.step (Attempt.refuse (.malformedInput (.participantCommitted p)))
  else
    let commitment ← OnVector.step (Interpolation.point (vector.entries.map (·.domainPoint))
      (vector.entries.map (·.commitment)) x)
    -- All that can fail is behind; the old entries stay as they are.
    modify fun vector => { vector with entries := vector.entries ++ [⟨p, x, commitment⟩] }

/-- What an attempt at a new vector leaves in the place of the old one. -/
def replacedBy (vector : VerificationVector G) :
    Except Failure (VerificationVector G) → Except Failure Unit × VerificationVector G
  | .ok replacement => (.ok (), replacement)
  | .error failure => (.error failure, vector)

omit [CurveGroup G] in
/-- A failure at a step leaves the vector; otherwise the rest decides. -/
theorem run_step_bind {α : Type} (vector : VerificationVector G) (x : Attempt α)
    {inPlace : α → OnVector G Unit} {apart : α → Attempt (VerificationVector G)}
    (h : ∀ a, (inPlace a).run.run vector = vector.replacedBy <$> (apart a).run) :
    (OnVector.step x >>= inPlace).run.run vector = vector.replacedBy <$> (x >>= apart).run := by
  rw [ExceptT.run_bind, ExceptT.run_bind, StateT.run_bind, map_bind]
  show (x.run >>= fun outcome => pure (outcome, vector)) >>= _ = _
  rw [bind_assoc]
  refine bind_congr fun outcome => ?_
  rw [pure_bind]
  cases outcome with
  | error failure => exact (map_pure vector.replacedBy (.error failure)).symm
  | ok a => exact h a

/-- In place, an extension leaves what it gives otherwise, with the same records. -/
theorem run_extendInPlace (vector : VerificationVector G) (p : Participant) (x : Scalar) :
    (extendInPlace p x).run.run vector = vector.replacedBy <$> (vector.extend p x).run := by
  refine run_step_bind vector _ fun _ => ?_
  show (if (vector.entry? p).isSome then _ else _ : OnVector G Unit).run.run vector = _
  by_cases htaken : (vector.entry? p).isSome
  · rw [if_pos htaken, if_pos htaken]
    rfl
  · rw [if_neg htaken, if_neg htaken]
    exact run_step_bind vector _ fun _ => rfl

end VerificationVector

/-! ## Commitments to values -/

/-- Enough values recover one share only, from any of them and at any threshold they meet. -/
theorem KeyShare.recover_values_eq_ok {f : SharingPolynomial} {shares : List KeyShare}
    {share : KeyShare} {threshold : Nat} {p : Participant} {x : Scalar}
    (henough : f.threshold ≤ shares.length)
    (hvalues : ∀ s ∈ shares, s.value = f.evaluate s.domainPoint) :
    (recover shares threshold p x).result = .ok share ↔
      (0 < threshold ∧ threshold ≤ shares.length) ∧ p.toNat ≤ maxWord32 ∧
        (∀ s ∈ shares, s.domainPoint ≠ x) ∧ (shares.map (·.domainPoint)).Nodup ∧
        share = ⟨p, x, f.evaluate x⟩ := by
  rw [recover_eq_ok, checkParticipant_eq_ok]
  refine and_congr_right fun _ => and_congr_right fun _ => and_congr_right fun _ =>
    and_congr_right fun hpoints => ?_
  rw [sum_weight_mul hpoints hvalues henough]
  exact eq_comm

namespace VerificationVector

variable [LawfulCurveGroup G] {vector : VerificationVector G} {f : SharingPolynomial}

omit [CurveGroup G] [LawfulCurveGroup G] in
theorem entries_ne_nil (henough : f.threshold ≤ vector.entries.length) : vector.entries ≠ [] := by
  rw [← List.length_pos_iff]
  exact f.threshold_pos.trans_le henough

/-- Commitments to enough values interpolate to the commitment to any other. -/
theorem interpolatedAt_of_values (hpoints : (vector.entries.map (·.domainPoint)).Nodup)
    (henough : f.threshold ≤ vector.entries.length)
    (hcommits : ∀ entry ∈ vector.entries,
      entry.commitment = f.evaluate entry.domainPoint • generator) (x : Scalar) :
    vector.interpolatedAt x = f.evaluate x • generator := by
  -- The public key has no part in it, so it may as well be the right one.
  have hvector : CommitsTo ⟨f.constant • generator, vector.entries⟩ f := ⟨rfl, hcommits⟩
  refine hvector.interpolate henough ?_
  exact Interpolation.point_eq_ok.mpr ⟨entries_ne_nil henough, hpoints, rfl⟩

/-- Whatever fails, the stored vector stays, and a sum without terms is never asked for. -/
theorem eq_of_run_extendInPlace (stored : VerificationVector G) {left : VerificationVector G}
    {p : Participant} {x : Scalar} {failure : Failure}
    (h : ((extendInPlace p x).run.run stored).value = (.error failure, left)) :
    left = stored ∧ failure ≠ .emptySum := by
  rw [run_extendInPlace] at h
  have hleft : stored.replacedBy (stored.extend p x).result = (.error failure, left) := h
  cases hresult : (stored.extend p x).result with
  | ok extended =>
    rw [hresult] at hleft
    cases hleft
  | error cause =>
    rw [hresult] at hleft
    cases hleft
    refine ⟨rfl, ?_⟩
    intro hempty
    rw [hempty, result_extend] at hresult
    split_ifs at hresult <;> cases hresult

/-- Where the entries commit to enough values at distinct points, exactly the participants with an
index in range and without an entry get one, for the value at their point.  The vector is otherwise
the old one, and it accepts the share that values of the polynomial recover there.  Any vector
whatsoever survives an extension that fails. -/
theorem extend_exact (hpoints : (vector.entries.map (·.domainPoint)).Nodup)
    (henough : f.threshold ≤ vector.entries.length)
    (hcommits : ∀ entry ∈ vector.entries,
      entry.commitment = f.evaluate entry.domainPoint • generator)
    (p : Participant) (x : Scalar) :
    ((∃ extended, (vector.extend p x).result = .ok extended) ↔
      p.toNat ≤ maxWord32 ∧ ∀ entry ∈ vector.entries, entry.participant ≠ p) ∧
    (∀ extended, (vector.extend p x).result = .ok extended →
      extended = { vector with
        entries := vector.entries ++ [⟨p, x, f.evaluate x • generator⟩] } ∧
      (extended.verifyShare ⟨p, x, f.evaluate x⟩).value = true ∧
      ∀ (shares : List KeyShare) (threshold : Nat), f.threshold ≤ shares.length →
        (∀ s ∈ shares, s.value = f.evaluate s.domainPoint) →
        ∀ share, (KeyShare.recover shares threshold p x).result = .ok share ↔
          (0 < threshold ∧ threshold ≤ shares.length) ∧ (∀ s ∈ shares, s.domainPoint ≠ x) ∧
            (shares.map (·.domainPoint)).Nodup ∧ share = ⟨p, x, f.evaluate x⟩) ∧
    ∀ (stored : VerificationVector G) (q : Participant) (y : Scalar),
      (extendInPlace q y).run.run stored = stored.replacedBy <$> (stored.extend q y).run ∧
      ∀ failure left, ((extendInPlace q y).run.run stored).value = (.error failure, left) →
        left = stored ∧ failure ≠ .emptySum := by
  have hiff : (∃ extended, (vector.extend p x).result = .ok extended) ↔
      p.toNat ≤ maxWord32 ∧ ∀ entry ∈ vector.entries, entry.participant ≠ p :=
    exists_extend_iff (entries_ne_nil henough) hpoints
  refine ⟨hiff, ?_, fun stored q y =>
    ⟨run_extendInPlace stored q y, fun failure left => eq_of_run_extendInPlace stored⟩⟩
  intro extended h
  obtain ⟨hp, hnew⟩ := hiff.mp ⟨extended, h⟩
  have hextended : extended = { vector with
      entries := vector.entries ++ [⟨p, x, f.evaluate x • generator⟩] } := by
    obtain ⟨-, -, commitment, hcommitment, rfl⟩ := extend_eq_ok.mp h
    obtain ⟨-, -, rfl⟩ := Interpolation.point_eq_ok.mp hcommitment
    rw [← interpolatedAt_of_values hpoints henough hcommits x]
    rfl
  refine ⟨hextended, ?_, ?_⟩
  · rw [hextended]
    exact verifyShare_eq_true.mpr ⟨_, entry?_of_appended hnew, rfl, rfl⟩
  · intro shares threshold hlen hvalues share
    rw [KeyShare.recover_values_eq_ok hlen hvalues]
    exact and_congr_right fun _ => and_iff_right hp

/-- A fourth participant joins the small dealing, and the first one cannot join again. -/
theorem extend_exact_fourth :
    (∃ extended : VerificationVector LogPoint,
      (LogPoint.dealing.vector.extend 3 4).result = .ok extended ∧
      extended.entries = LogPoint.dealing.vector.entries ++ [⟨3, 4, ⟨17⟩⟩] ∧
      (extended.verifyShare ⟨3, 4, 17⟩).value = true ∧
      (KeyShare.recover [⟨0, 1, 8⟩, ⟨1, 2, 11⟩] 2 3 4).result = .ok ⟨3, 4, 17⟩) ∧
    ((extendInPlace 0 4).run.run LogPoint.dealing.vector).value =
      (.error (.malformed (.participantCommitted 0)), LogPoint.dealing.vector) := by
  obtain ⟨hiff, hexact, hinPlace⟩ := extend_exact (f := ⟨5, [3]⟩) (by decide) (by decide)
    LogPoint.dealt_dealing.commitsTo.commitment 3 4
  obtain ⟨extended, h⟩ := hiff.mpr ⟨by decide, by decide⟩
  obtain ⟨hextended, haccepted, hrecovered⟩ := hexact extended h
  have hvalue : SharingPolynomial.evaluate ⟨5, [3]⟩ 4 = 17 := by decide
  rw [hvalue] at haccepted hextended hrecovered
  refine ⟨⟨extended, h, ?_, haccepted, ?_⟩, ?_⟩
  · rw [hextended]
    rfl
  · exact (hrecovered [⟨0, 1, 8⟩, ⟨1, 2, 11⟩] 2 (by decide) (by decide) _).mpr
      ⟨by decide, by decide, by decide, rfl⟩
  · rw [(hinPlace _ 0 4).1]
    rfl

end VerificationVector
end ThresholdCipher
