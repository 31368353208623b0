import ThresholdCipher.Proofs.Transcripts

/-
Refresh transcripts that arrive in batches, and in different orders.

A refresh succeeds where each transcript on its own verifies and has an update for every
participant of the vector, and it adds to each commitment what the transcripts have for its
participant (`applyRefresh_eq_ok_shiftedBy`).  The first is a condition on one transcript and the
participants, which a refresh keeps.  The second is a sum.  So batches are applied one after the
other with the effect of all of them at once, and no order matters.
-/

namespace ThresholdCipher

variable {G : Type} [CurveGroup G]

/-! ## Commitments -/

namespace Transcript

/-- A transcript that verifies as a refresh and has an update for everyone in the vector. -/
structure Refreshes (transcript : Transcript G) (vector : VerificationVector G)
    (threshold : Nat) : Prop where
  verified : (transcript.verifyRoot 0 threshold).result = .ok ()
  covers : ∀ entry ∈ vector.entries, (transcript.update? entry.participant).isSome

/-- What a transcript adds to the commitment of a participant. -/
def shift (transcript : Transcript G) (p : Participant) : G :=
  ((transcript.update? p).map (·.commitment)).getD 0

omit [CurveGroup G] in
theorem exists_requireUpdate_iff {transcript : Transcript G} {p : Participant} :
    (∃ update, transcript.requireUpdate p = .ok update) ↔ (transcript.update? p).isSome := by
  rw [Option.isSome_iff_exists]
  exact exists_congr fun update => requireUpdate_eq_ok

theorem shift_of_requireUpdate {transcript : Transcript G} {p : Participant}
    {update : ShareUpdate G} (h : transcript.requireUpdate p = .ok update) :
    transcript.shift p = update.commitment := by
  rw [shift, requireUpdate_eq_ok.mp h]
  rfl

end Transcript

variable [LawfulCurveGroup G] {vector moved : VerificationVector G}
  {transcripts first second : List (Transcript G)} {threshold : Nat}

namespace ShareCommitment

/-- The entry with the commitment that transcripts move it to. -/
def shiftedBy (entry : ShareCommitment G) (transcripts : List (Transcript G)) :
    ShareCommitment G :=
  { entry with
    commitment := entry.commitment + (transcripts.map (·.shift entry.participant)).sum }

theorem applyTranscripts_eq_ok_shiftedBy {entry entry' : ShareCommitment G} :
    entry.applyTranscripts transcripts = .ok entry' ↔
      (∀ transcript ∈ transcripts, (transcript.update? entry.participant).isSome) ∧
        entry.shiftedBy transcripts = entry' := by
  rw [applyTranscripts_eq_ok]
  have hsame : ∀ updates, transcripts.mapM (·.requireUpdate entry.participant) = .ok updates →
      updates.map (·.commitment) = transcripts.map (·.shift entry.participant) :=
    fun updates h => Outcome.map_eq_of_mapM h fun transcript _ update _ hfound =>
      (Transcript.shift_of_requireUpdate hfound).symm
  constructor
  · intro h
    obtain ⟨updates, hupdates, rfl⟩ := h
    refine ⟨?_, by rw [shiftedBy, hsame updates hupdates]⟩
    intro transcript htranscript
    obtain ⟨update, -, hfound⟩ := Outcome.exists_of_mapM hupdates htranscript
    exact Transcript.exists_requireUpdate_iff.mp ⟨update, hfound⟩
  · intro h
    obtain ⟨hcovered, rfl⟩ := h
    obtain ⟨updates, hupdates⟩ := Outcome.exists_mapM_eq_ok fun transcript htranscript =>
      Transcript.exists_requireUpdate_iff.mpr (hcovered transcript htranscript)
    exact ⟨updates, hupdates, by rw [shiftedBy, hsame updates hupdates]⟩

end ShareCommitment

namespace VerificationVector

/-- The vector with every commitment where transcripts move it. -/
def shiftedBy (vector : VerificationVector G) (transcripts : List (Transcript G)) :
    VerificationVector G :=
  { vector with entries := vector.entries.map (·.shiftedBy transcripts) }

/-- A refresh asks something of each transcript on its own, and adds up. -/
theorem applyRefresh_eq_ok_shiftedBy :
    (vector.applyRefresh transcripts threshold).result = .ok moved ↔
      (∀ transcript ∈ transcripts, transcript.Refreshes vector threshold) ∧
        vector.shiftedBy transcripts = moved := by
  have hentries : ∀ entries, vector.entries.mapM (·.applyTranscripts transcripts) = .ok entries ↔
      (∀ entry ∈ vector.entries, ∀ transcript ∈ transcripts,
        (transcript.update? entry.participant).isSome) ∧
      vector.entries.map (·.shiftedBy transcripts) = entries :=
    fun _ => Outcome.mapM_eq_ok_map_iff
      fun _ _ => ShareCommitment.applyTranscripts_eq_ok_shiftedBy
  rw [applyRefresh_eq_ok]
  simp only [hentries]
  constructor
  · intro h
    obtain ⟨hverified, entries, ⟨hcovered, rfl⟩, rfl⟩ := h
    exact ⟨fun transcript ht =>
      ⟨hverified transcript ht, fun entry hentry => hcovered entry hentry transcript ht⟩, rfl⟩
  · intro h
    obtain ⟨hrefreshes, rfl⟩ := h
    exact ⟨fun transcript ht => (hrefreshes transcript ht).verified, _,
      ⟨fun entry hentry transcript ht => (hrefreshes transcript ht).covers entry hentry, rfl⟩, rfl⟩

theorem shiftedBy_nil (vector : VerificationVector G) : vector.shiftedBy [] = vector := by
  have hentry : ∀ entry : ShareCommitment G, entry.shiftedBy [] = entry := by
    intro entry
    rw [ShareCommitment.shiftedBy, List.map_nil, List.sum_nil, add_zero]
  rw [shiftedBy, List.map_congr_left fun entry _ => hentry entry, List.map_id']

theorem shiftedBy_append (vector : VerificationVector G) (first second : List (Transcript G)) :
    vector.shiftedBy (first ++ second) = (vector.shiftedBy first).shiftedBy second := by
  simp only [shiftedBy, List.map_map]
  congr 1
  apply List.map_congr_left
  intro entry _
  rw [Function.comp_apply]
  simp only [ShareCommitment.shiftedBy, List.map_append, List.sum_append, add_assoc]

theorem shiftedBy_perm (vector : VerificationVector G) (h : first.Perm second) :
    vector.shiftedBy first = vector.shiftedBy second := by
  rw [shiftedBy, shiftedBy]
  congr 1
  apply List.map_congr_left
  intro entry _
  rw [ShareCommitment.shiftedBy, ShareCommitment.shiftedBy, (h.map _).sum_eq]

omit [LawfulCurveGroup G] in
/-- A refresh keeps the participants, which is all that the next transcript depends on. -/
theorem refreshes_shiftedBy_iff {transcript : Transcript G} :
    transcript.Refreshes (vector.shiftedBy first) threshold ↔
      transcript.Refreshes vector threshold := by
  have hcovers : (∀ entry ∈ (vector.shiftedBy first).entries,
      (transcript.update? entry.participant).isSome) ↔
      ∀ entry ∈ vector.entries, (transcript.update? entry.participant).isSome := by
    rw [shiftedBy, List.forall_mem_map]
    rfl
  exact ⟨fun h => ⟨h.verified, hcovers.mp h.covers⟩, fun h => ⟨h.verified, hcovers.mpr h.covers⟩⟩

theorem applyRefresh_append :
    (vector.applyRefresh (first ++ second) threshold).result = .ok moved ↔
      ∃ halfway, (vector.applyRefresh first threshold).result = .ok halfway ∧
        (halfway.applyRefresh second threshold).result = .ok moved := by
  simp only [applyRefresh_eq_ok_shiftedBy, List.forall_mem_append, shiftedBy_append]
  constructor
  · intro h
    obtain ⟨⟨hfirst, hsecond⟩, rfl⟩ := h
    exact ⟨_, ⟨hfirst, rfl⟩,
      fun transcript ht => refreshes_shiftedBy_iff.mpr (hsecond transcript ht), rfl⟩
  · intro h
    obtain ⟨halfway, ⟨hfirst, rfl⟩, hsecond, rfl⟩ := h
    exact ⟨⟨hfirst, fun transcript ht => refreshes_shiftedBy_iff.mp (hsecond transcript ht)⟩, rfl⟩

theorem applyRefresh_perm (h : first.Perm second) :
    (vector.applyRefresh first threshold).result = .ok moved ↔
      (vector.applyRefresh second threshold).result = .ok moved := by
  simp only [applyRefresh_eq_ok_shiftedBy, shiftedBy_perm vector h, h.mem_iff]

end VerificationVector

/-! ## Shares -/

namespace KeyShare

variable {share moved : KeyShare} {updates others : List (ShareUpdate G)}

omit [CurveGroup G] [LawfulCurveGroup G] in
theorem applyUpdates_append (share : KeyShare) (updates others : List (ShareUpdate G)) :
    share.applyUpdates (updates ++ others) =
      share.applyUpdates updates >>= fun halfway => halfway.applyUpdates others :=
  List.foldlM_append

omit [CurveGroup G] [LawfulCurveGroup G] in
theorem applyUpdates_perm (h : updates.Perm others) :
    share.applyUpdates updates = .ok moved ↔ share.applyUpdates others = .ok moved := by
  rw [applyUpdates_eq_ok, applyUpdates_eq_ok, (h.map _).sum_eq]
  simp only [h.mem_iff]

end KeyShare

namespace VerificationVector

/-- Refresh transcripts act on a vector: where each of them refreshes it, they add up.  So all at
once they do what batches of them do one after the other, their order has no effect, and an empty
list changes nothing.  Updates act on a share likewise. -/
theorem applyRefresh_batches (vector : VerificationVector G) (threshold : Nat) :
    (∀ (transcripts : List (Transcript G)) (moved : VerificationVector G),
      (vector.applyRefresh transcripts threshold).result = .ok moved ↔
        (∀ transcript ∈ transcripts, transcript.Refreshes vector threshold) ∧
          vector.shiftedBy transcripts = moved) ∧
    (∀ (first second : List (Transcript G)) (moved : VerificationVector G),
      (vector.applyRefresh (first ++ second) threshold).result = .ok moved ↔
        ∃ halfway, (vector.applyRefresh first threshold).result = .ok halfway ∧
          (halfway.applyRefresh second threshold).result = .ok moved) ∧
    (∀ (transcripts : List (Transcript G)) (moved : VerificationVector G),
      (vector.applyRefresh transcripts threshold).result = .ok moved →
      (∀ permuted, transcripts.Perm permuted →
        (vector.applyRefresh permuted threshold).result = .ok moved) ∧
      moved.publicKey = vector.publicKey ∧ moved.seats = vector.seats) ∧
    (vector.applyRefresh [] threshold).result = .ok vector ∧
    ∀ (share : KeyShare) (updates : List (ShareUpdate G)),
      (∀ moved, share.applyUpdates updates = .ok moved ↔
        (∀ update ∈ updates,
          update.participant = share.participant ∧ update.domainPoint = share.domainPoint) ∧
          { share with value := share.value + (updates.map (·.update)).sum } = moved) ∧
      (∀ others, share.applyUpdates (updates ++ others) =
        share.applyUpdates updates >>= fun halfway => halfway.applyUpdates others) ∧
      ∀ permuted moved, updates.Perm permuted →
        (share.applyUpdates updates = .ok moved ↔ share.applyUpdates permuted = .ok moved) := by
  refine ⟨fun transcripts moved => applyRefresh_eq_ok_shiftedBy,
    fun first second moved => applyRefresh_append, ?_, ?_, ?_⟩
  · intro transcripts moved h
    refine ⟨fun permuted hperm => (applyRefresh_perm hperm).mp h, ?_, seats_of_applyRefresh h⟩
    obtain ⟨-, rfl⟩ := applyRefresh_eq_ok_shiftedBy.mp h
    rfl
  · refine applyRefresh_eq_ok_shiftedBy.mpr ⟨?_, shiftedBy_nil vector⟩
    simp
  · intro share updates
    exact ⟨fun moved => KeyShare.applyUpdates_eq_ok, KeyShare.applyUpdates_append share updates,
      fun permuted moved hperm => KeyShare.applyUpdates_perm hperm⟩

/-- Two transcripts over the small dealing, at once, one after the other, and the other way
round. -/
theorem applyRefresh_batches_two_transcripts :
    ∃ first second : Transcript LogPoint, ∃ halfway moved : VerificationVector LogPoint,
      moved.entries = [⟨0, 1, ⟨11⟩⟩, ⟨1, 2, ⟨17⟩⟩, ⟨2, 3, ⟨23⟩⟩] ∧
      (LogPoint.dealing.vector.applyRefresh [first, second] 2).result = .ok moved ∧
      (LogPoint.dealing.vector.applyRefresh [first] 2).result = .ok halfway ∧
      (halfway.applyRefresh [second] 2).result = .ok moved ∧
      (LogPoint.dealing.vector.applyRefresh [second, first] 2).result = .ok moved := by
  obtain ⟨-, happend, hmoved, -⟩ := applyRefresh_batches LogPoint.dealing.vector 2
  refine ⟨.ofPolynomial LogPoint.dealing.vector.seats 0 ⟨0, [1]⟩ .simple,
    .ofPolynomial LogPoint.dealing.vector.seats 0 ⟨0, [2]⟩ .simple, ?_⟩
  have hboth : (LogPoint.dealing.vector.applyRefresh
      ([.ofPolynomial LogPoint.dealing.vector.seats 0 ⟨0, [1]⟩ .simple] ++
        [.ofPolynomial LogPoint.dealing.vector.seats 0 ⟨0, [2]⟩ .simple]) 2).result =
      .ok ⟨⟨5⟩, [⟨0, 1, ⟨11⟩⟩, ⟨1, 2, ⟨17⟩⟩, ⟨2, 3, ⟨23⟩⟩]⟩ := by decide
  obtain ⟨halfway, hfirst, hsecond⟩ := (happend _ _ _).mp hboth
  exact ⟨halfway, _, rfl, hboth, hfirst, hsecond, (hmoved _ _ hboth).1 _ (.swap _ _ [])⟩

end VerificationVector
end ThresholdCipher
