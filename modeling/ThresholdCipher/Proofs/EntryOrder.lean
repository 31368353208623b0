import ThresholdCipher.Proofs.ChosenPoints
import ThresholdCipher.Proofs.QuorumCommitments

/-
The order of a vector's entries.

Lookup tries the position of a participant's index before it searches, and participants that
joined later stand at positions that have nothing to do with their indices.  Where participants
are distinct, it still finds the one entry of the participant asked for and no other
(`entry?_eq_some_iff`), in any order of the entries (`entry?_perm`).  What is checked against a
vector, or prepared from it, depends on lookups alone, and so not on the order
(`reordering_invisible`).
-/

namespace ThresholdCipher

/-! ## Lookup -/

namespace VerificationVector

variable {G : Type} {vector vector' : VerificationVector G}

theorem entry?_perm (hnodup : (vector.entries.map (·.participant)).Nodup)
    (hperm : vector.entries.Perm vector'.entries) (p : Participant) :
    vector.entry? p = vector'.entry? p := by
  have hnodup' : (vector'.entries.map (·.participant)).Nodup :=
    (hperm.map _).nodup_iff.mp hnodup
  apply Option.ext
  intro entry
  rw [entry?_eq_some_iff hnodup, entry?_eq_some_iff hnodup', hperm.mem_iff]

end VerificationVector

/-! ## What depends on lookups alone -/

section

variable {G1 G2 T : Type} [CurveGroup G1] [CurveGroup G2] [TargetGroup T] [Pairing G1 G2 T]
  {vector vector' : VerificationVector G1} (h : ∀ p, vector.entry? p = vector'.entry? p)
  (ciphertext : Ciphertext G1 G2)

include h

theorem VerificationVector.verifyShare_congr (share : KeyShare) :
    vector.verifyShare share = vector'.verifyShare share := by
  rw [verifyShare, verifyShare, h]

omit [CurveGroup G1] in
theorem VerificationVector.commitmentAt_congr (p : Participant) (x : Scalar) :
    vector.commitmentAt p x = vector'.commitmentAt p x := by
  rw [commitmentAt, commitmentAt, h]

omit [CurveGroup G2] in
theorem FastShare.verify_congr (share : FastShare G2) :
    share.verify ciphertext vector = share.verify ciphertext vector' := by
  rw [FastShare.verify, FastShare.verify, VerificationVector.commitmentAt_congr h]

theorem SimpleShare.verify_congr (share : SimpleShare T) :
    share.verify ciphertext vector = share.verify ciphertext vector' := by
  rw [SimpleShare.verify, SimpleShare.verify, VerificationVector.commitmentAt_congr h]

theorem DecryptionShare.verify_congr (share : DecryptionShare G2 T) :
    share.verify ciphertext vector = share.verify ciphertext vector' := by
  cases share with
  | fast share => rw [DecryptionShare.verify, DecryptionShare.verify, FastShare.verify_congr h]
  | simple share => rw [DecryptionShare.verify, DecryptionShare.verify, SimpleShare.verify_congr h]

namespace ShareVerification

omit [CurveGroup G1] [CurveGroup G2] in
theorem commitments_congr (shares : List (FastShare G2)) :
    commitments vector shares = commitments vector' shares := by
  induction shares with
  | nil => rfl
  | cons share shares ih =>
    rw [commitments, commitments, VerificationVector.commitmentAt_congr h, ih]

theorem batch_congr (shares : List (FastShare G2)) (e : Entropy) :
    batch shares ciphertext vector e = batch shares ciphertext vector' e := by
  rw [batch, batch, commitments_congr h]

theorem flags_congr (strategy : VerificationStrategy) (shares : List (DecryptionShare G2 T))
    (e : Entropy) :
    flags strategy shares ciphertext vector e = flags strategy shares ciphertext vector' e := by
  cases strategy with
  | fast => simp only [flags, DecryptionShare.verify_congr h]
  | simple => simp only [flags, DecryptionShare.verify_congr h]
  | fastBatch => simp only [flags, batch_congr h, FastShare.verify_congr h]

theorem run_congr (strategy : VerificationStrategy) (shares : List (DecryptionShare G2 T))
    (e : Entropy) :
    run strategy shares ciphertext vector e = run strategy shares ciphertext vector' e := by
  rw [run, run, flags_congr h]

end ShareVerification

omit [CurveGroup G1] in
theorem Quorum.requireEntry_congr : requireEntry vector = requireEntry vector' := by
  funext p
  rw [requireEntry, requireEntry, h]

omit [CurveGroup G1] in
theorem Quorum.ofVector_congr (participants : List Participant) :
    ofVector vector participants = ofVector vector' participants := by
  rw [ofVector, ofVector, requireEntry_congr h]

theorem PreparedCommitments.prepare_congr (quorum : Quorum) :
    prepare vector quorum = prepare vector' quorum := by
  rw [prepare, prepare, Quorum.requireEntry_congr h]

end

/-! ## Any order -/

namespace VerificationVector

variable {G1 G2 T : Type} [CurveGroup G1] [CurveGroup G2] [TargetGroup T] [Pairing G1 G2 T]
  {vector vector' : VerificationVector G1}

/-- Where participants are distinct, lookup finds the one entry of a participant, or finds that
there is none, in any order of the entries.  So the same entries in another order accept the same
key shares and the same decryption shares, singly and in lists, with the same records and the same
random words drawn, and lead to the same quorums and prepared commitments, or to the same
refusals.  Whatever calls of the renewing operations follow a dealing, participants are
distinct. -/
theorem reordering_invisible (hnodup : (vector.entries.map (·.participant)).Nodup)
    (hperm : vector.entries.Perm vector'.entries) :
    (∀ p entry, vector.entry? p = some entry ↔ entry ∈ vector.entries ∧ entry.participant = p) ∧
    (∀ p, vector.entry? p = none ↔ ∀ entry ∈ vector.entries, entry.participant ≠ p) ∧
    (∀ p, vector.entry? p = vector'.entry? p) ∧
    (∀ share, vector.verifyShare share = vector'.verifyShare share) ∧
    (∀ (share : DecryptionShare G2 T) (ciphertext : Ciphertext G1 G2),
      share.verify ciphertext vector = share.verify ciphertext vector') ∧
    (∀ (strategy : VerificationStrategy) (shares : List (DecryptionShare G2 T))
      (ciphertext : Ciphertext G1 G2) (e : Entropy),
      ShareVerification.run strategy shares ciphertext vector e =
        ShareVerification.run strategy shares ciphertext vector' e) ∧
    (∀ participants, Quorum.ofVector vector participants = Quorum.ofVector vector' participants) ∧
    (∀ quorum, PreparedCommitments.prepare vector quorum =
      PreparedCommitments.prepare vector' quorum) ∧
    ∀ {parameters : Parameters} {dealing : Dealing G1} {calls : List (Call G1)} {s : KeyState G1},
      Dealt parameters dealing → Call.run ⟨dealing.shares, dealing.vector⟩ calls = .ok s →
      (s.vector.entries.map (·.participant)).Nodup := by
  have hsame := entry?_perm hnodup hperm
  refine ⟨fun p entry => entry?_eq_some_iff hnodup, fun p => entry?_eq_none, hsame,
    verifyShare_congr hsame, fun share ciphertext => share.verify_congr hsame ciphertext, ?_,
    Quorum.ofVector_congr hsame, PreparedCommitments.prepare_congr hsame, ?_⟩
  · intro strategy shares ciphertext e
    exact ShareVerification.run_congr hsame ciphertext strategy shares e
  · intro parameters dealing calls s hdealt hrun
    exact (KeyState.Grows.of_run hrun).participants hdealt.nodup_entries

/-- Entries that all stand at the index of another participant, and a vector with a fourth. -/
theorem reordering_invisible_rearranged :
    LogPoint.rearranged.entry? 0 = some ⟨0, 1, ⟨8⟩⟩ ∧ LogPoint.rearranged.entry? 3 = none ∧
    (LogPoint.rearranged.verifyShare ⟨1, 2, 11⟩).value = true ∧
    Quorum.ofVector LogPoint.rearranged [2, 0] =
      Quorum.ofVector LogPoint.dealing.vector [2, 0] ∧
    ∃ s : KeyState LogPoint, Call.run ⟨LogPoint.dealing.shares, LogPoint.dealing.vector⟩
      [.extend 3 4] = .ok s ∧ (s.vector.entries.map (·.participant)).Nodup := by
  have hnodup : (LogPoint.dealing.vector.entries.map (·.participant)).Nodup := by decide
  have hperm : LogPoint.dealing.vector.entries.Perm LogPoint.rearranged.entries := by decide
  have hrun : ∃ s : KeyState LogPoint,
      Call.run ⟨LogPoint.dealing.shares, LogPoint.dealing.vector⟩ [.extend 3 4] = .ok s :=
    Outcome.exists_eq_ok (by decide)
  obtain ⟨hfound, hmissing, hsame, hverify, -, -, hquorum, -, hreached⟩ :=
    @reordering_invisible LogPoint LogPoint LogTarget _ _ _ _ _ _ hnodup hperm
  obtain ⟨s, hrun⟩ := hrun
  refine ⟨?_, ?_, ?_, (hquorum [2, 0]).symm, s, hrun, hreached LogPoint.dealt_dealing hrun⟩
  · exact (hsame 0).symm.trans ((hfound 0 _).mpr (by decide))
  · exact (hsame 3).symm.trans ((hmissing 3).mpr (by decide))
  · rw [← hverify]
    exact LogPoint.dealt_dealing.verifyShare_eq_true (by decide)

end VerificationVector
end ThresholdCipher
