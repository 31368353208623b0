import ThresholdCipher.Proofs.RenewalCalls

/-
Points that callers choose.

A dealing puts different participants at different points, and nobody at zero, where the secret
is.  Later calls keep the seats of a vector and add those that callers ask for, under fresh
participants but at any points, and shares are recovered for any points.  Points stay distinct and
apart from zero exactly if callers choose them so (`reserved_iff`).
-/

namespace ThresholdCipher
namespace KeyState

variable {G : Type}

/-- Entries at different points and none at zero, nor any share that was handed out. -/
structure Reserved (s : KeyState G) : Prop where
  pointsNodup : (s.vector.entries.map (·.domainPoint)).Nodup
  entries : ∀ entry ∈ s.vector.entries, entry.domainPoint ≠ 0
  shares : ∀ share ∈ s.shares, share.domainPoint ≠ 0

variable [CurveGroup G] [LawfulCurveGroup G] {s : KeyState G}
  {parameters : Parameters} {dealing : Dealing G}

theorem seats_of_dealt (hdealt : Dealt parameters dealing) :
    dealing.vector.seats = parameters.participants.map fun p => ⟨p, Scalar.domainPoint p⟩ := by
  rw [VerificationVector.seats, hdealt.entries_eq, hdealt.shares_eq, List.map_map, List.map_map]
  rfl

omit [LawfulCurveGroup G] in
/-- Zero is nobody's point, so enough shares are recovered there like anywhere else. -/
theorem recover_zero_of_dealt (hdealt : Dealt parameters dealing) {quorum : List KeyShare}
    (hquorum : ∀ share ∈ quorum, share ∈ dealing.shares)
    (hnodup : (quorum.map (·.participant)).Nodup) (henough : parameters.threshold ≤ quorum.length)
    {p : Participant} (hp : p.toNat ≤ maxWord32) :
    (KeyShare.recover quorum parameters.threshold p 0).result =
      .ok ⟨p, 0, dealing.polynomial.constant⟩ := by
  rw [← hdealt.threshold_polynomial] at henough ⊢
  rw [← dealing.polynomial.evaluate_zero]
  refine KeyShare.recover_values henough (hdealt.nodup_domainPoints hquorum hnodup)
    (fun share h => (hdealt.share_eq (hquorum share h)).2) hp fun share h => ?_
  rw [(hdealt.share_eq (hquorum share h)).1]
  exact Scalar.domainPoint_ne_zero share.participant

/-- What a run of calls makes of a dealing: participants stay distinct and the vector gets the
seats that callers ask for.  Points stay distinct and apart from zero exactly where callers ask
for seats at new points, different from each other and from zero, and for no share at zero. -/
theorem reserved_iff (hdealt : Dealt parameters dealing) {calls : List (Call G)}
    (hrun : Call.run ⟨dealing.shares, dealing.vector⟩ calls = .ok s) :
    (s.vector.entries.map (·.participant)).Nodup ∧
    s.vector.seats = dealing.vector.seats ++ calls.filterMap (·.seat?) ∧
    (s.Reserved ↔
      (parameters.domainPoints ++ (calls.filterMap (·.seat?)).map (·.domainPoint)).Nodup ∧
      (∀ seat ∈ calls.filterMap (·.seat?), seat.domainPoint ≠ 0) ∧
      ∀ x ∈ calls.filterMap (·.target?), x ≠ 0) := by
  have hgrows := Grows.of_run hrun
  have hseats : s.vector.seats = dealing.vector.seats ++ calls.filterMap (·.seat?) :=
    hgrows.seats_eq
  have hpoints : s.vector.entries.map (·.domainPoint) =
      parameters.domainPoints ++ (calls.filterMap (·.seat?)).map (·.domainPoint) := by
    rw [← VerificationVector.domainPoints_seats, hseats, List.map_append, seats_of_dealt hdealt,
      List.map_map]
    rfl
  refine ⟨hgrows.participants hdealt.nodup_entries, hseats, ?_⟩
  constructor
  · intro h
    refine ⟨hpoints ▸ h.pointsNodup, ?_, ?_⟩
    · intro seat hseat
      have hmem : seat ∈ s.vector.seats := hseats ▸ List.mem_append_right _ hseat
      obtain ⟨entry, hentry, rfl⟩ := List.mem_map.mp hmem
      exact h.entries entry hentry
    · intro x hx
      obtain ⟨share, hshare, rfl⟩ := hgrows.given x hx
      exact h.shares share hshare
  · intro h
    obtain ⟨hnodup, hchosen, htargets⟩ := h
    have hnonzero : ∀ seat ∈ s.vector.seats, seat.domainPoint ≠ 0 := by
      intro seat hseat
      rw [hseats, seats_of_dealt hdealt] at hseat
      rcases List.mem_append.mp hseat with hdealtSeat | hnew
      · obtain ⟨p, -, rfl⟩ := List.mem_map.mp hdealtSeat
        exact Scalar.domainPoint_ne_zero p
      · exact hchosen seat hnew
    refine ⟨hpoints ▸ hnodup, ?_, ?_⟩
    · intro entry hentry
      exact hnonzero _ (List.mem_map_of_mem hentry)
    · intro share hshare
      rcases hgrows.placed share hshare with hshare | hseat | ⟨htarget, -⟩
      · rw [(hdealt.share_eq hshare).1]
        exact Scalar.domainPoint_ne_zero share.participant
      · exact hnonzero share.seat hseat
      · exact htargets share.domainPoint htarget

/-- A fourth participant is given its own point, and its share. -/
theorem reserved_iff_fourth_participant :
    ∃ s : KeyState LogPoint, Call.run ⟨LogPoint.dealing.shares, LogPoint.dealing.vector⟩
      [.extend 3 4, .recover [⟨0, 1, 8⟩, ⟨1, 2, 11⟩] 2 3 4] = .ok s ∧ s.Reserved := by
  have hrun : ∃ s : KeyState LogPoint,
      Call.run ⟨LogPoint.dealing.shares, LogPoint.dealing.vector⟩
        [.extend 3 4, .recover [⟨0, 1, 8⟩, ⟨1, 2, 11⟩] 2 3 4] = .ok s :=
    Outcome.exists_eq_ok (by decide)
  obtain ⟨s, hrun⟩ := hrun
  refine ⟨s, hrun, (reserved_iff LogPoint.dealt_dealing hrun).2.2.mpr ⟨?_, ?_, ?_⟩⟩
  · decide
  · decide
  · decide

/-- A fresh participant at the point of the first, another one at zero, and the secret as a
share. -/
theorem reserved_lost :
    Dealt ⟨3, 2, .blst⟩ LogPoint.dealing ∧
    (∃ s : KeyState LogPoint, Call.run ⟨LogPoint.dealing.shares, LogPoint.dealing.vector⟩
      [.extend 9 1] = .ok s ∧ ¬(s.vector.entries.map (·.domainPoint)).Nodup) ∧
    (∃ s : KeyState LogPoint, Call.run ⟨LogPoint.dealing.shares, LogPoint.dealing.vector⟩
      [.extend 9 0] = .ok s ∧ ∃ entry ∈ s.vector.entries, entry.domainPoint = 0) ∧
    ∃ s : KeyState LogPoint, Call.run ⟨LogPoint.dealing.shares, LogPoint.dealing.vector⟩
      [.recover [⟨0, 1, 8⟩, ⟨1, 2, 11⟩] 2 9 0] = .ok s ∧
        ⟨9, 0, LogPoint.dealing.polynomial.constant⟩ ∈ s.shares := by
  have htaken : ∃ s : KeyState LogPoint, Call.run
      ⟨LogPoint.dealing.shares, LogPoint.dealing.vector⟩ [.extend 9 1] = .ok s :=
    Outcome.exists_eq_ok (by decide)
  have hzero : ∃ s : KeyState LogPoint, Call.run
      ⟨LogPoint.dealing.shares, LogPoint.dealing.vector⟩ [.extend 9 0] = .ok s :=
    Outcome.exists_eq_ok (by decide)
  have hsecret : (KeyShare.recover [⟨0, 1, 8⟩, ⟨1, 2, 11⟩] 2 9 0).result =
      .ok ⟨9, 0, LogPoint.dealing.polynomial.constant⟩ :=
    recover_zero_of_dealt LogPoint.dealt_dealing (by decide) (by decide) (by decide) (by decide)
  have hrecovered : Call.run ⟨LogPoint.dealing.shares, LogPoint.dealing.vector⟩
      [.recover [⟨0, 1, 8⟩, ⟨1, 2, 11⟩] 2 9 0] =
        .ok ⟨⟨9, 0, LogPoint.dealing.polynomial.constant⟩ :: LogPoint.dealing.shares,
          LogPoint.dealing.vector⟩ := by
    rw [Call.run_singleton, Call.perform, Call.made, hsecret]
    rfl
  obtain ⟨s, htaken⟩ := htaken
  obtain ⟨s', hzero⟩ := hzero
  refine ⟨LogPoint.dealt_dealing, ⟨s, htaken, ?_⟩, ⟨s', hzero, ?_⟩,
    ⟨_, hrecovered, List.mem_cons_self⟩⟩
  · rw [← VerificationVector.domainPoints_seats, (Grows.of_run htaken).seats_eq]
    decide
  · have hseat : ⟨9, 0⟩ ∈ s'.vector.seats := by
      rw [(Grows.of_run hzero).seats_eq]
      exact List.mem_append_right _ List.mem_cons_self
    obtain ⟨entry, hentry, -, hpoint⟩ := VerificationVector.mem_seats.mp hseat
    exact ⟨entry, hentry, hpoint⟩

end KeyState
end ThresholdCipher
