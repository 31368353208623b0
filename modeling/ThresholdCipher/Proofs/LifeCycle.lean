import ThresholdCipher.Proofs.RenewalCalls

/-
The life of a dealing.

Its shares are refreshed together with the vector, get lost and are rebuilt, for participants that
the vector has or is extended by.  Apart from its losses such a life is a run of calls
(`Reachable.exists_run`), so the vector keeps as many entries as were dealt, or more, each for
another participant.  The polynomial behind the shares changes with each refresh, but at every
moment there is one, with the dealt threshold and secret, whose values the shares are and to which
the vector commits: that is the invariant `Sound`, which each step carries over.
-/

namespace ThresholdCipher

namespace KeyState

variable {G : Type} [CurveGroup G]

/-- A call for a share of `p` at `x` from the shares of others, plainly or blinded. -/
inductive Rebuilds (helpers : List KeyShare) (threshold : Nat) (p : Participant) (x : Scalar) :
    Call G → Prop
  | plain : Rebuilds helpers threshold p x (.recover helpers threshold p x)
  | blinded (transcripts : List (Transcript G)) :
      Rebuilds helpers threshold p x (.recoverBlinded helpers transcripts threshold p x)

/-- One step in the life of a dealing.  All shares are refreshed together, and what they were is
given up.  Shares are rebuilt from any of those that are held, as long as a share that is already
at the point is among them; all of them are such a choice. -/
inductive Step (threshold : Nat) : KeyState G → KeyState G → Prop
  | refresh {s s' : KeyState G} {strategy : DealerStrategy G} {e : Entropy}
      (h : (Call.refresh s.shares threshold strategy e).made s.vector = .ok s') :
      Step threshold s s'
  | lose {s : KeyState G} {kept : List KeyShare} (h : kept.Subperm s.shares) :
      Step threshold s { s with shares := kept }
  | extend {s s' : KeyState G} {p : Participant} {x : Scalar}
      (h : (Call.extend p x).perform s = .ok s') : Step threshold s s'
  | rebuild {s s' : KeyState G} {helpers : List KeyShare} {p : Participant} {x : Scalar}
      {call : Call G} (hcall : Rebuilds helpers threshold p x call)
      (hlost : ∀ held ∈ s.shares, held.participant ≠ p) (hseat : ⟨p, x⟩ ∈ s.vector.seats)
      (hhelpers : ∀ helper ∈ helpers, helper ∈ s.shares)
      (htaken : ∀ held ∈ s.shares, held.domainPoint = x → held ∈ helpers)
      (h : call.perform s = .ok s') : Step threshold s s'

/-- The states that a dealing can come to. -/
def Reachable (threshold : Nat) (dealing : Dealing G) (s : KeyState G) : Prop :=
  Relation.ReflTransGen (Step threshold) ⟨dealing.shares, dealing.vector⟩ s

/-! ## A life as a run of calls -/

/-- The same vector, and shares that the other state has as well. -/
structure Within (s t : KeyState G) : Prop where
  vector_eq : s.vector = t.vector
  shares : s.shares ⊆ t.shares

section

variable {s s' t : KeyState G} {threshold : Nat} {parameters : Parameters} {dealing : Dealing G}

theorem Within.of_made {call : Call G} {made : KeyState G} {held : List KeyShare}
    (h : s.Within t) (hmade : call.made s.vector = .ok made)
    (hheld : held ⊆ made.shares ++ s.shares) :
    ∃ t', Call.run t [call] = .ok t' ∧ Within ⟨held, made.vector⟩ t' := by
  rw [h.vector_eq] at hmade
  refine ⟨⟨made.shares ++ t.shares, made.vector⟩, ?_, rfl, ?_⟩
  · rw [Call.run_singleton]
    exact Call.perform_eq_ok.mpr ⟨made, hmade, rfl⟩
  · intro share hshare
    rcases List.mem_append.mp (hheld hshare) with hnew | hold
    · exact List.mem_append_left _ hnew
    · exact List.mem_append_right _ (h.shares hold)

theorem Within.of_perform {call : Call G} (h : s.Within t) (hcall : call.perform s = .ok s') :
    ∃ t', Call.run t [call] = .ok t' ∧ s'.Within t' := by
  obtain ⟨made, hmade, rfl⟩ := Call.perform_eq_ok.mp hcall
  exact h.of_made hmade (List.Subset.refl _)

/-- A step is at most one call, made where more shares may still be held. -/
theorem Within.step (h : s.Within t) (hstep : Step threshold s s') :
    ∃ calls t', Call.run t calls = .ok t' ∧ s'.Within t' := by
  cases hstep with
  | refresh hmade => exact ⟨_, h.of_made hmade (List.subset_append_left _ _)⟩
  | lose hkept =>
    exact ⟨[], t, rfl, h.vector_eq, fun share hshare => h.shares (hkept.subset hshare)⟩
  | extend hcall => exact ⟨_, h.of_perform hcall⟩
  | rebuild _ _ _ _ _ hcall => exact ⟨_, h.of_perform hcall⟩

theorem Reachable.exists_run (hreached : Reachable threshold dealing s) :
    ∃ calls t, Call.run ⟨dealing.shares, dealing.vector⟩ calls = .ok t ∧ s.Within t := by
  induction hreached with
  | refl => exact ⟨[], _, rfl, rfl, List.Subset.refl _⟩
  | tail _ hstep ih =>
    obtain ⟨calls, t, hrun, hwithin⟩ := ih
    obtain ⟨further, t', hfurther, hwithin'⟩ := hwithin.step hstep
    refine ⟨calls ++ further, t', ?_, hwithin'⟩
    rw [Call.run_append]
    exact Outcome.bind_eq_ok.mpr ⟨t, hrun, hfurther⟩

theorem Reachable.nodup_participants [LawfulCurveGroup G] (hdealt : Dealt parameters dealing)
    (hreached : Reachable threshold dealing s) :
    (s.vector.entries.map (·.participant)).Nodup := by
  obtain ⟨calls, t, hrun, hwithin⟩ := hreached.exists_run
  rw [hwithin.vector_eq]
  exact (Grows.of_run hrun).participants hdealt.nodup_entries

/-- Entries are only added, so they determine the polynomial as the dealt ones do. -/
theorem Reachable.threshold_le [LawfulCurveGroup G] (hdealt : Dealt parameters dealing)
    (hreached : Reachable threshold dealing s) :
    parameters.threshold ≤ s.vector.entries.length := by
  obtain ⟨calls, t, hrun, hwithin⟩ := hreached.exists_run
  have hlength := congrArg List.length (Grows.of_run hrun).seats_eq
  rw [VerificationVector.seats, VerificationVector.seats, List.length_append, List.length_map,
    List.length_map, hdealt.length_entries, ← hwithin.vector_eq] at hlength
  have hle := (Parameters.validate_eq_ok.mp hdealt.validate).2.2.1
  omega

end

/-! ## The invariant -/

/-- The shares are values of `f` at distinct points of distinct participants, the vector commits
to `f`, and it accepts the shares. -/
structure Sound (s : KeyState G) (f : SharingPolynomial) : Prop where
  commitsTo : s.vector.CommitsTo f
  accepted : ∀ share ∈ s.shares, (s.vector.verifyShare share).value = true
  participantsNodup : (s.shares.map (·.participant)).Nodup
  pointsNodup : (s.shares.map (·.domainPoint)).Nodup

variable [LawfulCurveGroup G] {s s' : KeyState G} {f : SharingPolynomial} {threshold : Nat}

theorem Sound.value_eq (hs : s.Sound f) {share : KeyShare} (hshare : share ∈ s.shares) :
    share.value = f.evaluate share.domainPoint :=
  (hs.commitsTo.verifyShare_eq_true.mp (hs.accepted share hshare)).2

theorem Sound.ofDealt {parameters : Parameters} {dealing : Dealing G}
    (hdealt : Dealt parameters dealing) :
    Sound ⟨dealing.shares, dealing.vector⟩ dealing.polynomial where
  commitsTo := hdealt.commitsTo
  accepted _ hshare := hdealt.verifyShare_eq_true hshare
  participantsNodup := hdealt.nodup_participants
  pointsNodup := hdealt.nodup_domainPoints (fun _ h => h) hdealt.nodup_participants

/-! ## Each step -/

omit [LawfulCurveGroup G] in
/-- A refresh leaves every share and every entry at its seat. -/
theorem seats_of_refresh {strategy : DealerStrategy G} {e rest : Entropy}
    (h : (s.vector.refresh s.shares threshold strategy e).result =
      .ok ((s'.shares, s'.vector), rest)) :
    s'.shares.map (·.seat) = s.shares.map (·.seat) ∧ s'.vector.seats = s.vector.seats := by
  obtain ⟨transcript, -, -, hshares, hvector⟩ := VerificationVector.refresh_eq_ok.mp h
  refine ⟨Outcome.map_eq_of_mapM hshares ?_, VerificationVector.seats_of_applyRefresh hvector⟩
  intro share _ share' _ happlied
  obtain ⟨updates, -, happlied⟩ := KeyShare.applyTranscripts_eq_ok.mp happlied
  obtain ⟨-, rfl⟩ := KeyShare.applyUpdates_eq_ok.mp happlied
  rfl

/-- A refresh moves shares and vector to the sum with a polynomial that is zero at zero. -/
theorem Sound.refresh (hs : s.Sound f) (hnodup : (s.vector.entries.map (·.participant)).Nodup)
    {strategy : DealerStrategy G} {e rest : Entropy}
    (h : (s.vector.refresh s.shares f.threshold strategy e).result =
      .ok ((s'.shares, s'.vector), rest)) :
    ∃ f' : SharingPolynomial,
      f'.threshold = f.threshold ∧ f'.constant = f.constant ∧ s'.Sound f' := by
  obtain ⟨hshareSeats, -⟩ := seats_of_refresh h
  obtain ⟨transcript, hdrawn, hverified, hshares, hvector⟩ :=
    VerificationVector.refresh_eq_ok.mp h
  have haddressed : ∀ t ∈ [transcript], t.Addresses s.vector := by
    intro t ht
    rw [List.mem_singleton.mp ht]
    exact VerificationVector.addresses_of_refresh hnodup hdrawn
  have hverified : ∀ t ∈ [transcript], (t.verifyRoot 0 f.threshold).result = .ok () := by
    intro t ht
    rwa [List.mem_singleton.mp ht]
  refine ⟨f.movedBy [transcript], SharingPolynomial.threshold_movedBy hverified,
    SharingPolynomial.constant_movedBy hverified, ?_⟩
  constructor
  · exact hs.commitsTo.applyRefresh haddressed hvector
  · -- Each share was moved by the one transcript that moved the vector.
    intro share' hshare'
    obtain ⟨share, hshare, happlied⟩ := Outcome.mem_of_mapM hshares hshare'
    obtain ⟨moved, hmoved, haccepted⟩ := hs.commitsTo.verifyShare_applyTranscripts
      hnodup haddressed hvector (hs.accepted share hshare)
    rw [hmoved] at happlied
    cases happlied
    exact haccepted
  · have hparticipants := congrArg (List.map Seat.participant) hshareSeats
    rw [List.map_map, List.map_map] at hparticipants
    exact (show s'.shares.map (·.participant) = _ from hparticipants) ▸ hs.participantsNodup
  · have hpoints := congrArg (List.map Seat.domainPoint) hshareSeats
    rw [List.map_map, List.map_map] at hpoints
    exact (show s'.shares.map (·.domainPoint) = _ from hpoints) ▸ hs.pointsNodup

theorem nodup_map_of_subperm {α β : Type} {g : α → β} {kept all : List α} (h : kept.Subperm all)
    (hnodup : (all.map g).Nodup) : (kept.map g).Nodup := by
  obtain ⟨sub, hperm, hsub⟩ := h
  exact (hperm.map g).nodup_iff.mp (hnodup.sublist (hsub.map g))

omit [LawfulCurveGroup G] in
theorem Sound.lose (hs : s.Sound f) {kept : List KeyShare} (h : kept.Subperm s.shares) :
    Sound { s with shares := kept } f where
  commitsTo := hs.commitsTo
  accepted share hshare := hs.accepted share (h.subset hshare)
  participantsNodup := nodup_map_of_subperm h hs.participantsNodup
  pointsNodup := nodup_map_of_subperm h hs.pointsNodup

theorem Sound.extend (hs : s.Sound f) (hnodup : (s.vector.entries.map (·.participant)).Nodup)
    (henough : f.threshold ≤ s.vector.entries.length) {p : Participant} {x : Scalar}
    (h : (Call.extend p x).perform s = .ok s') : s'.Sound f := by
  have hgrows := Grows.of_perform h
  obtain ⟨made, hmade, rfl⟩ := Call.perform_eq_ok.mp h
  obtain ⟨extended, hextended, rfl⟩ := Outcome.map_eq_ok.mp hmade
  have hcommits := hs.commitsTo.extend henough hextended
  refine ⟨hcommits, ?_, hs.participantsNodup, hs.pointsNodup⟩
  intro share hshare
  obtain ⟨hseat, hvalue⟩ :=
    (hs.commitsTo.verifyShare_iff_seat hnodup).mp (hs.accepted share hshare)
  refine (hcommits.verifyShare_iff_seat (hgrows.participants hnodup)).mpr ⟨?_, hvalue⟩
  rw [hgrows.seats_eq]
  exact List.mem_append_left _ hseat

theorem Sound.made_of_rebuilds (hs : s.Sound f) {helpers : List KeyShare} {p : Participant}
    {x : Scalar} {call : Call G} {made : KeyState G}
    (hcall : Rebuilds helpers f.threshold p x call)
    (hhelpers : ∀ helper ∈ helpers, helper ∈ s.shares) (h : call.made s.vector = .ok made) :
    made = ⟨[⟨p, x, f.evaluate x⟩], s.vector⟩ ∧ ∀ helper ∈ helpers, helper.domainPoint ≠ x := by
  have hvalues : ∀ helper ∈ helpers, helper.value = f.evaluate helper.domainPoint :=
    fun helper hhelper => hs.value_eq (hhelpers helper hhelper)
  cases hcall with
  | plain =>
    obtain ⟨share, hshare, rfl⟩ := Outcome.map_eq_ok.mp h
    obtain ⟨rfl, hfree⟩ := KeyShare.eq_of_recover hvalues hshare
    exact ⟨rfl, hfree⟩
  | blinded transcripts =>
    obtain ⟨share, hshare, rfl⟩ := Outcome.map_eq_ok.mp h
    obtain ⟨rfl, hfree⟩ := KeyShare.eq_of_recoverBlinded hvalues hshare
    exact ⟨rfl, hfree⟩

theorem Sound.rebuild (hs : s.Sound f) (hnodup : (s.vector.entries.map (·.participant)).Nodup)
    {helpers : List KeyShare} {p : Participant} {x : Scalar} {call : Call G}
    (hcall : Rebuilds helpers f.threshold p x call)
    (hlost : ∀ held ∈ s.shares, held.participant ≠ p) (hseat : ⟨p, x⟩ ∈ s.vector.seats)
    (hhelpers : ∀ helper ∈ helpers, helper ∈ s.shares)
    (htaken : ∀ held ∈ s.shares, held.domainPoint = x → held ∈ helpers)
    (h : call.perform s = .ok s') : s'.Sound f := by
  obtain ⟨made, hmade, rfl⟩ := Call.perform_eq_ok.mp h
  obtain ⟨rfl, hfree⟩ := hs.made_of_rebuilds hcall hhelpers hmade
  refine ⟨hs.commitsTo, ?_, ?_, ?_⟩
  · intro held hheld
    rcases List.mem_cons.mp hheld with rfl | hheld
    · exact (hs.commitsTo.verifyShare_iff_seat hnodup).mpr ⟨hseat, rfl⟩
    · exact hs.accepted held hheld
  · refine List.nodup_cons.mpr ⟨?_, hs.participantsNodup⟩
    intro hmem
    obtain ⟨held, hheld, hp⟩ := List.mem_map.mp hmem
    exact hlost held hheld hp
  · refine List.nodup_cons.mpr ⟨?_, hs.pointsNodup⟩
    intro hmem
    obtain ⟨held, hheld, hx⟩ := List.mem_map.mp hmem
    exact hfree held (htaken held hheld hx) hx

theorem Sound.step (hs : s.Sound f) (hnodup : (s.vector.entries.map (·.participant)).Nodup)
    (henough : f.threshold ≤ s.vector.entries.length) (hstep : Step f.threshold s s') :
    ∃ f' : SharingPolynomial,
      f'.threshold = f.threshold ∧ f'.constant = f.constant ∧ s'.Sound f' := by
  cases hstep with
  | refresh h =>
    obtain ⟨⟨renewed, rest⟩, hrefresh, rfl⟩ := Outcome.map_eq_ok.mp h
    exact hs.refresh hnodup hrefresh
  | lose h => exact ⟨f, rfl, rfl, hs.lose h⟩
  | extend h => exact ⟨f, rfl, rfl, hs.extend hnodup henough h⟩
  | rebuild hcall hlost hseat hhelpers htaken h =>
    exact ⟨f, rfl, rfl, hs.rebuild hnodup hcall hlost hseat hhelpers htaken h⟩

/-! ## Every run -/

theorem Sound.of_reachable {parameters : Parameters} {dealing : Dealing G}
    (hdealt : Dealt parameters dealing) (hreached : Reachable parameters.threshold dealing s) :
    ∃ f : SharingPolynomial, f.threshold = parameters.threshold ∧
      f.constant = dealing.polynomial.constant ∧ s.Sound f := by
  induction hreached with
  | refl => exact ⟨dealing.polynomial, hdealt.threshold_polynomial, rfl, .ofDealt hdealt⟩
  | tail hreached hstep ih =>
    -- A refresh changes the polynomial, so the last step starts from the one reached so far.
    obtain ⟨f, hthreshold, hconstant, hs⟩ := ih
    have hnodup := Reachable.nodup_participants hdealt hreached
    have henough := Reachable.threshold_le hdealt hreached
    rw [← hthreshold] at hstep henough
    obtain ⟨f', hthreshold', hconstant', hf'⟩ := hs.step hnodup henough hstep
    exact ⟨f', hthreshold'.trans hthreshold, hconstant'.trans hconstant, hf'⟩

/-- Enough of the shares that are held at one moment determine the secret. -/
theorem Sound.reconstructSecret (hs : s.Sound f) {quorum : List KeyShare}
    (hquorum : ∀ share ∈ quorum, share ∈ s.shares)
    (hnodup : (quorum.map (·.participant)).Nodup) (henough : f.threshold ≤ quorum.length) :
    (reconstructSecret quorum f.threshold).result = .ok f.constant := by
  refine reconstructSecret_values henough ?_ fun share h => hs.value_eq (hquorum share h)
  refine List.Nodup.map_on ?_ hnodup.of_map
  intro a ha b hb hx
  exact List.inj_on_of_nodup_map hs.pointsNodup (hquorum a ha) (hquorum b hb) hx

/-- Whatever happens to a dealing: behind the shares and the vector there is a polynomial with
the dealt threshold and secret, the public key stays, the vector accepts every share, a refresh
leaves shares and entries at their seats, and any quorum reconstructs the dealt secret. -/
theorem sound_of_reachable {parameters : Parameters} {dealing : Dealing G}
    (hdealt : Dealt parameters dealing) (hrun : Reachable parameters.threshold dealing s) :
    (∃ f' : SharingPolynomial, f'.threshold = parameters.threshold ∧
      f'.constant = dealing.polynomial.constant ∧
      (∀ share ∈ s.shares, share.value = f'.evaluate share.domainPoint) ∧
      ∀ entry ∈ s.vector.entries,
        entry.commitment = f'.evaluate entry.domainPoint • generator) ∧
    s.vector.publicKey = dealing.vector.publicKey ∧
    (∀ share ∈ s.shares, (s.vector.verifyShare share).value = true) ∧
    (s.shares.map (·.participant)).Nodup ∧ (s.shares.map (·.domainPoint)).Nodup ∧
    (∀ (s' : KeyState G) (strategy : DealerStrategy G) (e rest : Entropy),
      (s.vector.refresh s.shares parameters.threshold strategy e).result =
        .ok ((s'.shares, s'.vector), rest) →
      s'.shares.map (·.seat) = s.shares.map (·.seat) ∧ s'.vector.seats = s.vector.seats) ∧
    ∀ quorum : List KeyShare, (∀ share ∈ quorum, share ∈ s.shares) →
      (quorum.map (·.participant)).Nodup → parameters.threshold ≤ quorum.length →
      (ThresholdCipher.reconstructSecret quorum parameters.threshold).result =
        .ok dealing.polynomial.constant := by
  obtain ⟨f', hthreshold, hconstant, hs⟩ := Sound.of_reachable hdealt hrun
  refine ⟨⟨f', hthreshold, hconstant, fun share h => hs.value_eq h, hs.commitsTo.commitment⟩,
    ?_, hs.accepted, hs.participantsNodup, hs.pointsNodup,
    fun s' strategy e rest h => seats_of_refresh h, ?_⟩
  · rw [hs.commitsTo.publicKey, hdealt.commitsTo.publicKey, hconstant]
  · intro quorum hquorum hnodup henough
    rw [← hthreshold] at henough ⊢
    rw [← hconstant]
    exact hs.reconstructSecret hquorum hnodup henough

/-- The third of three shares is lost and rebuilt, and all are refreshed. -/
theorem sound_of_lost_rebuilt_refreshed :
    ∃ s : KeyState LogPoint, Reachable 2 LogPoint.dealing s ∧
      s.shares = [⟨2, 3, 17⟩, ⟨0, 1, 9⟩, ⟨1, 2, 13⟩] ∧ s.vector.publicKey = ⟨5⟩ ∧
      (ThresholdCipher.reconstructSecret [⟨2, 3, 17⟩, ⟨1, 2, 13⟩] 2).result = .ok 5 := by
  have hlose : Step 2 (⟨LogPoint.dealing.shares, LogPoint.dealing.vector⟩ : KeyState LogPoint)
      ⟨[⟨0, 1, 8⟩, ⟨1, 2, 11⟩], LogPoint.dealing.vector⟩ :=
    .lose (List.Sublist.subperm (by decide))
  have hrecovered : (KeyShare.recover [⟨0, 1, 8⟩, ⟨1, 2, 11⟩] 2 2 3).result = .ok ⟨2, 3, 14⟩ := by
    decide +kernel
  have hrebuild : Step 2
      (⟨[⟨0, 1, 8⟩, ⟨1, 2, 11⟩], LogPoint.dealing.vector⟩ : KeyState LogPoint)
      ⟨[⟨2, 3, 14⟩, ⟨0, 1, 8⟩, ⟨1, 2, 11⟩], LogPoint.dealing.vector⟩ :=
    .rebuild .plain (by decide) (by decide) (fun _ h => h) (fun _ h _ => h)
      (Call.perform_eq_ok.mpr ⟨_, Outcome.map_eq_ok.mpr ⟨_, hrecovered, rfl⟩, rfl⟩)
  have hrefresh : ∃ rest, (LogPoint.dealing.vector.refresh
      [⟨2, 3, 14⟩, ⟨0, 1, 8⟩, ⟨1, 2, 11⟩] 2 .simple (.ofList [4, 0, 0, 0, 1, 0, 0, 0])).result =
      .ok (([⟨2, 3, 17⟩, ⟨0, 1, 9⟩, ⟨1, 2, 13⟩],
        ⟨⟨5⟩, [⟨0, 1, ⟨9⟩⟩, ⟨1, 2, ⟨13⟩⟩, ⟨2, 3, ⟨17⟩⟩]⟩), rest) := ⟨_, rfl⟩
  obtain ⟨rest, hrefresh⟩ := hrefresh
  have hrun : Reachable 2 LogPoint.dealing
      (⟨[⟨2, 3, 17⟩, ⟨0, 1, 9⟩, ⟨1, 2, 13⟩],
        ⟨⟨5⟩, [⟨0, 1, ⟨9⟩⟩, ⟨1, 2, ⟨13⟩⟩, ⟨2, 3, ⟨17⟩⟩]⟩⟩ : KeyState LogPoint) :=
    ((Relation.ReflTransGen.single hlose).tail hrebuild).tail
      (.refresh (Outcome.map_eq_ok.mpr ⟨_, hrefresh, rfl⟩))
  obtain ⟨-, hkey, -, -, -, -, hquorum⟩ := sound_of_reachable LogPoint.dealt_dealing hrun
  exact ⟨_, hrun, rfl, hkey, hquorum _ (by decide) (by decide) (by decide)⟩

end KeyState
end ThresholdCipher
