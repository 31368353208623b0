import ThresholdCipher.Proofs.BlindedRecovery

/-
Calls that renew shares and commitments.

`Call.made` says once what an operation makes of a vector: the shares that it hands out, and the
vector that there is afterwards.  Whatever is done step after step with these operations, by
participants who hold their shares or by callers who choose everything, performs such calls.  A
run of them keeps all shares that were handed out, and `Grows` says what a call, and so every run,
adds in terms of what was asked for.
-/

namespace ThresholdCipher

/-- The shares that are held at one moment, and what is public about them. -/
structure KeyState (G : Type) where
  shares : List KeyShare
  vector : VerificationVector G

/-- A call of an operation that renews shares or commitments, with what its caller gives it. -/
inductive Call (G : Type)
  | refresh (shares : List KeyShare) (threshold : Nat) (strategy : DealerStrategy G) (e : Entropy)
  | applyRefresh (transcripts : List (Transcript G)) (threshold : Nat)
  | extend (p : Participant) (x : Scalar)
  | recover (shares : List KeyShare) (threshold : Nat) (p : Participant) (x : Scalar)
  | recoverBlinded (shares : List KeyShare) (transcripts : List (Transcript G)) (threshold : Nat)
      (p : Participant) (x : Scalar)

namespace Call

variable {G : Type}

/-- The seat that is asked for in the vector. -/
def seat? : Call G → Option Seat
  | extend p x => some ⟨p, x⟩
  | _ => none

/-- The point that a share is asked for. -/
def target? : Call G → Option Scalar
  | recover _ _ _ x => some x
  | recoverBlinded _ _ _ _ x => some x
  | _ => none

variable [CurveGroup G]

/-- The shares that the call hands out, and the vector after it. -/
def made (vector : VerificationVector G) : Call G → Except Failure (KeyState G)
  | refresh shares threshold strategy e =>
    (vector.refresh shares threshold strategy e).result.map fun renewed =>
      ⟨renewed.1.1, renewed.1.2⟩
  | applyRefresh transcripts threshold =>
    (vector.applyRefresh transcripts threshold).result.map fun moved => ⟨[], moved⟩
  | extend p x => (vector.extend p x).result.map fun extended => ⟨[], extended⟩
  | recover shares threshold p x =>
    (KeyShare.recover shares threshold p x).result.map fun share => ⟨[share], vector⟩
  | recoverBlinded shares transcripts threshold p x =>
    (KeyShare.recoverBlinded shares transcripts threshold p x).result.map fun share =>
      ⟨[share], vector⟩

/-- The vector after the call, and every share that was handed out so far. -/
def perform (s : KeyState G) (call : Call G) : Except Failure (KeyState G) :=
  (call.made s.vector).map fun made => ⟨made.shares ++ s.shares, made.vector⟩

/-- The calls one after the other, all of which must succeed. -/
def run (s : KeyState G) (calls : List (Call G)) : Except Failure (KeyState G) :=
  calls.foldlM perform s

theorem perform_eq_ok {s s' : KeyState G} {call : Call G} :
    call.perform s = .ok s' ↔
      ∃ made, call.made s.vector = .ok made ∧ ⟨made.shares ++ s.shares, made.vector⟩ = s' :=
  Outcome.map_eq_ok

theorem run_singleton (s : KeyState G) (call : Call G) : run s [call] = call.perform s := by
  rw [run, List.foldlM_cons]
  exact bind_pure (call.perform s)

theorem run_append (s : KeyState G) (calls further : List (Call G)) :
    run s (calls ++ further) = run s calls >>= fun reached => run reached further :=
  List.foldlM_append

end Call

namespace KeyState

variable {G : Type}

/-- What calls add to a state: the seats that were asked for, of participants without one whose
indices fit, and shares at seats of the vector or at points that were asked for. -/
structure Grows (s s' : KeyState G) (seats : List Seat) (targets : List Scalar) : Prop where
  seats_eq : s'.vector.seats = s.vector.seats ++ seats
  participants : (s.vector.entries.map (·.participant)).Nodup →
    (s'.vector.entries.map (·.participant)).Nodup
  fits : ∀ seat ∈ seats, seat.participant.toNat ≤ maxWord32
  kept : ∀ share ∈ s.shares, share ∈ s'.shares
  placed : ∀ share ∈ s'.shares, share ∈ s.shares ∨ share.seat ∈ s'.vector.seats ∨
    share.domainPoint ∈ targets ∧ share.participant.toNat ≤ maxWord32
  given : ∀ x ∈ targets, ∃ share ∈ s'.shares, share.domainPoint = x

namespace Grows

variable {s s₁ s₂ : KeyState G} {seats seats' : List Seat} {targets targets' : List Scalar}

theorem trans (h : s.Grows s₁ seats targets) (h' : s₁.Grows s₂ seats' targets') :
    s.Grows s₂ (seats ++ seats') (targets ++ targets') where
  seats_eq := by rw [h'.seats_eq, h.seats_eq, List.append_assoc]
  participants hnodup := h'.participants (h.participants hnodup)
  fits seat hseat := by
    rcases List.mem_append.mp hseat with hseat | hseat
    · exact h.fits seat hseat
    · exact h'.fits seat hseat
  kept share hshare := h'.kept share (h.kept share hshare)
  placed share hshare := by
    rcases h'.placed share hshare with hshare | hseat | htarget
    · rcases h.placed share hshare with hshare | hseat | htarget
      · exact .inl hshare
      · refine .inr (.inl ?_)
        rw [h'.seats_eq]
        exact List.mem_append_left _ hseat
      · exact .inr (.inr ⟨List.mem_append_left _ htarget.1, htarget.2⟩)
    · exact .inr (.inl hseat)
    · exact .inr (.inr ⟨List.mem_append_right _ htarget.1, htarget.2⟩)
  given x hx := by
    rcases List.mem_append.mp hx with hx | hx
    · obtain ⟨share, hshare, hpoint⟩ := h.given x hx
      exact ⟨share, h'.kept share hshare, hpoint⟩
    · exact h'.given x hx

/-- A vector whose seats have not changed, and further shares at them. -/
theorem of_seats_eq {vector : VerificationVector G} {shares : List KeyShare}
    (hseats : vector.seats = s.vector.seats)
    (hshares : ∀ share ∈ shares, share.seat ∈ s.vector.seats) :
    s.Grows ⟨shares ++ s.shares, vector⟩ [] [] where
  seats_eq := by rw [hseats, List.append_nil]
  participants hnodup := by
    rw [← VerificationVector.participants_seats] at hnodup ⊢
    rwa [hseats]
  fits _ h := absurd h List.not_mem_nil
  kept _ h := List.mem_append_right _ h
  placed share h := by
    rcases List.mem_append.mp h with hnew | hold
    · exact .inr (.inl (hseats ▸ hshares share hnew))
    · exact .inl hold
  given _ h := absurd h List.not_mem_nil

/-- The same without further shares. -/
theorem of_vector {vector : VerificationVector G} (hseats : vector.seats = s.vector.seats) :
    s.Grows { s with vector := vector } [] [] :=
  of_seats_eq hseats fun _ h => absurd h List.not_mem_nil

theorem of_recovered {share : KeyShare} {x : Scalar} (hpoint : share.domainPoint = x)
    (hfits : share.participant.toNat ≤ maxWord32) :
    s.Grows { s with shares := share :: s.shares } [] [x] where
  seats_eq := (List.append_nil _).symm
  participants hnodup := hnodup
  fits _ h := absurd h List.not_mem_nil
  kept _ h := List.mem_cons_of_mem _ h
  placed held hheld := by
    rcases List.mem_cons.mp hheld with rfl | hold
    · exact .inr (.inr ⟨List.mem_singleton.mpr hpoint, hfits⟩)
    · exact .inl hold
  given y hy := ⟨share, List.mem_cons_self, hpoint.trans (List.mem_singleton.mp hy).symm⟩

theorem of_extend [CurveGroup G] {extended : VerificationVector G} {p : Participant} {x : Scalar}
    (h : (s.vector.extend p x).result = .ok extended) :
    s.Grows { s with vector := extended } [⟨p, x⟩] [] where
  seats_eq := VerificationVector.seats_of_extend h
  participants hnodup := VerificationVector.nodup_participants_of_extend hnodup h
  fits seat hseat := by
    obtain ⟨hp, -⟩ := VerificationVector.extend_eq_ok.mp h
    rw [List.mem_singleton.mp hseat]
    exact checkParticipant_eq_ok.mp hp
  kept _ h := h
  placed _ h := .inl h
  given _ h := absurd h List.not_mem_nil

end Grows

/-! ## Each call -/

variable [CurveGroup G] {s s' : KeyState G}

/-- Only shares at seats of the vector are refreshed. -/
theorem seat_mem_of_refresh {threshold : Nat} {strategy : DealerStrategy G} {e rest : Entropy}
    {shares refreshed : List KeyShare} {moved : VerificationVector G}
    (h : (s.vector.refresh shares threshold strategy e).result = .ok ((refreshed, moved), rest)) :
    ∀ share ∈ refreshed, share.seat ∈ s.vector.seats := by
  intro share hshare
  obtain ⟨transcript, hdrawn, -, hshares, -⟩ := VerificationVector.refresh_eq_ok.mp h
  obtain ⟨-, d, -, rfl⟩ := Transcript.sample_eq_ok.mp (Transcript.refresh_eq_ok.mp hdrawn)
  obtain ⟨old, -, happlied⟩ := Outcome.mem_of_mapM hshares hshare
  obtain ⟨update, hupdate, hpoint⟩ :=
    KeyShare.exists_applyTranscripts_iff.mp ⟨share, happlied⟩ _ (List.mem_singleton_self _)
  obtain ⟨updates, -, happlied⟩ := KeyShare.applyTranscripts_eq_ok.mp happlied
  obtain ⟨-, rfl⟩ := KeyShare.applyUpdates_eq_ok.mp happlied
  obtain ⟨hmem, hparticipant⟩ := Transcript.mem_of_update? hupdate
  rw [Transcript.ofPolynomial_eq] at hmem
  obtain ⟨seat, hseat, rfl⟩ := List.mem_map.mp hmem
  have hsame : seat = old.seat := by
    rw [KeyShare.seat, ← hparticipant, ← hpoint]
  exact hsame ▸ hseat

theorem fits_of_recover {shares : List KeyShare} {threshold : Nat} {p : Participant} {x : Scalar}
    {share : KeyShare} (h : (KeyShare.recover shares threshold p x).result = .ok share) :
    share.domainPoint = x ∧ share.participant.toNat ≤ maxWord32 := by
  obtain ⟨-, hp, -, -, rfl⟩ := KeyShare.recover_eq_ok.mp h
  exact ⟨rfl, checkParticipant_eq_ok.mp hp⟩

theorem Grows.of_perform {call : Call G} (h : call.perform s = .ok s') :
    s.Grows s' call.seat?.toList call.target?.toList := by
  obtain ⟨made, hmade, rfl⟩ := Call.perform_eq_ok.mp h
  cases call with
  | refresh shares threshold strategy e =>
    obtain ⟨⟨⟨refreshed, moved⟩, rest⟩, hrefresh, rfl⟩ := Outcome.map_eq_ok.mp hmade
    obtain ⟨_, -, -, -, hmoved⟩ := VerificationVector.refresh_eq_ok.mp hrefresh
    exact .of_seats_eq (VerificationVector.seats_of_applyRefresh hmoved)
      (seat_mem_of_refresh hrefresh)
  | applyRefresh transcripts threshold =>
    obtain ⟨moved, hmoved, rfl⟩ := Outcome.map_eq_ok.mp hmade
    exact .of_vector (VerificationVector.seats_of_applyRefresh hmoved)
  | extend p x =>
    obtain ⟨extended, hextended, rfl⟩ := Outcome.map_eq_ok.mp hmade
    exact .of_extend hextended
  | recover shares threshold p x =>
    obtain ⟨share, hshare, rfl⟩ := Outcome.map_eq_ok.mp hmade
    obtain ⟨hpoint, hfits⟩ := fits_of_recover hshare
    exact .of_recovered hpoint hfits
  | recoverBlinded shares transcripts threshold p x =>
    obtain ⟨share, hshare, rfl⟩ := Outcome.map_eq_ok.mp hmade
    obtain ⟨-, blinded, -, hshare⟩ := KeyShare.recoverBlinded_eq_ok.mp hshare
    obtain ⟨hpoint, hfits⟩ := fits_of_recover hshare
    exact .of_recovered hpoint hfits

/-! ## Every run -/

theorem Grows.of_run {calls : List (Call G)} (h : Call.run s calls = .ok s') :
    s.Grows s' (calls.filterMap (·.seat?)) (calls.filterMap (·.target?)) := by
  induction calls generalizing s with
  | nil =>
    cases h
    exact .of_vector rfl
  | cons call calls ih =>
    rw [Call.run, List.foldlM_cons] at h
    obtain ⟨s₁, hcall, hcalls⟩ := Outcome.bind_eq_ok.mp h
    have hgrows := (Grows.of_perform hcall).trans (ih hcalls)
    rwa [List.filterMap_eq_flatMap_toList, List.filterMap_eq_flatMap_toList] at hgrows ⊢

end KeyState
end ThresholdCipher
