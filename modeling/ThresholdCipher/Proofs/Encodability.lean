import ThresholdCipher.Proofs.AcceptedInputs
import ThresholdCipher.Proofs.Extension
import ThresholdCipher.Proofs.PreparedShares
import ThresholdCipher.Proofs.RenewalCalls

/-
Which values of the protocol can be encoded.

A value is written exactly where its numbers fit their 32-bit fields, whatever the groups'
encodings are.  The participants of everything that operations hand out fit (`fits_of_reached`):
parameters bound their number, recovery and extension check each index, and the rest copies them.
For vectors and the shares of a run of calls that is read off what the run adds (`Grows.of_run`).
The number of a vector's entries is not checked where one is added.  Participants are distinct, so
it exceeds its field by one exactly where every index that fits has an entry
(`encodes_of_reached`).
-/

namespace ThresholdCipher

theorem Outcome.exists_both_eq_ok {ε α β γ : Type} {x : Except ε α} {y : Except ε β}
    {f : α → β → γ} :
    (∃ c, (do
      let a ← x
      let b ← y
      return f a b : Except ε γ) = .ok c) ↔ (∃ a, x = .ok a) ∧ ∃ b, y = .ok b := by
  constructor
  · intro h
    obtain ⟨c, h⟩ := h
    obtain ⟨a, ha, h⟩ := bind_eq_ok.mp h
    obtain ⟨b, hb, -⟩ := bind_eq_ok.mp h
    exact ⟨⟨a, ha⟩, b, hb⟩
  · intro h
    obtain ⟨⟨a, ha⟩, b, hb⟩ := h
    exact ⟨f a b, bind_eq_ok.mpr ⟨a, ha, bind_eq_ok.mpr ⟨b, hb, rfl⟩⟩⟩

/-! ## What layouts write -/

namespace Layout

variable {α β γ : Type} {layout : Layout α}

theorem exists_write_word32 {n : Nat} : (∃ bs, word32.write n = .ok bs) ↔ n ≤ maxWord32 := by
  simp only [write_word32_eq_ok, exists_and_left, exists_eq, and_true]

theorem exists_write_both {first : Layout α} {second : Layout β} {a : α} {b : β} :
    (∃ bs, (first.both second).write (a, b) = .ok bs) ↔
      (∃ bs, first.write a = .ok bs) ∧ ∃ bs, second.write b = .ok bs :=
  Outcome.exists_both_eq_ok

theorem exists_writeAll {as : List α} :
    (∃ bs, layout.writeAll as = .ok bs) ↔ ∀ a ∈ as, ∃ bs, layout.write a = .ok bs := by
  induction as with
  | nil => exact ⟨fun _ _ h => absurd h List.not_mem_nil, fun _ => ⟨[], rfl⟩⟩
  | cons a as ih =>
    rw [List.forall_mem_cons, ← ih]
    exact Outcome.exists_both_eq_ok

theorem exists_write_counted {as : List α} :
    (∃ bs, layout.counted.write as = .ok bs) ↔
      as.length ≤ maxWord32 ∧ ∀ a ∈ as, ∃ bs, layout.write a = .ok bs := by
  rw [← exists_write_word32, ← exists_writeAll]
  exact Outcome.exists_both_eq_ok

theorem exists_write_tagged_zero {unknown : UInt8 → Malformation} {head : Layout α}
    {zero : Layout β} {one : Layout γ} {a : α} {b : β} :
    (∃ bs, (tagged unknown head zero one).write (a, .inl b) = .ok bs) ↔
      (∃ bs, head.write a = .ok bs) ∧ ∃ bs, zero.write b = .ok bs :=
  Outcome.exists_both_eq_ok (f := fun front back => 0 :: front ++ back)

end Layout

namespace Wire

variable {G1 G2 T : Type} [CurveGroup G1] [CurveGroup G2] [TargetGroup T]

theorem exists_write_seat {p : Participant} {x : Scalar} :
    (∃ bs, seat.write (p, x) = .ok bs) ↔ p.toNat ≤ maxWord32 := by
  simp only [write_seat_eq_ok, exists_and_left, exists_eq, and_true]

theorem exists_encode_keyShare {share : KeyShare} :
    (∃ bs, encode share = .ok bs) ↔ share.participant.toNat ≤ maxWord32 := by
  rw [← exists_write_seat (x := share.domainPoint)]
  exact Layout.exists_write_both.trans (and_iff_left ⟨share.value.encode, rfl⟩)

theorem exists_encode_fast {share : FastShare G2} :
    (∃ bs, encode (.fast share : DecryptionShare G2 T) = .ok bs) ↔
      share.participant.toNat ≤ maxWord32 := by
  have htagged : (∃ bs, encode (.fast share : DecryptionShare G2 T) = .ok bs) ↔ _ :=
    @Layout.exists_write_tagged_zero _ _ _ .unknownShareTag seat .point (.both .target proof)
      (share.participant, share.domainPoint) share.value
  rw [htagged, exists_write_seat]
  exact and_iff_left ⟨CurveGroup.encode share.value, rfl⟩

theorem exists_encode_prepared {share : PreparedDecryptionShare G2} :
    (∃ bs, encode share = .ok bs) ↔ share.participant.toNat ≤ maxWord32 := by
  rw [← exists_write_seat (x := share.domainPoint)]
  exact Layout.exists_write_both.trans (and_iff_left ⟨CurveGroup.encode share.value, rfl⟩)

theorem exists_write_entry {commitment : ShareCommitment G1} :
    (∃ bs, entry.write commitment = .ok bs) ↔ commitment.participant.toNat ≤ maxWord32 := by
  rw [← exists_write_seat (x := commitment.domainPoint)]
  exact Layout.exists_write_both.trans
    (and_iff_left ⟨CurveGroup.encode commitment.commitment, rfl⟩)

theorem exists_encode_vector {vector : VerificationVector G1} :
    (∃ bs, encode vector = .ok bs) ↔
      vector.entries.length ≤ maxWord32 ∧
        ∀ entry ∈ vector.entries, entry.participant.toNat ≤ maxWord32 := by
  simp only [← exists_write_entry]
  rw [← Layout.exists_write_counted]
  exact Layout.exists_write_both.trans (and_iff_right ⟨CurveGroup.encode vector.publicKey, rfl⟩)

/-- The number of entries is written before them, so it is what a vector is refused for. -/
theorem encode_vector_of_long {vector : VerificationVector G1}
    (h : maxWord32 < vector.entries.length) :
    encode vector = .error (.malformed (.exceedsWord vector.entries.length)) := by
  have hcount : Layout.word32.write vector.entries.length =
      .error (.malformed (.exceedsWord vector.entries.length)) := if_pos h
  show (do
    let key ← Layout.point.write vector.publicKey
    let entries ← (do
      let count ← Layout.word32.write vector.entries.length
      let entries ← entry.writeAll vector.entries
      return count ++ entries : Except Failure Bytes)
    return key ++ entries : Except Failure Bytes) = _
  rw [hcount]
  rfl

end Wire

/-! ## Distinct numbers in range -/

/-- Distinct numbers below a bound are all of them or leave one out. -/
theorem length_lt_iff_exists_not_mem {ns : List Nat} {n : Nat} (hnodup : ns.Nodup)
    (hbound : ∀ k ∈ ns, k < n) : ns.length ≤ n ∧ (ns.length < n ↔ ∃ k < n, k ∉ ns) := by
  have hsub : ns.toFinset ⊆ Finset.range n := by
    intro k hk
    exact Finset.mem_range.mpr (hbound k (List.mem_toFinset.mp hk))
  have hcard : ns.toFinset.card = ns.length := List.toFinset_card_of_nodup hnodup
  refine ⟨?_, ?_⟩
  · have hle := Finset.card_le_card hsub
    rwa [hcard, Finset.card_range] at hle
  · constructor
    · intro hlt
      by_contra hall
      push Not at hall
      have hle : (Finset.range n).card ≤ ns.toFinset.card :=
        Finset.card_le_card fun k hk => List.mem_toFinset.mpr (hall k (Finset.mem_range.mp hk))
      rw [hcard, Finset.card_range] at hle
      omega
    · intro h
      obtain ⟨k, hk, hfree⟩ := h
      have hproper : ns.toFinset ⊂ Finset.range n :=
        Finset.ssubset_iff_subset_ne.mpr ⟨hsub, fun heq =>
          hfree (List.mem_toFinset.mp (heq ▸ Finset.mem_range.mpr hk))⟩
      have hlt := Finset.card_lt_card hproper
      rwa [hcard, Finset.card_range] at hlt

theorem Parameters.lt_of_mem_participants {parameters : Parameters} {p : Participant}
    (h : p ∈ parameters.participants) : p.toNat < parameters.parties := by
  obtain ⟨i, hi, rfl⟩ := List.mem_map.mp h
  rw [UInt64.toNat_ofNat']
  exact (Nat.mod_le _ _).trans_lt (List.mem_range.mp hi)

namespace VerificationVector

variable {G : Type} {vector : VerificationVector G}

/-- Entries of distinct participants, whose indices fit. -/
structure Numbered (vector : VerificationVector G) : Prop where
  fits : ∀ entry ∈ vector.entries, entry.participant.toNat ≤ maxWord32
  nodup : (vector.entries.map (·.participant)).Nodup

/-- Only if every index that fits has an entry do the entries outnumber their field. -/
theorem Numbered.length_le_iff (h : vector.Numbered) :
    vector.entries.length ≤ maxWord32 + 1 ∧
      (vector.entries.length ≤ maxWord32 ↔
        ∃ p : Participant, p.toNat ≤ maxWord32 ∧ vector.entry? p = none) := by
  have hnodup : (vector.entries.map (·.participant.toNat)).Nodup := by
    have hmapped := h.nodup.map fun _ _ => UInt64.toNat_inj.mp
    rwa [List.map_map] at hmapped
  have hbound : ∀ k ∈ vector.entries.map (·.participant.toNat), k < maxWord32 + 1 := by
    intro k hk
    obtain ⟨entry, hentry, rfl⟩ := List.mem_map.mp hk
    exact Nat.lt_succ_of_le (h.fits entry hentry)
  obtain ⟨hle, hlt⟩ := length_lt_iff_exists_not_mem hnodup hbound
  rw [List.length_map] at hle hlt
  refine ⟨hle, Nat.lt_succ_iff.symm.trans (hlt.trans ?_)⟩
  constructor
  · intro hfree
    obtain ⟨k, hk, hfree⟩ := hfree
    have hmax : maxWord32 < 2 ^ 64 := by decide
    have hindex : (UInt64.ofNat k).toNat = k := by
      rw [UInt64.toNat_ofNat', Nat.mod_eq_of_lt (by omega)]
    refine ⟨UInt64.ofNat k, by omega, entry?_eq_none.mpr fun entry hentry hp => hfree ?_⟩
    exact List.mem_map.mpr ⟨entry, hentry, (congrArg UInt64.toNat hp).trans hindex⟩
  · intro hfree
    obtain ⟨p, hp, hnone⟩ := hfree
    refine ⟨p.toNat, Nat.lt_succ_of_le hp, fun hmem => ?_⟩
    obtain ⟨entry, hentry, hindex⟩ := List.mem_map.mp hmem
    exact entry?_eq_none.mp hnone entry hentry (UInt64.toNat_inj.mp hindex)

/-- Calls take seats for participants without one, and check their indices. -/
theorem Numbered.of_grows {s s' : KeyState G} {seats : List Seat} {targets : List Scalar}
    (hnumbered : s.vector.Numbered) (h : s.Grows s' seats targets) : s'.vector.Numbered := by
  refine ⟨?_, h.participants hnumbered.nodup⟩
  intro entry hentry
  have hseat : ⟨entry.participant, entry.domainPoint⟩ ∈ s'.vector.seats :=
    mem_seats.mpr ⟨entry, hentry, rfl, rfl⟩
  rw [h.seats_eq] at hseat
  rcases List.mem_append.mp hseat with hold | hnew
  · obtain ⟨old, hold, hp, -⟩ := mem_seats.mp hold
    exact hp ▸ hnumbered.fits old hold
  · exact h.fits _ hnew

end VerificationVector

section

variable {G : Type} [CurveGroup G] {parameters : Parameters} {dealing : Dealing G}

theorem Dealt.share_lt (hdealt : Dealt parameters dealing) {s : KeyShare}
    (hs : s ∈ dealing.shares) : s.participant.toNat < parameters.parties :=
  Parameters.lt_of_mem_participants (hdealt.participants_shares ▸ List.mem_map_of_mem hs)

theorem Dealt.entry_lt (hdealt : Dealt parameters dealing) {entry : ShareCommitment G}
    (hentry : entry ∈ dealing.vector.entries) : entry.participant.toNat < parameters.parties :=
  Parameters.lt_of_mem_participants (hdealt.participants_entries ▸ List.mem_map_of_mem hentry)

theorem Dealt.parties_le (hdealt : Dealt parameters dealing) : parameters.parties ≤ maxWord32 :=
  (Parameters.validate_eq_ok.mp hdealt.validate).2.2.2

theorem Dealt.numbered (hdealt : Dealt parameters dealing) : dealing.vector.Numbered where
  fits _ hentry := (hdealt.entry_lt hentry).le.trans hdealt.parties_le
  nodup := hdealt.nodup_entries

end

/-! ## What operations hand out -/

/-- A value that the dealer or an operation hands out. -/
inductive ProtocolValue (G1 G2 T : Type)
  | share (share : KeyShare)
  | vector (vector : VerificationVector G1)
  | prepared (share : PreparedShare)
  | decryptionShare (share : DecryptionShare G2 T)
  | preparedDecryptionShare (share : PreparedDecryptionShare G2)

namespace ProtocolValue

variable {G1 G2 T : Type}

/-- The participants of a value fit their fields, and those of a vector are distinct. -/
def Fits : ProtocolValue G1 G2 T → Prop
  | share s => s.participant.toNat ≤ maxWord32
  | vector v => v.Numbered
  | prepared s => s.participant.toNat ≤ maxWord32
  | decryptionShare s => s.participant.toNat ≤ maxWord32
  | preparedDecryptionShare s => s.participant.toNat ≤ maxWord32

variable [CurveGroup G1] [CurveGroup G2] [TargetGroup T] [Pairing G1 G2 T]

/-- What can be handed out after a dealing: the vector and the shares of any run of calls, and what
is made of shares that were handed out.  A vector that is left behind by later calls is that of the
run up to it, and the calls of a run take whatever shares they are given. -/
inductive Reached (dealing : Dealing G1) : ProtocolValue G1 G2 T → Prop
  | ofVector {calls : List (Call G1)} {s : KeyState G1}
      (hrun : Call.run ⟨dealing.shares, dealing.vector⟩ calls = .ok s) :
      Reached dealing (vector s.vector)
  | ofShare {calls : List (Call G1)} {s : KeyState G1} {held : KeyShare}
      (hrun : Call.run ⟨dealing.shares, dealing.vector⟩ calls = .ok s) (hheld : held ∈ s.shares) :
      Reached dealing (share held)
  | refreshAll {shares refreshed : List KeyShare} {threshold : Nat} {e rest : Entropy}
      {s : KeyShare} (hshares : ∀ s ∈ shares, Reached dealing (share s))
      (h : (KeyShare.refreshAll shares threshold e).result = .ok (refreshed, rest))
      (hs : s ∈ refreshed) : Reached dealing (share s)
  | applyUpdates {s moved : KeyShare} {updates : List (ShareUpdate G1)}
      (hshare : Reached dealing (share s)) (h : s.applyUpdates updates = .ok moved) :
      Reached dealing (share moved)
  | prepare {s : KeyShare} {quorum : Quorum} {own : PreparedShare}
      (hshare : Reached dealing (share s)) (h : (s.prepare quorum).result = .ok own) :
      Reached dealing (prepared own)
  | createShare {ciphertext : Ciphertext G1 G2} {aad : Bytes} {s : KeyShare}
      {variant : ShareVariant} {d : DecryptionShare G2 T} (hshare : Reached dealing (share s))
      (h : (ciphertext.createShare aad s variant).result = .ok d) :
      Reached dealing (decryptionShare d)
  | createShares {ciphertext : Ciphertext G1 G2} {aad : Bytes} {shares : List KeyShare}
      {variant : ShareVariant} {ds : List (DecryptionShare G2 T)} {d : DecryptionShare G2 T}
      (hshares : ∀ s ∈ shares, Reached dealing (share s))
      (h : (ciphertext.createShares aad shares variant).result = .ok ds) (hd : d ∈ ds) :
      Reached dealing (decryptionShare d)
  | createPrepared {ciphertext : Ciphertext G1 G2} {aad : Bytes} {own : PreparedShare}
      {d : PreparedDecryptionShare G2} (hprepared : Reached dealing (prepared own))
      (h : (ciphertext.createPrepared aad own).result = .ok d) :
      Reached dealing (preparedDecryptionShare d)

variable {parameters : Parameters} {dealing : Dealing G1} {calls : List (Call G1)}
  {s : KeyState G1} {value : ProtocolValue G1 G2 T}

/-! ## Every run of calls -/

omit [CurveGroup G2] [TargetGroup T] [Pairing G1 G2 T] in
theorem numbered_of_run (hdealt : Dealt parameters dealing)
    (hrun : Call.run ⟨dealing.shares, dealing.vector⟩ calls = .ok s) : s.vector.Numbered :=
  hdealt.numbered.of_grows (.of_run hrun)

omit [CurveGroup G2] [TargetGroup T] [Pairing G1 G2 T] in
/-- A share is dealt, has the seat of an entry, or is recovered under an index that is checked. -/
theorem fits_of_run (hdealt : Dealt parameters dealing)
    (hrun : Call.run ⟨dealing.shares, dealing.vector⟩ calls = .ok s) :
    ∀ held ∈ s.shares, held.participant.toNat ≤ maxWord32 := by
  intro held hheld
  rcases (KeyState.Grows.of_run hrun).placed held hheld with hshare | hseat | hrecovered
  · exact (hdealt.share_lt hshare).le.trans hdealt.parties_le
  · obtain ⟨entry, hentry, hp, -⟩ := VerificationVector.mem_seats.mp hseat
    exact hp ▸ (numbered_of_run hdealt hrun).fits entry hentry
  · exact hrecovered.2

/-! ## Everything handed out -/

theorem fits_of_reached (hdealt : Dealt parameters dealing) (hreached : Reached dealing value) :
    value.Fits := by
  induction hreached with
  | ofVector hrun => exact numbered_of_run hdealt hrun
  | ofShare hrun hheld => exact fits_of_run hdealt hrun _ hheld
  | refreshAll _ h hs ih =>
    obtain ⟨-, d, -, rfl⟩ := KeyShare.refreshAll_eq_ok.mp h
    obtain ⟨old, hold, rfl⟩ := List.mem_map.mp hs
    exact ih old hold
  | applyUpdates _ h ih =>
    obtain ⟨-, rfl⟩ := KeyShare.applyUpdates_eq_ok.mp h
    exact ih
  | prepare _ h ih =>
    obtain ⟨w, -, rfl⟩ := KeyShare.prepare_eq_ok.mp h
    exact ih
  | createShare _ h ih =>
    obtain ⟨-, h⟩ := Ciphertext.createShare_eq_ok.mp h
    rw [Fits, (Ciphertext.seat_of_shareOf h).1]
    exact ih
  | createShares _ h hd ih =>
    obtain ⟨-, h⟩ := Ciphertext.createShares_eq_ok.mp h
    obtain ⟨s, hs, h⟩ := Outcome.mem_of_mapM h hd
    rw [Fits, (Ciphertext.seat_of_shareOf h).1]
    exact ih s hs
  | createPrepared _ h ih =>
    obtain ⟨-, rfl⟩ := Ciphertext.createPrepared_eq_ok.mp h
    exact ih

/-- Whatever operations follow a dealing, every key share, fast decryption share and prepared
decryption share is encoded.  The participants of every vector fit, and it is encoded unless every
index that fits has an entry: then it is refused for its number of entries, which is one more than
fits. -/
theorem encodes_of_reached (hdealt : Dealt parameters dealing) :
    (∀ s, Reached dealing (share s : ProtocolValue G1 G2 T) → ∃ bs, Wire.encode s = .ok bs) ∧
    (∀ s, Reached dealing (decryptionShare (.fast s) : ProtocolValue G1 G2 T) →
      ∃ bs, Wire.encode (.fast s : DecryptionShare G2 T) = .ok bs) ∧
    (∀ s, Reached dealing (preparedDecryptionShare s : ProtocolValue G1 G2 T) →
      ∃ bs, Wire.encode s = .ok bs) ∧
    ∀ v, Reached dealing (vector v : ProtocolValue G1 G2 T) →
      (∀ entry ∈ v.entries, entry.participant.toNat ≤ maxWord32) ∧
      ((∃ bs, Wire.encode v = .ok bs) ↔
        ∃ p : Participant, p.toNat ≤ maxWord32 ∧ v.entry? p = none) ∧
      ((∀ p : Participant, p.toNat ≤ maxWord32 → v.entry? p ≠ none) →
        Wire.encode v = .error (.malformed (.exceedsWord (maxWord32 + 1)))) := by
  refine ⟨fun s hs => Wire.exists_encode_keyShare.mpr (fits_of_reached hdealt hs),
    fun s hs => Wire.exists_encode_fast.mpr (fits_of_reached hdealt hs),
    fun s hs => Wire.exists_encode_prepared.mpr (fits_of_reached hdealt hs), fun v hv => ?_⟩
  have hnumbered : v.Numbered := fits_of_reached hdealt hv
  obtain ⟨hle, hfree⟩ := hnumbered.length_le_iff
  refine ⟨hnumbered.fits, ?_, fun hall => ?_⟩
  · rw [Wire.exists_encode_vector, ← hfree]
    exact and_iff_left hnumbered.fits
  · have hlong : ¬v.entries.length ≤ maxWord32 := by
      intro hshort
      obtain ⟨p, hp, hnone⟩ := hfree.mp hshort
      exact hall p hp hnone
    have hlength : v.entries.length = maxWord32 + 1 := by omega
    rw [Wire.encode_vector_of_long (not_le.mp hlong), hlength]

/-- A fourth participant joins the small dealing and recovers its share, and the first one
contributes to a decryption, plainly and prepared. -/
theorem encodes_of_reached_fourth_participant :
    Call.run ⟨LogPoint.dealing.shares, LogPoint.dealing.vector⟩
      [.extend 3 4, .recover [⟨0, 1, 8⟩, ⟨1, 2, 11⟩] 2 3 4] =
        .ok ⟨[⟨3, 4, 17⟩, ⟨0, 1, 8⟩, ⟨1, 2, 11⟩, ⟨2, 3, 14⟩],
          ⟨⟨5⟩, [⟨0, 1, ⟨8⟩⟩, ⟨1, 2, ⟨11⟩⟩, ⟨2, 3, ⟨14⟩⟩, ⟨3, 4, ⟨17⟩⟩]⟩⟩ ∧
    (∃ bs, Wire.encode (⟨⟨5⟩, [⟨0, 1, ⟨8⟩⟩, ⟨1, 2, ⟨11⟩⟩, ⟨2, 3, ⟨14⟩⟩, ⟨3, 4, ⟨17⟩⟩]⟩ :
      VerificationVector LogPoint) = .ok bs) ∧
    (∃ bs, Wire.encode (⟨3, 4, 17⟩ : KeyShare) = .ok bs) ∧
    (∃ bs, Wire.encode (.fast ⟨0, 1, ⟨56⟩⟩ : DecryptionShare LogPoint LogTarget) = .ok bs) ∧
    ∃ bs, Wire.encode (⟨0, 1, ⟨168⟩⟩ : PreparedDecryptionShare LogPoint) = .ok bs := by
  have hextended : (LogPoint.dealing.vector.extend 3 4).result =
      .ok ⟨⟨5⟩, [⟨0, 1, ⟨8⟩⟩, ⟨1, 2, ⟨11⟩⟩, ⟨2, 3, ⟨14⟩⟩, ⟨3, 4, ⟨17⟩⟩]⟩ := by
    decide +kernel
  have hrecovered : (KeyShare.recover [⟨0, 1, 8⟩, ⟨1, 2, 11⟩] 2 3 4).result = .ok ⟨3, 4, 17⟩ := by
    decide +kernel
  have hrun : Call.run ⟨LogPoint.dealing.shares, LogPoint.dealing.vector⟩
      [.extend 3 4, .recover [⟨0, 1, 8⟩, ⟨1, 2, 11⟩] 2 3 4] =
        .ok ⟨[⟨3, 4, 17⟩, ⟨0, 1, 8⟩, ⟨1, 2, 11⟩, ⟨2, 3, 14⟩],
          ⟨⟨5⟩, [⟨0, 1, ⟨8⟩⟩, ⟨1, 2, ⟨11⟩⟩, ⟨2, 3, ⟨14⟩⟩, ⟨3, 4, ⟨17⟩⟩]⟩⟩ := by
    simp only [Call.run, List.foldlM_cons, Call.perform, Call.made, hextended, hrecovered]
    rfl
  have hown : ((⟨0, 1, 8⟩ : KeyShare).prepare ⟨[0, 1, 2], [1, 2, 3], [3, -3, 1]⟩).result =
      .ok ⟨0, 1, 24⟩ := KeyShare.prepare_eq_ok.mpr ⟨3, by decide, by decide⟩
  have hfast : (LogPoint.sevenfold.createShare [] ⟨0, 1, 8⟩ .fast).result =
      .ok (.fast ⟨0, 1, ⟨56⟩⟩ : DecryptionShare LogPoint LogTarget) :=
    Ciphertext.createShare_eq_ok.mpr ⟨LogPoint.checkValidity_sevenfold, by decide⟩
  have hprepared : (LogPoint.sevenfold.createPrepared [] ⟨0, 1, 24⟩).result =
      .ok ⟨0, 1, ⟨168⟩⟩ :=
    Ciphertext.createPrepared_eq_ok.mpr ⟨LogPoint.checkValidity_sevenfold, by decide⟩
  obtain ⟨hshares, hfasts, hprepareds, hvectors⟩ :=
    @encodes_of_reached LogPoint LogPoint LogTarget _ _ _ _ _ _ LogPoint.dealt_dealing
  have hfirst : Reached LogPoint.dealing
      (share ⟨0, 1, 8⟩ : ProtocolValue LogPoint LogPoint LogTarget) := .ofShare hrun (by simp)
  refine ⟨hrun, ?_, hshares _ (.ofShare hrun (by simp)), hfasts _ (.createShare hfirst hfast),
    hprepareds _ (.createPrepared (.prepare hfirst hown) hprepared)⟩
  exact (hvectors _ (.ofVector hrun)).2.1.mpr ⟨4, by decide, by decide⟩

end ProtocolValue

/-! ## One entry too many -/

section

variable {G : Type} [CurveGroup G] [LawfulCurveGroup G] {parameters : Parameters}
  {dealing : Dealing G}

/-- Parameters allow as many participants as a vector can be encoded for.  A dealing among so many
leaves one index that fits, and that is given an entry like any other. -/
theorem Dealt.extend_last_index (hdealt : Dealt parameters dealing)
    (hfull : parameters.parties = maxWord32) {p : Participant} (hp : p.toNat = maxWord32)
    (x : Scalar) :
    ∃ extended, (dealing.vector.extend p x).result = .ok extended ∧
      Wire.encode extended = .error (.malformed (.exceedsWord (maxWord32 + 1))) := by
  have hlength : dealing.vector.entries.length = maxWord32 := hdealt.length_entries.trans hfull
  have hne : dealing.vector.entries ≠ [] := by
    intro hnil
    rw [hnil] at hlength
    cases hlength
  have hpoints : (dealing.vector.entries.map (·.domainPoint)).Nodup := by
    rw [hdealt.entries_eq, List.map_map]
    exact hdealt.nodup_domainPoints (fun _ h => h) hdealt.nodup_participants
  have hnew : ∀ entry ∈ dealing.vector.entries, entry.participant ≠ p := by
    intro entry hentry heq
    have hlt := hdealt.entry_lt hentry
    rw [heq, hp, hfull] at hlt
    exact lt_irrefl _ hlt
  obtain ⟨extended, hextended⟩ :=
    (VerificationVector.exists_extend_iff (x := x) hne hpoints).mpr ⟨hp.le, hnew⟩
  have hlong : extended.entries.length = maxWord32 + 1 := by
    obtain ⟨-, -, commitment, -, rfl⟩ := VerificationVector.extend_eq_ok.mp hextended
    rw [List.length_append, hlength, List.length_singleton]
  refine ⟨extended, hextended, ?_⟩
  rw [Wire.encode_vector_of_long (by omega), hlong]

end

/-- After a dealing among all that parameters allow, an entry for the index they leave out makes
a vector that is not encoded. -/
theorem encode_fails_at_every_index :
    ∃ (dealing : Dealing LogPoint) (extended : VerificationVector LogPoint),
      Dealt ⟨4294967295, 1, .blst⟩ dealing ∧
      (dealing.vector.extend 4294967295 4294967296).result = .ok extended ∧
      ProtocolValue.Reached dealing
        (.vector extended : ProtocolValue LogPoint LogPoint LogTarget) ∧
      Wire.encode extended = .error (.malformed (.exceedsWord 4294967296)) := by
  have hdealt : ∃ dealing : Dealing LogPoint, Dealt ⟨4294967295, 1, .blst⟩ dealing := by
    have hdraw : ∃ rest, SharingPolynomial.sample? 1 (.ofList [5, 0, 0, 0]) =
      some (⟨5, []⟩, rest) := ⟨_, rfl⟩
    obtain ⟨rest, hdraw⟩ := hdraw
    exact ⟨_, .random (.inl rfl) (Dealing.deal_eq_ok.mpr ⟨by decide, _, hdraw, rfl⟩)⟩
  obtain ⟨dealing, hdealt⟩ := hdealt
  obtain ⟨extended, hextended, hfails⟩ :=
    hdealt.extend_last_index rfl (p := 4294967295) rfl 4294967296
  have hrun : Call.run ⟨dealing.shares, dealing.vector⟩ [.extend 4294967295 4294967296] =
      .ok ⟨dealing.shares, extended⟩ := by
    rw [Call.run_singleton, Call.perform, Call.made, hextended]
    rfl
  exact ⟨dealing, extended, hdealt, hextended, .ofVector hrun, hfails⟩

end ThresholdCipher
