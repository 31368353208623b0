import ThresholdCipher.Proofs.Lagrange

/-
Looking up commitments, and vectors that commit to a polynomial.

An entry that is found is one of the vector's and belongs to the participant asked
for, whichever of the two lookups found it; where participants are distinct it is
the only one.  A vector that `CommitsTo` a polynomial accepts exactly the shares
that are its values at the points of their entries, and it can be extended by any
further point without losing that.
-/

namespace ThresholdCipher
namespace VerificationVector

variable {G : Type} {vector extended : VerificationVector G} {p : Participant}
  {entry : ShareCommitment G}

/-! ## Lookup -/

theorem mem_of_lookup (h : vector.entry? p = some entry) :
    entry ∈ vector.entries ∧ entry.participant = p := by
  have hsearch : vector.search? p = some entry → entry ∈ vector.entries ∧ entry.participant = p :=
    fun hs => ⟨List.mem_of_find?_eq_some hs, by simpa using List.find?_some hs⟩
  unfold entry? at h
  split at h
  next found hfound =>
    split at h
    next hown =>
      cases h
      exact ⟨List.mem_of_getElem? hfound, hown⟩
    next => exact hsearch h
  next => exact hsearch h

theorem entry?_eq_none :
    vector.entry? p = none ↔ ∀ entry ∈ vector.entries, entry.participant ≠ p := by
  have hsearch : vector.search? p = none ↔ ∀ entry ∈ vector.entries, entry.participant ≠ p := by
    simp [search?]
  unfold entry?
  split
  next found hfound =>
    split
    next hown =>
      exact ⟨fun h => (nomatch h), fun h => absurd hown (h found (List.mem_of_getElem? hfound))⟩
    next => exact hsearch
  next => exact hsearch

theorem eq_of_participant_eq (hnodup : (vector.entries.map (·.participant)).Nodup)
    {a b : ShareCommitment G} (ha : a ∈ vector.entries) (hb : b ∈ vector.entries)
    (h : a.participant = b.participant) : a = b :=
  List.inj_on_of_nodup_map hnodup ha hb h

theorem entry?_of_mem (hnodup : (vector.entries.map (·.participant)).Nodup)
    (hmem : entry ∈ vector.entries) : vector.entry? entry.participant = some entry := by
  cases h : vector.entry? entry.participant with
  | none => exact absurd rfl (entry?_eq_none.mp h entry hmem)
  | some found =>
    obtain ⟨hfound, hp⟩ := mem_of_lookup h
    rw [eq_of_participant_eq hnodup hfound hmem hp]

/-- The entry that is found is the participant's own, whatever stands at its index. -/
theorem entry?_eq_some_iff (hnodup : (vector.entries.map (·.participant)).Nodup) :
    vector.entry? p = some entry ↔ entry ∈ vector.entries ∧ entry.participant = p := by
  constructor
  · exact mem_of_lookup
  · intro h
    obtain ⟨hmem, rfl⟩ := h
    exact entry?_of_mem hnodup hmem

/-! ## Seats -/

/-- The participants of a vector and their points. -/
def seats (vector : VerificationVector G) : List Seat :=
  vector.entries.map fun entry => ⟨entry.participant, entry.domainPoint⟩

theorem mem_seats {x : Scalar} :
    ⟨p, x⟩ ∈ vector.seats ↔
      ∃ entry ∈ vector.entries, entry.participant = p ∧ entry.domainPoint = x := by
  simp [seats]

theorem participants_seats (vector : VerificationVector G) :
    vector.seats.map (·.participant) = vector.entries.map (·.participant) := by
  rw [seats, List.map_map]
  rfl

theorem domainPoints_seats (vector : VerificationVector G) :
    vector.seats.map (·.domainPoint) = vector.entries.map (·.domainPoint) := by
  rw [seats, List.map_map]
  rfl

/-! ## Commitments to a polynomial -/

variable [CurveGroup G]

/-- The public key and the entries are the values of one polynomial in the exponent. -/
structure CommitsTo (vector : VerificationVector G) (f : SharingPolynomial) : Prop where
  publicKey : vector.publicKey = f.constant • generator
  commitment : ∀ entry ∈ vector.entries,
    entry.commitment = f.evaluate entry.domainPoint • generator

theorem verifyShare_eq_true {share : KeyShare} :
    (vector.verifyShare share).value = true ↔
      ∃ entry, vector.entry? share.participant = some entry ∧
        entry.domainPoint = share.domainPoint ∧ share.value • generator = entry.commitment := by
  unfold verifyShare
  cases vector.entry? share.participant with
  | none => exact ⟨fun h => (nomatch h), fun ⟨_, h, _⟩ => (nomatch h)⟩
  | some entry =>
    by_cases hx : entry.domainPoint = share.domainPoint
    · simp only [if_pos hx, Journaled.value_pure, decide_eq_true_iff, Option.some.injEq]
      exact ⟨fun h => ⟨entry, rfl, hx, h⟩, fun ⟨_, he, _, h⟩ => by rw [he]; exact h⟩
    · simp only [if_neg hx, Journaled.value_bind, Journaled.value_pure, Option.some.injEq]
      exact ⟨fun h => (nomatch h), fun ⟨_, he, hx', _⟩ => absurd (he ▸ hx') hx⟩

variable [LawfulCurveGroup G] {f : SharingPolynomial}

theorem CommitsTo.verifyShare_eq_true (hvector : vector.CommitsTo f) {share : KeyShare} :
    (vector.verifyShare share).value = true ↔
      (∃ entry, vector.entry? share.participant = some entry ∧
        entry.domainPoint = share.domainPoint) ∧
      share.value = f.evaluate share.domainPoint := by
  rw [VerificationVector.verifyShare_eq_true]
  constructor
  · rintro ⟨entry, hentry, hx, hvalue⟩
    rw [hvector.commitment entry (mem_of_lookup hentry).1, hx] at hvalue
    exact ⟨⟨entry, hentry, hx⟩, smul_generator_injective hvalue⟩
  · rintro ⟨⟨entry, hentry, hx⟩, hvalue⟩
    refine ⟨entry, hentry, hx, ?_⟩
    rw [hvector.commitment entry (mem_of_lookup hentry).1, hx, hvalue]

/-- A share is accepted where its seat is one of the vector's and it is the value there. -/
theorem CommitsTo.verifyShare_iff_seat (hvector : vector.CommitsTo f)
    (hnodup : (vector.entries.map (·.participant)).Nodup) {share : KeyShare} :
    (vector.verifyShare share).value = true ↔
      ⟨share.participant, share.domainPoint⟩ ∈ vector.seats ∧
        share.value = f.evaluate share.domainPoint := by
  rw [hvector.verifyShare_eq_true, mem_seats]
  simp only [entry?_eq_some_iff hnodup, and_assoc]

/-- Commitments to enough values interpolate to commitments to all others. -/
theorem CommitsTo.interpolate (hvector : vector.CommitsTo f) {target : Scalar} {q : G}
    (hf : f.threshold ≤ vector.entries.length)
    (h : (Interpolation.point (vector.entries.map (·.domainPoint))
      (vector.entries.map (·.commitment)) target).result = .ok q) :
    q = f.evaluate target • generator := by
  obtain ⟨-, hnodup, rfl⟩ := Interpolation.point_eq_ok.mp h
  -- The exponents of the weighted commitments are the weighted values.
  rw [← Interpolation.sum_weight_mul hnodup hf target, ← exponent_eq_iff, exponent_sum,
    List.map_map]
  congr 1
  apply List.map_congr_left
  intro entry hentry
  rw [Function.comp_apply, hvector.commitment entry hentry, exponent_smul, exponent_smul,
    exponent_generator, mul_one]

omit [LawfulCurveGroup G] in
theorem extend_eq_ok {x : Scalar} :
    (vector.extend p x).result = .ok extended ↔
      checkParticipant p = .ok () ∧ vector.entry? p = none ∧
        ∃ commitment, (Interpolation.point (vector.entries.map (·.domainPoint))
            (vector.entries.map (·.commitment)) x).result = .ok commitment ∧
          { vector with entries := vector.entries ++ [⟨p, x, commitment⟩] } = extended := by
  rw [extend, Attempt.result_check_bind_eq_ok, Attempt.result_orRefuse_eq_ok, Attempt.result_ite]
  cases vector.entry? p with
  | none =>
    rw [Option.isSome_none, if_neg Bool.false_ne_true, Attempt.result_bind_eq_ok]
    simp
  | some entry =>
    rw [Option.isSome_some, if_pos rfl]
    exact ⟨fun ⟨_, h⟩ => (nomatch h), fun ⟨_, h, _⟩ => (nomatch h)⟩

omit [LawfulCurveGroup G] in
theorem seats_of_extend {x : Scalar} (h : (vector.extend p x).result = .ok extended) :
    extended.seats = vector.seats ++ [⟨p, x⟩] := by
  obtain ⟨-, -, commitment, -, rfl⟩ := extend_eq_ok.mp h
  rw [seats, List.map_append]
  rfl

omit [LawfulCurveGroup G] in
/-- Only participants without an entry get one. -/
theorem nodup_participants_of_extend {x : Scalar}
    (hnodup : (vector.entries.map (·.participant)).Nodup)
    (h : (vector.extend p x).result = .ok extended) :
    (extended.entries.map (·.participant)).Nodup := by
  obtain ⟨-, hnone, commitment, -, rfl⟩ := extend_eq_ok.mp h
  rw [List.map_append, List.map_singleton]
  refine List.nodup_append'.mpr ⟨hnodup, List.nodup_singleton p, ?_⟩
  rw [List.disjoint_singleton]
  intro hmem
  obtain ⟨entry, hentry, hp⟩ := List.mem_map.mp hmem
  exact entry?_eq_none.mp hnone entry hentry hp

/-- An entry for one more point commits to the same polynomial. -/
theorem CommitsTo.extend (hvector : vector.CommitsTo f) {x : Scalar}
    (hf : f.threshold ≤ vector.entries.length)
    (h : (vector.extend p x).result = .ok extended) : extended.CommitsTo f := by
  obtain ⟨-, -, commitment, hcommitment, rfl⟩ := extend_eq_ok.mp h
  refine ⟨hvector.publicKey, ?_⟩
  intro entry hentry
  rcases List.mem_append.mp hentry with hold | hnew
  · exact hvector.commitment entry hold
  · rw [List.mem_singleton.mp hnew]
    exact hvector.interpolate hf hcommitment

end VerificationVector
end ThresholdCipher
