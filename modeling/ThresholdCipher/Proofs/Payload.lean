import ThresholdCipher.Proofs.Outcome

/-
Opening and sealing undo each other.

The keystream is as long as the text it masks, and masking is its own inverse.  The
tag has a fixed size, so it splits off at the same place where it was appended, and
it is the one that opening computes.  Opening therefore accepts exactly what sealing
makes, and refuses every other byte string in one way (`unwrap_exact`).
-/

namespace ThresholdCipher

namespace ChaCha20

theorem length_block (key nonce : Bytes) (counter : Nat) :
    (block key nonce counter).length = 64 := by
  simp [block, Words.toLittleEndian, Grid.toList, Row.toList]

theorem length_keystream (key nonce : Bytes) (first length : Nat) :
    (keystream key nonce first length).length = length := by
  have hblocks : ((List.range ((length + 63) / 64)).flatMap
      fun i => block key nonce (first + i)).length = (length + 63) / 64 * 64 := by
    rw [List.length_flatMap, List.map_congr_left fun i _ => length_block key nonce (first + i),
      List.map_const', List.sum_replicate, List.length_range, smul_eq_mul]
  rw [keystream, List.length_take, hblocks]
  omega

end ChaCha20

namespace Sealed

variable {key nonce text aad sealed : Bytes}

@[simp] theorem length_mask (key nonce text : Bytes) :
    (mask key nonce text).length = text.length := by
  rw [mask, List.length_zipWith, ChaCha20.length_keystream, min_self]

theorem length_tag (key nonce aad text : Bytes) : (tag key nonce aad text).length = tagSize :=
  Poly1305.length_tag _ _

theorem zipWith_xor_twice {text stream : Bytes} (h : text.length = stream.length) :
    List.zipWith (· ^^^ ·) (List.zipWith (· ^^^ ·) text stream) stream = text := by
  induction text generalizing stream with
  | nil => rfl
  | cons b text ih =>
    cases stream with
    | nil => cases h
    | cons s stream =>
      rw [List.zipWith_cons_cons, List.zipWith_cons_cons, ih (Nat.succ.inj h), UInt8.xor_assoc,
        UInt8.xor_self, UInt8.xor_zero]

theorem mask_mask (key nonce text : Bytes) : mask key nonce (mask key nonce text) = text := by
  rw [mask, length_mask, mask]
  exact zipWith_xor_twice (ChaCha20.length_keystream key nonce 1 text.length).symm

theorem seal?_eq_some :
    seal? key nonce text aad = some sealed ↔ fits text.length ∧
      mask key nonce text ++ tag key nonce aad (mask key nonce text) = sealed := by
  unfold seal?
  by_cases hfits : fits text.length
  · simp [hfits]
  · simp [hfits]

theorem length_of_seal? (h : seal? key nonce text aad = some sealed) :
    sealed.length = text.length + tagSize := by
  obtain ⟨-, rfl⟩ := seal?_eq_some.mp h
  rw [List.length_append, length_mask, length_tag]

theorem open?_of_seal? (h : seal? key nonce text aad = some sealed) :
    open? key nonce sealed aad = some text := by
  have hlen := length_of_seal? h
  obtain ⟨hfits, rfl⟩ := seal?_eq_some.mp h
  have htake : (mask key nonce text ++ tag key nonce aad (mask key nonce text)).take text.length =
      mask key nonce text := by
    rw [← length_mask key nonce text, List.take_left]
  have hdrop : (mask key nonce text ++ tag key nonce aad (mask key nonce text)).drop text.length =
      tag key nonce aad (mask key nonce text) := by
    rw [← length_mask key nonce text, List.drop_left]
  rw [open?, hlen, if_neg (by omega), Nat.add_sub_cancel]
  simp only [htake, length_mask, hdrop]
  rw [if_pos ⟨hfits, trivial⟩, mask_mask]

/-- What can be opened was sealed: the tag and the enciphered text leave no other way. -/
theorem seal?_of_open? (h : open? key nonce sealed aad = some text) :
    seal? key nonce text aad = some sealed := by
  unfold open? at h
  split at h
  next => cases h
  next hlen =>
    simp only at h
    split at h
    next hboth =>
      obtain ⟨hfits, htag⟩ := hboth
      cases h
      refine seal?_eq_some.mpr ⟨by rwa [length_mask], ?_⟩
      rw [mask_mask, htag, List.length_take, min_eq_left (Nat.sub_le _ _), List.take_append_drop]
    next => cases h

end Sealed

namespace PayloadCipher

variable {cipher : PayloadCipher} {material header text aad sealed : Bytes}

theorem wrap_eq_ok :
    cipher.wrap material header text aad = .ok sealed ↔
      Sealed.seal? (cipher.key material header) (cipher.nonce header) text aad = some sealed := by
  unfold wrap
  cases Sealed.seal? (cipher.key material header) (cipher.nonce header) text aad with
  | none => simp
  | some found => simp

/-- Opening gives a text or refuses, in one way only. -/
theorem unwrap_ok_or_refused (cipher : PayloadCipher) (material header sealed aad : Bytes) :
    (∃ text, cipher.unwrap material header sealed aad = .ok text) ∨
      cipher.unwrap material header sealed aad = .error .authenticationFailure := by
  unfold unwrap
  cases Sealed.open? (cipher.key material header) (cipher.nonce header) sealed aad with
  | none => exact .inr rfl
  | some text => exact .inl ⟨text, rfl⟩

/-- The only texts that are not sealed are those too long for the block counter. -/
theorem wrap_ok (hfits : Sealed.fits text.length) :
    ∃ sealed, cipher.wrap material header text aad = .ok sealed :=
  ⟨_, wrap_eq_ok.mpr (Sealed.seal?_eq_some.mpr ⟨hfits, rfl⟩)⟩

theorem wrap_of_too_long (hlong : ¬Sealed.fits text.length) :
    cipher.wrap material header text aad = .error (.primitive .payloadTooLong) := by
  rw [wrap, Sealed.seal?, if_neg hlong]

theorem unwrap_of_wrap (h : cipher.wrap material header text aad = .ok sealed) :
    cipher.unwrap material header sealed aad = .ok text := by
  rw [unwrap, Sealed.open?_of_seal? (wrap_eq_ok.mp h)]

theorem wrap_of_unwrap (h : cipher.unwrap material header sealed aad = .ok text) :
    cipher.wrap material header text aad = .ok sealed := by
  unfold unwrap at h
  split at h
  next found hfound =>
    cases h
    exact wrap_eq_ok.mpr (Sealed.seal?_of_open? hfound)
  next => cases h

theorem unwrap_eq_ok_iff :
    cipher.unwrap material header sealed aad = .ok text ↔
      cipher.wrap material header text aad = .ok sealed :=
  ⟨wrap_of_unwrap, unwrap_of_wrap⟩

/-- Opening accepts what sealing makes and nothing else, so each text has one accepted payload if
it is short enough to be sealed, and none if it is not. -/
theorem unwrap_exact (cipher : PayloadCipher) (material header aad : Bytes) :
    (∀ text sealed, cipher.wrap material header text aad = .ok sealed →
      sealed.length = text.length + 16 ∧
        cipher.unwrap material header sealed aad = .ok text) ∧
    (∀ sealed text, cipher.unwrap material header sealed aad = .ok text ↔
      cipher.wrap material header text aad = .ok sealed) ∧
    (∀ sealed, (∀ text, cipher.wrap material header text aad ≠ .ok sealed) →
      cipher.unwrap material header sealed aad = .error .authenticationFailure) ∧
    (∀ sealed, sealed.length < 16 →
      cipher.unwrap material header sealed aad = .error .authenticationFailure) ∧
    ∀ text, if Sealed.fits text.length then
        ∃! sealed, cipher.unwrap material header sealed aad = .ok text
      else
        cipher.wrap material header text aad = .error (.primitive .payloadTooLong) ∧
          ∀ sealed, cipher.unwrap material header sealed aad ≠ .ok text := by
  have hlength : ∀ text sealed, cipher.wrap material header text aad = .ok sealed →
      sealed.length = text.length + 16 := fun text sealed h =>
    Sealed.length_of_seal? (wrap_eq_ok.mp h)
  have hrefused : ∀ sealed, (∀ text, cipher.wrap material header text aad ≠ .ok sealed) →
      cipher.unwrap material header sealed aad = .error .authenticationFailure := by
    intro sealed hnone
    refine (unwrap_ok_or_refused cipher material header sealed aad).resolve_left ?_
    intro h
    obtain ⟨text, h⟩ := h
    exact hnone text (wrap_of_unwrap h)
  refine ⟨fun text sealed h => ⟨hlength text sealed h, unwrap_of_wrap h⟩,
    fun _ _ => unwrap_eq_ok_iff, hrefused, ?_, ?_⟩
  · intro sealed hshort
    refine hrefused sealed fun text h => ?_
    have hlen := hlength text sealed h
    omega
  · intro text
    by_cases hfits : Sealed.fits text.length
    · rw [if_pos hfits]
      obtain ⟨sealed, hsealed⟩ : ∃ sealed, cipher.wrap material header text aad = .ok sealed :=
        wrap_ok hfits
      refine ⟨sealed, unwrap_of_wrap hsealed, fun other hother => ?_⟩
      exact Except.ok.inj ((wrap_of_unwrap hother).symm.trans hsealed)
    · rw [if_neg hfits]
      have hlong : cipher.wrap material header text aad = .error (.primitive .payloadTooLong) :=
        wrap_of_too_long hfits
      refine ⟨hlong, fun sealed h => ?_⟩
      rw [wrap_of_unwrap h] at hlong
      cases hlong

/-- Three bytes are sealed to nineteen, and three bytes open to nothing. -/
theorem unwrap_exact_three_bytes :
    (∃ sealed, standard.wrap [1] [2] [3, 4, 5] [9] = .ok sealed ∧ sealed.length = 19 ∧
      standard.unwrap [1] [2] sealed [9] = .ok [3, 4, 5]) ∧
    standard.unwrap [1] [2] [3, 4, 5] [9] = .error .authenticationFailure := by
  obtain ⟨hsealed, -, -, hshort, -⟩ := unwrap_exact standard [1] [2] [9]
  obtain ⟨sealed, h⟩ : ∃ sealed, standard.wrap [1] [2] [3, 4, 5] [9] = .ok sealed :=
    wrap_ok (by decide)
  exact ⟨⟨sealed, h, hsealed _ _ h⟩, hshort _ (by decide)⟩

end PayloadCipher
end ThresholdCipher
