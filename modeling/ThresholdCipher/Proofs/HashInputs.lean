import ThresholdCipher.Proofs.PairingLaws

/-
What is hashed tells its parts apart.

A part is hashed with its length in front, so it splits off again (`framed_append_inj`), and by
induction so does a list of parts, though their number is not hashed (`input_eq_iff`).  Key
material and payloads carry their lengths in the same way, and points have encodings of one
size.  So no two inputs of a nonce, a challenge, a payload key or an authentication point reach
the hash as the same bytes (`hashed_inputs_apart`).
-/

namespace ThresholdCipher

/-- The length of a byte string is counted by a 64-bit word. -/
def Bytes.Countable (bs : Bytes) : Prop := bs.length < UInt64.size

instance (bs : Bytes) : Decidable bs.Countable :=
  inferInstanceAs (Decidable (bs.length < UInt64.size))

/-! ## Parts with their lengths -/

namespace ScalarHash

variable {a b rest rest' domain domain' : Bytes} {parts parts' : List Bytes}

/-- The length in front tells where a part ends. -/
theorem framed_append_inj (ha : a.Countable) (hb : b.Countable)
    (h : framed a ++ rest = framed b ++ rest') : a = b ∧ rest = rest' := by
  simp only [framed, List.append_assoc] at h
  have hsize : (Bytes.bigEndian 8 a.length).length = (Bytes.bigEndian 8 b.length).length := by
    rw [Bytes.length_bigEndian, Bytes.length_bigEndian]
  obtain ⟨hcount, hbytes⟩ := List.append_inj h hsize
  exact List.append_inj hbytes (Bytes.bigEndian_inj (w := 8) ha hb hcount)

theorem framed_append_ne_nil (a rest : Bytes) : framed a ++ rest ≠ [] := by
  intro h
  have hlen := congrArg List.length h
  rw [framed, List.length_append, List.length_append, Bytes.length_bigEndian, List.length_nil]
    at hlen
  omega

/-- The parts split off one by one, and no part leaves nothing to split off. -/
theorem flatMap_framed_inj (hparts : ∀ part ∈ parts, part.Countable)
    (hparts' : ∀ part ∈ parts', part.Countable)
    (h : parts.flatMap framed = parts'.flatMap framed) : parts = parts' := by
  induction parts generalizing parts' with
  | nil =>
    cases parts' with
    | nil => rfl
    | cons part' parts' => exact absurd h.symm (framed_append_ne_nil part' _)
  | cons part parts ih =>
    cases parts' with
    | nil => exact absurd h (framed_append_ne_nil part _)
    | cons part' parts' =>
      rw [List.forall_mem_cons] at hparts hparts'
      rw [List.flatMap_cons, List.flatMap_cons] at h
      obtain ⟨rfl, hrest⟩ := framed_append_inj hparts.1 hparts'.1 h
      rw [ih hparts.2 hparts'.2 hrest]

theorem input_eq_iff (hdomain : domain.Countable) (hdomain' : domain'.Countable)
    (hparts : ∀ part ∈ parts, part.Countable) (hparts' : ∀ part ∈ parts', part.Countable) :
    input domain parts = input domain' parts' ↔ domain = domain' ∧ parts = parts' := by
  constructor
  · intro h
    obtain ⟨rfl, hrest⟩ := framed_append_inj hdomain hdomain' h
    exact ⟨rfl, flatMap_framed_inj hparts hparts' hrest⟩
  · intro h
    obtain ⟨rfl, rfl⟩ := h
    rfl

end ScalarHash

theorem PayloadCipher.keyInput_eq_iff {material material' header header' : Bytes}
    (hmaterial : material.Countable) (hmaterial' : material'.Countable) :
    keyInput material header = keyInput material' header' ↔
      material = material' ∧ header = header' := by
  constructor
  · exact ScalarHash.framed_append_inj hmaterial hmaterial'
  · intro h
    obtain ⟨rfl, rfl⟩ := h
    rfl

/-! ## Headers -/

/-- A curve group in which different points have different encodings, all of its size. -/
class DistinctEncodings (G : Type) [CurveGroup G] : Prop where
  length_encode : ∀ p : G, (CurveGroup.encode p).length = CurveGroup.encodedSize G
  encode_injective : Function.Injective (CurveGroup.encode : G → Bytes)

variable {G1 G2 : Type} [CurveGroup G1] [CurveGroup G2] {u u' : G1} {v v' : G2}
  {payload payload' aad aad' : Bytes}

theorem authenticationMessage_eq (u : G1) (v : G2) (payload aad : Bytes) :
    authenticationMessage u v payload aad =
      CurveGroup.encode u ++ (CurveGroup.encode v ++ (ScalarHash.framed payload ++ aad)) := by
  simp only [authenticationMessage, contextBytes, ScalarHash.framed, List.append_assoc]

/-- The payload's length tells where it ends and the associated data begin. -/
theorem authenticationMessage_inj (hpayload : payload.Countable) (hpayload' : payload'.Countable)
    (h : authenticationMessage u v payload aad = authenticationMessage u v payload' aad') :
    payload = payload' ∧ aad = aad' := by
  rw [authenticationMessage_eq, authenticationMessage_eq] at h
  exact ScalarHash.framed_append_inj hpayload hpayload'
    (List.append_cancel_left (List.append_cancel_left h))

/-- Encodings of one size split off in front of anything. -/
theorem encode_append_inj {G : Type} [CurveGroup G] [DistinctEncodings G] {p q : G}
    {rest rest' : Bytes} (h : CurveGroup.encode p ++ rest = CurveGroup.encode q ++ rest') :
    p = q ∧ rest = rest' := by
  have hsize : (CurveGroup.encode p).length = (CurveGroup.encode q).length := by
    rw [DistinctEncodings.length_encode, DistinctEncodings.length_encode]
  obtain ⟨hpoint, hrest⟩ := List.append_inj h hsize
  exact ⟨DistinctEncodings.encode_injective hpoint, hrest⟩

theorem authenticationMessage_eq_iff [DistinctEncodings G1] [DistinctEncodings G2]
    (hpayload : payload.Countable) (hpayload' : payload'.Countable) :
    authenticationMessage u v payload aad = authenticationMessage u' v' payload' aad' ↔
      u = u' ∧ v = v' ∧ payload = payload' ∧ aad = aad' := by
  constructor
  · intro h
    rw [authenticationMessage_eq, authenticationMessage_eq] at h
    obtain ⟨hu, h⟩ := encode_append_inj h
    obtain ⟨hv, h⟩ := encode_append_inj h
    exact ⟨hu, hv, ScalarHash.framed_append_inj hpayload hpayload' h⟩
  · intro h
    obtain ⟨rfl, rfl, rfl, rfl⟩ := h
    rfl

/-! ## Proofs of simple shares -/

theorem Scalar.littleEndian_injective : Function.Injective Scalar.littleEndian := by
  intro s t h
  have hfits : ∀ s : Scalar, s.val % Bytes.capacity 32 = s.val := fun s =>
    Nat.mod_eq_of_lt (Nat.lt_trans s.isLt (by decide))
  have hread := congrArg Bytes.ofLittleEndian h
  rw [Scalar.littleEndian, Scalar.littleEndian, Bytes.ofLittleEndian_littleEndian,
    Bytes.ofLittleEndian_littleEndian, hfits, hfits] at hread
  exact Residue.ext_val hread

namespace EqualityProof

theorem participantBytes_injective : Function.Injective participantBytes := fun p q h =>
  UInt64.toNat_inj.mp (Bytes.bigEndian_inj (w := 8) p.toNat_lt q.toNat_lt h)

theorem countable_participantBytes (p : Participant) : (participantBytes p).Countable := by
  rw [Bytes.Countable, participantBytes, Bytes.length_bigEndian]
  decide

theorem countable_nonceParts {share : KeyShare} {context : Bytes} (hcontext : context.Countable) :
    ∀ part ∈ nonceParts share context, part.Countable := by
  have hvalue : share.value.littleEndian.Countable := by
    rw [Bytes.Countable, Scalar.littleEndian, Bytes.length_littleEndian]
    decide
  simp only [nonceParts, List.forall_mem_cons]
  exact ⟨hvalue, hcontext, countable_participantBytes _, by simp⟩

theorem nonceParts_eq_iff {share share' : KeyShare} {context context' : Bytes} :
    nonceParts share context = nonceParts share' context' ↔
      share.participant = share'.participant ∧ share.value = share'.value ∧ context = context' := by
  simp only [nonceParts, List.cons.injEq, and_true, Scalar.littleEndian_injective.eq_iff,
    participantBytes_injective.eq_iff]
  exact ⟨fun ⟨hs, hc, hp⟩ => ⟨hp, hs, hc⟩, fun ⟨hp, hs, hc⟩ => ⟨hs, hc, hp⟩⟩

variable [DistinctEncodings G1] {p p' : Participant} {commitment commitment' t1 t1' : G1}
  {context context' value value' t2 t2' : Bytes}

theorem countable_challengeParts (hsize : CurveGroup.encodedSize G1 < UInt64.size)
    (hcontext : context.Countable) (hvalue : value.Countable) (ht2 : t2.Countable) :
    ∀ part ∈ challengeParts p commitment context value t1 t2, part.Countable := by
  have hpoint : ∀ q : G1, Bytes.Countable (CurveGroup.encode q) := by
    intro q
    rwa [Bytes.Countable, DistinctEncodings.length_encode]
  simp only [challengeParts, List.forall_mem_cons]
  exact ⟨countable_participantBytes p, hpoint _, hcontext, hvalue, hpoint _, ht2, by simp⟩

theorem challengeParts_eq_iff :
    challengeParts p commitment context value t1 t2 =
        challengeParts p' commitment' context' value' t1' t2' ↔
      p = p' ∧ commitment = commitment' ∧ context = context' ∧ value = value' ∧ t1 = t1' ∧
        t2 = t2' := by
  simp only [challengeParts, List.cons.injEq, and_true, participantBytes_injective.eq_iff,
    DistinctEncodings.encode_injective.eq_iff]

theorem nonceDomain_ne_challengeDomain : nonceDomain ≠ challengeDomain := by decide

end EqualityProof

/-! ## Every hashed input -/

open EqualityProof in
/-- The hashed bytes determine what they stand for: a domain and any parts under it, key material
and its header, and a header with its payload and associated data, if points are told apart by
encodings of one size.  So nonces, challenges, payload keys and authentication points of different
inputs are hashes of different bytes, and no nonce is a hash of the same bytes as a challenge. -/
theorem hashed_inputs_apart [DistinctEncodings G1] [DistinctEncodings G2] :
    (∀ (domain domain' : Bytes) (parts parts' : List Bytes), domain.Countable →
      domain'.Countable → (∀ part ∈ parts, part.Countable) → (∀ part ∈ parts', part.Countable) →
      (ScalarHash.input domain parts = ScalarHash.input domain' parts' ↔
        domain = domain' ∧ parts = parts')) ∧
    (∀ material material' header header' : Bytes, material.Countable → material'.Countable →
      (PayloadCipher.keyInput material header = PayloadCipher.keyInput material' header' ↔
        material = material' ∧ header = header')) ∧
    (∀ (u u' : G1) (v v' : G2) (payload payload' aad aad' : Bytes), payload.Countable →
      payload'.Countable →
      (authenticationMessage u v payload aad = authenticationMessage u' v' payload' aad' ↔
        u = u' ∧ v = v' ∧ payload = payload' ∧ aad = aad')) ∧
    (∀ (share share' : KeyShare) (context context' : Bytes), context.Countable →
      context'.Countable →
      (ScalarHash.input nonceDomain (nonceParts share context) =
          ScalarHash.input nonceDomain (nonceParts share' context') ↔
        share.participant = share'.participant ∧ share.value = share'.value ∧
          context = context')) ∧
    (∀ (p p' : Participant) (commitment commitment' t1 t1' : G1)
        (context context' value value' t2 t2' : Bytes),
      CurveGroup.encodedSize G1 < UInt64.size →
      context.Countable → context'.Countable → value.Countable → value'.Countable →
      t2.Countable → t2'.Countable →
      (ScalarHash.input challengeDomain (challengeParts p commitment context value t1 t2) =
          ScalarHash.input challengeDomain
            (challengeParts p' commitment' context' value' t1' t2') ↔
        p = p' ∧ commitment = commitment' ∧ context = context' ∧ value = value' ∧ t1 = t1' ∧
          t2 = t2')) ∧
    ∀ parts parts' : List Bytes,
      ScalarHash.input nonceDomain parts ≠ ScalarHash.input challengeDomain parts' := by
  have hnonce : nonceDomain.Countable := by decide
  have hchallenge : challengeDomain.Countable := by decide
  refine ⟨fun _ _ _ _ => ScalarHash.input_eq_iff, fun _ _ _ _ => PayloadCipher.keyInput_eq_iff,
    fun _ _ _ _ _ _ _ _ => authenticationMessage_eq_iff, ?_, ?_, ?_⟩
  · intro share share' context context' hcontext hcontext'
    rw [ScalarHash.input_eq_iff hnonce hnonce (countable_nonceParts hcontext)
      (countable_nonceParts hcontext'), nonceParts_eq_iff]
    exact and_iff_right rfl
  · intro p p' commitment commitment' t1 t1' context context' value value' t2 t2' hsize hcontext
      hcontext' hvalue hvalue' ht2 ht2'
    rw [ScalarHash.input_eq_iff hchallenge hchallenge
      (countable_challengeParts hsize hcontext hvalue ht2)
      (countable_challengeParts hsize hcontext' hvalue' ht2'), challengeParts_eq_iff]
    exact and_iff_right rfl
  · intro parts parts' h
    exact nonceDomain_ne_challengeDomain (ScalarHash.framed_append_inj hnonce hchallenge h).1

instance : DistinctEncodings LogPoint where
  length_encode p := Bytes.length_bigEndian 32 p.log.val
  encode_injective p q h := by
    have hdecoded := congrArg Scalar.decode h
    rw [show CurveGroup.encode p = p.log.encode from rfl,
      show CurveGroup.encode q = q.log.encode from rfl, Scalar.decode_encode,
      Scalar.decode_encode] at hdecoded
    exact LogPoint.ext_log (Except.ok.inj hdecoded)

/-- A byte moved between parts, between payload and associated data, or to another header. -/
theorem hashed_inputs_apart_one_byte_moved :
    ScalarHash.input [1] [[2, 3], []] ≠ ScalarHash.input [1] [[2], [3]] ∧
    ScalarHash.input [1] [[2], []] ≠ ScalarHash.input [1] [[2]] ∧
    PayloadCipher.keyInput [1, 2] [3] ≠ PayloadCipher.keyInput [1] [2, 3] ∧
    authenticationMessage (⟨7⟩ : LogPoint) (⟨7⟩ : LogPoint) [1, 2] [9] ≠
      authenticationMessage (⟨7⟩ : LogPoint) (⟨7⟩ : LogPoint) [1] [2, 9] ∧
    ScalarHash.input EqualityProof.challengeDomain
        (EqualityProof.challengeParts 0 (⟨8⟩ : LogPoint) [1] [2] ⟨5⟩ [3]) ≠
      ScalarHash.input EqualityProof.challengeDomain
        (EqualityProof.challengeParts 0 (⟨8⟩ : LogPoint) [1] [2] ⟨6⟩ [3]) := by
  obtain ⟨hinput, hkey, hmessage, -, hchallenge, -⟩ :=
    @hashed_inputs_apart LogPoint LogPoint _ _ _ _
  refine ⟨?_, ?_, ?_, ?_, ?_⟩
  · rw [Ne, hinput _ _ _ _ (by decide) (by decide) (by decide) (by decide)]
    decide
  · rw [Ne, hinput _ _ _ _ (by decide) (by decide) (by decide) (by decide)]
    decide
  · rw [Ne, hkey _ _ _ _ (by decide) (by decide)]
    decide
  · rw [Ne, hmessage _ _ _ _ _ _ _ _ (by decide) (by decide)]
    decide
  · rw [Ne, hchallenge _ _ _ _ _ _ _ _ _ _ _ _ (by decide) (by decide) (by decide) (by decide)
      (by decide) (by decide) (by decide)]
    decide

end ThresholdCipher
