import ThresholdCipher.DecryptionShare
import ThresholdCipher.Json.Record
import ThresholdCipher.Parameters

/-
The JSON form of parameters and of the values that participants exchange.

Elements are byte strings, written as arrays of numbers.  The types of all fields are
read before any element is decoded, and then elements are decoded in the order of
the fields; an inner record is decoded as soon as it is read.
-/

namespace ThresholdCipher

class Json (α : Type) where
  format : Json.Format α

namespace Json

def encode {α : Type} [Json α] (a : α) : Except Failure Bytes := format.write a

def decode {α : Type} [Json α] (text : Bytes) : Except Problem α := Format.decode format text

/-! ## Elements -/

def element {α : Type} (x : Except DecodingError α) : Except Mismatch α := x.mapError .element

def scalar (bs : Bytes) : Except Mismatch Scalar :=
  if bs.length = 32 then element (Scalar.decode bs) else .error (.scalarLength bs.length)

def point {G : Type} [CurveGroup G] (bs : Bytes) : Except Mismatch G :=
  element (CurveGroup.decode bs)

def publicKey {G : Type} [CurveGroup G] : Format G :=
  Format.bytes.refine point fun key => .ok (CurveGroup.encode key)

/-! ## Parameters -/

def backendName : Backend → String
  | .arkworks => "Arkworks"
  | .blst => "Blst"

def backend : Format Backend :=
  .choice ([.arkworks, .blst].map fun b => (backendName b, b)) backendName

def size : Format Nat := .natural UInt64.size

instance : Json Parameters where
  format :=
    (Record.field (.required "parties" size)
      (.field (.required "threshold" size)
        (.field (.required "backend" backend) .done))).format.convert
      (fun (parties, threshold, backend, _) => ⟨parties, threshold, backend⟩)
      fun p => (p.parties, p.threshold, p.backend, ())

/-! ## Shares, commitments and ciphertexts -/

/-- A record of a participant, its point and an encoded value under the given name. -/
def seated (name : String) : Record (Participant × Bytes × Bytes × Unit) :=
  .field (.required "participant" .word64)
    (.field (.required "domain_point" .bytes)
      (.field (.required name .bytes) .done))

instance : Json KeyShare where
  format := (seated "value").format.refine
    (fun (p, x, value, _) => do return ⟨p, ← scalar x, ← scalar value⟩)
    fun share => .ok (share.participant, share.domainPoint.encode, share.value.encode, ())

variable {G1 G2 T : Type} [CurveGroup G1] [CurveGroup G2] [TargetGroup T]

instance : Json (ShareCommitment G1) where
  format := (seated "commitment").format.refine
    (fun (p, x, commitment, _) => do return ⟨p, ← scalar x, ← point commitment⟩)
    fun entry => .ok
      (entry.participant, entry.domainPoint.encode, CurveGroup.encode entry.commitment, ())

instance : Json (PreparedDecryptionShare G2) where
  format := (seated "value").format.refine
    (fun (p, x, value, _) => do return ⟨p, ← scalar x, ← point value⟩)
    fun share => .ok
      (share.participant, share.domainPoint.encode, CurveGroup.encode share.value, ())

instance : Json (VerificationVector G1) where
  format :=
    (Record.field (.required "public_key" publicKey)
      (.field (.required "share_commitments" (.list format)) .done)).format.convert
      (fun (key, entries, _) => ⟨key, entries⟩)
      fun vector => (vector.publicKey, vector.entries, ())

instance : Json (Ciphertext G1 G2) where
  format :=
    (Record.field (.required "u" .bytes)
      (.field (.required "v" .bytes)
        (.field (.required "w" .bytes)
          (.field (.required "payload" .bytes) .done)))).format.refine
      (fun (u, v, w, payload, _) => do return ⟨⟨← point u, ← point v, ← point w⟩, payload⟩)
      fun ciphertext => .ok
        (CurveGroup.encode ciphertext.header.u, CurveGroup.encode ciphertext.header.v,
          CurveGroup.encode ciphertext.header.w, ciphertext.payload, ())

/-! ## Decryption shares -/

def variantName : ShareVariant → String
  | .fast => "fast"
  | .simple => "simple"

def variant : Format ShareVariant :=
  .choice ([.fast, .simple].map fun v => (variantName v, v)) variantName

/-- A part of a proof, which a simple share must have. -/
def proofPart (name : String) : Option Bytes → Except Mismatch Bytes
  | some bs => .ok bs
  | none => .error (.missingProofPart name)

abbrev ShareFields : Type :=
  ShareVariant × Participant × Bytes × Bytes × Option Bytes × Option Bytes × Unit

def shareRecord : Record ShareFields :=
  .field (.required "variant" variant)
    (.field (.required "participant" .word64)
      (.field (.required "domain_point" .bytes)
        (.field (.required "value" .bytes)
          (.field (.optional "challenge" .bytes)
            (.field (.optional "response" .bytes) .done)))))

/-- A fast share has no proof, and one that is given with it is not looked at. -/
def shareOfFields : ShareFields → Except Mismatch (DecryptionShare G2 T)
  | (.fast, p, x, value, _) => do return .fast ⟨p, ← scalar x, ← point value⟩
  | (.simple, p, x, value, challenge?, response?, _) => do
    let x ← scalar x
    let challenge ← proofPart "challenge" challenge?
    let response ← proofPart "response" response?
    return .simple ⟨p, x, ← element (TargetGroup.decode value),
      ⟨← scalar challenge, ← scalar response⟩⟩

def fieldsOfShare : DecryptionShare G2 T → Except Failure ShareFields
  | .fast s => .ok
    (.fast, s.participant, s.domainPoint.encode, CurveGroup.encode s.value, none, none, ())
  | .simple s => do
    return (.simple, s.participant, s.domainPoint.encode, ← encodeTarget s.value,
      some s.proof.challenge.encode, some s.proof.response.encode, ())

instance : Json (DecryptionShare G2 T) where
  format := shareRecord.format.refine shareOfFields fieldsOfShare

end Json
end ThresholdCipher
