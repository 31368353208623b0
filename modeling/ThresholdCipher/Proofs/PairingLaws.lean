import ThresholdCipher.Proofs.Outcome

/-
The laws of a pairing, and reasoning by exponents.

`LawfulCurveGroup` and `LawfulTargetGroup` say that scalars act on a group as on a
line, `LawfulPairing` that the pairing is bilinear and not constant.  Since the
generator spans its group, every point has an `exponent`, and an equation between
points or pairings is an equation between scalars.

The laws have a model: points known by their exponents, with the product of
exponents as the pairing.
-/

namespace ThresholdCipher

/-- A curve group that is a line over the scalars, spanned by its generator. -/
class LawfulCurveGroup (G : Type) [CurveGroup G] : Prop where
  add_assoc : ∀ p q r : G, p + q + r = p + (q + r)
  add_comm : ∀ p q : G, p + q = q + p
  zero_add : ∀ p : G, 0 + p = p
  neg_add_cancel : ∀ p : G, -p + p = 0
  one_smul : ∀ p : G, (1 : Scalar) • p = p
  mul_smul : ∀ (s t : Scalar) (p : G), (s * t) • p = s • t • p
  add_smul : ∀ (s t : Scalar) (p : G), (s + t) • p = s • p + t • p
  smul_add : ∀ (s : Scalar) (p q : G), s • (p + q) = s • p + s • q
  spanned : ∀ p : G, ∃ s : Scalar, s • (generator : G) = p
  generator_ne_zero : (generator : G) ≠ 0

/-- A target group on which scalars act as exponents.  Its identity, and nothing else, has
no encoding. -/
class LawfulTargetGroup (T : Type) [TargetGroup T] : Prop where
  mul_assoc : ∀ s t u : T, s * t * u = s * (t * u)
  mul_comm : ∀ s t : T, s * t = t * s
  one_mul : ∀ t : T, 1 * t = t
  pow_zero : ∀ t : T, t ^ (0 : Scalar) = 1
  pow_one : ∀ t : T, t ^ (1 : Scalar) = t
  pow_add : ∀ (t : T) (a b : Scalar), t ^ (a + b) = t ^ a * t ^ b
  pow_mul : ∀ (t : T) (a b : Scalar), t ^ (a * b) = (t ^ a) ^ b
  mul_pow : ∀ (s t : T) (a : Scalar), (s * t) ^ a = s ^ a * t ^ a
  encode_eq_none : ∀ t : T, TargetGroup.encode t = none ↔ t = 1

/-- A pairing that is linear on both sides and whose value at the generators spans the
target group. -/
class LawfulPairing (G1 G2 : Type) (T : outParam Type) [CurveGroup G1] [CurveGroup G2]
    [TargetGroup T] [Pairing G1 G2 T] : Prop where
  pair_smul_left : ∀ (s : Scalar) (p : G1) (q : G2), pair (s • p) q = pair p q ^ s
  pair_smul_right : ∀ (s : Scalar) (p : G1) (q : G2), pair p (s • q) = pair p q ^ s
  spanned : ∀ t : T, ∃ s : Scalar, pair (generator : G1) (generator : G2) ^ s = t
  pair_generators_ne_one : pair (generator : G1) (generator : G2) ≠ 1

/-! ## Points and their exponents -/

section CurveGroup

variable {G : Type} [CurveGroup G] [LawfulCurveGroup G]

instance (priority := low) LawfulCurveGroup.addCommGroup : AddCommGroup G where
  add_assoc := LawfulCurveGroup.add_assoc
  zero_add := LawfulCurveGroup.zero_add
  add_zero p := by rw [LawfulCurveGroup.add_comm, LawfulCurveGroup.zero_add]
  nsmul := nsmulRec
  zsmul := zsmulRec
  neg_add_cancel := LawfulCurveGroup.neg_add_cancel
  add_comm := LawfulCurveGroup.add_comm

instance (priority := low) LawfulCurveGroup.module : Module Scalar G where
  one_smul := LawfulCurveGroup.one_smul
  mul_smul := LawfulCurveGroup.mul_smul
  smul_zero s := by
    have h := LawfulCurveGroup.smul_add s (0 : G) 0
    rw [LawfulCurveGroup.zero_add] at h
    exact left_eq_add.mp h
  smul_add := LawfulCurveGroup.smul_add
  add_smul := LawfulCurveGroup.add_smul
  zero_smul p := by
    have h := LawfulCurveGroup.add_smul 0 0 p
    rw [add_zero] at h
    exact left_eq_add.mp h

theorem smul_generator_injective : Function.Injective fun s : Scalar => s • (generator : G) :=
  smul_left_injective Scalar LawfulCurveGroup.generator_ne_zero

/-- The scalar whose multiple of the generator a point is. -/
noncomputable def exponent (p : G) : Scalar := (LawfulCurveGroup.spanned p).choose

@[simp] theorem exponent_smul_generator (p : G) : exponent p • (generator : G) = p :=
  (LawfulCurveGroup.spanned p).choose_spec

theorem exponent_eq_iff {p : G} {s : Scalar} : exponent p = s ↔ p = s • (generator : G) := by
  constructor
  · intro h
    rw [← h, exponent_smul_generator]
  · intro h
    exact smul_generator_injective ((exponent_smul_generator p).trans h)

@[simp] theorem exponent_generator : exponent (generator : G) = 1 := by
  rw [exponent_eq_iff, one_smul]

@[simp] theorem exponent_zero : exponent (0 : G) = 0 := by
  rw [exponent_eq_iff, zero_smul]

@[simp] theorem exponent_add (p q : G) : exponent (p + q) = exponent p + exponent q := by
  rw [exponent_eq_iff, add_smul, exponent_smul_generator, exponent_smul_generator]

@[simp] theorem exponent_smul (s : Scalar) (p : G) : exponent (s • p) = s * exponent p := by
  rw [exponent_eq_iff, mul_smul, exponent_smul_generator]

@[simp] theorem exponent_neg (p : G) : exponent (-p) = -exponent p := by
  rw [exponent_eq_iff, neg_smul, exponent_smul_generator]

theorem exponent_sum (points : List G) : exponent points.sum = (points.map exponent).sum := by
  induction points with
  | nil => exact exponent_zero
  | cons p points ih => rw [List.sum_cons, exponent_add, ih, List.map_cons, List.sum_cons]

theorem sum_eq_sum (points : List G) : sum points = points.sum := List.sum_eq_foldl.symm

/-- A weighted sum has a value where the lists agree in length and are not empty. -/
theorem weightedSum_eq_ok {points : List G} {weights : List Scalar} {q : G} :
    weightedSum points weights = .ok q ↔ points.length = weights.length ∧ points ≠ [] ∧
      (List.zipWith (fun p w => w • p) points weights).sum = q := by
  unfold weightedSum
  by_cases hlen : points.length = weights.length
  · rw [if_neg (not_not.mpr hlen)]
    cases points with
    | nil => simp
    | cons p points => simp [hlen, sum_eq_sum]
  · simp [hlen]

end CurveGroup

/-! ## Powers in the target group -/

section TargetGroup

variable {T : Type} [TargetGroup T] [LawfulTargetGroup T]

instance (priority := low) LawfulTargetGroup.commGroup : CommGroup T where
  mul_assoc := LawfulTargetGroup.mul_assoc
  one_mul := LawfulTargetGroup.one_mul
  mul_one t := by rw [LawfulTargetGroup.mul_comm, LawfulTargetGroup.one_mul]
  inv t := t ^ (-1 : Scalar)
  inv_mul_cancel t := by
    show t ^ (-1 : Scalar) * t = 1
    calc t ^ (-1 : Scalar) * t = t ^ (-1 : Scalar) * t ^ (1 : Scalar) := by
          rw [LawfulTargetGroup.pow_one]
      _ = t ^ (-1 + 1 : Scalar) := (LawfulTargetGroup.pow_add t (-1) 1).symm
      _ = 1 := by rw [neg_add_cancel, LawfulTargetGroup.pow_zero]
  mul_comm := LawfulTargetGroup.mul_comm

theorem one_pow_scalar (a : Scalar) : (1 : T) ^ a = 1 := by
  rw [← LawfulTargetGroup.pow_zero (1 : T), ← LawfulTargetGroup.pow_mul, zero_mul]

theorem pow_sum (t : T) (as : List Scalar) : (as.map fun a => t ^ a).prod = t ^ as.sum := by
  induction as with
  | nil => exact (LawfulTargetGroup.pow_zero t).symm
  | cons a as ih =>
    rw [List.map_cons, List.prod_cons, ih, List.sum_cons, LawfulTargetGroup.pow_add]

/-- No power but the zeroth of an element other than the identity is the identity. -/
theorem pow_eq_one_iff_eq_zero {t : T} (ht : t ≠ 1) {a : Scalar} : t ^ a = 1 ↔ a = 0 := by
  constructor
  · intro h
    by_contra ha
    apply ht
    rw [← LawfulTargetGroup.pow_one t, ← mul_inv_cancel₀ ha, LawfulTargetGroup.pow_mul, h,
      one_pow_scalar]
  · rintro rfl
    exact LawfulTargetGroup.pow_zero t

theorem pow_injective_of_ne_one {t : T} (ht : t ≠ 1) :
    Function.Injective fun a : Scalar => t ^ a := by
  intro a b h
  have hone : t ^ (a - b) = 1 := by
    rw [sub_eq_add_neg, LawfulTargetGroup.pow_add, show t ^ a = t ^ b from h,
      ← LawfulTargetGroup.pow_add, add_neg_cancel, LawfulTargetGroup.pow_zero]
  exact sub_eq_zero.mp ((pow_eq_one_iff_eq_zero ht).mp hone)

theorem product_eq_prod (elements : List T) : product elements = elements.prod :=
  List.prod_eq_foldl.symm

theorem weightedProduct_eq_prod (elements : List T) (weights : List Scalar) :
    weightedProduct elements weights = (List.zipWith (fun t w => t ^ w) elements weights).prod :=
  product_eq_prod _

theorem encodeTarget_ok {t : T} (ht : t ≠ 1) : ∃ bs, encodeTarget t = .ok bs := by
  unfold encodeTarget
  cases h : TargetGroup.encode t with
  | none => exact absurd ((LawfulTargetGroup.encode_eq_none t).mp h) ht
  | some bs => exact ⟨bs, rfl⟩

theorem encodeTarget_one : encodeTarget (1 : T) = .error .identityEncoded := by
  rw [encodeTarget, (LawfulTargetGroup.encode_eq_none 1).mpr rfl]

end TargetGroup

/-! ## Pairings as powers -/

section Pairing

variable {G1 G2 T : Type} [CurveGroup G1] [CurveGroup G2] [TargetGroup T] [Pairing G1 G2 T]
  [LawfulTargetGroup T] [LawfulPairing G1 G2 T]

theorem pair_smul_generators (a b : Scalar) :
    pair (a • (generator : G1)) (b • (generator : G2)) =
      pair (generator : G1) (generator : G2) ^ (a * b) := by
  rw [LawfulPairing.pair_smul_left, LawfulPairing.pair_smul_right, ← LawfulTargetGroup.pow_mul,
    mul_comm]

theorem pair_pow_injective :
    Function.Injective fun a : Scalar => pair (generator : G1) (generator : G2) ^ a :=
  pow_injective_of_ne_one LawfulPairing.pair_generators_ne_one

variable [LawfulCurveGroup G1] [LawfulCurveGroup G2]

theorem pair_eq_pow (p : G1) (q : G2) :
    pair p q = pair (generator : G1) (generator : G2) ^ (exponent p * exponent q) := by
  rw [← pair_smul_generators, exponent_smul_generator, exponent_smul_generator]

theorem pair_eq_one_iff {p : G1} {q : G2} : pair p q = 1 ↔ p = 0 ∨ q = 0 := by
  rw [pair_eq_pow, pow_eq_one_iff_eq_zero LawfulPairing.pair_generators_ne_one, mul_eq_zero,
    exponent_eq_iff, exponent_eq_iff, zero_smul, zero_smul]

/-- The pairings of `(p, q)` and of the negated generator with `r` cancel exactly where `r`
has the product of the exponents. -/
theorem pairsCancel_iff (p : G1) (q r : G2) :
    pairsCancel [(p, q), (-(generator : G1), r)] = true ↔ exponent p * exponent q = exponent r := by
  have hprod : pair p q * pair (-(generator : G1)) r =
      pair (generator : G1) (generator : G2) ^ (exponent p * exponent q - exponent r) := by
    rw [pair_eq_pow p q, pair_eq_pow (-(generator : G1)) r, ← LawfulTargetGroup.pow_add,
      exponent_neg, exponent_generator]
    congr 1
    ring
  rw [pairsCancel, decide_eq_true_iff, product_eq_prod]
  simp only [List.map_cons, List.map_nil, List.prod_cons, List.prod_nil, mul_one]
  rw [hprod, pow_eq_one_iff_eq_zero LawfulPairing.pair_generators_ne_one, sub_eq_zero]

end Pairing

/-! ## A model of the laws -/

/-- A point known by its exponent. -/
structure LogPoint where
  log : Scalar
  deriving DecidableEq

/-- A target element known by its exponent. -/
structure LogTarget where
  log : Scalar
  deriving DecidableEq

instance : CurveGroup LogPoint where
  zero := ⟨0⟩
  add p q := ⟨p.log + q.log⟩
  neg p := ⟨-p.log⟩
  smul s p := ⟨s * p.log⟩
  generator := ⟨1⟩
  decEq := inferInstance
  encodedSize := 32
  encode p := p.log.encode
  decode bs := (Scalar.decode bs).map LogPoint.mk

instance : TargetGroup LogTarget where
  one := ⟨0⟩
  mul s t := ⟨s.log + t.log⟩
  pow t a := ⟨t.log * a⟩
  decEq := inferInstance
  encode t := if t.log = 0 then none else some t.log.encode
  decode bs := (Scalar.decode bs).map LogTarget.mk

instance : Pairing LogPoint LogPoint LogTarget where
  pair p q := ⟨p.log * q.log⟩
  hashToCurve message tag :=
    let s := Scalar.ofNat (Bytes.ofBigEndian (tag ++ message))
    ⟨if s = 0 then 1 else s⟩

theorem LogPoint.hashToCurve_ne_zero (message tag : Bytes) :
    (Pairing.hashToCurve LogPoint message tag : LogPoint) ≠ 0 := by
  intro h
  have hlog := congrArg LogPoint.log h
  by_cases hzero : Scalar.ofNat (Bytes.ofBigEndian (tag ++ message)) = 0
  · exact one_ne_zero ((if_pos hzero).symm.trans hlog)
  · exact hzero ((if_neg hzero).symm.trans hlog)

theorem LogPoint.ext_log {p q : LogPoint} (h : p.log = q.log) : p = q := by
  cases p; cases q; cases h; rfl

theorem LogTarget.ext_log {s t : LogTarget} (h : s.log = t.log) : s = t := by
  cases s; cases t; cases h; rfl

instance : LawfulCurveGroup LogPoint where
  add_assoc p q r := LogPoint.ext_log (add_assoc p.log q.log r.log)
  add_comm p q := LogPoint.ext_log (add_comm p.log q.log)
  zero_add p := LogPoint.ext_log (zero_add p.log)
  neg_add_cancel p := LogPoint.ext_log (neg_add_cancel p.log)
  one_smul p := LogPoint.ext_log (one_mul p.log)
  mul_smul s t p := LogPoint.ext_log (mul_assoc s t p.log)
  add_smul s t p := LogPoint.ext_log (add_mul s t p.log)
  smul_add s p q := LogPoint.ext_log (mul_add s p.log q.log)
  spanned p := ⟨p.log, LogPoint.ext_log (mul_one p.log)⟩
  generator_ne_zero h := one_ne_zero (congrArg LogPoint.log h)

instance : LawfulTargetGroup LogTarget where
  mul_assoc s t u := LogTarget.ext_log (add_assoc s.log t.log u.log)
  mul_comm s t := LogTarget.ext_log (add_comm s.log t.log)
  one_mul t := LogTarget.ext_log (zero_add t.log)
  pow_zero t := LogTarget.ext_log (mul_zero t.log)
  pow_one t := LogTarget.ext_log (mul_one t.log)
  pow_add t a b := LogTarget.ext_log (mul_add t.log a b)
  pow_mul t a b := LogTarget.ext_log (mul_assoc t.log a b).symm
  mul_pow s t a := LogTarget.ext_log (add_mul s.log t.log a)
  encode_eq_none t := by
    show (if t.log = 0 then none else some t.log.encode) = none ↔ t = 1
    by_cases h : t.log = 0
    · rw [if_pos h]
      exact ⟨fun _ => LogTarget.ext_log h, fun _ => rfl⟩
    · rw [if_neg h]
      exact ⟨fun hn => (nomatch hn), fun ht => absurd (congrArg LogTarget.log ht) h⟩

instance : LawfulPairing LogPoint LogPoint LogTarget where
  pair_smul_left s p q := LogTarget.ext_log (by
    show s * p.log * q.log = p.log * q.log * s
    ring)
  pair_smul_right s p q := LogTarget.ext_log (by
    show p.log * (s * q.log) = p.log * q.log * s
    ring)
  spanned t := ⟨t.log, LogTarget.ext_log (by
    show (1 : Scalar) * 1 * t.log = t.log
    ring)⟩
  pair_generators_ne_one h :=
    one_ne_zero ((mul_one (1 : Scalar)).symm.trans (congrArg LogTarget.log h))

end ThresholdCipher
