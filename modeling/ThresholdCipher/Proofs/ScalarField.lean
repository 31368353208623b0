import Mathlib
import ThresholdCipher.Bls12381
import ThresholdCipher.Combination
import ThresholdCipher.Json
import ThresholdCipher.Renewal
import ThresholdCipher.Wire

/-
The scalars form a field.

Residues are a ring because `toZMod`, which keeps the representative, is injective
and respects every operation.  The order is prime by Lucas's test
(`groupOrder_prime`): seven has the full order, and the order's predecessor has
small prime factors only.  With Fermat's theorem the power that inverts a scalar
is an inverse.

The other program modules are imported for their place before this one: from here
on the operations of residues are those of a ring.
-/

namespace ThresholdCipher

/-! ## Residues are a ring -/

/-- Doubling takes in the `w` lowest bits of `n`. -/
theorem doubling_eq_pow {M : Type} [CommMonoid M] (x : M) (n w : Nat) (acc : M) :
    doubling (· * ·) (fun b => b * b) x n w acc = acc ^ 2 ^ w * x ^ (n % 2 ^ w) := by
  induction w generalizing acc with
  | zero => simp [doubling, Nat.mod_one]
  | succ w ih =>
    have hsplit : n % 2 ^ (w + 1) = n % 2 ^ w + 2 ^ w * (n.testBit w).toNat := by
      rw [Nat.mod_pow_succ, Nat.toNat_testBit]
    rw [doubling, hsplit, pow_add x, pow_succ 2 w, mul_comm (2 ^ w) 2, pow_mul acc, pow_two acc]
    cases n.testBit w with
    | false => simp [ih]
    | true =>
      simp only [if_true, ih, mul_pow, Bool.toNat_true, mul_one]
      rw [mul_assoc, mul_comm (x ^ 2 ^ w)]

namespace Residue

variable {m : Nat}

def toZMod (a : Residue m) : ZMod m := (a.val : ZMod m)

theorem toZMod_injective : Function.Injective (toZMod (m := m)) := by
  intro a b h
  have hval := (ZMod.natCast_eq_natCast_iff' a.val b.val m).mp h
  rw [Nat.mod_eq_of_lt a.isLt, Nat.mod_eq_of_lt b.isLt] at hval
  exact ext_val hval

theorem toZMod_add (a b : Residue m) : (a + b).toZMod = a.toZMod + b.toZMod := by
  rw [toZMod, val_add, ZMod.natCast_mod, Nat.cast_add]
  rfl

variable [Modulus m]

instance : NatCast (Residue m) := ⟨ofNat m⟩
instance : IntCast (Residue m) := ⟨fun z => ofNat m (z % m).toNat⟩
instance : SMul Nat (Residue m) := ⟨fun n a => ofNat m (n * a.val)⟩
instance : SMul Int (Residue m) := ⟨fun z a => (z : Residue m) * a⟩

theorem toZMod_ofNat (n : Nat) : (ofNat m n).toZMod = n := by
  rw [toZMod, val_ofNat, ZMod.natCast_mod]

theorem toZMod_zero : (0 : Residue m).toZMod = 0 := by
  show (ofNat m 0).toZMod = 0
  rw [toZMod_ofNat, Nat.cast_zero]

theorem toZMod_one : (1 : Residue m).toZMod = 1 := by
  show (ofNat m 1).toZMod = 1
  rw [toZMod_ofNat, Nat.cast_one]

theorem toZMod_intCast (z : Int) : (z : Residue m).toZMod = z := by
  have hpos : (m : Int) ≠ 0 := by exact_mod_cast (Modulus.pos (m := m)).ne'
  have hnonneg := Int.emod_nonneg z hpos
  show (ofNat m (z % m).toNat).toZMod = z
  rw [toZMod_ofNat, ← Int.cast_natCast, Int.toNat_of_nonneg hnonneg, ZMod.intCast_mod]

omit [Modulus m] in
theorem toZMod_sub (a b : Residue m) : (a - b).toZMod = a.toZMod - b.toZMod := by
  have hb := b.isLt
  rw [toZMod, val_sub, ZMod.natCast_mod, Nat.cast_add, Nat.cast_sub hb.le, ZMod.natCast_self,
    zero_sub, ← sub_eq_add_neg]
  rfl

theorem toZMod_neg (a : Residue m) : (-a).toZMod = -a.toZMod := by
  show (0 - a).toZMod = _
  rw [toZMod_sub, toZMod_zero, zero_sub]

theorem toZMod_mul (a b : Residue m) : (a * b).toZMod = a.toZMod * b.toZMod := by
  rw [toZMod, val_mul, ZMod.natCast_mod, Nat.cast_mul]
  rfl

theorem toZMod_pow (a : Residue m) (n : Nat) : (a ^ n).toZMod = a.toZMod ^ n := by
  have hcarry : ∀ w acc, (doubling (· * ·) (fun b => b * b) a n w acc).toZMod =
      doubling (· * ·) (fun b => b * b) a.toZMod n w acc.toZMod := by
    intro w
    induction w with
    | zero => exact fun acc => rfl
    | succ w ih =>
      intro acc
      rw [doubling, doubling, ih]
      split <;> simp only [toZMod_mul]
  have hn : n < 2 ^ (n.log2 + 1) := Nat.lt_log2_self
  show (doubling _ _ a n (n.log2 + 1) 1).toZMod = _
  rw [hcarry, toZMod_one, doubling_eq_pow, one_pow, one_mul, Nat.mod_eq_of_lt hn]

instance : CommRing (Residue m) :=
  toZMod_injective.commRing toZMod toZMod_zero toZMod_one toZMod_add
    toZMod_mul toZMod_neg toZMod_sub
    (fun n a => by
      show (ofNat m (n * a.val)).toZMod = _
      rw [toZMod_ofNat, Nat.cast_mul, nsmul_eq_mul]
      rfl)
    (fun z a => by
      show ((z : Residue m) * a).toZMod = _
      rw [toZMod_mul, toZMod_intCast, zsmul_eq_mul])
    toZMod_pow toZMod_ofNat toZMod_intCast

end Residue

/-! ## The order is prime -/

/-- The prime factors of `groupOrder - 1`. -/
def orderFactors : List Nat :=
  [2, 3, 11, 19, 10177, 125527, 859267, 906349, 2508409, 2529403, 52437899, 254760293]

theorem groupOrder_pred :
    groupOrder - 1 = 2 ^ 32 * 3 * 11 * 19 * 10177 * 125527 * 859267 * 906349 ^ 2 * 2508409 *
      2529403 * 52437899 * 254760293 ^ 2 := by
  norm_num [groupOrder]

theorem mem_orderFactors {q : Nat} (hq : q.Prime) (h : q ∣ groupOrder - 1) :
    q ∈ orderFactors := by
  have hprimes : ∀ p ∈ orderFactors, p.Prime := by norm_num [orderFactors]
  have hdvd : ∃ p ∈ orderFactors, q ∣ p := by
    rw [groupOrder_pred] at h
    simp only [hq.dvd_mul] at h
    obtain ((((((((((h | h) | h) | h) | h) | h) | h) | h) | h) | h) | h) | h := h
    · exact ⟨2, by decide, hq.dvd_of_dvd_pow h⟩
    · exact ⟨3, by decide, h⟩
    · exact ⟨11, by decide, h⟩
    · exact ⟨19, by decide, h⟩
    · exact ⟨10177, by decide, h⟩
    · exact ⟨125527, by decide, h⟩
    · exact ⟨859267, by decide, h⟩
    · exact ⟨906349, by decide, hq.dvd_of_dvd_pow h⟩
    · exact ⟨2508409, by decide, h⟩
    · exact ⟨2529403, by decide, h⟩
    · exact ⟨52437899, by decide, h⟩
    · exact ⟨254760293, by decide, hq.dvd_of_dvd_pow h⟩
  obtain ⟨p, hp, hqp⟩ := hdvd
  rwa [(Nat.prime_dvd_prime_iff_eq hq (hprimes p hp)).mp hqp]

/-- No proper divisor of the predecessor kills seven. -/
theorem seven_pow_ne_one : ∀ q ∈ orderFactors, (7 : Scalar) ^ ((groupOrder - 1) / q) ≠ 1 := by
  decide +kernel

theorem groupOrder_prime : groupOrder.Prime := by
  refine lucas_primality groupOrder (7 : Scalar).toZMod ?_ ?_
  · rw [← Residue.toZMod_pow, ← Residue.toZMod_one]
    exact congrArg Residue.toZMod (by decide +kernel)
  · intro q hq hdvd
    rw [← Residue.toZMod_pow, ← Residue.toZMod_one]
    exact fun h => seven_pow_ne_one q (mem_orderFactors hq hdvd) (Residue.toZMod_injective h)

instance : Fact groupOrder.Prime := ⟨groupOrder_prime⟩

/-! ## Scalars are a field -/

namespace Scalar

theorem toZMod_inv (a : Scalar) : a⁻¹.toZMod = a.toZMod ^ (groupOrder - 2) :=
  Residue.toZMod_pow a (groupOrder - 2)

theorem mul_inverse {a : Scalar} (ha : a ≠ 0) : a * a⁻¹ = 1 := by
  have hz : a.toZMod ≠ 0 := fun h =>
    ha (Residue.toZMod_injective (h.trans Residue.toZMod_zero.symm))
  have hpred : groupOrder - 2 + 1 = groupOrder - 1 := by decide
  apply Residue.toZMod_injective
  rw [Residue.toZMod_mul, toZMod_inv, Residue.toZMod_one, ← pow_succ', hpred]
  exact ZMod.pow_card_sub_one_eq_one hz

theorem inverse_zero : (0 : Scalar)⁻¹ = 0 := by
  apply Residue.toZMod_injective
  rw [toZMod_inv, Residue.toZMod_zero]
  exact zero_pow (by decide)

-- The laws of integer powers compare inverses; unfolding these to powers would not end.
attribute [local irreducible] Residue.pow

instance : Field Scalar where
  exists_pair_ne := ⟨1, 0, by decide⟩
  mul_inv_cancel _ := mul_inverse
  inv_zero := inverse_zero
  nnqsmul := _
  nnqsmul_def _ _ := rfl
  qsmul := _
  qsmul_def _ _ := rfl

theorem natCast_val (s : Scalar) : ((s.val : Nat) : Scalar) = s := Residue.ofNat_val s

theorem ofNat_injOn {a b : Nat} (ha : a < groupOrder) (hb : b < groupOrder)
    (h : ofNat a = ofNat b) : a = b := by
  have hval : a % groupOrder = b % groupOrder := congrArg Residue.val h
  rwa [Nat.mod_eq_of_lt ha, Nat.mod_eq_of_lt hb] at hval

theorem succ_lt_groupOrder (p : Participant) : p.toNat + 1 < groupOrder := by
  have hp : p.toNat < 2 ^ 64 := p.toNat_lt
  have horder : 2 ^ 64 + 1 < groupOrder := by decide
  omega

theorem domainPoint_injective : Function.Injective domainPoint := by
  intro p q h
  have hpq := ofNat_injOn (succ_lt_groupOrder p) (succ_lt_groupOrder q) h
  exact UInt64.toNat_inj.mp (by omega)

theorem domainPoint_ne_zero (p : Participant) : domainPoint p ≠ 0 := by
  intro h
  have hzero := ofNat_injOn (succ_lt_groupOrder p) groupOrder_prime.pos h
  omega

end Scalar
end ThresholdCipher
