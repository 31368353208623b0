import ThresholdCipher.Bytes

/-
Integers modulo `m`, by their least non-negative representatives.

A sum of two representatives exceeds `m` at most once, so addition and subtraction
correct by one `m` instead of dividing; `val_add` and `val_sub` say that this is
the remainder.
-/

namespace ThresholdCipher

class Modulus (m : Nat) : Prop where
  pos : 0 < m

/-- A number below `m`, with arithmetic modulo `m`. -/
structure Residue (m : Nat) where
  val : Nat
  isLt : val < m
  deriving DecidableEq

namespace Residue

variable {m : Nat}

theorem ext_val {a b : Residue m} (h : a.val = b.val) : a = b := by
  cases a; cases b; cases h; rfl

def add (a b : Residue m) : Residue m :=
  if h : a.val + b.val < m then ⟨a.val + b.val, h⟩
  else ⟨a.val + b.val - m, by have ha := a.isLt; have hb := b.isLt; omega⟩

def sub (a b : Residue m) : Residue m :=
  if h : b.val ≤ a.val then ⟨a.val - b.val, Nat.lt_of_le_of_lt (Nat.sub_le _ _) a.isLt⟩
  else ⟨a.val + m - b.val, by have hb := b.isLt; omega⟩

instance : Add (Residue m) := ⟨add⟩
instance : Sub (Residue m) := ⟨sub⟩

theorem val_add (a b : Residue m) : (a + b).val = (a.val + b.val) % m := by
  show (add a b).val = _
  have ha := a.isLt
  have hb := b.isLt
  unfold add
  split
  next h => exact (Nat.mod_eq_of_lt h).symm
  next h => rw [Nat.mod_eq_sub_mod (by omega), Nat.mod_eq_of_lt (by omega)]

theorem val_sub (a b : Residue m) : (a - b).val = (a.val + (m - b.val)) % m := by
  show (sub a b).val = _
  have ha := a.isLt
  have hb := b.isLt
  unfold sub
  split
  next h =>
    rw [Nat.mod_eq_sub_mod (by omega), Nat.mod_eq_of_lt (by omega)]
    show a.val - b.val = _
    omega
  next h =>
    rw [Nat.mod_eq_of_lt (by omega)]
    show a.val + m - b.val = _
    omega

variable [Modulus m]

def ofNat (m : Nat) [Modulus m] (n : Nat) : Residue m := ⟨n % m, Nat.mod_lt n Modulus.pos⟩

instance : Zero (Residue m) := ⟨ofNat m 0⟩
instance : One (Residue m) := ⟨ofNat m 1⟩
instance : Inhabited (Residue m) := ⟨0⟩
instance (n : Nat) : OfNat (Residue m) (n + 2) := ⟨ofNat m (n + 2)⟩
instance : Neg (Residue m) := ⟨fun a => 0 - a⟩
instance : Mul (Residue m) := ⟨fun a b => ofNat m (a.val * b.val)⟩

def pow (a : Residue m) (n : Nat) : Residue m :=
  doubling (· * ·) (fun b => b * b) a n (n.log2 + 1) 1

instance : Pow (Residue m) Nat := ⟨pow⟩

theorem val_ofNat (n : Nat) : (ofNat m n).val = n % m := rfl
theorem val_zero : (0 : Residue m).val = 0 := Nat.zero_mod m
theorem val_one : (1 : Residue m).val = 1 % m := rfl
theorem val_mul (a b : Residue m) : (a * b).val = (a.val * b.val) % m := rfl

theorem val_neg (a : Residue m) : (-a).val = (m - a.val) % m := by
  show (0 - a).val = _
  rw [val_sub, val_zero, Nat.zero_add]

@[simp] theorem ofNat_val (a : Residue m) : ofNat m a.val = a :=
  ext_val (Nat.mod_eq_of_lt a.isLt)

end Residue
end ThresholdCipher
