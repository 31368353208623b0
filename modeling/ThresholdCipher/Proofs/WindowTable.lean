import ThresholdCipher.Proofs.PairingLaws

/-
Multiples read from a table are multiples.

Row `w` of the table for a base holds the digits' multiples of `16 ^ w` times the
base (`getElem?_windows`), so by induction on the bytes of a scalar, each worth two
rows, the entries that its digits select add up to the scalar times the base
(`mul_build`).  Commitments therefore do not depend on the dealer's strategy
(`commit_eq`).
-/

namespace ThresholdCipher

theorem iterates_eq_iterate {α : Type} (step : α → α) (n : Nat) (a : α) :
    iterates step n a = List.iterate step a n := by
  induction n generalizing a with
  | zero => rfl
  | succ n ih => rw [iterates, List.iterate, ih]

theorem length_iterates {α : Type} (step : α → α) (n : Nat) (a : α) :
    (iterates step n a).length = n := by
  rw [iterates_eq_iterate, List.length_iterate]

theorem getElem?_iterates {α : Type} (step : α → α) (a : α) {n k : Nat} (h : k < n) :
    (iterates step n a)[k]? = some (step^[k] a) := by
  rw [iterates_eq_iterate, List.getElem?_iterate step a n k h]

namespace WindowTable

variable {G : Type} [CurveGroup G]

omit [CurveGroup G] in
/-- Passing over a row leaves the entry at the digit's place. -/
theorem foldl_select (entries : List G) (found : G) (k digit : Nat) :
    (entries.zipIdx k).foldl (fun found p => select found p.1 (p.2 = digit)) found =
      if k ≤ digit then entries.getD (digit - k) found else found := by
  induction entries generalizing found k with
  | nil => simp
  | cons entry entries ih =>
    rw [List.zipIdx_cons, List.foldl_cons, ih]
    by_cases hk : k = digit
    · subst hk
      simp [select]
    · by_cases hlt : k < digit
      · have hsub : digit - k = digit - (k + 1) + 1 := by omega
        rw [if_pos (by omega), if_pos (by omega), hsub, List.getD_cons_succ]
        simp [select, hk]
      · rw [if_neg (by omega), if_neg (by omega)]
        simp [select, hk]

theorem lookup_eq_getD (entries : List G) (digit : Nat) :
    lookup entries digit = entries.getD digit 0 := by
  rw [lookup, foldl_select, if_pos (Nat.zero_le _), Nat.sub_zero]

theorem getElem?_eq_lookup {entries : List G} {digit : Nat} (h : digit < entries.length) :
    entries[digit]? = some (lookup entries digit) := by
  rw [lookup_eq_getD, List.getD_eq_getElem _ _ h, List.getElem?_eq_getElem h]

@[simp] theorem length_row (p : G) : (row p).length = 16 := length_iterates _ 16 0

variable [LawfulCurveGroup G]

theorem timesSixteen_eq (p : G) : timesSixteen p = (16 : Scalar) • p := by
  show p + p + (p + p) + (p + p + (p + p)) +
    (p + p + (p + p) + (p + p + (p + p))) = (16 : Scalar) • p
  module

theorem getElem?_row (p : G) {k : Nat} (h : k < 16) :
    (row p)[k]? = some ((k : Scalar) • p) := by
  rw [row, getElem?_iterates _ _ h, add_right_iterate, Nat.cast_smul_eq_nsmul]
  exact congrArg some (zero_add _)

theorem lookup_row (p : G) {digit : Nat} (h : digit < 16) :
    lookup (row p) digit = (digit : Scalar) • p := by
  have hrow := getElem?_row p h
  rw [getElem?_eq_lookup (by rwa [length_row])] at hrow
  exact Option.some.inj hrow

theorem iterate_timesSixteen (p : G) (w : Nat) :
    timesSixteen^[w] p = ((16 ^ w : Nat) : Scalar) • p := by
  have hfun : timesSixteen = fun p : G => (16 : Scalar) • p := funext timesSixteen_eq
  rw [hfun, smul_iterate, Nat.cast_pow]
  rfl

/-- The row of the table for a window starts from that power of sixteen times the base. -/
theorem getElem?_windows (base : G) {w : Nat} (h : w < 64) :
    (build base).windows[w]? = some (row (((16 ^ w : Nat) : Scalar) • base)) := by
  rw [build, List.getElem?_map, getElem?_iterates _ _ h, iterate_timesSixteen]
  rfl

/-- Each byte selects from two rows. -/
theorem sum_lookup (bs : Bytes) (p : G) :
    (List.zipWith lookup ((iterates timesSixteen (2 * bs.length) p).map row)
      (bs.flatMap fun b => [b.toNat % 16, b.toNat / 16])).sum =
      (Bytes.ofLittleEndian bs : Scalar) • p := by
  induction bs generalizing p with
  | nil =>
    show (0 : G) = ((0 : Nat) : Scalar) • p
    rw [Nat.cast_zero, zero_smul]
  | cons b bs ih =>
    have hb : b.toNat < 256 := b.toNat_lt
    have hlow : b.toNat % 16 < 16 := Nat.mod_lt _ (by decide)
    have hhigh : b.toNat / 16 < 16 := by omega
    -- The low digit comes first: the rows start at `p`, the next byte's at `256 • p`.
    have hdigits : (b.toNat : Scalar) = ((b.toNat % 16 : Nat) : Scalar) +
        16 * ((b.toNat / 16 : Nat) : Scalar) := by
      conv_lhs => rw [← Nat.mod_add_div b.toNat 16]
      push_cast
      rfl
    rw [show 2 * (b :: bs).length = 2 * bs.length + 1 + 1 from rfl, iterates, iterates,
      List.map_cons, List.map_cons, List.flatMap_cons, List.cons_append, List.cons_append,
      List.nil_append, List.zipWith_cons_cons, List.zipWith_cons_cons, List.sum_cons,
      List.sum_cons, ih, lookup_row _ hlow, lookup_row _ hhigh, timesSixteen_eq, timesSixteen_eq,
      Bytes.ofLittleEndian, Nat.cast_add, hdigits]
    push_cast
    module

theorem mul_build (base : G) (s : Scalar) : (build base).mul s = s • base := by
  have hlen : s.littleEndian.length = 32 := Bytes.length_littleEndian 32 s.val
  have hval : Bytes.ofLittleEndian s.littleEndian = s.val := by
    rw [Scalar.littleEndian, Bytes.ofLittleEndian_littleEndian]
    exact Nat.mod_eq_of_lt (Nat.lt_trans s.isLt (by decide))
  have h := sum_lookup s.littleEndian base
  rw [hlen, hval, Scalar.natCast_val] at h
  rw [mul, sum_eq_sum]
  exact h

theorem lt_of_mem_digits {s : Scalar} {digit : Nat} (h : digit ∈ digits s) : digit < 16 := by
  obtain ⟨b, -, hb⟩ := List.mem_flatMap.mp h
  have hlt : b.toNat < 256 := b.toNat_lt
  rcases List.mem_pair.mp hb with rfl | rfl
  · exact Nat.mod_lt _ (by decide)
  · omega

/-- The table for a base has a row for each of 64 windows, holding the sixteen multiples of
that window; what the digits of a scalar look up is the entry at the digit, and the entries
add up to the multiple, for one scalar and for a list of them. -/
theorem new_exact (base : G) :
    (new base).value.windows.length = 64 ∧
      (∀ w < 64, ∃ entries, (new base).value.windows[w]? = some entries ∧ entries.length = 16 ∧
        (∀ k < 16, entries[k]? = some (((k * 16 ^ w : Nat) : Scalar) • base)) ∧
        ∀ s, ∀ digit ∈ digits s, entries[digit]? = some (lookup entries digit)) ∧
      (∀ s, (new base).value.mul s = s • base) ∧
      ∀ scalars, (new base).value.mulMany scalars = scalars.map (· • base) := by
  have hmul : ∀ s, (build base).mul s = s • base := mul_build base
  refine ⟨?_, fun w hw => ?_, hmul, fun scalars => List.map_congr_left fun s _ => hmul s⟩
  · show ((iterates timesSixteen 64 base).map row).length = 64
    rw [List.length_map, length_iterates]
  · refine ⟨_, getElem?_windows base hw, length_row _, fun k hk => ?_, fun s digit hdigit => ?_⟩
    · rw [getElem?_row _ hk, smul_smul, Nat.cast_mul]
    · exact getElem?_eq_lookup (by rw [length_row]; exact lt_of_mem_digits hdigit)

theorem new_exact_base_three :
    LawfulCurveGroup LogPoint ∧ (new (⟨3⟩ : LogPoint)).value.mul 40 = ⟨120⟩ ∧
      (new (⟨3⟩ : LogPoint)).value.mulMany [0, 5] = [⟨0⟩, ⟨15⟩] := by
  obtain ⟨-, -, hmul, hmany⟩ := new_exact (⟨3⟩ : LogPoint)
  refine ⟨inferInstance, (hmul 40).trans ?_, (hmany [0, 5]).trans ?_⟩
  · decide
  · decide

end WindowTable

namespace DealerStrategy

variable {G : Type} [CurveGroup G]

/-- The strategies a dealer can be given: with no table, or with that of the generator. -/
def Standard (strategy : DealerStrategy G) : Prop := strategy = simple ∨ strategy = tabled

/-- The commitment to one value. -/
def commit : DealerStrategy G → Scalar → G
  | simple, value => value • generator
  | precomputed table, value => table.mul value

/-- A batch is committed to value by value. -/
theorem commitMany_eq_map (strategy : DealerStrategy G) (values : List Scalar) :
    strategy.commitMany values = values.map strategy.commit := by
  cases strategy with
  | simple => rfl
  | precomputed table => rfl

theorem commit_eq [LawfulCurveGroup G] {strategy : DealerStrategy G} (h : strategy.Standard)
    (s : Scalar) : strategy.commit s = s • generator := by
  rcases h with rfl | rfl
  · rfl
  · exact WindowTable.mul_build generator s

end DealerStrategy
end ThresholdCipher
