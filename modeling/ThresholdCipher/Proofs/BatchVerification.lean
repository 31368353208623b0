import ThresholdCipher.Proofs.PreparedShares
import ThresholdCipher.Proofs.ShareChecks

/-
Batched verification against verification one by one.

In exponents, a fast share at its own point misses the right value by one scalar, its
discrepancy, and a batch passes exactly where the discrepancies, multiplied by the
weights, add up to zero.  If all shares pass, they do so under any weights.  If one does
not, the other weights leave exactly one weight for it with which the batch still passes,
and any weights can be drawn.
-/

namespace ThresholdCipher

/-! ## Sources of given scalars -/

namespace Entropy

/-- A source that gives these scalars in turn, from one of them on. -/
def ofScalars (scalars : List Scalar) (index : Nat) : Entropy where
  size := 4 * scalars.length
  word i := UInt64.ofNat ((scalars.getD (i / 4) 0).val / 2 ^ (64 * (i % 4)))
  position := 4 * index

theorem toNat_word_ofScalars (scalars : List Scalar) (index : Nat) {i : Nat} (hi : i < 4) :
    ((ofScalars scalars index).word (4 * index + i)).toNat =
      (scalars.getD index 0).val / 2 ^ (64 * i) % 2 ^ 64 := by
  have hdiv : (4 * index + i) / 4 = index := by omega
  have hmod : (4 * index + i) % 4 = i := by omega
  show (UInt64.ofNat ((scalars.getD ((4 * index + i) / 4) 0).val /
    2 ^ (64 * ((4 * index + i) % 4)))).toNat = _
  rw [hdiv, hmod, UInt64.toNat_ofNat']

/-- The four words of a scalar are its digits. -/
theorem candidate_ofScalars (scalars : List Scalar) (index : Nat) :
    (ofScalars scalars index).candidate = (scalars.getD index 0).val := by
  have hlt : (scalars.getD index 0).val < 2 ^ 255 :=
    (scalars.getD index 0).isLt.trans (by decide)
  have hword : ∀ i, i < 4 → ((ofScalars scalars index).word
      ((ofScalars scalars index).position + i)).toNat = _ :=
    fun i hi => toNat_word_ofScalars scalars index hi
  have hsize : UInt64.size = 18446744073709551616 := rfl
  rw [candidate]
  simp only [hword 0 (by decide), hword 1 (by decide), hword 2 (by decide), hword 3 (by decide)]
  generalize (scalars.getD index 0).val = n at hlt ⊢
  rw [hsize]
  norm_num at hlt ⊢
  omega

theorem scalar?_ofScalars {scalars : List Scalar} {index : Nat} (h : index < scalars.length) :
    (ofScalars scalars index).scalar? = some (scalars[index], ofScalars scalars (index + 1)) := by
  have hlast : (ofScalars scalars index).position + 4 ≤ (ofScalars scalars index).size := by
    show 4 * index + 4 ≤ 4 * scalars.length
    omega
  have hcandidate : (ofScalars scalars index).candidate = scalars[index].val := by
    rw [candidate_ofScalars, List.getD_eq_getElem _ _ h]
  rw [scalar?, scalarWithin, if_pos hlast]
  simp only [hcandidate, scalars[index].isLt, dite_true]
  rfl

theorem scalars?_ofScalars (scalars : List Scalar) {n index : Nat}
    (h : n + index = scalars.length) :
    scalars? n (ofScalars scalars index) =
      some (scalars.drop index, ofScalars scalars scalars.length) := by
  induction n generalizing index with
  | zero =>
    rw [Nat.zero_add] at h
    rw [scalars?, h, List.drop_length]
  | succ n ih =>
    have hindex : index < scalars.length := by omega
    rw [scalars?, scalar?_ofScalars hindex, List.drop_eq_getElem_cons hindex]
    show (scalars? n (ofScalars scalars (index + 1))).bind _ = _
    rw [ih (by omega)]
    rfl

/-- Any scalars are drawn from some source. -/
theorem exists_scalars? (scalars : List Scalar) :
    ∃ e rest, scalars? scalars.length e = some (scalars, rest) :=
  ⟨ofScalars scalars 0, _, scalars?_ofScalars scalars rfl⟩

end Entropy

/-! ## Discrepancies -/

/-- By how much a value's exponent misses that of the commitment times the header's, from the
pair of the commitment's and the value's. -/
def discrepancy (ρ : Scalar) (exponents : Scalar × Scalar) : Scalar := ρ * exponents.1 - exponents.2

def weightedDiscrepancy (ρ : Scalar) (weights : List Scalar)
    (exponents : List (Scalar × Scalar)) : Scalar :=
  (List.zipWith (fun a p => a * discrepancy ρ p) weights exponents).sum

theorem weightedDiscrepancy_cons (ρ a : Scalar) (weights : List Scalar) (p : Scalar × Scalar)
    (exponents : List (Scalar × Scalar)) :
    weightedDiscrepancy ρ (a :: weights) (p :: exponents) =
      a * discrepancy ρ p + weightedDiscrepancy ρ weights exponents := by
  rw [weightedDiscrepancy, List.zipWith_cons_cons, List.sum_cons]
  rfl

theorem weightedDiscrepancy_eq_zero {ρ : Scalar} {exponents : List (Scalar × Scalar)}
    (h : ∀ p ∈ exponents, discrepancy ρ p = 0) (weights : List Scalar) :
    weightedDiscrepancy ρ weights exponents = 0 := by
  induction exponents generalizing weights with
  | nil => rw [weightedDiscrepancy, List.zipWith_nil_right, List.sum_nil]
  | cons p exponents ih =>
    cases weights with
    | nil => rfl
    | cons a weights =>
      rw [weightedDiscrepancy_cons, h p List.mem_cons_self, mul_zero, zero_add,
        ih fun q hq => h q (List.mem_cons_of_mem p hq)]

/-- One weight counts on its own. -/
theorem weightedDiscrepancy_set (ρ a : Scalar) {weights : List Scalar}
    {exponents : List (Scalar × Scalar)} {j : Nat} (hj : j < exponents.length)
    (hlen : weights.length = exponents.length) :
    weightedDiscrepancy ρ (weights.set j a) exponents =
      a * discrepancy ρ exponents[j] + weightedDiscrepancy ρ (weights.set j 0) exponents := by
  induction exponents generalizing weights j with
  | nil => cases hj
  | cons p exponents ih =>
    cases weights with
    | nil => cases hlen
    | cons w weights =>
      cases j with
      | zero =>
        rw [List.set_cons_zero, List.set_cons_zero, weightedDiscrepancy_cons,
          weightedDiscrepancy_cons, zero_mul, zero_add]
        rfl
      | succ j =>
        rw [List.set_cons_succ, List.set_cons_succ, weightedDiscrepancy_cons,
          weightedDiscrepancy_cons, ih (Nat.lt_of_succ_lt_succ hj) (Nat.succ.inj hlen),
          List.getElem_cons_succ]
        ring

/-- A discrepancy is cancelled by exactly one weight of its own. -/
theorem existsUnique_weight {ρ : Scalar} {weights : List Scalar}
    {exponents : List (Scalar × Scalar)} {j : Nat} (hj : j < exponents.length)
    (hlen : weights.length = exponents.length) (hmisses : discrepancy ρ exponents[j] ≠ 0) :
    ∃! a, weightedDiscrepancy ρ (weights.set j a) exponents = 0 := by
  refine ⟨-weightedDiscrepancy ρ (weights.set j 0) exponents / discrepancy ρ exponents[j], ?_, ?_⟩
  · show weightedDiscrepancy ρ _ exponents = 0
    rw [weightedDiscrepancy_set ρ _ hj hlen, div_mul_cancel₀ _ hmisses, neg_add_cancel]
  · intro a ha
    rw [weightedDiscrepancy_set ρ _ hj hlen] at ha
    rw [eq_div_iff hmisses]
    exact eq_neg_of_add_eq_zero_left ha

/-! ## Shares at their own points -/

variable {G1 G2 T : Type} [CurveGroup G1] [CurveGroup G2] [TargetGroup T] [Pairing G1 G2 T]
  {ciphertext : Ciphertext G1 G2} {vector : VerificationVector G1}

/-- A share at its own point with the exponent of its commitment and that of its value. -/
structure FastShare.HasExponents (vector : VerificationVector G1) (share : FastShare G2)
    (exponents : Scalar × Scalar) : Prop where
  commitment : (vector.commitmentAt share.participant share.domainPoint).value =
    some (exponents.1 • generator)
  value : share.value = exponents.2 • generator

namespace ShareVerification

variable {shares : List (FastShare G2)}

theorem commitments_of_known {exponents : List (Scalar × Scalar)}
    (h : List.Forall₂ (FastShare.HasExponents vector) shares exponents) :
    (commitments vector shares).value = some (exponents.map fun p => p.1 • generator) := by
  induction h with
  | nil => rfl
  | cons hshare _ ih =>
    rw [commitments, Journaled.value_bind, hshare.commitment, Journaled.value_bind, ih]
    rfl

omit [CurveGroup G1] [CurveGroup G2] in
theorem commitments_of_unknown
    (h : ∃ share ∈ shares, (vector.commitmentAt share.participant share.domainPoint).value = none) :
    (commitments vector shares).value = none := by
  induction shares with
  | nil => simp at h
  | cons share shares ih =>
    rw [commitments, Journaled.value_bind]
    cases hlookup : (vector.commitmentAt share.participant share.domainPoint).value with
    | none => rfl
    | some c =>
      rw [Journaled.value_bind, ih]
      · rfl
      · obtain ⟨unknown, hmem, hunknown⟩ := h
        rcases List.mem_cons.mp hmem with rfl | hmem
        · rw [hlookup] at hunknown
          cases hunknown
        · exact ⟨unknown, hmem, hunknown⟩

theorem batch_of_unknown
    (h : ∃ share ∈ shares, (vector.commitmentAt share.participant share.domainPoint).value = none)
    (e : Entropy) : (batch shares ciphertext vector e).result = .ok (false, e) := by
  have hne : ¬shares.isEmpty := by
    rw [List.isEmpty_iff]
    rintro rfl
    simp at h
  rw [batch, if_neg hne, Attempt.result_liftM_bind, commitments_of_unknown h]
  rfl

/-! ## The batch as one equation -/

theorem exponent_weighted {G : Type} [CurveGroup G] [LawfulCurveGroup G]
    (weights exponents : List Scalar) :
    exponent (List.zipWith (fun p w => w • p)
      (exponents.map fun s => s • (generator : G)) weights).sum =
      (List.zipWith (fun a s => a * s) weights exponents).sum := by
  induction exponents generalizing weights with
  | nil => simp
  | cons s exponents ih =>
    cases weights with
    | nil => exact exponent_zero
    | cons a weights =>
      rw [List.map_cons, List.zipWith_cons_cons, List.sum_cons, exponent_add, ih, exponent_smul,
        exponent_smul, exponent_generator, mul_one, List.zipWith_cons_cons, List.sum_cons]

theorem weightedDiscrepancy_eq_sub (ρ : Scalar) (weights : List Scalar)
    (exponents : List (Scalar × Scalar)) :
    weightedDiscrepancy ρ weights exponents =
      ρ * (List.zipWith (fun a s => a * s) weights (exponents.map (·.1))).sum -
        (List.zipWith (fun a d => a * d) weights (exponents.map (·.2))).sum := by
  induction exponents generalizing weights with
  | nil => simp [weightedDiscrepancy]
  | cons p exponents ih =>
    cases weights with
    | nil => simp [weightedDiscrepancy]
    | cons a weights =>
      rw [weightedDiscrepancy_cons, ih, discrepancy]
      simp only [List.map_cons, List.zipWith_cons_cons, List.sum_cons]
      ring

theorem values_of_known {exponents : List (Scalar × Scalar)}
    (h : List.Forall₂ (FastShare.HasExponents vector) shares exponents) :
    shares.map (·.value) = exponents.map fun p => p.2 • generator := by
  induction h with
  | nil => rfl
  | cons hshare _ ih => rw [List.map_cons, List.map_cons, hshare.value, ih]

variable [LawfulCurveGroup G1] [LawfulCurveGroup G2] [LawfulTargetGroup T] [LawfulPairing G1 G2 T]
  {exponents : List (Scalar × Scalar)} {ρ : Scalar} {e rest : Entropy} {weights : List Scalar}

/-- The weighted sums are the same multiple exactly where the discrepancies cancel. -/
theorem sameMultiple_weighted (hv : ciphertext.header.v = ρ • generator) :
    sameMultiple (List.zipWith (fun p w => w • p)
        (exponents.map fun p => p.1 • (generator : G1)) weights).sum ciphertext.header.v
      (List.zipWith (fun p w => w • p)
        (exponents.map fun p => p.2 • (generator : G2)) weights).sum =
      decide (weightedDiscrepancy ρ weights exponents = 0) := by
  have hcommitment := exponent_weighted (G := G1) weights (exponents.map (·.1))
  have hvalue := exponent_weighted (G := G2) weights (exponents.map (·.2))
  rw [List.map_map] at hcommitment hvalue
  rw [Bool.eq_iff_iff, decide_eq_true_iff, sameMultiple_iff, hv, ← mul_smul, ← exponent_eq_iff,
    weightedDiscrepancy_eq_sub, sub_eq_zero, ← hcommitment, ← hvalue, eq_comm, mul_comm]
  rfl

/-- A batch of shares at their own points passes exactly where the discrepancies cancel under
the weights that are drawn. -/
theorem batch_of_known (hv : ciphertext.header.v = ρ • generator)
    (h : List.Forall₂ (FastShare.HasExponents vector) shares exponents)
    (hdraw : e.scalars? shares.length = some (weights, rest)) :
    (batch shares ciphertext vector e).result =
      .ok (decide (weightedDiscrepancy ρ weights exponents = 0), rest) := by
  cases shares with
  | nil =>
    cases h
    cases hdraw
    rfl
  | cons share shares =>
    have hlen : exponents.length = weights.length :=
      h.length_eq.symm.trans (SharingPolynomial.length_of_scalars hdraw).symm
    have hne : exponents ≠ [] := by
      rintro rfl
      cases h
    have hcommitments : weightedSum (exponents.map fun p => p.1 • (generator : G1)) weights =
        .ok _ := weightedSum_eq_ok.mpr ⟨by rwa [List.length_map], by simpa using hne, rfl⟩
    have hvalues : weightedSum (exponents.map fun p => p.2 • (generator : G2)) weights =
        .ok _ := weightedSum_eq_ok.mpr ⟨by rwa [List.length_map], by simpa using hne, rfl⟩
    rw [batch, if_neg (by simp), Attempt.result_liftM_bind, commitments_of_known h, hdraw,
      values_of_known h, ← sameMultiple_weighted hv]
    simp only [Attempt.result_bind_of_ok (Attempt.result_drawn_some _), Attempt.result_bind,
      hcommitments, hvalues, Attempt.result_ofExcept, Attempt.result_pure]
    rfl

/-! ## Agreement -/

theorem verify_of_hasExponents (hv : ciphertext.header.v = ρ • generator) {share : FastShare G2}
    {p : Scalar × Scalar} (h : share.HasExponents vector p) :
    (share.verify ciphertext vector).value = decide (discrepancy ρ p = 0) := by
  rw [FastShare.verify_of_known h.commitment, Bool.eq_iff_iff, decide_eq_true_iff,
    sameMultiple_iff, h.value, hv, ← mul_smul, discrepancy, sub_eq_zero, exponent_smul,
    exponent_generator, mul_one, smul_generator_injective.eq_iff, eq_comm, mul_comm]

theorem all_verify_iff (hv : ciphertext.header.v = ρ • generator)
    (h : List.Forall₂ (FastShare.HasExponents vector) shares exponents) :
    (∀ share ∈ shares, (share.verify ciphertext vector).value = true) ↔
      ∀ p ∈ exponents, discrepancy ρ p = 0 := by
  induction h with
  | nil => simp
  | cons hshare _ ih =>
    rw [List.forall_mem_cons, List.forall_mem_cons, ih, verify_of_hasExponents hv hshare,
      decide_eq_true_iff]

/-- A share is at its own point, with exponents, or it is not. -/
theorem exists_exponents_or_unknown (vector : VerificationVector G1)
    (shares : List (FastShare G2)) :
    (∃ exponents, List.Forall₂ (FastShare.HasExponents vector) shares exponents) ∨
      ∃ share ∈ shares, (vector.commitmentAt share.participant share.domainPoint).value = none := by
  induction shares with
  | nil => exact .inl ⟨[], .nil⟩
  | cons share shares ih =>
    cases hlookup : (vector.commitmentAt share.participant share.domainPoint).value with
    | none => exact .inr ⟨share, List.mem_cons_self, hlookup⟩
    | some c =>
      refine ih.imp (fun hknown => ?_) fun hunknown => ?_
      · obtain ⟨exponents, hknown⟩ := hknown
        refine ⟨(exponent c, exponent share.value) :: exponents, .cons ⟨?_, ?_⟩ hknown⟩
        · rw [hlookup, exponent_smul_generator]
        · rw [exponent_smul_generator]
      · obtain ⟨unknown, hmem, hunknown⟩ := hunknown
        exact ⟨unknown, List.mem_cons_of_mem share hmem, hunknown⟩

theorem discrepancy_ne_zero_of_fails (hv : ciphertext.header.v = ρ • generator)
    (h : List.Forall₂ (FastShare.HasExponents vector) shares exponents) {j : Nat}
    (hj : j < shares.length) (hfails : (shares[j].verify ciphertext vector).value = false) :
    ∃ hj' : j < exponents.length, discrepancy ρ exponents[j] ≠ 0 := by
  have hj' : j < exponents.length := h.length_eq ▸ hj
  have hshare : shares[j].HasExponents vector exponents[j] :=
    (List.forall₂_iff_get.mp h).2 j hj hj'
  rw [verify_of_hasExponents hv hshare, decide_eq_false_iff_not] at hfails
  exact ⟨hj', hfails⟩

/-- With a share that fails, one weight for it lets the batch pass, whatever the others are. -/
theorem existsUnique_passing_weight (hv : ciphertext.header.v = ρ • generator)
    (h : List.Forall₂ (FastShare.HasExponents vector) shares exponents) {j : Nat}
    (hj : j < shares.length) (hfails : (shares[j].verify ciphertext vector).value = false)
    (hweights : weights.length = shares.length) :
    ∃! a, ∃ e rest, e.scalars? shares.length = some (weights.set j a, rest) ∧
      (batch shares ciphertext vector e).result = .ok (true, rest) := by
  obtain ⟨hj', hmisses⟩ := discrepancy_ne_zero_of_fails hv h hj hfails
  obtain ⟨a, hcancels, hunique⟩ :=
    existsUnique_weight hj' (hweights.trans h.length_eq) hmisses
  refine ⟨a, ?_, ?_⟩
  · obtain ⟨e, rest, hdraw⟩ := Entropy.exists_scalars? (weights.set j a)
    rw [List.length_set, hweights] at hdraw
    refine ⟨e, rest, hdraw, ?_⟩
    rw [batch_of_known hv h hdraw, decide_eq_true hcancels]
  · intro b hb
    obtain ⟨e, rest, hdraw, hpasses⟩ := hb
    rw [batch_of_known hv h hdraw, Except.ok.injEq, Prod.mk.injEq, decide_eq_true_iff] at hpasses
    exact hunique b hpasses.1

theorem run_fastBatch_eq_run_fast_iff (hv : ciphertext.header.v = ρ • generator)
    (h : List.Forall₂ (FastShare.HasExponents vector) shares exponents)
    (hdraw : e.scalars? shares.length = some (weights, rest)) :
    (run .fastBatch (shares.map .fast) ciphertext vector e).result.map (·.1) =
        (run .fast (shares.map .fast) ciphertext vector e).result.map (·.1) ↔
      ¬((∃ share ∈ shares, (share.verify ciphertext vector).value = false) ∧
        weightedDiscrepancy ρ weights exponents = 0) := by
  have hsome : (∃ share ∈ shares, (share.verify ciphertext vector).value = false) ↔
      ¬∀ share ∈ shares, (share.verify ciphertext vector).value = true := by
    simp
  rw [run_fastBatch_of_batch (batch_of_known hv h hdraw), run_fast, ← ofFlags_map, hsome]
  show Except.ok _ = Except.ok _ ↔ _
  rw [Except.ok.injEq]
  by_cases hzero : weightedDiscrepancy ρ weights exponents = 0
  · rw [decide_eq_true hzero, if_pos rfl, ofFlags_accept_all_eq_iff]
    simp [hzero]
  · simp [hzero]

/-- A batch of shares at their own points passes exactly where the discrepancies cancel under
the weights drawn, so always if each share passes, and for one weight of its own if one does not.
With a share that is not at its own point it fails.  The outcome for the list is that of single
checks unless a batch passes in which a share does not. -/
theorem batch_agreement (hv : ciphertext.header.v = ρ • generator)
    (shares : List (FastShare G2)) :
    (∀ exponents, List.Forall₂ (FastShare.HasExponents vector) shares exponents →
      (∀ e weights rest, e.scalars? shares.length = some (weights, rest) →
        (batch shares ciphertext vector e).result =
          .ok (decide (weightedDiscrepancy ρ weights exponents = 0), rest) ∧
        ((∀ share ∈ shares, (share.verify ciphertext vector).value = true) →
          (batch shares ciphertext vector e).result = .ok (true, rest)) ∧
        ((run .fastBatch (shares.map .fast) ciphertext vector e).result.map (·.1) =
            (run .fast (shares.map .fast) ciphertext vector e).result.map (·.1) ↔
          ¬((∃ share ∈ shares, (share.verify ciphertext vector).value = false) ∧
            weightedDiscrepancy ρ weights exponents = 0))) ∧
      ∀ weights : List Scalar, weights.length = shares.length → ∀ j, ∀ hj : j < shares.length,
        (shares[j].verify ciphertext vector).value = false →
          ∃! a, ∃ e rest, e.scalars? shares.length = some (weights.set j a, rest) ∧
            (batch shares ciphertext vector e).result = .ok (true, rest)) ∧
    ((∃ share ∈ shares,
        (vector.commitmentAt share.participant share.domainPoint).value = none) → ∀ e,
      (batch shares ciphertext vector e).result = .ok (false, e) ∧
      (run .fastBatch (shares.map .fast) ciphertext vector e).result =
        (run .fast (shares.map .fast) ciphertext vector e).result) ∧
    ((∃ exponents, List.Forall₂ (FastShare.HasExponents vector) shares exponents) ∨
      ∃ share ∈ shares,
        (vector.commitmentAt share.participant share.domainPoint).value = none) := by
  refine ⟨fun exponents h => ⟨fun e weights rest hdraw => ⟨batch_of_known hv h hdraw, ?_, ?_⟩,
    fun weights hweights j hj hfails => existsUnique_passing_weight hv h hj hfails hweights⟩, ?_,
    exists_exponents_or_unknown vector shares⟩
  · intro hpass
    have hcancels := weightedDiscrepancy_eq_zero ((all_verify_iff hv h).mp hpass) weights
    rw [batch_of_known hv h hdraw, decide_eq_true hcancels]
  · exact run_fastBatch_eq_run_fast_iff hv h hdraw
  · intro hunknown e
    have hbatch : (batch shares ciphertext vector e).result = .ok (false, e) :=
      batch_of_unknown hunknown e
    refine ⟨hbatch, ?_⟩
    rw [run_fastBatch_of_batch hbatch, if_neg Bool.false_ne_true, ofFlags_map, run_fast]

/-- A right share and one that is off by one, with weights under which the batch fails. -/
theorem batch_agreement_off_by_one :
    (∃ rest, (batch [⟨0, 1, ⟨56⟩⟩, ⟨1, 2, ⟨76⟩⟩] LogPoint.sevenfold LogPoint.dealing.vector
      (.ofList [3, 0, 0, 0, 4, 0, 0, 0])).result = .ok (false, rest)) ∧
    ∃! a : Scalar, ∃ e rest, Entropy.scalars? 2 e = some ([3, a], rest) ∧
      (batch [⟨0, 1, ⟨56⟩⟩, ⟨1, 2, ⟨76⟩⟩] LogPoint.sevenfold LogPoint.dealing.vector e).result =
        .ok (true, rest) := by
  have hv : LogPoint.sevenfold.header.v = (7 : Scalar) • generator := by decide
  have hknown : List.Forall₂ (FastShare.HasExponents LogPoint.dealing.vector)
      [(⟨0, 1, ⟨56⟩⟩ : FastShare LogPoint), ⟨1, 2, ⟨76⟩⟩] [(8, 56), (11, 76)] :=
    .cons ⟨by decide, by decide⟩ (.cons ⟨by decide, by decide⟩ .nil)
  have hdraw : ∃ rest, Entropy.scalars? 2 (.ofList [3, 0, 0, 0, 4, 0, 0, 0]) =
    some ([3, 4], rest) := ⟨_, rfl⟩
  obtain ⟨rest, hdraw⟩ := hdraw
  obtain ⟨hdrawn, hweights⟩ := (batch_agreement hv _).1 _ hknown
  exact ⟨⟨rest, (hdrawn _ _ _ hdraw).1⟩, hweights [3, 4] rfl 1 (by decide) (by decide)⟩

end ShareVerification

end ThresholdCipher
