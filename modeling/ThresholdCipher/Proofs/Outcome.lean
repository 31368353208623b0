import ThresholdCipher.Proofs.ScalarField

/-
Outcomes of operations that may fail.

A sequence succeeds exactly where each of its steps does.  `bind_eq_ok` says so for
two steps, `mapM_eq_ok` and `forM_eq_ok` for one step at each element of a list, and
the `Attempt` forms say it of the outcome without the journal.  Proofs about an
operation take it apart with these and never look at its records.
-/

namespace ThresholdCipher
namespace Outcome

variable {ε α β : Type}

theorem bind_eq_ok {x : Except ε α} {f : α → Except ε β} {b : β} :
    x >>= f = .ok b ↔ ∃ a, x = .ok a ∧ f a = .ok b := by
  cases x with
  | error e => exact ⟨fun h => (nomatch h), fun ⟨_, h, _⟩ => (nomatch h)⟩
  | ok a => exact ⟨fun h => ⟨a, rfl, h⟩, fun ⟨_, h, hb⟩ => by cases h; exact hb⟩

theorem mapError_eq_ok {ε' : Type} {x : Except ε α} {f : ε → ε'} {a : α} :
    x.mapError f = .ok a ↔ x = .ok a := by
  cases x with
  | error e => exact ⟨fun h => (nomatch h), fun h => (nomatch h)⟩
  | ok b => exact ⟨fun h => by cases h; rfl, fun h => by cases h; rfl⟩

theorem map_eq_ok {x : Except ε α} {f : α → β} {b : β} :
    x.map f = .ok b ↔ ∃ a, x = .ok a ∧ f a = b := by
  cases x with
  | error e => exact ⟨fun h => (nomatch h), fun ⟨_, h, _⟩ => (nomatch h)⟩
  | ok a => exact ⟨fun h => ⟨a, rfl, Except.ok.inj h⟩, fun ⟨_, h, hb⟩ => by cases h; rw [← hb]; rfl⟩

theorem exists_eq_ok {x : Except ε α} (h : x.toOption.isSome) : ∃ a, x = .ok a := by
  cases x with
  | error e => cases h
  | ok a => exact ⟨a, rfl⟩

/-- A traversal succeeds with the list of what its steps give. -/
theorem mapM_eq_ok {f : α → Except ε β} {xs : List α} {ys : List β} :
    xs.mapM f = .ok ys ↔ List.Forall₂ (fun x y => f x = .ok y) xs ys := by
  induction xs generalizing ys with
  | nil =>
    rw [List.mapM_nil, List.forall₂_nil_left_iff]
    exact ⟨fun h => by cases h; rfl, fun h => by rw [h]; rfl⟩
  | cons x xs ih =>
    rw [List.mapM_cons, bind_eq_ok, List.forall₂_cons_left_iff]
    constructor
    · rintro ⟨y, hy, h⟩
      obtain ⟨zs, hzs, h⟩ := bind_eq_ok.mp h
      cases h
      exact ⟨y, zs, hy, ih.mp hzs, rfl⟩
    · rintro ⟨y, zs, hy, hzs, rfl⟩
      exact ⟨y, hy, bind_eq_ok.mpr ⟨zs, ih.mpr hzs, rfl⟩⟩

/-- A traversal whose steps are known gives the list of their values. -/
theorem mapM_eq_ok_map {f : α → Except ε β} {g : α → β} {xs : List α}
    (h : ∀ x ∈ xs, f x = .ok (g x)) : xs.mapM f = .ok (xs.map g) := by
  rw [mapM_eq_ok, List.forall₂_map_right_iff, List.forall₂_same]
  exact h

theorem exists_mapM_eq_ok {f : α → Except ε β} {xs : List α} (h : ∀ x ∈ xs, ∃ y, f x = .ok y) :
    ∃ ys, xs.mapM f = .ok ys := by
  induction xs with
  | nil => exact ⟨[], rfl⟩
  | cons x xs ih =>
    obtain ⟨y, hy⟩ := h x List.mem_cons_self
    obtain ⟨ys, hys⟩ := ih fun z hz => h z (List.mem_cons_of_mem x hz)
    exact ⟨y :: ys, mapM_eq_ok.mpr (.cons hy (mapM_eq_ok.mp hys))⟩

/-- A traversal whose steps fail in one way only fails in that way. -/
theorem mapM_eq_error {f : α → Except ε β} {xs : List α} {failure : ε}
    (hsteps : ∀ x ∈ xs, f x = .error failure ∨ ∃ y, f x = .ok y)
    (h : ∃ x ∈ xs, f x = .error failure) : xs.mapM f = .error failure := by
  induction xs with
  | nil => simp at h
  | cons x xs ih =>
    rw [List.mapM_cons]
    rcases hsteps x List.mem_cons_self with hx | ⟨y, hy⟩
    · rw [hx]
      rfl
    · obtain ⟨z, hz, hfails⟩ := h
      have hmem : z ∈ xs := by
        refine (List.mem_cons.mp hz).resolve_left ?_
        rintro rfl
        rw [hy] at hfails
        cases hfails
      rw [hy, ih (fun z hz => hsteps z (List.mem_cons_of_mem x hz)) ⟨z, hmem, hfails⟩]
      rfl

/-- What every step carries over, the whole traversal carries over. -/
theorem map_eq_of_mapM {γ : Type} {f : α → Except ε β} {g : β → γ} {k : α → γ} {xs : List α}
    {ys : List β} (h : xs.mapM f = .ok ys) (hstep : ∀ x ∈ xs, ∀ y ∈ ys, f x = .ok y → g y = k x) :
    ys.map g = xs.map k := by
  induction xs generalizing ys with
  | nil =>
    cases h
    rfl
  | cons x xs ih =>
    obtain ⟨y, zs, hy, hzs, rfl⟩ := List.forall₂_cons_left_iff.mp (mapM_eq_ok.mp h)
    rw [List.map_cons, List.map_cons, hstep x List.mem_cons_self y List.mem_cons_self hy,
      ih (mapM_eq_ok.mpr hzs) fun z hz w hw =>
        hstep z (List.mem_cons_of_mem x hz) w (List.mem_cons_of_mem y hw)]

theorem length_of_mapM {f : α → Except ε β} {xs : List α} {ys : List β}
    (h : xs.mapM f = .ok ys) : ys.length = xs.length := (mapM_eq_ok.mp h).length_eq.symm

theorem mem_of_mapM {f : α → Except ε β} {xs : List α} {ys : List β} (h : xs.mapM f = .ok ys)
    {y : β} (hy : y ∈ ys) : ∃ x ∈ xs, f x = .ok y := by
  induction xs generalizing ys with
  | nil =>
    cases h
    cases hy
  | cons x xs ih =>
    obtain ⟨z, zs, hz, hzs, rfl⟩ := List.forall₂_cons_left_iff.mp (mapM_eq_ok.mp h)
    rcases List.mem_cons.mp hy with rfl | hy
    · exact ⟨x, List.mem_cons_self, hz⟩
    · obtain ⟨x', hx', hfx'⟩ := ih (mapM_eq_ok.mpr hzs) hy
      exact ⟨x', List.mem_cons_of_mem x hx', hfx'⟩

theorem exists_of_mapM {f : α → Except ε β} {xs : List α} {ys : List β} (h : xs.mapM f = .ok ys)
    {x : α} (hx : x ∈ xs) : ∃ y ∈ ys, f x = .ok y := by
  induction xs generalizing ys with
  | nil => cases hx
  | cons z xs ih =>
    obtain ⟨y, zs, hy, hzs, rfl⟩ := List.forall₂_cons_left_iff.mp (mapM_eq_ok.mp h)
    rcases List.mem_cons.mp hx with rfl | hx
    · exact ⟨y, List.mem_cons_self, hy⟩
    · obtain ⟨y', hy', hfy'⟩ := ih (mapM_eq_ok.mpr hzs) hx
      exact ⟨y', List.mem_cons_of_mem y hy', hfy'⟩

/-- A traversal whose steps have known values succeeds where the condition of every step holds. -/
theorem mapM_eq_ok_map_iff {f : α → Except ε β} {C : α → Prop} {g : α → β}
    (hstep : ∀ x y, f x = .ok y ↔ C x ∧ g x = y) {xs : List α} {ys : List β} :
    xs.mapM f = .ok ys ↔ (∀ x ∈ xs, C x) ∧ xs.map g = ys := by
  constructor
  · intro h
    constructor
    · intro x hx
      obtain ⟨y, -, hy⟩ := exists_of_mapM h hx
      exact ((hstep x y).mp hy).1
    · have hmap : ys.map id = xs.map g :=
        map_eq_of_mapM h fun x _ y _ hy => ((hstep x y).mp hy).2.symm
      rw [← hmap, List.map_id]
  · intro h
    obtain ⟨hall, rfl⟩ := h
    exact mapM_eq_ok_map fun x hx => (hstep x (g x)).mpr ⟨hall x hx, rfl⟩

theorem forM_eq_ok {f : α → Except ε Unit} {xs : List α} :
    xs.forM f = .ok () ↔ ∀ x ∈ xs, f x = .ok () := by
  induction xs with
  | nil => exact ⟨fun _ _ hx => (nomatch hx), fun _ => rfl⟩
  | cons x xs ih =>
    rw [List.forall_mem_cons, ← ih]
    show (f x >>= fun _ => xs.forM f) = .ok () ↔ _
    rw [bind_eq_ok]
    exact ⟨fun ⟨_, hx, hxs⟩ => ⟨hx, hxs⟩, fun ⟨hx, hxs⟩ => ⟨(), hx, hxs⟩⟩

end Outcome

namespace Attempt

variable {α β : Type}

theorem result_bind_eq_ok {x : Attempt α} {f : α → Attempt β} {b : β} :
    (x >>= f).result = .ok b ↔ ∃ a, x.result = .ok a ∧ (f a).result = .ok b := by
  rw [result_bind, Outcome.bind_eq_ok]

/-- What is only recorded changes no outcome. -/
@[simp] theorem result_liftM_bind (x : Journaled α) (f : α → Attempt β) :
    ((liftM x : Attempt α) >>= f).result = (f x.value).result := by
  rw [result_bind, result_liftM]
  rfl

theorem result_bind_of_ok {x : Attempt α} {f : α → Attempt β} {a : α} (h : x.result = .ok a) :
    (x >>= f).result = (f a).result := by
  rw [result_bind, h]
  rfl

theorem result_orRefuse_eq_ok {x : Except Error α} {a : α} :
    (orRefuse x).result = .ok a ↔ x = .ok a := by
  rw [result_orRefuse, Outcome.mapError_eq_ok]

/-- A step that only checks. -/
theorem result_check_bind_eq_ok {x : Attempt Unit} {f : Unit → Attempt β} {b : β} :
    (x >>= f).result = .ok b ↔ x.result = .ok () ∧ (f ()).result = .ok b := by
  rw [result_bind_eq_ok]
  exact ⟨fun ⟨_, hx, hb⟩ => ⟨hx, hb⟩, fun ⟨hx, hb⟩ => ⟨(), hx, hb⟩⟩

theorem result_drawn_eq_ok {x : Option α} {a : α} :
    (drawn x).result = .ok a ↔ x = some a := by
  cases x with
  | none => exact ⟨fun h => (nomatch h), fun h => (nomatch h)⟩
  | some b => exact ⟨fun h => by cases h; rfl, fun h => by cases h; rfl⟩

theorem result_ite {c : Prop} [Decidable c] (x y : Attempt α) :
    (if c then x else y).result = if c then x.result else y.result := apply_ite result c x y

theorem result_mapM (f : α → Attempt β) (xs : List α) :
    (xs.mapM f).result = xs.mapM fun x => (f x).result := by
  induction xs with
  | nil => rfl
  | cons x xs ih => simp only [List.mapM_cons, result_bind, ih, result_pure]; rfl

theorem result_forM (f : α → Attempt Unit) (xs : List α) :
    (xs.forM f).result = xs.forM fun x => (f x).result := by
  induction xs with
  | nil => rfl
  | cons x xs ih =>
    show (f x >>= fun _ => xs.forM f).result = (f x).result >>= fun _ => _
    rw [result_bind, ih]

end Attempt
end ThresholdCipher
