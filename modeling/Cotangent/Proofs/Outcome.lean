import Mathlib.Data.List.Forall2
import Mathlib.Tactic.Common
/-!
What a sequence of steps comes to. A computation that may fail succeeds if its steps do, and one that
threads a state hands the state from step to step.
-/
namespace Cotangent

variable {ε σ α β : Type}

@[simp] theorem except_pure_ok (a b : α) : (pure a : Except ε α) = .ok b ↔ a = b := by
  constructor
  · exact fun same => Except.ok.inj same
  · exact fun same => same ▸ rfl

@[simp] theorem except_bind_ok (x : Except ε α) (f : α → Except ε β) (b : β) :
    (x >>= f) = .ok b ↔ ∃ a, x = .ok a ∧ f a = .ok b := by
  cases x with
  | error e => simp [bind, Except.bind]
  | ok a => simp [bind, Except.bind]

/-- A sequence fails where its first step does, or where the rest does. -/
theorem except_bind_error {x : Except ε α} {f : α → Except ε β} {e : ε} :
    (x >>= f) = .error e ↔ x = .error e ∨ ∃ a, x = .ok a ∧ f a = .error e := by
  cases x <;> simp [bind, Except.bind]

@[simp] theorem except_map_ok (g : α → β) (x : Except ε α) (b : β) :
    x.map g = .ok b ↔ ∃ a, x = .ok a ∧ g a = b := by
  cases x <;> simp [Except.map]

/-- Of a step without a result only its success matters. -/
@[simp] theorem exists_unit (p : Unit → Prop) : (∃ u, p u) ↔ p () := by
  constructor
  · exact fun ⟨_, holds⟩ => holds
  · exact fun holds => ⟨(), holds⟩

theorem except_forM_ok (f : α → Except ε Unit) (xs : List α) :
    xs.forM f = .ok () ↔ ∀ x ∈ xs, f x = .ok () := by
  induction xs with
  | nil => simp
  | cons x xs ih =>
    simp only [List.forM_eq_forM] at ih
    simp only [List.forM_eq_forM, List.forM_cons, except_bind_ok, exists_unit, ih,
      List.forall_mem_cons]

/-- A walk succeeds if each of its steps does. -/
theorem except_mapM_iff {f : α → Except ε β} {xs : List α} {ys : List β} :
    xs.mapM f = .ok ys ↔ List.Forall₂ (fun x y => f x = .ok y) xs ys := by
  induction xs generalizing ys with
  | nil => rw [List.mapM_nil, List.forall₂_nil_left_iff, except_pure_ok, eq_comm]
  | cons x xs ih =>
    simp only [List.mapM_cons, except_bind_ok, except_pure_ok, ih, List.forall₂_cons_left_iff]
    constructor
    · rintro ⟨y, first, ys, rest, rfl⟩
      exact ⟨y, ys, first, rest, rfl⟩
    · rintro ⟨y, ys, first, rest, rfl⟩
      exact ⟨y, first, ys, rest, rfl⟩

/-- The same for steps that may find nothing. -/
theorem option_mapM_iff {f : α → Option β} {xs : List α} {ys : List β} :
    xs.mapM f = some ys ↔ List.Forall₂ (fun x y => f x = some y) xs ys := by
  induction xs generalizing ys with
  | nil => rw [List.mapM_nil, List.forall₂_nil_left_iff, Option.pure_def, Option.some.injEq, eq_comm]
  | cons x xs ih =>
    simp only [List.mapM_cons, Option.bind_eq_bind, Option.bind_eq_some_iff, Option.pure_def, ih,
      List.forall₂_cons_left_iff, Option.some.injEq]
    constructor
    · rintro ⟨y, first, ys, rest, rfl⟩
      exact ⟨y, ys, first, rest, rfl⟩
    · rintro ⟨y, ys, first, rest, rfl⟩
      exact ⟨y, first, ys, rest, rfl⟩

/-- Each result of a walk is that of one of its steps. -/
theorem except_mapM_mem {f : α → Except ε β} {xs : List α} {ys : List β}
    (known : xs.mapM f = .ok ys) : ∀ y ∈ ys, ∃ x ∈ xs, f x = .ok y := by
  induction xs generalizing ys with
  | nil =>
    obtain rfl := Except.ok.inj known
    simp
  | cons x xs ih =>
    simp only [List.mapM_cons, except_bind_ok, except_pure_ok] at known
    obtain ⟨z, first, zs, rest, rfl⟩ := known
    intro y mem
    rcases List.mem_cons.mp mem with rfl | later
    · exact ⟨x, by simp, first⟩
    · obtain ⟨w, isIn, same⟩ := ih rest y later
      exact ⟨w, by simp [isIn], same⟩

/-- A walk fails at one of its steps. -/
theorem except_mapM_error {f : α → Except ε β} {xs : List α} {e : ε} (failed : xs.mapM f = .error e) :
    ∃ x ∈ xs, f x = .error e := by
  induction xs with
  | nil => cases failed
  | cons x xs ih =>
    rw [List.mapM_cons, except_bind_error] at failed
    rcases failed with here | ⟨y, -, failed⟩
    · exact ⟨x, by simp, here⟩
    · rcases except_bind_error.mp failed with later | ⟨ys, -, done⟩
      · obtain ⟨z, mem, fails⟩ := ih later
        exact ⟨z, by simp [mem], fails⟩
      · cases done

/-! Steps that thread a state. -/

@[simp] theorem state_pure_apply (a : α) (s : σ) : (pure a : StateM σ α) s = (a, s) := rfl

@[simp] theorem state_bind_apply (m : StateM σ α) (f : α → StateM σ β) (s : σ) :
    (m >>= f) s = f (m s).1 (m s).2 := rfl

@[simp] theorem state_map_apply (f : α → β) (m : StateM σ α) (s : σ) :
    (f <$> m) s = (f (m s).1, (m s).2) := rfl

@[simp] theorem state_modify_apply (f : σ → σ) (s : σ) :
    (modify f : StateM σ PUnit) s = (⟨⟩, f s) := rfl

/-- A walk whose steps leave the state alone is a map. -/
theorem state_mapM_apply (f : α → StateM σ β) (g : σ → α → β) (step : ∀ a s, f a s = (g s a, s))
    (xs : List α) (s : σ) : (xs.mapM f) s = (xs.map (g s), s) := by
  induction xs with
  | nil => rfl
  | cons a xs ih => simp [List.mapM_cons, step, ih]

end Cotangent
