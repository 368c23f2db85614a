import Mathlib.Data.List.Basic
/-!
Two lists side by side. A list of values is followed by the list of their tangents in this way wherever
values and tangents travel together.
-/
namespace Cotangent

/-- The entries of both lists in turn. -/
def interleave {α : Type} (xs ys : List α) : List α := (xs.zip ys).flatMap fun p => [p.1, p.2]

@[simp] theorem interleave_nil {α : Type} (ys : List α) : interleave [] ys = [] := rfl

@[simp] theorem interleave_cons {α : Type} (x y : α) (xs ys : List α) :
    interleave (x :: xs) (y :: ys) = x :: y :: interleave xs ys := rfl

theorem length_interleave {α : Type} {xs ys : List α} (same : ys.length = xs.length) :
    (interleave xs ys).length = 2 * xs.length := by
  induction xs generalizing ys with
  | nil => rfl
  | cons x xs ih =>
    cases ys with
    | nil => simp at same
    | cons y ys =>
      have tail := ih (by simpa using same)
      simp only [interleave_cons, List.length_cons, tail]
      omega

/-- The first list stands at the even positions, the second at the odd ones. -/
theorem getElem?_interleave {α : Type} {xs ys : List α} (same : ys.length = xs.length) (i : Nat) :
    (interleave xs ys)[2 * i]? = xs[i]? ∧ (interleave xs ys)[2 * i + 1]? = ys[i]? := by
  induction xs generalizing ys i with
  | nil =>
    obtain rfl := List.length_eq_zero_iff.mp same
    simp
  | cons x xs ih =>
    cases ys with
    | nil => simp at same
    | cons y ys =>
      cases i with
      | zero => simp
      | succ i =>
        obtain ⟨left, right⟩ := ih (by simpa using same) i
        simp only [interleave_cons, Nat.mul_add, Nat.mul_one, List.getElem?_cons_succ]
        exact ⟨left, right⟩

theorem mem_interleave {α : Type} {xs ys : List α} {z : α} (mem : z ∈ interleave xs ys) :
    z ∈ xs ∨ z ∈ ys := by
  obtain ⟨p, inZip, here⟩ := List.mem_flatMap.mp mem
  obtain ⟨left, right⟩ := List.of_mem_zip inZip
  simp only [List.mem_cons, List.not_mem_nil, or_false] at here
  rcases here with rfl | rfl
  · exact Or.inl left
  · exact Or.inr right

theorem mem_interleave_left {α : Type} {xs ys : List α} (same : ys.length = xs.length) {z : α}
    (mem : z ∈ xs) : z ∈ interleave xs ys := by
  have firsts : (xs.zip ys).map Prod.fst = xs := List.map_fst_zip (Nat.le_of_eq same.symm)
  obtain ⟨pair, inZip, rfl⟩ := List.mem_map.mp (firsts.symm ▸ mem)
  exact List.mem_flatMap.mpr ⟨pair, inZip, by simp⟩

theorem mem_interleave_right {α : Type} {xs ys : List α} (same : ys.length = xs.length) {z : α}
    (mem : z ∈ ys) : z ∈ interleave xs ys := by
  have seconds : (xs.zip ys).map Prod.snd = ys := List.map_snd_zip (Nat.le_of_eq same)
  obtain ⟨pair, inZip, rfl⟩ := List.mem_map.mp (seconds.symm ▸ mem)
  exact List.mem_flatMap.mpr ⟨pair, inZip, by simp⟩

theorem mem_interleave_iff {α : Type} {xs ys : List α} (same : ys.length = xs.length) (z : α) :
    z ∈ interleave xs ys ↔ z ∈ xs ∨ z ∈ ys := by
  refine ⟨mem_interleave, fun mem => ?_⟩
  rcases mem with mem | mem
  · exact mem_interleave_left same mem
  · exact mem_interleave_right same mem

theorem forall_mem_interleave {α : Type} {holds : α → Prop} {xs ys : List α}
    (left : ∀ x ∈ xs, holds x) (right : ∀ y ∈ ys, holds y) : ∀ z ∈ interleave xs ys, holds z :=
  fun z mem => (mem_interleave mem).elim (left z) (right z)

theorem nodup_interleave {α : Type} {xs ys : List α} (left : xs.Nodup) (right : ys.Nodup)
    (apart : ∀ x ∈ xs, x ∉ ys) : (interleave xs ys).Nodup := by
  induction xs generalizing ys with
  | nil => exact List.nodup_nil
  | cons x xs ih =>
    cases ys with
    | nil => simp [interleave]
    | cons y ys =>
      obtain ⟨notLeft, left⟩ := List.nodup_cons.mp left
      obtain ⟨notRight, right⟩ := List.nodup_cons.mp right
      have first := apart x (by simp)
      have second : y ∉ xs := fun mem => apart y (by simp [mem]) (by simp)
      have rest := ih left right fun z mem inRight => apart z (by simp [mem]) (by simp [inRight])
      have newLeft : x ∉ interleave xs ys := fun mem =>
        (mem_interleave mem).elim notLeft fun inRight => first (by simp [inRight])
      have newRight : y ∉ interleave xs ys := fun mem => (mem_interleave mem).elim second notRight
      have different : x ≠ y := fun same => first (by simp [same])
      simp [different, newLeft, newRight, rest]

theorem map_interleave {α β : Type} (f : α → β) (xs ys : List α) :
    (interleave xs ys).map f = interleave (xs.map f) (ys.map f) := by
  induction xs generalizing ys with
  | nil => rfl
  | cons x xs ih =>
    cases ys with
    | nil => simp [interleave]
    | cons y ys => simp [ih]

end Cotangent
