import Cotangent.Proofs.Value.Rectangular
/-!
Reshaping. A value is taken apart into its leaves in row-major order, and a shape is filled from a list of
leaves in the same order. The two are inverse to one another at every shape, so a value can be given a
shape in at most one way, and only its leaves matter for how.
-/
namespace Cotangent

namespace Value

variable {α : Type} {v w : Value α} {n : Nat} {shape idx : List Nat} {xs rest : List (Value α)}

/-- The number of a position in row-major order: the last dimension varies fastest. -/
def rowMajor : List Nat → List Nat → Nat
  | _ :: shape, i :: idx => i * volume shape + rowMajor shape idx
  | _, _ => 0

/-! Taking apart. -/

theorem IsLeaf.leaves (leaf : v.IsLeaf) : v.leaves = [v] := by
  cases v with
  | array rows => exact leaf.elim
  | scalar a => rfl
  | acc id arrays => rfl

mutual

theorem isLeaf_of_mem_leaves (v : Value α) : ∀ x ∈ v.leaves, x.IsLeaf := by
  cases v with
  | scalar a => simp [leaves, IsLeaf]
  | acc id arrays => simp [leaves, IsLeaf]
  | array rows => exact isLeaf_of_mem_rowLeaves rows

theorem isLeaf_of_mem_rowLeaves (rows : List (Value α)) : ∀ x ∈ rowLeaves rows, x.IsLeaf := by
  cases rows with
  | nil => simp [rowLeaves]
  | cons r rows =>
    exact List.forall_mem_append.mpr ⟨isLeaf_of_mem_leaves r, isLeaf_of_mem_rowLeaves rows⟩

end

theorem length_rowLeaves {rows : List (Value α)} {m : Nat} (each : ∀ r ∈ rows, r.leaves.length = m) :
    (rowLeaves rows).length = rows.length * m := by
  induction rows with
  | nil => simp [rowLeaves]
  | cons r rows ih =>
    obtain ⟨here, later⟩ := List.forall_mem_cons.mp each
    rw [rowLeaves, List.length_append, here, ih later, List.length_cons, Nat.succ_mul, Nat.add_comm]

theorem Rectangular.length_leaves (rect : v.Rectangular shape) : v.leaves.length = volume shape := by
  induction shape generalizing v with
  | nil => rw [IsLeaf.leaves rect, List.length_singleton, volume]
  | cons n shape ih =>
    obtain ⟨rows, rfl, rfl, inRows⟩ := rect.exists_rows
    exact length_rowLeaves fun r mem => ih (inRows r mem)

/-- Where the rows have equally many leaves, those of one row stand together. -/
theorem getElem?_rowLeaves {rows : List (Value α)} {m i j : Nat} {r : Value α}
    (each : ∀ r ∈ rows, r.leaves.length = m) (here : rows[i]? = some r) (inside : j < m) :
    (rowLeaves rows)[i * m + j]? = r.leaves[j]? := by
  induction rows generalizing i with
  | nil => simp at here
  | cons r' rows ih =>
    obtain ⟨first, later⟩ := List.forall_mem_cons.mp each
    rw [rowLeaves]
    cases i with
    | zero =>
      obtain rfl : r' = r := by simpa using here
      rw [List.getElem?_append_left (by omega), Nat.zero_mul, Nat.zero_add]
    | succ i =>
      have past : (i + 1) * m + j - r'.leaves.length = i * m + j := by
        rw [first, Nat.succ_mul]
        omega
      rw [List.getElem?_append_right (by rw [first, Nat.succ_mul]; omega), past]
      exact ih later (by simpa using here)

theorem rowMajor_lt (within : Within idx shape) : rowMajor shape idx < volume shape := by
  induction shape generalizing idx with
  | nil =>
    obtain rfl := within_nil.mp within
    exact Nat.one_pos
  | cons n shape ih =>
    obtain ⟨i, idx, inside, rest, rfl⟩ := within_cons.mp within
    calc i * volume shape + rowMajor shape idx
        < i * volume shape + volume shape := Nat.add_lt_add_left (ih rest) _
      _ = (i + 1) * volume shape := (Nat.succ_mul ..).symm
      _ ≤ n * volume shape := Nat.mul_le_mul_right _ inside

/-- The leaves stand in row-major order of their positions. -/
theorem Rectangular.leaf_at (rect : v.Rectangular shape) (within : Within idx shape) :
    ∃ x, v.leaves[rowMajor shape idx]? = some x ∧ v.part idx = .ok x := by
  induction shape generalizing v idx with
  | nil =>
    obtain rfl := within_nil.mp within
    exact ⟨v, by rw [IsLeaf.leaves rect]; rfl, rfl⟩
  | cons n shape ih =>
    obtain ⟨rows, rfl, rfl, inRows⟩ := rect.exists_rows
    obtain ⟨i, idx, inside, rest, rfl⟩ := within_cons.mp within
    have here : rows[i]? = some rows[i] := List.getElem?_eq_getElem inside
    obtain ⟨x, found, same⟩ := ih (inRows _ (List.getElem_mem inside)) rest
    refine ⟨x, ?_, (part_cons here).trans same⟩
    rw [← found]
    exact getElem?_rowLeaves (fun r mem => (inRows r mem).length_leaves) here (rowMajor_lt rest)

/-! Filling. -/

theorem fillRows_rowLeaves {fill : List (Value α) → Except (Fault α) (Value α × List (Value α))}
    {rows : List (Value α)} (each : ∀ r ∈ rows, ∀ rest, fill (r.leaves ++ rest) = .ok (r, rest))
    (rest : List (Value α)) : fillRows fill rows.length (rowLeaves rows ++ rest) = .ok (rows, rest) := by
  induction rows with
  | nil => rfl
  | cons r rows ih =>
    obtain ⟨here, later⟩ := List.forall_mem_cons.mp each
    rw [rowLeaves, List.append_assoc, List.length_cons, fillRows]
    simp only [except_bind_ok, except_pure_ok]
    exact ⟨_, here _, _, ih later, rfl⟩

/-- The leaves of a value fill its shape with the value itself. -/
theorem Rectangular.fill_leaves (rect : v.Rectangular shape) (rest : List (Value α)) :
    fill shape (v.leaves ++ rest) = .ok (v, rest) := by
  induction shape generalizing v rest with
  | nil => rw [IsLeaf.leaves rect]; rfl
  | cons n shape ih =>
    obtain ⟨rows, rfl, rfl, inRows⟩ := rect.exists_rows
    simp only [fill, except_bind_ok, except_pure_ok]
    exact ⟨_, fillRows_rowLeaves (fun r mem => ih (inRows r mem)) rest, rfl⟩

/-- What filling uses up are the leaves of what it makes. -/
theorem fill_ok {p : Value α × List (Value α)} (leaf : ∀ x ∈ xs, x.IsLeaf)
    (known : fill shape xs = .ok p) : p.1.Rectangular shape ∧ xs = p.1.leaves ++ p.2 := by
  induction shape generalizing xs p with
  | nil =>
    cases xs with
    | nil => cases known
    | cons x xs =>
      obtain rfl := Except.ok.inj known
      have here : x.IsLeaf := leaf x (by simp)
      exact ⟨here, by rw [here.leaves]; rfl⟩
  | cons n shape ih =>
    have inRows (n : Nat) {xs : List (Value α)} {q : List (Value α) × List (Value α)}
        (leaf : ∀ x ∈ xs, x.IsLeaf) (known : fillRows (fill shape) n xs = .ok q) :
        (q.1.length = n ∧ ∀ r ∈ q.1, r.Rectangular shape) ∧ xs = rowLeaves q.1 ++ q.2 := by
      induction n generalizing xs q with
      | zero =>
        obtain rfl := Except.ok.inj known
        simp [rowLeaves]
      | succ n rows =>
        simp only [fillRows, except_bind_ok, except_pure_ok] at known
        obtain ⟨⟨r, ys⟩, first, ⟨rs, zs⟩, later, rfl⟩ := known
        obtain ⟨rect, rfl⟩ := ih leaf first
        obtain ⟨⟨rfl, rects⟩, rfl⟩ := rows (fun x mem => leaf x (List.mem_append_right _ mem)) later
        exact ⟨⟨rfl, List.forall_mem_cons.mpr ⟨rect, rects⟩⟩, (List.append_assoc ..).symm⟩
    simp only [fill, except_bind_ok, except_pure_ok] at known
    obtain ⟨q, filled, rfl⟩ := known
    exact inRows n leaf filled

/-- Enough leaves fill a shape. -/
theorem exists_fill (enough : volume shape ≤ xs.length) :
    ∃ w, fill shape xs = .ok (w, xs.drop (volume shape)) := by
  induction shape generalizing xs with
  | nil =>
    obtain ⟨x, xs, rfl⟩ := List.exists_cons_of_length_pos enough
    exact ⟨x, rfl⟩
  | cons n shape ih =>
    have inRows (n : Nat) {xs : List (Value α)} (enough : n * volume shape ≤ xs.length) :
        ∃ rows, fillRows (fill shape) n xs = .ok (rows, xs.drop (n * volume shape)) := by
      induction n generalizing xs with
      | zero => exact ⟨[], by simp [fillRows]⟩
      | succ n rows =>
        rw [Nat.succ_mul] at enough
        obtain ⟨r, first⟩ := ih (Nat.le_trans (Nat.le_add_left ..) enough)
        have left : n * volume shape ≤ (xs.drop (volume shape)).length := by
          rw [List.length_drop]
          omega
        obtain ⟨rs, later⟩ := rows left
        refine ⟨r :: rs, ?_⟩
        simp only [fillRows, except_bind_ok, except_pure_ok]
        refine ⟨_, first, _, later, ?_⟩
        rw [List.drop_drop, Nat.succ_mul, Nat.add_comm]
    obtain ⟨rows, filled⟩ := inRows n enough
    refine ⟨.array rows, ?_⟩
    simp only [fill, except_bind_ok, except_pure_ok]
    exact ⟨_, filled, rfl⟩

/-! Reshaping. -/

/-- A value is given a shape by the one value of that shape that has the same leaves. -/
theorem reshape_eq_ok_iff : v.reshape shape = .ok w ↔ w.Rectangular shape ∧ w.leaves = v.leaves := by
  unfold reshape
  constructor
  · intro known
    split at known
    · cases known
    · rename_i fits
      simp only [except_bind_ok, except_pure_ok] at known
      obtain ⟨⟨u, rest⟩, filled, rfl⟩ := known
      obtain ⟨rect, same⟩ := fill_ok (isLeaf_of_mem_leaves v) filled
      have none : rest = [] := by
        have count := congrArg List.length same
        rw [List.length_append, rect.length_leaves, Decidable.not_not.mp fits] at count
        exact List.length_eq_zero_iff.mp (Nat.left_eq_add.mp count)
      exact ⟨rect, by simpa [none] using same.symm⟩
  · rintro ⟨rect, same⟩
    have fits : v.leaves.length = volume shape := same ▸ rect.length_leaves
    have filled := rect.fill_leaves []
    rw [List.append_nil, same] at filled
    rw [if_neg (not_not_intro fits), filled]
    rfl

theorem exists_reshape_iff : (∃ w, v.reshape shape = .ok w) ↔ v.leaves.length = volume shape := by
  constructor
  · rintro ⟨w, known⟩
    obtain ⟨rect, same⟩ := reshape_eq_ok_iff.mp known
    exact same ▸ rect.length_leaves
  · intro fits
    obtain ⟨w, filled⟩ := exists_fill (Nat.le_of_eq fits.symm)
    obtain ⟨rect, same⟩ := fill_ok (isLeaf_of_mem_leaves v) filled
    rw [List.drop_of_length_le (Nat.le_of_eq fits), List.append_nil] at same
    exact ⟨w, reshape_eq_ok_iff.mpr ⟨rect, same.symm⟩⟩

theorem reshape_congr (same : v.leaves = w.leaves) : v.reshape shape = w.reshape shape := by
  rw [reshape, reshape, same]

/-- Reshaping succeeds if the shape has room for exactly the leaves. It keeps them in row-major order, makes
    a value of the shape, and does nothing to one; and a value that was reshaped can be reshaped further
    like the value that it was made from. -/
theorem reshape_keeps_leaves (v : Value α) (shape : List Nat) :
    ((∃ w, v.reshape shape = .ok w) ↔ v.leaves.length = volume shape) ∧
      (∀ w, v.reshape shape = .ok w → w.Rectangular shape ∧ w.leaves = v.leaves ∧
        (∀ idx, Within idx shape →
          ∃ x, v.leaves[rowMajor shape idx]? = some x ∧ w.part idx = .ok x) ∧
        ∀ next, w.reshape next = v.reshape next) ∧
      (v.Rectangular shape → v.reshape shape = .ok v) := by
  refine ⟨exists_reshape_iff, fun w known => ?_, fun rect => reshape_eq_ok_iff.mpr ⟨rect, rfl⟩⟩
  obtain ⟨rect, same⟩ := reshape_eq_ok_iff.mp known
  exact ⟨rect, same, fun idx within => same ▸ rect.leaf_at within, fun next => reshape_congr same⟩

/-- Without leaves the nesting is still that of the shape. -/
example : (Value.array [] : Value).reshape [2, 0, 3] = .ok (.array [.array [], .array []]) := rfl

end Value

end Cotangent
