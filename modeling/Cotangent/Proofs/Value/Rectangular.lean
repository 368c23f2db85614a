import Cotangent.Value.Array
import Cotangent.Proofs.Outcome
/-!
Rectangular values: arrays nested along a shape, with leaves at the bottom. Such a value is the same as a
function from positions to leaves. `generate` goes from the function to the value, every rectangular value
comes from there, and what stands at a position is what the function has there.
-/
namespace Cotangent

variable {α β : Type}

theorem except_mapM_of_ok {ε : Type} {f : α → Except ε β} {g : α → β} {xs : List α}
    (each : ∀ x ∈ xs, f x = .ok (g x)) : xs.mapM f = .ok (xs.map g) :=
  except_mapM_iff.mpr (List.forall₂_map_right_iff.mpr (List.forall₂_same.mpr each))

theorem tabulate_ok_iff {f : Nat → Except (Fault α) β} {n : Nat} {ys : List β} :
    tabulate f n = .ok ys ↔ ys.length = n ∧ ∀ (k : Nat) y, ys[k]? = some y → f k = .ok y := by
  rw [tabulate, except_mapM_iff, List.forall₂_iff_get]
  constructor
  · rintro ⟨count, each⟩
    rw [List.length_range] at count
    refine ⟨count.symm, fun k y here => ?_⟩
    obtain ⟨inside, rfl⟩ := List.getElem?_eq_some_iff.mp here
    simpa using each k (by simpa [count] using inside) inside
  · rintro ⟨count, each⟩
    refine ⟨by simp [count], fun k _ inside => ?_⟩
    simpa using each k _ (List.getElem?_eq_getElem inside)

theorem tabulate_of_ok {f : Nat → Except (Fault α) β} {g : Nat → β} {n : Nat}
    (each : ∀ i < n, f i = .ok (g i)) : tabulate f n = .ok ((List.range n).map g) :=
  except_mapM_of_ok fun i mem => each i (List.mem_range.mp mem)

namespace Value

/-- Anything but an array. -/
def IsLeaf : Value α → Prop
  | .array _ => False
  | _ => True

/-- Arrays nested along the shape, with leaves at the bottom. A dimension of no rows is a dimension. -/
def Rectangular : List Nat → Value α → Prop
  | [], v => v.IsLeaf
  | n :: shape, .array rows => rows.length = n ∧ ∀ r ∈ rows, r.Rectangular shape
  | _ :: _, _ => False

/-- A position in each dimension. -/
def Within (idx shape : List Nat) : Prop := List.Forall₂ (· < ·) idx shape

/-- The part of a value at fixed positions. -/
def part (v : Value α) (idx : List Nat) : Except (Fault α) (Value α) :=
  v.index (idx.map fun i : Nat => .fix i)

/-- The value of a shape with `f idx` at position `idx`. -/
def generate : List Nat → (List Nat → Value α) → Value α
  | [], f => f []
  | n :: shape, f => .array ((List.range n).map fun i => generate shape fun idx => f (i :: idx))

variable {v : Value α} {n : Nat} {shape idx : List Nat} {f g : List Nat → Value α}

theorem Rectangular.exists_rows (rect : v.Rectangular (n :: shape)) :
    ∃ rows, v = .array rows ∧ rows.length = n ∧ ∀ r ∈ rows, r.Rectangular shape := by
  cases v with
  | array rows => exact ⟨rows, rfl, rect⟩
  | scalar a => exact rect.elim
  | acc id arrays => exact rect.elim

theorem within_nil : Within idx [] ↔ idx = [] := List.forall₂_nil_right_iff

theorem within_cons : Within idx (n :: shape) ↔ ∃ i rest, i < n ∧ Within rest shape ∧ idx = i :: rest :=
  List.forall₂_cons_right_iff

theorem Within.cons {i : Nat} (here : i < n) (rest : Within idx shape) :
    Within (i :: idx) (n :: shape) := List.Forall₂.cons here rest

@[simp] theorem part_nil : v.part [] = .ok v := rfl

theorem part_cons {rs : List (Value α)} {i : Nat} {r : Value α} (here : rs[i]? = some r) :
    (Value.array rs).part (i :: idx) = r.part idx := by
  have picked : (Value.array rs).row i = .ok r := by
    simp [row, rows, pickRow, here, bind, Except.bind]
  simp [part, index, picked, bind, Except.bind]

/-! Functions from positions to leaves. -/

theorem generate_congr (same : ∀ idx, Within idx shape → f idx = g idx) :
    generate shape f = generate shape g := by
  induction shape generalizing f g with
  | nil => exact same [] (within_nil.mpr rfl)
  | cons n shape ih =>
    refine congrArg array (List.map_congr_left fun i mem => ih fun idx within => ?_)
    exact same (i :: idx) (within.cons (List.mem_range.mp mem))

theorem rectangular_generate (leaf : ∀ idx, Within idx shape → (f idx).IsLeaf) :
    (generate shape f).Rectangular shape := by
  induction shape generalizing f with
  | nil => exact leaf [] (within_nil.mpr rfl)
  | cons n shape ih =>
    refine ⟨by simp, fun r mem => ?_⟩
    obtain ⟨i, isRow, rfl⟩ := List.mem_map.mp mem
    exact ih fun idx within => leaf (i :: idx) (within.cons (List.mem_range.mp isRow))

theorem part_generate (within : Within idx shape) : (generate shape f).part idx = .ok (f idx) := by
  induction shape generalizing idx f with
  | nil =>
    obtain rfl := within_nil.mp within
    rfl
  | cons n shape ih =>
    obtain ⟨i, rest, inside, within', rfl⟩ := within_cons.mp within
    have here : ((List.range n).map fun i => generate shape fun idx => f (i :: idx))[i]? =
        some (generate shape fun idx => f (i :: idx)) := by
      simp [inside]
    rw [generate, part_cons here, ih within']

/-- A rectangular value is generated by what stands at its positions. -/
theorem Rectangular.exists_generate (rect : v.Rectangular shape) :
    ∃ f, (∀ idx, Within idx shape → (f idx).IsLeaf) ∧ v = generate shape f := by
  induction shape generalizing v with
  | nil => exact ⟨fun _ => v, fun _ _ => rect, rfl⟩
  | cons n shape ih =>
    obtain ⟨rows, rfl, count, inRows⟩ := rect.exists_rows
    have each (i : Nat) : ∃ f : List Nat → Value α, ∀ r, rows[i]? = some r →
        (∀ idx, Within idx shape → (f idx).IsLeaf) ∧ r = generate shape f := by
      cases here : rows[i]? with
      | none => exact ⟨fun _ => .array [], by simp⟩
      | some r =>
        obtain ⟨f, leaf, same⟩ := ih (inRows r (List.mem_of_getElem? here))
        refine ⟨f, fun s isRow => ?_⟩
        obtain rfl := Option.some.inj isRow
        exact ⟨leaf, same⟩
    choose f leaf using each
    refine ⟨fun idx => f (idx.headD 0) idx.tail, fun idx within => ?_, congrArg array ?_⟩
    · obtain ⟨i, rest, inside, within', rfl⟩ := within_cons.mp within
      have here : rows[i]? = some rows[i] := List.getElem?_eq_getElem (count ▸ inside)
      exact (leaf i _ here).1 rest within'
    · refine List.ext_getElem (by simp [count]) fun i inside _ => ?_
      rw [List.getElem_map, List.getElem_range]
      exact (leaf i _ (List.getElem?_eq_getElem inside)).2

/-- Leaves differ from one another or stand at different positions. -/
theorem Rectangular.ext {w : Value α} (left : v.Rectangular shape) (right : w.Rectangular shape)
    (same : ∀ idx, Within idx shape → v.part idx = w.part idx) : v = w := by
  obtain ⟨f, -, rfl⟩ := left.exists_generate
  obtain ⟨g, -, rfl⟩ := right.exists_generate
  refine generate_congr fun idx within => ?_
  have known := same idx within
  rw [part_generate within, part_generate within] at known
  exact Except.ok.inj known

/-- Where there is something in every dimension, the extents are read off the first rows. -/
theorem extents_generate (positive : ∀ n ∈ shape, 0 < n)
    (leaf : ∀ idx, Within idx shape → (f idx).IsLeaf) : (generate shape f).extents = shape := by
  induction shape generalizing f with
  | nil =>
    have isLeaf := leaf [] (within_nil.mpr rfl)
    rw [generate]
    cases here : f [] with
    | array rows => exact absurd isLeaf (by simp [here, IsLeaf])
    | scalar a => rfl
    | acc id arrays => rfl
  | cons n shape ih =>
    obtain ⟨here, rest⟩ := List.forall_mem_cons.mp positive
    obtain ⟨m, rfl⟩ : ∃ m, n = m + 1 := ⟨n - 1, by omega⟩
    have first := ih rest (f := fun idx => f (0 :: idx)) fun idx within =>
      leaf (0 :: idx) (within.cons here)
    simp [generate, List.range_succ_eq_map, extents, firstExtents, first]

theorem Rectangular.extents_eq (rect : v.Rectangular shape) (positive : ∀ n ∈ shape, 0 < n) :
    v.extents = shape := by
  obtain ⟨f, leaf, rfl⟩ := rect.exists_generate
  exact extents_generate positive leaf

end Value

end Cotangent
