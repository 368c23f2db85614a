import Cotangent.Proofs.Value.Mapping
/-!
Values whose leaves all have a property. Such a value is one whose leaves come with a proof, without the
proofs; and an operation on arrays does the same to both, because it never looks at a leaf. So what it
makes of values that have the property everywhere has it everywhere again.
-/
namespace Cotangent

variable {α : Type} {p : α → Prop}

mutual

/-- Every leaf of the value has the property. -/
def Value.Every (p : α → Prop) : Value α → Prop
  | .scalar v => p v
  | .array rows => EveryRow p rows
  | .acc _ arrays => EveryRow p arrays

def EveryRow (p : α → Prop) : List (Value α) → Prop
  | [] => True
  | v :: vs => v.Every p ∧ EveryRow p vs

end

theorem everyRow_iff (vs : List (Value α)) : EveryRow p vs ↔ ∀ v ∈ vs, v.Every p := by
  induction vs with
  | nil => simp [EveryRow]
  | cons v vs ih => simp [EveryRow, ih]

namespace Value

@[simp] theorem every_scalar (a : α) : (scalar a).Every p ↔ p a := Iff.rfl

@[simp] theorem every_array (rows : List (Value α)) : (array rows).Every p ↔ ∀ v ∈ rows, v.Every p :=
  everyRow_iff rows

@[simp] theorem every_acc (id : Nat) (arrays : List (Value α)) :
    (acc id arrays).Every p ↔ ∀ v ∈ arrays, v.Every p :=
  everyRow_iff arrays

mutual

theorem every_of_forall (all : ∀ a, p a) (v : Value α) : v.Every p := by
  cases v with
  | scalar a => exact all a
  | array rows => exact everyRow_of_forall all rows
  | acc id arrays => exact everyRow_of_forall all arrays

theorem everyRow_of_forall (all : ∀ a, p a) (vs : List (Value α)) : EveryRow p vs := by
  cases vs with
  | nil => trivial
  | cons v vs => exact ⟨every_of_forall all v, everyRow_of_forall all vs⟩

end

mutual

/-- The proofs that the leaves come with stay behind. -/
theorem every_map (v : Value (Subtype p)) : (v.map Subtype.val).Every p := by
  cases v with
  | scalar a => exact a.2
  | array rows => exact everyRow_map rows
  | acc id arrays => exact everyRow_map arrays

theorem everyRow_map (vs : List (Value (Subtype p))) : EveryRow p (mapRows Subtype.val vs) := by
  cases vs with
  | nil => trivial
  | cons v vs => exact ⟨every_map v, everyRow_map vs⟩

end

mutual

theorem Every.exists_map {v : Value α} (every : v.Every p) :
    ∃ w : Value (Subtype p), w.map Subtype.val = v := by
  cases v with
  | scalar a => exact ⟨.scalar ⟨a, every⟩, rfl⟩
  | array rows =>
    obtain ⟨ws, same⟩ := EveryRow.exists_map every
    exact ⟨.array ws, by rw [map, same]⟩
  | acc id arrays =>
    obtain ⟨ws, same⟩ := EveryRow.exists_map every
    exact ⟨.acc id ws, by rw [map, same]⟩

theorem EveryRow.exists_map {vs : List (Value α)} (every : EveryRow p vs) :
    ∃ ws : List (Value (Subtype p)), mapRows Subtype.val ws = vs := by
  cases vs with
  | nil => exact ⟨[], rfl⟩
  | cons v vs =>
    obtain ⟨w, first⟩ := Every.exists_map every.1
    obtain ⟨ws, rest⟩ := EveryRow.exists_map every.2
    exact ⟨w :: ws, by rw [mapRows, first, rest]⟩

end

theorem exists_map_of_every {vs : List (Value α)} (every : ∀ v ∈ vs, v.Every p) :
    ∃ ws : List (Value (Subtype p)), ws.map (map Subtype.val) = vs := by
  obtain ⟨ws, same⟩ := EveryRow.exists_map ((everyRow_iff vs).mpr every)
  exact ⟨ws, by rw [← mapRows_eq, same]⟩

/-- A result that is carried over from leaves with proofs has the property everywhere. -/
theorem every_of_carry {m : Except (Fault (Subtype p)) (Value (Subtype p))} {v : Value α}
    (known : carry Subtype.val (map Subtype.val) m = .ok v) : v.Every p := by
  cases m with
  | error e => cases known
  | ok w =>
    obtain rfl := Except.ok.inj known
    exact every_map w

variable {v x new : Value α}

/-- What is done to leaves that come with proofs just as to those without keeps the property. -/
theorem every_of_natural (k' : Value α → Except (Fault α) (Value α))
    {k : Value (Subtype p) → Except (Fault (Subtype p)) (Value (Subtype p))}
    (natural : ∀ w, k' (w.map Subtype.val) = carry Subtype.val (map Subtype.val) (k w))
    (every : v.Every p) (known : k' v = .ok new) : new.Every p := by
  obtain ⟨w, rfl⟩ := every.exists_map
  rw [natural] at known
  exact every_of_carry known

theorem every_row {i : Int} (every : v.Every p) (known : v.row i = .ok new) : new.Every p :=
  every_of_natural (row · i) (fun w => row_map Subtype.val w i) every known

theorem every_index {dims : List Dim} (every : v.Every p) (known : v.index dims = .ok new) :
    new.Every p :=
  every_of_natural (index dims) (index_map Subtype.val dims) every known

theorem every_reshape {shape : List Nat} (every : v.Every p) (known : v.reshape shape = .ok new) :
    new.Every p :=
  every_of_natural (reshape · shape) (fun w => reshape_map Subtype.val w shape) every known

theorem every_rearrange {perm : List Nat} (every : v.Every p) (known : v.rearrange perm = .ok new) :
    new.Every p :=
  every_of_natural (rearrange · perm) (fun w => rearrange_map Subtype.val w perm) every known

theorem every_rotate {offsets : List Int} (every : v.Every p) (known : rotate offsets v = .ok new) :
    new.Every p :=
  every_of_natural (rotate offsets) (rotate_map Subtype.val offsets) every known

theorem every_replicate (shape : List Nat) (every : v.Every p) : (replicate shape v).Every p := by
  obtain ⟨w, rfl⟩ := every.exists_map
  rw [replicate_map]
  exact every_map _

theorem every_update {dims : List Dim} (every : v.Every p) (written : x.Every p)
    (known : update dims v x = .ok new) : new.Every p := by
  obtain ⟨w, rfl⟩ := every.exists_map
  obtain ⟨y, rfl⟩ := written.exists_map
  rw [update_map] at known
  exact every_of_carry known

theorem every_concat {dim : Nat} {arrays : List (Value α)} (every : ∀ v ∈ arrays, v.Every p)
    (known : concat dim arrays = .ok new) : new.Every p := by
  obtain ⟨ws, rfl⟩ := exists_map_of_every every
  rw [concat_map] at known
  exact every_of_carry known

end Value

end Cotangent
