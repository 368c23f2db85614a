import Mathlib.Data.Int.ModEq
import Cotangent.Proofs.Evaluation.Arithmetic
import Cotangent.Proofs.Evaluation.CanonicalIntegers
/-!
Values of a given layout, and their sums entry by entry. An array of a layout has as many rows as its
first dimension says, whether or not there is anything in them, so two values of one layout can always be
added, and the sum has the layout again.
-/
namespace Cotangent

/-- The kinds whose sums never fail and never round. -/
def ScalarType.Exact (k : ScalarType) : Prop := (∃ w, k = .int w) ∨ k = .bool

/-- The kind of the scalars in a value, and the number of rows in each dimension. -/
structure Layout where
  elem : ScalarType
  dims : List Nat
  deriving DecidableEq, Repr

/-- The zero of a layout. -/
def Layout.zero (L : Layout) : Value := .replicate L.dims (.scalar (.zero L.elem))

/-- The sum of two scalars of one exact kind. -/
def Scalar.plus : Scalar → Scalar → Scalar
  | .int w m, b => .int w (w.wrap (m + b.number))
  | .bool a, .bool b => .bool (a && b)
  | a, _ => a

namespace Value

/-- Scalars of the kind, in arrays that are nested along the dimensions. -/
def Laid (k : ScalarType) : List Nat → Value → Prop
  | [], .scalar v => v.ty = k
  | n :: dims, .array rows => rows.length = n ∧ ∀ r ∈ rows, r.Laid k dims
  | _, _ => False

/-- The value has the layout. -/
abbrev Fits (v : Value) (L : Layout) : Prop := v.Laid L.elem L.dims

/-- The number at a position, and zero outside the value. -/
def entry : List Nat → Value → Int
  | [], .scalar v => v.number
  | i :: rest, .array rows =>
    match rows[i]? with
    | some r => r.entry rest
    | none => 0
  | _, _ => 0

/-- The sum, entry by entry. -/
def plus : List Nat → Value → Value → Value
  | [], .scalar a, .scalar b => .scalar (a.plus b)
  | _ :: dims, .array rows, .array more => .array (List.zipWith (plus dims) rows more)
  | _, v, _ => v

/-- The sum of values of one layout over the integers of a width. What is not wrapped has to come from
    a value that was not, and without any values there is nothing but zeros. -/
structure IsSum (w : IntWidth) (dims : List Nat) (vs : List Value) (v : Value) : Prop where
  laid : v.Laid (.int w) dims
  entries : ∀ i, v.entry i ≡ (vs.map (·.entry i)).sum [ZMOD w.modulus]
  canonical : (∀ u ∈ vs, u.Every Scalar.Canonical) → v.Every Scalar.Canonical
  zero : vs = [] → v = Layout.zero ⟨.int w, dims⟩

end Value

variable {k : ScalarType} {w : IntWidth} {dims : List Nat} {u v : Value}

/-! Scalars. -/

namespace Scalar

variable {a b : Scalar}

theorem apply_add (exact : k.Exact) (left : a.ty = k) (right : b.ty = k) :
    (BinaryOp.add k).apply a b = .ok (a.plus b) := by
  rcases exact with ⟨w, rfl⟩ | rfl
  · cases a <;> cases b <;> simp_all [ty]
    rfl
  · cases a <;> cases b <;> simp_all [ty]
    rename_i x y
    cases x <;> rfl

theorem ty_plus : (a.plus b).ty = a.ty := by
  cases a <;> cases b <;> rfl

theorem number_plus (left : a.ty = .int w) :
    ((a.plus b).number : ZMod w.modulus) = a.number + b.number := by
  cases a with
  | int w' m =>
    obtain rfl : w' = w := by simpa [ty] using left
    simp [plus, number, IntWidth.cast_wrap]
  | _ => simp [ty] at left

theorem canonical_zero (k : ScalarType) : (zero k).Canonical := by
  cases k with
  | int w => cases w <;> decide
  | _ => trivial

theorem canonical_plus (left : a.Canonical) : (a.plus b).Canonical := by
  cases a with
  | int w m => exact canonical_wrap w _
  | bool x => cases b <;> trivial
  | _ => exact left

theorem number_zero (k : ScalarType) : (zero k).number = 0 := by
  cases k <;> rfl

theorem zero_plus_zero (k j : ScalarType) : (zero k).plus (zero j) = zero k := by
  cases k with
  | int w =>
    show int w (w.wrap (0 + (zero j).number)) = int w 0
    rw [number_zero]
    cases w <;> decide
  | _ => cases j <;> rfl

end Scalar

/-! Values. -/

namespace Value

theorem Laid.exists_scalar (laid : v.Laid k []) : ∃ a, v = .scalar a ∧ a.ty = k := by
  cases v with
  | scalar a => exact ⟨a, rfl, laid⟩
  | _ => exact laid.elim

theorem Laid.exists_rows {n : Nat} (laid : v.Laid k (n :: dims)) :
    ∃ rows, v = .array rows ∧ rows.length = n ∧ ∀ r ∈ rows, r.Laid k dims := by
  cases v with
  | array rows => exact ⟨rows, rfl, laid⟩
  | _ => exact laid.elim

theorem laid_plus (left : u.Laid k dims) (right : v.Laid k dims) : (plus dims u v).Laid k dims := by
  induction dims generalizing u v with
  | nil =>
    obtain ⟨a, rfl, kind⟩ := left.exists_scalar
    obtain ⟨b, rfl, -⟩ := right.exists_scalar
    exact Scalar.ty_plus.trans kind
  | cons n dims ih =>
    obtain ⟨rows, rfl, count, inRows⟩ := left.exists_rows
    obtain ⟨more, rfl, count', inMore⟩ := right.exists_rows
    refine ⟨by simp [count, count'], fun r mem => ?_⟩
    obtain ⟨i, at_i⟩ := List.mem_iff_getElem?.mp mem
    rw [List.getElem?_zipWith] at at_i
    split at at_i
    · rename_i r s here there
      obtain rfl := Option.some.inj at_i
      exact ih (inRows r (List.mem_of_getElem? here)) (inMore s (List.mem_of_getElem? there))
    · cases at_i

theorem laid_zero (L : Layout) : L.zero.Fits L := by
  obtain ⟨k, dims⟩ := L
  induction dims with
  | nil => exact Scalar.ty_zero k
  | cons n dims ih =>
    refine ⟨List.length_replicate, fun r mem => ?_⟩
    obtain rfl := List.eq_of_mem_replicate mem
    exact ih

/-- Each entry of a sum is the sum of the entries. -/
theorem entry_plus (left : u.Laid (.int w) dims) (right : v.Laid (.int w) dims) (i : List Nat) :
    ((plus dims u v).entry i : ZMod w.modulus) = u.entry i + v.entry i := by
  induction dims generalizing u v i with
  | nil =>
    obtain ⟨a, rfl, kind⟩ := left.exists_scalar
    obtain ⟨b, rfl, -⟩ := right.exists_scalar
    cases i with
    | nil => exact Scalar.number_plus kind
    | cons j rest => simp [plus, entry]
  | cons n dims ih =>
    obtain ⟨rows, rfl, count, inRows⟩ := left.exists_rows
    obtain ⟨more, rfl, count', inMore⟩ := right.exists_rows
    cases i with
    | nil => simp [plus, entry]
    | cons j rest =>
      by_cases inside : j < n
      · obtain ⟨r, here⟩ : ∃ r, rows[j]? = some r := ⟨_, List.getElem?_eq_getElem (by omega)⟩
        obtain ⟨s, there⟩ : ∃ s, more[j]? = some s := ⟨_, List.getElem?_eq_getElem (by omega)⟩
        simp only [plus, entry, List.getElem?_zipWith, here, there]
        exact ih (inRows r (List.mem_of_getElem? here)) (inMore s (List.mem_of_getElem? there)) rest
      · have here : rows[j]? = none := List.getElem?_eq_none (by omega)
        have there : more[j]? = none := List.getElem?_eq_none (by omega)
        simp [plus, entry, List.getElem?_zipWith, here, there]

theorem entry_zero (L : Layout) (i : List Nat) : L.zero.entry i = 0 := by
  obtain ⟨k, dims⟩ := L
  induction dims generalizing i with
  | nil => cases i <;> cases k <;> rfl
  | cons n dims ih =>
    cases i with
    | nil => rfl
    | cons j rest =>
      simp only [Layout.zero, replicate, entry]
      split
      · rename_i r found
        obtain rfl := List.eq_of_mem_replicate (List.mem_of_getElem? found)
        exact ih rest
      · rfl

/-- What zeros have and sums preserve, the entries of a sum have. -/
theorem every_plus {p : Scalar → Prop} (sums : ∀ a b, p a → p b → p (a.plus b))
    (laidLeft : u.Laid k dims) (laidRight : v.Laid k dims) (left : u.Every p) (right : v.Every p) :
    (plus dims u v).Every p := by
  induction dims generalizing u v with
  | nil =>
    obtain ⟨a, rfl, -⟩ := laidLeft.exists_scalar
    obtain ⟨b, rfl, -⟩ := laidRight.exists_scalar
    exact sums a b left right
  | cons n dims ih =>
    obtain ⟨rows, rfl, -, inRows⟩ := laidLeft.exists_rows
    obtain ⟨more, rfl, -, inMore⟩ := laidRight.exists_rows
    simp only [plus, every_array] at left right ⊢
    intro r mem
    obtain ⟨i, at_i⟩ := List.mem_iff_getElem?.mp mem
    rw [List.getElem?_zipWith] at at_i
    split at at_i
    · rename_i r s here there
      obtain rfl := Option.some.inj at_i
      have here := List.mem_of_getElem? here
      have there := List.mem_of_getElem? there
      exact ih (inRows r here) (inMore s there) (left r here) (right s there)
    · cases at_i

theorem eq_zero_of_every {L : Layout} (fits : v.Fits L) (every : v.Every fun a => ∃ k, a = .zero k) :
    v = L.zero := by
  obtain ⟨k, dims⟩ := L
  induction dims generalizing v with
  | nil =>
    obtain ⟨a, rfl, kind⟩ := Laid.exists_scalar fits
    obtain ⟨j, rfl⟩ := every
    obtain rfl : j = k := (Scalar.ty_zero j).symm.trans kind
    rfl
  | cons n dims ih =>
    obtain ⟨rows, rfl, count, inRows⟩ := Laid.exists_rows fits
    rw [every_array] at every
    refine congrArg array (List.eq_replicate_iff.mpr ⟨count, fun r mem => ?_⟩)
    exact ih (every r mem) (inRows r mem)

end Value

end Cotangent
