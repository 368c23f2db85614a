import Cotangent.Value.Fault
/-!
Operations on nested arrays. Each works down the dimensions of its argument, one list entry to a
dimension; where the entries end, the rest of the value is taken as it is. Rows are visited in order
and the first fault is the one reported. An operation that reads many rows of one value first lays
them out in a table; `pick_toArray` says that this changes nothing.
-/
namespace Cotangent

variable {α : Type}

/-- The results of `f 0`, `f 1`, and so on, `n` in all. -/
def tabulate {β : Type} (f : Nat → Except (Fault α) β) (n : Nat) : Except (Fault α) (List β) :=
  (List.range n).mapM f

/-- One dimension of an index with its operands evaluated. -/
inductive Dim where
  | fix (i : Int)
  | slice (start len stride : Int)
  deriving DecidableEq, Repr

/-- The row at a position, which must lie within the table. -/
def pick (table : Array (Value α)) (i : Int) : Except (Fault α) (Value α) :=
  if i < 0 then .error (.outOfBounds i table.size)
  else match table[i.toNat]? with
    | some row => .ok row
    | none => .error (.outOfBounds i table.size)

/-- Like `pick`, straight from a list. -/
def pickRow (rows : List (Value α)) (i : Int) : Except (Fault α) (Value α) :=
  if i < 0 then .error (.outOfBounds i rows.length)
  else match rows[i.toNat]? with
    | some row => .ok row
    | none => .error (.outOfBounds i rows.length)

theorem pick_toArray (rows : List (Value α)) (i : Int) : pick rows.toArray i = pickRow rows i := by
  simp [pick, pickRow]

namespace Value

def row (v : Value α) (i : Int) : Except (Fault α) (Value α) := do pickRow (← v.rows) i

/-- The rows of an array, laid out for access in any order. -/
def table (v : Value α) : Except (Fault α) (Array (Value α)) := do return (← v.rows).toArray

/-- The part of a value that `dims` selects. A slice of no positions is empty whatever the value. -/
def index : List Dim → Value α → Except (Fault α) (Value α)
  | [], v => .ok v
  | .fix i :: dims, v => do index dims (← v.row i)
  | .slice start len stride :: dims, v => do
    let table := v.table
    let rows ← tabulate (fun k => do index dims (← pick (← table) (start + k * stride))) len.toNat
    return .array rows

/-- Puts `f row x` for the next of `xs` at position `j`, then at `j + stride`, and so on. -/
def writeRows (f : Value α → Value α → Except (Fault α) (Value α)) (stride : Int) :
    Nat → Int → List (Value α) → Array (Value α) → Except (Fault α) (Array (Value α))
  | 0, _, _, table => .ok table
  | n + 1, j, xs, table => do
    let row ← pick table j
    match xs with
    | [] => .error .shape
    | x :: xs =>
      let row ← f row x
      writeRows f stride n (j + stride) xs (table.setIfInBounds j.toNat row)

/-- The second value with the part that `dims` selects replaced by the third. Rows of the replacement
    beyond the selected positions are ignored. -/
def update : List Dim → Value α → Value α → Except (Fault α) (Value α)
  | [], _, x => .ok x
  | .fix i :: dims, v, x => do
    let rows ← v.rows
    let row ← pickRow rows i
    let row ← update dims row x
    return .array (rows.set i.toNat row)
  | .slice start len stride :: dims, v, x => do
    let table ← v.table
    let xs ← x.rows
    let table ← writeRows (update dims) stride len.toNat start xs table
    return .array table.toList

mutual

/-- The number of rows in each dimension, read off the first rows. -/
def extents : Value α → List Nat
  | .array rows => rows.length :: firstExtents rows
  | _ => []

def firstExtents : List (Value α) → List Nat
  | [] => []
  | v :: _ => extents v

end

mutual

/-- What is left of a value without its arrays, in row-major order. -/
def leaves : Value α → List (Value α)
  | .array rows => rowLeaves rows
  | v => [v]

def rowLeaves : List (Value α) → List (Value α)
  | [] => []
  | v :: vs => leaves v ++ rowLeaves vs

end

/-- `n` rows made one after the other, each from what the one before left over. -/
def fillRows (fill : List (Value α) → Except (Fault α) (Value α × List (Value α))) :
    Nat → List (Value α) → Except (Fault α) (List (Value α) × List (Value α))
  | 0, xs => .ok ([], xs)
  | n + 1, xs => do
    let (row, xs) ← fill xs
    let (rows, xs) ← fillRows fill n xs
    return (row :: rows, xs)

/-- A value of the given shape from the front of a list of leaves, and the leaves left over. -/
def fill : List Nat → List (Value α) → Except (Fault α) (Value α × List (Value α))
  | [], [] => .error .shape
  | [], x :: xs => .ok (x, xs)
  | n :: shape, xs => do
    let (rows, xs) ← fillRows (fill shape) n xs
    return (.array rows, xs)

def volume : List Nat → Nat
  | [] => 1
  | n :: shape => n * volume shape

/-- The same leaves in another shape, which has to hold exactly that many. -/
def reshape (v : Value α) (shape : List Nat) : Except (Fault α) (Value α) := do
  if v.leaves.length ≠ volume shape then throw .shape
  let (w, _) ← fill shape v.leaves
  return w

def replicate : List Nat → Value α → Value α
  | [], v => v
  | n :: shape, v => .array (List.replicate n (replicate shape v))

/-- The position in the source of the element at `idx`: dimension `k` of the result runs along
    dimension `perm[k]` of the source. -/
def sourceIndex : List Nat → List Nat → List Nat → Except (Fault α) (List Nat)
  | i :: idx, p :: perm, source =>
    if p < source.length then sourceIndex idx perm (source.set p i) else .error .shape
  | _, _, source => .ok source

/-- The part of a value at fixed positions, where its outermost rows are laid out in a table. -/
def element (v : Value α) (table : Except (Fault α) (Array (Value α))) :
    List Nat → Except (Fault α) (Value α)
  | [] => .ok v
  | i :: rest => do index (rest.map fun j : Nat => .fix j) (← pick (← table) i)

theorem element_table (v : Value α) (positions : List Nat) :
    v.element v.table positions = index (positions.map fun i : Nat => .fix i) v := by
  match positions with
  | [] => rfl
  | i :: rest =>
    cases v <;> simp [element, table, index, row, rows, pick_toArray, bind, Except.bind, pure,
      Except.pure]

/-- The elements whose first indices are `idx`, over the extents that are left. -/
def gather (element : List Nat → Except (Fault α) (Value α)) (perm : List Nat) :
    List Nat → List Nat → Except (Fault α) (Value α)
  | idx, [] => do element (← sourceIndex idx perm (List.replicate idx.length 0))
  | idx, n :: rest => do
    let rows ← tabulate (fun k => gather element perm (idx ++ [k]) rest) n
    return .array rows

/-- The dimensions of a value in another order. -/
def rearrange (v : Value α) (perm : List Nat) : Except (Fault α) (Value α) := do
  let source := v.extents
  let shape ← perm.mapM fun p =>
    match source[p]? with
    | some n => .ok n
    | none => .error .shape
  gather (v.element v.table) perm [] shape

/-- Row `i` of the result is row `i + offset` of the value, counted round, in each dimension that has
    an offset. -/
def rotate : List Int → Value α → Except (Fault α) (Value α)
  | [], v => .ok v
  | offset :: offsets, v => do
    let table ← v.table
    let n := table.size
    let rows ← tabulate (fun i => do rotate offsets (← pick table ((i + offset) % n))) n
    return .array rows

/-- Joins arrays along a dimension. In the dimensions before it the first array gives the extent. -/
def concat : Nat → List (Value α) → Except (Fault α) (Value α)
  | 0, arrays => do
    let rows ← arrays.mapM rows
    return .array rows.flatten
  | _ + 1, [] => .error .shape
  | dim + 1, a :: arrays => do
    let n := (← a.rows).length
    let tables := (a :: arrays).map table
    let rows ← tabulate (fun i => do concat dim (← tables.mapM fun t => do pick (← t) i)) n
    return .array rows

end Value

end Cotangent
