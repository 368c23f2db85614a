import Mathlib.Tactic.Ring
import Cotangent.Proofs.Value.Rectangular
/-!
Reading and replacing parts. Under the same dimensions `index` reads the part that `update` replaces: what was
written is read back, to write back what was read changes nothing, the last of several replacements stands,
and nothing else moves. A slice is a walk of writes into one table of rows. With a stride other than zero it
comes to no row twice, so each write is still there at the end. A fixed position is a slice of one row.
-/
namespace Cotangent

variable {α : Type}

/-! Rows in a table. -/

section

variable {table table' : Array (Value α)} {i j : Int} {row new : Value α}

theorem pick_ok_iff : pick table i = .ok row ↔ 0 ≤ i ∧ table[i.toNat]? = some row := by
  unfold pick
  split
  · simp only [reduceCtorEq, false_iff]
    omega
  · split <;> simp_all

theorem pick_set (inside : pick table j = .ok row) :
    pick (table.setIfInBounds j.toNat new) j = .ok new := by
  obtain ⟨positive, here⟩ := pick_ok_iff.mp inside
  obtain ⟨below, -⟩ := Array.getElem?_eq_some_iff.mp here
  exact pick_ok_iff.mpr ⟨positive, by simp [below]⟩

theorem pick_set_ne (inside : pick table j = .ok row) (other : i ≠ j) :
    pick (table.setIfInBounds j.toNat new) i = pick table i := by
  obtain ⟨positive, -⟩ := pick_ok_iff.mp inside
  unfold pick
  split
  · rw [Array.size_setIfInBounds]
  · rw [Array.size_setIfInBounds, Array.getElem?_setIfInBounds_ne (by omega)]

/-- To write the row that is there changes nothing. -/
theorem set_pick (inside : pick table j = .ok row) : table.setIfInBounds j.toNat row = table := by
  obtain ⟨-, here⟩ := pick_ok_iff.mp inside
  obtain ⟨below, rfl⟩ := Array.getElem?_eq_some_iff.mp here
  simp [Array.setIfInBounds, below]

theorem pick_ext (size : table'.size = table.size) (same : ∀ i, pick table' i = pick table i) :
    table' = table := by
  refine Array.ext size fun k here there => ?_
  have found : pick table k = .ok table[k] := pick_ok_iff.mpr ⟨by omega, by simp [there]⟩
  have found' := (pick_ok_iff.mp ((same k).trans found)).2
  simpa [here] using found'

end

namespace Dim

/-- The positions that a dimension selects. -/
def Takes : Dim → Int → Prop
  | .fix i, j => j = i
  | .slice start len stride, j => ∃ k < len.toNat, j = start + k * stride

/-- The dimension comes to no position twice. -/
def Moves : Dim → Prop
  | .fix _ => True
  | .slice _ _ stride => stride ≠ 0

end Dim

namespace Value

variable {v w x y : Value α} {dims : List Dim} {start len stride i : Int}

/-- Arrays are nested at least so deep, along every path that does not end in an empty one before. -/
def Deep : Nat → Value α → Prop
  | 0, _ => True
  | n + 1, .array rows => ∀ r ∈ rows, r.Deep n
  | _ + 1, _ => False

/-- There is exactly one row for each position of a slice. -/
def Fills : List Dim → Value α → Prop
  | [], _ => True
  | .fix _ :: dims, x => x.Fills dims
  | .slice _ len _ :: dims, .array xs => xs.length = len.toNat ∧ ∀ x ∈ xs, x.Fills dims
  | .slice _ _ _ :: _, _ => False

/-- Some dimension does not select the position that the path has there. -/
def Misses : List Dim → List Nat → Prop
  | d :: dims, j :: path => ¬ d.Takes j ∨ Misses dims path
  | _, _ => False

/-- The number of rows of the array at fixed positions. -/
def lengthAt (v : Value α) (path : List Nat) : Except (Fault α) Nat := do
  return (← (← v.part path).rows).length

/-! The walk of writes. -/

section

variable {f : Value α → Value α → Except (Fault α) (Value α)} {n : Nat} {j : Int}
  {xs ys : List (Value α)} {table table' : Array (Value α)}

theorem later_position (j stride : Int) (k : Nat) :
    j + stride + k * stride = j + (k + 1 : Nat) * stride := by
  push_cast
  ring

theorem later_position_ne (moves : stride ≠ 0) (k : Nat) : j + stride + k * stride ≠ j := by
  rw [later_position]
  have apart : ((k + 1 : Nat) : Int) * stride ≠ 0 := Int.mul_ne_zero (by omega) moves
  omega

/-- Each visited row is replaced by what its own step makes of it, and no other row is. -/
theorem writeRows_ok (moves : stride ≠ 0) (known : writeRows f stride n j xs table = .ok table') :
    table'.size = table.size ∧
      (∀ k < n, ∃ row x row', pick table (j + k * stride) = .ok row ∧ xs[k]? = some x ∧
        f row x = .ok row' ∧ pick table' (j + k * stride) = .ok row') ∧
      ∀ i, (∀ k < n, i ≠ j + k * stride) → pick table' i = pick table i := by
  induction n generalizing j xs table with
  | zero =>
    obtain rfl := Except.ok.inj known
    exact ⟨rfl, by simp, fun _ _ => rfl⟩
  | succ n ih =>
    simp only [writeRows, except_bind_ok] at known
    obtain ⟨row, picked, known⟩ := known
    cases xs with
    | nil => cases known
    | cons x xs =>
      simp only [except_bind_ok] at known
      obtain ⟨row', made, known⟩ := known
      obtain ⟨size, visited, others⟩ := ih known
      refine ⟨by simpa using size, fun k below => ?_, fun i away => ?_⟩
      · cases k with
        | zero =>
          have still := others j fun k _ => (later_position_ne moves k).symm
          rw [pick_set picked] at still
          exact ⟨row, x, row', by simpa using picked, rfl, made, by simpa using still⟩
        | succ k =>
          obtain ⟨row₁, x₁, row₁', before, given, made₁, after⟩ := visited k (by omega)
          rw [pick_set_ne picked (later_position_ne moves k)] at before
          rw [later_position] at before after
          exact ⟨row₁, x₁, row₁', before, given, made₁, after⟩
      · have notHere : i ≠ j := by simpa using away 0 (by omega)
        rw [others i fun k below => by
          rw [later_position]
          exact away (k + 1) (by omega), pick_set_ne picked notHere]

/-- A walk that puts back every row it comes to, at whatever stride. -/
theorem writeRows_same (each : ∀ k < n, ∃ row x, pick table (j + k * stride) = .ok row ∧
    xs[k]? = some x ∧ f row x = .ok row) : writeRows f stride n j xs table = .ok table := by
  induction n generalizing j xs with
  | zero => rfl
  | succ n ih =>
    obtain ⟨row, x, picked, given, made⟩ := each 0 (by omega)
    replace picked : pick table j = .ok row := by simpa using picked
    obtain ⟨xs, rfl⟩ : ∃ xs', xs = x :: xs' := by
      cases xs with
      | nil => simp at given
      | cons x' xs => exact ⟨xs, by simpa using given⟩
    simp only [writeRows, except_bind_ok]
    refine ⟨row, picked, row, made, ?_⟩
    rw [set_pick picked]
    refine ih fun k below => ?_
    obtain ⟨row, x, picked, given, made⟩ := each (k + 1) (by omega)
    exact ⟨row, x, by rwa [later_position], by simpa using given, made⟩

/-- Tables may differ in rows that the walk comes to, if its steps do not see the difference. -/
theorem writeRows_congr (moves : stride ≠ 0) (size : table'.size = table.size)
    (visited : ∀ k < n, ∃ row row', pick table (j + k * stride) = .ok row ∧
      pick table' (j + k * stride) = .ok row' ∧ f row' = f row)
    (others : ∀ i, (∀ k < n, i ≠ j + k * stride) → pick table' i = pick table i) :
    writeRows f stride n j ys table' = writeRows f stride n j ys table := by
  induction n generalizing j ys table table' with
  | zero =>
    rw [pick_ext size fun i => others i (by simp)]
  | succ n ih =>
    obtain ⟨row, row', picked, picked', same⟩ := visited 0 (by omega)
    replace picked : pick table j = .ok row := by simpa using picked
    replace picked' : pick table' j = .ok row' := by simpa using picked'
    rw [writeRows, writeRows, picked, picked']
    cases ys with
    | nil => rfl
    | cons y ys =>
      show (f row' y >>= _) = (f row y >>= _)
      rw [same]
      refine congrArg (f row y >>= ·) (funext fun new => ih (by simpa using size) (fun k below => ?_)
        fun i away => ?_)
      · have other := later_position_ne (j := j) moves k
        obtain ⟨r, r', before, before', same⟩ := visited (k + 1) (by omega)
        rw [← later_position] at before before'
        exact ⟨r, r', by rwa [pick_set_ne picked other], by rwa [pick_set_ne picked' other], same⟩
      · by_cases here : i = j
        · rw [here, pick_set picked, pick_set picked']
        · rw [pick_set_ne picked here, pick_set_ne picked' here]
          refine others i fun k below => ?_
          cases k with
          | zero => simpa using here
          | succ k =>
            rw [← later_position]
            exact away k (by omega)

end

/-! One dimension. -/

theorem rows_ok_iff {rows : List (Value α)} : v.rows = .ok rows ↔ v = .array rows := by
  cases v <;> simp [Value.rows]

theorem table_ok_iff {table : Array (Value α)} : v.table = .ok table ↔ v = .array table.toList := by
  simp only [Value.table, except_bind_ok, except_pure_ok, rows_ok_iff]
  constructor
  · rintro ⟨rows, rfl, rfl⟩
    rfl
  · rintro rfl
    exact ⟨_, rfl, rfl⟩

theorem index_slice_ok_iff : v.index (.slice start len stride :: dims) = .ok x ↔
    ∃ xs, x = .array xs ∧ xs.length = len.toNat ∧ ∀ (k : Nat) y, xs[k]? = some y →
      ∃ table row, v.table = .ok table ∧ pick table (start + k * stride) = .ok row ∧
        row.index dims = .ok y := by
  simp only [index, except_bind_ok, except_pure_ok, tabulate_ok_iff]
  constructor
  · rintro ⟨xs, ⟨count, each⟩, rfl⟩
    refine ⟨xs, rfl, count, fun k y here => ?_⟩
    obtain ⟨table, laidOut, row, picked, read⟩ := each k y here
    exact ⟨table, row, laidOut, picked, read⟩
  · rintro ⟨xs, rfl, count, each⟩
    refine ⟨xs, ⟨count, fun k y here => ?_⟩, rfl⟩
    obtain ⟨table, row, laidOut, picked, read⟩ := each k y here
    exact ⟨table, laidOut, row, picked, read⟩

theorem update_slice_ok_iff : v.update (.slice start len stride :: dims) x = .ok w ↔
    ∃ table xs table', v = .array table.toList ∧ x = .array xs ∧
      writeRows (update dims) stride len.toNat start xs table = .ok table' ∧
      w = .array table'.toList := by
  simp only [update, except_bind_ok, except_pure_ok, table_ok_iff, rows_ok_iff]
  constructor
  · rintro ⟨table, isTable, xs, isRows, table', written, rfl⟩
    exact ⟨table, xs, table', isTable, isRows, written, rfl⟩
  · rintro ⟨table, xs, table', isTable, isRows, written, rfl⟩
    exact ⟨table, isTable, xs, isRows, table', written, rfl⟩

theorem index_fix_ok_iff : v.index (.fix i :: dims) = .ok x ↔
    v.index (.slice i 1 1 :: dims) = .ok (.array [x]) := by
  have readFix : v.index (.fix i :: dims) = .ok x ↔
      ∃ table row, v.table = .ok table ∧ pick table i = .ok row ∧ row.index dims = .ok x := by
    cases v <;> simp [index, Value.row, Value.rows, table, pick_toArray]
  rw [readFix, index_slice_ok_iff]
  constructor
  · rintro ⟨table, row, laidOut, picked, read⟩
    refine ⟨[x], rfl, rfl, fun k y here => ?_⟩
    obtain ⟨rfl, rfl⟩ : k = 0 ∧ x = y := by simpa [List.getElem?_singleton] using here
    exact ⟨table, row, laidOut, by simpa using picked, read⟩
  · rintro ⟨xs, isRows, -, each⟩
    obtain rfl := Value.array.inj isRows
    obtain ⟨table, row, laidOut, picked, read⟩ := each 0 x rfl
    exact ⟨table, row, laidOut, by simpa using picked, read⟩

theorem update_fix (v x : Value α) :
    v.update (.fix i :: dims) x = v.update (.slice i 1 1 :: dims) (.array [x]) := by
  cases v with
  | array rows =>
    simp only [update, Value.rows, table, bind, Except.bind, pure, Except.pure]
    show _ = Except.bind (writeRows _ _ 1 _ _ _) _
    rw [writeRows, pick_toArray]
    cases pickRow rows i with
    | error e => rfl
    | ok row => cases here : row.update dims x <;> simp [here, writeRows, bind, Except.bind]
  | scalar a => rfl
  | acc id arrays => rfl

theorem takes_fix {j : Int} : (Dim.fix i).Takes j ↔ (Dim.slice i 1 1).Takes j := by
  simp [Dim.Takes]

/-- An update keeps the number of rows. It replaces a part of each row that its first dimension selects, and
    leaves the other rows as they are. -/
theorem update_cons_ok {d : Dim} (moves : d.Moves) (known : v.update (d :: dims) x = .ok w) :
    ∃ table table', v = .array table.toList ∧ w = .array table'.toList ∧ table'.size = table.size ∧
      ∀ j, (¬ d.Takes j ∧ pick table' j = pick table j) ∨
        d.Takes j ∧ ∃ row y row', pick table j = .ok row ∧ row.update dims y = .ok row' ∧
          pick table' j = .ok row' := by
  have onSlice {start len stride : Int} {x : Value α} (moves : stride ≠ 0)
      (known : v.update (.slice start len stride :: dims) x = .ok w) :
      ∃ table table', v = .array table.toList ∧ w = .array table'.toList ∧ table'.size = table.size ∧
        ∀ j, (¬ (Dim.slice start len stride).Takes j ∧ pick table' j = pick table j) ∨
          (Dim.slice start len stride).Takes j ∧ ∃ row y row', pick table j = .ok row ∧
            row.update dims y = .ok row' ∧ pick table' j = .ok row' := by
    obtain ⟨table, xs, table', rfl, rfl, written, rfl⟩ := update_slice_ok_iff.mp known
    obtain ⟨size, visited, others⟩ := writeRows_ok moves written
    refine ⟨table, table', rfl, rfl, size, fun j => ?_⟩
    by_cases taken : (Dim.slice start len stride).Takes j
    · obtain ⟨k, below, rfl⟩ := taken
      obtain ⟨row, y, row', before, -, made, after⟩ := visited k below
      exact .inr ⟨⟨k, below, rfl⟩, row, y, row', before, made, after⟩
    · exact .inl ⟨taken, others j fun k below same => taken ⟨k, below, same⟩⟩
  cases d with
  | fix i =>
    rw [update_fix] at known
    simpa only [takes_fix] using onSlice (by decide) known
  | slice start len stride => exact onSlice moves known

/-! The laws. -/

/-- To write back what was read changes nothing. -/
theorem update_index (deep : v.Deep dims.length) (known : v.index dims = .ok x) :
    v.update dims x = .ok v := by
  induction dims generalizing v x with
  | nil =>
    obtain rfl := Except.ok.inj known
    rfl
  | cons d dims ih =>
    have onSlice {start len stride : Int} {x : Value α}
        (known : v.index (.slice start len stride :: dims) = .ok x) :
        v.update (.slice start len stride :: dims) x = .ok v := by
      obtain ⟨rows, rfl, inRows⟩ : ∃ rows, v = .array rows ∧ ∀ r ∈ rows, r.Deep dims.length := by
        cases v with
        | array rows => exact ⟨rows, rfl, deep⟩
        | scalar a => exact deep.elim
        | acc id arrays => exact deep.elim
      obtain ⟨xs, rfl, count, each⟩ := index_slice_ok_iff.mp known
      refine update_slice_ok_iff.mpr ⟨rows.toArray, xs, rows.toArray, rfl, rfl,
        writeRows_same fun k below => ?_, rfl⟩
      obtain ⟨table, row, laidOut, picked, read⟩ :=
        each k _ (List.getElem?_eq_getElem (count ▸ below))
      obtain rfl : table = rows.toArray := (Except.ok.inj laidOut).symm
      have inside := inRows row (by
        have here := (pick_ok_iff.mp picked).2
        exact List.mem_of_getElem? (by simpa using here))
      exact ⟨row, _, picked, List.getElem?_eq_getElem _, ih inside read⟩
    cases d with
    | fix i =>
      rw [update_fix]
      exact onSlice (index_fix_ok_iff.mp known)
    | slice start len stride => exact onSlice known

/-- What was written is read back. -/
theorem index_update (moves : ∀ d ∈ dims, d.Moves) (fills : x.Fills dims)
    (known : v.update dims x = .ok w) : w.index dims = .ok x := by
  induction dims generalizing v x w with
  | nil =>
    obtain rfl := Except.ok.inj known
    rfl
  | cons d dims ih =>
    obtain ⟨here, later⟩ := List.forall_mem_cons.mp moves
    have onSlice {start len stride : Int} {xs : List (Value α)} (moves : stride ≠ 0)
        (count : xs.length = len.toNat) (fills : ∀ x ∈ xs, x.Fills dims)
        (known : v.update (.slice start len stride :: dims) (.array xs) = .ok w) :
        w.index (.slice start len stride :: dims) = .ok (.array xs) := by
      obtain ⟨table, _, table', rfl, isRows, written, rfl⟩ := update_slice_ok_iff.mp known
      obtain rfl := Value.array.inj isRows
      obtain ⟨-, visited, -⟩ := writeRows_ok moves written
      refine index_slice_ok_iff.mpr ⟨xs, rfl, count, fun k y given => ?_⟩
      obtain ⟨inside, -⟩ := List.getElem?_eq_some_iff.mp given
      obtain ⟨row, y', row', -, given', made, after⟩ := visited k (count ▸ inside)
      obtain rfl : y = y' := Option.some.inj (given.symm.trans given')
      exact ⟨table', row', rfl, after, ih later (fills y (List.mem_of_getElem? given)) made⟩
    cases d with
    | fix i =>
      rw [update_fix] at known
      exact index_fix_ok_iff.mpr (onSlice (by decide) rfl (List.forall_mem_singleton.mpr fills) known)
    | slice start len stride =>
      cases x with
      | array xs => exact onSlice here fills.1 fills.2 known
      | scalar a => exact fills.elim
      | acc id arrays => exact fills.elim

/-- The last replacement stands. -/
theorem update_update (moves : ∀ d ∈ dims, d.Moves) (known : v.update dims x = .ok w) (y : Value α) :
    w.update dims y = v.update dims y := by
  induction dims generalizing v x w y with
  | nil => rfl
  | cons d dims ih =>
    obtain ⟨here, later⟩ := List.forall_mem_cons.mp moves
    have onSlice {start len stride : Int} {x : Value α} (moves : stride ≠ 0)
        (known : v.update (.slice start len stride :: dims) x = .ok w) (y : Value α) :
        w.update (.slice start len stride :: dims) y =
          v.update (.slice start len stride :: dims) y := by
      obtain ⟨table, xs, table', rfl, rfl, written, rfl⟩ := update_slice_ok_iff.mp known
      obtain ⟨size, visited, others⟩ := writeRows_ok moves written
      have same (ys : List (Value α)) :
          writeRows (update dims) stride len.toNat start ys table' =
            writeRows (update dims) stride len.toNat start ys table := by
        refine writeRows_congr moves size (fun k below => ?_) others
        obtain ⟨row, x, row', before, -, made, after⟩ := visited k below
        exact ⟨row, row', before, after, funext fun y => ih later made y⟩
      simp only [update, Value.table, Value.rows, bind, Except.bind, pure, Except.pure, same]
    cases d with
    | fix i =>
      rw [update_fix] at known
      rw [update_fix, update_fix]
      exact onSlice (by decide) known _
    | slice start len stride => exact onSlice here known y

theorem part_cons_table {table : Array (Value α)} {j : Nat} {path : List Nat} :
    (Value.array table.toList).part (j :: path) = (pick table j >>= fun row => row.part path) := by
  simp [part, index, Value.row, Value.rows, ← pick_toArray, bind, Except.bind]

theorem lengthAt_cons_table {table : Array (Value α)} {j : Nat} {path : List Nat} :
    (Value.array table.toList).lengthAt (j :: path) =
      (pick table j >>= fun row => row.lengthAt path) := by
  rw [lengthAt, part_cons_table]
  cases pick table j <;> rfl

/-- Elements to which the dimensions do not lead stay as they are. -/
theorem part_update {path : List Nat} (moves : ∀ d ∈ dims, d.Moves)
    (known : v.update dims x = .ok w) (misses : Misses dims path) : w.part path = v.part path := by
  induction dims generalizing v x w path with
  | nil => exact misses.elim
  | cons d dims ih =>
    obtain ⟨here, later⟩ := List.forall_mem_cons.mp moves
    obtain ⟨table, table', rfl, rfl, -, rows⟩ := update_cons_ok here known
    cases path with
    | nil => exact misses.elim
    | cons j path =>
      rw [part_cons_table, part_cons_table]
      obtain ⟨-, same⟩ | ⟨taken, row, y, row', before, made, after⟩ := rows j
      · rw [same]
      · rw [before, after]
        exact ih later made (misses.resolve_left (not_not_intro taken))

/-- On the way to the replaced part the arrays keep their lengths. -/
theorem lengthAt_update {path : List Nat} (moves : ∀ d ∈ dims, d.Moves)
    (known : v.update dims x = .ok w) (above : path.length < dims.length) :
    w.lengthAt path = v.lengthAt path := by
  induction dims generalizing v x w path with
  | nil => cases above
  | cons d dims ih =>
    obtain ⟨here, later⟩ := List.forall_mem_cons.mp moves
    obtain ⟨table, table', rfl, rfl, size, rows⟩ := update_cons_ok here known
    cases path with
    | nil => exact congrArg Except.ok size
    | cons j path =>
      rw [lengthAt_cons_table, lengthAt_cons_table]
      obtain ⟨-, same⟩ | ⟨-, row, y, row', before, made, after⟩ := rows j
      · rw [same]
      · rw [before, after]
        exact ih later made (Nat.lt_of_succ_lt_succ above)

/-- Reading and replacing form a lens. To write back what was read changes nothing, whatever the strides. With
    strides other than zero a replacement of the right size is read back, the last of several stands, and
    the other elements stay, with the lengths of all arrays around them. -/
theorem index_update_lens (deep : v.Deep dims.length) :
    (∀ x, v.index dims = .ok x → v.update dims x = .ok v) ∧
      ((∀ d ∈ dims, d.Moves) → ∀ x w, x.Fills dims → v.update dims x = .ok w →
        w.index dims = .ok x ∧ (∀ y, w.update dims y = v.update dims y) ∧
        (∀ path, Misses dims path → w.part path = v.part path) ∧
        ∀ path, path.length < dims.length ∨ Misses dims path → w.lengthAt path = v.lengthAt path) := by
  refine ⟨fun x read => update_index deep read, fun moves x w fills written => ?_⟩
  refine ⟨index_update moves fills written, update_update moves written,
    fun path misses => part_update moves written misses, fun path place => ?_⟩
  rcases place with above | misses
  · exact lengthAt_update moves written above
  · rw [lengthAt, lengthAt, part_update moves written misses]

/-- Rows of different lengths, visited from the last to the first, every other one. -/
theorem index_update_raggedRows :
    let n := fun k => Value.scalar (.int .i64 k)
    let v : Value := .array [.array [n 1, n 2, n 3], .array [n 4], .array [n 5, n 6]]
    let w : Value := .array [.array [n 8, n 2, n 3], .array [n 4], .array [n 7, n 6]]
    let dims : List Dim := [.slice 2 2 (-2), .fix 0]
    v.Deep 2 ∧ v.update dims (.array [n 5, n 1]) = .ok v ∧
      v.update dims (.array [n 7, n 8]) = .ok w ∧ w.index dims = .ok (.array [n 7, n 8]) ∧
      w.part [0, 1] = v.part [0, 1] ∧ w.lengthAt [0] = v.lengthAt [0] := by
  intro n v w dims
  have deep : v.Deep dims.length := by simp [v, dims, Deep]
  have moves : ∀ d ∈ dims, d.Moves := by simp [dims, Dim.Moves]
  have written : v.update dims (.array [n 7, n 8]) = .ok w := rfl
  have fills : (Value.array [n 7, n 8]).Fills dims := by simp [dims, Fills]
  obtain ⟨same, replaced⟩ := index_update_lens deep
  obtain ⟨read, -, others, lengths⟩ := replaced moves _ w fills written
  have missed : Misses dims [0, 1] := by simp [dims, Misses, Dim.Takes]
  exact ⟨deep, same _ rfl, written, read, others _ missed, lengths _ (.inl (by decide))⟩

end Value

end Cotangent
