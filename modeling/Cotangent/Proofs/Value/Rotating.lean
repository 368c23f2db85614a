import Cotangent.Proofs.Value.Lens
/-!
Rotating. Each dimension with an offset is counted round on its own, and the rows of an inner dimension may
differ in length from one outer row to the next. Turning by one list of offsets and then by another is turning
once by their sums, because the inner offsets do not depend on the row: it makes no difference whether a row
is turned before or after it is moved.
-/
namespace Cotangent

namespace Value

variable {α : Type} {v w x : Value α} {offset a b : Int} {offsets first second : List Int}
variable {shape idx : List Nat} {i n : Nat}

/-- Where row `i` comes from when `n` rows are turned by an offset. -/
def turnedRow (offset : Int) (n i : Nat) : Nat := ((i + offset) % n).toNat

/-- Where the element at a position comes from, in arrays of the given extents. -/
def turned : List Int → List Nat → List Nat → List Nat
  | offset :: offsets, n :: shape, i :: idx => turnedRow offset n i :: turned offsets shape idx
  | _, _, idx => idx

/-! Positions. -/

theorem turnedRow_cast (offset : Int) (inside : i < n) :
    (turnedRow offset n i : Int) = (i + offset) % n := by
  have nonneg : 0 ≤ ((i : Int) + offset) % n := Int.emod_nonneg _ (by omega)
  unfold turnedRow
  omega

theorem turnedRow_lt (offset : Int) (inside : i < n) : turnedRow offset n i < n := by
  have below : ((i : Int) + offset) % n < n := Int.emod_lt_of_pos _ (by omega)
  have same := turnedRow_cast offset inside
  omega

theorem turnedRow_turnedRow (a b : Int) (inside : i < n) :
    turnedRow a n (turnedRow b n i) = turnedRow (a + b) n i := by
  have cast : ((turnedRow a n (turnedRow b n i) : Nat) : Int) = turnedRow (a + b) n i := by
    rw [turnedRow_cast a (turnedRow_lt b inside), turnedRow_cast b inside, turnedRow_cast _ inside,
      Int.emod_add_emod]
    congr 1
    omega
  exact Int.ofNat_inj.mp cast

theorem turnedRow_zero (inside : i < n) : turnedRow 0 n i = i := by
  have cast := turnedRow_cast 0 inside
  rw [Int.add_zero, Int.emod_eq_of_lt (by omega) (by omega)] at cast
  omega

/-- Every row goes somewhere. -/
theorem exists_turnedRow (offset : Int) (inside : i < n) : ∃ k < n, turnedRow offset n k = i := by
  refine ⟨turnedRow (-offset) n i, turnedRow_lt _ inside, ?_⟩
  rw [turnedRow_turnedRow _ _ inside, Int.add_right_neg, turnedRow_zero inside]

/-! One dimension. -/

theorem pick_turned {rows : List (Value α)} {row : Value α} (offset : Int) (inside : i < rows.length) :
    pick rows.toArray ((i + offset) % rows.toArray.size) = .ok row ↔
      rows[turnedRow offset rows.length i]? = some row := by
  rw [pick_ok_iff, List.size_toArray, ← turnedRow_cast offset inside]
  simp

theorem rotate_cons_ok_iff : rotate (offset :: offsets) v = .ok w ↔
    ∃ rows xs, v = .array rows ∧ w = .array xs ∧ xs.length = rows.length ∧
      ∀ (i : Nat) x, xs[i]? = some x → ∃ row,
        rows[turnedRow offset rows.length i]? = some row ∧ rotate offsets row = .ok x := by
  cases v with
  | array rows =>
    have turnedTo (i : Nat) (x : Value α) (inside : i < rows.length) :
        (do rotate offsets (← pick rows.toArray ((i + offset) % rows.toArray.size))) = .ok x ↔
          ∃ row, rows[turnedRow offset rows.length i]? = some row ∧ rotate offsets row = .ok x := by
      simp only [except_bind_ok, pick_turned offset inside]
    simp only [rotate, except_bind_ok, except_pure_ok, table_ok_iff, array.injEq]
    constructor
    · rintro ⟨table, rfl, xs, turnedInto, rfl⟩
      obtain ⟨count, each⟩ := tabulate_ok_iff.mp turnedInto
      rw [← Array.length_toList] at count
      refine ⟨table.toList, xs, rfl, rfl, count, ?_⟩
      intro i x here
      obtain ⟨inside, -⟩ := List.getElem?_eq_some_iff.mp here
      exact (turnedTo i x (by omega)).mp (each i x here)
    · rintro ⟨_, xs, rfl, rfl, count, each⟩
      refine ⟨rows.toArray, rfl, xs, tabulate_ok_iff.mpr ⟨count, ?_⟩, rfl⟩
      intro i x here
      obtain ⟨inside, -⟩ := List.getElem?_eq_some_iff.mp here
      exact (turnedTo i x (by omega)).mpr (each i x here)
  | scalar s => simp [rotate, table, rows, bind, Except.bind]
  | acc id arrays => simp [rotate, table, rows, bind, Except.bind]

/-! Success and failure. -/

/-- Only a value that is nested deep enough can be turned, and it stays so. -/
theorem deep_of_rotate (known : rotate offsets v = .ok w) :
    v.Deep offsets.length ∧ w.Deep offsets.length := by
  induction offsets generalizing v w with
  | nil => exact ⟨trivial, trivial⟩
  | cons offset offsets ih =>
    obtain ⟨rows, xs, rfl, rfl, count, each⟩ := rotate_cons_ok_iff.mp known
    constructor
    · intro row mem
      obtain ⟨i, inside, rfl⟩ := List.getElem_of_mem mem
      obtain ⟨k, below, rfl⟩ := exists_turnedRow offset inside
      obtain ⟨row, here, made⟩ := each k _ (List.getElem?_eq_getElem (by omega))
      rw [List.getElem?_eq_getElem inside] at here
      obtain rfl := Option.some.inj here
      exact (ih made).1
    · intro x mem
      obtain ⟨i, here⟩ := List.mem_iff_getElem?.mp mem
      obtain ⟨row, -, made⟩ := each i x here
      exact (ih made).2

theorem exists_rotate (deep : v.Deep offsets.length) : ∃ w, rotate offsets v = .ok w := by
  induction offsets generalizing v with
  | nil => exact ⟨v, rfl⟩
  | cons offset offsets ih =>
    cases v with
    | array rows =>
      have each (i : Nat) : ∃ x, i < rows.length → ∃ row,
          rows[turnedRow offset rows.length i]? = some row ∧ rotate offsets row = .ok x := by
        by_cases inside : i < rows.length
        · have source := turnedRow_lt offset inside
          obtain ⟨x, made⟩ := ih (deep _ (List.getElem_mem source))
          exact ⟨x, fun _ => ⟨_, List.getElem?_eq_getElem source, made⟩⟩
        · exact ⟨.array [], fun below => absurd below inside⟩
      choose f made using each
      refine ⟨.array ((List.range rows.length).map f),
        rotate_cons_ok_iff.mpr ⟨rows, _, rfl, rfl, by simp, ?_⟩⟩
      intro i x here
      obtain ⟨inside, rfl⟩ := List.getElem?_eq_some_iff.mp here
      rw [List.length_map, List.length_range] at inside
      simpa using made i inside
    | scalar s => exact deep.elim
    | acc id arrays => exact deep.elim

theorem exists_rotate_iff : (∃ w, rotate offsets v = .ok w) ↔ v.Deep offsets.length := by
  constructor
  · intro ⟨w, known⟩
    exact (deep_of_rotate known).1
  · exact exists_rotate

/-- Positions stay within the rows, so a rotation fails at a value without rows or not at all. -/
theorem rotate_fault {e : Fault α} (failed : rotate offsets v = .error e) :
    ∃ x : Value α, x.IsLeaf ∧ e = .mismatch .array x := by
  induction offsets generalizing v with
  | nil => cases failed
  | cons offset offsets ih =>
    cases v with
    | array rows =>
      rcases except_bind_error.mp failed with noTable | ⟨table, laidOut, failed⟩
      · cases noTable
      · obtain rfl := Except.ok.inj laidOut
        rcases except_bind_error.mp failed with failed | ⟨xs, -, built⟩
        · obtain ⟨i, mem, failed⟩ := except_mapM_error failed
          have inside : i < rows.length := by simpa using mem
          have picked := (pick_turned offset inside).mpr
            (List.getElem?_eq_getElem (turnedRow_lt offset inside))
          rw [picked] at failed
          exact ih failed
        · cases built
    | scalar s =>
      obtain rfl := Except.error.inj failed
      exact ⟨.scalar s, trivial, rfl⟩
    | acc id arrays =>
      obtain rfl := Except.error.inj failed
      exact ⟨.acc id arrays, trivial, rfl⟩

/-! The laws. -/

/-- By induction on the dimensions: the outer offsets move rows, the inner ones turn each row, wherever it
    has been moved. -/
theorem rotate_rotate (same : first.length = second.length) (once : rotate first v = .ok w)
    (again : rotate second w = .ok x) : rotate (List.zipWith (· + ·) first second) v = .ok x := by
  induction first generalizing second v w x with
  | nil =>
    obtain rfl := List.length_eq_zero_iff.mp same.symm
    obtain rfl := Except.ok.inj once
    exact again
  | cons a first ih =>
    obtain ⟨b, second, rfl⟩ := List.exists_cons_of_length_eq_add_one same.symm
    obtain ⟨rows, mids, rfl, rfl, count, inner⟩ := rotate_cons_ok_iff.mp once
    obtain ⟨_, xs, isRows, rfl, count', outer⟩ := rotate_cons_ok_iff.mp again
    obtain rfl := Value.array.inj isRows
    refine rotate_cons_ok_iff.mpr ⟨rows, xs, rfl, rfl, count'.trans count, ?_⟩
    intro i x here
    obtain ⟨inside, -⟩ := List.getElem?_eq_some_iff.mp here
    obtain ⟨mid, between, second'⟩ := outer i x here
    obtain ⟨row, source, first'⟩ := inner _ mid between
    rw [count, turnedRow_turnedRow a b (by omega)] at source
    exact ⟨row, source, ih (Nat.succ.inj same) first' second'⟩

theorem rotate_zeros {n : Nat} (deep : v.Deep n) : rotate (List.replicate n 0) v = .ok v := by
  induction n generalizing v with
  | zero => rfl
  | succ n ih =>
    cases v with
    | array rows =>
      refine rotate_cons_ok_iff.mpr ⟨rows, rows, rfl, rfl, rfl, ?_⟩
      intro i row here
      obtain ⟨inside, -⟩ := List.getElem?_eq_some_iff.mp here
      rw [turnedRow_zero inside]
      exact ⟨row, here, ih (deep row (List.mem_of_getElem? here))⟩
    | scalar s => exact deep.elim
    | acc id arrays => exact deep.elim

theorem add_opposites (offsets : List Int) :
    List.zipWith (· + ·) offsets (offsets.map fun offset => -offset) =
      List.replicate offsets.length 0 := by
  induction offsets with
  | nil => rfl
  | cons offset offsets ih =>
    rw [List.map_cons, List.zipWith_cons_cons, ih, Int.add_right_neg]
    rfl

/-- A rectangular value keeps its shape, and each element comes from the position turned round. -/
theorem Rectangular.rotate_ok (rect : v.Rectangular shape) (known : rotate offsets v = .ok w) :
    w.Rectangular shape ∧
      ∀ idx, Within idx shape → w.part idx = v.part (turned offsets shape idx) := by
  induction offsets generalizing v w shape with
  | nil =>
    obtain rfl := Except.ok.inj known
    exact ⟨rect, fun idx _ => by rw [turned]; simp⟩
  | cons offset offsets ih =>
    obtain ⟨rows, xs, rfl, rfl, count, each⟩ := rotate_cons_ok_iff.mp known
    cases shape with
    | nil => exact rect.elim
    | cons n shape =>
      obtain ⟨rfl, inRows⟩ := rect
      constructor
      · refine ⟨count, ?_⟩
        intro x mem
        obtain ⟨i, here⟩ := List.mem_iff_getElem?.mp mem
        obtain ⟨row, source, made⟩ := each i x here
        exact (ih (inRows row (List.mem_of_getElem? source)) made).1
      · intro idx within
        obtain ⟨i, rest, inside, within', rfl⟩ := within_cons.mp within
        have here : xs[i]? = some xs[i] := List.getElem?_eq_getElem (by omega)
        obtain ⟨row, source, made⟩ := each i _ here
        rw [part_cons here, turned, part_cons source]
        exact (ih (inRows row (List.mem_of_getElem? source)) made).2 rest within'

/-- Rotations compose by adding their offsets, and one fails where the other does: at a value that is not
    nested deep enough. Opposite offsets take a rotation back. In a rectangular value each element comes
    from the position that its offsets count round to. -/
theorem rotate_adds_offsets (v : Value α) (same : first.length = second.length) :
    (∀ x, (do rotate second (← rotate first v)) = .ok x ↔
      rotate (List.zipWith (· + ·) first second) v = .ok x) ∧
    ((∃ w, rotate first v = .ok w) ↔ v.Deep first.length) ∧
    (∀ e, rotate first v = .error e → ∃ x : Value α, x.IsLeaf ∧ e = .mismatch .array x) ∧
    ∀ w, rotate first v = .ok w → rotate (first.map fun offset => -offset) w = .ok v ∧
      ∀ shape, v.Rectangular shape → w.Rectangular shape ∧
        ∀ idx, Within idx shape → w.part idx = v.part (turned first shape idx) := by
  refine ⟨?_, exists_rotate_iff, fun e => rotate_fault, ?_⟩
  · intro x
    rw [except_bind_ok]
    constructor
    · intro ⟨w, once, again⟩
      exact rotate_rotate same once again
    · intro known
      have sums : (List.zipWith (· + ·) first second).length = first.length := by simp [same]
      have deep := (deep_of_rotate known).1
      rw [sums] at deep
      obtain ⟨w, once⟩ := exists_rotate deep
      obtain ⟨y, again⟩ := exists_rotate (same ▸ (deep_of_rotate once).2)
      have both := rotate_rotate same once again
      obtain rfl := Except.ok.inj (both.symm.trans known)
      exact ⟨w, once, again⟩
  · intro w known
    have deep := deep_of_rotate known
    have opposite : first.length = (first.map fun offset => -offset).length := by simp
    obtain ⟨u, back⟩ := exists_rotate (opposite ▸ deep.2)
    have both := rotate_rotate opposite known back
    rw [add_opposites, rotate_zeros deep.1] at both
    obtain rfl := Except.ok.inj both
    exact ⟨back, fun shape rect => rect.rotate_ok known⟩

/-- Rows of different lengths, one of them empty. -/
def raggedRows : Value :=
  let n := fun k => Value.scalar (.int .i64 k)
  .array [.array [n 1, n 2, n 3], .array [n 4], .array []]

def raggedRowsTurned : Value :=
  let n := fun k => Value.scalar (.int .i64 k)
  .array [.array [], .array [n 3, n 1, n 2], .array [n 4]]

/-- Offsets below zero and beyond the length. -/
theorem rotate_raggedRows :
    ([-1, 5] : List Int).length = [3, -4].length ∧ rotate [-1, 5] raggedRows = .ok raggedRowsTurned ∧
      (∃ x, (do rotate [3, -4] (← rotate [-1, 5] raggedRows)) = .ok x ∧
        rotate [2, 1] raggedRows = .ok x) ∧
      rotate [1, -5] raggedRowsTurned = .ok raggedRows := by
  have same : ([-1, 5] : List Int).length = [3, -4].length := rfl
  have once : rotate [-1, 5] raggedRows = .ok raggedRowsTurned := rfl
  obtain ⟨composed, -, -, back⟩ := rotate_adds_offsets raggedRows same
  have sums : rotate [2, 1] raggedRows = .ok _ := rfl
  exact ⟨same, once, ⟨_, (composed _).mpr sums, sums⟩, (back _ once).1⟩

end Value

end Cotangent
