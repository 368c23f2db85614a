import Mathlib.Algebra.Order.BigOperators.Group.List
import Cotangent.Proofs.Evaluation.DirectArrays
import Cotangent.Proofs.Value.Lens
/-!
Joining arrays along a dimension. In the dimensions before it the pieces have the same extents, and rows that
stand at the same position are joined with one another; there the rows of all pieces follow each other. So a
piece is read back by a slice that starts where the pieces before it end, and neighbours may be joined first.
-/
namespace Cotangent

namespace Value

variable {α : Type} {v w x a : Value α} {arrays front middle back : List (Value α)}
variable {before after ns : List Nat} {d i k n : Nat}

/-- Arrays with the given extents in the dimensions before some dimension, and with rows in that one. -/
def Framed : List Nat → Value α → Prop
  | [], .array _ => True
  | n :: before, .array rows => rows.length = n ∧ ∀ r ∈ rows, r.Framed before
  | _, _ => False

/-- Rectangular arrays of the extents `ns` in one dimension, and alike in those before and after it. -/
def Pieces (before after : List Nat) (arrays : List (Value α)) (ns : List Nat) : Prop :=
  List.Forall₂ (fun a n => a.Rectangular (before ++ n :: after)) arrays ns

/-- The positions from `start` on, `n` in all, behind everything that the dimensions before have. -/
def window (before : List Nat) (start n : Nat) : List Dim :=
  before.map (fun m : Nat => .slice 0 m 1) ++ [.slice start n 1]

theorem Framed.exists_rows (framed : v.Framed (n :: before)) :
    ∃ rows, v = .array rows ∧ rows.length = n ∧ ∀ r ∈ rows, r.Framed before := by
  cases v with
  | array rows => exact ⟨rows, rfl, framed⟩
  | scalar s => exact framed.elim
  | acc id arrays => exact framed.elim

theorem Rectangular.framed (rect : v.Rectangular (before ++ n :: after)) : v.Framed before := by
  induction before generalizing v with
  | nil =>
    obtain ⟨rows, rfl, -, -⟩ := Rectangular.exists_rows rect
    trivial
  | cons m before ih =>
    obtain ⟨rows, rfl, count, inRows⟩ := Rectangular.exists_rows rect
    exact ⟨count, fun r mem => ih (inRows r mem)⟩

theorem Pieces.framed (pieces : Pieces before after arrays ns) : ∀ a ∈ arrays, a.Framed before := by
  induction pieces with
  | nil => simp
  | cons rect _ ih => exact List.forall_mem_cons.mpr ⟨rect.framed, ih⟩

/-! One dimension. -/

theorem exists_parts (framed : ∀ a ∈ arrays, a.Framed []) :
    ∃ parts : List (List (Value α)), arrays = parts.map .array := by
  induction arrays with
  | nil => exact ⟨[], rfl⟩
  | cons a arrays ih =>
    obtain ⟨here, later⟩ := List.forall_mem_cons.mp framed
    obtain ⟨parts, rfl⟩ := ih later
    cases a with
    | array rows => exact ⟨rows :: parts, rfl⟩
    | scalar s => exact here.elim
    | acc id arrays => exact here.elim

theorem concat_parts (parts : List (List (Value α))) :
    concat 0 (parts.map .array) = .ok (.array parts.flatten) := by
  have walked : (parts.map Value.array).mapM Value.rows = .ok parts := by
    rw [except_mapM_iff, List.forall₂_map_left_iff]
    exact List.forall₂_same.mpr fun _ _ => rfl
  simp only [concat, walked, except_bind_ok, except_pure_ok]
  exact ⟨parts, rfl, rfl⟩

theorem pick_nat {rows : List (Value α)} : pick rows.toArray k = .ok x ↔ rows[k]? = some x := by
  simp [pick_ok_iff]

theorem row_ok_iff {rows : List (Value α)} : (Value.array rows).row k = .ok x ↔ rows[k]? = some x := by
  rw [← pick_nat, pick_toArray]
  rfl

/-- The rows at one position of all arrays. -/
theorem exists_section (framed : ∀ a ∈ arrays, a.Framed (n :: before)) (inside : k < n) :
    ∃ rows, arrays.mapM (fun a => a.row k) = .ok rows ∧ ∀ r ∈ rows, r.Framed before := by
  induction arrays with
  | nil => exact ⟨[], rfl, by simp⟩
  | cons a arrays ih =>
    obtain ⟨here, later⟩ := List.forall_mem_cons.mp framed
    obtain ⟨rows, walked, inner⟩ := ih later
    obtain ⟨own, rfl, rfl, inOwn⟩ := here.exists_rows
    have taken : (Value.array own).row k = .ok own[k] :=
      row_ok_iff.mpr (List.getElem?_eq_getElem inside)
    refine ⟨own[k] :: rows, ?_, List.forall_mem_cons.mpr ⟨inOwn _ (List.getElem_mem inside), inner⟩⟩
    simp only [List.mapM_cons, taken, walked, except_bind_ok, except_pure_ok]
    exact ⟨_, rfl, _, rfl, rfl⟩

/-- Below the outermost dimension each row of the result is joined from the rows at its position. -/
theorem concat_succ_ok_iff (framed : ∀ a ∈ arrays, a.Framed (n :: before)) (nonempty : arrays ≠ []) :
    concat (d + 1) arrays = .ok w ↔ ∃ xs, w = .array xs ∧ xs.length = n ∧
      ∀ (k : Nat) x, xs[k]? = some x →
        ∃ rows, arrays.mapM (fun a => a.row k) = .ok rows ∧ concat d rows = .ok x := by
  cases arrays with
  | nil => exact absurd rfl nonempty
  | cons a arrays =>
    obtain ⟨here, -⟩ := List.forall_mem_cons.mp framed
    obtain ⟨own, rfl, rfl, -⟩ := here.exists_rows
    have direct : Direct.concat .shape (d + 1) (.array own :: arrays) = _ := Direct.concat_eq _ _
    simp only [Direct.concat, Direct.row_eq, Direct.concat_eq] at direct
    rw [← direct]
    simp only [except_bind_ok, except_pure_ok, tabulate_ok_iff, rows_ok_iff, array.injEq]
    constructor
    · rintro ⟨_, rfl, xs, ⟨count, each⟩, rfl⟩
      exact ⟨xs, rfl, count, each⟩
    · rintro ⟨xs, rfl, count, each⟩
      exact ⟨own, rfl, xs, ⟨count, each⟩, rfl⟩

theorem section_ne_nil {rows : List (Value α)} (nonempty : arrays ≠ [])
    (walked : arrays.mapM (fun a => a.row k) = .ok rows) : rows ≠ [] := by
  intro none
  have count := (except_mapM_iff.mp walked).length_eq
  rw [none, List.length_nil] at count
  exact nonempty (List.length_eq_zero_iff.mp count)

/-- What one of the arrays contributes. -/
theorem section_at {rows own : List (Value α)} (walked : arrays.mapM (fun a => a.row k) = .ok rows)
    (piece : arrays[i]? = some (.array own)) (here : own[k]? = some x) : rows[i]? = some x := by
  obtain ⟨inArrays, isPiece⟩ := List.getElem?_eq_some_iff.mp piece
  obtain ⟨count, entry⟩ := List.forall₂_iff_get.mp (except_mapM_iff.mp walked)
  have inRows : i < rows.length := by omega
  have taken := entry i inArrays inRows
  rw [List.get_eq_getElem, List.get_eq_getElem, isPiece, row_ok_iff] at taken
  rw [List.getElem?_eq_getElem inRows]
  exact taken.symm.trans here

/-! Success. -/

theorem exists_concat (framed : ∀ a ∈ arrays, a.Framed before) (nonempty : arrays ≠ []) :
    ∃ w, concat before.length arrays = .ok w ∧ w.Framed before := by
  induction before generalizing arrays with
  | nil =>
    obtain ⟨parts, rfl⟩ := exists_parts framed
    exact ⟨_, concat_parts parts, trivial⟩
  | cons n before ih =>
    have each (k : Nat) : ∃ x : Value α, k < n → x.Framed before ∧
        ∃ rows, arrays.mapM (fun a => a.row k) = .ok rows ∧ concat before.length rows = .ok x := by
      by_cases inside : k < n
      · obtain ⟨rows, walked, inner⟩ := exists_section framed inside
        obtain ⟨x, joined, framed⟩ := ih inner (section_ne_nil nonempty walked)
        exact ⟨x, fun _ => ⟨framed, rows, walked, joined⟩⟩
      · exact ⟨.array [], fun below => absurd below inside⟩
    choose f known using each
    refine ⟨.array ((List.range n).map f), (concat_succ_ok_iff framed nonempty).mpr
      ⟨_, rfl, by simp, ?_⟩, by simp, ?_⟩
    · intro k x here
      obtain ⟨inside, rfl⟩ := List.getElem?_eq_some_iff.mp here
      rw [List.length_map, List.length_range] at inside
      simpa using (known k inside).2
    · intro x mem
      obtain ⟨k, isRow, rfl⟩ := List.mem_map.mp mem
      exact (known k (List.mem_range.mp isRow)).1

theorem framed_of_concat (framed : ∀ a ∈ arrays, a.Framed before) (nonempty : arrays ≠ [])
    (known : concat before.length arrays = .ok w) : w.Framed before := by
  obtain ⟨x, joined, inner⟩ := exists_concat framed nonempty
  obtain rfl := Except.ok.inj (joined.symm.trans known)
  exact inner

/-! Neighbours that are joined first. -/

theorem mapM_append_ok_iff {β γ : Type} {f : β → Except (Fault α) γ} {xs ys : List β} {zs : List γ} :
    (xs ++ ys).mapM f = .ok zs ↔
      ∃ as bs, xs.mapM f = .ok as ∧ ys.mapM f = .ok bs ∧ zs = as ++ bs := by
  simp only [List.mapM_append, except_bind_ok, except_pure_ok]
  constructor
  · rintro ⟨as, left, bs, right, rfl⟩
    exact ⟨as, bs, left, right, rfl⟩
  · rintro ⟨as, bs, left, right, rfl⟩
    exact ⟨as, left, bs, right, rfl⟩

/-- By induction on the dimensions before: at each position the rows of the neighbours are neighbours. -/
theorem concat_concat (framed : ∀ b ∈ front ++ middle ++ back, b.Framed before)
    (nonempty : middle ≠ []) (inner : concat before.length middle = .ok a)
    (whole : concat before.length (front ++ middle ++ back) = .ok w) :
    concat before.length (front ++ a :: back) = .ok w := by
  induction before generalizing front middle back a w with
  | nil =>
    obtain ⟨parts, same⟩ := exists_parts framed
    obtain ⟨rest, backs, rfl, split, rfl⟩ := List.append_eq_map_iff.mp same
    obtain ⟨fronts, middles, rfl, rfl, rfl⟩ := List.append_eq_map_iff.mp split.symm
    obtain rfl := Except.ok.inj ((concat_parts middles).symm.trans inner)
    have joined := concat_parts (fronts ++ middles.flatten :: backs)
    rw [List.map_append, List.map_cons] at joined
    rw [← List.map_append, ← List.map_append] at whole
    refine joined.trans ((congrArg _ ?_).trans ((concat_parts _).symm.trans whole))
    simp
  | cons n before ih =>
    have inMiddle : ∀ b ∈ middle, b.Framed (n :: before) := by
      intro b mem
      exact framed b (by simp [mem])
    have inAll : ∀ b ∈ front ++ a :: back, b.Framed (n :: before) := by
      have joined := framed_of_concat inMiddle nonempty inner
      intro b mem
      rcases List.mem_append.mp mem with isFront | rest
      · exact framed b (by simp [isFront])
      · rcases List.mem_cons.mp rest with rfl | isBack
        · exact joined
        · exact framed b (by simp [isBack])
    obtain ⟨ys, rfl, countY, eachY⟩ := (concat_succ_ok_iff inMiddle nonempty).mp inner
    obtain ⟨xs, rfl, countX, eachX⟩ := (concat_succ_ok_iff framed (by simp [nonempty])).mp whole
    refine (concat_succ_ok_iff inAll (by simp)).mpr ⟨xs, rfl, countX, ?_⟩
    intro k x here
    obtain ⟨inside, -⟩ := List.getElem?_eq_some_iff.mp here
    have between : ys[k]? = some ys[k] := List.getElem?_eq_getElem (by omega)
    obtain ⟨rows, walked, joined⟩ := eachX k x here
    obtain ⟨ms, walkedM, joinedM⟩ := eachY k _ between
    obtain ⟨rows', again, inner⟩ := exists_section framed (by omega : k < n)
    obtain rfl := Except.ok.inj (walked.symm.trans again)
    obtain ⟨rest, bs, walkedR, walkedB, rfl⟩ := mapM_append_ok_iff.mp walked
    obtain ⟨fs, ms', walkedF, walkedM', rfl⟩ := mapM_append_ok_iff.mp walkedR
    obtain rfl := Except.ok.inj (walkedM.symm.trans walkedM')
    refine ⟨fs ++ ys[k] :: bs, mapM_append_ok_iff.mpr ⟨fs, ys[k] :: bs, walkedF, ?_, rfl⟩,
      ih inner (section_ne_nil nonempty walkedM) joinedM joined⟩
    simp only [List.mapM_cons, row_ok_iff.mpr between, walkedB, except_bind_ok, except_pure_ok]
    exact ⟨_, rfl, _, rfl, rfl⟩

/-! Pieces that are read back. -/

/-- An entry of one list stands in the flattened lists behind all entries of the lists before. -/
theorem getElem?_flatten_of {β : Type} {parts : List (List β)} {part : List β}
    (here : parts[i]? = some part) (inside : k < part.length) :
    parts.flatten[((parts.map List.length).take i).sum + k]? = part[k]? := by
  induction parts generalizing i with
  | nil => simp at here
  | cons first parts ih =>
    cases i with
    | zero =>
      obtain rfl := Option.some.inj here
      rw [List.flatten_cons, List.getElem?_append_left (by simpa using inside)]
      simp
    | succ i =>
      rw [List.map_cons, List.take_succ_cons, List.sum_cons, List.flatten_cons,
        List.getElem?_append_right (by omega)]
      have past : first.length + ((parts.map List.length).take i).sum + k - first.length =
          ((parts.map List.length).take i).sum + k := by omega
      rw [past]
      exact ih here

theorem pieces_parts {parts : List (List (Value α))}
    (pieces : Pieces [] after (parts.map .array) ns) :
    ns = parts.map List.length ∧ ∀ part ∈ parts, ∀ r ∈ part, r.Rectangular after := by
  induction parts generalizing ns with
  | nil =>
    obtain rfl := List.forall₂_nil_left_iff.mp pieces
    simp
  | cons part parts ih =>
    obtain ⟨n, ns, rect, rest, rfl⟩ := List.forall₂_cons_left_iff.mp pieces
    obtain ⟨rfl, inParts⟩ := ih rest
    obtain ⟨rfl, inPart⟩ := rect
    exact ⟨rfl, List.forall_mem_cons.mpr ⟨inPart, inParts⟩⟩

theorem Pieces.section {rows : List (Value α)} (pieces : Pieces (n :: before) after arrays ns)
    (walked : arrays.mapM (fun a => a.row k) = .ok rows) : Pieces before after rows ns := by
  induction pieces generalizing rows with
  | nil =>
    obtain rfl := Except.ok.inj walked
    exact .nil
  | cons rect rest ih =>
    simp only [List.mapM_cons, except_bind_ok, except_pure_ok] at walked
    obtain ⟨r, taken, rs, walked, rfl⟩ := walked
    obtain ⟨own, rfl, -, inOwn⟩ := Rectangular.exists_rows rect
    exact .cons (inOwn r (List.mem_of_getElem? (row_ok_iff.mp taken))) (ih walked)

theorem Pieces.rectangular (pieces : Pieces before after arrays ns) (nonempty : arrays ≠ [])
    (known : concat before.length arrays = .ok w) : w.Rectangular (before ++ ns.sum :: after) := by
  induction before generalizing arrays w with
  | nil =>
    obtain ⟨parts, rfl⟩ := exists_parts pieces.framed
    obtain ⟨rfl, inParts⟩ := pieces_parts pieces
    obtain rfl := Except.ok.inj ((concat_parts parts).symm.trans known)
    refine ⟨List.length_flatten, ?_⟩
    intro r mem
    obtain ⟨part, isPart, inPart⟩ := List.mem_flatten.mp mem
    exact inParts part isPart r inPart
  | cons n before ih =>
    obtain ⟨xs, rfl, count, each⟩ := (concat_succ_ok_iff pieces.framed nonempty).mp known
    refine ⟨count, ?_⟩
    intro x mem
    obtain ⟨k, here⟩ := List.mem_iff_getElem?.mp mem
    obtain ⟨rows, walked, joined⟩ := each k x here
    exact ih (pieces.section walked) (section_ne_nil nonempty walked) joined

/-- By induction on the dimensions before: at each position the slice selects, from the rows that were joined
    there, the row of the piece. -/
theorem Pieces.index_window (pieces : Pieces before after arrays ns)
    (known : concat before.length arrays = .ok w) (piece : arrays[i]? = some a)
    (extent : ns[i]? = some n) : w.index (window before (ns.take i).sum n) = .ok a := by
  induction before generalizing arrays w a with
  | nil =>
    obtain ⟨parts, rfl⟩ := exists_parts pieces.framed
    obtain ⟨rfl, -⟩ := pieces_parts pieces
    obtain rfl := Except.ok.inj ((concat_parts parts).symm.trans known)
    rw [List.getElem?_map, Option.map_eq_some_iff] at piece extent
    obtain ⟨part, here, rfl⟩ := piece
    obtain ⟨_, here', rfl⟩ := extent
    obtain rfl := Option.some.inj (here.symm.trans here')
    refine index_slice_ok_iff.mpr ⟨part, rfl, by simp, ?_⟩
    intro k y own
    obtain ⟨inside, -⟩ := List.getElem?_eq_some_iff.mp own
    refine ⟨_, y, rfl, ?_, rfl⟩
    rw [Int.mul_one, ← Int.natCast_add, pick_nat, getElem?_flatten_of here inside]
    exact own
  | cons m before ih =>
    obtain ⟨xs, rfl, count, each⟩ :=
      (concat_succ_ok_iff pieces.framed (List.ne_nil_of_mem (List.mem_of_getElem? piece))).mp known
    obtain ⟨own, rfl, countOwn, -⟩ := (pieces.framed a (List.mem_of_getElem? piece)).exists_rows
    refine index_slice_ok_iff.mpr ⟨own, rfl, by simpa using countOwn, ?_⟩
    intro k y here
    obtain ⟨inside, -⟩ := List.getElem?_eq_some_iff.mp here
    have position : xs[k]? = some xs[k] := List.getElem?_eq_getElem (by omega)
    obtain ⟨rows, walked, joined⟩ := each k _ position
    refine ⟨_, xs[k], rfl, ?_, ih (pieces.section walked) joined (section_at walked piece here)⟩
    rw [Int.mul_one, Int.zero_add, pick_nat]
    exact position

/-- Rectangular arrays that are alike but for one dimension are joined into one whose extent there is the sum of
    theirs. Each of them is read back from behind those in front of it, and it makes no difference whether
    some neighbours are joined before the others. -/
theorem concat_pieces (pieces : Pieces before after arrays ns) (nonempty : arrays ≠ []) :
    ∃ w, concat before.length arrays = .ok w ∧ w.Rectangular (before ++ ns.sum :: after) ∧
      ((∀ n ∈ before ++ ns ++ after, 0 < n) → w.extents = before ++ ns.sum :: after) ∧
      (∀ (i : Nat) a n, arrays[i]? = some a → ns[i]? = some n →
        w.index (window before (ns.take i).sum n) = .ok a) ∧
      ∀ front middle back, arrays = front ++ middle ++ back → middle ≠ [] →
        ∃ a, concat before.length middle = .ok a ∧
          concat before.length (front ++ a :: back) = .ok w := by
  obtain ⟨w, known, -⟩ := exists_concat pieces.framed nonempty
  have rect := pieces.rectangular nonempty known
  refine ⟨w, known, rect, ?_, fun i a n => pieces.index_window known, ?_⟩
  · intro positive
    have some : ns ≠ [] := by
      intro none
      subst none
      exact nonempty (List.forall₂_nil_right_iff.mp pieces)
    refine rect.extents_eq ?_
    simp only [List.mem_append, List.mem_cons] at positive ⊢
    rintro n (inBefore | rfl | inAfter)
    · exact positive n (.inl (.inl inBefore))
    · exact List.sum_pos ns (fun n mem => positive n (.inl (.inr mem))) some
    · exact positive n (.inr inAfter)
  · intro front middle back split some
    have framed := pieces.framed
    rw [split] at framed known
    have inMiddle : ∀ b ∈ middle, b.Framed before := by
      intro b mem
      exact framed b (by simp [mem])
    obtain ⟨a, inner, -⟩ := exists_concat inMiddle some
    exact ⟨a, inner, concat_concat framed some inner known⟩

/-- Three matrices of two rows, to be joined side by side. -/
def columnBlocks : List Value :=
  let n := fun k => Value.scalar (.int .i64 k)
  [.array [.array [n 1], .array [n 2]], .array [.array [n 3, n 4], .array [n 5, n 6]],
    .array [.array [n 7], .array [n 8]]]

theorem concat_columnBlocks :
    Pieces [2] [] columnBlocks [1, 2, 1] ∧ columnBlocks ≠ [] ∧
      ∃ w a b, concat 1 columnBlocks = .ok w ∧ w.extents = [2, 4] ∧
        columnBlocks[1]? = some b ∧ w.index [.slice 0 2 1, .slice 1 2 1] = .ok b ∧
        concat 1 (columnBlocks.take 2) = .ok a ∧ concat 1 (a :: columnBlocks.drop 2) = .ok w := by
  have pieces : Pieces [2] [] columnBlocks [1, 2, 1] := by
    simp [Pieces, columnBlocks, Rectangular, IsLeaf]
  have nonempty : columnBlocks ≠ [] := List.cons_ne_nil _ _
  obtain ⟨w, known, -, extents, parts, neighbours⟩ := concat_pieces pieces nonempty
  obtain ⟨a, inner, outer⟩ := neighbours [] (columnBlocks.take 2) (columnBlocks.drop 2) rfl
    (List.cons_ne_nil _ _)
  exact ⟨pieces, nonempty, w, a, _, known, extents (by decide), rfl, parts 1 _ 2 rfl rfl, inner, outer⟩

end Value

end Cotangent
