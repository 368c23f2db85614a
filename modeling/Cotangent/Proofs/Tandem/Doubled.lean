import Cotangent.Proofs.Regions.Duals
/-!
Lists of dual values laid out as the derivative has them, each primal part followed by its tangent.
Whatever works on single values alike does so on such lists: it ends for the parts if it ends for the dual
values, and the parts of its results stand in the same order.
-/
namespace Cotangent

open Run

/-- The primal part of each value, followed by its tangent. -/
def doubled (ds : List (Value Dual)) : List Value := ds.flatMap Value.both

@[simp] theorem doubled_nil : doubled [] = [] := rfl

@[simp] theorem doubled_cons (d : Value Dual) (ds : List (Value Dual)) :
    doubled (d :: ds) = d.map Dual.primal :: d.map Dual.tangent :: doubled ds := rfl

@[simp] theorem doubled_append (ds es : List (Value Dual)) :
    doubled (ds ++ es) = doubled ds ++ doubled es := List.flatMap_append

theorem doubled_flatten (dss : List (List (Value Dual))) :
    doubled dss.flatten = (dss.map doubled).flatten := by
  induction dss with
  | nil => rfl
  | cons ds dss ih => simp [ih]

theorem doubled_eq_interleave (ds : List (Value Dual)) :
    doubled ds = interleave (primals ds) (changes ds) := by
  induction ds with
  | nil => rfl
  | cons d ds ih => simp [ih]

theorem length_doubled (ds : List (Value Dual)) : (doubled ds).length = 2 * ds.length := by
  rw [doubled_eq_interleave, length_interleave (by simp), List.length_map]

theorem doubled_take (ds : List (Value Dual)) (n : Nat) :
    (doubled ds).take (2 * n) = doubled (ds.take n) := by
  induction ds generalizing n with
  | nil => simp
  | cons d ds ih =>
    cases n with
    | zero => rfl
    | succ n => simp [Nat.mul_succ, ih n]

theorem doubled_drop (ds : List (Value Dual)) (n : Nat) :
    (doubled ds).drop (2 * n) = doubled (ds.drop n) := by
  induction ds generalizing n with
  | nil => simp
  | cons d ds ih =>
    cases n with
    | zero => rfl
    | succ n => simp [Nat.mul_succ, ih n]

theorem getElem?_doubled (ds : List (Value Dual)) (i : Nat) :
    (doubled ds)[2 * i]? = ds[i]?.map (Value.map Dual.primal) ∧
      (doubled ds)[2 * i + 1]? = ds[i]?.map (Value.map Dual.tangent) := by
  have counts : (changes ds).length = (primals ds).length := by simp
  have parts := getElem?_interleave counts i
  rw [← doubled_eq_interleave] at parts
  simpa using parts

/-- A walk over pairs of parts goes the way of the walk over dual values. -/
theorem mapM_pairs {β γ : Type} {a b : β → γ} {k : γ → Except Fault Value}
    {h : β → Except (Fault Dual) (Value Dual)}
    (left : ∀ x, k (a x) = carry Dual.primal (Value.map Dual.primal) (h x))
    (right : ∀ x, k (b x) = carry Dual.tangent (Value.map Dual.tangent) (h x)) (xs : List β) :
    (xs.flatMap fun x => [a x, b x]).mapM k = carry Dual.primal doubled (xs.mapM h) := by
  induction xs with
  | nil => rfl
  | cons x xs ih =>
    rw [List.flatMap_cons, List.mapM_append, List.mapM_cons, ih]
    simp only [List.mapM_cons, List.mapM_nil, left, right]
    cases h x with
    | error e => rfl
    | ok d =>
      cases xs.mapM h with
      | error e => rfl
      | ok ds => rfl

/-- The same for a step on single values that looks at no leaf. -/
theorem mapM_doubled {k : {α : Type} → Value α → Except (Fault α) (Value α)}
    (natural : ∀ {α : Type} (f : Dual → α) (d : Value Dual), k (d.map f) = carry f (Value.map f) (k d))
    (ds : List (Value Dual)) : (doubled ds).mapM k = carry Dual.primal doubled (ds.mapM k) :=
  mapM_pairs (natural Dual.primal) (natural Dual.tangent) ds

/-- The primal parts of the first values, and the others with their tangents. -/
def partly (k : Nat) (ds : List (Value Dual)) : List Value := primals (ds.take k) ++ doubled (ds.drop k)

@[simp] theorem partly_zero (ds : List (Value Dual)) : partly 0 ds = doubled ds := rfl

theorem length_partly (k : Nat) (ds : List (Value Dual)) :
    (partly k ds).length = min k ds.length + 2 * (ds.length - k) := by
  simp [partly, primals, length_doubled]

/-! Rows and columns. -/

theorem rowsAt_map {α : Type} (f : Dual → α) (ds : List (Value Dual)) (i : Nat) :
    rowsAt ((ds.map (Value.map f)).map Value.table) i =
      carry f (List.map (Value.map f)) (rowsAt (ds.map Value.table) i) := by
  have natural (d : Value Dual) :
      (do pick (← (d.map f).table) i) = carry f (Value.map f) (do pick (← d.table) i) :=
    carry_bind f (Value.table_map f d) fun table => pick_map f table i
  simp only [rowsAt, List.mapM_map]
  exact carry_walk f natural ds

theorem rowsAt_doubled (ds : List (Value Dual)) (i : Nat) :
    rowsAt ((doubled ds).map Value.table) i =
      carry Dual.primal doubled (rowsAt (ds.map Value.table) i) := by
  have natural {α : Type} (f : Dual → α) (d : Value Dual) :
      (do pick (← (d.map f).table) i) = carry f (Value.map f) (do pick (← d.table) i) :=
    carry_bind f (Value.table_map f d) fun table => pick_map f table i
  simp only [rowsAt, List.mapM_map]
  exact mapM_pairs (natural Dual.primal) (natural Dual.tangent) ds

theorem columns_map {α : Type} (f : Dual → α) (n : Nat) (rows : List (List (Value Dual))) :
    columns n (rows.map (List.map (Value.map f))) = (columns n rows).map (Value.map f) := by
  simp [columns, Value.map, List.filterMap_map, Function.comp_def, List.map_filterMap]

theorem columns_doubled (n : Nat) (rows : List (List (Value Dual))) :
    columns (2 * n) (rows.map doubled) = doubled (columns n rows) := by
  induction n with
  | zero => rfl
  | succ n ih =>
    have parts (r : List (Value Dual)) := getElem?_doubled r n
    simp only [columns] at ih ⊢
    rw [Nat.mul_succ, List.range_succ, List.range_succ, List.range_succ, List.map_append,
      List.map_append, List.map_append, ih, doubled_append, List.append_assoc]
    simp [Value.map, List.filterMap_map, List.map_filterMap, parts]

end Cotangent
