import Cotangent.Value.Array
import Cotangent.Proofs.Outcome
/-!
Operations on arrays look at the shape of values and never at what stands at the leaves: each of them
does the same to a value whose leaves were replaced, with the leaves replaced in its result.
-/
namespace Cotangent

variable {α β γ δ : Type}

def Fault.map (f : α → β) : Fault α → Fault β
  | .unbound x => .unbound x
  | .mismatch expected found => .mismatch expected (found.map f)
  | .arity expected found => .arity expected found
  | .outOfBounds index len => .outOfBounds index len
  | .shape => .shape
  | .divisionByZero => .divisionByZero
  | .negativeExponent y => .negativeExponent y
  | .assertion msg => .assertion msg
  | .unknownFunction func => .unknownFunction func

/-- The outcome with `g` applied to a result, and `f` to the leaves that a fault mentions. -/
def carry (f : α → β) (g : γ → δ) : Except (Fault α) γ → Except (Fault β) δ
  | .ok a => .ok (g a)
  | .error e => .error (e.map f)

variable (f : α → β)

@[simp] theorem carry_ok (g : γ → δ) (a : γ) : carry f g (.ok a) = .ok (g a) := rfl

@[simp] theorem carry_pure (g : γ → δ) (a : γ) : carry f g (pure a) = .ok (g a) := rfl

@[simp] theorem carry_error (g : γ → δ) (e : Fault α) : carry f g (.error e) = .error (e.map f) := rfl

theorem carry_bind {ε ζ : Type} {g : γ → δ} {h : ε → ζ} {x : Except (Fault α) γ}
    {x' : Except (Fault β) δ} {k : γ → Except (Fault α) ε} {k' : δ → Except (Fault β) ζ}
    (first : x' = carry f g x) (next : ∀ a, k' (g a) = carry f h (k a)) :
    (x' >>= k') = carry f h (x >>= k) := by
  rw [first]
  cases x with
  | error e => rfl
  | ok a => exact next a

/-- A step that is carried over in each entry is carried over in a walk. -/
theorem carry_mapM {ε ζ : Type} {g : ε → ζ} {k : γ → Except (Fault α) ε}
    {k' : δ → Except (Fault β) ζ} (h : γ → δ) (step : ∀ a, k' (h a) = carry f g (k a))
    (xs : List γ) : (xs.map h).mapM k' = carry f (List.map g) (xs.mapM k) := by
  induction xs with
  | nil => rfl
  | cons a xs ih =>
    simp only [List.map_cons, List.mapM_cons]
    exact carry_bind f (step a) fun b => carry_bind f ih fun bs => rfl

/-- The same for a walk over something that has no leaves. -/
theorem carry_walk {ε : Type} {g : γ → δ} {k : ε → Except (Fault α) γ}
    {k' : ε → Except (Fault β) δ} (step : ∀ a, k' a = carry f g (k a)) (xs : List ε) :
    xs.mapM k' = carry f (List.map g) (xs.mapM k) := by
  have walk := carry_mapM f id step xs
  rwa [List.map_id] at walk

theorem carry_tabulate {g : γ → δ} {k : Nat → Except (Fault α) γ} {k' : Nat → Except (Fault β) δ}
    (step : ∀ i, k' i = carry f g (k i)) (n : Nat) :
    tabulate k' n = carry f (List.map g) (tabulate k n) :=
  carry_walk f step (List.range n)

mutual

theorem Value.map_id (v : Value α) : v.map id = v := by
  cases v with
  | scalar a => rfl
  | array rows => exact congrArg Value.array (mapRows_id rows)
  | acc i arrays => exact congrArg (Value.acc i) (mapRows_id arrays)

theorem mapRows_id (vs : List (Value α)) : mapRows id vs = vs := by
  cases vs with
  | nil => rfl
  | cons v vs => exact congrArg₂ List.cons v.map_id (mapRows_id vs)

end

@[simp] theorem mapRows_eq (rows : List (Value α)) : mapRows f rows = rows.map (Value.map f) := by
  induction rows with
  | nil => rfl
  | cons v rows ih => simp [mapRows, ih]

theorem pick_map (table : Array (Value α)) (i : Int) :
    pick (table.map (Value.map f)) i = carry f (Value.map f) (pick table i) := by
  unfold pick
  by_cases negative : i < 0
  · simp [negative, Fault.map]
  · cases found : table[i.toNat]? with
    | none => simp [negative, found, Fault.map]
    | some row => simp [negative, found]

theorem pickRow_map (rows : List (Value α)) (i : Int) :
    pickRow (rows.map (Value.map f)) i = carry f (Value.map f) (pickRow rows i) := by
  simp only [← pick_toArray, ← pick_map, List.map_toArray]

namespace Value

theorem asScalar_map (v : Value α) : (v.map f).asScalar = carry f f v.asScalar := by
  cases v <;> simp [map, asScalar, Fault.map]

theorem rows_map (v : Value α) : (v.map f).rows = carry f (List.map (map f)) v.rows := by
  cases v <;> simp [map, rows, Fault.map]

theorem table_map (v : Value α) : (v.map f).table = carry f (Array.map (map f)) v.table := by
  refine carry_bind f (rows_map f v) fun rows => ?_
  simp [pure, Except.pure]

theorem row_map (v : Value α) (i : Int) : (v.map f).row i = carry f (map f) (v.row i) :=
  carry_bind f (rows_map f v) fun rows => pickRow_map f rows i

/-- Rows that are carried over are those of an array that is carried over. -/
theorem array_map (rows : List (Value α)) :
    (pure (.array (rows.map (map f))) : Except (Fault β) (Value β)) =
      carry f (map f) (pure (.array rows)) := by
  simp [map, pure, Except.pure]

theorem index_map (dims : List Dim) (v : Value α) :
    index dims (v.map f) = carry f (map f) (index dims v) := by
  induction dims generalizing v with
  | nil => rfl
  | cons dim dims ih =>
    cases dim with
    | fix i => exact carry_bind f (row_map f v i) ih
    | slice start len stride =>
      refine carry_bind f (carry_tabulate f (fun k => ?_) _) (array_map f)
      exact carry_bind f (table_map f v) fun table => carry_bind f (pick_map f table _) ih

theorem writeRows_map {k : Value α → Value α → Except (Fault α) (Value α)}
    {k' : Value β → Value β → Except (Fault β) (Value β)}
    (step : ∀ v x, k' (v.map f) (x.map f) = carry f (map f) (k v x)) (stride : Int) (n : Nat)
    (j : Int) (xs : List (Value α)) (table : Array (Value α)) :
    writeRows k' stride n j (xs.map (map f)) (table.map (map f)) =
      carry f (Array.map (map f)) (writeRows k stride n j xs table) := by
  induction n generalizing j xs table with
  | zero => rfl
  | succ n ih =>
    refine carry_bind f (pick_map f table j) fun row => ?_
    cases xs with
    | nil => rfl
    | cons x xs =>
      refine carry_bind f (step row x) fun new => ?_
      rw [← ih]
      congr 1
      simp [Array.map_setIfInBounds]

theorem update_map (dims : List Dim) (v x : Value α) :
    update dims (v.map f) (x.map f) = carry f (map f) (update dims v x) := by
  induction dims generalizing v x with
  | nil => rfl
  | cons dim dims ih =>
    cases dim with
    | fix i =>
      refine carry_bind f (rows_map f v) fun rows => carry_bind f (pickRow_map f rows i)
        fun row => carry_bind f (ih row x) fun new => ?_
      simp [map, pure, Except.pure]
    | slice start len stride =>
      refine carry_bind f (table_map f v) fun table => carry_bind f (rows_map f x) fun xs =>
        carry_bind f (writeRows_map f ih stride len.toNat start xs table) fun table => ?_
      simp [map, pure, Except.pure]

mutual

theorem extents_map (v : Value α) : (v.map f).extents = v.extents := by
  cases v with
  | scalar a => rfl
  | acc id arrays => rfl
  | array rows =>
    have first := firstExtents_map rows
    simp only [mapRows_eq] at first
    simp [map, extents, first]

theorem firstExtents_map (rows : List (Value α)) : firstExtents (mapRows f rows) = firstExtents rows := by
  cases rows with
  | nil => rfl
  | cons v rows =>
    simp only [mapRows, firstExtents]
    exact extents_map v

end

mutual

theorem leaves_map (v : Value α) : (v.map f).leaves = v.leaves.map (map f) := by
  cases v with
  | scalar a => rfl
  | acc id arrays => rfl
  | array rows =>
    simp only [map, leaves]
    exact rowLeaves_map rows

theorem rowLeaves_map (rows : List (Value α)) :
    rowLeaves (mapRows f rows) = (rowLeaves rows).map (map f) := by
  cases rows with
  | nil => rfl
  | cons v rows =>
    simp only [mapRows, rowLeaves, List.map_append]
    rw [leaves_map v, rowLeaves_map rows]

end

theorem fillRows_map {k : List (Value α) → Except (Fault α) (Value α × List (Value α))}
    {k' : List (Value β) → Except (Fault β) (Value β × List (Value β))}
    (step : ∀ xs, k' (xs.map (map f)) = carry f (Prod.map (map f) (List.map (map f))) (k xs))
    (n : Nat) (xs : List (Value α)) :
    fillRows k' n (xs.map (map f)) =
      carry f (Prod.map (List.map (map f)) (List.map (map f))) (fillRows k n xs) := by
  induction n generalizing xs with
  | zero => rfl
  | succ n ih => exact carry_bind f (step xs) fun p => carry_bind f (ih p.2) fun q => rfl

theorem fill_map (shape : List Nat) (xs : List (Value α)) :
    fill shape (xs.map (map f)) =
      carry f (Prod.map (map f) (List.map (map f))) (fill shape xs) := by
  induction shape generalizing xs with
  | nil => cases xs <;> rfl
  | cons n shape ih =>
    refine carry_bind f (fillRows_map f ih n xs) fun p => ?_
    simp [map, pure, Except.pure]

theorem reshape_map (v : Value α) (shape : List Nat) :
    (v.map f).reshape shape = carry f (map f) (v.reshape shape) := by
  unfold reshape
  rw [leaves_map, List.length_map]
  by_cases same : v.leaves.length = volume shape
  · simp only [same, ne_eq, not_true_eq_false, if_false]
    exact carry_bind f (fill_map f shape v.leaves) fun p => rfl
  · simp only [ne_eq, same, not_false_eq_true, if_true]
    rfl

theorem replicate_map (shape : List Nat) (v : Value α) :
    replicate shape (v.map f) = (replicate shape v).map f := by
  induction shape with
  | nil => rfl
  | cons n shape ih => simp [replicate, map, ih]

theorem sourceIndex_map (idx perm source : List Nat) :
    (sourceIndex idx perm source : Except (Fault β) (List Nat)) =
      carry f id (sourceIndex idx perm source) := by
  induction idx generalizing perm source with
  | nil => rfl
  | cons i idx ih =>
    cases perm with
    | nil => rfl
    | cons p perm =>
      simp only [sourceIndex]
      split
      · exact ih ..
      · rfl

theorem element_map (v : Value α) (positions : List Nat) :
    (v.map f).element (v.map f).table positions =
      carry f (map f) (v.element v.table positions) := by
  rw [element_table, element_table, index_map]

theorem gather_map {k : List Nat → Except (Fault α) (Value α)}
    {k' : List Nat → Except (Fault β) (Value β)} (step : ∀ is, k' is = carry f (map f) (k is))
    (perm idx shape : List Nat) :
    gather k' perm idx shape = carry f (map f) (gather k perm idx shape) := by
  induction shape generalizing idx with
  | nil => exact carry_bind f (sourceIndex_map f ..) step
  | cons n shape ih =>
    exact carry_bind f (carry_tabulate f (fun i => ih (idx ++ [i])) n) (array_map f)

theorem rearrange_map (v : Value α) (perm : List Nat) :
    (v.map f).rearrange perm = carry f (map f) (v.rearrange perm) := by
  unfold rearrange
  simp only [extents_map]
  refine carry_bind f (carry_walk f (g := id) (fun p => ?_) perm) fun ns => ?_
  · cases v.extents[p]? with
    | none => rfl
    | some n => rfl
  · rw [List.map_id_fun]
    exact gather_map f (element_map f v) perm [] ns

theorem rotate_map (offsets : List Int) (v : Value α) :
    rotate offsets (v.map f) = carry f (map f) (rotate offsets v) := by
  induction offsets generalizing v with
  | nil => rfl
  | cons offset offsets ih =>
    refine carry_bind f (table_map f v) fun table => ?_
    simp only [Array.size_map]
    refine carry_bind f (carry_tabulate f (fun i => ?_) _) (array_map f)
    exact carry_bind f (pick_map f table _) ih

theorem concat_map (dim : Nat) (arrays : List (Value α)) :
    concat dim (arrays.map (map f)) = carry f (map f) (concat dim arrays) := by
  induction dim generalizing arrays with
  | zero =>
    refine carry_bind f (carry_mapM f (map f) (rows_map f) arrays) fun rows => ?_
    simp [map, pure, Except.pure, List.map_flatten]
  | succ dim ih =>
    cases arrays with
    | nil => rfl
    | cons a arrays =>
      refine carry_bind f (rows_map f a) fun rows => ?_
      simp only [List.length_map]
      refine carry_bind f (carry_tabulate f (fun i => ?_) _) (array_map f)
      have tables : (a.map f :: arrays.map (map f)).map table =
          ((a :: arrays).map table).map (carry f (Array.map (map f))) := by
        simp [table_map]
      rw [tables]
      refine carry_bind f (carry_mapM f _ (fun t => ?_) _) ih
      exact carry_bind f rfl fun table => pick_map f table i

end Value

end Cotangent
