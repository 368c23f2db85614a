import Cotangent.Evaluation.Run
/-!
Faults that name no variable. Whatever works on values alone, a scalar operator or an array operation,
knows no names, so the only fault that reports a name comes from a run that looks one up.
-/
namespace Cotangent

variable {α β γ : Type}

/-- The computation does not fail for want of a binding. -/
def Nameless (m : Except (Fault α) β) : Prop := ∀ x, m ≠ .error (.unbound x)

namespace Nameless

theorem ok (b : β) : Nameless (.ok b : Except (Fault α) β) := by simp [Nameless]

theorem pure (b : β) : Nameless (Pure.pure b : Except (Fault α) β) := ok b

theorem bind {m : Except (Fault α) β} {f : β → Except (Fault α) γ} (first : Nameless m)
    (rest : ∀ b, Nameless (f b)) : Nameless (m >>= f) := by
  cases m with
  | error e => exact fun x failed => first x (by simpa [Bind.bind, Except.bind] using failed)
  | ok b => exact rest b

theorem ite {c : Prop} [Decidable c] {m n : Except (Fault α) β} (yes : Nameless m)
    (no : Nameless n) : Nameless (if c then m else n) := by
  split
  · exact yes
  · exact no

theorem map {m : Except (Fault α) β} (first : Nameless m) (f : β → γ) : Nameless (f <$> m) := by
  rw [map_eq_pure_bind]
  exact first.bind fun b => pure (f b)

theorem mapM {f : β → Except (Fault α) γ} {xs : List β} (each : ∀ x ∈ xs, Nameless (f x)) :
    Nameless (xs.mapM f) := by
  induction xs with
  | nil => exact pure []
  | cons x xs ih =>
    rw [List.mapM_cons]
    refine (each x (by simp)).bind fun y => ?_
    exact (ih fun z later => each z (by simp [later])).bind fun ys => pure (y :: ys)

theorem tabulate {f : Nat → Except (Fault α) β} (each : ∀ i, Nameless (f i)) (n : Nat) :
    Nameless (Cotangent.tabulate f n) :=
  mapM fun i _ => each i

end Nameless

/-! Arrays. -/

theorem nameless_pick (table : Array (Value α)) (i : Int) : Nameless (pick table i) := by
  unfold pick
  split
  · simp [Nameless]
  · split <;> simp [Nameless]

theorem nameless_pickRow (rows : List (Value α)) (i : Int) : Nameless (pickRow rows i) :=
  pick_toArray rows i ▸ nameless_pick rows.toArray i

namespace Value

theorem nameless_asScalar (v : Value α) : Nameless v.asScalar := by
  cases v <;> simp [Nameless, asScalar]

theorem nameless_rows (v : Value α) : Nameless v.rows := by
  cases v <;> simp [Nameless, rows]

theorem nameless_row (v : Value α) (i : Int) : Nameless (v.row i) :=
  (nameless_rows v).bind fun rows => nameless_pickRow rows i

theorem nameless_table (v : Value α) : Nameless v.table :=
  (nameless_rows v).bind fun rows => .pure rows.toArray

theorem nameless_index (ds : List Dim) (v : Value α) : Nameless (index ds v) := by
  induction ds generalizing v with
  | nil => exact .ok v
  | cons d ds ih =>
    cases d with
    | fix i => exact (nameless_row v i).bind fun row => ih row
    | slice start len stride =>
      refine Nameless.bind (Nameless.tabulate (fun k => ?_) _) fun rows => .pure (Value.array rows)
      exact (nameless_table v).bind fun table => (nameless_pick table _).bind fun row => ih row

theorem nameless_writeRows {f : Value α → Value α → Except (Fault α) (Value α)}
    (each : ∀ v x, Nameless (f v x)) (stride : Int) (n : Nat) (j : Int) (xs : List (Value α))
    (table : Array (Value α)) : Nameless (writeRows f stride n j xs table) := by
  induction n generalizing j xs table with
  | zero => exact .ok table
  | succ n ih =>
    refine (nameless_pick table j).bind fun row => ?_
    cases xs with
    | nil => simp [Nameless]
    | cons x xs => exact (each row x).bind fun row => ih _ xs _

theorem nameless_update (ds : List Dim) (v x : Value α) : Nameless (update ds v x) := by
  induction ds generalizing v x with
  | nil => exact .ok x
  | cons d ds ih =>
    cases d with
    | fix i =>
      refine (nameless_rows v).bind fun rows => (nameless_pickRow rows i).bind fun row => ?_
      exact (ih row x).bind fun row => .pure (Value.array (rows.set i.toNat row))
    | slice start len stride =>
      refine (nameless_table v).bind fun table => (nameless_rows x).bind fun xs => ?_
      exact (nameless_writeRows ih stride len.toNat start xs table).bind fun table =>
        .pure (Value.array table.toList)

theorem nameless_fillRows {fill : List (Value α) → Except (Fault α) (Value α × List (Value α))}
    (each : ∀ xs, Nameless (fill xs)) (n : Nat) (xs : List (Value α)) :
    Nameless (fillRows fill n xs) := by
  induction n generalizing xs with
  | zero => exact .ok ([], xs)
  | succ n ih => exact (each xs).bind fun p => (ih p.2).bind fun q => .pure (p.1 :: q.1, q.2)

theorem nameless_fill (shape : List Nat) (xs : List (Value α)) : Nameless (fill shape xs) := by
  induction shape generalizing xs with
  | nil => cases xs <;> simp [Nameless, fill]
  | cons n shape ih =>
    exact (nameless_fillRows ih n xs).bind fun p => .pure (Value.array p.1, p.2)

theorem nameless_reshape (v : Value α) (shape : List Nat) : Nameless (v.reshape shape) := by
  unfold reshape
  split
  · exact Nameless.bind (fun x failed => by cases failed) fun _ =>
      (nameless_fill shape v.leaves).bind fun p => .pure p.1
  · exact (nameless_fill shape v.leaves).bind fun p => .pure p.1

theorem nameless_sourceIndex (idx perm source : List Nat) :
    Nameless (sourceIndex (α := α) idx perm source) := by
  fun_induction sourceIndex (α := α) idx perm source with
  | case1 i idx p perm source inside ih => exact ih
  | case2 => simp [Nameless]
  | case3 => exact .ok _

theorem nameless_gather {element : List Nat → Except (Fault α) (Value α)}
    (each : ∀ is, Nameless (element is)) (perm idx shape : List Nat) :
    Nameless (gather element perm idx shape) := by
  induction shape generalizing idx with
  | nil => exact (nameless_sourceIndex idx perm _).bind fun is => each is
  | cons n shape ih =>
    exact Nameless.bind (Nameless.tabulate (fun k => ih _) n) fun rows => .pure (Value.array rows)

theorem nameless_rearrange (v : Value α) (perm : List Nat) : Nameless (v.rearrange perm) := by
  refine Nameless.bind (Nameless.mapM fun p _ => ?_) fun shape => nameless_gather (fun is => ?_) _ _ _
  · split <;> simp [Nameless]
  · exact element_table v is ▸ nameless_index _ v

theorem nameless_rotate (offsets : List Int) (v : Value α) : Nameless (rotate offsets v) := by
  induction offsets generalizing v with
  | nil => exact .ok v
  | cons offset offsets ih =>
    refine (nameless_table v).bind fun table => ?_
    refine Nameless.bind (Nameless.tabulate (fun i => ?_) _) fun rows => .pure (Value.array rows)
    exact (nameless_pick table _).bind fun row => ih row

theorem nameless_concat (dim : Nat) (arrays : List (Value α)) : Nameless (concat dim arrays) := by
  induction dim generalizing arrays with
  | zero =>
    exact (Nameless.mapM fun v _ => nameless_rows v).bind fun rows => .pure (Value.array rows.flatten)
  | succ dim ih =>
    cases arrays with
    | nil => simp [Nameless, concat]
    | cons a arrays =>
      refine (nameless_rows a).bind fun rows => ?_
      refine Nameless.bind (Nameless.tabulate (fun i => ?_) _) fun rows => .pure (Value.array rows)
      refine Nameless.bind (Nameless.mapM fun t mem => ?_) fun rows => ih rows
      obtain ⟨v, -, rfl⟩ := List.mem_map.mp mem
      exact (nameless_table v).bind fun table => nameless_pick table _

end Value

/-! Scalars. -/

namespace Scalar

theorem nameless_asInt (v : Scalar) : Nameless v.asInt := by
  cases v <;> simp [Nameless, asInt]

theorem nameless_asFloat (v : Scalar) : Nameless v.asFloat := by
  cases v <;> simp [Nameless, asFloat]

theorem nameless_asBool (v : Scalar) : Nameless v.asBool := by
  cases v <;> simp [Nameless, asBool]

end Scalar

open Scalar

theorem nameless_int (w : IntWidth) (op : IntBinary) (x y : Int) : Nameless (op.apply w x y) := by
  have quotient (f : Int → Int) (d : Int) : Nameless (do return f (← nonzero d)) := by
    refine Nameless.bind (fun x failed => ?_) fun d => .pure (f d)
    unfold nonzero at failed
    split at failed <;> cases failed
  cases op with
  | sdiv => exact quotient _ _
  | udiv => exact quotient _ _
  | smod => exact quotient _ _
  | umod => exact quotient _ _
  | pow =>
    simp only [IntBinary.apply]
    split <;> simp [Nameless]
  | _ => exact .ok _

theorem nameless_unary (op : UnaryOp) (v : Scalar) : Nameless (op.apply v) := by
  cases op with
  | not => exact (nameless_asBool v).bind fun b => .pure _
  | int op w => exact (nameless_asInt v).bind fun n => .pure _
  | float op w => exact (nameless_asFloat v).bind fun x => .pure _

theorem nameless_binary (op : BinaryOp) (u v : Scalar) : Nameless (op.apply u v) := by
  cases op with
  | int op w =>
    exact (nameless_asInt u).bind fun x => (nameless_asInt v).bind fun y =>
      (nameless_int w op x y).bind fun n => .pure _
  | float op w => exact (nameless_asFloat u).bind fun x => (nameless_asFloat v).bind fun y => .pure _
  | and =>
    by_cases certs : u = .cert ∧ v = .cert
    · obtain ⟨rfl, rfl⟩ := certs
      exact .ok _
    · rw [BinaryOp.apply]
      · exact (nameless_asBool u).bind fun a => .ite ((nameless_asBool v).map _) (.pure _)
      · exact fun left right => certs ⟨left, right⟩
  | or =>
    exact (nameless_asBool u).bind fun a => .ite (.pure _) ((nameless_asBool v).map _)

theorem nameless_compare (op : Comparison) (u v : Scalar) : Nameless (op.apply u v) := by
  cases op with
  | eq t => exact .ok _
  | int op w => exact (nameless_asInt u).bind fun x => (nameless_asInt v).bind fun y => .pure _
  | float op w => exact (nameless_asFloat u).bind fun x => (nameless_asFloat v).bind fun y => .pure _
  | boolLt => exact (nameless_asBool u).bind fun a => .ite (.pure _) (nameless_asBool v)
  | boolLe => exact (nameless_asBool u).bind fun a => .ite (nameless_asBool v) (.pure _)

theorem nameless_convert (op : Conversion) (v : Scalar) : Nameless (op.apply v) := by
  cases op with
  | zeroExtend s t => exact (nameless_asInt v).bind fun x => .pure _
  | signExtend s t => exact (nameless_asInt v).bind fun x => .pure _
  | floatToFloat s t => exact (nameless_asFloat v).bind fun x => .pure _
  | floatToUnsigned s t => exact (nameless_asFloat v).bind fun x => .pure _
  | floatToSigned s t => exact (nameless_asFloat v).bind fun x => .pure _
  | unsignedToFloat s t => exact (nameless_asInt v).bind fun x => .pure _
  | signedToFloat s t => exact (nameless_asInt v).bind fun x => .pure _
  | intToBool s => exact (nameless_asInt v).bind fun x => .pure _
  | boolToInt t => exact (nameless_asBool v).bind fun b => .pure _

theorem nameless_call (func : String) (args : List Scalar) :
    Nameless (MathFunction.call func args) := by
  unfold MathFunction.call
  split
  · simp [Nameless]
  · refine Nameless.bind (Nameless.mapM fun v _ => nameless_asFloat v) fun xs => ?_
    split
    · simp [Nameless]
    · exact .pure _

end Cotangent
