import Cotangent.Proofs.Evaluation.Lockstep
import Cotangent.Proofs.Evaluation.Tallies
/-!
A tally as a region: an accumulator over the updated arrays, and a loop over the rows that runs the body of
the bucket and updates the accumulator once. If the code of the tally uses no accumulators, both go in
lockstep: the arrays of the accumulator are those of the tally after each row.
-/
namespace Cotangent

open Occurrences

variable {α : Type}

/-- What a region binds besides the names of its tally. The operator of an accumulator gets the position as
    well. -/
structure Frame where
  handle : Param
  carried : Param
  updated : Param
  closed : Param
  counter : Name
  positions : List Param

namespace Frame

def names (s : Frame) : List Name :=
  s.handle.name :: s.carried.name :: s.updated.name :: s.closed.name :: s.counter ::
    s.positions.map (·.name)

/-- The operator behind parameters that it does not use. -/
def padded (s : Frame) (l : Lambda) : Lambda := ⟨s.positions ++ l.params, l.body, l.ret⟩

/-- What an update of the accumulator runs. -/
def op (s : Frame) (t : Tally) : Option Lambda := t.op.map s.padded

def write (s : Frame) (t : Tally) : Stm :=
  ⟨[s.updated], .none, .basic (.updateAcc s.carried.name (t.bucket.body.result.take t.rank)
    (t.bucket.body.result.drop t.rank))⟩

/-- One row: the body of the bucket, and one update with its results. -/
def round (s : Frame) (t : Tally) : Body := ⟨t.bucket.body.stms ++ [s.write t], [.var s.updated.name]⟩

def loop (s : Frame) (t : Tally) : Stm :=
  ⟨[s.closed], .none, .loop [(s.carried, .var s.handle.name)]
    (.forBelow s.counter .i64 t.width (t.bucket.params.zip t.arrays)) (s.round t)⟩

/-- Fresh names, and a parameter for each part of a position. -/
structure Fresh (s : Frame) (t : Tally) (e : Exp) : Prop where
  distinct : s.names.Nodup
  unused : Seen (· ∉ s.names) e.occurrences
  positions : s.positions.length = t.rank

/-- The same with names that `on` does not pick out. -/
structure Apart (on : Name → Prop) (s : Frame) (t : Tally) : Prop where
  distinct : s.names.Nodup
  hidden : ∀ x ∈ s.names, ¬ on x
  positions : s.positions.length = t.rank

theorem Fresh.apart {s : Frame} {t : Tally} {e : Exp} (fresh : s.Fresh t e) :
    s.Apart (· ∉ s.names) t :=
  ⟨fresh.distinct, fun _ mem absent => absent mem, fresh.positions⟩

section

variable {on : Name → Prop} {s : Frame} {t : Tally}

theorem Apart.single (apart : s.Apart on t) {x : Name} (mem : x ∈ s.names) : ∀ y ∈ [x], ¬ on y :=
  List.forall_mem_singleton.mpr (apart.hidden x mem)

theorem Apart.positional (apart : s.Apart on t) : ∀ x ∈ s.positions.map (·.name), ¬ on x := by
  refine fun x mem => apart.hidden x ?_
  simp only [names, List.mem_cons, mem, or_true]

theorem Apart.counter (apart : s.Apart on t) : s.counter ≠ s.carried.name := by
  intro same
  have distinct := apart.distinct
  simp [names, same] at distinct

end

end Frame

namespace Tally

def region (t : Tally) (s : Frame) : Exp :=
  .withAcc [⟨t.input.shape, t.input.arrays, t.input.combine.map fun c => ⟨s.padded c.op, c.neutral⟩⟩]
    ⟨[s.handle], ⟨[s.loop t], [.var s.closed.name]⟩, [s.handle.ty]⟩

/-- The tally and its code are about names that `on` picks out, and the code uses no accumulators. -/
structure Confined (on : Name → Prop) (t : Tally) : Prop where
  width : Seen on t.width.occurrences
  arrays : ∀ x ∈ t.arrays, on x
  dests : ∀ x ∈ t.input.arrays, on x
  bucket : Seen on t.bucket.occurrences ∧ AccFree t.bucket.body.parts
  op : ∀ l, t.op = some l → Seen on l.occurrences ∧ AccFree l.body.parts

theorem Written.confined {on : Name → Prop} {t : Tally} {e : Exp} (written : t.Written e)
    (seen : Seen on e.occurrences) (free : AccFree e.parts) : t.Confined on := by
  cases written with
  | hist width arrays bucket shape race dests c =>
    simp only [Exp.occurrences, seen_append, seen_names] at seen
    obtain ⟨⟨⟨width_, updated⟩, inBucket⟩, sources⟩ := seen
    obtain ⟨targets, inOp⟩ := seen_histograms updated _ List.mem_cons_self
    refine ⟨width_, sources, targets, ⟨inBucket, free.mono ?_⟩, fun l isOp => ?_⟩
    · exact Exp.parts_of_body (e := .hist width [⟨shape, race, dests, c⟩] bucket arrays)
        (by simp [Exp.bodies])
    · obtain rfl := Option.some.inj isOp
      exact ⟨inOp, free.mono (Exp.parts_of_body (by simp [Exp.bodies]))⟩
  | scatter width arrays bucket shape dest =>
    simp only [Exp.occurrences, seen_append, seen_names, seen_flatMap] at seen
    obtain ⟨⟨⟨width_, inBucket⟩, sources⟩, targets⟩ := seen
    refine ⟨width_, sources, ?_, ⟨inBucket, free.mono (Exp.parts_of_body (by simp [Exp.bodies]))⟩,
      fun l isOp => by cases isOp⟩
    have target := List.forall_mem_singleton.mp targets (.reads dest) (by simp [ScatterDest.occurrences])
    exact List.forall_mem_singleton.mpr target

end Tally

/-! The accumulator of a region beside the arrays of a tally. -/

/-- Both stores have the names that `on` picks out in common, and in the second the accumulator numbered `id`
    runs `op`. -/
structure Store.Beside (on : Name → Prop) (id : Nat) (op : Option Lambda) (σ τ : Store α) : Prop where
  agree : σ.Agree on τ
  combiner : (τ.combiners[id]?).join = op

namespace Store.Beside

variable {on : Name → Prop} {id : Nat} {op : Option Lambda} {σ τ : Store α}

theorem bound (beside : σ.Beside on id op τ) (xs : List Name) (vs : List (Value α)) :
    (σ.bound xs vs).Beside on id op (τ.bound xs vs) :=
  ⟨beside.agree.bound_both rfl fun _ _ _ _ => rfl, beside.combiner⟩

theorem aside (beside : σ.Beside on id op τ) {xs : List Name} (vs : List (Value α))
    (apart : ∀ x ∈ xs, ¬ on x) : σ.Beside on id op (τ.bound xs vs) :=
  ⟨beside.agree.trans (.bound τ vs apart), beside.combiner⟩

end Store.Beside

namespace Run

/-- The value is the accumulator with the arrays of the tally. -/
def Yielding (on : Name → Prop) (id : Nat) (op : Option Lambda) (outs : List (Value α)) (σ : Store α)
    (v : Value α) (τ : Store α) : Prop :=
  v = .acc id outs ∧ σ.Beside on id op τ

/-- The accumulator under `x` has the arrays of the tally. -/
def Holding (on : Name → Prop) (id : Nat) (op : Option Lambda) (x : Name) (outs : List (Value α))
    (σ τ : Store α) : Prop :=
  τ.vars.find? x = some (.acc id outs) ∧ σ.Beside on id op τ

section

variable {on : Name → Prop} {id : Nat} {op : Option Lambda} {x : Name} {outs : List (Value α)}
  {σ τ : Store α}

theorem Holding.bound (holding : Holding on id op x outs σ τ) (hidden : ¬ on x) {xs : List Name}
    (vs : List (Value α)) (visible : ∀ y ∈ xs, on y) : Holding on id op x outs (σ.bound xs vs) (τ.bound xs vs) := by
  obtain ⟨held, beside⟩ := holding
  refine ⟨?_, beside.bound xs vs⟩
  have kept : τ.Agree (· = x) (τ.bound xs vs) := .bound τ vs fun y mem same => hidden (same ▸ visible y mem)
  rw [kept x rfl, held]

theorem Holding.aside (holding : Holding on id op x outs σ τ) {xs : List Name} (vs : List (Value α))
    (others : ∀ y ∈ xs, y ≠ x) (apart : ∀ y ∈ xs, ¬ on y) :
    Holding on id op x outs σ (τ.bound xs vs) := by
  obtain ⟨held, beside⟩ := holding
  refine ⟨?_, beside.aside vs apart⟩
  have kept : τ.Agree (· = x) (τ.bound xs vs) := .bound τ vs others
  rw [kept x rfl, held]

end

/-- Rows bound one after the other, and all at once. -/
theorem outcome_setRows {xs : List Name} {tables : List (Table α)} (count : xs.length = tables.length)
    (i : Nat) (σ : Store α) :
    outcome ((xs.zip tables).forM fun r => do set r.1 (← pick (← r.2) i) : Run α Unit) σ =
      some ((rowsAt tables i).map fun rows => ((), σ.bound xs rows)) := by
  induction xs generalizing tables σ with
  | nil =>
    obtain rfl := List.length_eq_zero_iff.mp count.symm
    rfl
  | cons x xs ih =>
    cases tables with
    | nil => cases count
    | cons table tables =>
      simp only [List.zip_cons_cons, List.forM_eq_forM, List.forM_cons, rowsAt, List.mapM_cons]
      cases table with
      | error e => rfl
      | ok table =>
        simp only [Direct.ok_bind, Direct.lift_ok, pure_bind, bind_assoc]
        cases pick table i with
        | error e => rfl
        | ok row =>
          have first : outcome (set x row) σ = some (.ok ((), σ.bound [x] [row])) := rfl
          have rest := ih (Nat.succ.inj count) (σ.bound [x] [row])
          rw [List.forM_eq_forM, rowsAt] at rest
          simp only [Direct.ok_bind, Direct.lift_ok, pure_bind]
          rw [outcome_bind, first]
          refine rest.trans ?_
          cases (tables.mapM fun t => do pick (← t) i : Except (Fault α) _) with
          | error e => rfl
          | ok rows => rfl

theorem lockstep_rows {P : Store α → Store α → Prop} {xs : List Name} {tables : List (Table α)}
    (count : xs.length = tables.length) (i : Nat)
    (bound : ∀ σ τ vs, P σ τ → P (σ.bound xs vs) (τ.bound xs vs)) :
    Lockstep P (fun _ σ _ τ => P σ τ) (liftM (rowsAt tables i) >>= fun rows => bind xs rows)
      ((xs.zip tables).forM fun r => do set r.1 (← pick (← r.2) i)) := by
  intro σ τ related
  rw [outcome_setRows count]
  cases known : rowsAt tables i with
  | error e => exact .failed e e
  | ok rows =>
    have fits : rows.length = xs.length := (except_mapM_iff.mp known).length_eq.symm.trans count.symm
    have ends : outcome (bind xs rows) σ = some (.ok ((), σ.bound xs rows)) :=
      (ends_bindNames ..).mpr ⟨fits, rfl⟩
    rw [Direct.lift_ok, pure_bind, ends]
    exact .ended (bound σ τ rows related)

theorem lockstep_writeAt (on : Name → Prop) (id : Nat) (op : Option Lambda) (ds : List Dim)
    (outs new : List (Value α)) :
    Lockstep (Store.Beside on id op) (Yielding on id op) (writeAt ds outs new)
      (writeAt ds outs new >>= fun arrays => pure (.acc id arrays)) := by
  have reads : Reads on (writeAt ds outs new) := .bind (.lift _) fun _ => .mapM fun p _ => .lift _
  rw [← bind_pure (writeAt ds outs new), bind_assoc]
  exact (reads.lockstep fun _ _ beside => beside.agree).next fun arrays _ =>
    lockstep_pure fun _ _ beside => ⟨rfl, beside⟩

variable [ScalarAlgebra α]

theorem tallyRound_eq (runOp : Body → Run α (List (Value α))) {t : Tally} (fits : t.Fits) (fuel : Nat)
    (tables : List (Table α)) (i : Nat) (outs : List (Value α)) :
    tallyRound (runBody (fuel + 1)) runOp t tables i outs =
      (do
        let rows ← rowsAt tables i
        bind (t.bucket.params.map (·.name)) rows
        stms fuel t.bucket.body.stms
        let xs ← operands (t.bucket.body.result.take t.rank)
        let ys ← operands (t.bucket.body.result.drop t.rank)
        let ds ← fixedDims xs
        updateAt runOp t.op ds ys outs) := by
  simp only [tallyRound, applyLambda, runBody, bind_assoc, stms]
  refine bind_congr fun rows => bind_congr fun _ => bind_congr fun _ => ?_
  have split : operands t.bucket.body.result = (do
      let xs ← operands (t.bucket.body.result.take t.rank)
      let ys ← operands (t.bucket.body.result.drop t.rank)
      return xs ++ ys : Run α _) := by
    rw [operands, operands, operands, ← List.mapM_append, List.take_append_drop]
  rw [split]
  simp only [bind_assoc, pure_bind]
  refine Direct.bind_congr_of_ends fun xs _ _ ends => bind_congr fun ys => ?_
  have count : xs.length = t.rank := by
    rw [ends_mapM_length ends, List.length_take, fits.results, Nat.min_eq_left (Nat.le_add_right ..)]
  rw [List.take_left' count, List.drop_left' count]

theorem round_eq (s : Frame) (t : Tally) (rows : List (Name × Table α)) (fuel i : Nat) :
    round (runBody (fuel + 1)) [s.carried.name] s.counter .i64 rows (s.round t) i () =
      (do
        set s.counter (.scalar (ScalarAlgebra.ofScalar (.int .i64 i)))
        rows.forM fun r => do set r.1 (← pick (← r.2) i)
        stms fuel t.bucket.body.stms
        let v ← updateAcc (runBody fuel) s.carried.name (t.bucket.body.result.take t.rank)
          (t.bucket.body.result.drop t.rank)
        bind [s.updated.name] [v]
        let vs ← operands [.var s.updated.name]
        bind [s.carried.name] vs) := by
  simp [round, step, runBody, Frame.round, Frame.write, stms, stm, exp, basicOp]

/-- The accumulator over the updated arrays is made, and goes into the loop. -/
def opening (s : Frame) (op : Option Lambda) (outs : List (Value α)) : Run α Unit := do
  let id := (← get).combiners.length
  modify fun σ => { σ with combiners := σ.combiners ++ [op] }
  bind [s.handle.name] [.acc id outs]
  let vs ← operands [.var s.handle.name]
  bind [s.carried.name] vs

/-- The arrays of the accumulator that the loop leaves behind. -/
def closing (s : Frame) : Run α (List (Value α)) := do
  let vs ← lookups [s.carried.name]
  bind [s.closed.name] vs
  let vs ← operands [.var s.closed.name]
  let (accs, rest) ← splitValues vs 1
  let arrays : List (List (Value α)) ← accs.mapM fun v => closeAcc (α := α) v
  return arrays.flatten ++ rest

theorem region_eq {t : Tally} (fits : t.Fits) (s : Frame) (fuel below : Nat) :
    (exp (runBody (fuel + 2)) below (t.region s) : Run α _) =
      (do
        let outs ← lookups t.input.arrays
        opening s (s.op t) outs
        let vs ← lookups t.arrays
        let n ← int t.width
        rounds (round (runBody (fuel + 1)) [s.carried.name] s.counter .i64
          ((t.bucket.params.map (·.name)).zip (vs.map Value.table)) (s.round t)) n.toNat 0 ()
        closing s) := by
  have sources : (t.bucket.params.zip t.arrays).map (·.2) = t.arrays :=
    List.map_snd_zip (Nat.le_of_eq fits.params.symm)
  have params : (t.bucket.params.zip t.arrays).map (·.1) = t.bucket.params :=
    List.map_fst_zip (Nat.le_of_eq fits.params)
  have names : (t.bucket.params.zip t.arrays).map (·.1.name) = t.bucket.params.map (·.name) := by
    rw [← params, List.map_map, params]
    rfl
  simp [exp, Tally.region, withAcc, openAcc, applyLambda, runBody, Frame.loop, stm, loop, opening, closing,
    Frame.op, Tally.op, sources, names]
  rfl

/-- A value handed on under another name. -/
theorem ends_passOn (x y : Name) (v : Value α) (σ : Store α) :
    Ends (do
      bind [x] [v]
      let vs ← operands [.var x]
      bind [y] vs : Run α Unit) σ () ((σ.bound [x] [v]).bound [y] [v]) := by
  simp [operands, Store.value, Store.find_bound_single]

section

variable {on : Name → Prop} {s : Frame} {t : Tally} {id : Nat}

theorem lockstep_applyPadded {l : Lambda} (id fuel : Nat) (free : AccFree l.body.parts)
    (seen : Seen on l.occurrences) (apart : s.Apart on t) {idx : List (Value α)}
    (count : idx.length = s.positions.length) (args : List (Value α)) (op : Option Lambda) :
    Lockstep (Store.Beside on id op) (fun b σ c τ => b = c ∧ σ.Beside on id op τ)
      (applyLambda (runBody fuel) l args) (applyLambda (runBody fuel) (s.padded l) (idx ++ args)) := by
  have length : idx.length = (s.positions.map (·.name)).length := by rw [count, List.length_map]
  have bound : Lockstep (Store.Beside on id op) (fun _ σ _ τ => σ.Beside on id op τ)
      (bind (l.params.map (·.name)) args) (bind ((s.padded l).params.map (·.name)) (idx ++ args)) := by
    refine lockstep_bindNames (by simp [Frame.padded, count]) fun σ τ beside => ?_
    rw [Frame.padded, List.map_append, Store.bound_append _ _ _ length]
    exact (beside.aside idx apart.positional).bound _ args
  obtain ⟨-, inBody, -⟩ := (seen_lambda l).mp seen
  exact bound.bind fun _ _ => (confined_runBody fuel free inBody).lockstep
    (fun _ _ beside => beside.agree) fun _ _ xs vs beside _ => beside.bound xs vs

/-- The part found at a position is replaced on both sides. -/
theorem lockstep_replace (id fuel : Nat) (confined : t.Confined on) (apart : s.Apart on t)
    {idx : List (Value α)} (count : idx.length = s.positions.length) (ds : List Dim)
    (old vs outs : List (Value α)) :
    Lockstep (Store.Beside on id (s.op t)) (Yielding on id (s.op t))
      (replacement (runBody fuel) t.op old vs >>= fun new => writeAt ds outs new)
      (match s.op t with
        | some op => applyLambda (runBody fuel) op (idx ++ old ++ vs) >>= fun new =>
          writeAt ds outs new >>= fun arrays => pure (.acc id arrays)
        | none => writeAt ds outs vs >>= fun arrays => pure (.acc id arrays)) := by
  cases isOp : t.op with
  | none =>
    have plain : s.op t = none := by rw [Frame.op, isOp, Option.map_none]
    rw [plain]
    exact lockstep_writeAt on id none ds outs vs
  | some l =>
    obtain ⟨inOp, free⟩ := confined.op l isOp
    have combined : s.op t = some (s.padded l) := by rw [Frame.op, isOp, Option.map_some]
    rw [combined, List.append_assoc]
    exact (lockstep_applyPadded id fuel free inOp apart count (old ++ vs) _).next fun new _ =>
      lockstep_writeAt on id _ ds outs new

/-- Out of bounds, nothing happens on either side. -/
theorem lockstep_updateAcc (id fuel : Nat) (position values : List Operand) (confined : t.Confined on)
    (apart : s.Apart on t) (count : position.length = s.positions.length)
    (indices : Seen on (operandOccurrences position)) (seen : Seen on (operandOccurrences values))
    (acc : Name) (outs : List (Value α)) :
    Lockstep (Holding on id (s.op t) acc outs) (Yielding on id (s.op t))
      (do
        let xs ← operands position
        let ys ← operands values
        let ds ← fixedDims xs
        updateAt (runBody fuel) t.op ds ys outs)
      (updateAcc (runBody fuel) acc position values) := by
  have agree := fun (σ τ : Store α) (beside : σ.Beside on id (s.op t) τ) => beside.agree
  refine .ahead (Q := fun v σ τ => Yielding on id (s.op t) outs σ v τ)
    (fun σ τ holding => ⟨_, τ, (ends_lookup ..).mpr ⟨holding.1, rfl⟩, rfl, holding.2⟩) fun v => .known ?_
  rintro rfl
  refine ((Reads.operands indices).lockstep agree).next fun xs ends => ?_
  obtain ⟨_, _, read⟩ := ends
  have length : xs.length = s.positions.length := (ends_mapM_length read).trans count
  refine Reads.swap (Reads.operands seen) (Reads.lift (fixedDims xs)) ?_
  refine (lockstep_lift _).next fun ds _ => ((Reads.operands seen).lockstep agree).next fun ys _ => ?_
  refine (lockstep_lift _).next fun found _ => ?_
  cases found with
  | none => exact lockstep_pure fun _ _ beside => ⟨rfl, beside⟩
  | some old =>
    refine .ahead (Q := fun υ σ τ => (υ.combiners[id]?).join = s.op t ∧ σ.Beside on id (s.op t) τ)
      (fun σ τ beside => ⟨τ, τ, (ends_get ..).mpr ⟨rfl, rfl⟩, beside.combiner, beside⟩)
      fun υ => .known fun known => ?_
    have replaced := lockstep_replace id fuel confined apart length ds old ys outs
    simp only [writeAt, bind_assoc] at replaced
    rw [known]
    exact replaced

/-- The updated accumulator goes into the next round. -/
theorem lockstep_store (apart : s.Apart on t) (op : Option Lambda) (outs : List (Value α)) (v : Value α) :
    Lockstep (fun σ τ => Yielding on id op outs σ v τ)
      (fun outs σ _ τ => Holding on id op s.carried.name outs σ τ) (pure outs)
      (do
        bind [s.updated.name] [v]
        let vs ← operands [.var s.updated.name]
        bind [s.carried.name] vs) := by
  refine lockstep_ends fun σ τ yields => ?_
  obtain ⟨rfl, beside⟩ := yields
  have updated := beside.aside [.acc id outs] (apart.single (x := s.updated.name) (by simp [Frame.names]))
  have stored := updated.aside [.acc id outs] (apart.single (x := s.carried.name) (by simp [Frame.names]))
  exact ⟨(), _, ends_passOn _ _ _ τ, Store.find_bound_single _ _ _, stored⟩

theorem lockstep_round (id fuel : Nat) (fits : t.Fits) (confined : t.Confined on) (apart : s.Apart on t)
    {tables : List (Table α)} (count : tables.length = t.arrays.length) (i : Nat)
    (outs : List (Value α)) :
    Lockstep (Holding on id (s.op t) s.carried.name outs)
      (fun outs σ _ τ => Holding on id (s.op t) s.carried.name outs σ τ)
      (tallyRound (runBody (fuel + 1)) (runBody fuel) t tables i outs)
      (round (runBody (fuel + 1)) [s.carried.name] s.counter .i64
        ((t.bucket.params.map (·.name)).zip tables) (s.round t) i ()) := by
  obtain ⟨inParams, inBody, -⟩ := (seen_lambda t.bucket).mp confined.bucket.1
  obtain ⟨inStms, inResult⟩ := (seen_body t.bucket.body).mp inBody
  rw [seen_operands] at inResult
  have kept (σ τ : Store α) (xs : List Name) (vs : List (Value α))
      (holding : Holding on id (s.op t) s.carried.name outs σ τ) (visible : ∀ x ∈ xs, on x) :
      Holding on id (s.op t) s.carried.name outs (σ.bound xs vs) (τ.bound xs vs) :=
    holding.bound (apart.hidden _ (by simp [Frame.names])) vs visible
  rw [tallyRound_eq _ fits, round_eq]
  -- the counter is set in the region only
  refine .ahead (Q := fun _ => Holding on id (s.op t) s.carried.name outs)
    (fun σ τ holding => ⟨(), _, (ends_set ..).mpr rfl, holding.aside _
      (List.forall_mem_singleton.mpr apart.counter) (apart.single (by simp [Frame.names]))⟩) fun _ => ?_
  rw [← bind_assoc]
  have params : (t.bucket.params.map (·.name)).length = tables.length := by
    rw [List.length_map, fits.params, count]
  refine (lockstep_rows params i fun σ τ vs holding =>
    kept σ τ _ vs holding inParams.params).bind fun _ _ => ?_
  have free : AccFree (stmParts t.bucket.body.stms) := by
    have inside := confined.bucket.2
    rw [Body.parts_eq] at inside
    exact inside.mono (List.sublist_cons_self _ _)
  have ran := confined_stms (α := α) (fun b free seen => confined_runBody fuel free seen) free inStms
  refine (ran.lockstep (fun σ τ holding => holding.2.agree) kept).next fun _ _ => ?_
  have updated := lockstep_updateAcc id fuel (t.bucket.body.result.take t.rank)
    (t.bucket.body.result.drop t.rank) confined apart
    (by rw [List.length_take, fits.results, apart.positions, Nat.min_eq_left (Nat.le_add_right ..)])
    ((seen_operands _).mpr fun x mem => inResult x (List.mem_of_mem_take mem))
    ((seen_operands _).mpr fun x mem => inResult x (List.mem_of_mem_drop mem)) s.carried.name outs
  simpa only [bind_assoc, bind_pure] using updated.bind fun outs v => lockstep_store apart (s.op t) outs v

theorem ends_opening (apart : s.Apart on t) (op : Option Lambda) (outs : List (Value α)) (σ : Store α) :
    ∃ τ, Ends (opening s op outs) σ () τ ∧
      Holding on σ.combiners.length op s.carried.name outs σ τ := by
  let opened : Store α := { σ with combiners := σ.combiners ++ [op] }
  let acc : Value α := .acc σ.combiners.length outs
  have beside : σ.Beside on σ.combiners.length op opened := ⟨fun x _ => rfl, by simp [opened]⟩
  have handed := beside.aside [acc] (apart.single (x := s.handle.name) (by simp [Frame.names]))
  have carried := handed.aside [acc] (apart.single (x := s.carried.name) (by simp [Frame.names]))
  have passed := ends_passOn s.handle.name s.carried.name acc opened
  refine ⟨_, ?_, Store.find_bound_single _ _ acc, carried⟩
  rw [opening, ends_bind]
  refine ⟨σ, σ, (ends_get ..).mpr ⟨rfl, rfl⟩, ?_⟩
  rw [ends_bind]
  exact ⟨(), opened, (ends_modify ..).mpr rfl, passed⟩

theorem ends_closing (apart : s.Apart on t) {op : Option Lambda} {outs : List (Value α)} {σ τ : Store α}
    (holding : Holding on id op s.carried.name outs σ τ) :
    ∃ υ, Ends (closing s) τ outs υ ∧ σ.Agree on υ := by
  obtain ⟨held, beside⟩ := holding
  have closed := beside.aside [.acc id outs] (apart.single (x := s.closed.name) (by simp [Frame.names]))
  refine ⟨τ.bound [s.closed.name] [.acc id outs], ?_, closed.agree⟩
  simp [closing, lookups, operands, held, Store.value, Store.find_bound_single, splitValues, closeAcc]

theorem outcome_size {β : Type} {x : Operand} {σ : Store α} (nonneg : ∀ n τ, Ends (int x) σ n τ → 0 ≤ n)
    (f : Nat → Run α β) :
    outcome (size x >>= f) σ = outcome (int x >>= fun n => f n.toNat) σ := by
  rw [size, bind_assoc, outcome_bind, outcome_bind]
  cases ran : outcome (int x) σ with
  | none => rfl
  | some r =>
    cases r with
    | error e => rfl
    | ok p =>
      have known : asSize (α := α) p.1 = .ok p.1.toNat := if_neg (Int.not_lt.mpr (nonneg p.1 p.2 ran))
      simp only [known, Direct.lift_ok, pure_bind]

/-- A tally and its region go in lockstep, the region with one level of nesting more around the bucket. -/
theorem lockstep_region (fuel below : Nat) (fits : t.Fits) (confined : t.Confined on)
    (apart : s.Apart on t) (σ : Store α) (nonneg : ∀ n τ, Ends (int t.width) σ n τ → 0 ≤ n) :
    Paired (fun vs σ ws τ => vs = ws ∧ σ.Agree on τ)
      (outcome (tally (runBody (fuel + 1)) (runBody fuel) t) σ)
      (outcome (exp (runBody (fuel + 2)) below (t.region s)) σ) := by
  have locked : Lockstep (fun υ τ => υ = σ ∧ τ = σ) (fun vs υ ws τ => vs = ws ∧ υ.Agree on τ)
      (do
        let n ← int t.width
        let vs ← lookups t.arrays
        let outs ← lookups t.input.arrays
        rounds (tallyRound (runBody (fuel + 1)) (runBody fuel) t (vs.map Value.table)) n.toNat 0 outs)
      (exp (runBody (fuel + 2)) below (t.region s)) := by
    rw [region_eq fits]
    refine Reads.reverse (Reads.int confined.width) (Reads.lookups confined.arrays)
      (Reads.lookups confined.dests) ?_
    have same (υ τ : Store α) (both : υ = σ ∧ τ = σ) : υ.Agree on τ := by
      obtain ⟨rfl, rfl⟩ := both
      exact .refl on _
    refine ((Reads.lookups confined.dests).lockstep same).next fun outs _ => ?_
    refine .ahead (Q := fun _ => Holding on σ.combiners.length (s.op t) s.carried.name outs)
      (fun υ τ both => ?_) fun _ => ?_
    · obtain ⟨rfl, rfl⟩ := both
      obtain ⟨τ', ends, holding⟩ := ends_opening apart (s.op t) outs τ
      exact ⟨(), τ', ends, holding⟩
    refine ((Reads.lookups confined.arrays).lockstep fun _ _ holding => holding.2.agree).next
      fun vs found => ?_
    obtain ⟨_, _, found⟩ := found
    refine ((Reads.int confined.width).lockstep fun _ _ holding => holding.2.agree).next fun n _ => ?_
    have count : (vs.map Value.table).length = t.arrays.length := by
      rw [List.length_map, ends_lookups_length found]
    have looped := lockstep_rounds (fun i outs _ => lockstep_round σ.combiners.length fuel fits confined
      apart count i outs) n.toNat 0 outs ()
    rw [← bind_pure (rounds (tallyRound (runBody (fuel + 1)) (runBody fuel) t _) _ _ _)]
    refine looped.bind fun outs _ => lockstep_ends fun υ τ holding => ?_
    obtain ⟨τ', ends, agree⟩ := ends_closing apart holding
    exact ⟨outs, τ', ends, rfl, agree⟩
  rw [tally, outcome_size nonneg]
  exact locked σ σ ⟨rfl, rfl⟩

end

end Run

variable [ScalarAlgebra α]

namespace Tally

/-- Of the fuel for a tally, the operator needs less than the bucket. -/
theorem comes_iff_tally {t : Tally} {e : Exp} (written : t.Written e) (fits : t.Fits) (σ : Store α)
    (r : Except (Fault α) (List (Value α))) :
    e.Comes σ r ↔
      ∃ fuel, Run.result (Run.tally (Run.runBody (fuel + 1)) (Run.runBody fuel) t) σ = some r := by
  have grows (fuel : Nat) (b : Body) :
      Run.Extends (Run.runBody fuel b : Run α (List (Value α))) (Run.runBody (fuel + 1) b) :=
    Run.extends_runBody (Nat.le_succ fuel) b
  constructor
  · rintro ⟨fuel, known⟩
    rw [Run.exp_eq_tally written fits] at known
    exact ⟨fuel, (Run.extends_tally (grows fuel) (fun _ => .refl _) t).result known⟩
  · rintro ⟨fuel, known⟩
    refine ⟨fuel + 1, ?_⟩
    rw [Run.exp_eq_tally written fits]
    exact (Run.extends_tally (fun _ => .refl _) (grows fuel) t).result known

/-- A histogram with one operator, or a scatter of one value a row into one destination, and the region that
    updates an accumulator in a loop come to the same values from every store, or both fail, or neither
    comes to anything. Positions outside of an array are skipped by all alike. -/
theorem region_agrees {t : Tally} {e : Exp} {s : Frame} (written : t.Written e) (fits : t.Fits)
    (fresh : s.Fresh t e) (free : AccFree e.parts) (σ : Store α)
    (nonneg : ∀ n τ, Run.Ends (Run.int t.width) σ n τ → 0 ≤ n) :
    (∀ vs, e.Comes σ (.ok vs) ↔ (t.region s).Comes σ (.ok vs)) ∧
      ((∃ fault, e.Comes σ (.error fault)) ↔ ∃ fault, (t.region s).Comes σ (.error fault)) := by
  have confined := written.confined fresh.unused free
  have each (fuel : Nat) :=
    (Run.lockstep_region fuel (fuel + 2) fits confined fresh.apart σ nonneg).results
  simp only [← Run.result_eq] at each
  simp only [comes_iff_tally written fits, Exp.comes_iff (t.region s) σ _ 2]
  refine ⟨fun vs => exists_congr fun fuel => (each fuel).1 vs, ?_⟩
  rw [exists_comm, exists_comm (α := Fault α)]
  exact exists_congr fun fuel => (each fuel).2

end Tally

/-! Counts into two bins; one of three rows is for a bin that there is not. -/

namespace CountedBins

def number (x : Nat) : Param := ⟨⟨x⟩, .scalar (.int .i64)⟩

def accumulator (x : Nat) : Param :=
  ⟨⟨x⟩, .acc ⟨20⟩ [.const (.int .i64 2)] [.scalar (.int .i64)] true⟩

def add : Combiner :=
  ⟨⟨[number 2, number 3],
    ⟨[⟨[number 4], .none, .basic (.binary (.int .add .i64) (.var ⟨2⟩) (.var ⟨3⟩))⟩], [.var ⟨4⟩]⟩,
    [(number 4).ty]⟩, [.const (.int .i64 0)]⟩

def tally : Tally where
  width := .const (.int .i64 3)
  arrays := [⟨0⟩]
  bucket := ⟨[number 5], ⟨[], [.var ⟨5⟩, .const (.int .i64 1)]⟩, [(number 5).ty, (number 5).ty]⟩
  input := ⟨[.const (.int .i64 2)], [⟨1⟩], some add⟩

def histogram : Exp :=
  .hist tally.width [⟨tally.input.shape, .const (.int .i64 1), tally.input.arrays, add⟩] tally.bucket
    tally.arrays

def frame : Frame :=
  ⟨accumulator 10, accumulator 11, accumulator 12, accumulator 13, ⟨14⟩, [number 15]⟩

def numbers (ns : List Int) : Value := .array (ns.map fun n => .scalar (.int .i64 n))

def store : Store Scalar :=
  Store.initial.bound [⟨0⟩, ⟨1⟩] [numbers [0, 5, 0], numbers [10, 20]]

theorem region_counts :
    histogram.Comes store (.ok [numbers [12, 20]]) ∧
      (tally.region frame).Comes store (.ok [numbers [12, 20]]) := by
  have written : tally.Written histogram := .hist ..
  have fresh : frame.Fresh tally histogram := ⟨by decide, by unfold Occurrences.Seen; decide, rfl⟩
  have free : AccFree histogram.parts := by
    intro s mem
    simp [histogram, tally, add, Exp.parts, Lambda.parts, Body.parts, stmParts, Stm.parts,
      histogramParts, Combiner.parts] at mem
    subst mem
    rfl
  have nonneg (n : Int) (τ : Store Scalar) (ends : Run.Ends (Run.int tally.width) store n τ) : 0 ≤ n := by
    have read : Run.outcome (Run.int tally.width) store = some (.ok (3, store)) := rfl
    obtain ⟨rfl, -⟩ := (Run.ends_of_outcome read n τ).mp ends
    decide
  have counted : histogram.Comes store (.ok [numbers [12, 20]]) := ⟨2, by rfl⟩
  exact ⟨counted, ((Tally.region_agrees written ⟨rfl, rfl⟩ fresh free store nonneg).1 _).mp counted⟩

end CountedBins

end Cotangent
