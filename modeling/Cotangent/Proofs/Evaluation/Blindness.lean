import Cotangent.Proofs.Evaluation.Ends
import Cotangent.Proofs.Scope.FreeNames
import Cotangent.Proofs.Scope.Seen
/-!
A run does not depend on names that do not occur in what it runs. Two stores match if they agree on
the names that are visible and hold the same combining operators, in which visible names only occur. A
program in which visible names only occur runs the same way from both: it ends with the same value in
stores that match again, or with the same fault, or it runs out of fuel twice.
-/
namespace Cotangent

variable {on : Name → Prop}

open Occurrences

section

variable {α β γ : Type}

/-- The stores agree on the visible names and hold the same operators, in which no others occur. -/
structure Store.Matches (on : Name → Prop) (σ τ : Store α) : Prop where
  agree : σ.Agree on τ
  combiners : τ.combiners = σ.combiners
  operators : ∀ op, some op ∈ σ.combiners → Seen on op.occurrences

/-- Stores that agree still do after names were bound in both, visible ones to the same values. -/
theorem Store.Agree.bound_both {σ τ : Store α} (agree : σ.Agree on τ) {xs : List Name}
    {vs ws : List (Value α)} (count : vs.length = ws.length)
    (same : ∀ (i : Nat) (x : Name), xs[i]? = some x → on x → vs[i]? = ws[i]?) :
    (σ.bound xs vs).Agree on (τ.bound xs ws) := by
  induction xs generalizing σ τ vs ws with
  | nil => exact agree
  | cons x xs ih =>
    cases vs with
    | nil =>
      obtain rfl := List.length_eq_zero_iff.mp count.symm
      exact agree
    | cons v vs =>
      obtain ⟨w, ws, rfl⟩ := List.exists_cons_of_length_eq_add_one count.symm
      have first : (σ.bound [x] [v]).Agree on (τ.bound [x] [w]) := by
        intro y visible
        show (τ.vars.insert x w).find? y = (σ.vars.insert x v).find? y
        rw [NameTable.find_insert, NameTable.find_insert]
        by_cases isX : y = x
        · have same_x := same 0 x rfl (isX ▸ visible)
          simpa [isX] using same_x.symm
        · simpa [isX] using agree y visible
      refine ih first (by simpa using count) fun i y at_i visible => ?_
      simpa using same (i + 1) y (by simpa using at_i) visible

theorem Store.Matches.bound {σ τ : Store α} (matching : σ.Matches on τ) (xs : List Name)
    (vs : List (Value α)) : (σ.bound xs vs).Matches on (τ.bound xs vs) :=
  ⟨matching.agree.bound_both rfl fun _ _ _ _ => rfl, matching.combiners, matching.operators⟩

namespace Run

/-- The same outcome, in stores that match if there is a value. -/
inductive Same (on : Name → Prop) :
    Option (Except (Fault α) (β × Store α)) → Option (Except (Fault α) (β × Store α)) → Prop
  | starved : Same on none none
  | failed (e) : Same on (some (.error e)) (some (.error e))
  | ended (b) {σ τ} : σ.Matches on τ → Same on (some (.ok (b, σ))) (some (.ok (b, τ)))

/-- The run does not see the difference between stores that match. -/
def Blind (on : Name → Prop) (m : Run α β) : Prop :=
  ∀ σ τ : Store α, σ.Matches on τ → Same on (outcome m σ) (outcome m τ)

theorem Blind.bind {m : Run α β} {f : β → Run α γ} (first : Blind on m)
    (rest : ∀ b, Blind on (f b)) : Blind on (m >>= f) := by
  intro σ τ matching
  have same := first σ τ matching
  rw [outcome_bind, outcome_bind]
  generalize outcome m σ = r at same ⊢
  generalize outcome m τ = q at same ⊢
  cases same with
  | starved => exact .starved
  | failed e => exact .failed e
  | ended b matching => exact rest b _ _ matching

theorem blind_pure (b : β) : Blind on (pure b : Run α β) := fun _ _ matching => .ended b matching

theorem blind_lift (m : Except (Fault α) β) : Blind on (liftM m : Run α β) := by
  intro σ τ matching
  cases m with
  | error e => exact .failed e
  | ok b => exact .ended b matching

theorem blind_throw (e : Fault α) : Blind on (throw e : Run α β) := fun _ _ _ => .failed e

theorem blind_outOfFuel : Blind on (outOfFuel : Run α β) := fun _ _ _ => .starved

theorem blind_mapM {f : β → Run α γ} {xs : List β} (each : ∀ x ∈ xs, Blind on (f x)) :
    Blind on (xs.mapM f) := by
  induction xs with
  | nil => exact blind_pure []
  | cons x xs ih =>
    rw [List.mapM_cons]
    refine (each x (by simp)).bind fun y => ?_
    exact (ih fun z later => each z (by simp [later])).bind fun ys => blind_pure (y :: ys)

theorem blind_forM {f : β → Run α Unit} {xs : List β} (each : ∀ x ∈ xs, Blind on (f x)) :
    Blind on (xs.forM f) := by
  induction xs with
  | nil => exact blind_pure ()
  | cons x xs ih =>
    rw [List.forM_eq_forM, List.forM_cons, ← List.forM_eq_forM]
    exact (each x (by simp)).bind fun _ => ih fun z later => each z (by simp [later])

theorem blind_rounds {step : Nat → β → Run α β} (each : ∀ i b, Blind on (step i b)) (n i : Nat)
    (b : β) : Blind on (rounds step n i b) := by
  induction n generalizing i b with
  | zero => exact blind_pure b
  | succ n ih => exact (each i b).bind fun b => ih (i + 1) b

theorem blind_repeatWhile {holds : Run α Bool} {step : Run α Unit} (condition : Blind on holds)
    (round : Blind on step) (fuel : Nat) : Blind on (repeatWhile holds step fuel) := by
  induction fuel with
  | zero => exact blind_outOfFuel
  | succ fuel ih =>
    refine condition.bind fun b => ?_
    cases b with
    | false => exact blind_pure ()
    | true => exact round.bind fun _ => ih

/-! The store. -/

theorem outcome_lookup (x : Name) (σ : Store α) : outcome (lookup x) σ =
    match σ.vars.find? x with
    | some v => some (.ok (v, σ))
    | none => some (.error (.unbound x)) := by
  have read : outcome (get : Run α (Store α)) σ = some (.ok (σ, σ)) := rfl
  rw [lookup, outcome_bind, read]
  cases found : σ.vars.find? x <;> simp only [found] <;> rfl

theorem blind_lookup {x : Name} (visible : on x) : Blind on (lookup x : Run α (Value α)) := by
  intro σ τ matching
  rw [outcome_lookup, outcome_lookup, matching.agree x visible]
  cases σ.vars.find? x with
  | none => exact .failed _
  | some v => exact .ended v matching

theorem blind_lookups {xs : List Name} (visible : ∀ x ∈ xs, on x) :
    Blind on (lookups xs : Run α (List (Value α))) :=
  blind_mapM fun x mem => blind_lookup (visible x mem)

theorem blind_bindNames (xs : List Name) (vs : List (Value α)) : Blind on (Run.bind xs vs) :=
  (blind_lift (checkArity xs.length vs.length)).bind fun _ _ _ matching =>
    .ended () (matching.bound xs vs)

theorem blind_set (x : Name) (v : Value α) : Blind on (set x v) :=
  fun _ _ matching => .ended () (matching.bound [x] [v])

theorem blind_get {f : Store α → Run α β} (each : ∀ σ τ, σ.Matches on τ →
    Same on (outcome (f σ) σ) (outcome (f τ) τ)) : Blind on (get >>= f) := each

/-! Operands and their parts. -/

section

variable [ScalarAlgebra α]

theorem blind_operand {x : Operand} (seen : Seen on x.occurrences) :
    Blind on (operand x : Run α (Value α)) := by
  cases x with
  | const v => exact blind_pure _
  | var x => exact blind_lookup (seen (.reads x) List.mem_cons_self)

theorem blind_operands {xs : List Operand} (seen : Seen on (operandOccurrences xs)) :
    Blind on (operands xs : Run α (List (Value α))) :=
  blind_mapM fun x mem => blind_operand ((seen_operands xs).mp seen x mem)

theorem blind_scalar {x : Operand} (seen : Seen on x.occurrences) :
    Blind on (scalar x : Run α α) :=
  (blind_operand seen).bind fun v => blind_lift v.asScalar

theorem blind_int {x : Operand} (seen : Seen on x.occurrences) : Blind on (int x : Run α Int) :=
  (blind_scalar seen).bind fun v => blind_lift (ScalarAlgebra.asInt v)

theorem blind_number {x : Operand} (seen : Seen on x.occurrences) :
    Blind on (number x : Run α α) :=
  (blind_scalar seen).bind fun v => (blind_lift (ScalarAlgebra.asInt v)).bind fun _ => blind_pure v

theorem blind_size {x : Operand} (seen : Seen on x.occurrences) : Blind on (size x : Run α Nat) :=
  (blind_int seen).bind fun n => blind_lift (asSize n)

theorem blind_sizes {xs : List Operand} (seen : Seen on (operandOccurrences xs)) :
    Blind on (sizes xs : Run α (List Nat)) :=
  blind_mapM fun x mem => blind_size ((seen_operands xs).mp seen x mem)

theorem blind_dim {d : DimIndex} (seen : Seen on d.occurrences) : Blind on (dim d : Run α Dim) := by
  cases d with
  | fix i => exact (blind_int seen).bind fun n => blind_pure _
  | slice start len stride =>
    simp only [DimIndex.occurrences, seen_append] at seen
    refine (blind_int seen.1.1).bind fun _ => (blind_int seen.1.2).bind fun _ => ?_
    exact (blind_int seen.2).bind fun _ => blind_pure _

theorem blind_dims {ds : List DimIndex} (seen : Seen on (sliceOccurrences ds)) :
    Blind on (dims ds : Run α (List Dim)) :=
  blind_mapM fun d mem => blind_dim ((seen_slice ds).mp seen d mem)

end

/-! Constructs, over bodies that are blind if visible names only occur in them. -/

section

variable {run : Body → Run α (List (Value α))}
  (runs : ∀ b : Body, Seen on b.occurrences → Blind on (run b))

include runs

theorem blind_applyLambda {l : Lambda} (seen : Seen on l.occurrences) (args : List (Value α)) :
    Blind on (applyLambda run l args) := by
  obtain ⟨ps, b, ret⟩ := l
  simp only [Lambda.occurrences, seen_append] at seen
  exact (blind_bindNames _ args).bind fun _ => runs b seen.1.2

theorem blind_combine {l : Lambda} (seen : Seen on l.occurrences) (acc vs : List (Value α)) :
    Blind on (combine run l acc vs) :=
  (blind_applyLambda runs seen _).bind fun new =>
    (blind_lift (checkArity acc.length new.length)).bind fun _ => blind_pure new

omit runs in
theorem blind_openAcc {input : AccInput} (arrays : ∀ x ∈ input.arrays, on x)
    (operator : ∀ c, input.combine = some c → Seen on c.op.occurrences) :
    Blind on (openAcc input : Run α (Value α)) := by
  refine (blind_lookups arrays).bind fun vs => blind_get fun σ τ matching => ?_
  rw [matching.combiners]
  have opened : Store.Matches on { σ with combiners := σ.combiners ++ [input.combine.map (·.op)] }
      { τ with combiners := τ.combiners ++ [input.combine.map (·.op)] } := by
    refine ⟨matching.agree, by rw [matching.combiners], fun op mem => ?_⟩
    rcases List.mem_append.mp mem with old | new
    · exact matching.operators op old
    · obtain ⟨c, isCombiner, rfl⟩ := Option.map_eq_some_iff.mp (List.mem_singleton.mp new).symm
      exact operator c isCombiner
  exact .ended _ opened

theorem blind_withAcc {inputs : List AccInput} {l : Lambda}
    (opened : Seen on (accInputOccurrences inputs)) (seen : Seen on l.occurrences) :
    Blind on (withAcc run inputs l) := by
  have each := seen_accInputs opened
  refine (blind_mapM fun input mem => blind_openAcc (each input mem).1 (each input mem).2).bind
    fun accs => ?_
  refine (blind_applyLambda runs seen accs).bind fun vs => (blind_lift _).bind fun p => ?_
  exact (blind_mapM fun v _ => blind_lift _).bind fun _ => blind_pure _

theorem blind_step {b : Body} (params : List Name) (seen : Seen on b.occurrences) :
    Blind on (step run params b) :=
  (runs b seen).bind fun vs => blind_bindNames params vs

theorem blind_combineGroups {ops : List Lambda} (seen : ∀ op ∈ ops, Seen on op.occurrences)
    (accs : List (List (Value α))) (vs : List (Value α)) :
    Blind on (combineGroups run ops accs vs) := by
  induction ops generalizing accs vs with
  | nil => exact blind_pure accs
  | cons op ops ih =>
    cases accs with
    | nil => exact blind_pure []
    | cons acc accs =>
      refine (blind_combine runs (seen op (by simp)) acc _).bind fun new => ?_
      exact (ih (fun o later => seen o (by simp [later])) accs _).bind fun _ => blind_pure _

theorem blind_fusedRow {scans : List Combiner} {reduces : List Reduction} {map : Lambda}
    (scanned : ∀ c ∈ scans, Seen on c.op.occurrences)
    (reduced : ∀ r ∈ reduces, Seen on r.combiner.op.occurrences) (mapped : Seen on map.occurrences)
    (tables : List (Table α)) (mapCount i : Nat) (s : Fused α) :
    Blind on (fusedRow run tables scans reduces map mapCount i s) := by
  refine (blind_lift (rowsAt tables i)).bind fun rows => ?_
  refine (blind_applyLambda runs mapped rows).bind fun new => ?_
  refine (blind_lift _).bind fun p => (blind_lift _).bind fun q => ?_
  refine (blind_combineGroups runs (fun op mem => ?_) _ _).bind fun _ => ?_
  · obtain ⟨c, isScan, rfl⟩ := List.mem_map.mp mem
    exact scanned c isScan
  refine (blind_combineGroups runs (fun op mem => ?_) _ _).bind fun _ => ?_
  · obtain ⟨r, isReduction, rfl⟩ := List.mem_map.mp mem
    exact reduced r isReduction
  exact (blind_lift _).bind fun _ => blind_pure _

variable [ScalarAlgebra α]

theorem blind_updateAcc {acc : Name} {position values : List Operand} (handle : on acc)
    (positions : Seen on (operandOccurrences position))
    (written : Seen on (operandOccurrences values)) :
    Blind on (updateAcc run acc position values) := by
  refine (blind_lookup handle).bind fun v => ?_
  cases v with
  | acc id arrays =>
    refine (blind_operands positions).bind fun idx => (blind_lift (fixedDims idx)).bind fun ds => ?_
    refine (blind_operands written).bind fun vs => (blind_lift _).bind fun old => ?_
    cases old with
    | none => exact blind_pure _
    | some old =>
      have store (new : List (Value α)) : Blind on (do
          checkArity (α := α) arrays.length new.length
          let arrays ← (arrays.zip new).mapM fun p => Value.update (α := α) ds p.1 p.2
          return .acc id arrays : Run α (Value α)) :=
        (blind_lift _).bind fun _ => (blind_mapM fun p _ => blind_lift _).bind fun _ => blind_pure _
      refine blind_get fun σ τ matching => ?_
      rw [matching.combiners]
      cases selected : (σ.combiners[id]?).join with
      | some op =>
        have listed : some op ∈ σ.combiners :=
          List.mem_of_getElem? (Option.join_eq_some_iff.mp selected)
        exact (blind_applyLambda runs (matching.operators op listed) _).bind store σ τ matching
      | none => exact (blind_pure vs).bind store σ τ matching
  | scalar v => exact blind_throw _
  | array rows => exact blind_throw _

theorem blind_basicOp {op : BasicOp} (seen : Seen on op.occurrences) :
    Blind on (basicOp run op) := by
  cases op with
  | operand x => exact blind_operand seen
  | arrayLit elems ty =>
    simp only [BasicOp.occurrences, seen_append] at seen
    exact (blind_operands seen.1).bind fun vs => blind_pure _
  | unary op x => exact (blind_scalar seen).bind fun v => (blind_lift _).bind fun _ => blind_pure _
  | binary op x y =>
    simp only [BasicOp.occurrences, seen_append] at seen
    refine (blind_scalar seen.1).bind fun u => (blind_scalar seen.2).bind fun v => ?_
    exact (blind_lift _).bind fun _ => blind_pure _
  | compare op x y =>
    simp only [BasicOp.occurrences, seen_append] at seen
    refine (blind_scalar seen.1).bind fun u => (blind_scalar seen.2).bind fun v => ?_
    exact (blind_lift _).bind fun _ => blind_pure _
  | convert op x => exact (blind_scalar seen).bind fun v => (blind_lift _).bind fun _ => blind_pure _
  | index array slice =>
    simp only [BasicOp.occurrences, seen_cons] at seen
    exact (blind_lookup seen.1).bind fun v => (blind_dims seen.2).bind fun ds => blind_lift _
  | update array slice value =>
    simp only [BasicOp.occurrences, seen_cons, seen_append] at seen
    refine (blind_lookup seen.1).bind fun v => (blind_dims seen.2.1).bind fun ds => ?_
    exact (blind_operand seen.2.2).bind fun x => blind_lift _
  | concat dim first rest width =>
    simp only [BasicOp.occurrences, seen_append, seen_names] at seen
    exact (blind_lookups seen.1).bind fun vs => blind_lift _
  | copy array => exact blind_lookup (seen (.reads array) List.mem_cons_self)
  | manifest perm array => exact blind_lookup (seen (.reads array) List.mem_cons_self)
  | reshape shape array =>
    simp only [BasicOp.occurrences, seen_append, seen_cons] at seen
    exact (blind_lookup seen.2.1).bind fun v => (blind_sizes seen.1).bind fun shape => blind_lift _
  | rearrange perm array =>
    exact (blind_lookup (seen (.reads array) List.mem_cons_self)).bind fun v => blind_lift _
  | rotate offsets array =>
    simp only [BasicOp.occurrences, seen_append, seen_cons, seen_operands] at seen
    refine (blind_mapM fun x mem => blind_int (seen.1 x mem)).bind fun ns => ?_
    exact (blind_lookup seen.2.1).bind fun v => blind_lift _
  | iota count start step w =>
    simp only [BasicOp.occurrences, seen_operands, List.forall_mem_cons] at seen
    refine (blind_int seen.1).bind fun _ => (blind_number seen.2.1).bind fun _ => ?_
    exact (blind_number seen.2.2.1).bind fun _ => blind_pure _
  | replicate shape value =>
    simp only [BasicOp.occurrences, seen_append] at seen
    exact (blind_sizes seen.1).bind fun _ => (blind_operand seen.2).bind fun _ => blind_pure _
  | scratch elem shape => exact (blind_sizes seen).bind fun _ => blind_pure _
  | assert cond msg =>
    refine (blind_scalar seen).bind fun v => (blind_lift (ScalarAlgebra.asBool v)).bind fun b => ?_
    cases b with
    | false => exact blind_throw _
    | true => exact blind_pure _
  | updateAcc acc position values =>
    simp only [BasicOp.occurrences, seen_cons, seen_append] at seen
    exact blind_updateAcc runs seen.1 seen.2.1 seen.2.2

theorem blind_round {b : Body} (params : List Name) (counter : Name) (w : IntWidth)
    (rows : List (Name × Table α)) (seen : Seen on b.occurrences) (i : Nat) :
    Blind on (round run params counter w rows b i ()) := by
  refine (blind_set counter _).bind fun _ => (blind_forM fun r _ => ?_).bind fun _ =>
    blind_step runs params seen
  exact (blind_lift r.2).bind fun table => (blind_lift _).bind fun row => blind_set r.1 row

theorem blind_loop {merge : List (Param × Operand)} {form : LoopForm} {b : Body} (fuel : Nat)
    (seen : Seen on (loopOccurrences merge form b.occurrences)) :
    Blind on (loop run fuel merge form b) := by
  cases form with
  | whileHolds cond =>
    simp only [loopOccurrences, seen_append, seen_cons] at seen
    obtain ⟨⟨⟨inits, params⟩, body⟩, guard, -⟩ := seen
    have results := params.params
    rw [List.map_map] at results
    refine (blind_operands inits).bind fun vs => (blind_bindNames _ vs).bind fun _ => ?_
    refine (blind_repeatWhile ?_ (blind_step runs _ body) fuel).bind fun _ => blind_lookups results
    exact (blind_lookup guard).bind fun v => (blind_lift _).bind fun a => blind_lift _
  | forBelow counter w bound arrays =>
    simp only [loopOccurrences, seen_append, seen_cons, seen_names] at seen
    obtain ⟨⟨⟨⟨⟨inits, size⟩, sources⟩, params⟩, -, -⟩, body⟩ := seen
    have results := params.params
    rw [List.map_map] at results
    refine (blind_operands inits).bind fun vs => (blind_bindNames _ vs).bind fun _ => ?_
    refine (blind_lookups sources).bind fun vs => (blind_int size).bind fun n => ?_
    exact (blind_rounds (fun i _ => blind_round runs _ counter w _ body i) _ 0 ()).bind fun _ =>
      blind_lookups results

theorem blind_screma {width : Operand} {arrays : List Name} {scans : List Combiner}
    {reduces : List Reduction} {map : Lambda} (size : Seen on width.occurrences)
    (sources : ∀ x ∈ arrays, on x) (scanned : ∀ c ∈ scans, Seen on c.occurrences)
    (reduced : ∀ r ∈ reduces, Seen on r.combiner.occurrences) (mapped : Seen on map.occurrences) :
    Blind on (screma run width arrays scans reduces map) := by
  simp only [seen_combiner] at scanned reduced
  refine (blind_size size).bind fun n => (blind_lookups sources).bind fun vs => ?_
  refine (blind_mapM fun c mem => blind_operands (scanned c mem).1).bind fun scanAccs => ?_
  refine (blind_mapM fun r mem => blind_operands (reduced r mem).1).bind fun reduceAccs => ?_
  refine (blind_rounds (fun i s => ?_) n 0 _).bind fun _ => blind_pure _
  exact blind_fusedRow runs (fun c mem => (scanned c mem).2) (fun r mem => (reduced r mem).2) mapped
    _ _ i s

theorem blind_histRow {ops : List Histogram} (seen : ∀ h ∈ ops, Seen on h.combiner.op.occurrences)
    (dests : List (List (Value α))) (idxs vs : List (Value α)) :
    Blind on (histRow run ops dests idxs vs) := by
  induction ops generalizing dests idxs vs with
  | nil => exact blind_pure dests
  | cons h ops ih =>
    cases dests with
    | nil => exact blind_pure []
    | cons ds dests =>
      have later := ih fun o mem => seen o (by simp [mem])
      refine (blind_lift _).bind fun at_ => (blind_lift _).bind fun old => ?_
      cases old with
      | none =>
        exact (blind_pure ds).bind fun _ => (later dests _ _).bind fun _ => blind_pure _
      | some old =>
        refine (blind_combine runs (seen h (by simp)) old _).bind fun new => ?_
        refine (blind_mapM fun p _ => blind_lift _).bind fun _ => ?_
        exact (later dests _ _).bind fun _ => blind_pure _

theorem blind_hist {width : Operand} {ops : List Histogram} {bucket : Lambda} {arrays : List Name}
    (size : Seen on width.occurrences)
    (updated : ∀ h ∈ ops, (∀ x ∈ h.dests, on x) ∧ Seen on h.combiner.op.occurrences)
    (seen : Seen on bucket.occurrences) (sources : ∀ x ∈ arrays, on x) :
    Blind on (hist run width ops bucket arrays) := by
  refine (blind_size size).bind fun n => (blind_lookups sources).bind fun vs => ?_
  refine (blind_mapM fun h mem => blind_lookups (updated h mem).1).bind fun dests => ?_
  refine (blind_rounds (fun i dests => ?_) n 0 _).bind fun _ => blind_pure _
  refine (blind_lift (rowsAt _ i)).bind fun rows => (blind_applyLambda runs seen rows).bind
    fun new => (blind_lift _).bind fun p => ?_
  exact blind_histRow runs (fun h mem => (updated h mem).2) dests p.1 p.2

theorem blind_scatter {width : Operand} {l : Lambda} {arrays : List Name} {dests : List ScatterDest}
    (size : Seen on width.occurrences) (seen : Seen on l.occurrences) (sources : ∀ x ∈ arrays, on x)
    (targets : ∀ d ∈ dests, on d.array) : Blind on (scatter run width l arrays dests) := by
  have targets : ∀ x ∈ dests.map (·.array), on x := by
    intro x mem
    obtain ⟨d, isDest, rfl⟩ := List.mem_map.mp mem
    exact targets d isDest
  refine (blind_size size).bind fun n => (blind_lookups sources).bind fun vs => ?_
  refine (blind_lookups targets).bind fun outs => blind_rounds (fun i outs => ?_) n 0 outs
  refine (blind_lift (rowsAt _ i)).bind fun rows => (blind_applyLambda runs seen rows).bind
    fun new => (blind_lift _).bind fun p => ?_
  exact blind_lift (scatterRow dests outs p.1 p.2)

/-- One case for each construct. -/
theorem blind_exp (fuel : Nat) {e : Exp} (seen : Seen on e.occurrences) :
    Blind on (exp run fuel e) := by
  cases e with
  | basic op => exact (blind_basicOp runs seen).bind fun v => blind_pure [v]
  | apply func args ret =>
    simp only [Exp.occurrences, seen_append, seen_operands] at seen
    refine (blind_mapM fun x mem => blind_scalar (seen.1 x mem)).bind fun vs => ?_
    exact (blind_lift (ScalarAlgebra.call func vs)).bind fun v => blind_pure _
  | branch cond yes no ret sort =>
    simp only [Exp.occurrences, seen_append] at seen
    obtain ⟨⟨⟨guard, inYes⟩, inNo⟩, -⟩ := seen
    refine (blind_scalar guard).bind fun v => (blind_lift (ScalarAlgebra.asBool v)).bind fun b => ?_
    cases b with
    | false => exact runs no inNo
    | true => exact runs yes inYes
  | loop merge form b => exact blind_loop runs fuel seen
  | withAcc inputs l =>
    simp only [Exp.occurrences, seen_append] at seen
    exact blind_withAcc runs seen.1 seen.2
  | screma width arrays scans reduces map =>
    simp only [Exp.occurrences, seen_append, seen_names, seen_combiners, seen_reductions] at seen
    obtain ⟨⟨⟨⟨size, sources⟩, scanned⟩, reduced⟩, mapped⟩ := seen
    exact blind_screma runs size sources scanned reduced mapped
  | stream width arrays form inits l =>
    simp only [Exp.occurrences, seen_append, seen_names] at seen
    obtain ⟨⟨⟨⟨size, sources⟩, initials⟩, -⟩, seen⟩ := seen
    refine (blind_int size).bind fun n => (blind_operands initials).bind fun vs => ?_
    exact (blind_lookups sources).bind fun rows => blind_applyLambda runs seen _
  | hist width ops bucket arrays =>
    simp only [Exp.occurrences, seen_append, seen_names] at seen
    obtain ⟨⟨⟨size, updated⟩, seen⟩, sources⟩ := seen
    exact blind_hist runs size (seen_histograms updated) seen sources
  | scatter width l arrays dests =>
    simp only [Exp.occurrences, seen_append, seen_names, seen_flatMap] at seen
    obtain ⟨⟨⟨size, seen⟩, sources⟩, targets⟩ := seen
    refine blind_scatter runs size seen sources fun d mem => targets d mem (.reads d.array) ?_
    simp [ScatterDest.occurrences]

theorem blind_stm (fuel : Nat) {s : Stm} (seen : Seen on s.occurrences) :
    Blind on (stm run fuel s) := by
  obtain ⟨pat, aux, e⟩ := s
  simp only [Stm.occurrences, seen_append] at seen
  exact (blind_exp runs fuel seen.1.2).bind fun vs => blind_bindNames _ vs

theorem blind_stms (fuel : Nat) {ss : List Stm} (seen : Seen on (stmOccurrences ss)) :
    Blind on (ss.forM (stm run fuel)) := by
  refine blind_forM fun s mem => blind_stm runs fuel ?_
  induction ss with
  | nil => simp at mem
  | cons t ss ih =>
    simp only [stmOccurrences, seen_append] at seen
    rcases List.mem_cons.mp mem with rfl | mem
    · exact seen.1
    · exact ih seen.2 mem

end

/-- Bodies in which visible names only occur are blind, however long they run. -/
theorem blind_runBody [ScalarAlgebra α] (fuel : Nat) {b : Body} (seen : Seen on b.occurrences) :
    Blind on (runBody fuel b : Run α (List (Value α))) := by
  induction fuel generalizing b with
  | zero => exact blind_outOfFuel
  | succ fuel ih =>
    obtain ⟨ss, result⟩ := b
    simp only [Body.occurrences, seen_append] at seen
    exact (blind_stms (fun b seen => ih seen) fuel seen.1).bind fun _ => blind_operands seen.2

end Run

/-! Lambdas. -/

/-- A parameter that a valid body does not read from outside does not occur in the body at all. -/
theorem Lambda.param_not_occurring {l : Lambda} (valid : l.validate = .ok ()) {x : Name}
    (param : x ∈ l.params.map (·.name)) (unread : x ∉ l.body.freeNames) :
    ∀ o ∈ l.body.occurrences, o.name ≠ x := by
  have unbound := Lambda.param_not_bound valid param
  intro o mem same
  cases o with
  | binds y => exact unbound (Occurrences.mem_binders.mpr (same ▸ mem))
  | reads y => exact unread (Occurrences.mem_freeFrom List.not_mem_nil unbound (same ▸ mem))

/-- What a valid lambda comes to does not depend on the parameters that its body does not read from
    outside, whatever is passed for them. -/
theorem Lambda.interp_eq_of_unread [ScalarAlgebra α] {l : Lambda} (valid : l.validate = .ok ())
    {ignored : List Name} (params : ignored ⊆ l.params.map (·.name))
    (unread : ∀ x ∈ ignored, x ∉ l.body.freeNames) {args args' : List (Value α)}
    (count : args.length = l.params.length) (count' : args'.length = l.params.length)
    (same : ∀ (i : Nat) (p : Param), l.params[i]? = some p → p.name ∉ ignored → args[i]? = args'[i]?)
    (fuel : Nat) : l.interp args fuel = l.interp args' fuel := by
  have seen : Seen (· ∉ ignored) l.body.occurrences := fun o mem isIgnored =>
    Lambda.param_not_occurring valid (params isIgnored) (unread _ isIgnored) o mem rfl
  let names := l.params.map (·.name)
  have matching : (Store.initial.bound names args).Matches (· ∉ ignored)
      (Store.initial.bound names args') := by
    have agree := Store.Agree.refl (· ∉ ignored) (Store.initial : Store α)
    refine ⟨agree.bound_both (count.trans count'.symm) ?_, rfl, fun op mem => ?_⟩
    · intro i x at_i visible
      obtain ⟨p, isParam, rfl⟩ : ∃ p, l.params[i]? = some p ∧ p.name = x := by
        simpa [names] using at_i
      exact same i p isParam visible
    · simp [Store.bound, Store.initial] at mem
  have entered (vs : List (Value α)) (fits : vs.length = l.params.length) :
      Run.outcome (Run.applyLambda (Run.runBody fuel) l vs) Store.initial =
        Run.outcome (Run.runBody fuel l.body) (Store.initial.bound names vs) := by
    have bound : Run.outcome (Run.bind names vs) Store.initial =
        some (.ok ((), Store.initial.bound names vs)) :=
      (Run.ends_bindNames ..).mpr ⟨by simpa [names] using fits, rfl⟩
    rw [Run.applyLambda, Run.outcome_bind, bound]
  rw [interp_eq, interp_eq, entered args count, entered args' count']
  have outcomes := Run.blind_runBody fuel seen _ _ matching
  generalize Run.outcome (Run.runBody fuel l.body) (Store.initial.bound names args) = r at outcomes ⊢
  generalize Run.outcome (Run.runBody fuel l.body) (Store.initial.bound names args') = q
    at outcomes ⊢
  cases outcomes with
  | starved => rfl
  | failed e => rfl
  | ended vs matching => rfl

end

/-- The region adds to its own accumulator. Neither the handle that is passed in nor the number after
    the array is read. -/
def ignoresHandle : Lambda :=
  let t : Ty := .scalar (.int .i64)
  let one : Operand := .const (.int .i64 1)
  let handle (x : Nat) : Param := ⟨⟨x⟩, .acc ⟨x⟩ [one] [t] false⟩
  let region : Lambda := ⟨[handle 3],
    ⟨[⟨[handle 4], .none, .basic (.updateAcc ⟨3⟩ [.const (.int .i64 0)] [one])⟩], [.var ⟨4⟩]⟩,
    [(handle 4).ty]⟩
  ⟨[handle 0, ⟨⟨1⟩, .array (.int .i64) [one] false⟩, ⟨⟨2⟩, t⟩],
    ⟨[⟨[⟨⟨5⟩, .array (.int .i64) [one] false⟩], .none, .withAcc [⟨[one], [⟨1⟩], none⟩] region⟩],
      [.var ⟨5⟩]⟩, [.array (.int .i64) [one] false]⟩

/-- What is passed for the handle has the id that the accumulator of the region gets, or no id. -/
def ignoresHandleArgs (handle number : Value) : List Value :=
  [handle, .array [.scalar (.int .i64 3)], number]

theorem ignoresHandle_blind :
    ignoresHandle.interp (ignoresHandleArgs (.acc 0 []) (.scalar (.int .i64 7))) 5 =
      ignoresHandle.interp (ignoresHandleArgs (.array []) (.scalar .cert)) 5 := by
  have ignored : [⟨0⟩, ⟨2⟩] ⊆ ignoresHandle.params.map (·.name) := by decide
  refine Lambda.interp_eq_of_unread (by decide) ignored (by decide) rfl rfl ?_ 5
  intro i p at_i visible
  match i with
  | 0 =>
    obtain rfl := Option.some.inj at_i
    simp at visible
  | 1 => rfl
  | 2 =>
    obtain rfl := Option.some.inj at_i
    simp at visible
  | i + 3 => rfl

example : ignoresHandle.interp (ignoresHandleArgs (.array []) (.scalar .cert)) 5 =
    some (.ok [.array [.scalar (.int .i64 1)]]) := by rfl

end Cotangent
