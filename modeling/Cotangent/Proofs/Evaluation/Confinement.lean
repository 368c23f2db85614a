import Cotangent.Proofs.Evaluation.Blindness
import Cotangent.Proofs.Program.Rewriting
/-!
Code without accumulators touches the store through the names that occur in it and in no other way: it reads
values of names and binds names to values. It looks at no combining operator and opens no accumulator. A
confined run is one put together from such steps, and whatever each step keeps of two stores side by side, the
whole run keeps. So two stores that differ elsewhere see the same run, with the same value or the same fault.
-/
namespace Cotangent

open Occurrences

variable {α β γ : Type}

namespace Run

/-- The run reads and binds names that `on` picks out, and does nothing else to the store. -/
inductive Confined (on : Name → Prop) : {β : Type} → Run α β → Prop
  | lift {β : Type} (m : Except (Fault α) β) : Confined on (liftM m : Run α β)
  | outOfFuel {β : Type} : Confined on (outOfFuel : Run α β)
  | lookup {x : Name} : on x → Confined on (lookup x : Run α (Value α))
  | bindNames {xs : List Name} (vs : List (Value α)) : (∀ x ∈ xs, on x) → Confined on (Run.bind xs vs)
  | bind {β γ : Type} {m : Run α β} {f : β → Run α γ} : Confined on m → (∀ b, Confined on (f b)) →
      Confined on (m >>= f)

namespace Confined

variable {on : Name → Prop}

theorem pure (b : β) : Confined on (pure b : Run α β) := .lift (.ok b)

theorem throw (e : Fault α) : Confined on (throw e : Run α β) := .lift (.error e)

theorem set {x : Name} (visible : on x) (v : Value α) : Confined on (set x v) :=
  .bindNames [v] (List.forall_mem_singleton.mpr visible)

theorem mapM {f : β → Run α γ} {xs : List β} (each : ∀ x ∈ xs, Confined on (f x)) :
    Confined on (xs.mapM f) := by
  induction xs with
  | nil => exact .pure []
  | cons x xs ih =>
    rw [List.mapM_cons]
    have rest := ih fun y later => each y (by simp [later])
    exact (each x (by simp)).bind fun y => rest.bind fun ys => .pure (y :: ys)

theorem forM {f : β → Run α Unit} {xs : List β} (each : ∀ x ∈ xs, Confined on (f x)) :
    Confined on (xs.forM f) := by
  induction xs with
  | nil => exact .pure ()
  | cons x xs ih =>
    rw [List.forM_eq_forM, List.forM_cons, ← List.forM_eq_forM]
    exact (each x (by simp)).bind fun _ => ih fun y later => each y (by simp [later])

theorem rounds {step : Nat → β → Run α β} (each : ∀ i b, Confined on (step i b)) (n i : Nat) (b : β) :
    Confined on (rounds step n i b) := by
  induction n generalizing i b with
  | zero => exact .pure b
  | succ n ih => exact (each i b).bind fun b => ih (i + 1) b

theorem repeatWhile {holds : Run α Bool} {step : Run α Unit} (condition : Confined on holds)
    (round : Confined on step) (fuel : Nat) : Confined on (repeatWhile holds step fuel) := by
  induction fuel with
  | zero => exact .outOfFuel
  | succ fuel ih =>
    refine condition.bind fun b => ?_
    cases b with
    | false => exact .pure ()
    | true => exact round.bind fun _ => ih

theorem lookups {xs : List Name} (visible : ∀ x ∈ xs, on x) :
    Confined on (lookups xs : Run α (List (Value α))) :=
  .mapM fun x mem => .lookup (visible x mem)

/-! Operands and their parts. -/

section

variable [ScalarAlgebra α]

theorem operand {x : Operand} (seen : Seen on x.occurrences) :
    Confined on (operand x : Run α (Value α)) := by
  cases x with
  | const v => exact .pure _
  | var x => exact .lookup (seen (.reads x) List.mem_cons_self)

theorem operands {xs : List Operand} (seen : Seen on (operandOccurrences xs)) :
    Confined on (operands xs : Run α (List (Value α))) :=
  .mapM fun x mem => .operand ((seen_operands xs).mp seen x mem)

theorem scalar {x : Operand} (seen : Seen on x.occurrences) : Confined on (scalar x : Run α α) :=
  (operand seen).bind fun v => .lift v.asScalar

theorem int {x : Operand} (seen : Seen on x.occurrences) : Confined on (int x : Run α Int) :=
  (scalar seen).bind fun v => .lift (ScalarAlgebra.asInt v)

theorem number {x : Operand} (seen : Seen on x.occurrences) : Confined on (number x : Run α α) :=
  (scalar seen).bind fun v => (Confined.lift (ScalarAlgebra.asInt v)).bind fun _ => .pure v

theorem size {x : Operand} (seen : Seen on x.occurrences) : Confined on (size x : Run α Nat) :=
  (int seen).bind fun n => .lift (asSize n)

theorem sizes {xs : List Operand} (seen : Seen on (operandOccurrences xs)) :
    Confined on (sizes xs : Run α (List Nat)) :=
  .mapM fun x mem => .size ((seen_operands xs).mp seen x mem)

theorem dim {d : DimIndex} (seen : Seen on d.occurrences) : Confined on (dim d : Run α Dim) := by
  cases d with
  | fix i => exact (int seen).bind fun n => .pure _
  | slice start len stride =>
    simp only [DimIndex.occurrences, seen_append] at seen
    refine (int seen.1.1).bind fun _ => (int seen.1.2).bind fun _ => ?_
    exact (int seen.2).bind fun _ => .pure _

theorem dims {ds : List DimIndex} (seen : Seen on (sliceOccurrences ds)) :
    Confined on (dims ds : Run α (List Dim)) :=
  .mapM fun d mem => .dim ((seen_slice ds).mp seen d mem)

theorem basicOp {op : BasicOp} (seen : Seen on op.occurrences)
    (alone : (Exp.basic op).accumulates = false) (run : Body → Run α (List (Value α))) :
    Confined on (basicOp run op) := by
  cases op with
  | operand x => exact operand seen
  | arrayLit elems ty =>
    simp only [BasicOp.occurrences, seen_append] at seen
    exact (operands seen.1).bind fun vs => .pure _
  | unary op x => exact (scalar seen).bind fun v => (Confined.lift _).bind fun _ => .pure _
  | binary op x y =>
    simp only [BasicOp.occurrences, seen_append] at seen
    refine (scalar seen.1).bind fun u => (scalar seen.2).bind fun v => ?_
    exact (Confined.lift _).bind fun _ => .pure _
  | compare op x y =>
    simp only [BasicOp.occurrences, seen_append] at seen
    refine (scalar seen.1).bind fun u => (scalar seen.2).bind fun v => ?_
    exact (Confined.lift _).bind fun _ => .pure _
  | convert op x => exact (scalar seen).bind fun v => (Confined.lift _).bind fun _ => .pure _
  | index array slice =>
    simp only [BasicOp.occurrences, seen_cons] at seen
    exact (Confined.lookup seen.1).bind fun v => (dims seen.2).bind fun ds => .lift _
  | update array slice value =>
    simp only [BasicOp.occurrences, seen_cons, seen_append] at seen
    refine (Confined.lookup seen.1).bind fun v => (dims seen.2.1).bind fun ds => ?_
    exact (operand seen.2.2).bind fun x => .lift _
  | concat dim first rest width =>
    simp only [BasicOp.occurrences, seen_append, seen_names] at seen
    exact (lookups seen.1).bind fun vs => .lift _
  | copy array => exact .lookup (seen (.reads array) List.mem_cons_self)
  | manifest perm array => exact .lookup (seen (.reads array) List.mem_cons_self)
  | reshape shape array =>
    simp only [BasicOp.occurrences, seen_append, seen_cons] at seen
    exact (Confined.lookup seen.2.1).bind fun v => (sizes seen.1).bind fun shape => .lift _
  | rearrange perm array =>
    exact (Confined.lookup (seen (.reads array) List.mem_cons_self)).bind fun v => .lift _
  | rotate offsets array =>
    simp only [BasicOp.occurrences, seen_append, seen_cons, seen_operands] at seen
    refine (Confined.mapM fun x mem => int (seen.1 x mem)).bind fun ns => ?_
    exact (Confined.lookup seen.2.1).bind fun v => .lift _
  | iota count start step w =>
    simp only [BasicOp.occurrences, seen_operands, List.forall_mem_cons] at seen
    refine (int seen.1).bind fun _ => (number seen.2.1).bind fun _ => ?_
    exact (number seen.2.2.1).bind fun _ => .pure _
  | replicate shape value =>
    simp only [BasicOp.occurrences, seen_append] at seen
    exact (sizes seen.1).bind fun _ => (operand seen.2).bind fun _ => .pure _
  | scratch elem shape => exact (sizes seen).bind fun _ => .pure _
  | assert cond msg =>
    refine (scalar seen).bind fun v => (Confined.lift (ScalarAlgebra.asBool v)).bind fun b => ?_
    cases b with
    | false => exact .throw _
    | true => exact .pure _
  | updateAcc acc position values => simp [Exp.accumulates] at alone

end

/-! Constructs, over the bodies that they enter. -/

section

variable {run : Body → Run α (List (Value α))}

theorem applyLambda {l : Lambda} (params : ∀ x ∈ l.params.map (·.name), on x)
    (inside : Confined on (run l.body)) (args : List (Value α)) :
    Confined on (applyLambda run l args) :=
  (Confined.bindNames args params).bind fun _ => inside

theorem combine {l : Lambda} (calls : ∀ args, Confined on (Run.applyLambda run l args))
    (acc vs : List (Value α)) : Confined on (combine run l acc vs) :=
  (calls _).bind fun new => (Confined.lift (checkArity acc.length new.length)).bind fun _ => .pure new

theorem combineGroups {ops : List Lambda}
    (calls : ∀ op ∈ ops, ∀ args, Confined on (Run.applyLambda run op args))
    (accs : List (List (Value α))) (vs : List (Value α)) :
    Confined on (combineGroups run ops accs vs) := by
  induction ops generalizing accs vs with
  | nil => exact .pure accs
  | cons op ops ih =>
    cases accs with
    | nil => exact .pure []
    | cons acc accs =>
      refine (combine (calls op (by simp)) acc _).bind fun new => ?_
      exact (ih (fun o later => calls o (by simp [later])) accs _).bind fun _ => .pure _

theorem step {b : Body} (inside : Confined on (run b)) {params : List Name}
    (visible : ∀ x ∈ params, on x) : Confined on (step run params b) :=
  inside.bind fun vs => .bindNames vs visible

variable [ScalarAlgebra α]

theorem round {b : Body} (inside : Confined on (run b)) {params : List Name} {counter : Name}
    (visible : ∀ x ∈ params, on x) (counted : on counter) (w : IntWidth)
    {rows : List (Name × Table α)} (named : ∀ r ∈ rows, on r.1) (i : Nat) :
    Confined on (round run params counter w rows b i ()) := by
  refine (Confined.set counted _).bind fun _ => (Confined.forM fun r mem => ?_).bind fun _ =>
    step inside visible
  exact (Confined.lift r.2).bind fun table => (Confined.lift _).bind fun row => .set (named r mem) row

theorem loop {merge : List (Param × Operand)} {form : LoopForm} {b : Body} (fuel : Nat)
    (seen : Seen on (loopOccurrences merge form b.occurrences)) (inside : Confined on (run b)) :
    Confined on (loop run fuel merge form b) := by
  cases form with
  | whileHolds cond =>
    simp only [loopOccurrences, seen_append, seen_cons] at seen
    obtain ⟨⟨⟨inits, params⟩, -⟩, guard, -⟩ := seen
    have visible := params.params
    rw [List.map_map] at visible
    refine (operands inits).bind fun vs => (Confined.bindNames vs visible).bind fun _ => ?_
    refine (repeatWhile ?_ (step inside visible) fuel).bind fun _ => lookups visible
    exact (Confined.lookup guard).bind fun v => (Confined.lift _).bind fun a => .lift _
  | forBelow counter w bound arrays =>
    simp only [loopOccurrences, seen_append, seen_cons, seen_names] at seen
    obtain ⟨⟨⟨⟨⟨inits, size⟩, sources⟩, params⟩, counted, rowParams⟩, -⟩ := seen
    have visible := params.params
    have named := rowParams.params
    rw [List.map_map] at visible named
    refine (operands inits).bind fun vs => (Confined.bindNames vs visible).bind fun _ => ?_
    refine (lookups sources).bind fun vs => (int size).bind fun n => ?_
    refine (rounds (fun i _ => round inside visible counted w (fun r mem => ?_) i) _ 0 ()).bind fun _ =>
      lookups visible
    exact named r.1 (List.of_mem_zip mem).1

theorem screma {width : Operand} {arrays : List Name} {scans : List Combiner}
    {reduces : List Reduction} {map : Lambda} (width_ : Seen on width.occurrences)
    (sources : ∀ x ∈ arrays, on x)
    (scanned : ∀ c ∈ scans, Seen on (operandOccurrences c.neutral) ∧
      ∀ args, Confined on (Run.applyLambda run c.op args))
    (reduced : ∀ r ∈ reduces, Seen on (operandOccurrences r.combiner.neutral) ∧
      ∀ args, Confined on (Run.applyLambda run r.combiner.op args))
    (mapped : ∀ args, Confined on (Run.applyLambda run map args)) :
    Confined on (screma run width arrays scans reduces map) := by
  refine (size width_).bind fun n => (lookups sources).bind fun vs => ?_
  refine (mapM fun c mem => operands (scanned c mem).1).bind fun scanAccs => ?_
  refine (mapM fun r mem => operands (reduced r mem).1).bind fun reduceAccs => ?_
  refine (rounds (fun i s => ?_) n 0 _).bind fun _ => .pure _
  refine (Confined.lift (rowsAt _ i)).bind fun rows => (mapped rows).bind fun new => ?_
  refine (Confined.lift _).bind fun p => (Confined.lift _).bind fun q => ?_
  refine (combineGroups (fun op mem => ?_) _ _).bind fun _ => ?_
  · obtain ⟨c, isScan, rfl⟩ := List.mem_map.mp mem
    exact (scanned c isScan).2
  refine (combineGroups (fun op mem => ?_) _ _).bind fun _ => ?_
  · obtain ⟨r, isReduction, rfl⟩ := List.mem_map.mp mem
    exact (reduced r isReduction).2
  exact (Confined.lift _).bind fun _ => .pure _

theorem histRow {ops : List Histogram}
    (calls : ∀ h ∈ ops, ∀ args, Confined on (Run.applyLambda run h.combiner.op args))
    (dests : List (List (Value α))) (idxs vs : List (Value α)) :
    Confined on (histRow run ops dests idxs vs) := by
  induction ops generalizing dests idxs vs with
  | nil => exact .pure dests
  | cons h ops ih =>
    cases dests with
    | nil => exact .pure []
    | cons ds dests =>
      have later := ih fun o mem => calls o (by simp [mem])
      refine (Confined.lift _).bind fun at_ => (Confined.lift _).bind fun old => ?_
      cases old with
      | none => exact (Confined.pure ds).bind fun _ => (later dests _ _).bind fun _ => .pure _
      | some old =>
        refine (combine (calls h (by simp)) old _).bind fun new => ?_
        refine (mapM fun p _ => .lift _).bind fun _ => ?_
        exact (later dests _ _).bind fun _ => .pure _

theorem hist {width : Operand} {ops : List Histogram} {bucket : Lambda} {arrays : List Name}
    (width_ : Seen on width.occurrences) (sources : ∀ x ∈ arrays, on x)
    (updated : ∀ h ∈ ops, (∀ x ∈ h.dests, on x) ∧
      ∀ args, Confined on (Run.applyLambda run h.combiner.op args))
    (calls : ∀ args, Confined on (Run.applyLambda run bucket args)) :
    Confined on (hist run width ops bucket arrays) := by
  refine (size width_).bind fun n => (lookups sources).bind fun vs => ?_
  refine (mapM fun h mem => lookups (updated h mem).1).bind fun dests => ?_
  refine (rounds (fun i dests => ?_) n 0 _).bind fun _ => .pure _
  refine (Confined.lift (rowsAt _ i)).bind fun rows => (calls rows).bind fun new => ?_
  exact (Confined.lift _).bind fun p => histRow (fun h mem => (updated h mem).2) dests p.1 p.2

theorem scatter {width : Operand} {l : Lambda} {arrays : List Name} {dests : List ScatterDest}
    (width_ : Seen on width.occurrences) (sources : ∀ x ∈ arrays, on x)
    (targets : ∀ x ∈ dests.map (·.array), on x)
    (calls : ∀ args, Confined on (Run.applyLambda run l args)) :
    Confined on (scatter run width l arrays dests) := by
  refine (size width_).bind fun n => (lookups sources).bind fun vs => ?_
  refine (lookups targets).bind fun outs => rounds (fun i outs => ?_) n 0 outs
  refine (Confined.lift (rowsAt _ i)).bind fun rows => (calls rows).bind fun new => ?_
  exact (Confined.lift _).bind fun p => .lift (scatterRow dests outs p.1 p.2)

/-- One case for each construct. -/
theorem exp (fuel : Nat) {e : Exp} (seen : Seen on e.occurrences) (alone : e.accumulates = false)
    (bodies : ∀ b ∈ e.bodies, Confined on (run b)) : Confined on (exp run fuel e) := by
  have calls {l : Lambda} (seen : Seen on l.occurrences) (entered : l.body ∈ e.bodies) :
      ∀ args, Confined on (Run.applyLambda run l args) :=
    applyLambda ((seen_lambda l).mp seen).1.params (bodies _ entered)
  cases e with
  | basic op => exact (basicOp seen alone run).bind fun v => .pure [v]
  | apply func args ret =>
    simp only [Exp.occurrences, seen_append, seen_operands] at seen
    refine (mapM fun x mem => scalar (seen.1 x mem)).bind fun vs => ?_
    exact (Confined.lift (ScalarAlgebra.call func vs)).bind fun v => .pure _
  | branch cond yes no ret sort =>
    simp only [Exp.occurrences, seen_append] at seen
    refine (scalar seen.1.1.1).bind fun v => (Confined.lift (ScalarAlgebra.asBool v)).bind fun b => ?_
    cases b with
    | false => exact bodies no (by simp [Exp.bodies])
    | true => exact bodies yes (by simp [Exp.bodies])
  | loop merge form b => exact loop fuel seen (bodies b (by simp [Exp.bodies]))
  | withAcc inputs l => simp [Exp.accumulates] at alone
  | screma width arrays scans reduces map =>
    simp only [Exp.occurrences, seen_append, seen_names, seen_combiners, seen_reductions,
      seen_combiner] at seen
    obtain ⟨⟨⟨⟨width_, sources⟩, scanned⟩, reduced⟩, mapped⟩ := seen
    refine screma width_ sources (fun c mem => ⟨(scanned c mem).1, calls (scanned c mem).2 ?_⟩)
      (fun r mem => ⟨(reduced r mem).1, calls (reduced r mem).2 ?_⟩) (calls mapped ?_)
    · exact List.mem_cons_of_mem _ (List.mem_append_left _ (List.mem_map_of_mem mem))
    · exact List.mem_cons_of_mem _ (List.mem_append_right _ (List.mem_map_of_mem mem))
    · exact List.mem_cons_self
  | stream width arrays form inits l =>
    simp only [Exp.occurrences, seen_append, seen_names] at seen
    obtain ⟨⟨⟨⟨width_, sources⟩, initials⟩, -⟩, seen⟩ := seen
    refine (int width_).bind fun n => (operands initials).bind fun vs => ?_
    exact (lookups sources).bind fun rows => calls seen (by simp [Exp.bodies]) _
  | hist width ops bucket arrays =>
    simp only [Exp.occurrences, seen_append, seen_names] at seen
    obtain ⟨⟨⟨width_, updated⟩, seen⟩, sources⟩ := seen
    refine hist width_ sources (fun h mem => ⟨(seen_histograms updated h mem).1, ?_⟩)
      (calls seen List.mem_cons_self)
    exact calls (seen_histograms updated h mem).2
      (List.mem_cons_of_mem _ (List.mem_map_of_mem mem))
  | scatter width l arrays dests =>
    simp only [Exp.occurrences, seen_append, seen_names, seen_flatMap] at seen
    obtain ⟨⟨⟨width_, seen⟩, sources⟩, targets⟩ := seen
    refine scatter width_ sources (List.forall_mem_map.mpr fun d mem => ?_)
      (calls seen (by simp [Exp.bodies]))
    exact targets d mem (.reads d.array) (by simp [ScatterDest.occurrences])

end

end Confined

variable [ScalarAlgebra α] {on : Name → Prop}

theorem seen_bodies {e : Exp} (seen : Seen on e.occurrences) :
    ∀ b ∈ e.bodies, Seen on b.occurrences := by
  rw [← Exp.entered_bodies [], List.forall_mem_map]
  have around : ∀ x ∈ ([] : Scope), on x := by simp
  exact fun p mem => (Exp.seen_entered seen around p mem).1

/-- Statements without accumulators, whatever the fuel. -/
theorem confined_stms {fuel : Nat} {ss : List Stm}
    (bodies : ∀ b : Body, AccFree b.parts → Seen on b.occurrences → Confined on (runBody fuel b : Run α _))
    (free : AccFree (stmParts ss)) (seen : Seen on (stmOccurrences ss)) :
    Confined on (stms fuel ss : Run α Unit) := by
  refine .forM fun s mem => ?_
  obtain ⟨-, inExp, pattern⟩ := (seen_stm s).mp ((seen_stms ss).mp seen s mem)
  have freeStm := free.mono (parts_sublist_stms mem)
  have freeExp := freeStm.mono (Exp.parts_sublist_stm s)
  refine (Confined.exp fuel inExp (freeStm s (stm_mem_parts s)) fun b entered => ?_).bind fun vs =>
    .bindNames vs pattern.params
  exact bodies b (freeExp.mono (Exp.parts_of_body entered)) (seen_bodies inExp b entered)

theorem confined_runBody (fuel : Nat) {b : Body} (free : AccFree b.parts)
    (seen : Seen on b.occurrences) : Confined on (runBody fuel b : Run α (List (Value α))) := by
  induction fuel generalizing b with
  | zero => exact .outOfFuel
  | succ fuel ih =>
    obtain ⟨inStms, results⟩ := (seen_body b).mp seen
    rw [b.parts_eq] at free
    have ran := confined_stms (fun b free seen => ih free seen)
      (free.mono (List.sublist_cons_self _ _)) inStms
    exact ran.bind fun _ => .operands results

end Run

end Cotangent
