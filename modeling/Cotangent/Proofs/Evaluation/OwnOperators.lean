import Cotangent.Proofs.Evaluation.Confinement
/-!
Whose operator an update applies. Accumulators are numbered in the order in which they are opened, and the
operators of the open ones are looked up by number. The table of operators only grows, so a number that was
given out stands for the operator of one region for the rest of the run. This is stated by runs that have no
use for the table: a register says beforehand which operator each number stands for, updates apply what is
registered, and whoever opens an accumulator under another operator stops the run.
-/
namespace Cotangent

open ScalarAlgebra

namespace Run.Owned

/-- What each number of an accumulator stands for, and how a run is stopped that does not go by it. -/
structure Register (α : Type) where
  own : Nat → Option Lambda
  stop : Fault α

section

variable {α : Type}

/-- The registered operator, if the number was given out. An update of any other accumulator replaces. -/
def Register.operator (w : Register α) (given number : Nat) : Option Lambda :=
  if number < given then w.own number else none

/-- The register has the operators of the table. -/
def Register.Has (w : Register α) (table : List (Option Lambda)) : Prop :=
  ∀ number op, table[number]? = some op → w.own number = op

theorem Register.Has.mono {w : Register α} {table more : List (Option Lambda)} (has : w.Has more)
    (sub : table <+: more) : w.Has table := by
  obtain ⟨others, rfl⟩ := sub
  intro number op found
  have within : number < table.length := (List.getElem?_eq_some_iff.mp found).1
  exact has number op (by rw [List.getElem?_append_left within, found])

theorem Register.Has.operator_eq {w : Register α} {table : List (Option Lambda)} (has : w.Has table)
    (number : Nat) : w.operator table.length number = (table[number]?).join := by
  unfold Register.operator
  split
  · rename_i within
    have found := List.getElem?_eq_getElem within
    rw [has number _ found, found, Option.join_some]
  · rename_i beyond
    rw [List.getElem?_eq_none (by omega), Option.join_none]

variable (w : Register α) (run : Body → Run α (List (Value α)))

open Classical in
/-- Opens an accumulator, and stops unless its operator is the registered one. -/
noncomputable def openAcc (input : AccInput) : Run α (Value α) := do
  let number := (← get).combiners.length
  let acc ← Run.openAcc input
  if w.own number = input.combine.map (·.op) then return acc else throw w.stop

noncomputable def withAcc (inputs : List AccInput) (l : Lambda) : Run α (List (Value α)) := do
  let accs ← inputs.mapM (openAcc w)
  let (accs, rest) ← splitValues (← applyLambda run l accs) inputs.length
  let arrays : List (List (Value α)) ← accs.mapM fun v => closeAcc (α := α) v
  return arrays.flatten ++ rest

variable [ScalarAlgebra α]

/-- An update with the registered operator. One outside the arrays changes nothing. -/
def updateAcc (acc : Name) (position values : List Operand) : Run α (Value α) := do
  match ← lookup acc with
  | .acc number arrays =>
    let idx ← operands position
    let ds ← fixedDims idx
    let vs ← operands values
    match ← inBounds (arrays.mapM (Value.index ds)) with
    | none => return .acc number arrays
    | some old =>
      let new ← match w.operator (← get).combiners.length number with
        | some op => applyLambda run op (idx ++ old ++ vs)
        | none => pure vs
      checkArity (α := α) arrays.length new.length
      let arrays ← (arrays.zip new).mapM fun p => Value.update (α := α) ds p.1 p.2
      return .acc number arrays
  | v => throw (.mismatch .accumulator v)

noncomputable def exp (fuel : Nat) : Exp → Run α (List (Value α))
  | .basic (.updateAcc acc position values) => do return [← updateAcc w run acc position values]
  | .withAcc inputs l => withAcc w run inputs l
  | e => Run.exp run fuel e

noncomputable def stm (fuel : Nat) (s : Stm) : Run α Unit := do
  Run.bind (s.pat.map (·.name)) (← exp w run fuel s.exp)

noncomputable def runBody : Nat → Body → Run α (List (Value α))
  | 0, _ => outOfFuel
  | fuel + 1, b => do
    b.stms.forM (stm w (runBody fuel) fuel)
    operands b.result

end

section

variable {α β γ : Type}

/-- The run leaves the table as it is. -/
theorem quiet_of_confined {on : Name → Prop} {m : Run α β} (confined : Confined on m) :
    ∀ σ b τ, Ends m σ b τ → τ.combiners = σ.combiners := by
  induction confined with
  | lift m =>
    intro σ b τ ends
    obtain ⟨-, rfl⟩ := (ends_lift ..).mp ends
    rfl
  | outOfFuel => exact fun σ b τ ends => absurd ends (ends_outOfFuel σ τ b)
  | lookup visible =>
    intro σ b τ ends
    obtain ⟨-, rfl⟩ := (ends_lookup ..).mp ends
    rfl
  | bindNames vs visible =>
    intro σ b τ ends
    obtain ⟨-, rfl⟩ := (ends_bindNames ..).mp ends
    rfl
  | bind _ _ first rest =>
    intro σ c υ ends
    obtain ⟨b, τ, ran, ends⟩ := (ends_bind ..).mp ends
    rw [rest b τ c υ ends, first σ b τ ran]

/-- Wherever the run starts, there is a table of the operators that it will have opened: it extends the one
    at the start, and is the one at the end. Under any register that has it the second run comes to the
    same. -/
def Foretold (m : Run α β) (m' : Register α → Run α β) : Prop :=
  ∀ σ, ∃ table, σ.combiners <+: table ∧ (∀ b τ, Ends m σ b τ → τ.combiners = table) ∧
    ∀ w : Register α, w.Has table → outcome (m' w) σ = outcome m σ

namespace Foretold

variable {m : Run α β} {m' : Register α → Run α β} {f : β → Run α γ} {f' : Register α → β → Run α γ}

theorem confined (confined : Confined (fun _ => True) m) : Foretold m fun _ => m :=
  fun σ => ⟨σ.combiners, List.prefix_rfl, quiet_of_confined confined σ, fun _ _ => rfl⟩

theorem bind (first : Foretold m m') (rest : ∀ b, Foretold (f b) fun w => f' w b) :
    Foretold (m >>= f) fun w => m' w >>= f' w := by
  intro σ
  obtain ⟨table, grown, final, same⟩ := first σ
  by_cases goesOn : ∃ b τ, Ends m σ b τ
  · obtain ⟨b, τ, ran⟩ := goesOn
    have known : outcome m σ = some (.ok (b, τ)) := ran
    obtain ⟨more, grown', final', same'⟩ := rest b τ
    rw [final b τ ran] at grown'
    refine ⟨more, grown.trans grown', fun c υ ends => final' c υ ?_, fun w has => ?_⟩
    · rwa [Ends, outcome_bind, known] at ends
    · rw [outcome_bind, outcome_bind, same w (has.mono grown'), known]
      exact same' w has
  · refine ⟨table, grown, fun c υ ends => ?_, fun w has => ?_⟩
    · obtain ⟨b, τ, ran, -⟩ := (ends_bind ..).mp ends
      exact absurd ⟨b, τ, ran⟩ goesOn
    · rw [outcome_bind, outcome_bind, same w has]
      cases ran : outcome m σ with
      | none => rfl
      | some r =>
        cases r with
        | error e => rfl
        | ok p => exact absurd ⟨p.1, p.2, ran⟩ goesOn

/-- What comes first opens nothing. -/
theorem next (first : Confined (fun _ => True) m) (rest : ∀ b, Foretold (f b) fun w => f' w b) :
    Foretold (m >>= f) fun w => m >>= f' w :=
  (confined first).bind rest

/-- What comes afterwards opens nothing. -/
theorem before (first : Foretold m m') (rest : ∀ b, Confined (fun _ => True) (f b)) :
    Foretold (m >>= f) fun w => m' w >>= f :=
  first.bind fun b => confined (rest b)

/-- What follows may depend on the table as it is, and on what the register says of it. -/
theorem read {f : Store α → Run α γ} {f' : Register α → Store α → Run α γ}
    (each : ∀ σ : Store α, ∃ g, Foretold (f σ) g ∧ ∀ w : Register α, w.Has σ.combiners → f' w σ = g w) :
    Foretold (get >>= f) fun w => get >>= f' w := by
  intro σ
  obtain ⟨g, told, agrees⟩ := each σ
  obtain ⟨table, grown, final, same⟩ := told σ
  refine ⟨table, grown, final, fun w has => ?_⟩
  show outcome (f' w σ) σ = outcome (f σ) σ
  rw [agrees w (has.mono grown), same w has]

theorem mapM {f : γ → Run α β} {f' : Register α → γ → Run α β} (each : ∀ x, Foretold (f x) fun w => f' w x)
    (xs : List γ) : Foretold (xs.mapM f) fun w => xs.mapM (f' w) := by
  induction xs with
  | nil => exact confined (.pure [])
  | cons x xs ih =>
    simp only [List.mapM_cons]
    exact (each x).bind fun y => ih.before fun ys => .pure (y :: ys)

theorem forM {f : γ → Run α Unit} {f' : Register α → γ → Run α Unit}
    (each : ∀ x, Foretold (f x) fun w => f' w x) (xs : List γ) :
    Foretold (xs.forM f) fun w => xs.forM (f' w) := by
  induction xs with
  | nil => exact confined (.pure ())
  | cons x xs ih =>
    simp only [List.forM_eq_forM, List.forM_cons] at ih ⊢
    exact (each x).bind fun _ => ih

theorem rounds {step : Nat → β → Run α β} {step' : Register α → Nat → β → Run α β}
    (each : ∀ i b, Foretold (step i b) fun w => step' w i b) (n i : Nat) (b : β) :
    Foretold (rounds step n i b) fun w => rounds (step' w) n i b := by
  induction n generalizing i b with
  | zero => exact confined (.pure b)
  | succ n ih => exact (each i b).bind fun b => ih (i + 1) b

theorem repeatWhile {holds : Run α Bool} {step : Run α Unit} {step' : Register α → Run α Unit}
    (condition : Foretold holds fun _ => holds) (each : Foretold step step') (fuel : Nat) :
    Foretold (repeatWhile holds step fuel) fun w => repeatWhile holds (step' w) fuel := by
  induction fuel with
  | zero => exact confined .outOfFuel
  | succ fuel ih =>
    refine condition.bind fun b => ?_
    cases b with
    | false => exact confined (.pure ())
    | true => exact each.bind fun _ => ih

end Foretold

/-! Constructs, over the bodies that they enter. -/

variable {run : Body → Run α (List (Value α))} {run' : Register α → Body → Run α (List (Value α))}
  (told : ∀ b, Foretold (run b) fun w => run' w b)

include told

theorem foretold_applyLambda (l : Lambda) (args : List (Value α)) :
    Foretold (applyLambda run l args) fun w => applyLambda (run' w) l args :=
  .next (.bindNames args fun _ _ => trivial) fun _ => told l.body

theorem foretold_combine (l : Lambda) (acc vs : List (Value α)) :
    Foretold (combine run l acc vs) fun w => combine (run' w) l acc vs :=
  (foretold_applyLambda told l _).before fun new =>
    (Confined.lift (checkArity acc.length new.length)).bind fun _ => .pure new

theorem foretold_combineGroups (ops : List Lambda) (accs : List (List (Value α)))
    (vs : List (Value α)) :
    Foretold (combineGroups run ops accs vs) fun w => combineGroups (run' w) ops accs vs := by
  induction ops generalizing accs vs with
  | nil => exact .confined (.pure accs)
  | cons op ops ih =>
    cases accs with
    | nil => exact .confined (.pure [])
    | cons acc accs =>
      exact (foretold_combine told op _ _).bind fun new => (ih _ _).before fun _ => .pure _

theorem foretold_step (params : List Name) (b : Body) :
    Foretold (step run params b) fun w => step (run' w) params b :=
  (told b).before fun vs => .bindNames vs fun _ _ => trivial

omit told in
open Classical in
theorem foretold_openAcc (input : AccInput) :
    Foretold (Run.openAcc input : Run α (Value α)) fun w => openAcc w input := by
  intro σ
  refine ⟨σ.combiners ++ [input.combine.map (·.op)], List.prefix_append _ _, fun acc τ ends => ?_, fun w has => ?_⟩
  · obtain ⟨arrays, υ, looked, ends⟩ := (ends_bind ..).mp ends
    have same := quiet_of_confined (Confined.lookups fun x _ => trivial) σ arrays υ looked
    simp only [ends_bind, ends_get, ends_modify, ends_pure] at ends
    obtain ⟨_, _, ⟨rfl, rfl⟩, _, _, rfl, -, rfl⟩ := ends
    rw [same]
  · have own : w.own σ.combiners.length = input.combine.map (·.op) := has _ _ (by simp)
    have checked : outcome (openAcc w input) σ = outcome (Run.openAcc input >>= fun acc =>
        if w.own σ.combiners.length = input.combine.map (·.op) then pure acc else throw w.stop) σ := rfl
    rw [checked]
    simp only [if_pos own, bind_pure]

theorem foretold_withAcc (inputs : List AccInput) (l : Lambda) :
    Foretold (Run.withAcc run inputs l) fun w => withAcc w (run' w) inputs l := by
  refine (Foretold.mapM foretold_openAcc inputs).bind fun accs => ?_
  refine (foretold_applyLambda told l accs).before fun vs => ?_
  refine (Confined.lift (splitValues vs inputs.length)).bind fun parts => ?_
  exact (Confined.mapM fun v _ => .lift (closeAcc v)).bind fun arrays => .pure _

theorem foretold_fusedRow (tables : List (Table α)) (scans : List Combiner)
    (reduces : List Reduction) (map : Lambda) (mapCount i : Nat) (s : Fused α) :
    Foretold (fusedRow run tables scans reduces map mapCount i s)
      fun w => fusedRow (run' w) tables scans reduces map mapCount i s := by
  refine .next (.lift _) fun rows => (foretold_applyLambda told map rows).bind fun new => ?_
  refine .next (.lift _) fun parts => .next (.lift _) fun rest => ?_
  refine (foretold_combineGroups told _ _ _).bind fun scanAccs => ?_
  exact (foretold_combineGroups told _ _ _).before fun reduceAccs => (Confined.lift _).bind fun _ => .pure _

variable [ScalarAlgebra α]

theorem foretold_updateAcc (acc : Name) (position values : List Operand) :
    Foretold (Run.updateAcc run acc position values) fun w => updateAcc w (run' w) acc position values := by
  refine .next (.lookup trivial) fun v => ?_
  cases v with
  | acc number arrays =>
    refine .next (.operands fun _ _ => trivial) fun idx => .next (.lift _) fun ds => ?_
    refine .next (.operands fun _ _ => trivial) fun vs => .next (.lift _) fun old => ?_
    cases old with
    | none => exact .confined (.pure _)
    | some old =>
      have store (new : List (Value α)) : Confined (fun _ => True) (do
          checkArity (α := α) arrays.length new.length
          let arrays ← (arrays.zip new).mapM fun p => Value.update (α := α) ds p.1 p.2
          return .acc number arrays : Run α (Value α)) :=
        (Confined.lift _).bind fun _ => (Confined.mapM fun p _ => .lift _).bind fun _ => .pure _
      -- The register says of this number what the table says, whether it was given out or not.
      refine .read fun σ => ?_
      cases selected : (σ.combiners[number]?).join with
      | none =>
        exact ⟨_, (Foretold.confined (.pure vs)).before store, fun w has => by rw [has.operator_eq, selected]⟩
      | some op =>
        exact ⟨_, (foretold_applyLambda told op _).before store, fun w has => by rw [has.operator_eq, selected]⟩
  | scalar a => exact .confined (.throw _)
  | array rows => exact .confined (.throw _)

theorem foretold_loop (fuel : Nat) (merge : List (Param × Operand)) (form : LoopForm) (b : Body) :
    Foretold (loop run fuel merge form b) fun w => loop (run' w) fuel merge form b := by
  have round (params : List Name) := foretold_step told params b
  refine .next (.operands fun _ _ => trivial) fun inits => .next (.bindNames inits fun _ _ => trivial) fun _ => ?_
  cases form with
  | whileHolds cond =>
    have holds : Confined (fun _ => True) (do asBool (← (← lookup cond).asScalar) : Run α Bool) :=
      (Confined.lookup trivial).bind fun v => (Confined.lift _).bind fun a => .lift _
    exact (Foretold.repeatWhile (.confined holds) (round _) fuel).before fun _ => .lookups fun _ _ => trivial
  | forBelow counter w bound arrays =>
    refine .next (.lookups fun _ _ => trivial) fun rows => .next (.int fun _ _ => trivial) fun n => ?_
    refine (Foretold.rounds (fun i _ => ?_) n.toNat 0 ()).before fun _ => .lookups fun _ _ => trivial
    refine .next (.set trivial _) fun _ => .next (.forM fun r _ => ?_) fun _ => round _
    exact (Confined.lift r.2).bind fun table => (Confined.lift _).bind fun row => .set trivial row

theorem foretold_histRow (ops : List Histogram) (dests : List (List (Value α)))
    (idxs vs : List (Value α)) :
    Foretold (histRow run ops dests idxs vs) fun w => histRow (run' w) ops dests idxs vs := by
  induction ops generalizing dests idxs vs with
  | nil => exact .confined (.pure dests)
  | cons h ops ih =>
    cases dests with
    | nil => exact .confined (.pure [])
    | cons ds dests =>
      refine .next (.lift _) fun at_ => .next (.lift _) fun old => ?_
      cases old with
      | none => exact .next (.pure ds) fun new => (ih _ _ _).before fun _ => .pure _
      | some old =>
        refine (foretold_combine told _ _ _).bind fun new => ?_
        exact .next (.mapM fun p _ => .lift _) fun new => (ih _ _ _).before fun _ => .pure _

/-- One case for each construct. -/
theorem foretold_exp (fuel : Nat) (e : Exp) :
    Foretold (Run.exp run fuel e) fun w => exp w (run' w) fuel e := by
  have lookups (xs : List Name) : Confined (fun _ => True) (lookups xs : Run α (List (Value α))) :=
    .lookups fun _ _ => trivial
  have size (x : Operand) : Confined (fun _ => True) (size x : Run α Nat) := .size fun _ _ => trivial
  cases e with
  | basic op =>
    cases op with
    | updateAcc acc position values =>
      exact (foretold_updateAcc told acc position values).before fun v => .pure [v]
    | _ => exact .confined ((Confined.basicOp (fun _ _ => trivial) rfl run).bind fun v => .pure [v])
  | apply func args ret =>
    refine .next (.mapM fun x _ => .scalar fun _ _ => trivial) fun vs => ?_
    exact .confined ((Confined.lift (call func vs)).bind fun v => .pure _)
  | branch cond yes no ret sort =>
    refine .next (.scalar fun _ _ => trivial) fun a => .next (.lift _) fun b => ?_
    cases b with
    | false => exact told no
    | true => exact told yes
  | loop merge form b => exact foretold_loop told fuel merge form b
  | withAcc inputs l => exact foretold_withAcc told inputs l
  | screma width arrays scans reduces map =>
    refine .next (size width) fun n => .next (lookups arrays) fun rows => ?_
    refine .next (.mapM fun c _ => .operands fun _ _ => trivial) fun scanAccs => ?_
    refine .next (.mapM fun r _ => .operands fun _ _ => trivial) fun reduceAccs => ?_
    exact (Foretold.rounds (fun i s => foretold_fusedRow told _ _ _ _ _ i s) n 0 _).before fun _ => .pure _
  | stream width arrays form inits l =>
    refine .next (.int fun _ _ => trivial) fun n => .next (.operands fun _ _ => trivial) fun inits => ?_
    exact .next (lookups arrays) fun rows => foretold_applyLambda told l _
  | hist width ops bucket arrays =>
    refine .next (size width) fun n => .next (lookups arrays) fun rows => ?_
    refine .next (.mapM fun h _ => lookups h.dests) fun dests => ?_
    refine (Foretold.rounds (fun i dests => ?_) n 0 _).before fun _ => .pure _
    refine .next (.lift _) fun rows => (foretold_applyLambda told bucket rows).bind fun new => ?_
    exact .next (.lift _) fun parts => foretold_histRow told _ _ _ _
  | scatter width l arrays dests =>
    refine .next (size width) fun n => .next (lookups arrays) fun rows => .next (lookups _) fun outs => ?_
    refine .rounds (fun i outs => .next (.lift _) fun rows => ?_) n 0 _
    exact (foretold_applyLambda told l _).before fun new => (Confined.lift _).bind fun parts => .lift _

omit told in
theorem foretold_runBody (fuel : Nat) (b : Body) :
    Foretold (Run.runBody fuel b : Run α (List (Value α))) fun w => runBody w fuel b := by
  induction fuel generalizing b with
  | zero => exact .confined .outOfFuel
  | succ fuel ih =>
    have each (s : Stm) : Foretold (Run.stm (Run.runBody fuel) fuel s : Run α Unit)
        fun w => stm w (runBody w fuel) fuel s :=
      (foretold_exp ih fuel s.exp).before fun vs => .bindNames vs fun _ _ => trivial
    exact (Foretold.forM each b.stms).before fun _ => .operands fun _ _ => trivial

end

end Run.Owned

/-- An update applies the operator of the region that gave the accumulator its number. Whatever a run comes
    to, it comes to the same under some register: each accumulator is opened with the operator that is
    registered for its number, and every update of an accumulator applies what is registered for it, if the
    number was given out, and replaces otherwise. -/
theorem Lambda.updates_own_operators {α : Type} [ScalarAlgebra α] (l : Lambda) (args : List (Value α))
    (fuel : Nat) :
    ∃ own : Nat → Option Lambda, ∀ stop : Fault α,
      Run.result (Run.applyLambda (Run.Owned.runBody ⟨own, stop⟩ fuel) l args) Store.initial =
        l.interp args fuel := by
  obtain ⟨table, -, -, same⟩ :=
    Run.Owned.foretold_applyLambda (Run.Owned.foretold_runBody fuel) l args Store.initial
  refine ⟨fun number => (table[number]?).join, fun stop => ?_⟩
  have has : Run.Owned.Register.Has ⟨fun number => (table[number]?).join, stop⟩ table := by
    intro number op found
    show (table[number]?).join = op
    rw [found, Option.join_some]
  rw [interp_eq, Run.result_eq, same _ has]

end Cotangent
