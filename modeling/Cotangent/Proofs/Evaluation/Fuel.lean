import Cotangent.Proofs.Evaluation.Ends
/-!
More fuel never changes what a run comes to. A run extends another if it comes to the same wherever the
other comes to anything at all, and every construct extends itself over bodies that do.
-/
namespace Cotangent

namespace Run

variable {α β γ : Type}

/-- Whatever the first run comes to, a value or a fault, the second comes to as well. -/
def Extends (m m' : Run α β) : Prop := ∀ σ r, outcome m σ = some r → outcome m' σ = some r

namespace Extends

variable {m m' m'' : Run α β} {f f' : β → Run α γ}

theorem refl (m : Run α β) : Extends m m := fun _ _ known => known

theorem trans (first : Extends m m') (second : Extends m' m'') : Extends m m'' :=
  fun σ r known => second σ r (first σ r known)

theorem bind (first : Extends m m') (rest : ∀ b, Extends (f b) (f' b)) :
    Extends (m >>= f) (m' >>= f') := by
  intro σ r known
  rw [outcome_bind] at known ⊢
  cases ran : outcome m σ with
  | none => simp [ran] at known
  | some q =>
    rw [first σ q ran]
    rw [ran] at known
    cases q with
    | error e => exact known
    | ok p => exact rest p.1 p.2 r known

/-- What comes first is the same on both sides. -/
theorem next (m : Run α β) (rest : ∀ b, Extends (f b) (f' b)) : Extends (m >>= f) (m >>= f') :=
  (refl m).bind rest

/-- What comes afterwards is the same on both sides. -/
theorem before (first : Extends m m') (f : β → Run α γ) : Extends (m >>= f) (m' >>= f) :=
  first.bind fun b => refl (f b)

/-- A run without an outcome promises nothing. -/
theorem outOfFuel (m : Run α β) : Extends outOfFuel m := fun _ _ known => (by cases known)

theorem mapM {f f' : γ → Run α β} (each : ∀ x, Extends (f x) (f' x)) (xs : List γ) :
    Extends (xs.mapM f) (xs.mapM f') := by
  induction xs with
  | nil => exact refl _
  | cons x xs ih =>
    rw [List.mapM_cons, List.mapM_cons]
    exact (each x).bind fun y => ih.before _

theorem forM {f f' : γ → Run α Unit} (each : ∀ x, Extends (f x) (f' x)) (xs : List γ) :
    Extends (xs.forM f) (xs.forM f') := by
  induction xs with
  | nil => exact refl _
  | cons x xs ih =>
    simp only [List.forM_eq_forM, List.forM_cons] at ih ⊢
    exact (each x).bind fun _ => ih

theorem rounds {step step' : Nat → β → Run α β} (each : ∀ i b, Extends (step i b) (step' i b))
    (n i : Nat) (b : β) : Extends (rounds step n i b) (rounds step' n i b) := by
  induction n generalizing i b with
  | zero => exact refl _
  | succ n ih => exact (each i b).bind fun b => ih (i + 1) b

theorem repeatWhile {step step' : Run α Unit} (holds : Run α Bool) (each : Extends step step')
    {fuel fuel' : Nat} (more : fuel ≤ fuel') :
    Extends (repeatWhile holds step fuel) (repeatWhile holds step' fuel') := by
  induction fuel generalizing fuel' with
  | zero => exact outOfFuel _
  | succ fuel ih =>
    obtain ⟨fuel', rfl⟩ : ∃ k, fuel' = k + 1 := ⟨fuel' - 1, by omega⟩
    refine next holds fun b => ?_
    cases b with
    | false => exact refl _
    | true => exact each.bind fun _ => ih (by omega)

theorem result (more : Extends m m') {σ : Store α} {r : Except (Fault α) β}
    (known : result m σ = some r) : result m' σ = some r := by
  rw [result_eq, Option.map_eq_some_iff] at known
  obtain ⟨x, ran, rfl⟩ := known
  rw [result_eq, more σ x ran, Option.map_some]

end Extends

section

variable {run run' : Body → Run α (List (Value α))} (grows : ∀ b, Extends (run b) (run' b))

include grows

theorem extends_applyLambda (l : Lambda) (args : List (Value α)) :
    Extends (applyLambda run l args) (applyLambda run' l args) :=
  .next _ fun _ => grows l.body

theorem extends_combine (l : Lambda) (acc vs : List (Value α)) :
    Extends (combine run l acc vs) (combine run' l acc vs) :=
  (extends_applyLambda grows l _).before _

theorem extends_combineGroups (ops : List Lambda) (accs : List (List (Value α)))
    (vs : List (Value α)) :
    Extends (combineGroups run ops accs vs) (combineGroups run' ops accs vs) := by
  induction ops generalizing accs vs with
  | nil => exact .refl _
  | cons op ops ih =>
    cases accs with
    | nil => exact .refl _
    | cons acc accs => exact (extends_combine grows op _ _).bind fun _ => (ih _ _).before _

theorem extends_step (params : List Name) (b : Body) :
    Extends (step run params b) (step run' params b) :=
  (grows b).before _

theorem extends_withAcc (inputs : List AccInput) (l : Lambda) :
    Extends (withAcc run inputs l) (withAcc run' inputs l) :=
  .next _ fun _ => (extends_applyLambda grows l _).before _

theorem extends_fusedRow (tables : List (Table α)) (scans : List Combiner)
    (reduces : List Reduction) (map : Lambda) (mapCount i : Nat) (s : Fused α) :
    Extends (fusedRow run tables scans reduces map mapCount i s)
      (fusedRow run' tables scans reduces map mapCount i s) := by
  refine .next _ fun rows => (extends_applyLambda grows map rows).bind fun new => ?_
  refine .next _ fun parts => .next _ fun rest => ?_
  refine (extends_combineGroups grows _ _ _).bind fun scanAccs => ?_
  exact (extends_combineGroups grows _ _ _).before _

variable [ScalarAlgebra α]

theorem extends_histRow (ops : List Histogram) (dests : List (List (Value α)))
    (idxs vs : List (Value α)) :
    Extends (histRow run ops dests idxs vs) (histRow run' ops dests idxs vs) := by
  induction ops generalizing dests idxs vs with
  | nil => exact .refl _
  | cons h ops ih =>
    cases dests with
    | nil => exact .refl _
    | cons ds dests =>
      refine .next _ fun at_ => .next _ fun old => ?_
      cases old with
      | none => exact .next _ fun new => (ih _ _ _).before _
      | some old =>
        refine (extends_combine grows _ _ _).bind fun new => .next _ fun new => ?_
        exact (ih _ _ _).before _

theorem extends_updateAcc (acc : Name) (position values : List Operand) :
    Extends (updateAcc run acc position values) (updateAcc run' acc position values) := by
  refine .next _ fun v => ?_
  cases v with
  | acc id arrays =>
    refine .next _ fun idx => .next _ fun ds => .next _ fun vs => .next _ fun old => ?_
    cases old with
    | none => exact .refl _
    | some old =>
      refine .next _ fun σ => ?_
      cases (σ.combiners[id]?).join with
      | none => exact .refl _
      | some op => exact (extends_applyLambda grows op _).before _
  | scalar a => exact .refl _
  | array rows => exact .refl _

theorem extends_basicOp (op : BasicOp) : Extends (basicOp run op) (basicOp run' op) := by
  cases op with
  | updateAcc acc position values => exact extends_updateAcc grows acc position values
  | _ => exact .refl _

theorem extends_loop {fuel fuel' : Nat} (more : fuel ≤ fuel') (merge : List (Param × Operand))
    (form : LoopForm) (b : Body) :
    Extends (loop run fuel merge form b) (loop run' fuel' merge form b) := by
  have round (params : List Name) := extends_step grows params b
  refine .next _ fun inits => .next _ fun _ => ?_
  cases form with
  | whileHolds cond => exact (Extends.repeatWhile _ (round _) more).before _
  | forBelow counter w bound arrays =>
    refine .next _ fun rows => .next _ fun n => ?_
    refine (Extends.rounds (fun i _ => ?_) n.toNat 0 ()).before _
    exact .next _ fun _ => .next _ fun _ => round _

/-- One case for each construct. -/
theorem extends_exp {fuel fuel' : Nat} (more : fuel ≤ fuel') (e : Exp) :
    Extends (exp run fuel e) (exp run' fuel' e) := by
  cases e with
  | basic op => exact (extends_basicOp grows op).before _
  | apply func args ret => exact .refl _
  | branch cond yes no ret sort =>
    refine .next _ fun a => .next _ fun b => ?_
    cases b with
    | false => exact grows no
    | true => exact grows yes
  | loop merge form b => exact extends_loop grows more merge form b
  | withAcc inputs l => exact extends_withAcc grows inputs l
  | screma width arrays scans reduces map =>
    refine .next _ fun n => .next _ fun rows => .next _ fun scanAccs => .next _ fun reduceAccs => ?_
    exact (Extends.rounds (fun i s => extends_fusedRow grows _ _ _ _ _ i s) n 0 _).before _
  | stream width arrays form inits l =>
    exact .next _ fun n => .next _ fun inits => .next _ fun rows => extends_applyLambda grows l _
  | hist width ops bucket arrays =>
    refine .next _ fun n => .next _ fun rows => .next _ fun dests => ?_
    refine (Extends.rounds (fun i dests => ?_) n 0 _).before _
    refine .next _ fun rows => (extends_applyLambda grows bucket rows).bind fun new => ?_
    exact .next _ fun parts => extends_histRow grows _ _ _ _
  | scatter width l arrays dests =>
    refine .next _ fun n => .next _ fun rows => .next _ fun outs => ?_
    exact .rounds (fun i outs => .next _ fun rows => (extends_applyLambda grows l _).before _) n 0 _

theorem extends_stm {fuel fuel' : Nat} (more : fuel ≤ fuel') (s : Stm) :
    Extends (stm run fuel s) (stm run' fuel' s) :=
  (extends_exp grows more s.exp).before _

end

/-- The fuel bounds how deep a run may go, not what it comes to. -/
theorem extends_runBody [ScalarAlgebra α] {fuel fuel' : Nat} (more : fuel ≤ fuel') (b : Body) :
    Extends (runBody fuel b : Run α _) (runBody fuel' b) := by
  induction fuel generalizing fuel' b with
  | zero => exact .outOfFuel _
  | succ fuel ih =>
    obtain ⟨fuel', rfl⟩ : ∃ k, fuel' = k + 1 := ⟨fuel' - 1, by omega⟩
    have below : fuel ≤ fuel' := by omega
    exact (Extends.forM (extends_stm (ih below) below) b.stms).before _

theorem extends_stms [ScalarAlgebra α] {fuel fuel' : Nat} (more : fuel ≤ fuel') (ss : List Stm) :
    Extends (stms fuel ss : Run α Unit) (stms fuel' ss) :=
  .forM (extends_stm (extends_runBody more) more) ss

end Run

/-- What a run with some fuel comes to, it comes to with more fuel. -/
theorem interp_mono {α : Type} [ScalarAlgebra α] {l : Lambda} {args : List (Value α)}
    {fuel fuel' : Nat} {outcome : Except (Fault α) (List (Value α))} (more : fuel ≤ fuel')
    (known : l.interp args fuel = some outcome) : l.interp args fuel' = some outcome := by
  rw [interp_eq, Option.map_eq_some_iff] at known
  obtain ⟨r, ran, rfl⟩ := known
  have grows := Run.extends_applyLambda (Run.extends_runBody (α := α) more) l args
  rw [interp_eq, grows _ r ran, Option.map_some]

/-- Whatever the fuel, a run comes to one thing only. -/
theorem interp_unique {α : Type} [ScalarAlgebra α] {l : Lambda} {args : List (Value α)} {fuel fuel' : Nat}
    {outcome outcome' : Except (Fault α) (List (Value α))} (known : l.interp args fuel = some outcome)
    (known' : l.interp args fuel' = some outcome') : outcome = outcome' :=
  Option.some.inj ((interp_mono (Nat.le_max_left fuel fuel') known).symm.trans
    (interp_mono (Nat.le_max_right fuel fuel') known'))

/-- What an expression comes to from a store, given enough fuel. -/
def Exp.Comes {α : Type} [ScalarAlgebra α] (e : Exp) (σ : Store α)
    (r : Except (Fault α) (List (Value α))) : Prop :=
  ∃ fuel, Run.result (Run.exp (Run.runBody fuel) fuel e) σ = some r

/-- The fuel may be taken to be `n` at least. -/
theorem Exp.comes_iff {α : Type} [ScalarAlgebra α] (e : Exp) (σ : Store α)
    (r : Except (Fault α) (List (Value α))) (n : Nat) :
    e.Comes σ r ↔ ∃ fuel, Run.result (Run.exp (Run.runBody (fuel + n)) (fuel + n) e) σ = some r := by
  constructor
  · rintro ⟨fuel, known⟩
    have more : fuel ≤ fuel + n := Nat.le_add_right fuel n
    exact ⟨fuel, (Run.extends_exp (Run.extends_runBody more) more e).result known⟩
  · rintro ⟨fuel, known⟩
    exact ⟨fuel + n, known⟩

end Cotangent
