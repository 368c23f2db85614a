import Cotangent.Proofs.Derivative.ForwardDeclarations
import Cotangent.Proofs.Derivative.ReverseDeclarations
/-!
Nested scopes leave the context around them as it was. The companions are put back by the scope itself,
the statements by the list that its body is collected in, and what lies between the two emits nothing. The
types are not put back: of the names known before, only binders of the nested program may have a new one.
All of this holds where the transformation fails as well, however deep inside.
-/
namespace Cotangent

open Diff Outline

variable {α β : Type} {bound : List Name}

/-- The supply is past every name that has a type. -/
def DiffState.Past (s : DiffState) : Prop :=
  ∀ x t, s.builder.types.find? x = some t → x.id < s.builder.supply.next

/-- What the second state has kept of the first, if names in `bound` may have a new type. -/
structure DiffState.Untouched (bound : List Name) (s t : DiffState) : Prop where
  companions : t.companions = s.companions
  stms : t.builder.stms = s.builder.stms
  types : ∀ x u, s.builder.types.find? x = some u → x ∉ bound → t.builder.types.find? x = some u
  supply : s.builder.supply.next ≤ t.builder.supply.next

namespace Diff

/-- The action leaves the context untouched, whether it succeeds or fails. -/
def Confined (bound : List Name) (act : Diff α) : Prop :=
  ∀ s : DiffState, s.Past → s.Untouched bound (outcome act s).2

/-! Actions that emit nothing. -/

/-- The statements afterwards are those from before, also if the action fails. -/
def Quiet (act : Diff α) : Prop := ∀ s : DiffState, (outcome act s).2.builder.stms = s.builder.stms

theorem quiet_pure (a : α) : Quiet (pure a) := fun _ => rfl

theorem quiet_throw (e : DiffError) : Quiet (throw e : Diff α) := fun _ => rfl

theorem Quiet.bind {act : Diff α} {f : α → Diff β} (first : Quiet act) (rest : ∀ a, Quiet (f a)) :
    Quiet (act >>= f) := by
  intro s
  have before := first s
  rw [outcome_bind]
  cases ran : outcome act s with
  | mk r t =>
    rw [ran] at before
    cases r with
    | error e => exact before
    | ok a => exact (rest a t).trans before

theorem quiet_mapM {f : α → Diff β} (each : ∀ x, Quiet (f x)) (xs : List α) : Quiet (xs.mapM f) := by
  induction xs with
  | nil => exact quiet_pure []
  | cons x xs ih =>
    rw [List.mapM_cons]
    exact (each x).bind fun y => ih.bind fun ys => quiet_pure (y :: ys)

theorem quiet_build {act : Build α} (quiet : ∀ b : Builder, (act b).2.stms = b.stms) : Quiet (build act) :=
  fun s => quiet s.builder

theorem quiet_setCompanion (x c : Name) : Quiet (setCompanion x c) := fun _ => rfl

theorem quiet_declareParams (ps : List Param) : Quiet (build (Build.declareParams ps)) :=
  quiet_build fun b => by rw [Build.declareParams_apply]

theorem Quiet.within {act : Diff α} (quiet : Quiet act) : Quiet (within act) := fun s => quiet s

theorem Quiet.isolated {act : Diff α} (quiet : Quiet act) : Quiet (isolated act) :=
  fun s => quiet { s with companions := .empty }

/-- Whatever is emitted inside is taken out again. -/
theorem quiet_collect (act : Diff α) : Quiet (collect act) := fun _ => rfl

theorem quiet_bodyOf (stms : Diff Unit) (result : Diff (List Operand)) : Quiet (bodyOf stms result) :=
  (quiet_collect _).bind fun _ => quiet_pure _

/-! Scopes. -/

/-- A scope is confined if what it does around the collected body emits nothing. -/
theorem Confined.of_scope {act : Diff α}
    (restores : ∀ s : DiffState, (outcome act s).2.companions = s.companions) (quiet : Quiet act)
    (declares : ∀ n, DeclaresOnly (· ∈ bound) n act) : Confined bound act := by
  intro s past
  obtain ⟨frame, -⟩ := declares s.builder.supply.next s (Nat.le_refl _)
  refine ⟨restores s, quiet s, fun x u known outside => ?_, frame.next_le⟩
  exact (frame.kept x (past x u known) outside).trans known

theorem confined_within {act : Diff α} (quiet : Quiet act)
    (declares : ∀ n, DeclaresOnly (· ∈ bound) n (within act)) : Confined bound (within act) :=
  .of_scope (fun _ => rfl) quiet.within declares

theorem confined_throw (e : DiffError) : Confined bound (throw e : Diff α) :=
  .of_scope (fun _ => rfl) (quiet_throw e) fun _ => declares_throw e

end Diff

namespace Forward

/-! Forward mode. -/

theorem quiet_newTangent (p : Param) : Quiet (newTangent p) := by
  unfold newTangent
  have record (x : Name) : Quiet (do
      setCompanion p.name x
      build (Build.declare x p.ty.tangent)
      return ⟨x, p.ty.tangent⟩ : Diff Param) :=
    (quiet_setCompanion p.name x).bind fun _ => (quiet_build fun _ => rfl).bind fun _ => quiet_pure _
  cases p.ty.isAcc with
  | true => exact (quiet_pure p.name).bind record
  | false => exact (quiet_build fun _ => rfl).bind record

theorem quiet_bundleBinders (ps : List Param) : Quiet (bundleBinders ps) := by
  refine (quiet_mapM (fun p => (quiet_newTangent p).bind fun tan => ?_) ps).bind fun _ => quiet_pure _
  exact quiet_pure _

variable {rules : Rules}

theorem quiet_body (b : Body) : Quiet (body rules b) := by
  obtain ⟨ss, result⟩ := b
  exact quiet_bodyOf _ _

/-- The parameters are declared, and what comes after that emits nothing. -/
theorem quiet_opened (ps : List Param) {act : Diff α} (quiet : Quiet act) :
    Quiet (do build (Build.declareParams ps); act) :=
  (quiet_declareParams ps).bind fun _ => quiet

theorem confined_body (rules : Rules) (b : Body) :
    Confined b.occurrences.binders (within (body rules b)) := by
  refine confined_within (quiet_body b) fun n => (declaresOnly_body b fun x binder => ?_).within
  rwa [← binders_occurrences, occurrences_body] at binder

theorem covered_binders (l : Lambda) : Covered (· ∈ l.occurrences.binders) l.outline := by
  intro x binder
  rwa [← binders_occurrences, occurrences_lambda] at binder

/-- The parameters and the names bound in the body are binders of the lambda. -/
theorem covered_parts (l : Lambda) :
    (∀ p ∈ l.params, p.name ∈ l.occurrences.binders) ∧
      Covered (· ∈ l.occurrences.binders) (stmOutline l.body.stms) :=
  covered_lambda (covered_binders l)

theorem confined_lambdaOf {ps : List Param} {ret : List Ty} {act : Diff Body} (quiet : Quiet act)
    (declares : ∀ n, DeclaresOnly (· ∈ bound) n (lambdaOf ps ret act)) :
    Confined bound (lambdaOf ps ret act) := by
  refine confined_within (quiet_opened ps ?_) declares
  exact (quiet_bundleBinders ps).bind fun _ => quiet.bind fun _ => quiet_pure _

theorem confined_lambda (rules : Rules) (l : Lambda) :
    Confined l.occurrences.binders (lambda rules l) := by
  have declares (n : Nat) : DeclaresOnly (· ∈ l.occurrences.binders) n (lambda rules l) :=
    declaresOnly_lambda l (covered_binders l)
  obtain ⟨ps, b, ret⟩ := l
  exact confined_lambdaOf (quiet_body b) declares

theorem confined_streamLambda (rules : Rules) (stm : Stm) (l : Lambda) :
    Confined l.occurrences.binders (streamLambda stm l.params l.ret (body rules l.body)) := by
  obtain ⟨params, -⟩ := covered_parts l
  have inBody (n : Nat) : DeclaresOnly (· ∈ l.occurrences.binders) n (body rules l.body) := by
    refine declaresOnly_body l.body fun x binder => covered_binders l x ?_
    cases l
    simp [Lambda.outline, binder]
  have declares (n : Nat) : DeclaresOnly (· ∈ l.occurrences.binders) n
      (streamLambda stm l.params l.ret (body rules l.body)) :=
    declaresOnly_streamLambda stm params (inBody n)
  unfold streamLambda at declares ⊢
  cases ps : l.params with
  | nil => exact confined_throw _
  | cons chunk rest =>
    rw [ps] at declares
    refine confined_within (quiet_opened (chunk :: rest) ?_) declares
    exact (quiet_bundleBinders rest).bind fun _ => (quiet_body l.body).bind fun _ => quiet_pure _

theorem confined_bucketLambda (rules : Rules) (k : Nat) (l : Lambda) :
    Confined l.occurrences.binders
      (bucketLambda k l.params (stms rules l.body.stms) l.body.result l.ret) := by
  obtain ⟨params, inBody⟩ := covered_parts l
  refine confined_within (quiet_opened l.params ?_) fun n =>
    declaresOnly_bucketLambda k params (declaresOnly_stms l.body.stms inBody)
  exact (quiet_bundleBinders l.params).bind fun _ => (quiet_bodyOf _ _).bind fun _ => quiet_pure _

theorem confined_scatterLambda (rules : Rules) (k : Nat) (l : Lambda) :
    Confined l.occurrences.binders
      (scatterLambda k l.params (stms rules l.body.stms) l.body.result l.ret) := by
  obtain ⟨params, inBody⟩ := covered_parts l
  refine confined_within (quiet_opened l.params ?_) fun n =>
    declaresOnly_scatterLambda k params (declaresOnly_stms l.body.stms inBody)
  exact (quiet_bundleBinders l.params).bind fun _ => (quiet_bodyOf _ _).bind fun _ => quiet_pure _

theorem confined_accOperator (rules : Rules) (stm : Stm) (rank : Nat) (l : Lambda) :
    Confined l.occurrences.binders
      (accOperator stm rank l.params (stms rules l.body.stms) l.body.result l.ret) := by
  obtain ⟨params, inBody⟩ := covered_parts l
  have declares (n : Nat) : DeclaresOnly (· ∈ l.occurrences.binders) n
      (accOperator stm rank l.params (stms rules l.body.stms) l.body.result l.ret) :=
    declaresOnly_accOperator stm rank params (declaresOnly_stms l.body.stms inBody)
  unfold accOperator at declares ⊢
  split at declares
  · rename_i uneven
    rw [if_pos uneven]
    exact confined_throw _
  · rename_i even
    rw [if_neg even]
    refine confined_within (quiet_opened l.params ?_) declares
    exact (quiet_mapM quiet_newTangent _).bind fun _ => (quiet_mapM quiet_newTangent _).bind fun _ =>
      (quiet_bodyOf _ _).bind fun _ => quiet_pure _

end Forward

namespace Reverse

/-! Reverse mode. -/

/-- A branch binds fresh names only, so that no type changes at all. -/
theorem confined_branchBody (rules : Rules) (depth : Nat) (seeds free : List Name) (b : Body) :
    Confined [] (branchBody (stm rules depth) seeds free b) := by
  refine .of_scope (fun _ => rfl) ?_ fun n =>
    declaresOnly_branchBody (declaresOnly_stm rules depth) seeds free b
  exact (quiet_build fun _ => rfl).bind fun c => (quiet_bodyOf _ _).isolated

end Reverse

/-- Every nested scope leaves the context around it untouched, whatever the program and wherever it fails:
    a body in a scope of its own, the lambdas and operators of forward mode, and the branches of reverse
    mode, which are renamed. -/
theorem nested_scopes_confined (rules : Rules) :
    (∀ b : Body, Confined b.occurrences.binders (within (Forward.body rules b))) ∧
    (∀ l : Lambda, Confined l.occurrences.binders (Forward.lambda rules l)) ∧
    (∀ (s : Stm) (l : Lambda), Confined l.occurrences.binders
      (Forward.streamLambda s l.params l.ret (Forward.body rules l.body))) ∧
    (∀ (n : Nat) (l : Lambda), Confined l.occurrences.binders
      (Forward.bucketLambda n l.params (Forward.stms rules l.body.stms) l.body.result l.ret)) ∧
    (∀ (n : Nat) (l : Lambda), Confined l.occurrences.binders
      (Forward.scatterLambda n l.params (Forward.stms rules l.body.stms) l.body.result l.ret)) ∧
    (∀ (s : Stm) (rank : Nat) (l : Lambda), Confined l.occurrences.binders
      (Forward.accOperator s rank l.params (Forward.stms rules l.body.stms) l.body.result l.ret)) ∧
    (∀ (depth : Nat) (seeds free : List Name) (b : Body),
      Confined [] (Reverse.branchBody (Reverse.stm rules depth) seeds free b)) :=
  ⟨Forward.confined_body rules, Forward.confined_lambda rules, Forward.confined_streamLambda rules,
    Forward.confined_bucketLambda rules, Forward.confined_scatterLambda rules,
    Forward.confined_accOperator rules, Reverse.confined_branchBody rules⟩

/-- A statement fails in a branch of a lambda whose parameter gives a known name a new type. -/
theorem nested_scopes_failing_branch :
    let t : Ty := .scalar (.int .i64)
    let kept : Stm := ⟨[⟨⟨1⟩, t⟩], .none, .basic (.operand (.var ⟨0⟩))⟩
    let uneven : Stm :=
      ⟨[⟨⟨4⟩, t⟩, ⟨⟨5⟩, t⟩], .none, .basic (.binary (.int .add .i64) (.var ⟨0⟩) (.var ⟨1⟩))⟩
    let branch : Stm := ⟨[⟨⟨6⟩, t⟩], .none,
      .branch (.var ⟨2⟩) ⟨[uneven], [.var ⟨4⟩]⟩ ⟨[], [.var ⟨0⟩]⟩ [t] .normal⟩
    let l : Lambda := ⟨[⟨⟨2⟩, .scalar .bool⟩], ⟨[branch], [.var ⟨6⟩]⟩, [t]⟩
    let s : DiffState := ⟨⟨⟨7⟩, ⟨[(⟨0⟩, t), (⟨1⟩, t), (⟨2⟩, t)]⟩, [kept]⟩, ⟨[(⟨0⟩, ⟨1⟩)]⟩⟩
    let ran := outcome (Forward.lambda Rules.standard l) s
    s.Past ∧ ran.1 = .error (.pattern .forward 1 2 uneven) ∧
      ran.2.builder.types.find? ⟨2⟩ = some (.scalar .bool) ∧ s.Untouched l.occurrences.binders ran.2 := by
  intro t kept uneven branch l s ran
  have low : ∀ x ∈ [(⟨0⟩ : Name), ⟨1⟩, ⟨2⟩], x.id < 7 := by decide
  have past : s.Past := fun x u known => low x (NameTable.mem_of_find known)
  exact ⟨past, rfl, rfl, (nested_scopes_confined Rules.standard).2.1 l s past⟩

end Cotangent
