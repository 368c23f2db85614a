import Cotangent.Derivative.Reverse
import Cotangent.Proofs.Derivative.DeclaredTypes
import Cotangent.Proofs.Scope.FreshBinders
/-!
Reverse differentiation gives types to fresh names alone. The statements of a branch are emitted a second
time, but under new names, and everything else that is declared was drawn on the way; so whatever was
known by its type before is known by the same type afterwards. This holds of arbitrary statements and also
where one of them is refused.
-/
namespace Cotangent

open Diff

variable {α β : Type} {on : Name → Prop} {n : Nat}

/-- What a statement list binds at its top level is bound by the body. -/
theorem binder_of_pattern {b : Body} {s : Stm} (inBody : s ∈ b.stms) {p : Param} (inPattern : p ∈ s.pat) :
    p.name ∈ b.occurrences.binders := by
  have occurs (ss : List Stm) (mem : s ∈ ss) : .binds p.name ∈ stmOccurrences ss := by
    induction ss with
    | nil => simp at mem
    | cons t ss ih =>
      rcases List.mem_cons.mp mem with rfl | later
      · obtain ⟨pat, aux, e⟩ := s
        refine List.mem_append_left _ (List.mem_append_right _ ?_)
        exact List.mem_flatMap.mpr ⟨p, inPattern, List.mem_cons_self⟩
      · exact List.mem_append_right _ (ih later)
  obtain ⟨ss, result⟩ := b
  exact Occurrences.mem_binders.mpr (List.mem_append_left _ (occurs ss inBody))

namespace Build

variable {P : α → Prop}

theorem declares_param (t : Ty) : Declares on n (param t) fun _ => True :=
  declares_fresh.bind fun _ fresh => (declares_declare (.inr fresh)).bind fun _ _ => declares_pure trivial

theorem declares_letFormula (f : Formula) : Declares on n (letFormula f) fun _ => True :=
  declares_fresh.bind fun _ fresh =>
    (declares_bindFormula (.inr fresh) .none f).bind fun _ _ => declares_pure trivial

theorem Declares.collect {act : Build α} (declares : Declares on n act P) :
    Declares on n (collect act) fun r => P r.1 := by
  intro b past
  obtain ⟨frame, holds⟩ := declares { b with stms := [] } past
  exact ⟨⟨frame.next_le, frame.kept⟩, holds⟩

theorem declares_sum (elem : ScalarType) (unique : Bool) (shape : List Operand) (x y : Name) :
    Declares on n (sum elem unique shape x y) fun _ => True := by
  induction shape generalizing x y with
  | nil => exact declares_letFormula _
  | cons width shape ih =>
    exact (declares_param _).bind fun a _ => (declares_param _).bind fun b _ =>
      (ih a.name b.name).collect.bind fun _ _ => (declares_letExp _ _).bind fun _ _ => declares_pure trivial

/-- A body with fresh binders declares nothing yet, and its statements bind names drawn for them. -/
theorem declares_renamed (b : Body) :
    Declares on n (renamed b) fun c => ∀ s ∈ c.stms, ∀ p ∈ s.pat, n ≤ p.name.id := by
  intro d past
  obtain ⟨occurrences, supply⟩ := b.occurrences_rename d.supply
  obtain ⟨binders, next⟩ := b.occurrences.binders_rename ⟨d.supply, .empty⟩
  rw [← occurrences] at binders
  rw [← supply] at next
  have next : (b.rename d.supply).2.next = d.supply.next + b.occurrences.binders.length := next
  refine ⟨⟨?_, fun _ _ _ => rfl⟩, fun s inBody p inPattern => ?_⟩
  · show n ≤ (b.rename d.supply).2.next
    omega
  · have binder := binder_of_pattern inBody inPattern
    rw [show (renamed b d).1 = (b.rename d.supply).1 from rfl, binders, List.mem_map] at binder
    obtain ⟨i, drawn, same⟩ := binder
    have lower := (List.mem_range'_1.mp drawn).1
    rw [← same]
    exact Nat.le_trans past lower

end Build

namespace Diff

variable {P : α → NameTable Ty → Prop}

theorem declaresOnly_forM {f : α → Diff Unit} {xs : List α} (each : ∀ x ∈ xs, DeclaresOnly on n (f x)) :
    DeclaresOnly on n (xs.forM f) := by
  induction xs with
  | nil => exact declaresOnly_pure
  | cons x xs ih =>
    rw [List.forM_eq_forM, List.forM_cons, ← List.forM_eq_forM]
    exact (each x (by simp)).bind fun _ _ _ => ih fun z later => each z (by simp [later])

/-- The action starts without companions, which makes no difference to what may be declared. -/
theorem Declares.isolated {act : Diff α} (declares : Declares on n act P) :
    Declares on n (isolated act) P :=
  Declares.within fun s past => declares { s with companions := .empty } past

/-- Builder actions of which the result does not matter. -/
theorem declaresOnly_build {R : α → Prop} {act : Build α} (declares : Build.Declares on n act R) :
    DeclaresOnly on n (build act) :=
  (declares_build declares).mono fun _ _ _ => trivial

end Diff

namespace Reverse

/-! Contributions. -/

theorem declaresOnly_addValues (t : Ty) (x y : Name) : DeclaresOnly on n (addValues t x y) := by
  cases t with
  | scalar t => exact declaresOnly_build (Build.declares_sum t false [] x y)
  | array elem shape unique =>
    cases shape with
    | nil => exact declares_throw _
    | cons width shape => exact declaresOnly_build (Build.declares_sum elem unique (width :: shape) x y)
  | acc token shape elems unique => exact declares_throw _

theorem declaresOnly_contribute (x d : Name) : DeclaresOnly on n (contribute x d) := by
  refine (declaresOnly_companion? x).bind fun found _ _ => ?_
  cases found with
  | none => exact declaresOnly_setCompanion x d
  | some old =>
    exact (declaresOnly_typeOf x).bind fun t _ _ => (declaresOnly_addValues t old d).bind fun z _ _ =>
      declaresOnly_setCompanion x z

theorem declaresOnly_contributeTo (x : Operand) (d : Name) : DeclaresOnly on n (contributeTo x d) := by
  cases x with
  | const v => exact declaresOnly_pure
  | var x => exact declaresOnly_contribute x d

theorem declaresOnly_contributeFormula (x : Operand) (f : Formula) :
    DeclaresOnly on n (contributeFormula x f) := by
  cases x with
  | const v => exact declaresOnly_pure
  | var x =>
    exact (declaresOnly_build (Build.declares_letFormula f)).bind fun d _ _ => declaresOnly_contribute x d

theorem declaresOnly_seed (results : List Operand) (seeds : List Name) :
    DeclaresOnly on n (seed results seeds) :=
  declaresOnly_forM fun r _ => declaresOnly_contributeTo r.1 r.2

theorem declaresOnly_adjoints (xs : List Name) : DeclaresOnly on n (adjoints xs) :=
  declaresOnly_mapM fun x _ => (declaresOnly_companion x).bind fun _ _ _ => declaresOnly_pure

/-- The statements that are emitted at the start are the only ones whose names are not drawn here. -/
theorem declaresOnly_sweep {back : Stm → Diff Unit} {stms : List Stm} {seed : Diff Unit}
    (fresh : ∀ s ∈ stms, ∀ p ∈ s.pat, n ≤ p.name.id) (step : ∀ s, DeclaresOnly on n (back s))
    (start : DeclaresOnly on n seed) : DeclaresOnly on n (sweep back stms seed) := by
  refine (declaresOnly_forM fun s mem => ?_).bind fun _ _ _ => start.bind fun _ _ _ =>
    declaresOnly_forM fun s _ => step s
  exact declaresOnly_build (Build.declares_add fun p inPattern => .inr (fresh s mem p inPattern))

/-! Statements. -/

theorem declaresOnly_comparison (t : ScalarType) (b : Name) (x y : Operand) :
    DeclaresOnly on n (comparison t b x y) := by
  have both (d : Name) : DeclaresOnly on n (do contributeTo x d; contributeTo y d) :=
    (declaresOnly_contributeTo x d).bind fun _ _ _ => declaresOnly_contributeTo y d
  have numbered (e : Exp) : DeclaresOnly on n (some <$> build (Build.letExp (.scalar t) e)) := by
    rw [map_eq_pure_bind]
    exact (declaresOnly_build (Build.declares_letExp _ e)).bind fun _ _ _ => declaresOnly_pure
  cases t with
  | float w | int w =>
    refine (numbered _).bind fun d? _ _ => ?_
    cases d? with
    | none => exact declaresOnly_pure
    | some d => exact both d
  | bool => exact both b
  | cert => exact declaresOnly_pure

theorem declaresOnly_basicOp (rules : Rules) (s : Stm) (op : BasicOp) :
    DeclaresOnly on n (basicOp rules s op) := by
  -- every case but three starts from the adjoint of what the statement binds
  have started {next : Name → Diff Unit} (rest : ∀ adjoint, DeclaresOnly on n (next adjoint)) :
      DeclaresOnly on n (do next (← companion (← single .reverse s).name)) :=
    (declares_single .reverse s).bind fun p _ _ => (declaresOnly_companion p.name).bind
      fun adjoint _ _ => rest adjoint
  cases op with
  | operand x =>
    cases x with
    | const v => exact declaresOnly_pure
    | var x => exact started fun adjoint => declaresOnly_contribute x adjoint
  | assert cond message => exact declaresOnly_pure
  | compare op x y =>
    exact (declares_single .reverse s).bind fun p _ _ => declaresOnly_comparison op.ty p.name x y
  | convert op x =>
    cases op with
    | floatToFloat source target => exact started fun _ => declaresOnly_contributeFormula x _
    | _ => exact started fun _ => declaresOnly_pure
  | unary op x => exact started fun _ => declaresOnly_contributeFormula x _
  | binary op x y =>
    exact started fun _ => (declaresOnly_contributeFormula x _).bind fun _ _ _ =>
      declaresOnly_contributeFormula y _
  | _ => exact started fun _ => declares_throw _

theorem declaresOnly_apply (rules : Rules) (s : Stm) (func : String) (args : List Operand) :
    DeclaresOnly on n (apply rules s func args) :=
  (declaresOnly_signature rules func).bind fun sig _ _ =>
    (declaresOnly_partials rules func sig.1 args).bind fun _ _ _ =>
      (declares_single .reverse s).bind fun p _ _ => (declaresOnly_companion p.name).bind fun _ _ _ =>
        declaresOnly_forM fun a _ => declaresOnly_contributeFormula a.1 _

/-! Branches. -/

theorem declaresOnly_branchBody {back : Stm → Diff Unit} (step : ∀ s, DeclaresOnly on n (back s))
    (seeds free : List Name) (b : Body) : DeclaresOnly on n (branchBody back seeds free b) :=
  (declares_build (Build.declares_renamed b)).bind fun c _ fresh =>
    (declaresOnly_bodyOf (declaresOnly_sweep fresh step (declaresOnly_seed c.result seeds))
      (declaresOnly_adjoints free)).isolated

theorem declaresOnly_branch {back : Stm → Diff Unit} (step : ∀ s, DeclaresOnly on n (back s)) (s : Stm)
    (cond : Operand) (yes no : Body) (sort : BranchSort) :
    DeclaresOnly on n (branch back s cond yes no sort) := by
  refine (declaresOnly_mapM fun p _ => declaresOnly_companion p.name).bind fun seeds _ _ => ?_
  refine (declaresOnly_mapM fun x _ => (declaresOnly_typeOf x).bind fun _ _ _ =>
    declaresOnly_pure).bind fun typed _ _ => ?_
  by_cases nothing : (typed.filter fun p => !p.ty.isAcc).isEmpty = true
  · simp only [nothing, Bool.not_true, Bool.false_eq_true, if_false]
    exact declaresOnly_pure
  · simp only [nothing, Bool.not_false, if_true]
    refine (declaresOnly_branchBody step seeds _ yes).bind fun yes _ _ => ?_
    refine (declaresOnly_branchBody step seeds _ no).bind fun no _ _ => ?_
    have drawn : Declares on n ((typed.filter fun p => !p.ty.isAcc).mapM fun p => do
        return { p with name := ← build Build.fresh } : Diff (List Param)) fun pat _ =>
          List.Forall₂ (fun _ (q : Param) => n ≤ q.name.id) (typed.filter fun p => !p.ty.isAcc) pat :=
      declares_mapM fun p _ => (declares_build Build.declares_fresh).bind fun _ _ fresh =>
        declares_pure fun _ => fresh
    refine drawn.bind fun pat _ fresh => ?_
    have free : ∀ q ∈ pat, on q.name ∨ n ≤ q.name.id := by
      intro q mem
      obtain ⟨i, here, rfl⟩ := List.getElem_of_mem mem
      exact .inr (fresh.get (fresh.length_eq ▸ here) here)
    exact (declaresOnly_build (Build.declares_add free)).bind fun _ _ _ =>
      declaresOnly_forM fun p _ => declaresOnly_contribute p.1.name p.2.name

/-! Programs. -/

theorem declaresOnly_stm (rules : Rules) (depth : Nat) (s : Stm) :
    DeclaresOnly on n (stm rules depth s) := by
  induction depth generalizing s with
  | zero =>
    obtain ⟨pat, aux, e⟩ := s
    cases e with
    | basic op => exact declaresOnly_basicOp rules _ op
    | apply func args ret => exact declaresOnly_apply rules _ func args
    | _ => exact declares_throw _
  | succ depth ih =>
    obtain ⟨pat, aux, e⟩ := s
    cases e with
    | basic op => exact declaresOnly_basicOp rules _ op
    | apply func args ret => exact declaresOnly_apply rules _ func args
    | branch cond yes no ret sort => exact declaresOnly_branch ih _ cond yes no sort
    | _ => exact declares_throw _

end Reverse

end Cotangent
