import Cotangent.Proofs.Derivative.DualCode
import Cotangent.Proofs.Evaluation.Lowering
/-!
Plain runs of integer code beside its meaning on dual numbers. A run computes the primal parts.
-/
namespace Cotangent

open Outline Run

/-! Kinds. -/

theorem Scalar.eq_bool {v : Scalar} (kind : v.ty = .bool) : ∃ b, v = .bool b := by
  cases v with
  | bool b => exact ⟨b, rfl⟩
  | _ => simp [Scalar.ty] at kind

namespace UnaryOp

theorem ty_apply {op : UnaryOp} {v r : Scalar} (applied : op.apply v = .ok r) : r.ty = op.ty := by
  cases op <;>
  · simp only [apply, except_bind_ok, except_pure_ok] at applied
    obtain ⟨_, -, rfl⟩ := applied
    rfl

end UnaryOp

namespace BinaryOp

theorem ty_apply {op : BinaryOp} {v u r : Scalar} (kind : v.ty = op.ty)
    (applied : op.apply v u = .ok r) : r.ty = op.ty := by
  cases op with
  | int op w =>
    simp only [apply, except_bind_ok, except_pure_ok] at applied
    obtain ⟨_, -, _, -, _, -, rfl⟩ := applied
    rfl
  | float op w =>
    simp only [apply, except_bind_ok, except_pure_ok] at applied
    obtain ⟨_, -, _, -, rfl⟩ := applied
    rfl
  | and =>
    obtain ⟨b, rfl⟩ := Scalar.eq_bool kind
    simp only [apply, except_bind_ok] at applied
    obtain ⟨_, -, taken⟩ := applied
    split at taken
    · obtain ⟨_, -, rfl⟩ := by simpa only [except_bind_ok, except_pure_ok] using taken
      rfl
    · exact ((except_pure_ok ..).mp taken) ▸ rfl
  | or =>
    obtain ⟨b, rfl⟩ := Scalar.eq_bool kind
    simp only [apply, except_bind_ok] at applied
    obtain ⟨_, -, taken⟩ := applied
    split at taken
    · exact ((except_pure_ok ..).mp taken) ▸ rfl
    · obtain ⟨_, -, rfl⟩ := by simpa only [except_bind_ok, except_pure_ok] using taken
      rfl

end BinaryOp

/-- An operation on a scalar of its kind comes to one of its kind. -/
theorem Formula.ty_eval_binary {read : Name → Option Scalar} {op : BinaryOp} {f g : Formula}
    {x v : Scalar} (left : f.eval read = some x) (kind : x.ty = op.ty)
    (known : (Formula.binary op f g).eval read = some v) : v.ty = op.ty := by
  simp only [Formula.eval, left, Option.bind_eq_bind, Option.bind_eq_some_iff, Option.some.injEq,
    exists_eq_left', Dual.toOption_eq_some] at known
  obtain ⟨y, -, applied⟩ := known
  exact BinaryOp.ty_apply kind applied

/-! Traces. -/

namespace Diff

variable {s t u : DiffState} {fuel : Nat} {σ τ υ : Store Scalar}

/-- The statements that were emitted on the way lead from one store to the other. -/
def Traces (fuel : Nat) (s t : DiffState) (σ τ : Store Scalar) : Prop :=
  ∃ new, t.builder.stms = s.builder.stms ++ new ∧ Ends (stms fuel new) σ () τ

theorem traces_of_emitted {new : List Stm} (emitted : t.builder.stms = s.builder.stms ++ new) :
    Traces fuel s t σ τ ↔ Ends (stms fuel new) σ () τ := by
  constructor
  · rintro ⟨new', same, ends⟩
    obtain rfl := List.append_cancel_left (same.symm.trans emitted)
    exact ends
  · exact fun ends => ⟨new, emitted, ends⟩

theorem traces_of_stms (same : t.builder.stms = s.builder.stms) : Traces fuel s t σ τ ↔ σ = τ := by
  have emitted : t.builder.stms = s.builder.stms ++ [] := by simpa using same
  rw [traces_of_emitted emitted, ends_stms_nil]

theorem Traces.split {new more : List Stm} (first : u.builder.stms = s.builder.stms ++ new)
    (second : t.builder.stms = u.builder.stms ++ more) (traces : Traces fuel s t σ υ) :
    ∃ τ, Traces fuel s u σ τ ∧ Traces fuel u t τ υ := by
  have emitted : t.builder.stms = s.builder.stms ++ (new ++ more) := by
    rw [second, first, List.append_assoc]
  rw [traces_of_emitted emitted, ends_stms_append] at traces
  obtain ⟨τ, ends, ends'⟩ := traces
  exact ⟨τ, ⟨new, first, ends⟩, more, second, ends'⟩

end Diff

/-- The names of the scope stand for the primal parts of dual numbers of their types. -/
def Tracks (w : IntWidth) (types : NameTable Ty) (σ : Store Scalar) (δ : NameTable Dual)
    (scope : Scope) : Prop :=
  ∀ x ∈ scope, ∃ d, δ.find? x = some d ∧ σ.vars.find? x = some (.scalar d.primal) ∧
    ∃ t, types.find? x = some t ∧ d.Fits w t

variable {w : IntWidth} {types : NameTable Ty} {σ τ : Store Scalar} {δ ε : NameTable Dual}
  {scope : Scope}

theorem Tracks.mono (tracks : Tracks w types σ δ scope) {inner : Scope}
    (sub : ∀ x ∈ inner, x ∈ scope) : Tracks w types σ δ inner :=
  fun x known => tracks x (sub x known)

theorem Tracks.agree (tracks : Tracks w types σ δ scope) (agree : σ.Agree (· ∈ scope) τ) :
    Tracks w types τ δ scope := by
  intro x known
  obtain ⟨d, stands, primal, typed⟩ := tracks x known
  exact ⟨d, stands, (agree x known).trans primal, typed⟩

theorem Tracks.operand (tracks : Tracks w types σ δ scope) {x : Operand}
    (known : ∀ y ∈ x.names, y ∈ scope) {d : Dual} (means : x.dual? δ = some d) :
    σ.value x = some (.scalar d.primal) := by
  cases x with
  | const v =>
    obtain rfl : Dual.constant v = d := Option.some.inj means
    rfl
  | var x =>
    obtain ⟨e, stands, primal, -⟩ := tracks x (known x (by simp [Operand.names]))
    obtain rfl := Option.some.inj (stands.symm.trans means)
    exact primal

theorem eval_ofOperand {k : ScalarType} {x : Operand} {v : Scalar}
    (found : σ.value x = some (.scalar v)) :
    (Formula.ofOperand k x).eval σ.reading = some v := by
  cases x with
  | const c =>
    obtain rfl : ScalarAlgebra.ofScalar c = v := by simpa [Store.value] using found
    rfl
  | var x => exact Store.reading_of_find found

theorem ty_ofOperand {k : ScalarType} {x : Operand} {a : Dual} (reads : x.dual? δ = some a)
    (fits : a.Fits w (.scalar k)) : (Formula.ofOperand k x).ty = k := by
  cases x with
  | const c =>
    obtain rfl : Dual.constant c = a := Option.some.inj reads
    have kind : c.ty = k := by simpa [Dual.constant] using fits.primal.symm
    exact kind
  | var x => rfl

theorem Tracks.bound (tracks : Tracks w types σ δ scope) {ps : List Param} {ds : List Dual}
    (fits : List.Forall₂ (Dual.Fits w) (ps.map (·.ty)) ds) :
    Tracks w (types.declare ps) (σ.bound (ps.map (·.name)) (ds.map fun d => .scalar d.primal))
      (δ.assign ps ds) ((paramOutline ps).after scope) := by
  intro x known
  have length : ds.length = ps.length := by simpa using fits.length_eq.symm
  have outer (absent : x ∉ ps.map (·.name)) : x ∈ scope :=
    ((mem_after_paramOutline ps scope x).mp known).resolve_right fun ⟨p, mem, same⟩ =>
      absent (same ▸ List.mem_map_of_mem mem)
  have stands : ∃ d, (δ.assign ps ds).find? x = some d := by
    by_cases bound : x ∈ ps.map (·.name)
    · obtain ⟨p, mem, rfl⟩ := List.mem_map.mp bound
      exact NameTable.assign_of_mem length mem
    · obtain ⟨d, stands, -⟩ := tracks x (outer bound)
      refine ⟨d, (NameTable.find_assign_of_not_mem ds fun p mem same => bound ?_).trans stands⟩
      exact same ▸ List.mem_map_of_mem mem
  obtain ⟨d, stands⟩ := stands
  rw [NameTable.assign] at stands
  have primal := NameTable.along_insertAll (s := δ) (t := σ.vars) (x := x)
    (R := fun d v => v = Value.scalar d.primal)
    (fun absent e found => by
      obtain ⟨e', stands, primal, -⟩ := tracks x (outer absent)
      exact ⟨_, primal, Option.some.inj (stands.symm.trans found) ▸ rfl⟩)
    (by simpa using length) (List.forall₂_map_right_iff.mpr (List.forall₂_same.mpr fun _ _ => rfl))
    d stands
  have typed := NameTable.along_insertAll (s := δ) (t := types) (x := x)
    (R := fun d t => d.Fits w t)
    (fun absent e found => by
      obtain ⟨e', stands, -, typed⟩ := tracks x (outer absent)
      exact Option.some.inj (stands.symm.trans found) ▸ typed)
    (by simpa using length) fits.flip d stands
  obtain ⟨v, found, rfl⟩ := primal
  rw [NameTable.declare_zip]
  exact ⟨d, stands, found, typed⟩

theorem Tracks.basic (tracks : Tracks w types σ δ scope) {op : BasicOp}
    (known : ∀ y ∈ op.names, y ∈ scope) {d : Dual} (means : op.Means w δ d)
    {run : Body → Run Scalar (List Value)} {v : Value}
    (ends : Ends (basicOp run op) σ v τ) : v = .scalar d.primal := by
  cases op with
  | operand x =>
    obtain ⟨found, -⟩ := (ends_operand ..).mp ends
    exact Option.some.inj (found.symm.trans (tracks.operand known means))
  | unary op x =>
    obtain ⟨-, a, reads, -, applied, -⟩ := means
    have found := tracks.operand known reads
    simp only [basicOp, ends_bind, ends_scalar, ends_lift, ends_pure, found, Option.some.injEq,
      Value.scalar.injEq] at ends
    obtain ⟨_, _, ⟨rfl, rfl⟩, u, _, ⟨same, rfl⟩, rfl, rfl⟩ := ends
    rw [Except.ok.inj (applied.symm.trans same)]
  | binary op x y =>
    obtain ⟨-, a, b, left, right, -, -, applied, -⟩ := means
    simp only [BasicOp.names, operandNames, List.flatMap_cons, List.flatMap_nil, List.append_nil,
      List.forall_mem_append] at known
    have isLeft := tracks.operand known.1 left
    have isRight := tracks.operand known.2 right
    simp only [basicOp, ends_bind, ends_scalar, ends_lift, ends_pure] at ends
    obtain ⟨m, _, ⟨foundLeft, rfl⟩, n, _, ⟨foundRight, rfl⟩, u, _, ⟨same, rfl⟩, rfl, rfl⟩ := ends
    obtain rfl : a.primal = m := by simpa using isLeft.symm.trans foundLeft
    obtain rfl : b.primal = n := by simpa using isRight.symm.trans foundRight
    rw [Except.ok.inj (applied.symm.trans same)]
  | _ => exact absurd means (by simp [BasicOp.Means])

/-- A condition is read off the primal part. -/
theorem Tracks.condition (tracks : Tracks w types σ δ scope) {cond : Operand}
    (known : ∀ y ∈ cond.names, y ∈ scope) {c : Dual} {holds : Bool}
    (means : cond.dual? δ = some c) (isBool : c.primal = .bool holds) {yes no : Body}
    {ret : List Ty} {sort : BranchSort} {fuel : Nat} {vs : List Value}
    (ends : Ends (exp (runBody fuel) fuel (.branch cond yes no ret sort)) σ vs τ) :
    Ends (runBody fuel (if holds then yes else no)) σ vs τ := by
  have found := tracks.operand known means
  simp only [exp, ends_bind, ends_scalar, ends_lift, found, Option.some.injEq,
    Value.scalar.injEq] at ends
  obtain ⟨_, _, ⟨rfl, rfl⟩, taken, _, ⟨same, rfl⟩, ends⟩ := ends
  obtain rfl : holds = taken := by
    rw [isBool] at same
    exact Except.ok.inj same
  cases holds with
  | true => exact ends
  | false => exact ends

mutual

theorem Tracks.exp (e : Exp) {arity : Nat} {scope : Scope} {σ τ : Store Scalar}
    {δ : NameTable Dual} {types : NameTable Ty} {fuel : Nat} {ds : List Dual} {vs : List Value}
    (tracks : Tracks w types σ δ scope) (code : e.ScalarCode arity)
    (accepted : (e.outline arity).Accepted scope) (means : e.Means w δ ds)
    (ends : Ends (exp (runBody fuel) fuel e) σ vs τ) :
    vs = ds.map fun d => .scalar d.primal := by
  cases e with
  | basic op =>
    obtain ⟨d, rfl, means⟩ := means
    obtain ⟨v, ran, rfl⟩ := (ends_basic ..).mp ends
    simp only [Exp.outline, BasicOp.outline, accepted_append, accepted_readsAll] at accepted
    rw [tracks.basic accepted.1.1 means ran]
    rfl
  | branch cond yes no ret sort =>
    obtain ⟨c, holds, reads, isBool, inYes, inNo⟩ := means
    obtain ⟨codeYes, codeNo, -⟩ := code
    simp only [Exp.outline, accepted_append, accepted_readsAll, after_append, after_readsAll,
      after, Accepted] at accepted
    obtain ⟨⟨⟨⟨known, acceptedYes, -⟩, acceptedNo, -⟩, -⟩, -⟩ := accepted
    have taken := tracks.condition known reads isBool ends
    cases holds with
    | true => exact Tracks.body yes tracks codeYes acceptedYes (inYes rfl) taken
    | false => exact Tracks.body no tracks codeNo acceptedNo (inNo rfl) taken
  | _ => exact absurd means (by simp [Exp.Means])

theorem Tracks.stms (ss : List Stm) {scope : Scope} {σ τ : Store Scalar} {δ ε : NameTable Dual}
    {types : NameTable Ty} {fuel : Nat} (tracks : Tracks w types σ δ scope) (code : StmsScalarCode ss)
    (accepted : (stmOutline ss).Accepted scope) (means : StmsMeans w δ ε ss)
    (ends : Ends (stms fuel ss) σ () τ) :
    Tracks w (types.declare (ss.flatMap (·.pat))) τ ε ((stmOutline ss).after scope) := by
  cases ss with
  | nil =>
    obtain rfl := means
    obtain rfl := (ends_stms_nil ..).mp ends
    exact tracks
  | cons s ss =>
    obtain ⟨pat, aux, e⟩ := s
    obtain ⟨mid, ⟨ds, here, fits, rfl⟩, rest⟩ := means
    obtain ⟨υ, first, ends⟩ := (ends_stms_cons ..).mp ends
    obtain ⟨vs, ρ, ran, -, rfl⟩ := (ends_stm ..).mp first
    rw [stmOutline, accepted_append] at accepted
    rw [stmOutline, after_append]
    have inExp := accepted.1
    simp only [Stm.outline, accepted_append, after_readsAll] at inExp
    obtain rfl := Tracks.exp e tracks code.1.2 inExp.1.2 here ran
    have kept := (agree_exp e code.1.2 ran).mono fun x known binder =>
      not_mem_of_binder inExp.1.2 binder known
    have bound := (tracks.agree kept).bound fits
    rw [after_stm] at accepted ⊢
    have whole := Tracks.stms ss bound code.2 accepted.2 rest ends
    rw [List.flatMap_cons, NameTable.declare, List.map_append, Builder.insertAll_append]
    exact whole

theorem Tracks.body (b : Body) {scope : Scope} {σ τ : Store Scalar} {δ : NameTable Dual}
    {types : NameTable Ty} {fuel : Nat} {ds : List Dual} {vs : List Value}
    (tracks : Tracks w types σ δ scope) (code : b.ScalarCode)
    (accepted : b.outline.Accepted scope) (means : b.Means w δ ds)
    (ends : Ends (runBody fuel b) σ vs τ) : vs = ds.map fun d => .scalar d.primal := by
  obtain ⟨ss, result⟩ := b
  obtain ⟨ε, inside, results⟩ := means
  obtain ⟨below, υ, rfl, ran, read⟩ := (ends_runBody ..).mp ends
  simp only [Body.outline, accepted_append, accepted_readsAll] at accepted
  have after := Tracks.stms ss tracks code accepted.1 inside ran
  obtain ⟨found, -⟩ := ends_operands.mp read
  have inScope : ∀ x ∈ result, ∀ y ∈ x.names, y ∈ (stmOutline ss).after scope :=
    fun x mem y inX => accepted.2 y (List.mem_flatMap.mpr ⟨x, mem, inX⟩)
  have stands : List.Forall₂ (fun x v => υ.value x = some v) result
      (ds.map fun d => .scalar d.primal) := by
    refine List.forall₂_map_right_iff.mpr ?_
    refine ((List.forall₂_and_left result ds).mpr ⟨inScope, results⟩).imp fun x d read => ?_
    exact after.operand read.1 read.2
  refine List.right_unique_forall₂' (fun x u v here there => ?_) found stands
  simpa using here.symm.trans there

end

end Cotangent
