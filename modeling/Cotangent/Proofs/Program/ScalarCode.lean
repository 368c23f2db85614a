import Cotangent.Derivative.Partials
import Cotangent.Derivative.Reverse
import Cotangent.Proofs.Scope.Renaming
/-!
Scalar code: every type is scalar, and a statement is a scalar operation, an assertion, a call of a
builtin function, or a conditional over scalar code. The scope check is not part of it.
-/
namespace Cotangent

open Outline

def Ty.IsScalar (t : Ty) : Prop := ∃ k, t = .scalar k

def BasicOp.ScalarCode : BasicOp → Prop
  | .operand _ => True
  | .unary .. => True
  | .binary .. => True
  | .compare .. => True
  | .convert .. => True
  | .assert .. => True
  | _ => False

/-- The function is known and takes as many arguments. -/
def KnownCall (func : String) (count : Nat) : Prop :=
  ∃ sig, Rules.standard.signature func = some sig ∧ count = sig.1.length

mutual

/-- A call binds one name and returns one value. -/
def Exp.ScalarCode (arity : Nat) : Exp → Prop
  | .basic op => op.ScalarCode
  | .apply func args ret =>
    arity = 1 ∧ KnownCall func args.length ∧ ∃ k, ret = [.scalar k]
  | .branch _ yes no ret _ => yes.ScalarCode ∧ no.ScalarCode ∧ ∀ t ∈ ret, t.IsScalar
  | .loop .. => False
  | .withAcc .. => False
  | .screma .. => False
  | .stream .. => False
  | .hist .. => False
  | .scatter .. => False

def Stm.ScalarCode : Stm → Prop
  | ⟨pat, _, e⟩ => (∀ p ∈ pat, p.ty.IsScalar) ∧ e.ScalarCode pat.length

def StmsScalarCode : List Stm → Prop
  | [] => True
  | s :: ss => s.ScalarCode ∧ StmsScalarCode ss

def Body.ScalarCode : Body → Prop
  | ⟨ss, _⟩ => StmsScalarCode ss

end

structure Lambda.ScalarCode (l : Lambda) : Prop where
  params : ∀ p ∈ l.params, p.ty.IsScalar
  body : l.body.ScalarCode
  ret : ∀ t ∈ l.ret, t.IsScalar

theorem stmsScalarCode_iff (ss : List Stm) : StmsScalarCode ss ↔ ∀ s ∈ ss, s.ScalarCode := by
  induction ss with
  | nil => simp [StmsScalarCode]
  | cons s ss ih => simp [StmsScalarCode, ih]

theorem body_scalarCode (b : Body) : b.ScalarCode ↔ ∀ s ∈ b.stms, s.ScalarCode := by
  obtain ⟨ss, result⟩ := b
  rw [Body.ScalarCode, stmsScalarCode_iff]

/-! Scalar types speak of no names. -/

theorem Ty.IsScalar.names {t : Ty} (isScalar : t.IsScalar) : t.names = [] := by
  obtain ⟨k, rfl⟩ := isScalar
  rfl

theorem Ty.IsScalar.isAcc {t : Ty} (isScalar : t.IsScalar) : t.isAcc = false := by
  obtain ⟨k, rfl⟩ := isScalar
  rfl

theorem typeNames_of_scalar {ts : List Ty} (scalar : ∀ t ∈ ts, t.IsScalar) : typeNames ts = [] := by
  induction ts with
  | nil => rfl
  | cons t ts ih =>
    rw [typeNames, (scalar t (by simp)).names, ih fun u mem => scalar u (by simp [mem])]
    rfl

theorem typesIn_scalarParams {ps : List Param} (scalar : ∀ p ∈ ps, p.ty.IsScalar) (scope : Scope) :
    (paramOutline ps).TypesIn scope := by
  induction ps generalizing scope with
  | nil => trivial
  | cons p ps ih =>
    simp only [paramOutline, Param.outline, typesIn_append, TypesIn, typesIn_mentionsAll,
      (scalar p (by simp)).names]
    exact ⟨by simp, ih (fun q mem => scalar q (by simp [mem])) _⟩

mutual

theorem typesIn_scalarStms (ss : List Stm) (code : StmsScalarCode ss) (scope : Scope) :
    (stmOutline ss).TypesIn scope := by
  cases ss with
  | nil => trivial
  | cons s ss =>
    obtain ⟨pat, aux, e⟩ := s
    obtain ⟨⟨pattern, inExp⟩, rest⟩ := code
    rw [stmOutline, typesIn_append, Stm.outline, typesIn_append, typesIn_append]
    refine ⟨⟨⟨typesIn_readsAll _ _, ?_⟩, typesIn_scalarParams pattern _⟩,
      typesIn_scalarStms ss rest _⟩
    cases e with
    | basic op => cases op <;> simp_all [Exp.outline, BasicOp.outline, BasicOp.typeNames, TypesIn,
        Exp.ScalarCode, BasicOp.ScalarCode]
    | apply func args ret =>
      obtain ⟨-, -, k, rfl⟩ := inExp
      simp [Exp.outline, TypesIn, typeNames, Ty.names]
    | branch cond yes no ret sort =>
      obtain ⟨inYes, inNo, types⟩ := inExp
      have yesTypes := typesIn_scalarBody yes inYes
      have noTypes := typesIn_scalarBody no inNo
      simp [Exp.outline, TypesIn, yesTypes, noTypes, typeNames_of_scalar types]
    | _ => exact absurd inExp (by simp [Exp.ScalarCode])

theorem typesIn_scalarBody (b : Body) (code : b.ScalarCode) (scope : Scope) :
    b.outline.TypesIn scope := by
  obtain ⟨ss, result⟩ := b
  rw [Body.outline, typesIn_append]
  exact ⟨typesIn_scalarStms ss code scope, typesIn_readsAll _ _⟩

end

theorem Lambda.ScalarCode.typesInScope {l : Lambda} (code : l.ScalarCode) : l.TypesInScope := by
  obtain ⟨ps, b, ret⟩ := l
  simp only [Lambda.TypesInScope, Lambda.outline, typesIn_append, typesIn_mentionsAll, TypesIn]
  refine ⟨⟨⟨typesIn_scalarParams code.params _, typesIn_scalarBody b code.body _⟩, ?_⟩, trivial⟩
  simp [typeNames_of_scalar code.ret]

/-! Fresh binders make scalar code of scalar code. -/

namespace Rename

theorem params_scalar {ps : List Param} (scalar : ∀ p ∈ ps, p.ty.IsScalar) (r : Renaming) :
    ∀ p ∈ (params ps r).1, p.ty.IsScalar := by
  induction ps generalizing r with
  | nil => simp [params, List.mapM_nil]
  | cons p ps ih =>
    obtain ⟨k, same⟩ := scalar p (by simp)
    have rest := ih (fun q mem => scalar q (by simp [mem])) (param p r).2
    simp only [params] at rest
    simp only [params, List.mapM_cons, state_bind_apply, state_pure_apply, List.forall_mem_cons]
    exact ⟨⟨k, by simp [param, same, ty]⟩, rest⟩

theorem types_scalar {ts : List Ty} (scalar : ∀ t ∈ ts, t.IsScalar) (r : Renaming) :
    types ts r = (ts, r) := by
  induction ts generalizing r with
  | nil => rfl
  | cons t ts ih =>
    obtain ⟨k, rfl⟩ := scalar t (by simp)
    simp [types, ty, ih fun u mem => scalar u (by simp [mem])]

mutual

theorem stms_scalar (ss : List Stm) (code : StmsScalarCode ss) (r : Renaming) :
    StmsScalarCode (stms ss r).1 ∧ stmsBranchDepth (stms ss r).1 = stmsBranchDepth ss := by
  cases ss with
  | nil => exact ⟨trivial, rfl⟩
  | cons s ss =>
    obtain ⟨pat, aux, e⟩ := s
    obtain ⟨⟨pattern, inExp⟩, rest⟩ := code
    have tail := fun r => stms_scalar ss rest r
    have head : ∀ r, (exp e r).1.ScalarCode pat.length ∧
        (exp e r).1.branchDepth = e.branchDepth := by
      intro r
      cases e with
      | basic op => cases op <;> simp_all [exp, basicOp, Exp.ScalarCode, BasicOp.ScalarCode,
          Exp.branchDepth]
      | apply func args ret =>
        obtain ⟨arity, known, k, rfl⟩ := inExp
        simpa [exp, Exp.ScalarCode, Exp.branchDepth, operands_apply, arity, types, ty] using known
      | branch cond yes no ret sort =>
        obtain ⟨inYes, inNo, kinds⟩ := inExp
        have yesRenamed := fun r => body_scalar yes inYes r
        have noRenamed := fun r => body_scalar no inNo r
        simp only [exp, state_bind_apply, state_pure_apply, types_scalar kinds, Exp.ScalarCode,
          Exp.branchDepth, (yesRenamed _).2, (noRenamed _).2, and_true]
        exact ⟨(yesRenamed _).1, (noRenamed _).1, kinds⟩
      | _ => exact absurd inExp (by simp [Exp.ScalarCode])
    simp only [stms, stm, state_bind_apply, state_pure_apply, StmsScalarCode, Stm.ScalarCode,
      stmsBranchDepth, Stm.branchDepth, (head _).2, (tail _).2, params_length, and_true]
    exact ⟨⟨params_scalar pattern _, (head _).1⟩, (tail _).1⟩

theorem body_scalar (b : Body) (code : b.ScalarCode) (r : Renaming) :
    (body b r).1.ScalarCode ∧ (body b r).1.branchDepth = b.branchDepth := by
  obtain ⟨ss, result⟩ := b
  obtain ⟨renamed, depth⟩ := stms_scalar ss code r
  exact ⟨renamed, depth⟩

end

end Rename

theorem Body.ScalarCode.rename {b : Body} (code : b.ScalarCode) (s : Supply) :
    (b.rename s).1.ScalarCode ∧ (b.rename s).1.branchDepth = b.branchDepth :=
  Rename.body_scalar b code ⟨s, .empty⟩

/-! Formulas over known functions. -/

mutual

/-- Every call in the formula is of a known function. -/
def Formula.Known : Formula → Prop
  | .leaf _ _ => True
  | .lit _ => True
  | .unary _ a => a.Known
  | .binary _ a b => a.Known ∧ b.Known
  | .compare _ a b => a.Known ∧ b.Known
  | .convert _ a => a.Known
  | .call func args _ => KnownCall func args.length ∧ FormulasKnown args

def FormulasKnown : List Formula → Prop
  | [] => True
  | f :: fs => f.Known ∧ FormulasKnown fs

end

theorem formulasKnown_iff (fs : List Formula) : FormulasKnown fs ↔ ∀ f ∈ fs, f.Known := by
  induction fs with
  | nil => simp [FormulasKnown]
  | cons f fs ih => simp [FormulasKnown, ih]

namespace Formula

theorem known_ofOperand (t : ScalarType) (x : Operand) : (ofOperand t x).Known := by
  cases x <;> trivial

theorem known_zero (t : ScalarType) : (zero t).Known := trivial

theorem known_one (t : ScalarType) : (one t).Known := trivial

theorem known_ofBool (t : ScalarType) {f : Formula} (known : f.Known) : (ofBool t f).Known := by
  cases t <;> exact known

variable {f g : Formula}

theorem Known.add (left : f.Known) (right : g.Known) : (f.add g).Known := ⟨left, right⟩
theorem Known.sub (left : f.Known) (right : g.Known) : (f.sub g).Known := ⟨left, right⟩
theorem Known.mul (left : f.Known) (right : g.Known) : (f.mul g).Known := ⟨left, right⟩
theorem Known.div (left : f.Known) (right : g.Known) : (f.div g).Known := ⟨left, right⟩
theorem Known.neg (known : f.Known) : f.neg.Known := ⟨known_zero _, known⟩

theorem Known.sum {fs : List Formula} (first : f.Known) (rest : ∀ g ∈ fs, g.Known) :
    (fs.foldl Formula.add f).Known := by
  induction fs generalizing f with
  | nil => exact first
  | cons g fs ih => exact ih (first.add (rest g (by simp))) fun h mem => rest h (by simp [mem])

end Formula

open Formula

/-- A function is found under the name that it is called by. -/
theorem ofName_name (f : MathFunction) (w : FloatWidth) :
    MathFunction.ofName? (f.name w) = some (f, w) := by
  cases w <;> cases f <;> decide +kernel

theorem knownCall_iff (f : MathFunction) (w : FloatWidth) (count : Nat) :
    KnownCall (f.name w) count ↔ count = f.arity := by
  simp [KnownCall, Rules.standard, ofName_name]

/-! The partials in the standard table. -/

theorem known_quotientPartials (t : ScalarType) {f g : Formula} (left : f.Known) (right : g.Known) :
    (quotientPartials t f g).1.Known ∧ (quotientPartials t f g).2.Known :=
  ⟨(known_one t).div right, (left.div (right.mul right)).neg⟩

theorem known_remainderPartials (t : ScalarType) {f g : Formula} (left : f.Known)
    (right : g.Known) : (remainderPartials t f g).1.Known ∧ (remainderPartials t f g).2.Known :=
  ⟨known_one t, (left.div right).neg⟩

theorem known_selection (le lt : Comparison) (t : ScalarType) {f g : Formula} (left : f.Known)
    (right : g.Known) : (selection le lt t f g).1.Known ∧ (selection le lt t f g).2.Known :=
  ⟨known_ofBool t ⟨right, left⟩, known_ofBool t ⟨left, right⟩⟩

theorem known_unary (op : UnaryOp) {f : Formula} (known : f.Known) :
    (Rules.standard.unary op f).Known := by
  cases op with
  | not => exact known_zero _
  | int op w => cases op <;> first | exact known_zero _ | exact known
  | float op w => cases op <;> first | exact known_zero _ | exact known | trivial

theorem known_intPartials (op : IntBinary) (w : IntWidth) {f g : Formula} (left : f.Known)
    (right : g.Known) : (op.partials w f g).1.Known ∧ (op.partials w f g).2.Known := by
  cases op with
  | add => exact ⟨known_one _, known_one _⟩
  | sub => exact ⟨known_one _, (known_one _).neg⟩
  | mul => exact ⟨right, left⟩
  | sdiv => exact known_quotientPartials _ left right
  | udiv => exact known_quotientPartials _ left right
  | smod => exact known_remainderPartials _ left right
  | umod => exact known_remainderPartials _ left right
  | pow => exact ⟨right.mul ⟨left, right.sub (known_one _)⟩, known_zero _⟩
  | smax => exact known_selection _ _ _ left right
  | umax => exact known_selection _ _ _ left right
  | smin => exact known_selection _ _ _ right left
  | umin => exact known_selection _ _ _ right left
  | _ => exact ⟨known_zero _, known_zero _⟩

theorem known_floatPartials (op : FloatBinary) (w : FloatWidth) {f g : Formula} (left : f.Known)
    (right : g.Known) : (op.partials w f g).1.Known ∧ (op.partials w f g).2.Known := by
  cases op with
  | add => exact ⟨known_one _, known_one _⟩
  | sub => exact ⟨known_one _, (known_one _).neg⟩
  | mul => exact ⟨right, left⟩
  | div => exact known_quotientPartials _ left right
  | pow =>
    have power {e : Formula} (exponent : e.Known) : (Formula.binary (.float .pow w) f e).Known :=
      ⟨left, exponent⟩
    exact ⟨right.mul (power (right.sub (known_one _))),
      (power right).mul ⟨(knownCall_iff .log w 1).mpr rfl, left, trivial⟩⟩
  | max => exact known_selection _ _ _ left right
  | min => exact known_selection _ _ _ right left

theorem known_binary (op : BinaryOp) {f g : Formula} (left : f.Known) (right : g.Known) :
    (Rules.standard.binary op f g).1.Known ∧ (Rules.standard.binary op f g).2.Known := by
  cases op with
  | int op w => exact known_intPartials op w left right
  | float op w => exact known_floatPartials op w left right
  | and => exact ⟨known_zero _, known_zero _⟩
  | or => exact ⟨known_zero _, known_zero _⟩

theorem known_mathPartials {f : MathFunction} {w : FloatWidth} {fs ds : List Formula}
    (found : f.partials? w fs = some ds) (known : FormulasKnown fs) : FormulasKnown ds := by
  unfold MathFunction.partials? at found
  split at found
  all_goals
    first
    | obtain rfl := Option.some.inj found
      simp_all [FormulasKnown, Formula.Known, Formula.add, Formula.sub, Formula.mul, Formula.div,
        Formula.neg, Formula.one, Formula.zero, knownCall_iff, MathFunction.arity]
    | simp at found

theorem known_builtin {func : String} {fs ds : List Formula}
    (found : Rules.standard.builtin func fs = some ds) (known : ∀ f ∈ fs, f.Known) :
    ∀ d ∈ ds, d.Known := by
  obtain ⟨⟨f, w⟩, -, found⟩ := Option.bind_eq_some_iff.mp found
  rw [← formulasKnown_iff] at known ⊢
  exact known_mathPartials found known

end Cotangent
