import Cotangent.Proofs.Derivative.Dual
import Cotangent.Proofs.Derivative.Steps
import Cotangent.Proofs.Program.IntegerCode
/-!
What integer code comes to on dual numbers. A statement extends the table of the dual numbers that names
stand for; the tangent of what it binds is a combination of the tangents of what it reads, with the
partials of its operation for coefficients.
-/
namespace Cotangent

open Outline

/-- The dual number that an operand stands for. -/
def Operand.dual? (δ : NameTable Dual) : Operand → Option Dual
  | .const v => some (.constant v)
  | .var x => δ.find? x

/-- The value and the tangent are of the type, which is one of integer code. -/
structure Dual.Fits (w : IntWidth) (t : Ty) (d : Dual) : Prop where
  within : t.Within w
  primal : t = .scalar d.primal.ty
  tangent : t = .scalar d.tangent.ty

/-- The operation comes to `d` on operands of the kind that it expects. -/
def BasicOp.Means (w : IntWidth) (δ : NameTable Dual) (d : Dual) : BasicOp → Prop
  | .operand x => x.dual? δ = some d
  | .unary op x => d.Fits w (.scalar op.ty) ∧ ∃ a, x.dual? δ = some a ∧ a.Fits w (.scalar op.ty) ∧
      op.apply a.primal = .ok d.primal ∧ Dual.unaryTangent op a = some d.tangent
  | .binary op x y => d.Fits w (.scalar op.ty) ∧ ∃ a b, x.dual? δ = some a ∧ y.dual? δ = some b ∧
      a.Fits w (.scalar op.ty) ∧ b.Fits w (.scalar op.ty) ∧
      op.apply a.primal b.primal = .ok d.primal ∧ Dual.binaryTangent op a b = some d.tangent
  | _ => False

/-- The table with further names, which stand for as many dual numbers. -/
def NameTable.assign (δ : NameTable Dual) (ps : List Param) (ds : List Dual) : NameTable Dual :=
  δ.insertAll ((ps.map (·.name)).zip ds)

mutual

def Exp.Means (w : IntWidth) (δ : NameTable Dual) (ds : List Dual) : Exp → Prop
  | .basic op => ∃ d, ds = [d] ∧ op.Means w δ d
  | .branch cond yes no _ _ => ∃ c holds, cond.dual? δ = some c ∧ c.primal = .bool holds ∧
      (holds = true → yes.Means w δ ds) ∧ (holds = false → no.Means w δ ds)
  | .apply .. => False
  | .loop .. => False
  | .withAcc .. => False
  | .screma .. => False
  | .stream .. => False
  | .hist .. => False
  | .scatter .. => False

/-- The statement turns the first table into the second. -/
def Stm.Means (w : IntWidth) (δ ε : NameTable Dual) : Stm → Prop
  | ⟨pat, _, e⟩ => ∃ ds, e.Means w δ ds ∧ List.Forall₂ (Dual.Fits w) (pat.map (·.ty)) ds ∧
      ε = δ.assign pat ds

def StmsMeans (w : IntWidth) (δ ε : NameTable Dual) : List Stm → Prop
  | [] => ε = δ
  | s :: ss => ∃ mid, s.Means w δ mid ∧ StmsMeans w mid ε ss

def Body.Means (w : IntWidth) (δ : NameTable Dual) (ds : List Dual) : Body → Prop
  | ⟨ss, result⟩ => ∃ ε, StmsMeans w δ ε ss ∧
      List.Forall₂ (fun x d => x.dual? ε = some d) result ds

end

section

variable {α β : Type} {R : α → β → Prop}

/-- Tables that are related at a name stay so when names are inserted with related values. -/
theorem NameTable.along_insertAll {s : NameTable α} {t : NameTable β} {x : Name} {xs : List Name}
    {as : List α} {bs : List β}
    (before : x ∉ xs → ∀ a, s.find? x = some a → ∃ b, t.find? x = some b ∧ R a b)
    (length : as.length = xs.length) (each : List.Forall₂ R as bs) :
    ∀ a, (s.insertAll (xs.zip as)).find? x = some a →
      ∃ b, (t.insertAll (xs.zip bs)).find? x = some b ∧ R a b := by
  induction each generalizing xs s t with
  | nil =>
    obtain rfl := List.length_eq_zero_iff.mp length.symm
    exact before List.not_mem_nil
  | @cons a b as bs here rest ih =>
    obtain ⟨y, xs, rfl⟩ := List.exists_cons_of_length_eq_add_one length.symm
    refine ih (fun absent c found => ?_) (by simpa using length)
    by_cases same : x = y
    · simp only [NameTable.find_insert, same, if_true, Option.some.injEq] at found ⊢
      exact ⟨b, rfl, found ▸ here⟩
    · simp only [NameTable.find_insert, same, if_false] at found ⊢
      exact before (by simp [same, absent]) c found

theorem NameTable.declare_zip (types : NameTable Ty) (ps : List Param) :
    types.declare ps = types.insertAll ((ps.map (·.name)).zip (ps.map (·.ty))) := by
  rw [NameTable.declare, List.zip_map']

end

variable {w : IntWidth} {δ ε mid : NameTable Dual}

/-! Tables. -/

theorem NameTable.find_assign_of_not_mem {ps : List Param} (ds : List Dual) {x : Name}
    (absent : ∀ p ∈ ps, p.name ≠ x) : (δ.assign ps ds).find? x = δ.find? x := by
  refine NameTable.find_insertAll_of_not_mem _ _ _ fun q mem => ?_
  obtain ⟨p, inList, same⟩ := List.mem_map.mp (List.of_mem_zip mem).1
  exact same ▸ absent p inList

/-- Every name that is bound to one of as many dual numbers stands for one. -/
theorem NameTable.assign_of_mem {ps : List Param} {ds : List Dual} (length : ds.length = ps.length)
    {p : Param} (mem : p ∈ ps) : ∃ d, (δ.assign ps ds).find? p.name = some d := by
  obtain ⟨d, -, found⟩ := NameTable.find_insertAll_of_mem δ ((ps.map (·.name)).zip ds) p.name (by
    rw [List.map_fst_zip (by simp [length])]
    exact List.mem_map_of_mem mem)
  exact ⟨d, found⟩

theorem Stm.Means.kept {s : Stm} (means : s.Means w δ ε) {x : Name}
    (absent : ∀ p ∈ s.pat, p.name ≠ x) : ε.find? x = δ.find? x := by
  obtain ⟨pat, aux, e⟩ := s
  obtain ⟨ds, -, -, rfl⟩ := means
  exact NameTable.find_assign_of_not_mem ds absent

theorem stmsMeans_append (ss ts : List Stm) :
    StmsMeans w δ ε (ss ++ ts) ↔ ∃ mid, StmsMeans w δ mid ss ∧ StmsMeans w mid ε ts := by
  induction ss generalizing δ with
  | nil => simp [StmsMeans]
  | cons s ss ih => simp only [List.cons_append, StmsMeans, ih]; grind

/-! Slopes. -/

/-- The tangent as a number modulo the width. -/
def Dual.slope (w : IntWidth) (d : Dual) : ZMod w.modulus := d.tangent.number

/-- The slope of what an operand stands for. -/
def Operand.slope (w : IntWidth) (δ : NameTable Dual) (x : Operand) : ZMod w.modulus :=
  ((x.dual? δ).map (Dual.slope w)).getD 0

theorem Operand.slope_of_dual {x : Operand} {d : Dual} (known : x.dual? δ = some d) :
    x.slope w δ = d.slope w := by
  simp [Operand.slope, known]

theorem slope_constant (v : Scalar) : (Dual.constant v).slope w = 0 := by
  cases v <;> simp [Dual.slope, Dual.constant, Scalar.ty, Scalar.zero, Scalar.number]

theorem Operand.slope_const (v : Scalar) : (Operand.const v).slope w δ = 0 :=
  (Operand.slope_of_dual rfl).trans (slope_constant v)

theorem Operand.slope_congr {x : Operand} (same : ∀ y ∈ x.names, δ.find? y = ε.find? y) :
    x.slope w δ = x.slope w ε := by
  cases x with
  | const v => rfl
  | var x => simp [Operand.slope, Operand.dual?, same x (by simp [Operand.names])]

namespace Dual

variable {a b d : Dual} {t : Ty}

/-- A bool has a slope of no number. -/
theorem Fits.slope (fits : d.Fits w t) : t = .scalar (.int w) ∨ d.slope w = 0 := by
  refine fits.within.imp_right fun isBool => ?_
  have kind : d.tangent.ty = .bool := by simpa [isBool] using fits.tangent.symm
  unfold Dual.slope
  cases tangent : d.tangent <;> simp_all [Scalar.ty, Scalar.number]

theorem Fits.slope_of_bool (fits : d.Fits w (.scalar .bool)) : d.slope w = 0 :=
  fits.slope.resolve_left (by simp)

variable {read : Name → Option Scalar} {f g : Formula}

/-- The slope of a unary operation. -/
theorem slope_unary {op : UnaryOp} (fits : a.Fits w (.scalar op.ty))
    (result : d.Fits w (.scalar op.ty)) (primal : f.eval read = some a.primal) (kind : f.ty = op.ty)
    (known : unaryTangent op a = some d.tangent) :
    ∃ p, (op.derivative f).eval read = some p ∧ d.slope w = a.slope w * p.number := by
  cases op with
  | not =>
    refine ⟨.bool false, rfl, ?_⟩
    rw [result.slope_of_bool, fits.slope_of_bool, zero_mul]
  | float op v => exact absurd fits.within (by simp [Ty.Within, UnaryOp.ty])
  | int op v =>
    obtain rfl : v = w := by simpa [Ty.Within, UnaryOp.ty] using fits.within
    have partials : Formula.Alike read (readings [a.primal, a.tangent])
        ((UnaryOp.int op v).derivative f) ((UnaryOp.int op v).derivative (.leaf ⟨0⟩ (.int v))) :=
      Formula.Alike.derivative _ ⟨kind, primal⟩
    obtain ⟨x, p, isTangent, evalPartial, same⟩ := eval_mul rfl known
    obtain rfl : a.tangent = x := Option.some.inj isTangent
    refine ⟨p, partials.eval.trans evalPartial, ?_⟩
    simp [Dual.slope, same, Scalar.number, IntWidth.cast_wrap]

/-- The slope of a binary operation. -/
theorem slope_binary {op : BinaryOp} (left : a.Fits w (.scalar op.ty))
    (right : b.Fits w (.scalar op.ty)) (result : d.Fits w (.scalar op.ty))
    (primal : f.eval read = some a.primal ∧ g.eval read = some b.primal)
    (kinds : f.ty = op.ty ∧ g.ty = op.ty) (known : binaryTangent op a b = some d.tangent) :
    ∃ p q, (op.partials f g).1.eval read = some p ∧ (op.partials f g).2.eval read = some q ∧
      d.slope w = a.slope w * p.number + b.slope w * q.number := by
  have flat (isBool : op.ty = .bool) (p q : Scalar) :
      d.slope w = a.slope w * p.number + b.slope w * q.number := by
    rw [isBool] at left right result
    rw [left.slope_of_bool, right.slope_of_bool, result.slope_of_bool]
    simp
  cases op with
  | and => exact ⟨.bool false, .bool false, rfl, rfl, flat rfl _ _⟩
  | or => exact ⟨.bool false, .bool false, rfl, rfl, flat rfl _ _⟩
  | float op v => exact absurd left.within (by simp [Ty.Within, BinaryOp.ty])
  | int op v =>
    obtain rfl : v = w := by simpa [Ty.Within, BinaryOp.ty] using left.within
    have isLeft : Formula.Alike read (readings [a.primal, b.primal, a.tangent, b.tangent]) f
        (.leaf ⟨0⟩ (.int v)) := ⟨kinds.1, primal.1⟩
    have isRight : Formula.Alike read (readings [a.primal, b.primal, a.tangent, b.tangent]) g
        (.leaf ⟨1⟩ (.int v)) := ⟨kinds.2, primal.2⟩
    have partials := isLeft.intPartials op v isRight
    have general (known : (binaryFormula (.int op v) (.leaf ⟨0⟩ (.int v)) (.leaf ⟨1⟩ (.int v))
        (.leaf ⟨2⟩ (.int v)) (.leaf ⟨3⟩ (.int v))).eval
          (readings [a.primal, b.primal, a.tangent, b.tangent]) = some d.tangent) :
        ∃ p q, (op.partials v f g).1.eval read = some p ∧ (op.partials v f g).2.eval read = some q ∧
          d.slope v = a.slope v * p.number + b.slope v * q.number := by
      obtain ⟨p, q, evalLeft, evalRight, same⟩ := eval_binaryFormula rfl rfl ⟨rfl, rfl⟩ known
      refine ⟨p, q, partials.1.eval.trans evalLeft, partials.2.eval.trans evalRight, ?_⟩
      simp [Dual.slope, same, Scalar.number, IntWidth.cast_wrap]
    cases op with
    | add =>
      refine ⟨.int v 1, .int v 1, rfl, rfl, ?_⟩
      simp [Dual.slope, ← Option.some.inj known, Scalar.number, IntWidth.cast_wrap]
    | sub =>
      refine ⟨.int v 1, .int v (v.wrap (0 - 1)), rfl, rfl, ?_⟩
      simp [Dual.slope, ← Option.some.inj known, Scalar.number, IntWidth.cast_wrap]
      ring
    | mul =>
      refine ⟨b.primal, a.primal, primal.2, primal.1, ?_⟩
      simp [Dual.slope, ← Option.some.inj known, Scalar.number, IntWidth.cast_wrap]
      ring
    | _ => exact general known

end Dual

/-! Code that reads nothing with a slope binds nothing with a slope. -/

/-- No name of the scope has a slope. -/
def Still (w : IntWidth) (δ : NameTable Dual) (scope : Scope) : Prop :=
  ∀ x ∈ scope, (Operand.var x).slope w δ = 0

theorem Still.operand {scope : Scope} (still : Still w δ scope) {x : Operand}
    (known : ∀ y ∈ x.names, y ∈ scope) {d : Dual} (means : x.dual? δ = some d) : d.slope w = 0 := by
  rw [← Operand.slope_of_dual means]
  cases x with
  | const v => exact Operand.slope_const v
  | var x => exact still x (known x (by simp [Operand.names]))

theorem exists_of_forall₂ {α β : Type} {R : α → β → Prop} {as : List α} {bs : List β}
    (each : List.Forall₂ R as bs) {b : β} (mem : b ∈ bs) : ∃ a ∈ as, R a b := by
  induction each with
  | nil => simp at mem
  | cons here rest ih =>
    rcases List.mem_cons.mp mem with rfl | mem
    · exact ⟨_, List.mem_cons_self, here⟩
    · obtain ⟨a, inList, related⟩ := ih mem
      exact ⟨a, List.mem_cons_of_mem _ inList, related⟩

theorem Still.basic {scope : Scope} (still : Still w δ scope) {op : BasicOp} {d : Dual}
    (known : ∀ y ∈ op.names, y ∈ scope) (means : op.Means w δ d) : d.slope w = 0 := by
  let nothing : Name → Option Scalar := fun _ => none
  cases op with
  | operand x => exact still.operand known means
  | unary op x =>
    obtain ⟨result, a, reads, fits, -, tangent⟩ := means
    have kind : a.primal.ty = op.ty := by simpa using fits.primal.symm
    have constant : (Formula.lit a.primal).eval nothing = some a.primal := rfl
    obtain ⟨p, -, same⟩ := Dual.slope_unary fits result constant kind tangent
    rw [same, still.operand known reads, zero_mul]
  | binary op x y =>
    obtain ⟨result, a, b, left, right, fitsLeft, fitsRight, -, tangent⟩ := means
    simp only [BasicOp.names, operandNames, List.flatMap_cons, List.flatMap_nil, List.append_nil,
      List.forall_mem_append] at known
    have kinds : a.primal.ty = op.ty ∧ b.primal.ty = op.ty :=
      ⟨by simpa using fitsLeft.primal.symm, by simpa using fitsRight.primal.symm⟩
    have constants : (Formula.lit a.primal).eval nothing = some a.primal ∧
        (Formula.lit b.primal).eval nothing = some b.primal := ⟨rfl, rfl⟩
    obtain ⟨p, q, -, -, same⟩ :=
      Dual.slope_binary fitsLeft fitsRight result constants kinds tangent
    rw [same, still.operand known.1 left, still.operand known.2 right, zero_mul, zero_mul, add_zero]
  | _ => exact absurd means (by simp [BasicOp.Means])

theorem Still.assign {scope : Scope} (still : Still w δ scope) (ps : List Param) {ds : List Dual}
    (length : ds.length = ps.length) (flat : ∀ d ∈ ds, d.slope w = 0) :
    Still w (δ.assign ps ds) ((paramOutline ps).after scope) := by
  intro x known
  by_cases bound : ∃ p ∈ ps, p.name = x
  · obtain ⟨d, mem, found⟩ := NameTable.find_insertAll_of_mem δ ((ps.map (·.name)).zip ds) x (by
      rw [List.map_fst_zip (by simp [length])]
      simpa using bound)
    have reads : (Operand.var x).dual? (δ.assign ps ds) = some d := found
    exact (Operand.slope_of_dual reads).trans (flat d (List.of_mem_zip mem).2)
  · have outer := ((mem_after_paramOutline ps scope x).mp known).resolve_right bound
    have kept := NameTable.find_assign_of_not_mem (δ := δ) ds fun p mem same => bound ⟨p, mem, same⟩
    rw [Operand.slope_congr (ε := δ) (by simpa [Operand.names] using kept)]
    exact still x outer

mutual

theorem Still.exp (e : Exp) {arity : Nat} {scope : Scope} {δ : NameTable Dual} {ds : List Dual}
    (still : Still w δ scope) (accepted : (e.outline arity).Accepted scope)
    (means : e.Means w δ ds) : ∀ d ∈ ds, d.slope w = 0 := by
  cases e with
  | basic op =>
    obtain ⟨d, rfl, means⟩ := means
    simp only [Exp.outline, BasicOp.outline, accepted_append, accepted_readsAll] at accepted
    simpa using still.basic accepted.1.1 means
  | branch cond yes no ret sort =>
    obtain ⟨c, holds, -, -, inYes, inNo⟩ := means
    simp only [Exp.outline, accepted_append, accepted_readsAll, after_append, after_readsAll,
      after, Accepted] at accepted
    obtain ⟨⟨⟨⟨-, acceptedYes, -⟩, acceptedNo, -⟩, -⟩, -⟩ := accepted
    cases holds with
    | true => exact Still.body yes still acceptedYes (inYes rfl)
    | false => exact Still.body no still acceptedNo (inNo rfl)
  | _ => exact absurd means (by simp [Exp.Means])

theorem Still.stms (ss : List Stm) {scope : Scope} {δ ε : NameTable Dual} (still : Still w δ scope)
    (accepted : (stmOutline ss).Accepted scope) (means : StmsMeans w δ ε ss) :
    Still w ε ((stmOutline ss).after scope) := by
  cases ss with
  | nil =>
    obtain rfl := means
    exact still
  | cons s ss =>
    obtain ⟨pat, aux, e⟩ := s
    obtain ⟨mid, ⟨ds, here, fits, rfl⟩, rest⟩ := means
    rw [stmOutline, accepted_append] at accepted
    rw [stmOutline, after_append]
    refine Still.stms ss ?_ accepted.2 rest
    rw [after_stm]
    have inExp := accepted.1
    simp only [Stm.outline, accepted_append, after_readsAll] at inExp
    exact still.assign pat (by simpa using fits.length_eq.symm) (Still.exp e still inExp.1.2 here)

theorem Still.body (b : Body) {scope : Scope} {δ : NameTable Dual} {ds : List Dual}
    (still : Still w δ scope) (accepted : b.outline.Accepted scope) (means : b.Means w δ ds) :
    ∀ d ∈ ds, d.slope w = 0 := by
  obtain ⟨ss, result⟩ := b
  obtain ⟨ε, inside, results⟩ := means
  simp only [Body.outline, accepted_append, accepted_readsAll] at accepted
  have after := Still.stms ss still accepted.1 inside
  intro d mem
  obtain ⟨x, inResult, reads⟩ := exists_of_forall₂ results mem
  exact after.operand (fun y inX => accepted.2 y (List.mem_flatMap.mpr ⟨x, inResult, inX⟩)) reads

end

/-! Fresh binders do not change what code comes to. -/

/-- The new names of a scope stand for what the old ones stood for. -/
def Renaming.Carries (r : Renaming) (scope : Scope) (δ δ' : NameTable Dual) : Prop :=
  ∀ x ∈ scope, δ'.find? (r.look x) = δ.find? x

section

variable {r : Renaming} {scope target : Scope} {δ' : NameTable Dual}

theorem Renaming.Carries.operand (carries : r.Carries scope δ δ') {x : Operand}
    (known : ∀ y ∈ x.names, y ∈ scope) : (x.renamed r).dual? δ' = x.dual? δ := by
  cases x with
  | const v => rfl
  | var x => exact carries x (known x (by simp [Operand.names]))

theorem Renaming.Carries.binder (carries : r.Carries scope δ δ') (into : r.Into scope target)
    (x : Name) (d : Dual) :
    (Rename.binder x r).2.Carries (x :: scope) (δ.insert x d) (δ'.insert ⟨r.supply.next⟩ d) := by
  intro y known
  rw [Renaming.look_binder, NameTable.find_insert, NameTable.find_insert]
  by_cases same : y = x
  · simp [same]
  · have known : y ∈ scope := (List.mem_cons.mp known).resolve_left same
    have old : r.look y ≠ ⟨r.supply.next⟩ := fun new => into.below.fresh (new ▸ into.look_mem y known)
    simp only [same, old, if_false]
    exact carries y known

theorem Renaming.Carries.params {ps : List Param} (carries : r.Carries scope δ δ')
    (into : r.Into scope target) (scalar : ∀ p ∈ ps, p.ty.IsScalar) {ds : List Dual}
    (length : ds.length = ps.length) :
    (Rename.params ps r).2.Carries ((paramOutline ps).after scope) (δ.assign ps ds)
      (δ'.assign (Rename.params ps r).1 ds) ∧
      (Rename.params ps r).1.map (·.ty) = ps.map (·.ty) := by
  induction ps generalizing r scope target δ δ' ds with
  | nil =>
    obtain rfl := List.length_eq_zero_iff.mp length
    exact ⟨carries, rfl⟩
  | cons p ps ih =>
    obtain ⟨d, ds, rfl⟩ := List.exists_cons_of_length_eq_add_one length
    obtain ⟨k, isScalar⟩ := scalar p (by simp)
    have renamed : Rename.param p r = (⟨⟨r.supply.next⟩, p.ty⟩, (Rename.binder p.name r).2) := by
      simp [Rename.param, isScalar, Rename.ty, Rename.binder, Supply.fresh]
    obtain ⟨rest, types⟩ := ih (carries.binder into p.name d) (into.binder p.name)
      (fun q mem => scalar q (by simp [mem])) (by simpa using length)
    have walk : Rename.params (p :: ps) r =
        (⟨⟨r.supply.next⟩, p.ty⟩ :: (Rename.params ps (Rename.binder p.name r).2).1,
          (Rename.params ps (Rename.binder p.name r).2).2) := by
      simp [Rename.params, List.mapM_cons, renamed]
    rw [walk, paramOutline, Param.outline, isScalar]
    exact ⟨rest, by simp [types, isScalar]⟩

theorem Renaming.Carries.basic {op : BasicOp} (carries : r.Carries scope δ δ')
    (known : ∀ y ∈ op.names, y ∈ scope) {d : Dual} (means : op.Means w δ d) :
    (Rename.basicOp op r).1.Means w δ' d := by
  cases op with
  | operand x =>
    simpa [Rename.basicOp, Rename.operand_apply, BasicOp.Means, carries.operand known] using means
  | unary op x =>
    simpa [Rename.basicOp, Rename.operand_apply, BasicOp.Means, carries.operand known] using means
  | binary op x y =>
    simp only [BasicOp.names, operandNames, List.flatMap_cons, List.flatMap_nil, List.append_nil,
      List.forall_mem_append] at known
    simpa [Rename.basicOp, Rename.operand_apply, BasicOp.Means, carries.operand known.1,
      carries.operand known.2] using means
  | _ => exact absurd means (by simp [BasicOp.Means])

end

mutual

theorem means_renamedExp (e : Exp) {arity : Nat} {scope target : Scope} {δ δ' : NameTable Dual}
    {r : Renaming} {ds : List Dual} (closed : (e.outline arity).Closed scope)
    (into : r.Into scope target) (carries : r.Carries scope δ δ') (means : e.Means w δ ds) :
    (Rename.exp e r).1.Means w δ' ds := by
  cases e with
  | basic op =>
    obtain ⟨d, rfl, means⟩ := means
    simp only [Exp.outline, BasicOp.outline, closed_append, closed_readsAll] at closed
    exact ⟨d, rfl, carries.basic closed.1.1 means⟩
  | branch cond yes no ret sort =>
    obtain ⟨c, holds, reads, isBool, inYes, inNo⟩ := means
    simp only [Exp.outline, closed_append, closed_readsAll, after_append, after_readsAll, after,
      closed_block] at closed
    obtain ⟨⟨⟨⟨inScope, closedYes, -⟩, closedNo, -⟩, -⟩, -⟩ := closed
    obtain ⟨intoNo, kept⟩ := closedYes.1.into_block into
    rw [Rename.outline_body] at intoNo kept
    have later : (Rename.body yes r).2.Carries scope δ δ' := fun x known =>
      (congrArg δ'.find? (kept x known)).trans (carries x known)
    simp only [Rename.exp, state_bind_apply, state_pure_apply, Rename.operand_apply, Exp.Means,
      carries.operand inScope]
    refine ⟨c, holds, reads, isBool, fun taken => ?_, fun taken => ?_⟩
    · exact means_renamedBody yes closedYes into carries (inYes taken)
    · exact means_renamedBody no closedNo intoNo later (inNo taken)
  | _ => exact absurd means (by simp [Exp.Means])

theorem means_renamedStms (ss : List Stm) {scope target : Scope} {δ δ' ε : NameTable Dual}
    {r : Renaming} (closed : (stmOutline ss).Closed scope) (into : r.Into scope target)
    (carries : r.Carries scope δ δ') (means : StmsMeans w δ ε ss) :
    ∃ ε', StmsMeans w δ' ε' (Rename.stms ss r).1 ∧
      (Rename.stms ss r).2.Carries ((stmOutline ss).after scope) ε ε' := by
  cases ss with
  | nil =>
    obtain rfl := means
    exact ⟨δ', rfl, carries⟩
  | cons s ss =>
    obtain ⟨pat, aux, e⟩ := s
    obtain ⟨mid, ⟨ds, here, fits, rfl⟩, rest⟩ := means
    rw [stmOutline, closed_append] at closed
    have inStm := (closed_stm _ _).mp closed.1
    have unbound : ∀ x ∈ scope, x ∉ (e.outline pat.length).binders := fun x known binder =>
      not_mem_of_binder inStm.2.1.1 binder known
    have intoPattern : (Rename.exp e r).2.Into scope target := by
      have into := (inStm.2.1.1.into_block into).1
      rwa [Rename.outline_exp] at into
    have carried : (Rename.exp e r).2.Carries scope δ δ' := by
      intro x known
      have kept := look_rename (e.outline pat.length) r (unbound x known)
      rw [Rename.outline_exp] at kept
      exact (congrArg δ'.find? kept).trans (carries x known)
    have scalar : ∀ p ∈ pat, p.ty.IsScalar := by
      intro p mem
      obtain ⟨d, -, fit⟩ := exists_of_forall₂ fits.flip (List.mem_map_of_mem mem)
      exact fit.within.isScalar
    obtain ⟨bound, types⟩ := carried.params intoPattern scalar (by simpa using fits.length_eq.symm)
    have walk : Rename.stm ⟨pat, aux, e⟩ r =
        (⟨(Rename.params pat (Rename.exp e r).2).1, ⟨aux.certs.map r.look, aux.attrs⟩,
          (Rename.exp e r).1⟩, (Rename.params pat (Rename.exp e r).2).2) := by
      simp [Rename.stm, Rename.names_apply]
    have intoRest := (closed.1.rename into).2
    rw [Rename.outline_stm, after_stm] at intoRest
    rw [after_stm] at closed
    simp only [walk] at intoRest
    obtain ⟨ε', inside, later⟩ := means_renamedStms ss closed.2 intoRest bound rest
    rw [stmOutline, after_append, after_stm]
    simp only [Rename.stms, state_bind_apply, state_pure_apply, walk]
    exact ⟨ε', ⟨_, ⟨ds, means_renamedExp e inStm.2.1 into carries here, types ▸ fits, rfl⟩, inside⟩,
      later⟩

theorem means_renamedBody (b : Body) {scope target : Scope} {δ δ' : NameTable Dual}
    {r : Renaming} {ds : List Dual} (closed : b.outline.Closed scope) (into : r.Into scope target)
    (carries : r.Carries scope δ δ') (means : b.Means w δ ds) :
    (Rename.body b r).1.Means w δ' ds := by
  obtain ⟨ss, result⟩ := b
  obtain ⟨ε, inside, results⟩ := means
  simp only [Body.outline, closed_append, closed_readsAll] at closed
  obtain ⟨ε', inside', later⟩ := means_renamedStms ss closed.1 into carries inside
  simp only [Rename.body, state_bind_apply, state_pure_apply, Rename.operands_apply, Body.Means]
  refine ⟨ε', inside', ?_⟩
  have inScope : ∀ x ∈ result, ∀ y ∈ x.names, y ∈ (stmOutline ss).after scope :=
    fun x mem y inX => closed.2 y (List.mem_flatMap.mpr ⟨x, mem, inX⟩)
  refine List.forall₂_map_left_iff.mpr ?_
  refine ((List.forall₂_and_left result ds).mpr ⟨inScope, results⟩).imp fun x d read => ?_
  exact (later.operand read.1).trans read.2

end

theorem Body.Means.rename {b : Body} {scope : Scope} {s : Supply} {ds : List Dual}
    (means : b.Means w δ ds) (closed : b.outline.Closed scope) (below : scope.Below s.next) :
    (b.rename s).1.Means w δ ds :=
  means_renamedBody b closed ⟨fun _ known => known, below⟩ (fun _ _ => rfl) means

end Cotangent
