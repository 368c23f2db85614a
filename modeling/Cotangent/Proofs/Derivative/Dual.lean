import Mathlib.Tactic.Ring
import Cotangent.Derivative.Partials
import Cotangent.Evaluation.Algebra
import Cotangent.Proofs.Evaluation.Arithmetic
import Cotangent.Proofs.Value.Mapping
/-!
Scalars with a first-order change. A run over them computes every value together with its tangent: sums
and products of integers are those of the ring of dual numbers, the other operators follow their
partial derivatives, and whatever has no number of its own has a zero for its change.
-/
namespace Cotangent

namespace Formula

mutual

/-- What a formula comes to where names have scalars. -/
def eval (read : Name → Option Scalar) : Formula → Option Scalar
  | .leaf x _ => read x
  | .lit v => some v
  | .unary op a => do (op.apply (← eval read a)).toOption
  | .binary op a b => do (op.apply (← eval read a) (← eval read b)).toOption
  | .compare op a b => do return .bool (← (op.apply (← eval read a) (← eval read b)).toOption)
  | .convert op a => do (op.apply (← eval read a)).toOption
  | .call func args _ => do (MathFunction.call func (← evals read args)).toOption

def evals (read : Name → Option Scalar) : List Formula → Option (List Scalar)
  | [] => some []
  | f :: fs => do return (← eval read f) :: (← evals read fs)

end

/-- Formulas of one kind that come to the same. -/
structure Alike (read read' : Name → Option Scalar) (f f' : Formula) : Prop where
  ty : f.ty = f'.ty
  eval : f.eval read = f'.eval read'

variable {read read' : Name → Option Scalar} {a a' b b' : Formula}

theorem Alike.lit (v : Scalar) : Alike read read' (.lit v) (.lit v) := ⟨rfl, rfl⟩

theorem Alike.unary (op : UnaryOp) (first : Alike read read' a a') :
    Alike read read' (.unary op a) (.unary op a') :=
  ⟨rfl, by simp only [Formula.eval, first.eval]⟩

theorem Alike.binary (op : BinaryOp) (first : Alike read read' a a')
    (second : Alike read read' b b') : Alike read read' (.binary op a b) (.binary op a' b') :=
  ⟨rfl, by simp only [Formula.eval, first.eval, second.eval]⟩

theorem Alike.compare (op : Comparison) (first : Alike read read' a a')
    (second : Alike read read' b b') : Alike read read' (.compare op a b) (.compare op a' b') :=
  ⟨rfl, by simp only [Formula.eval, first.eval, second.eval]⟩

theorem Alike.convert (op : Conversion) (first : Alike read read' a a') :
    Alike read read' (.convert op a) (.convert op a') :=
  ⟨rfl, by simp only [Formula.eval, first.eval]⟩

theorem Alike.call (func : String) (t : ScalarType) (first : Alike read read' a a') :
    Alike read read' (.call func [a] t) (.call func [a'] t) :=
  ⟨rfl, by simp only [Formula.eval, evals, first.eval]⟩

theorem Alike.add (first : Alike read read' a a') (second : Alike read read' b b') :
    Alike read read' (a.add b) (a'.add b') := by
  unfold Formula.add
  rw [first.ty]
  exact .binary _ first second

theorem Alike.sub (first : Alike read read' a a') (second : Alike read read' b b') :
    Alike read read' (a.sub b) (a'.sub b') := by
  unfold Formula.sub
  rw [first.ty]
  exact .binary _ first second

theorem Alike.mul (first : Alike read read' a a') (second : Alike read read' b b') :
    Alike read read' (a.mul b) (a'.mul b') := by
  unfold Formula.mul
  rw [first.ty]
  exact .binary _ first second

theorem Alike.div (first : Alike read read' a a') (second : Alike read read' b b') :
    Alike read read' (a.div b) (a'.div b') := by
  unfold Formula.div
  rw [first.ty]
  exact .binary _ first second

theorem Alike.neg (first : Alike read read' a a') : Alike read read' a.neg a'.neg := by
  unfold Formula.neg
  rw [first.ty]
  exact .sub (.lit _) first

theorem Alike.ofBool (t : ScalarType) (first : Alike read read' a a') :
    Alike read read' (ofBool t a) (ofBool t a') := by
  cases t with
  | int w => exact .convert _ first
  | float w => exact .convert _ (.convert _ first)
  | bool => exact first
  | cert => exact first

theorem Alike.selection (le lt : Comparison) (t : ScalarType) (first : Alike read read' a a')
    (second : Alike read read' b b') :
    Alike read read' (selection le lt t a b).1 (selection le lt t a' b').1 ∧
      Alike read read' (selection le lt t a b).2 (selection le lt t a' b').2 :=
  ⟨.ofBool t (.compare le second first), .ofBool t (.compare lt first second)⟩

/-! The partials of an operator look at the formulas of its operands from outside. -/

theorem Alike.derivative (op : UnaryOp) (first : Alike read read' a a') :
    Alike read read' (op.derivative a) (op.derivative a') := by
  cases op with
  | not => exact .lit _
  | int op w =>
    cases op with
    | abs => exact .unary _ first
    | complement => exact .lit _
    | signum => exact .lit _
    | unsignedSignum => exact .lit _
  | float op w =>
    cases op with
    | abs => exact .unary _ first
    | signum => exact .lit _
    | neg => exact .lit _

theorem Alike.quotient (t : ScalarType) (first : Alike read read' a a')
    (second : Alike read read' b b') :
    Alike read read' (quotientPartials t a b).1 (quotientPartials t a' b').1 ∧
      Alike read read' (quotientPartials t a b).2 (quotientPartials t a' b').2 :=
  ⟨.div (.lit _) second, .neg (.div first (.mul second second))⟩

theorem Alike.remainder (t : ScalarType) (first : Alike read read' a a')
    (second : Alike read read' b b') :
    Alike read read' (remainderPartials t a b).1 (remainderPartials t a' b').1 ∧
      Alike read read' (remainderPartials t a b).2 (remainderPartials t a' b').2 :=
  ⟨.lit _, .neg (.div first second)⟩

theorem Alike.intPartials (op : IntBinary) (w : IntWidth) (first : Alike read read' a a')
    (second : Alike read read' b b') :
    Alike read read' (op.partials w a b).1 (op.partials w a' b').1 ∧
      Alike read read' (op.partials w a b).2 (op.partials w a' b').2 := by
  cases op with
  | add => exact ⟨.lit _, .lit _⟩
  | sub => exact ⟨.lit _, .neg (.lit _)⟩
  | mul => exact ⟨second, first⟩
  | sdiv => exact Alike.quotient _ first second
  | udiv => exact Alike.quotient _ first second
  | smod => exact Alike.remainder _ first second
  | umod => exact Alike.remainder _ first second
  | pow => exact ⟨.mul second (.binary _ first (.sub second (.lit _))), .lit _⟩
  | smax => exact Alike.selection _ _ _ first second
  | umax => exact Alike.selection _ _ _ first second
  | smin => exact Alike.selection _ _ _ second first
  | umin => exact Alike.selection _ _ _ second first
  | shl => exact ⟨.lit _, .lit _⟩
  | ashr => exact ⟨.lit _, .lit _⟩
  | and => exact ⟨.lit _, .lit _⟩
  | or => exact ⟨.lit _, .lit _⟩
  | xor => exact ⟨.lit _, .lit _⟩

theorem Alike.floatPartials (op : FloatBinary) (w : FloatWidth) (first : Alike read read' a a')
    (second : Alike read read' b b') :
    Alike read read' (op.partials w a b).1 (op.partials w a' b').1 ∧
      Alike read read' (op.partials w a b).2 (op.partials w a' b').2 := by
  cases op with
  | add => exact ⟨.lit _, .lit _⟩
  | sub => exact ⟨.lit _, .neg (.lit _)⟩
  | mul => exact ⟨second, first⟩
  | div => exact Alike.quotient _ first second
  | pow =>
    refine ⟨.mul second (.binary _ first (.sub second (.lit _))), ?_⟩
    exact .mul (.binary _ first second) (.call _ _ first)
  | max => exact Alike.selection _ _ _ first second
  | min => exact Alike.selection _ _ _ second first

theorem Alike.partials (op : BinaryOp) (first : Alike read read' a a')
    (second : Alike read read' b b') :
    Alike read read' (op.partials a b).1 (op.partials a' b').1 ∧
      Alike read read' (op.partials a b).2 (op.partials a' b').2 := by
  cases op with
  | int op w => exact Alike.intPartials op w first second
  | float op w => exact Alike.floatPartials op w first second
  | and => exact ⟨.lit _, .lit _⟩
  | or => exact ⟨.lit _, .lit _⟩

end Formula

/-- A scalar and its change. -/
structure Dual where
  primal : Scalar
  tangent : Scalar
  deriving Repr

namespace Dual

/-- A scalar that does not change. -/
def constant (v : Scalar) : Dual := ⟨v, Scalar.zero v.ty⟩

/-- The formula of the tangent of a unary operation on an operand and its tangent. -/
def unaryFormula (op : UnaryOp) (x dx : Formula) : Formula := dx.mul (op.derivative x)

def binaryFormula (op : BinaryOp) (x y dx dy : Formula) : Formula :=
  (dx.mul (op.partials x y).1).add (dy.mul (op.partials x y).2)

/-- The scalars of up to four names. -/
def readings (vs : List Scalar) (x : Name) : Option Scalar := vs[x.id]?

/-- The tangent of a unary operation; a bool has a change of no number. -/
def unaryTangent (op : UnaryOp) (x : Dual) : Option Scalar :=
  match op with
  | .not => some (.bool false)
  | op =>
    (unaryFormula op (.leaf ⟨0⟩ op.ty) (.leaf ⟨1⟩ op.ty)).eval (readings [x.primal, x.tangent])

/-- The tangent of a binary operation. Sums, differences and products are taken in the ring of
    dual numbers over the integers modulo the width. -/
def binaryTangent (op : BinaryOp) (x y : Dual) : Option Scalar :=
  let sum (w : IntWidth) (n : Int) : Scalar := .int w (w.wrap n)
  match op with
  | .int .add w => some (sum w (x.tangent.number + y.tangent.number))
  | .int .sub w => some (sum w (x.tangent.number - y.tangent.number))
  | .int .mul w =>
    some (sum w (x.primal.number * y.tangent.number + x.tangent.number * y.primal.number))
  | .and => some (.bool false)
  | .or => some (.bool false)
  | op =>
    (binaryFormula op (.leaf ⟨0⟩ op.ty) (.leaf ⟨1⟩ op.ty) (.leaf ⟨2⟩ op.ty) (.leaf ⟨3⟩ op.ty)).eval
      (readings [x.primal, y.primal, x.tangent, y.tangent])

theorem number_of_asInt {v : Scalar} {n : Int} (known : v.asInt = .ok n) : v.number = n := by
  cases v <;> simp_all [Scalar.asInt, Scalar.number]

/-- What an integer operation gives that cannot fail on integers. -/
theorem apply_int {op : IntBinary} {w : IntWidth} {x y z : Scalar} {f : Int → Int → Int}
    (total : ∀ m n, op.apply w m n = .ok (f m n))
    (known : BinaryOp.apply (.int op w) x y = .ok z) :
    z = .int w (w.wrap (f x.number y.number)) := by
  simp only [BinaryOp.apply, total, except_bind_ok, except_pure_ok] at known
  obtain ⟨m, first, n, second, k, result, rfl⟩ := known
  rw [number_of_asInt first, number_of_asInt second, Except.ok.inj result]

theorem toOption_eq_some {γ : Type} (x : Except Fault γ) (a : γ) :
    x.toOption = some a ↔ x = .ok a := by
  cases x <;> simp [Except.toOption]

variable {read : Name → Option Scalar}

/-- Two formulas under an integer operation that cannot fail on integers. -/
theorem eval_int {op : IntBinary} {f g : Formula} {w : IntWidth} {v : Scalar} {k : Int → Int → Int}
    (total : ∀ m n, op.apply w m n = .ok (k m n))
    (known : (Formula.binary (.int op w) f g).eval read = some v) :
    ∃ x y, f.eval read = some x ∧ g.eval read = some y ∧
      v = .int w (w.wrap (k x.number y.number)) := by
  simp only [Formula.eval, Option.bind_eq_bind, Option.bind_eq_some_iff, toOption_eq_some] at known
  obtain ⟨x, first, y, second, applied⟩ := known
  exact ⟨x, y, first, second, apply_int total applied⟩

theorem ty_mul {f g : Formula} (numeric : f.ty ≠ .cert) : (f.mul g).ty = f.ty :=
  BinaryOp.ty_ofFamily _ _ _ numeric

theorem eval_mul {f g : Formula} {w : IntWidth} {v : Scalar} (kind : f.ty = .int w)
    (known : (f.mul g).eval read = some v) :
    ∃ x y, f.eval read = some x ∧ g.eval read = some y ∧
      v = .int w (w.wrap (x.number * y.number)) := by
  unfold Formula.mul at known
  rw [kind] at known
  exact eval_int (fun _ _ => rfl) known

theorem eval_add {f g : Formula} {w : IntWidth} {v : Scalar} (kind : f.ty = .int w)
    (known : (f.add g).eval read = some v) :
    ∃ x y, f.eval read = some x ∧ g.eval read = some y ∧
      v = .int w (w.wrap (x.number + y.number)) := by
  unfold Formula.add at known
  rw [kind] at known
  exact eval_int (fun _ _ => rfl) known

theorem eval_sub {f g : Formula} {w : IntWidth} {v : Scalar} (kind : f.ty = .int w)
    (known : (f.sub g).eval read = some v) :
    ∃ x y, f.eval read = some x ∧ g.eval read = some y ∧
      v = .int w (w.wrap (x.number - y.number)) := by
  unfold Formula.sub at known
  rw [kind] at known
  exact eval_int (fun _ _ => rfl) known

/-- A tangent of an integer operation is a combination of the tangents of its operands. -/
theorem eval_binaryFormula {op : IntBinary} {w : IntWidth} {fx fy fdx fdy : Formula}
    {dx dy v : Scalar} (kindLeft : fdx.ty = .int w) (kindRight : fdy.ty = .int w)
    (tangent : fdx.eval read = some dx ∧ fdy.eval read = some dy)
    (known : (binaryFormula (.int op w) fx fy fdx fdy).eval read = some v) :
    ∃ px py, (op.partials w fx fy).1.eval read = some px ∧
      (op.partials w fx fy).2.eval read = some py ∧
      v = .int w (w.wrap (dx.number * px.number + dy.number * py.number)) := by
  have kind := (ty_mul (g := (op.partials w fx fy).1) (by simp [kindLeft])).trans kindLeft
  obtain ⟨_, _, first, second, rfl⟩ := eval_add kind known
  obtain ⟨_, px, isLeft, evalLeft, rfl⟩ := eval_mul kindLeft first
  obtain ⟨_, py, isRight, evalRight, rfl⟩ := eval_mul kindRight second
  obtain rfl := Option.some.inj (tangent.1.symm.trans isLeft)
  obtain rfl := Option.some.inj (tangent.2.symm.trans isRight)
  refine ⟨px, py, evalLeft, evalRight, ?_⟩
  simp only [Scalar.number, Scalar.int.injEq, true_and, IntWidth.wrap_eq_wrap_iff]
  push_cast
  rw [IntWidth.cast_wrap, IntWidth.cast_wrap]
  push_cast
  ring

theorem apply_and_false {x v : Scalar} (known : BinaryOp.apply .and x (.bool false) = .ok v) :
    v = .bool false := by
  cases x with
  | bool b => cases b <;> simp_all [BinaryOp.apply, Scalar.asBool]
  | _ => simp_all [BinaryOp.apply, Scalar.asBool]

/-- A product with a partial that is false. -/
theorem eval_mul_false {f : Formula} (kind : f.ty = .bool) {v : Scalar}
    (known : (f.mul (.zero .bool)).eval read = some v) : v = .bool false := by
  simp only [Formula.mul, kind, Formula.zero, Formula.eval, Option.bind_eq_bind,
    Option.bind_eq_some_iff, toOption_eq_some] at known
  obtain ⟨x, -, _, isFalse, applied⟩ := known
  rw [← Option.some.inj isFalse] at applied
  exact apply_and_false applied

theorem eval_add_bool {f g : Formula} {v : Scalar} (kind : f.ty = .bool)
    (known : (f.add g).eval read = some v) :
    ∃ x y, f.eval read = some x ∧ g.eval read = some y ∧ BinaryOp.apply .and x y = .ok v := by
  simpa [Formula.add, kind, Formula.eval, Option.bind_eq_some_iff, toOption_eq_some, BinaryOp.add,
    BinaryOp.ofFamily] using known

section

variable {x y : Dual} {v : Scalar} {fx fy fdx fdy : Formula}

/-- The formula of a tangent comes to the same wherever its operands do. -/
theorem unaryTangent_of_eval {op : UnaryOp} (kinds : fx.ty = op.ty ∧ fdx.ty = op.ty)
    (primal : fx.eval read = some x.primal) (tangent : fdx.eval read = some x.tangent)
    (known : (unaryFormula op fx fdx).eval read = some v) : unaryTangent op x = some v := by
  have first : Formula.Alike read (readings [x.primal, x.tangent]) fx (.leaf ⟨0⟩ op.ty) :=
    ⟨kinds.1, primal⟩
  have second : Formula.Alike read (readings [x.primal, x.tangent]) fdx (.leaf ⟨1⟩ op.ty) :=
    ⟨kinds.2, tangent⟩
  have whole := second.mul (first.derivative op)
  cases op with
  | not => exact congrArg some (eval_mul_false kinds.2 known).symm
  | int op w => exact whole.eval.symm.trans known
  | float op w => exact whole.eval.symm.trans known

theorem binaryTangent_of_eval {op : BinaryOp}
    (kinds : fx.ty = op.ty ∧ fy.ty = op.ty ∧ fdx.ty = op.ty ∧ fdy.ty = op.ty)
    (primal : fx.eval read = some x.primal ∧ fy.eval read = some y.primal)
    (tangent : fdx.eval read = some x.tangent ∧ fdy.eval read = some y.tangent)
    (known : (binaryFormula op fx fy fdx fdy).eval read = some v) :
    binaryTangent op x y = some v := by
  have left : Formula.Alike read (readings [x.primal, y.primal, x.tangent, y.tangent]) fx
      (.leaf ⟨0⟩ op.ty) := ⟨kinds.1, primal.1⟩
  have right : Formula.Alike read (readings [x.primal, y.primal, x.tangent, y.tangent]) fy
      (.leaf ⟨1⟩ op.ty) := ⟨kinds.2.1, primal.2⟩
  have dleft : Formula.Alike read (readings [x.primal, y.primal, x.tangent, y.tangent]) fdx
      (.leaf ⟨2⟩ op.ty) := ⟨kinds.2.2.1, tangent.1⟩
  have dright : Formula.Alike read (readings [x.primal, y.primal, x.tangent, y.tangent]) fdy
      (.leaf ⟨3⟩ op.ty) := ⟨kinds.2.2.2, tangent.2⟩
  have partials := left.partials op right
  have general := ((dleft.mul partials.1).add (dright.mul partials.2)).eval.symm.trans known
  obtain ⟨-, -, kindLeft, kindRight⟩ := kinds
  cases op with
  | int op w =>
    obtain ⟨px, py, evalLeft, evalRight, rfl⟩ := eval_binaryFormula kindLeft kindRight tangent known
    cases op with
    | add =>
      obtain rfl : Scalar.one (.int w) = px := Option.some.inj evalLeft
      obtain rfl : Scalar.one (.int w) = py := Option.some.inj evalRight
      simp [binaryTangent, Scalar.one, Scalar.number]
    | sub =>
      obtain rfl : Scalar.one (.int w) = px := Option.some.inj evalLeft
      obtain ⟨_, _, isZero, isOne, rfl⟩ := eval_sub rfl evalRight
      obtain rfl := Option.some.inj isZero
      obtain rfl := Option.some.inj isOne
      simp only [binaryTangent, Formula.ty_one, Scalar.one, Scalar.zero, Scalar.number,
        Option.some.injEq, Scalar.int.injEq, true_and, IntWidth.wrap_eq_wrap_iff]
      push_cast
      rw [IntWidth.cast_wrap]
      push_cast
      ring
    | mul =>
      obtain rfl := Option.some.inj (primal.2.symm.trans evalLeft)
      obtain rfl := Option.some.inj (primal.1.symm.trans evalRight)
      simp only [binaryTangent, Option.some.injEq, Scalar.int.injEq, true_and,
        IntWidth.wrap_eq_wrap_iff]
      push_cast
      ring
    | _ => exact general
  | float op w => exact general
  | and =>
    obtain ⟨_, _, -, isFalse, applied⟩ := eval_add_bool ((ty_mul (by simp [kindLeft, BinaryOp.ty])).trans kindLeft) known
    rw [eval_mul_false kindRight isFalse] at applied
    exact congrArg some (apply_and_false applied).symm
  | or =>
    obtain ⟨_, _, -, isFalse, applied⟩ := eval_add_bool ((ty_mul (by simp [kindLeft, BinaryOp.ty])).trans kindLeft) known
    rw [eval_mul_false kindRight isFalse] at applied
    exact congrArg some (apply_and_false applied).symm

end

/-- What a computation on plain scalars gives. -/
def plain {γ : Type} (x : Except Fault γ) : Except (Fault Dual) γ := carry constant id x

/-- A scalar with a tangent, if it has one. -/
def paired (v : Scalar) (tangent : Option Scalar) : Except (Fault Dual) Dual :=
  match tangent with
  | some dv => .ok ⟨v, dv⟩
  | none => .error (.mismatch .scalar (.scalar (constant v)))

end Dual

/-- Calls of functions are left out. -/
instance : ScalarAlgebra Dual where
  ofScalar := Dual.constant
  toScalar := Dual.primal
  unary op x := do Dual.paired (← Dual.plain (op.apply x.primal)) (Dual.unaryTangent op x)
  binary op x y := do
    Dual.paired (← Dual.plain (op.apply x.primal y.primal)) (Dual.binaryTangent op x y)
  compare op x y := Dual.plain (op.apply x.primal y.primal)
  convert op x := do
    return ⟨← Dual.plain (op.apply x.primal), ← Dual.plain (op.apply x.tangent)⟩
  call func _ := .error (.unknownFunction func)
  member w first step i :=
    ⟨.int w (w.wrap (first.primal.number + i * step.primal.number)),
      .int w (w.wrap (first.tangent.number + i * step.tangent.number))⟩

end Cotangent
