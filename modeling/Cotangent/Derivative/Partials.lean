import Cotangent.Formula
import Cotangent.Scalar.MathFunction
/-!
Partial derivatives of scalar operators and builtin functions as formulas. Both differentiation
modes take a table of them; `Rules.standard` is the usual one. A partial that does not exist as a
number of the operand's kind, such as that of a bit operation, is zero.
-/
namespace Cotangent

/-- `builtin` gives one partial per argument, and `signature` the kinds of the arguments and of the
    result; either may be missing for a function. -/
structure Rules where
  unary : UnaryOp → Formula → Formula
  binary : BinaryOp → Formula → Formula → Formula × Formula
  builtin : String → List Formula → Option (List Formula)
  signature : String → Option (List ScalarType × ScalarType)

namespace Formula

/-- A bool as a number of kind `t`. Floats are reached by way of an integer. -/
def ofBool (t : ScalarType) (b : Formula) : Formula :=
  match t with
  | .int w => .convert (.boolToInt w) b
  | .float w => .convert (.unsignedToFloat .i8 w) (.convert (.boolToInt .i8) b)
  | .bool => b
  | .cert => b

/-- Whether `y ≤ x` and whether `x < y`, as numbers: the partials of the greater of the two, where a
    tie counts for the first. -/
def selection (le lt : Comparison) (t : ScalarType) (x y : Formula) : Formula × Formula :=
  (ofBool t (.compare le y x), ofBool t (.compare lt x y))

end Formula

open Formula

def UnaryOp.derivative : UnaryOp → Formula → Formula
  | .not, _ => zero .bool
  | .int .complement w, _ => zero (.int w)
  | .int .abs w, x => .unary (.int .signum w) x
  | .int .signum w, _ => zero (.int w)
  | .int .unsignedSignum w, _ => zero (.int w)
  | .float .abs w, x => .unary (.float .signum w) x
  | .float .signum w, _ => zero (.float w)
  | .float .neg w, _ => .lit (.float w (-1.0))

/-- The partials of a quotient, an integer quotient included. -/
def quotientPartials (t : ScalarType) (x y : Formula) : Formula × Formula :=
  ((one t).div y, (x.div (y.mul y)).neg)

/-- The partials of `x - y * (x / y)` where the quotient counts as a constant. -/
def remainderPartials (t : ScalarType) (x y : Formula) : Formula × Formula :=
  (one t, (x.div y).neg)

def IntBinary.partials (op : IntBinary) (w : IntWidth) (x y : Formula) : Formula × Formula :=
  let t : ScalarType := .int w
  match op with
  | .add => (one t, one t)
  | .sub => (one t, (one t).neg)
  | .mul => (y, x)
  | .sdiv => quotientPartials t x y
  | .udiv => quotientPartials t x y
  | .smod => remainderPartials t x y
  | .umod => remainderPartials t x y
  | .pow => (y.mul (.binary (.int .pow w) x (y.sub (one t))), zero t)
  | .smax => selection (.int .sle w) (.int .slt w) t x y
  | .umax => selection (.int .ule w) (.int .ult w) t x y
  | .smin => selection (.int .sle w) (.int .slt w) t y x
  | .umin => selection (.int .ule w) (.int .ult w) t y x
  | .shl => (zero t, zero t)
  | .ashr => (zero t, zero t)
  | .and => (zero t, zero t)
  | .or => (zero t, zero t)
  | .xor => (zero t, zero t)

def FloatBinary.partials (op : FloatBinary) (w : FloatWidth) (x y : Formula) :
    Formula × Formula :=
  let t : ScalarType := .float w
  match op with
  | .add => (one t, one t)
  | .sub => (one t, (one t).neg)
  | .mul => (y, x)
  | .div => quotientPartials t x y
  | .pow =>
    let power (e : Formula) : Formula := .binary (.float .pow w) x e
    (y.mul (power (y.sub (one t))), (power y).mul (.call (MathFunction.log.name w) [x] t))
  | .max => selection (.float .le w) (.float .lt w) t x y
  | .min => selection (.float .le w) (.float .lt w) t y x

def BinaryOp.partials : BinaryOp → Formula → Formula → Formula × Formula
  | .int op w, x, y => op.partials w x y
  | .float op w, x, y => op.partials w x y
  | .and, _, _ => (zero .bool, zero .bool)
  | .or, _, _ => (zero .bool, zero .bool)

/-- One partial per argument, if there are as many arguments as the function takes. -/
def MathFunction.partials? (f : MathFunction) (w : FloatWidth) (args : List Formula) :
    Option (List Formula) :=
  let t : ScalarType := .float w
  let call (g : MathFunction) (args : List Formula) : Formula := .call (g.name w) args t
  match f, args with
  | .sqrt, [x] => some [(one t).div ((lit (.float w 2.0)).mul (call .sqrt [x]))]
  | .exp, [x] => some [call .exp [x]]
  | .log, [x] => some [(one t).div x]
  | .sin, [x] => some [call .cos [x]]
  | .cos, [x] => some [(call .sin [x]).neg]
  | .tan, [x] => some [(one t).div ((call .cos [x]).mul (call .cos [x]))]
  | .tanh, [x] => some [(one t).sub ((call .tanh [x]).mul (call .tanh [x]))]
  | .pow, [x, y] =>
    some [y.mul (call .pow [x, y.sub (one t)]), (call .pow [x, y]).mul (call .log [x])]
  | .atan2, [y, x] =>
    let norm := (x.mul x).add (y.mul y)
    some [x.div norm, (y.div norm).neg]
  | _, _ => none

def Rules.standard : Rules where
  unary := UnaryOp.derivative
  binary := BinaryOp.partials
  builtin func args := do
    let (f, w) ← MathFunction.ofName? func
    f.partials? w args
  signature func := do
    let (f, w) ← MathFunction.ofName? func
    return (List.replicate f.arity (.float w), .float w)

end Cotangent
