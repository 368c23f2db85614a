import Cotangent.Scalar.MathFunction
import Cotangent.Value.Fault
/-!
What the scalar operators compute. Integer results are taken modulo the width, so the operators work
on `Int` and wrap once at the end; floats are rounded to the width where the operator says so. The
kinds of the operands are checked, their widths are not: an operator reads any integer, any float.
-/
namespace Cotangent

/-- `x ^ e` modulo `m`, by squaring, for an exponent of at most `bits` binary digits. -/
def powModulo (m : Nat) : Nat → Int → Nat → Int
  | 0, _, _ => 1 % m
  | bits + 1, x, e =>
    let half := powModulo m bits (x * x % m) (e / 2)
    if e % 2 = 1 then half * x % m else half

def nonzero (y : Int) : Except Fault Int := if y = 0 then .error .divisionByZero else .ok y

/-- Bitwise operations act on 64-bit two's complement. -/
def bitwise (f : BitVec 64 → BitVec 64 → BitVec 64) (x y : Int) : Int :=
  (f (BitVec.ofInt 64 x) (BitVec.ofInt 64 y)).toInt

/-- Shift amounts count modulo 64. -/
def shiftAmount (y : Int) : Nat := (y % 64).toNat

namespace IntUnary

def apply (w : IntWidth) : IntUnary → Int → Int
  | .complement, x => w.wrap (-x - 1)
  | .abs, x => w.wrap x.natAbs
  | .signum, x => x.sign
  | .unsignedSignum, x => if w.unsigned x = 0 then 0 else 1

end IntUnary

namespace FloatUnary

/-- Zero and NaN have no sign to report: the first gives zero, the second itself. -/
def sign (x : Float) : Float :=
  if x == 0.0 then 0.0 else if x.isNaN then x else if x < 0.0 then -1.0 else 1.0

def apply : FloatUnary → Float → Float
  | .abs, x => x.abs
  | .signum, x => sign x
  | .neg, x => -x

end FloatUnary

namespace IntBinary

/-- The result before it is wrapped. Division rounds towards negative infinity, and an exponent lies
    below 2^32. -/
def apply (w : IntWidth) : IntBinary → Int → Int → Except Fault Int
  | .add, x, y => .ok (x + y)
  | .sub, x, y => .ok (x - y)
  | .mul, x, y => .ok (x * y)
  | .sdiv, x, y => do return x.fdiv (← nonzero y)
  | .udiv, x, y => do return w.unsigned x / (← nonzero (w.unsigned y))
  | .smod, x, y => do return x.fmod (← nonzero y)
  | .umod, x, y => do return w.unsigned x % (← nonzero (w.unsigned y))
  | .pow, x, y =>
    if 0 ≤ y ∧ y < Int.pow 2 32 then .ok (powModulo w.modulus 32 x y.toNat)
    else .error (.negativeExponent y)
  | .smax, x, y => .ok (max x y)
  | .smin, x, y => .ok (min x y)
  | .umax, x, y => .ok (if w.unsigned y ≤ w.unsigned x then x else y)
  | .umin, x, y => .ok (if w.unsigned x ≤ w.unsigned y then x else y)
  | .shl, x, y => .ok (x * Int.pow 2 (shiftAmount y))
  | .ashr, x, y => .ok (x / Int.pow 2 (shiftAmount y))
  | .and, x, y => .ok (bitwise (· &&& ·) x y)
  | .or, x, y => .ok (bitwise (· ||| ·) x y)
  | .xor, x, y => .ok (bitwise (· ^^^ ·) x y)

end IntBinary

namespace FloatBinary

/-- The greater of two floats, or the one that is a number. -/
def greater (x y : Float) : Float := if x.isNaN then y else if x < y then y else x

def lesser (x y : Float) : Float := if x.isNaN then y else if y < x then y else x

/-- The result before it is rounded. -/
def apply : FloatBinary → Float → Float → Float
  | .add, x, y => x + y
  | .sub, x, y => x - y
  | .mul, x, y => x * y
  | .div, x, y => x / y
  | .pow, x, y => x.pow y
  | .max, x, y => greater x y
  | .min, x, y => lesser x y

end FloatBinary

namespace UnaryOp

def apply : UnaryOp → Scalar → Except Fault Scalar
  | .not, v => do return .bool (!(← v.asBool))
  | .int op w, v => do return .int w (op.apply w (← v.asInt))
  | .float op w, v => do return .float w (op.apply (← v.asFloat))

end UnaryOp

namespace BinaryOp

/-- The connectives look at the right operand only if the left leaves the result open. -/
def apply : BinaryOp → Scalar → Scalar → Except Fault Scalar
  | .int op w, a, b => do
    let x ← a.asInt
    let y ← b.asInt
    return .int w (w.wrap (← op.apply w x y))
  | .float op w, a, b => do
    let x ← a.asFloat
    let y ← b.asFloat
    return .float w (w.round (op.apply x y))
  | .and, .cert, .cert => .ok .cert
  | .and, a, b => do
    if ← a.asBool then return .bool (← b.asBool) else return .bool false
  | .or, a, b => do
    if ← a.asBool then return .bool true else return .bool (← b.asBool)

end BinaryOp

namespace Comparison

/-- Equal scalars agree in kind, width and value; floats compare as numbers. -/
def same : Scalar → Scalar → Bool
  | .int w n, .int w' n' => w == w' && n == n'
  | .float w x, .float w' x' => w == w' && x == x'
  | .bool b, .bool b' => b == b'
  | .cert, .cert => true
  | _, _ => false

def orderInt (w : IntWidth) : IntOrder → Int → Int → Bool
  | .slt, x, y => x < y
  | .sle, x, y => x ≤ y
  | .ult, x, y => w.unsigned x < w.unsigned y
  | .ule, x, y => w.unsigned x ≤ w.unsigned y

def orderFloat : FloatOrder → Float → Float → Bool
  | .lt, x, y => x < y
  | .le, x, y => x ≤ y

def apply : Comparison → Scalar → Scalar → Except Fault Bool
  | .eq _, a, b => .ok (same a b)
  | .int op w, a, b => do
    let x ← a.asInt
    let y ← b.asInt
    return orderInt w op x y
  | .float op _, a, b => do
    let x ← a.asFloat
    let y ← b.asFloat
    return orderFloat op x y
  | .boolLt, a, b => do if ← a.asBool then return false else b.asBool
  | .boolLe, a, b => do if ← a.asBool then b.asBool else return true

end Comparison

namespace Conversion

def apply : Conversion → Scalar → Except Fault Scalar
  | .zeroExtend s t, v => do return .int t (t.wrap (s.unsigned (← v.asInt)))
  | .signExtend _ t, v => do return .int t (t.wrap (← v.asInt))
  | .floatToFloat _ t, v => do return .float t (t.round (← v.asFloat))
  | .floatToUnsigned _ t, v => do
    return .int t (t.wrap (Scalar.truncateUnsigned (← v.asFloat)))
  | .floatToSigned _ t, v => do return .int t (t.wrap (Scalar.truncate (← v.asFloat)))
  | .unsignedToFloat s t, v => do return .float t (t.round (Float.ofInt (s.unsigned (← v.asInt))))
  | .signedToFloat _ t, v => do return .float t (t.round (Float.ofInt (← v.asInt)))
  | .intToBool _, v => do return .bool ((← v.asInt) != 0)
  | .boolToInt t, v => do return .int t (if ← v.asBool then 1 else 0)

end Conversion

namespace MathFunction

/-- A call by name. A name without a width is unknown before the arguments are looked at; otherwise
    the arguments have to be floats before the base name and their number matter. -/
def call (func : String) (args : List Scalar) : Except Fault Scalar := do
  match splitWidth func with
  | none => .error (.unknownFunction func)
  | some (base, w) =>
    let xs ← args.mapM Scalar.asFloat
    match (ofBase? base).bind (·.eval? xs) with
    | none => .error (.unknownFunction func)
    | some y => return .float w (w.round y)

end MathFunction

end Cotangent
