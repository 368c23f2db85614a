import Cotangent.Scalar.Basic
/-!
Scalar operators and the kinds they declare. An operator is a member of a family (integer, float,
bool) with the width it works at, so that what holds of a family is said once. Which kinds its
operands really have is not checked here.
-/
namespace Cotangent

inductive IntUnary where
  | complement | abs
  | signum
  | unsignedSignum
  deriving DecidableEq, Repr

inductive FloatUnary where
  | abs | signum | neg
  deriving DecidableEq, Repr

inductive UnaryOp where
  | not
  | int (op : IntUnary) (w : IntWidth)
  | float (op : FloatUnary) (w : FloatWidth)
  deriving DecidableEq, Repr

/-- `sdiv` and `smod` round towards negative infinity. -/
inductive IntBinary where
  | add | sub | mul
  | sdiv | udiv | smod | umod
  | pow
  | smax | umax | smin | umin
  | shl | ashr
  | and | or | xor
  deriving DecidableEq, Repr

inductive FloatBinary where
  | add | sub | mul | div | pow | max | min
  deriving DecidableEq, Repr

inductive BinaryOp where
  | int (op : IntBinary) (w : IntWidth)
  | float (op : FloatBinary) (w : FloatWidth)
  | and
  | or
  deriving DecidableEq, Repr

inductive IntOrder where
  | slt | sle | ult | ule
  deriving DecidableEq, Repr

inductive FloatOrder where
  | lt | le
  deriving DecidableEq, Repr

/-- On bools, `false` is below `true`. -/
inductive Comparison where
  | eq (t : ScalarType)
  | int (op : IntOrder) (w : IntWidth)
  | float (op : FloatOrder) (w : FloatWidth)
  | boolLt
  | boolLe
  deriving DecidableEq, Repr

inductive Conversion where
  | zeroExtend (source target : IntWidth)
  | signExtend (source target : IntWidth)
  | floatToFloat (source target : FloatWidth)
  | floatToUnsigned (source : FloatWidth) (target : IntWidth)
  | floatToSigned (source : FloatWidth) (target : IntWidth)
  | unsignedToFloat (source : IntWidth) (target : FloatWidth)
  | signedToFloat (source : IntWidth) (target : FloatWidth)
  | intToBool (source : IntWidth)
  | boolToInt (target : IntWidth)
  deriving DecidableEq, Repr

/-- The kind of the operand and of the result. -/
def UnaryOp.ty : UnaryOp → ScalarType
  | .not => .bool
  | .int _ w => .int w
  | .float _ w => .float w

namespace BinaryOp

/-- The kind of both operands and of the result. -/
def ty : BinaryOp → ScalarType
  | .int _ w => .int w
  | .float _ w => .float w
  | .and => .bool
  | .or => .bool

/-- The operator that a family member `i` or `f` becomes at kind `t`. Bools and certificates know
    one way to combine, which is conjunction. -/
def ofFamily (i : IntBinary) (f : FloatBinary) : ScalarType → BinaryOp
  | .int w => .int i w
  | .float w => .float f w
  | .bool => .and
  | .cert => .and

def add : ScalarType → BinaryOp := ofFamily .add .add
def sub : ScalarType → BinaryOp := ofFamily .sub .sub
def mul : ScalarType → BinaryOp := ofFamily .mul .mul
def div : ScalarType → BinaryOp := ofFamily .sdiv .div

theorem ty_ofFamily (i : IntBinary) (f : FloatBinary) (t : ScalarType) (not_cert : t ≠ .cert) :
    (ofFamily i f t).ty = t := by
  cases t <;> simp_all [ofFamily, ty]

end BinaryOp

/-- The kind of both operands; the result is a bool. -/
def Comparison.ty : Comparison → ScalarType
  | .eq t => t
  | .int _ w => .int w
  | .float _ w => .float w
  | .boolLt => .bool
  | .boolLe => .bool

namespace Conversion

def source : Conversion → ScalarType
  | .zeroExtend s _ => .int s
  | .signExtend s _ => .int s
  | .floatToFloat s _ => .float s
  | .floatToUnsigned s _ => .float s
  | .floatToSigned s _ => .float s
  | .unsignedToFloat s _ => .int s
  | .signedToFloat s _ => .int s
  | .intToBool s => .int s
  | .boolToInt _ => .bool

def target : Conversion → ScalarType
  | .zeroExtend _ t => .int t
  | .signExtend _ t => .int t
  | .floatToFloat _ t => .float t
  | .floatToUnsigned _ t => .int t
  | .floatToSigned _ t => .int t
  | .unsignedToFloat _ t => .float t
  | .signedToFloat _ t => .float t
  | .intToBool _ => .bool
  | .boolToInt t => .int t

end Conversion

end Cotangent
