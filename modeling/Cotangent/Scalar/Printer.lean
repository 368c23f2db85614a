import Cotangent.Scalar.Operator
import Cotangent.Text.ShortestDecimal
/-!
Scalars, kinds and operators as text. There are two forms: `text` is the short one of program
listings (`3i8`, `f64`), `tagged` spells out the constructors (`Int(I8, 3)`, `Float(F64)`).
Operators have the tagged form only.
-/
namespace Cotangent

def IntWidth.tag : IntWidth → String
  | .i8 => "I8"
  | .i16 => "I16"
  | .i32 => "I32"
  | .i64 => "I64"

def FloatWidth.tag : FloatWidth → String
  | .f32 => "F32"
  | .f64 => "F64"

def IntWidth.suffix (w : IntWidth) : String := "i" ++ toString w.bits

def FloatWidth.suffix : FloatWidth → String
  | .f32 => "f32"
  | .f64 => "f64"

/-- Floats are positional from 0.0001 to below 10^16, always with a point, and have a bare exponent
    elsewhere. -/
def Scalar.floatStyle : ShortestDecimal.Style := ⟨-4, 15, "e", "inf", "NaN"⟩

namespace ScalarType

def text : ScalarType → String
  | .int w => w.suffix
  | .float w => w.suffix
  | .bool => "bool"
  | .cert => "cert"

def tagged : ScalarType → String
  | .int w => "Int(" ++ w.tag ++ ")"
  | .float w => "Float(" ++ w.tag ++ ")"
  | .bool => "Bool"
  | .cert => "Cert"

end ScalarType

namespace Scalar

def text : Scalar → String
  | .int w n => toString n ++ w.suffix
  | .float w x => floatStyle.write x ++ w.suffix
  | .bool b => toString b
  | .cert => "cert"

def tagged : Scalar → String
  | .int w n => "Int(" ++ w.tag ++ ", " ++ toString n ++ ")"
  | .float w x => "Float(" ++ w.tag ++ ", " ++ floatStyle.write x ++ ")"
  | .bool b => "Bool(" ++ toString b ++ ")"
  | .cert => "Cert"

end Scalar

def IntUnary.mnemonic : IntUnary → String
  | .complement => "Complement"
  | .abs => "Abs"
  | .signum => "SSignum"
  | .unsignedSignum => "USignum"

def FloatUnary.mnemonic : FloatUnary → String
  | .abs => "FAbs"
  | .signum => "FSignum"
  | .neg => "FNeg"

def IntBinary.mnemonic : IntBinary → String
  | .add => "Add"
  | .sub => "Sub"
  | .mul => "Mul"
  | .sdiv => "SDiv"
  | .udiv => "UDiv"
  | .smod => "SMod"
  | .umod => "UMod"
  | .pow => "Pow"
  | .smax => "SMax"
  | .umax => "UMax"
  | .smin => "SMin"
  | .umin => "UMin"
  | .shl => "Shl"
  | .ashr => "AShr"
  | .and => "And"
  | .or => "Or"
  | .xor => "Xor"

def FloatBinary.mnemonic : FloatBinary → String
  | .add => "FAdd"
  | .sub => "FSub"
  | .mul => "FMul"
  | .div => "FDiv"
  | .pow => "FPow"
  | .max => "FMax"
  | .min => "FMin"

def IntOrder.mnemonic : IntOrder → String
  | .slt => "Slt"
  | .sle => "Sle"
  | .ult => "Ult"
  | .ule => "Ule"

def FloatOrder.mnemonic : FloatOrder → String
  | .lt => "FLt"
  | .le => "FLe"

def UnaryOp.tagged : UnaryOp → String
  | .not => "Not"
  | .int op w => op.mnemonic ++ "(" ++ w.tag ++ ")"
  | .float op w => op.mnemonic ++ "(" ++ w.tag ++ ")"

def BinaryOp.tagged : BinaryOp → String
  | .int op w => op.mnemonic ++ "(" ++ w.tag ++ ")"
  | .float op w => op.mnemonic ++ "(" ++ w.tag ++ ")"
  | .and => "LogAnd"
  | .or => "LogOr"

def Comparison.tagged : Comparison → String
  | .eq t => "Eq(" ++ t.tagged ++ ")"
  | .int op w => op.mnemonic ++ "(" ++ w.tag ++ ")"
  | .float op w => op.mnemonic ++ "(" ++ w.tag ++ ")"
  | .boolLt => "Llt"
  | .boolLe => "Lle"

namespace Conversion

def mnemonic : Conversion → String
  | .zeroExtend .. => "ZExt"
  | .signExtend .. => "SExt"
  | .floatToFloat .. => "FPConv"
  | .floatToUnsigned .. => "FPToUI"
  | .floatToSigned .. => "FPToSI"
  | .unsignedToFloat .. => "UIToFP"
  | .signedToFloat .. => "SIToFP"
  | .intToBool _ => "IToB"
  | .boolToInt _ => "BToI"

/-- The widths that the conversion names, in the order in which it names them. -/
def widthTags : Conversion → List String
  | .zeroExtend s t => [s.tag, t.tag]
  | .signExtend s t => [s.tag, t.tag]
  | .floatToFloat s t => [s.tag, t.tag]
  | .floatToUnsigned s t => [s.tag, t.tag]
  | .floatToSigned s t => [s.tag, t.tag]
  | .unsignedToFloat s t => [s.tag, t.tag]
  | .signedToFloat s t => [s.tag, t.tag]
  | .intToBool s => [s.tag]
  | .boolToInt t => [t.tag]

def tagged (op : Conversion) : String :=
  op.mnemonic ++ "(" ++ String.intercalate ", " op.widthTags ++ ")"

end Conversion

end Cotangent
