import Cotangent.Program.Basic
/-!
Symbolic scalar expressions. Arithmetic picks its operator by the kind of the left operand, so a sum
of formulas of one kind has that kind.
-/
namespace Cotangent

inductive Formula where
  | leaf (x : Name) (t : ScalarType)
  | lit (v : Scalar)
  | unary (op : UnaryOp) (a : Formula)
  | binary (op : BinaryOp) (a b : Formula)
  | compare (op : Comparison) (a b : Formula)
  | convert (op : Conversion) (a : Formula)
  | call (func : String) (args : List Formula) (t : ScalarType)
  deriving Repr

namespace Formula

def ty : Formula → ScalarType
  | .leaf _ t => t
  | .lit v => v.ty
  | .unary op _ => op.ty
  | .binary op _ _ => op.ty
  | .compare .. => .bool
  | .convert op _ => op.target
  | .call _ _ t => t

/-- The formula for an operand, read at kind `t` if it is a name. -/
def ofOperand (t : ScalarType) : Operand → Formula
  | .const v => .lit v
  | .var x => .leaf x t

def zero (t : ScalarType) : Formula := .lit (Scalar.zero t)
def one (t : ScalarType) : Formula := .lit (Scalar.one t)

def add (a b : Formula) : Formula := .binary (BinaryOp.add a.ty) a b
def sub (a b : Formula) : Formula := .binary (BinaryOp.sub a.ty) a b
def mul (a b : Formula) : Formula := .binary (BinaryOp.mul a.ty) a b
def div (a b : Formula) : Formula := .binary (BinaryOp.div a.ty) a b

/-- Negation is subtraction from zero. -/
def neg (a : Formula) : Formula := (zero a.ty).sub a

theorem ty_zero (t : ScalarType) : (zero t).ty = t := Scalar.ty_zero t
theorem ty_one (t : ScalarType) : (one t).ty = t := Scalar.ty_one t

end Formula

end Cotangent
