import Cotangent.Evaluation.Scalar
/-!
What a run has to know of the values at the leaves of its arrays. A run works the same way on plain
scalars and on scalars that carry more than themselves, such as a first-order change; whatever
decides where a run goes next (a condition, a position, a size, a loop counter) is read off the plain
scalar inside.
-/
namespace Cotangent

class ScalarAlgebra (α : Type) where
  ofScalar : Scalar → α
  toScalar : α → Scalar
  unary : UnaryOp → α → Except (Fault α) α
  binary : BinaryOp → α → α → Except (Fault α) α
  compare : Comparison → α → α → Except (Fault α) Bool
  convert : Conversion → α → Except (Fault α) α
  call : String → List α → Except (Fault α) α
  /-- Member `i` of the integers that start at the first value and go on by the second. -/
  member : IntWidth → α → α → Nat → α

namespace ScalarAlgebra

variable {α : Type} [ScalarAlgebra α]

def asInt (a : α) : Except (Fault α) Int :=
  match toScalar a with
  | .int _ n => .ok n
  | _ => .error (.mismatch .integer (.scalar a))

/-- A certificate counts as true. -/
def asBool (a : α) : Except (Fault α) Bool :=
  match toScalar a with
  | .bool b => .ok b
  | .cert => .ok true
  | _ => .error (.mismatch .boolean (.scalar a))

end ScalarAlgebra

/-- The number that an integer scalar stands for; nothing else stands for one. -/
def Scalar.number : Scalar → Int
  | .int _ n => n
  | _ => 0

instance : ScalarAlgebra Scalar where
  ofScalar v := v
  toScalar v := v
  unary := UnaryOp.apply
  binary := BinaryOp.apply
  compare := Comparison.apply
  convert := Conversion.apply
  call := MathFunction.call
  member w first step i := .int w (w.wrap (first.number + i * step.number))

end Cotangent
