import Cotangent.Name.Supply
import Cotangent.Program.Printer
import Cotangent.Value.Basic
/-!
What can go wrong at run time, with one wording for each cause.
-/
namespace Cotangent

/-- What a value was expected to be. -/
inductive Expected where
  | scalar | integer | float | boolean | array | accumulator
  deriving DecidableEq, Repr

def Expected.text : Expected → String
  | .scalar => "scalar"
  | .integer => "integer"
  | .float => "float"
  | .boolean => "boolean"
  | .array => "array"
  | .accumulator => "accumulator"

inductive Fault (α : Type := Scalar) where
  | unbound (x : Name)
  | mismatch (expected : Expected) (found : Value α)
  | arity (expected found : Nat)
  | outOfBounds (index : Int) (len : Nat)
  | shape
  | divisionByZero
  | negativeExponent (y : Int)
  | assertion (msg : String)
  | unknownFunction (func : String)
  deriving Repr

def Fault.message : Fault → String
  | .unbound x => x.text ++ " is not bound"
  | .mismatch expected found => "expected " ++ expected.text ++ ", found " ++ found.tagged
  | .arity expected found =>
    "expected " ++ toString expected ++ " values, found " ++ toString found
  | .outOfBounds index len =>
    "index " ++ toString index ++ " out of bounds for length " ++ toString len
  | .shape => "array does not have the expected shape"
  | .divisionByZero => "division by zero"
  | .negativeExponent y => "negative exponent " ++ toString y
  | .assertion msg => "assertion failed: " ++ msg
  | .unknownFunction func => "unknown function " ++ func

namespace Scalar

def asInt : Scalar → Except Fault Int
  | .int _ n => .ok n
  | v => .error (.mismatch .integer (.scalar v))

def asFloat : Scalar → Except Fault Float
  | .float _ x => .ok x
  | v => .error (.mismatch .float (.scalar v))

/-- A certificate counts as true. -/
def asBool : Scalar → Except Fault Bool
  | .bool b => .ok b
  | .cert => .ok true
  | v => .error (.mismatch .boolean (.scalar v))

end Scalar

namespace Value

def asScalar {α : Type} : Value α → Except (Fault α) α
  | .scalar v => .ok v
  | v => .error (.mismatch .scalar v)

def asFloat (v : Value) : Except Fault Float := do (← v.asScalar).asFloat

def rows {α : Type} : Value α → Except (Fault α) (List (Value α))
  | .array rows => .ok rows
  | v => .error (.mismatch .array v)

end Value

end Cotangent
