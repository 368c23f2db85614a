import Cotangent.Scalar.Basic
/-!
The builtin functions on floats. A program calls one by its base name followed by the width it works
at, as in `sin64` or `atan232`; the base name may itself end in a digit.
-/
namespace Cotangent

inductive MathFunction where
  | sqrt | exp | log | sin | cos | tan | tanh
  | pow | atan2
  deriving DecidableEq, Repr

namespace MathFunction

def all : List MathFunction := [.sqrt, .exp, .log, .sin, .cos, .tan, .tanh, .pow, .atan2]

def base : MathFunction → String
  | .sqrt => "sqrt"
  | .exp => "exp"
  | .log => "log"
  | .sin => "sin"
  | .cos => "cos"
  | .tan => "tan"
  | .tanh => "tanh"
  | .pow => "pow"
  | .atan2 => "atan2"

def arity : MathFunction → Nat
  | .pow => 2
  | .atan2 => 2
  | _ => 1

def ofBase? (s : String) : Option MathFunction := all.find? fun f => f.base == s

def widthSuffix : FloatWidth → String
  | .f32 => "32"
  | .f64 => "64"

/-- The name that a program calls the function by. -/
def name (f : MathFunction) (w : FloatWidth) : String := f.base ++ widthSuffix w

/-- A called name without its width suffix, and the width. -/
def splitWidth (func : String) : Option (String × FloatWidth) :=
  match func.toList.reverse with
  | '4' :: '6' :: base => some (String.ofList base.reverse, .f64)
  | '2' :: '3' :: base => some (String.ofList base.reverse, .f32)
  | _ => none

def ofName? (func : String) : Option (MathFunction × FloatWidth) := do
  let (base, w) ← splitWidth func
  return (← ofBase? base, w)

/-- The value at a list of arguments of the right length. `atan2` takes the ordinate first. -/
def eval? : MathFunction → List Float → Option Float
  | .sqrt, [x] => some x.sqrt
  | .exp, [x] => some x.exp
  | .log, [x] => some x.log
  | .sin, [x] => some x.sin
  | .cos, [x] => some x.cos
  | .tan, [x] => some x.tan
  | .tanh, [x] => some x.tanh
  | .pow, [x, y] => some (x.pow y)
  | .atan2, [y, x] => some (y.atan2 x)
  | _, _ => none

theorem isSome_eval (f : MathFunction) (xs : List Float) :
    (f.eval? xs).isSome = true ↔ xs.length = f.arity := by
  match xs with
  | [] => cases f <;> simp [eval?, arity]
  | [_] => cases f <;> simp [eval?, arity]
  | [_, _] => cases f <;> simp [eval?, arity]
  | _ :: _ :: _ :: _ => cases f <;> simp [eval?, arity]

end MathFunction

end Cotangent
