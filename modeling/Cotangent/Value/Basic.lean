import Cotangent.Scalar.Printer
/-!
Run-time values: scalars, nested arrays, and accumulators. The rows of an array need not agree in
shape or kind. The `id` of an accumulator selects its combining operator. What stands at the leaves is
a parameter, and plain scalars are the usual choice.
-/
namespace Cotangent

inductive Value (α : Type := Scalar) where
  | scalar (v : α)
  | array (rows : List (Value α))
  | acc (id : Nat) (arrays : List (Value α))
  deriving Repr

mutual

/-- The value with `f` applied to every leaf. -/
def Value.map {α β : Type} (f : α → β) : Value α → Value β
  | .scalar v => .scalar (f v)
  | .array rows => .array (mapRows f rows)
  | .acc id arrays => .acc id (mapRows f arrays)

def mapRows {α β : Type} (f : α → β) : List (Value α) → List (Value β)
  | [] => []
  | v :: vs => v.map f :: mapRows f vs

end

mutual

/-- The value with its constructors spelled out. -/
def Value.tagged : Value → String
  | .scalar v => "Prim(" ++ v.tagged ++ ")"
  | .array rows => "Array([" ++ String.intercalate ", " (taggedRows rows) ++ "])"
  | .acc id arrays =>
    "Acc \x7b id: " ++ toString id ++ ", arrays: [" ++
      String.intercalate ", " (taggedRows arrays) ++ "] \x7d"

def taggedRows : List Value → List String
  | [] => []
  | v :: vs => v.tagged :: taggedRows vs

end

end Cotangent
