import Cotangent.Name.Supply
import Cotangent.Scalar.Operator
/-!
Programs over scalars and nested arrays in administrative normal form: a body is a list of
statements, each binding the values of one expression to the names of its pattern, and a list of
result operands. Besides scalar code there are array operations, conditionals, loops, accumulator
regions and the parallel combinators over array rows.
-/
namespace Cotangent

inductive Operand where
  | const (v : Scalar)
  | var (x : Name)
  deriving DecidableEq, Repr

/-- The name of an operand that is not a constant. -/
def Operand.name? : Operand → Option Name
  | .const _ => none
  | .var x => some x

/-- An accumulator is a write-only handle on the arrays of the region that made it. Its token is the
    name of the lambda parameter that introduced it, and its shape is that of the index space. -/
inductive Ty where
  | scalar (t : ScalarType)
  | array (elem : ScalarType) (shape : List Operand) (unique : Bool)
  | acc (token : Name) (shape : List Operand) (elems : List Ty) (unique : Bool)
  deriving Repr

/-- A name with its declared type: an element of a pattern, or a parameter of a lambda or loop. -/
structure Param where
  name : Name
  ty : Ty
  deriving Repr

structure Attributes where
  unchecked : Bool
  sequential : Bool
  incremental : Bool
  noInline : Bool
  deriving DecidableEq, Repr

/-- The certificates a statement waits for and its compiler hints. Nothing here changes a value. -/
structure Annotations where
  certs : List Name
  attrs : Attributes
  deriving DecidableEq, Repr

def Annotations.none : Annotations := ⟨[], ⟨false, false, false, false⟩⟩

/-- One dimension of an index: a fixed position, or `len` positions from `start` by `stride`. -/
inductive DimIndex where
  | fix (i : Operand)
  | slice (start len stride : Operand)
  deriving DecidableEq, Repr

/-- Expressions with one value and no body of their own. -/
inductive BasicOp where
  | operand (x : Operand)
  | arrayLit (elems : List Operand) (ty : Ty)
  | unary (op : UnaryOp) (x : Operand)
  | binary (op : BinaryOp) (x y : Operand)
  | compare (op : Comparison) (x y : Operand)
  | convert (op : Conversion) (x : Operand)
  | index (array : Name) (slice : List DimIndex)
  | update (array : Name) (slice : List DimIndex) (value : Operand)
  | concat (dim : Nat) (first : Name) (rest : List Name) (width : Operand)
  | copy (array : Name)
  | manifest (perm : List Nat) (array : Name)
  | reshape (shape : List Operand) (array : Name)
  | rearrange (perm : List Nat) (array : Name)
  | rotate (offsets : List Operand) (array : Name)
  | iota (count start step : Operand) (w : IntWidth)
  | replicate (shape : List Operand) (value : Operand)
  | scratch (elem : ScalarType) (shape : List Operand)
  | assert (cond : Operand) (msg : String)
  | updateAcc (acc : Name) (position values : List Operand)
  deriving Repr

/-- Why a conditional exists; carried along, never read. -/
inductive BranchSort where
  | normal | fallback | equiv
  deriving DecidableEq, Repr

/-- A while loop runs as long as the loop parameter `cond` holds. A for loop runs `bound` times, and
    each round binds the counter and one row of every listed array. -/
inductive LoopForm where
  | whileHolds (cond : Name)
  | forBelow (counter : Name) (w : IntWidth) (bound : Operand) (arrays : List (Param × Name))
  deriving Repr

inductive ChunkOrder where
  | inOrder | anyOrder
  deriving DecidableEq, Repr

/-- A destination of a scatter, which takes `count` values for each row. -/
structure ScatterDest where
  shape : List Operand
  count : Nat
  array : Name
  deriving DecidableEq, Repr

mutual

/-- `branch` is the conditional. `withAcc` runs its lambda on one accumulator per input; the lambda
    returns those accumulators and then any further values. `screma` fuses scans, reductions and a
    map: the map lambda returns the scanned values, then the reduced ones, then plain results.
    `stream` hands its lambda the width, the initial values and whole arrays. The lambda of `hist`
    and of `scatter` returns every index first and then every value. -/
inductive Exp where
  | basic (op : BasicOp)
  | apply (func : String) (args : List Operand) (ret : List Ty)
  | branch (cond : Operand) (yes no : Body) (ret : List Ty) (sort : BranchSort)
  | loop (merge : List (Param × Operand)) (form : LoopForm) (body : Body)
  | withAcc (inputs : List AccInput) (lam : Lambda)
  | screma (width : Operand) (arrays : List Name) (scans : List Combiner)
      (reduces : List Reduction) (map : Lambda)
  | stream (width : Operand) (arrays : List Name) (form : StreamForm) (inits : List Operand)
      (lam : Lambda)
  | hist (width : Operand) (ops : List Histogram) (bucket : Lambda) (arrays : List Name)
  | scatter (width : Operand) (lam : Lambda) (arrays : List Name) (dests : List ScatterDest)

structure Stm where
  pat : List Param
  aux : Annotations
  exp : Exp

structure Body where
  stms : List Stm
  result : List Operand

structure Lambda where
  params : List Param
  body : Body
  ret : List Ty

/-- An operator on groups of values, with one neutral operand per value. -/
structure Combiner where
  op : Lambda
  neutral : List Operand

structure Reduction where
  commutative : Bool
  combiner : Combiner

inductive StreamForm where
  | sequential
  | parallel (order : ChunkOrder) (commutative : Bool) (op : Lambda)

/-- The arrays that one accumulator writes to. Without an operator a write replaces; with one, the
    operator takes the index, the old values and the written values. -/
structure AccInput where
  shape : List Operand
  arrays : List Name
  combine : Option Combiner

/-- Destinations of equal shape that one operator updates together. -/
structure Histogram where
  shape : List Operand
  race : Operand
  dests : List Name
  combiner : Combiner

end

def total (counts : List Nat) : Nat := counts.foldr (· + ·) 0

/-- The number of indices that the bucket lambda of histograms returns. -/
def bucketIndices (ops : List Histogram) : Nat := total (ops.map (·.shape.length))

/-- The number of indices that a scatter lambda returns. -/
def scatterIndices (dests : List ScatterDest) : Nat :=
  total (dests.map fun d => d.count * d.shape.length)

namespace Ty

def isAcc : Ty → Bool
  | .acc .. => true
  | _ => false

def scalar? : Ty → Option ScalarType
  | .scalar t => some t
  | _ => none

/-- The kind of the scalars inside; an accumulator has none. -/
def elem? : Ty → Option ScalarType
  | .scalar t => some t
  | .array t _ _ => some t
  | .acc .. => none

def shape : Ty → List Operand
  | .scalar _ => []
  | .array _ shape _ => shape
  | .acc _ shape _ _ => shape

/-- An array type of a shape; where no dimension is left, its elements stand alone. -/
def ofShape (elem : ScalarType) (unique : Bool) : List Operand → Ty
  | [] => .scalar elem
  | shape => .array elem shape unique

/-- The type of one row of an array. -/
def row? : Ty → Option Ty
  | .array elem shape unique => some (ofShape elem unique (shape.drop 1))
  | _ => none

/-- The type with further dimensions in front. Accumulators are never elements of an array. -/
def arrayOf (t : Ty) (dims : List Operand) : Ty :=
  if dims.isEmpty then t
  else match t with
    | .scalar elem => .array elem dims false
    | .array elem shape unique => .array elem (dims ++ shape) unique
    | .acc token shape elems unique => .acc token shape elems unique

end Ty

end Cotangent
