import Cotangent.Name.Table
import Cotangent.Program.Occurrence
/-!
Renaming every binder of a body to a fresh name. The walk is that of `Body.occurrences`: a binder
draws the next number of the supply and is recorded, and a read takes the record for its name, if
there is one. Names that the body does not bind stay as they are.
-/
namespace Cotangent

/-- The supply and the new names of the binders met so far. -/
structure Renaming where
  supply : Supply
  fresh : NameTable Name
  deriving Repr

abbrev Rename := StateM Renaming

namespace Rename

def binder (x : Name) : Rename Name := fun r =>
  let (y, supply) := r.supply.fresh
  (y, ⟨supply, r.fresh.insert x y⟩)

def read (x : Name) : Rename Name := fun r => ((r.fresh.find? x).getD x, r)

def names (xs : List Name) : Rename (List Name) := xs.mapM read

def operand : Operand → Rename Operand
  | .const v => pure (.const v)
  | .var x => return .var (← read x)

def operands (xs : List Operand) : Rename (List Operand) := xs.mapM operand

mutual

def ty : Ty → Rename Ty
  | .scalar t => pure (.scalar t)
  | .array elem shape unique => return .array elem (← operands shape) unique
  | .acc token shape elems unique =>
    return .acc (← read token) (← operands shape) (← types elems) unique

def types : List Ty → Rename (List Ty)
  | [] => pure []
  | t :: ts => return (← ty t) :: (← types ts)

end

def param (p : Param) : Rename Param := return ⟨← binder p.name, ← ty p.ty⟩

def params (ps : List Param) : Rename (List Param) := ps.mapM param

def dimIndex : DimIndex → Rename DimIndex
  | .fix i => return .fix (← operand i)
  | .slice start len stride =>
    return .slice (← operand start) (← operand len) (← operand stride)

def slice (ds : List DimIndex) : Rename (List DimIndex) := ds.mapM dimIndex

def basicOp : BasicOp → Rename BasicOp
  | .operand x => return .operand (← operand x)
  | .arrayLit elems t => return .arrayLit (← operands elems) (← ty t)
  | .unary op x => return .unary op (← operand x)
  | .binary op x y => return .binary op (← operand x) (← operand y)
  | .compare op x y => return .compare op (← operand x) (← operand y)
  | .convert op x => return .convert op (← operand x)
  | .index array dims => return .index (← read array) (← slice dims)
  | .update array dims value => return .update (← read array) (← slice dims) (← operand value)
  | .concat dim first rest width =>
    return .concat dim (← read first) (← names rest) (← operand width)
  | .copy array => return .copy (← read array)
  | .manifest perm array => return .manifest perm (← read array)
  | .reshape shape array => return .reshape (← operands shape) (← read array)
  | .rearrange perm array => return .rearrange perm (← read array)
  | .rotate offsets array => return .rotate (← operands offsets) (← read array)
  | .iota count start step w =>
    return .iota (← operand count) (← operand start) (← operand step) w
  | .replicate shape value => return .replicate (← operands shape) (← operand value)
  | .scratch elem shape => return .scratch elem (← operands shape)
  | .assert cond msg => return .assert (← operand cond) msg
  | .updateAcc acc position values =>
    return .updateAcc (← read acc) (← operands position) (← operands values)

/-- A loop whose body is renamed by `body`. -/
def loop (merge : List (Param × Operand)) (form : LoopForm) (body : Rename Body) :
    Rename Exp := do
  let inits ← operands (merge.map (·.2))
  match form with
  | .whileHolds cond =>
    let ps ← params (merge.map (·.1))
    let b ← body
    return .loop (ps.zip inits) (.whileHolds (← read cond)) b
  | .forBelow counter w bound arrays =>
    let bound ← operand bound
    let sources ← names (arrays.map (·.2))
    let ps ← params (merge.map (·.1))
    let counter ← binder counter
    let rows ← params (arrays.map (·.1))
    return .loop (ps.zip inits) (.forBelow counter w bound (rows.zip sources)) (← body)

def dest (d : ScatterDest) : Rename ScatterDest :=
  return ⟨← operands d.shape, d.count, ← read d.array⟩

mutual

def exp : Exp → Rename Exp
  | .basic op => return .basic (← basicOp op)
  | .apply func args ret => return .apply func (← operands args) (← types ret)
  | .branch cond yes no ret sort =>
    return .branch (← operand cond) (← body yes) (← body no) (← types ret) sort
  | .loop merge form b => loop merge form (body b)
  | .withAcc inputs lam => return .withAcc (← accInputs inputs) (← lambda lam)
  | .screma width arrays scans reduces map =>
    return .screma (← operand width) (← names arrays) (← combiners scans)
      (← reductions reduces) (← lambda map)
  | .stream width arrays form inits lam => do
    let width ← operand width
    let arrays ← names arrays
    let inits ← operands inits
    return .stream width arrays (← streamForm form) inits (← lambda lam)
  | .hist width ops bucket arrays =>
    return .hist (← operand width) (← histograms ops) (← lambda bucket) (← names arrays)
  | .scatter width lam arrays dests =>
    return .scatter (← operand width) (← lambda lam) (← names arrays) (← dests.mapM dest)

def stm : Stm → Rename Stm
  | ⟨pat, aux, e⟩ => do
    let certs ← names aux.certs
    let e ← exp e
    return ⟨← params pat, ⟨certs, aux.attrs⟩, e⟩

def stms : List Stm → Rename (List Stm)
  | [] => pure []
  | s :: ss => return (← stm s) :: (← stms ss)

def body : Body → Rename Body
  | ⟨ss, result⟩ => return ⟨← stms ss, ← operands result⟩

def lambda : Lambda → Rename Lambda
  | ⟨ps, b, ret⟩ => return ⟨← params ps, ← body b, ← types ret⟩

def combiner : Combiner → Rename Combiner
  | ⟨op, neutral⟩ => do
    let neutral ← operands neutral
    return ⟨← lambda op, neutral⟩

def combiners : List Combiner → Rename (List Combiner)
  | [] => pure []
  | c :: cs => return (← combiner c) :: (← combiners cs)

def reductions : List Reduction → Rename (List Reduction)
  | [] => pure []
  | ⟨commutative, c⟩ :: rs => return ⟨commutative, ← combiner c⟩ :: (← reductions rs)

def streamForm : StreamForm → Rename StreamForm
  | .sequential => pure .sequential
  | .parallel order commutative op => return .parallel order commutative (← lambda op)

def accInputs : List AccInput → Rename (List AccInput)
  | [] => pure []
  | ⟨shape, arrays, none⟩ :: rest =>
    return ⟨← operands shape, ← names arrays, none⟩ :: (← accInputs rest)
  | ⟨shape, arrays, some c⟩ :: rest =>
    return ⟨← operands shape, ← names arrays, some (← combiner c)⟩ :: (← accInputs rest)

def histograms : List Histogram → Rename (List Histogram)
  | [] => pure []
  | ⟨shape, race, dests, c⟩ :: rest =>
    return ⟨← operands shape, ← operand race, ← names dests, ← combiner c⟩ :: (← histograms rest)

end

end Rename

/-- The body with fresh binders, and the supply after them. -/
def Body.rename (b : Body) (s : Supply) : Body × Supply :=
  let (b', r) := (Rename.body b).run ⟨s, .empty⟩
  (b', r.supply)

end Cotangent
