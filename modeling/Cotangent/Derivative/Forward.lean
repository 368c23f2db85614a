import Cotangent.Program.Occurrence
import Cotangent.Derivative.Context
/-!
Forward differentiation. Every value is paired with a tangent that is computed right after it, so a
list of parameters, results or types doubles: each entry is followed by its tangent. Accumulators
are not doubled; they carry the tangents of their elements inside, after the elements themselves.

A nested body is transformed in a scope of its own, so that no tangent outlives the names it belongs
to. The definitions for single constructs take the transformed parts as actions, and the recursion
over programs at the end puts them together.
-/
namespace Cotangent

mutual

/-- The type of the tangent of a value. -/
def Ty.tangent : Ty → Ty
  | .scalar t => .scalar t
  | .array elem shape unique => .array elem shape unique
  | .acc token shape elems unique =>
    .acc token shape (tangentTypes elems ++ tangentTypes elems) unique

def tangentTypes : List Ty → List Ty
  | [] => []
  | t :: ts => t.tangent :: tangentTypes ts

end

/-- Each type followed by its tangent type, and accumulators alone. -/
def bundledTypes (ts : List Ty) : List Ty :=
  ts.flatMap fun t => if t.isAcc then [t.tangent] else [t, t.tangent]

namespace Forward

open Diff

def unsupported {α : Type} (s : Stm) : Diff α := throw (.unsupported .forward s)

/-- A tangent for a binder, recorded as its companion. An accumulator is its own. -/
def newTangent (p : Param) : Diff Param := do
  let t := p.ty.tangent
  let x ← if p.ty.isAcc then pure p.name else build Build.fresh
  setCompanion p.name x
  build (Build.declare x t)
  return ⟨x, t⟩

def bundled {α β : Type} (f : α → Diff (List β)) (xs : List α) : Diff (List β) :=
  return (← xs.mapM f).flatten

def bundleBinders : List Param → Diff (List Param) := bundled fun p => do
  let tan ← newTangent p
  return if p.ty.isAcc then [tan] else [p, tan]

def tangent : Operand → Diff Operand
  | .const v => return .const (Scalar.zero v.ty)
  | .var x => return .var (← companion x)

def tangents (xs : List Operand) : Diff (List Operand) := xs.mapM tangent

def isAccName (x : Name) : Diff Bool := return (← typeOf x).isAcc

def isAccOperand : Operand → Diff Bool
  | .const _ => return false
  | .var x => isAccName x

def bundleOperands : List Operand → Diff (List Operand) := bundled fun x => do
  if ← isAccOperand x then return [x] else return [x, ← tangent x]

def bundleNames : List Name → Diff (List Name) := bundled fun x => do
  if ← isAccName x then return [x] else return [x, ← companion x]

/-- Neutral operands, each with a zero for its tangent. All zeros are made first. -/
def bundleNeutral (xs : List Operand) : Diff (List Operand) := do
  let zeros ← xs.mapM zeroOperand
  return (xs.zip zeros).flatMap fun p => [p.1, p.2]

def bundleMerge : List (Param × Operand) → Diff (List (Param × Operand)) := bundled fun m => do
  build (Build.declare m.1.name m.1.ty)
  if m.1.ty.isAcc then
    let tan ← newTangent m.1
    return [(tan, m.2)]
  else
    let init ← tangent m.2
    let tan ← newTangent m.1
    return [m, (tan, init)]

def bundleRows : List (Param × Name) → Diff (List (Param × Name)) := bundled fun a => do
  build (Build.declare a.1.name a.1.ty)
  let source ← companion a.2
  let tan ← newTangent a.1
  return [a, (tan, source)]

/-! Statements without bodies. -/

/-- The tangent expression of an operation, to be emitted once its binder is made. -/
def tangentExp (rules : Rules) (s : Stm) : BasicOp → Diff (Build Exp)
  | .operand x => do return pure (.basic (.operand (← tangent x)))
  | .arrayLit elems ty => do return pure (.basic (.arrayLit (← tangents elems) ty))
  | .unary op x => do
    let dx := Formula.ofOperand op.ty (← tangent x)
    return Build.expOf (dx.mul (rules.unary op (Formula.ofOperand op.ty x)))
  | .binary op x y => do
    let dx := Formula.ofOperand op.ty (← tangent x)
    let dy := Formula.ofOperand op.ty (← tangent y)
    let (px, py) := rules.binary op (Formula.ofOperand op.ty x) (Formula.ofOperand op.ty y)
    return Build.expOf ((dx.mul px).add (dy.mul py))
  | .convert op x => do return pure (.basic (.convert op (← tangent x)))
  | .index array slice => do return pure (.basic (.index (← companion array) slice))
  | .update array slice value => do
    let array ← companion array
    return pure (.basic (.update array slice (← tangent value)))
  | .concat dim first rest width => do
    let first ← companion first
    return pure (.basic (.concat dim first (← rest.mapM companion) width))
  | .copy array => do return pure (.basic (.copy (← companion array)))
  | .manifest perm array => do return pure (.basic (.manifest perm (← companion array)))
  | .reshape shape array => do return pure (.basic (.reshape shape (← companion array)))
  | .rearrange perm array => do return pure (.basic (.rearrange perm (← companion array)))
  | .rotate offsets array => do return pure (.basic (.rotate offsets (← companion array)))
  | .iota count _ _ w => return pure (.basic (.replicate [count] (.const (.int w 0))))
  | .replicate shape value => do return pure (.basic (.replicate shape (← tangent value)))
  | .compare .. => unsupported s
  | .scratch .. => unsupported s
  | .assert .. => unsupported s
  | .updateAcc .. => unsupported s

/-- Operations whose result has no tangent of its own; it is zero, where it is asked for. -/
def isConstant : BasicOp → Bool
  | .compare .. => true
  | .assert .. => true
  | .scratch .. => true
  | _ => false

def basicOp (rules : Rules) (s : Stm) (op : BasicOp) : Diff Unit := do
  build (Build.add s)
  if !isConstant op then
    let p ← single .forward s
    let e ← tangentExp rules s op
    let tan ← newTangent p
    build do Build.add ⟨[tan], s.aux, ← e⟩

/-- An update writes the tangents of the values along with them. -/
def updateAcc (s : Stm) (acc : Name) (position values : List Operand) : Diff Unit := do
  let pat ← bundleBinders s.pat
  let tans ← tangents values
  let acc ← companion acc
  build (Build.add ⟨pat, s.aux, .basic (.updateAcc acc position (values ++ tans))⟩)

/-- The sum of tangents times partials. -/
def apply (rules : Rules) (s : Stm) (func : String) (args : List Operand) : Diff Unit := do
  let (kinds, ret) ← signature rules func
  let p ← single .forward s
  build (Build.add s)
  let ds ← partials rules func kinds args
  let terms ← ((kinds.zip args).zip ds).mapM fun a => do
    return (Formula.ofOperand a.1.1 (← tangent a.1.2)).mul a.2
  let tan ← newTangent p
  let sum := match terms with
    | [] => Formula.zero ret
    | t :: ts => ts.foldl Formula.add t
  build (Build.bindFormula tan s.aux sum)

/-! Bodies and lambdas, given the transformation of their statements. -/

/-- A body with every result followed by its tangent. -/
def bundledBody (stms : Diff Unit) (result : List Operand) : Diff Body :=
  bodyOf stms (bundleOperands result)

def lambdaOf (params : List Param) (ret : List Ty) (body : Diff Body) : Diff Lambda :=
  within do
    build (Build.declareParams params)
    let ps ← bundleBinders params
    return ⟨ps, ← body, bundledTypes ret⟩

/-- The first parameter of a stream lambda is the width, which has no tangent. -/
def streamLambda (s : Stm) (params : List Param) (ret : List Ty) (body : Diff Body) :
    Diff Lambda :=
  match params with
  | [] => unsupported s
  | chunk :: rest =>
    within do
      build (Build.declareParams params)
      let ps ← bundleBinders rest
      return ⟨chunk :: ps, ← body, bundledTypes ret⟩

/-- The first `n` results of a bucket lambda are indices, which have no tangents. -/
def bucketLambda (n : Nat) (params : List Param) (stms : Diff Unit) (result : List Operand)
    (ret : List Ty) : Diff Lambda :=
  within do
    build (Build.declareParams params)
    let ps ← bundleBinders params
    let body ← bodyOf stms do return result.take n ++ (← bundleOperands (result.drop n))
    return ⟨ps, body, ret.take n ++ bundledTypes (ret.drop n)⟩

/-- A scatter lambda returns its `n` indices twice, once for the values and once for their tangents,
    then the values, then the tangents. -/
def scatterLambda (n : Nat) (params : List Param) (stms : Diff Unit) (result : List Operand)
    (ret : List Ty) : Diff Lambda :=
  within do
    build (Build.declareParams params)
    let ps ← bundleBinders params
    let body ← bodyOf stms do
      return result.take n ++ result.take n ++ result.drop n ++ (← tangents (result.drop n))
    return ⟨ps, body, ret.take n ++ ret.take n ++ ret.drop n ++ ret.drop n⟩

/-- The operator of an accumulator takes `rank` indices, which stay as they are, and two groups of
    values, each of which is followed by the tangents of the group. -/
def accOperator (s : Stm) (rank : Nat) (params : List Param) (stms : Diff Unit)
    (result : List Operand) (ret : List Ty) : Diff Lambda :=
  if params.length < rank ∨ (params.length - rank) % 2 ≠ 0 then unsupported s
  else
    within do
      build (Build.declareParams params)
      let values := params.drop rank
      let olds := values.take (values.length / 2)
      let news := values.drop (values.length / 2)
      let oldTans ← olds.mapM newTangent
      let newTans ← news.mapM newTangent
      let body ← bodyOf stms do return result ++ (← tangents result)
      return ⟨params.take rank ++ olds ++ oldTans ++ news ++ newTans, body,
        tangentTypes ret ++ tangentTypes ret⟩

/-! Statements with bodies. -/

def branch (s : Stm) (cond : Operand) (yes no : Diff Body) (ret : List Ty) (sort : BranchSort) :
    Diff Unit := do
  let yes ← within yes
  let no ← within no
  let pat ← bundleBinders s.pat
  build (Build.add ⟨pat, s.aux, .branch cond yes no (bundledTypes ret) sort⟩)

def loop (s : Stm) (merge : List (Param × Operand)) (form : LoopForm) (body : Diff Body) :
    Diff Unit := do
  let merge ← bundleMerge merge
  let form ← match form with
    | .whileHolds cond => pure (.whileHolds cond)
    | .forBelow counter w bound arrays => do
      let arrays ← bundleRows arrays
      build (Build.declare counter (.scalar (.int w)))
      pure (.forBelow counter w bound arrays)
  let pat ← bundleBinders s.pat
  let body ← within body
  build (Build.add ⟨pat, s.aux, .loop merge form body⟩)

/-- The pattern of an accumulator region: the arrays of each input followed by their tangents, then
    the other results bundled. -/
def regionPattern : List AccInput → List Param → Diff (List Param)
  | [], rest => bundleBinders rest
  | i :: inputs, pat => do
    let group := pat.take i.arrays.length
    let tans ← group.mapM newTangent
    return group ++ tans ++ (← regionPattern inputs (pat.drop i.arrays.length))

/-- The arrays of an input followed by their tangents. -/
def accArrays (arrays : List Name) : Diff (List Name) :=
  return arrays ++ (← arrays.mapM companion)

def withAcc (s : Stm) (inputs : List AccInput) (bundledInputs : Diff (List AccInput))
    (lam : Diff Lambda) : Diff Unit := do
  let arrayCount := total (inputs.map (·.arrays.length))
  if s.pat.length < arrayCount then
    throw (.pattern .forward arrayCount s.pat.length s)
  let bundledInputs ← bundledInputs
  let pat ← regionPattern inputs s.pat
  build (Build.add ⟨pat, s.aux, .withAcc bundledInputs (← lam)⟩)

def screma (s : Stm) (width : Operand) (arrays : List Name) (scans : Diff (List Combiner))
    (reduces : Diff (List Reduction)) (map : Diff Lambda) : Diff Unit := do
  let pat ← bundleBinders s.pat
  let arrays ← bundleNames arrays
  let scans ← scans
  let reduces ← reduces
  build (Build.add ⟨pat, s.aux, .screma width arrays scans reduces (← map)⟩)

def stream (s : Stm) (width : Operand) (arrays : List Name) (form : Diff StreamForm)
    (inits : List Operand) (lam : Diff Lambda) : Diff Unit := do
  let pat ← bundleBinders s.pat
  let lam ← lam
  let arrays ← bundleNames arrays
  let inits ← bundleNeutral inits
  build (Build.add ⟨pat, s.aux, .stream width arrays (← form) inits lam⟩)

def hist (s : Stm) (width : Operand) (ops : Diff (List Histogram)) (bucket : Diff Lambda)
    (arrays : List Name) : Diff Unit := do
  let pat ← bundleBinders s.pat
  let ops ← ops
  let bucket ← bucket
  let arrays ← bundleNames arrays
  build (Build.add ⟨pat, s.aux, .hist width ops bucket arrays⟩)

/-- All primal destinations come before all tangent ones. -/
def scatter (s : Stm) (width : Operand) (lam : Diff Lambda) (arrays : List Name)
    (dests : List ScatterDest) : Diff Unit := do
  let destTans ← dests.mapM fun d => return { d with array := ← companion d.array }
  let tans ← s.pat.mapM newTangent
  let arrays ← bundleNames arrays
  let lam ← lam
  build (Build.add ⟨s.pat ++ tans, s.aux, .scatter width lam arrays (dests ++ destTans)⟩)

section

variable (rules : Rules)

mutual

/-- Emits the statement and what computes the tangents of the names it binds. -/
def stm : Stm → Diff Unit
  | ⟨pat, aux, .basic op⟩ =>
    match op with
    | .updateAcc acc position values => updateAcc ⟨pat, aux, .basic op⟩ acc position values
    | op => basicOp rules ⟨pat, aux, .basic op⟩ op
  | ⟨pat, aux, .apply func args ret⟩ => apply rules ⟨pat, aux, .apply func args ret⟩ func args
  | ⟨pat, aux, .branch cond yes no ret sort⟩ =>
    branch ⟨pat, aux, .branch cond yes no ret sort⟩ cond (body yes) (body no) ret sort
  | ⟨pat, aux, .loop merge form b⟩ =>
    loop ⟨pat, aux, .loop merge form b⟩ merge form (body b)
  | ⟨pat, aux, .withAcc inputs lam⟩ =>
    let s : Stm := ⟨pat, aux, .withAcc inputs lam⟩
    withAcc s inputs (accInputs s inputs) (lambda lam)
  | ⟨pat, aux, .screma width arrays scans reduces map⟩ =>
    screma ⟨pat, aux, .screma width arrays scans reduces map⟩ width arrays (combiners scans)
      (reductions reduces) (lambda map)
  | ⟨pat, aux, .stream width arrays form inits ⟨ps, b, ret⟩⟩ =>
    let s : Stm := ⟨pat, aux, .stream width arrays form inits ⟨ps, b, ret⟩⟩
    stream s width arrays (streamForm form) inits (streamLambda s ps ret (body b))
  | ⟨pat, aux, .hist width ops ⟨ps, ⟨ss, result⟩, ret⟩ arrays⟩ =>
    hist ⟨pat, aux, .hist width ops ⟨ps, ⟨ss, result⟩, ret⟩ arrays⟩ width (histograms ops)
      (bucketLambda (bucketIndices ops) ps (stms ss) result ret) arrays
  | ⟨pat, aux, .scatter width ⟨ps, ⟨ss, result⟩, ret⟩ arrays dests⟩ =>
    scatter ⟨pat, aux, .scatter width ⟨ps, ⟨ss, result⟩, ret⟩ arrays dests⟩ width
      (scatterLambda (scatterIndices dests) ps (stms ss) result ret) arrays dests

def stms : List Stm → Diff Unit
  | [] => pure ()
  | s :: ss => do
    stm s
    stms ss

def body : Body → Diff Body
  | ⟨ss, result⟩ => bundledBody (stms ss) result

def lambda : Lambda → Diff Lambda
  | ⟨ps, b, ret⟩ => lambdaOf ps ret (body b)

def combiner : Combiner → Diff Combiner
  | ⟨op, neutral⟩ => do
    let op ← lambda op
    return ⟨op, ← bundleNeutral neutral⟩

def combiners : List Combiner → Diff (List Combiner)
  | [] => return []
  | c :: cs => do
    let c ← combiner c
    return c :: (← combiners cs)

def reductions : List Reduction → Diff (List Reduction)
  | [] => return []
  | ⟨commutative, c⟩ :: rs => do
    let c ← combiner c
    return ⟨commutative, c⟩ :: (← reductions rs)

def streamForm : StreamForm → Diff StreamForm
  | .sequential => return .sequential
  | .parallel order commutative op => return .parallel order commutative (← lambda op)

def histograms : List Histogram → Diff (List Histogram)
  | [] => return []
  | ⟨shape, race, dests, ⟨op, neutral⟩⟩ :: rest => do
    let dests ← bundleNames dests
    let neutral ← bundleNeutral neutral
    let op ← lambda op
    return ⟨shape, race, dests, ⟨op, neutral⟩⟩ :: (← histograms rest)

/-- The inputs of the region `s`. -/
def accInputs (s : Stm) : List AccInput → Diff (List AccInput)
  | [] => return []
  | ⟨shape, arrays, none⟩ :: rest => do
    let arrays ← accArrays arrays
    return ⟨shape, arrays, none⟩ :: (← accInputs s rest)
  | ⟨shape, arrays, some ⟨⟨ps, ⟨ss, result⟩, ret⟩, neutral⟩⟩ :: rest => do
    let arrays ← accArrays arrays
    let op ← accOperator s shape.length ps (stms ss) result ret
    let zeros ← neutral.mapM zeroOperand
    return ⟨shape, arrays, some ⟨op, neutral ++ zeros⟩⟩ :: (← accInputs s rest)

end

/-- The transformation of a closed lambda, with `result` for the results of its body. -/
def top (l : Lambda) (ret : List Ty) (result : Diff (List Operand)) : Diff Lambda := do
  build (Build.declareParams l.params)
  let params ← bundleBinders l.params
  return ⟨params, ← bodyOf (stms rules l.body.stms) result, ret⟩

end

end Forward

/-- Every parameter is followed by a tangent parameter, and the results are the tangents of the
    results. Also the supply after all names that were drawn, on success or failure. -/
def Lambda.forward (rules : Rules) (l : Lambda) (s : Supply) : Except DiffError Lambda × Supply :=
  (Forward.top rules l (tangentTypes l.ret) (Forward.tangents l.body.result)).start (s.reserve l)

/-- Like `forward`, but every result is kept and followed by its tangent. -/
def Lambda.forwardBundled (rules : Rules) (l : Lambda) (s : Supply) :
    Except DiffError Lambda × Supply :=
  (Forward.top rules l (bundledTypes l.ret) (Forward.bundleOperands l.body.result)).start
    (s.reserve l)

end Cotangent
