import Cotangent.Program.Renaming
import Cotangent.Derivative.Context
/-!
Reverse differentiation. The statements of a body are emitted as they are, and then each of them,
from last to first, adds its contribution to the adjoints of what it read. An adjoint is the name of
the sum of the contributions so far; the first one needs no sum.

Adjoints flow through scalar operations, copies, calls and branches. A branch is computed again,
under fresh names, next to the adjoints it gives rise to; its statements do not see the adjoints
outside.
-/
namespace Cotangent

mutual

/-- How deeply branches are nested, where only branches count. -/
def Exp.branchDepth : Exp → Nat
  | .branch _ yes no _ _ => max yes.branchDepth no.branchDepth + 1
  | _ => 0

def Stm.branchDepth : Stm → Nat
  | ⟨_, _, exp⟩ => exp.branchDepth

def stmsBranchDepth : List Stm → Nat
  | [] => 0
  | s :: ss => max s.branchDepth (stmsBranchDepth ss)

def Body.branchDepth : Body → Nat
  | ⟨stms, _⟩ => stmsBranchDepth stms

end

namespace Build

/-- Binds a formula to a fresh name. -/
def letFormula (f : Formula) : Build Name := do
  let x ← fresh
  bindFormula ⟨x, .scalar f.ty⟩ .none f
  return x

/-- The sum of two values of kind `elem` and the given shape, one map for each dimension. -/
def sum (elem : ScalarType) (unique : Bool) : List Operand → Name → Name → Build Name
  | [], x, y => letFormula ((Formula.leaf x elem).add (.leaf y elem))
  | width :: shape, x, y => do
    let row := Ty.ofShape elem unique shape
    let a ← param row
    let b ← param row
    let (z, stms) ← collect (sum elem unique shape a.name b.name)
    letExp (.ofShape elem unique (width :: shape))
      (.screma width [x, y] [] [] ⟨[a, b], ⟨stms, [.var z]⟩, [row]⟩)

/-- A body with fresh binders. -/
def renamed (body : Body) : Build Body := fun b =>
  let (body, supply) := body.rename b.supply
  (body, { b with supply := supply })

end Build

namespace Reverse

open Diff

def unsupported {α : Type} (s : Stm) : Diff α := throw (.unsupported .reverse s)

/-- The sum of two values of a type. Only scalars and arrays of at least one dimension have sums. -/
def addValues (t : Ty) (x y : Name) : Diff Name :=
  match t with
  | .scalar t => build (Build.sum t false [] x y)
  | .array elem (width :: shape) unique => build (Build.sum elem unique (width :: shape) x y)
  | .array _ [] _ => throw (.accumulator x)
  | .acc .. => throw (.accumulator x)

/-- Adds a contribution to the adjoint of a name. -/
def contribute (x d : Name) : Diff Unit := do
  let adjoint ← match ← companion? x with
    | none => pure d
    | some old => addValues (← typeOf x) old d
  setCompanion x adjoint

/-- Adds a contribution to the adjoint of an operand; a constant has none. -/
def contributeTo (x : Operand) (d : Name) : Diff Unit :=
  match x with
  | .const _ => pure ()
  | .var x => contribute x d

/-- Like `contributeTo`, for a contribution that is still to be computed. -/
def contributeFormula (x : Operand) (f : Formula) : Diff Unit :=
  match x with
  | .const _ => pure ()
  | .var x => do contribute x (← build (Build.letFormula f))

/-- Gives every result the adjoint that stands at its place. -/
def seed (results : List Operand) (adjoints : List Name) : Diff Unit :=
  (results.zip adjoints).forM fun r => contributeTo r.1 r.2

def adjoints (xs : List Name) : Diff (List Operand) :=
  xs.mapM fun x => return .var (← companion x)

/-- Emits the statements, seeds the adjoints, and goes through the statements backwards. -/
def sweep (back : Stm → Diff Unit) (stms : List Stm) (seed : Diff Unit) : Diff Unit := do
  stms.forM fun s => build (Build.add s)
  seed
  stms.reverse.forM back

/-- A comparison contributes its outcome `b`, as a number of the kind `t` of its operands. -/
def comparison (t : ScalarType) (b : Name) (x y : Operand) : Diff Unit := do
  let constant (w : FloatWidth) (v : Float) : Body := ⟨[], [.const (.float w v)]⟩
  let d? ← match t with
    | .float w =>
      some <$> build (Build.letExp (.scalar t)
        (.branch (.var b) (constant w 1.0) (constant w 0.0) [.scalar t] .normal))
    | .int w => some <$> build (Build.letBasic (.scalar t) (.convert (.boolToInt w) (.var b)))
    | .bool => pure (some b)
    | .cert => pure none
  match d? with
  | none => pure ()
  | some d =>
    contributeTo x d
    contributeTo y d

/-- The adjoint of the result, which is zero if nothing reads it, goes on to the operands. -/
def basicOp (rules : Rules) (s : Stm) : BasicOp → Diff Unit
  | .operand (.const _) => pure ()
  | .assert .. => pure ()
  | .compare op x y => do comparison op.ty (← single .reverse s).name x y
  | op => do
    let adjoint ← companion (← single .reverse s).name
    let times (t : ScalarType) (d : Formula) : Formula := (Formula.leaf adjoint t).mul d
    match op with
    | .operand x => contributeTo x adjoint
    | .convert (.floatToFloat source target) x =>
      contributeFormula x
        (.convert (.floatToFloat target source) (.leaf adjoint (.float target)))
    | .convert .. => pure ()
    | .unary op x =>
      contributeFormula x (times op.ty (rules.unary op (.ofOperand op.ty x)))
    | .binary op x y =>
      let (dx, dy) := rules.binary op (.ofOperand op.ty x) (.ofOperand op.ty y)
      contributeFormula x (times op.ty dx)
      contributeFormula y (times op.ty dy)
    | _ => unsupported s

def apply (rules : Rules) (s : Stm) (func : String) (args : List Operand) : Diff Unit := do
  let (kinds, ret) ← signature rules func
  let ds ← partials rules func kinds args
  let adjoint ← companion (← single .reverse s).name
  (args.zip ds).forM fun a => contributeFormula a.1 ((Formula.leaf adjoint ret).mul a.2)

/-- The body that computes one branch again, with the seeds for its results, and returns the
    adjoints of `free`. -/
def branchBody (back : Stm → Diff Unit) (seeds free : List Name) (body : Body) : Diff Body := do
  let body ← build (Build.renamed body)
  isolated (bodyOf (sweep back body.stms (seed body.result seeds)) (adjoints free))

/-- The names that either body reads and does not bind. -/
def freeNames (yes no : Body) : List Name :=
  yes.freeNames ++ no.freeNames.filter (· ∉ yes.freeNames)

/-- A branch becomes a branch on the same condition. It binds the contributions to what its bodies
    read, except for accumulators. -/
def branch (back : Stm → Diff Unit) (s : Stm) (cond : Operand) (yes no : Body)
    (sort : BranchSort) : Diff Unit := do
  let seeds ← s.pat.mapM fun p => companion p.name
  let typed ← (freeNames yes no).mapM fun x => return Param.mk x (← typeOf x)
  let free := typed.filter fun p => !p.ty.isAcc
  if !free.isEmpty then
    let yes ← branchBody back seeds (free.map (·.name)) yes
    let no ← branchBody back seeds (free.map (·.name)) no
    let pat ← free.mapM fun p => return { p with name := ← build Build.fresh }
    build (Build.add ⟨pat, s.aux, .branch cond yes no (free.map (·.ty)) sort⟩)
    (free.zip pat).forM fun p => contribute p.1.name p.2.name

/-- Distributes the adjoints of what a statement binds. At most `depth` branches are nested in it. -/
def stm (rules : Rules) (depth : Nat) (s : Stm) : Diff Unit :=
  match s.exp with
  | .basic op => basicOp rules s op
  | .apply func args _ => apply rules s func args
  | .branch cond yes no _ sort =>
    match depth with
    | 0 => unsupported s
    | depth + 1 => branch (stm rules depth) s cond yes no sort
  | .loop .. => unsupported s
  | .withAcc .. => unsupported s
  | .screma .. => unsupported s
  | .stream .. => unsupported s
  | .hist .. => unsupported s
  | .scatter .. => unsupported s

/-- The transformation of a closed lambda. -/
def top (rules : Rules) (l : Lambda) : Diff Lambda := do
  build (Build.declareParams l.params)
  let seeds ← build (l.ret.mapM Build.param)
  let body ← bodyOf
    (sweep (stm rules l.body.branchDepth) l.body.stms (seed l.body.result (seeds.map (·.name))))
    (adjoints (l.params.map (·.name)))
  return ⟨l.params ++ seeds, body, l.params.map (·.ty)⟩

end Reverse

/-- The parameters are followed by one seed for each result, and the results are the adjoints of the
    parameters. The seed of a constant result is never read. Also the supply after all names that
    were drawn, on success or failure. -/
def Lambda.reverse (rules : Rules) (l : Lambda) (s : Supply) : Except DiffError Lambda × Supply :=
  (Reverse.top rules l).start (s.reserve l)

end Cotangent
