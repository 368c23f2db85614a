import Cotangent.Name.Table
import Cotangent.Program.Printer
import Cotangent.Formula
/-!
A statement list under construction, with the supply it draws names from and the type of every name
declared or bound so far. The types and the supply are not scoped: what `collect` learns stays known
afterwards, and only the statements are set aside. Nothing checks that a name is bound before it is
read.
-/
namespace Cotangent

structure Builder where
  supply : Supply
  types : NameTable Ty
  stms : List Stm

abbrev Build := StateM Builder

/-- A question for the type of a name that was neither declared nor bound. -/
structure UnknownName where
  name : Name
  deriving DecidableEq, Repr

def UnknownName.message (e : UnknownName) : String := "no type known for " ++ e.name.text

namespace Builder

/-- A builder that has seen nothing yet. -/
def ofSupply (s : Supply) : Builder := ⟨s, .empty, []⟩

def declareIn (b : Builder) (x : Name) (t : Ty) : Builder := { b with types := b.types.insert x t }

/-- The latest type declared for a name. -/
def ty (b : Builder) (x : Name) : Except UnknownName Ty :=
  match b.types.find? x with
  | some t => .ok t
  | none => .error ⟨x⟩

def operandTy (b : Builder) : Operand → Except UnknownName Ty
  | .const v => .ok (.scalar v.ty)
  | .var x => b.ty x

end Builder

namespace Build

def fresh : Build Name := fun b =>
  let (x, supply) := b.supply.fresh
  (x, { b with supply := supply })

def declare (x : Name) (t : Ty) : Build Unit := modify (·.declareIn x t)

def declareParams (ps : List Param) : Build Unit := ps.forM fun p => declare p.name p.ty

/-- A fresh parameter. -/
def param (t : Ty) : Build Param := do
  let x ← fresh
  declare x t
  return ⟨x, t⟩

def add (s : Stm) : Build Unit := do
  declareParams s.pat
  modify fun b => { b with stms := b.stms ++ [s] }

def bind (pat : List Param) (e : Exp) : Build Unit := add ⟨pat, .none, e⟩

/-- Binds an expression of one value to a fresh name. -/
def letExp (t : Ty) (e : Exp) : Build Name := do
  let x ← fresh
  bind [⟨x, t⟩] e
  return x

def letBasic (t : Ty) (op : BasicOp) : Build Name := letExp t (.basic op)

/-- Hands over the statements added so far. -/
def take : Build (List Stm) := fun b => (b.stms, { b with stms := [] })

/-- Puts other statements in place of those added so far, which it returns. -/
def replace (stms : List Stm) : Build (List Stm) := fun b => (b.stms, { b with stms := stms })

/-- Runs a builder action on an empty statement list and returns what it added. -/
def collect {α : Type} (act : Build α) : Build (α × List Stm) := do
  let outer ← take
  let x ← act
  let inner ← replace outer
  return (x, inner)

/-- Closes the statements added so far into a lambda. If a result has no known type, the statements
    stay. -/
def lambda (params : List Param) (result : List Operand) : Build (Except UnknownName Lambda) := do
  match result.mapM (← get).operandTy with
  | .error e => return .error e
  | .ok ret =>
    let stms ← take
    return .ok ⟨params, ⟨stms, result⟩, ret⟩

/-! Formulas become statements bottom up and from left to right; a leaf or a literal is an operand as
it stands. -/

/-- The operand that holds the value of a formula whose outermost operation is `e`. -/
def operandOf (f : Formula) (e : Build Exp) : Build Operand :=
  match f with
  | .leaf x _ => pure (.var x)
  | .lit v => pure (.const v)
  | f => do
    let e ← e
    let x ← letExp (.scalar f.ty) e
    return .var x

mutual

/-- The outermost operation of a formula, after the statements for its operands. -/
def expOf : Formula → Build Exp
  | .leaf x _ => pure (.basic (.operand (.var x)))
  | .lit v => pure (.basic (.operand (.const v)))
  | .unary op a => return .basic (.unary op (← operandOf a (expOf a)))
  | .binary op a b =>
    return .basic (.binary op (← operandOf a (expOf a)) (← operandOf b (expOf b)))
  | .compare op a b =>
    return .basic (.compare op (← operandOf a (expOf a)) (← operandOf b (expOf b)))
  | .convert op a => return .basic (.convert op (← operandOf a (expOf a)))
  | .call func args t => return .apply func (← operandsOf args) [.scalar t]

def operandsOf : List Formula → Build (List Operand)
  | [] => pure []
  | f :: fs => return (← operandOf f (expOf f)) :: (← operandsOf fs)

end

/-- Statements for a formula, and the operand that holds its value. -/
def lower (f : Formula) : Build Operand := operandOf f (expOf f)

/-- Statements for a formula, the last of which binds exactly `p`. -/
def bindFormula (p : Param) (aux : Annotations) (f : Formula) : Build Unit := do
  let e ← expOf f
  add ⟨[p], aux, e⟩

end Build

end Cotangent
