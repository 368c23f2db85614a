import Cotangent.Builder
import Cotangent.Derivative.Partials
/-!
The state that both differentiation modes work on: a builder for the statements that come out, and
the companion of each name. In forward mode a companion is a tangent; in reverse mode it is the
adjoint accumulated so far. Errors leave the state as it was reached, so the names that a failed
attempt drew stay drawn.
-/
namespace Cotangent

inductive Mode where
  | forward | reverse
  deriving DecidableEq, Repr

def Mode.text : Mode → String
  | .forward => "forward"
  | .reverse => "reverse"

/-- Why a program was not differentiated. -/
inductive DiffError where
  | unsupported (mode : Mode) (s : Stm)
  | missingRule (func : String)
  | pattern (mode : Mode) (expected found : Nat) (s : Stm)
  | accumulator (x : Name)
  | build (e : UnknownName)

def DiffError.message : DiffError → String
  | .unsupported mode s =>
    "unsupported construct for " ++ mode.text ++ " differentiation: " ++ s.text
  | .missingRule func => "no derivative rule for builtin function " ++ func
  | .pattern mode expected found s =>
    mode.text ++ " differentiation expected " ++ toString expected ++
      " pattern elements, found " ++ toString found ++ ": " ++ s.text
  | .accumulator x => x.text ++ " is an accumulator where a value was expected"
  | .build e => e.message

structure DiffState where
  builder : Builder
  companions : NameTable Name

abbrev Diff := ExceptT DiffError (StateM DiffState)

namespace Diff

variable {α : Type}

def build (act : Build α) : Diff α := ExceptT.mk fun s =>
  let (x, b) := act.run s.builder
  (.ok x, { s with builder := b })

def typeOf (x : Name) : Diff Ty := do
  match (← get).builder.ty x with
  | .ok t => return t
  | .error e => throw (.build e)

def companion? (x : Name) : Diff (Option Name) := return (← get).companions.find? x

def setCompanion (x c : Name) : Diff Unit :=
  modify fun s => { s with companions := s.companions.insert x c }

/-- Runs an action and then goes back to the companions from before, also if it failed. -/
def within (act : Diff α) : Diff α := ExceptT.mk fun s =>
  let (r, t) := act.run.run s
  (r, { t with companions := s.companions })

/-- Runs an action that sees no companions, and goes back to those from before. -/
def isolated (act : Diff α) : Diff α :=
  within do
    modify fun s => { s with companions := .empty }
    act

/-- Runs an action on an empty statement list, and returns its result with the statements it added.
    The statements from before are put back, also if it failed. -/
def collect (act : Diff α) : Diff (α × List Stm) := ExceptT.mk fun s =>
  let (r, t) := act.run.run { s with builder := { s.builder with stms := [] } }
  let builder := { t.builder with stms := s.builder.stms }
  (r.map fun x => (x, t.builder.stms), { t with builder := builder })

/-- A body whose results are computed by `result` after its statements. -/
def bodyOf (stms : Diff Unit) (result : Diff (List Operand)) : Diff Body := do
  let (result, stms) ← collect do
    stms
    result
  return ⟨stms, result⟩

/-- The expression of the zero of a type; accumulators have none. -/
def zeroExp : Ty → Option Exp
  | .scalar t => some (.basic (.operand (.const (Scalar.zero t))))
  | .array elem shape _ => some (.basic (.replicate shape (.const (Scalar.zero elem))))
  | .acc .. => none

/-- A fresh name for the zero of the type of `x`. -/
def zeroOf (x : Name) : Diff Name := do
  let t ← typeOf x
  match zeroExp t with
  | some e => build (Build.letExp t e)
  | none => throw (.accumulator x)

/-- An operand for the zero of the type of another. Scalars need no statement. -/
def zeroOperand : Operand → Diff Operand
  | .const v => return .const (Scalar.zero v.ty)
  | .var x => do
    match ← typeOf x with
    | .scalar t => return .const (Scalar.zero t)
    | _ => return .var (← zeroOf x)

/-- The companion of a name; a zero, if nothing has given it one yet. -/
def companion (x : Name) : Diff Name := do
  match ← companion? x with
  | some c => return c
  | none =>
    let c ← zeroOf x
    setCompanion x c
    return c

/-- The element of a pattern that has to bind exactly one name. -/
def single (mode : Mode) (s : Stm) : Diff Param :=
  match s.pat with
  | [p] => return p
  | pat => throw (.pattern mode 1 pat.length s)

/-- A function's signature, without which it has no derivative. -/
def signature (rules : Rules) (func : String) : Diff (List ScalarType × ScalarType) :=
  match rules.signature func with
  | some sig => return sig
  | none => throw (.missingRule func)

/-- The partials of a call at the given operands. -/
def partials (rules : Rules) (func : String) (kinds : List ScalarType) (args : List Operand) :
    Diff (List Formula) :=
  match rules.builtin func ((kinds.zip args).map fun a => Formula.ofOperand a.1 a.2) with
  | some ds => return ds
  | none => throw (.missingRule func)

/-- Runs an action on a fresh state. -/
def start (act : Diff α) (s : Supply) : Except DiffError α × Supply :=
  let (r, t) := act.run.run ⟨.ofSupply s, .empty⟩
  (r, t.builder.supply)

end Diff

end Cotangent
