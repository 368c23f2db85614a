import Cotangent.Name.Table
import Cotangent.Program.Printer
/-!
The scope check. Names are read only where a scope that binds them is open, no name is bound twice
along a chain of open scopes, and every list of results has the length that is declared for it.
Sibling scopes may bind the same name. Names inside declared types are not looked at.

The check goes through a program once and keeps a mark for every name met so far: a name is defined as
long as the scope that binds it is open, and expired afterwards. An expired name may be bound again,
but not read. A stack remembers which names to expire at the end of a scope. An error leaves the marks
as they were reached.
-/
namespace Cotangent

/-- The names that may be read. -/
abbrev Scope := List Name

mutual

/-- What is wrong with a statement. -/
inductive StmError where
  | notInScope (x : Name)
  | rebound (x : Name)
  | pattern (expected found : Nat)
  | branch (expected found : Nat)
  | loop (expected found : Nat)
  | nested (e : ScopeError)

/-- What is wrong with a lambda or a body. -/
inductive ScopeError where
  | param (x : Name)
  | stm (i : Nat) (e : StmError)
  | result (x : Name)
  | resultCount (expected found : Nat)

end

deriving instance DecidableEq, Repr for StmError, ScopeError

mutual

def StmError.message : StmError → String
  | .notInScope x => x.text ++ " is not in scope"
  | .rebound x => x.text ++ " was already bound"
  | .pattern expected found =>
    "pattern binds " ++ toString found ++ " names, but the expression produces " ++
      toString expected ++ " values"
  | .branch expected found =>
    "branch returns " ++ toString found ++ " values, but " ++ toString expected ++
      " are declared"
  | .loop expected found =>
    "loop body returns " ++ toString found ++ " values for " ++ toString expected ++
      " loop parameters"
  | .nested e => "nested body is invalid: " ++ e.message

/-- An error is followed by the one inside it that it was raised for. -/
def ScopeError.message : ScopeError → String
  | .param x => "parameter " ++ x.text ++ " was already bound"
  | .stm i e => "statement " ++ toString i ++ " is invalid: " ++ e.message
  | .result x => "result " ++ x.text ++ " is not in scope"
  | .resultCount expected found =>
    "lambda returns " ++ toString found ++ " values, but " ++ toString expected ++
      " are declared"

end

namespace Scope

def read (scope : Scope) (x : Name) : Except StmError Unit :=
  if x ∈ scope then .ok () else .error (.notInScope x)

def readAll (scope : Scope) (xs : List Name) : Except StmError Unit := xs.forM scope.read

def operand (scope : Scope) : Operand → Except StmError Unit
  | .const _ => .ok ()
  | .var x => scope.read x

def operands (scope : Scope) (xs : List Operand) : Except StmError Unit :=
  xs.forM scope.operand

def dimIndex (scope : Scope) : DimIndex → Except StmError Unit
  | .fix i => scope.operand i
  | .slice start len stride => scope.operands [start, len, stride]

def slice (scope : Scope) (ds : List DimIndex) : Except StmError Unit := ds.forM scope.dimIndex

def basicOp (scope : Scope) : BasicOp → Except StmError Unit
  | .operand x => scope.operand x
  | .arrayLit elems _ => scope.operands elems
  | .unary _ x => scope.operand x
  | .binary _ x y => scope.operands [x, y]
  | .compare _ x y => scope.operands [x, y]
  | .convert _ x => scope.operand x
  | .index array dims => do
    scope.read array
    scope.slice dims
  | .update array dims value => do
    scope.read array
    scope.slice dims
    scope.operand value
  | .concat _ first rest width => do
    scope.readAll (first :: rest)
    scope.operand width
  | .copy array => scope.read array
  | .manifest _ array => scope.read array
  | .reshape shape array => do
    scope.operands shape
    scope.read array
  | .rearrange _ array => scope.read array
  | .rotate offsets array => do
    scope.operands offsets
    scope.read array
  | .iota count start step _ => scope.operands [count, start, step]
  | .replicate shape value => do
    scope.operands shape
    scope.operand value
  | .scratch _ shape => scope.operands shape
  | .assert cond _ => scope.operand cond
  | .updateAcc acc position values => do
    scope.read acc
    scope.operands position
    scope.operands values

/-- A pattern of `found` names for `expected` values. -/
def pattern (expected found : Nat) : Except StmError Unit :=
  if found = expected then .ok () else .error (.pattern expected found)

/-- A nested body with `found` results where `expected` are declared. -/
def branchCount (expected found : Nat) : Except StmError Unit :=
  if found = expected then .ok () else .error (.branch expected found)

def loopCount (expected found : Nat) : Except StmError Unit :=
  if found = expected then .ok () else .error (.loop expected found)

def dest (scope : Scope) (d : ScatterDest) : Except StmError Unit := do
  scope.operands d.shape
  scope.read d.array

def results (scope : Scope) : List Operand → Except ScopeError Unit
  | [] => .ok ()
  | .const _ :: rest => results scope rest
  | .var x :: rest => if x ∈ scope then results scope rest else .error (.result x)

end Scope

inductive Mark where
  | defined | expired
  deriving DecidableEq, Repr

/-- `bound` holds every name that was bound in an open scope, innermost first. -/
structure Marks where
  vars : NameTable Mark
  bound : List Name
  deriving Repr

/-- The names that may be read. -/
def Marks.readable (m : Marks) : Scope :=
  (m.vars.entries.map (·.1)).filter fun x => m.vars.find? x = some .defined

abbrev Check (ε : Type) := ExceptT ε (StateM Marks)

namespace Check

variable {ε δ : Type}

/-- A check that binds nothing. -/
def reading (check : Scope → Except ε Unit) : Check ε Unit := ExceptT.mk fun m => (check m.readable, m)

def bind (x : Name) : Check StmError Unit := ExceptT.mk fun m =>
  if m.vars.find? x = some .defined then (.error (.rebound x), m)
  else (.ok (), ⟨m.vars.insert x .defined, x :: m.bound⟩)

def bindAll (xs : List Name) : Check StmError Unit := xs.forM bind

/-- The marks at the end of a scope that was opened on a stack of `depth` names. -/
def close (depth : Nat) (m : Marks) : Marks :=
  let ended := m.bound.take (m.bound.length - depth)
  ⟨m.vars.insertAll (ended.map fun x => (x, .expired)), m.bound.drop (m.bound.length - depth)⟩

/-- Expires whatever the check has bound, also if it failed. -/
def inScope (check : Check ε Unit) : Check ε Unit := ExceptT.mk fun m =>
  let (r, n) := check.run.run m
  (r, close m.bound.length n)

/-- The check with its error as part of another one. -/
def within (f : ε → δ) (check : Check ε Unit) : Check δ Unit := ExceptT.mk fun m =>
  let (r, n) := check.run.run m
  (r.mapError f, n)

/-- A nested lambda or body. -/
def nested (check : Check ScopeError Unit) : Check StmError Unit := within .nested (inScope check)

def params (ps : List Param) : Check ScopeError Unit :=
  ps.forM fun p => within (fun _ => .param p.name) (bind p.name)

/-- The scope of a loop body: the loop parameters, then the counter and one name per array. -/
def loop (merge : List (Param × Operand)) (form : LoopForm) (body : Check ScopeError Unit) :
    Check StmError Unit := do
  reading (·.operands (merge.map (·.2)))
  match form with
  | .whileHolds cond =>
    inScope do
      bindAll (merge.map (·.1.name))
      reading (·.read cond)
      within .nested body
  | .forBelow counter _ bound arrays =>
    reading (·.operand bound)
    reading (·.readAll (arrays.map (·.2)))
    inScope do
      bindAll (merge.map (·.1.name))
      bind counter
      bindAll (arrays.map (·.1.name))
      within .nested body

mutual

/-- An expression whose statement has a pattern of `arity` names. -/
def exp (arity : Nat) : Exp → Check StmError Unit
  | .basic op => do
    reading (·.basicOp op)
    Scope.pattern 1 arity
  | .apply _ args ret => do
    reading (·.operands args)
    Scope.pattern ret.length arity
  | .branch cond yes no ret _ => do
    reading (·.operand cond)
    nested (body yes)
    Scope.branchCount ret.length yes.result.length
    nested (body no)
    Scope.branchCount ret.length no.result.length
    Scope.pattern ret.length arity
  | .loop merge form b => do
    loop merge form (body b)
    Scope.loopCount merge.length b.result.length
    Scope.pattern merge.length arity
  | .withAcc inputs lam => do
    accInputs inputs
    nested (lambda lam)
  | .screma width arrays scans reduces map => do
    reading (·.operand width)
    reading (·.readAll arrays)
    combiners scans
    reductions reduces
    nested (lambda map)
  | .stream width arrays form inits lam => do
    reading (·.operand width)
    reading (·.readAll arrays)
    reading (·.operands inits)
    streamForm form
    nested (lambda lam)
  | .hist width ops bucket arrays => do
    reading (·.operand width)
    histograms ops
    nested (lambda bucket)
    reading (·.readAll arrays)
  | .scatter width lam arrays dests => do
    reading (·.operand width)
    nested (lambda lam)
    reading (·.readAll arrays)
    reading fun scope => dests.forM scope.dest

def stm : Stm → Check StmError Unit
  | ⟨pat, aux, e⟩ => do
    reading (·.readAll aux.certs)
    exp pat.length e
    bindAll (pat.map (·.name))

/-- Statements of which the first has number `i`. -/
def stms (i : Nat) : List Stm → Check ScopeError Unit
  | [] => pure ()
  | s :: ss => do
    within (.stm i) (stm s)
    stms (i + 1) ss

def body : Body → Check ScopeError Unit
  | ⟨ss, result⟩ => do
    stms 0 ss
    reading (·.results result)

/-- A lambda in the scope that is open. -/
def lambda : Lambda → Check ScopeError Unit
  | ⟨ps, b, ret⟩ => do
    params ps
    body b
    if b.result.length = ret.length then pure ()
    else throw (.resultCount ret.length b.result.length)

def combiner : Combiner → Check StmError Unit
  | ⟨op, neutral⟩ => do
    reading (·.operands neutral)
    nested (lambda op)

def combiners : List Combiner → Check StmError Unit
  | [] => pure ()
  | c :: cs => do
    combiner c
    combiners cs

def reductions : List Reduction → Check StmError Unit
  | [] => pure ()
  | ⟨_, c⟩ :: rs => do
    combiner c
    reductions rs

def streamForm : StreamForm → Check StmError Unit
  | .sequential => pure ()
  | .parallel _ _ op => nested (lambda op)

def accInputs : List AccInput → Check StmError Unit
  | [] => pure ()
  | ⟨shape, arrays, none⟩ :: rest => do
    reading (·.operands shape)
    reading (·.readAll arrays)
    accInputs rest
  | ⟨shape, arrays, some c⟩ :: rest => do
    reading (·.operands shape)
    reading (·.readAll arrays)
    combiner c
    accInputs rest

def histograms : List Histogram → Check StmError Unit
  | [] => pure ()
  | ⟨shape, race, dests, c⟩ :: rest => do
    reading (·.operands shape)
    reading (·.operand race)
    reading (·.readAll dests)
    combiner c
    histograms rest

end

end Check

/-- Checks a closed lambda. -/
def Lambda.validate (l : Lambda) : Except ScopeError Unit :=
  ((Check.lambda l).run.run ⟨.empty, []⟩).1

end Cotangent
