import Cotangent.Program.Scope
/-!
The scope check with scopes as lists of names. Each part of a program is handed the names bound in
the scopes that are open around it, and leaving a scope is going back to the list outside.
-/
namespace Cotangent

namespace Scope

def bind (scope : Scope) (x : Name) : Except StmError Scope :=
  if x ∈ scope then .error (.rebound x) else .ok (x :: scope)

def bindAll (scope : Scope) (xs : List Name) : Except StmError Scope := xs.foldlM bind scope

def bindParams (scope : Scope) (ps : List Param) : Except StmError Scope :=
  scope.bindAll (ps.map (·.name))

/-- The scope of a loop body: the loop parameters, then the counter and one name per array. -/
def loopScope (scope : Scope) (merge : List (Param × Operand)) (form : LoopForm) :
    Except StmError Scope := do
  scope.operands (merge.map (·.2))
  match form with
  | .whileHolds cond =>
    let inner ← scope.bindParams (merge.map (·.1))
    inner.read cond
    return inner
  | .forBelow counter _ bound arrays =>
    scope.operand bound
    scope.readAll (arrays.map (·.2))
    let inner ← scope.bindParams (merge.map (·.1))
    let inner ← inner.bind counter
    inner.bindParams (arrays.map (·.1))

/-- A nested body, whose error becomes part of that of its statement. -/
def nested (checked : Except ScopeError Unit) : Except StmError Unit :=
  match checked with
  | .ok () => .ok ()
  | .error e => .error (.nested e)

def params (scope : Scope) : List Param → Except ScopeError Scope
  | [] => .ok scope
  | p :: ps => if p.name ∈ scope then .error (.param p.name) else params (p.name :: scope) ps

mutual

/-- An expression whose statement has a pattern of `arity` names. -/
def exp (scope : Scope) (arity : Nat) : Exp → Except StmError Unit
  | .basic op => do
    scope.basicOp op
    pattern 1 arity
  | .apply _ args ret => do
    scope.operands args
    pattern ret.length arity
  | .branch cond yes no ret _ => do
    scope.operand cond
    nested (body scope yes)
    branchCount ret.length yes.result.length
    nested (body scope no)
    branchCount ret.length no.result.length
    pattern ret.length arity
  | .loop merge form b => do
    let inner ← scope.loopScope merge form
    nested (body inner b)
    loopCount merge.length b.result.length
    pattern merge.length arity
  | .withAcc inputs lam => do
    accInputs scope inputs
    nested (lambda scope lam)
  | .screma width arrays scans reduces map => do
    scope.operand width
    scope.readAll arrays
    combiners scope scans
    reductions scope reduces
    nested (lambda scope map)
  | .stream width arrays form inits lam => do
    scope.operand width
    scope.readAll arrays
    scope.operands inits
    streamForm scope form
    nested (lambda scope lam)
  | .hist width ops bucket arrays => do
    scope.operand width
    histograms scope ops
    nested (lambda scope bucket)
    scope.readAll arrays
  | .scatter width lam arrays dests => do
    scope.operand width
    nested (lambda scope lam)
    scope.readAll arrays
    dests.forM scope.dest

/-- The scope after a statement. -/
def stm (scope : Scope) : Stm → Except StmError Scope
  | ⟨pat, aux, e⟩ => do
    scope.readAll aux.certs
    exp scope pat.length e
    scope.bindParams pat

/-- The scope after statements of which the first has number `i`. -/
def stms (scope : Scope) (i : Nat) : List Stm → Except ScopeError Scope
  | [] => .ok scope
  | s :: ss =>
    match stm scope s with
    | .error e => .error (.stm i e)
    | .ok inner => stms inner (i + 1) ss

def body (scope : Scope) : Body → Except ScopeError Unit
  | ⟨ss, result⟩ => do
    let inner ← stms scope 0 ss
    inner.results result

def lambda (scope : Scope) : Lambda → Except ScopeError Unit
  | ⟨ps, b, ret⟩ => do
    let inner ← scope.params ps
    body inner b
    if b.result.length = ret.length then .ok ()
    else .error (.resultCount ret.length b.result.length)

def combiner (scope : Scope) : Combiner → Except StmError Unit
  | ⟨op, neutral⟩ => do
    scope.operands neutral
    nested (lambda scope op)

def combiners (scope : Scope) : List Combiner → Except StmError Unit
  | [] => .ok ()
  | c :: cs => do
    combiner scope c
    combiners scope cs

def reductions (scope : Scope) : List Reduction → Except StmError Unit
  | [] => .ok ()
  | ⟨_, c⟩ :: rs => do
    combiner scope c
    reductions scope rs

def streamForm (scope : Scope) : StreamForm → Except StmError Unit
  | .sequential => .ok ()
  | .parallel _ _ op => nested (lambda scope op)

def accInputs (scope : Scope) : List AccInput → Except StmError Unit
  | [] => .ok ()
  | ⟨shape, arrays, none⟩ :: rest => do
    scope.operands shape
    scope.readAll arrays
    accInputs scope rest
  | ⟨shape, arrays, some c⟩ :: rest => do
    scope.operands shape
    scope.readAll arrays
    combiner scope c
    accInputs scope rest

def histograms (scope : Scope) : List Histogram → Except StmError Unit
  | [] => .ok ()
  | ⟨shape, race, dests, c⟩ :: rest => do
    scope.operands shape
    scope.operand race
    scope.readAll dests
    combiner scope c
    histograms scope rest

end

end Scope

end Cotangent
