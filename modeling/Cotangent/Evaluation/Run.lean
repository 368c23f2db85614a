import Cotangent.Name.Table
import Cotangent.Evaluation.Algebra
import Cotangent.Value.Array
/-!
Running a lambda on argument values. The store is flat: a name keeps its value when the scope that
bound it has ended, until it is bound again. Running is fuelled, since while loops need not end; a
run that stops for lack of fuel has no result, which is neither a value nor a fault.

Every construct is given by a definition that takes the meaning `run` of bodies, so that `runBody` is
the only one that recurs on the fuel. All of them work over any algebra of scalars.
-/
namespace Cotangent

open ScalarAlgebra

/-- The values of names, and the combining operator of each accumulator made so far, by its id. -/
structure Store (α : Type) where
  vars : NameTable (Value α)
  combiners : List (Option Lambda)

def Store.initial {α : Type} : Store α := ⟨.empty, []⟩

abbrev Run (α : Type) := StateT (Store α) (ExceptT (Fault α) Option)

section

variable {α : Type}

/-- The first `n` of the values and the others. -/
def splitValues (vs : List (Value α)) (n : Nat) :
    Except (Fault α) (List (Value α) × List (Value α)) :=
  if vs.length < n then .error (.arity n vs.length) else .ok (vs.take n, vs.drop n)

/-- Fails unless there are as many values as expected. -/
def checkArity (expected found : Nat) : Except (Fault α) Unit :=
  if found = expected then .ok () else .error (.arity expected found)

/-- A number of rows, which has to be non-negative. -/
def asSize (n : Int) : Except (Fault α) Nat := if n < 0 then .error .shape else .ok n.toNat

/-- Fixed positions read off scalar values. -/
def fixedDims [ScalarAlgebra α] (vs : List (Value α)) : Except (Fault α) (List Dim) :=
  vs.mapM fun v => do return .fix (← asInt (← v.asScalar))

/-- The result of an access, or none if it fell outside an array. -/
def inBounds {β : Type} : Except (Fault α) β → Except (Fault α) (Option β)
  | .ok x => .ok (some x)
  | .error (.outOfBounds _ _) => .ok none
  | .error e => .error e

/-- An array laid out for access in any order, or what was wrong with it. -/
abbrev Table (α : Type) := Except (Fault α) (Array (Value α))

/-- Row `i` of each array. -/
def rowsAt (tables : List (Table α)) (i : Nat) : Except (Fault α) (List (Value α)) :=
  tables.mapM fun t => do pick (← t) i

/-- Arrays of the first, second, … entries of each row. -/
def columns (n : Nat) (rows : List (List (Value α))) : List (Value α) :=
  (List.range n).map fun j => .array (rows.filterMap (·[j]?))

end

namespace Run

section

variable {α β : Type}

def outOfFuel : Run α β := fun _ => none

def lookup (x : Name) : Run α (Value α) := do
  match (← get).vars.find? x with
  | some v => return v
  | none => throw (.unbound x)

def lookups (xs : List Name) : Run α (List (Value α)) := xs.mapM lookup

def set (x : Name) (v : Value α) : Run α Unit :=
  modify fun s => { s with vars := s.vars.insert x v }

/-- Binds names to as many values. -/
def bind (xs : List Name) (vs : List (Value α)) : Run α Unit := do
  checkArity (α := α) xs.length vs.length
  modify fun s => { s with vars := s.vars.insertAll (xs.zip vs) }

/-- Goes through `n` rounds from number `i` on, threading a state. -/
def rounds (step : Nat → β → Run α β) : Nat → Nat → β → Run α β
  | 0, _, b => return b
  | n + 1, i, b => do
    let b ← step i b
    rounds step n (i + 1) b

/-- Repeats `step` as long as `holds`; the fuel bounds the number of repetitions. -/
def repeatWhile (holds : Run α Bool) (step : Run α Unit) : Nat → Run α Unit
  | 0 => outOfFuel
  | fuel + 1 => do
    if ← holds then
      step
      repeatWhile holds step fuel

end

section

variable {α : Type} [ScalarAlgebra α]

def operand : Operand → Run α (Value α)
  | .const v => return .scalar (ofScalar v)
  | .var x => lookup x

def operands (xs : List Operand) : Run α (List (Value α)) := xs.mapM operand

def scalar (x : Operand) : Run α α := do (← operand x).asScalar

def int (x : Operand) : Run α Int := do asInt (← scalar x)

/-- A scalar, which has to be an integer. -/
def number (x : Operand) : Run α α := do
  let v ← scalar x
  let _ ← asInt v
  return v

def size (x : Operand) : Run α Nat := do asSize (α := α) (← int x)

def sizes (xs : List Operand) : Run α (List Nat) := xs.mapM size

def dim : DimIndex → Run α Dim
  | .fix i => return .fix (← int i)
  | .slice start len stride => return .slice (← int start) (← int len) (← int stride)

def dims (ds : List DimIndex) : Run α (List Dim) := ds.mapM dim

variable (run : Body → Run α (List (Value α)))

def applyLambda (l : Lambda) (args : List (Value α)) : Run α (List (Value α)) := do
  bind (l.params.map (·.name)) args
  run l.body

/-- Applies an operator to two groups of values; it has to return as many as are in the first. -/
def combine (l : Lambda) (acc vs : List (Value α)) : Run α (List (Value α)) := do
  let new ← applyLambda run l (acc ++ vs)
  checkArity (α := α) acc.length new.length
  return new

/-- An update outside the arrays changes nothing. -/
def updateAcc (acc : Name) (position values : List Operand) : Run α (Value α) := do
  match ← lookup acc with
  | .acc id arrays =>
    let idx ← operands position
    let ds ← fixedDims idx
    let vs ← operands values
    match ← inBounds (arrays.mapM (Value.index ds)) with
    | none => return .acc id arrays
    | some old =>
      let new ← match ((← get).combiners[id]?).join with
        | some op => applyLambda run op (idx ++ old ++ vs)
        | none => pure vs
      checkArity (α := α) arrays.length new.length
      let arrays ← (arrays.zip new).mapM fun p => Value.update (α := α) ds p.1 p.2
      return .acc id arrays
  | v => throw (.mismatch .accumulator v)

def basicOp : BasicOp → Run α (Value α)
  | .operand x => operand x
  | .arrayLit elems _ => return .array (← operands elems)
  | .unary op x => do return .scalar (← unary op (← scalar x))
  | .binary op x y => do return .scalar (← binary op (← scalar x) (← scalar y))
  | .compare op x y => do
    return .scalar (ofScalar (.bool (← compare op (← scalar x) (← scalar y))))
  | .convert op x => do return .scalar (← convert op (← scalar x))
  | .index array slice => do
    let v ← lookup array
    Value.index (← dims slice) v
  | .update array slice value => do
    let v ← lookup array
    let ds ← dims slice
    Value.update ds v (← operand value)
  | .concat dim first rest _ => do Value.concat dim (← lookups (first :: rest))
  | .copy array => lookup array
  | .manifest _ array => lookup array
  | .reshape shape array => do
    let v ← lookup array
    v.reshape (← sizes shape)
  | .rearrange perm array => do (← lookup array).rearrange perm
  | .rotate offsets array => do
    let offsets ← offsets.mapM int
    Value.rotate offsets (← lookup array)
  | .iota count start step w => do
    let n ← int count
    let first ← number start
    let step ← number step
    return .array ((List.range n.toNat).map fun i => .scalar (member w first step i))
  | .replicate shape value => do
    let shape ← sizes shape
    return Value.replicate shape (← operand value)
  | .scratch elem shape => do
    return Value.replicate (← sizes shape) (.scalar (ofScalar (Scalar.zero elem)))
  | .assert cond msg => do
    if ← asBool (← scalar cond) then return .scalar (ofScalar .cert) else throw (.assertion msg)
  | .updateAcc acc position values => updateAcc run acc position values

/-- One accumulator per input. Its id is the number of accumulators made before it. -/
def openAcc (input : AccInput) : Run α (Value α) := do
  let arrays ← lookups input.arrays
  let id := (← get).combiners.length
  modify fun s => { s with combiners := s.combiners ++ [input.combine.map (·.op)] }
  return .acc id arrays

/-- The arrays of an accumulator at the end of its region. -/
def closeAcc : Value α → Except (Fault α) (List (Value α))
  | .acc _ arrays => .ok arrays
  | v => .error (.mismatch .accumulator v)

def withAcc (inputs : List AccInput) (l : Lambda) : Run α (List (Value α)) := do
  let accs ← inputs.mapM openAcc
  let (accs, rest) ← splitValues (← applyLambda run l accs) inputs.length
  let arrays : List (List (Value α)) ← accs.mapM fun v => closeAcc (α := α) v
  return arrays.flatten ++ rest

/-- Runs a loop body and takes its results as the loop parameters of the next round. -/
def step (params : List Name) (body : Body) : Run α Unit := do bind params (← run body)

/-- Binds the counter and the rows of round `i`, and runs the body. -/
def round (params : List Name) (counter : Name) (w : IntWidth) (rows : List (Name × Table α))
    (body : Body) (i : Nat) (_ : Unit) : Run α Unit := do
  set counter (.scalar (ofScalar (.int w i)))
  rows.forM fun r => do set r.1 (← pick (← r.2) i)
  step run params body

def loop (fuel : Nat) (merge : List (Param × Operand)) (form : LoopForm) (body : Body) :
    Run α (List (Value α)) := do
  let params := merge.map (·.1.name)
  bind params (← operands (merge.map (·.2)))
  match form with
  | .whileHolds cond =>
    repeatWhile (do asBool (← (← lookup cond).asScalar)) (step run params body) fuel
  | .forBelow counter w bound arrays =>
    let tables := (← lookups (arrays.map (·.2))).map Value.table
    let n ← int bound
    rounds (round run params counter w ((arrays.map (·.1.name)).zip tables) body) n.toNat 0 ()
  lookups params

/-- What a fused loop has computed so far: the running values of every scan and reduction, and for
    each row the scanned and the mapped values, with the latest row first. -/
structure Fused (α : Type) where
  scans : List (List (Value α))
  reduces : List (List (Value α))
  scanned : List (List (Value α))
  mapped : List (List (Value α))

/-- Combines each group of running values with as many of the new ones. -/
def combineGroups : List Lambda → List (List (Value α)) → List (Value α) →
    Run α (List (List (Value α)))
  | op :: ops, acc :: accs, vs => do
    let new ← combine run op acc (vs.take acc.length)
    return new :: (← combineGroups ops accs (vs.drop acc.length))
  | _, accs, _ => return accs

def fusedRow (tables : List (Table α)) (scans : List Combiner) (reduces : List Reduction)
    (map : Lambda) (mapCount : Nat) (i : Nat) (s : Fused α) : Run α (Fused α) := do
  let new ← applyLambda run map (← rowsAt tables i)
  let (scanValues, rest) ← splitValues new s.scans.flatten.length
  let (reduceValues, mapValues) ← splitValues rest s.reduces.flatten.length
  let scanAccs ← combineGroups run (scans.map (·.op)) s.scans scanValues
  let reduceAccs ← combineGroups run (reduces.map (·.combiner.op)) s.reduces reduceValues
  checkArity (α := α) mapCount mapValues.length
  return ⟨scanAccs, reduceAccs, scanAccs.flatten :: s.scanned, mapValues :: s.mapped⟩

def screma (width : Operand) (arrays : List Name) (scans : List Combiner)
    (reduces : List Reduction) (map : Lambda) : Run α (List (Value α)) := do
  let n ← size width
  let tables := (← lookups arrays).map Value.table
  let scanAccs ← scans.mapM fun c => operands c.neutral
  let reduceAccs ← reduces.mapM fun r => operands r.combiner.neutral
  let scanCount := scanAccs.flatten.length
  let mapCount := map.ret.length - (scanCount + reduceAccs.flatten.length)
  let s ← rounds (fusedRow run tables scans reduces map mapCount) n 0 ⟨scanAccs, reduceAccs, [], []⟩
  return columns scanCount s.scanned.reverse ++ s.reduces.flatten ++
    columns mapCount s.mapped.reverse

/-- The lambda gets one chunk that spans every row. -/
def stream (width : Operand) (arrays : List Name) (inits : List Operand) (l : Lambda) :
    Run α (List (Value α)) := do
  let n ← int width
  let inits ← operands inits
  applyLambda run l (.scalar (ofScalar (.int .i64 n)) :: inits ++ (← lookups arrays))

/-- The histograms of one row: each takes its part of the indices and of the values. A position
    outside the destinations is skipped. -/
def histRow : List Histogram → List (List (Value α)) → List (Value α) → List (Value α) →
    Run α (List (List (Value α)))
  | h :: hs, dests :: rest, idxs, vs => do
    let ds ← fixedDims (idxs.take h.shape.length)
    let new ← match ← inBounds (dests.mapM (Value.index ds)) with
      | none => pure dests
      | some old => do
        let new ← combine run h.combiner.op old (vs.take dests.length)
        (dests.zip new).mapM fun p => Value.update (α := α) ds p.1 p.2
    return new :: (← histRow hs rest (idxs.drop h.shape.length) (vs.drop dests.length))
  | _, dests, _, _ => return dests

def histRound (ops : List Histogram) (bucket : Lambda) (tables : List (Table α)) (indexCount : Nat)
    (i : Nat) (dests : List (List (Value α))) : Run α (List (List (Value α))) := do
  let (idxs, vs) ← splitValues (← applyLambda run bucket (← rowsAt tables i)) indexCount
  histRow run ops dests idxs vs

def hist (width : Operand) (ops : List Histogram) (bucket : Lambda) (arrays : List Name) :
    Run α (List (Value α)) := do
  let n ← size width
  let tables := (← lookups arrays).map Value.table
  let dests ← ops.mapM fun h => lookups h.dests
  return (← rounds (histRound run ops bucket tables (bucketIndices ops)) n 0 dests).flatten

/-- Writes up to `count` values into one destination; what is left are the unused indices and values.
    A position outside the destination is skipped. -/
def scatterInto (rank : Nat) : Nat → Value α → List (Value α) → List (Value α) →
    Except (Fault α) (Value α × List (Value α) × List (Value α))
  | 0, dest, idxs, vs => .ok (dest, idxs, vs)
  | _ + 1, _, _, [] => .error .shape
  | count + 1, dest, idxs, v :: vs => do
    let ds ← fixedDims (idxs.take rank)
    let new ← inBounds (Value.update ds dest v)
    scatterInto rank count (new.getD dest) (idxs.drop rank) vs

def scatterRow : List ScatterDest → List (Value α) → List (Value α) → List (Value α) →
    Except (Fault α) (List (Value α))
  | d :: ds, dest :: rest, idxs, vs => do
    let (new, idxs, vs) ← scatterInto d.shape.length d.count dest idxs vs
    return new :: (← scatterRow ds rest idxs vs)
  | _, dests, _, _ => .ok dests

def scatterRound (dests : List ScatterDest) (l : Lambda) (tables : List (Table α))
    (indexCount : Nat) (i : Nat) (outs : List (Value α)) : Run α (List (Value α)) := do
  let (idxs, vs) ← splitValues (← applyLambda run l (← rowsAt tables i)) indexCount
  scatterRow dests outs idxs vs

def scatter (width : Operand) (l : Lambda) (arrays : List Name) (dests : List ScatterDest) :
    Run α (List (Value α)) := do
  let n ← size width
  let tables := (← lookups arrays).map Value.table
  let outs ← lookups (dests.map (·.array))
  rounds (scatterRound run dests l tables (scatterIndices dests)) n 0 outs

def exp (fuel : Nat) : Exp → Run α (List (Value α))
  | .basic op => do return [← basicOp run op]
  | .apply func args _ => do return [.scalar (← call func (← args.mapM scalar))]
  | .branch cond yes no _ _ => do if ← asBool (← scalar cond) then run yes else run no
  | .loop merge form body => loop run fuel merge form body
  | .withAcc inputs l => withAcc run inputs l
  | .screma width arrays scans reduces map => screma run width arrays scans reduces map
  | .stream width arrays _ inits l => stream run width arrays inits l
  | .hist width ops bucket arrays => hist run width ops bucket arrays
  | .scatter width l arrays dests => scatter run width l arrays dests

def stm (fuel : Nat) (s : Stm) : Run α Unit := do
  bind (s.pat.map (·.name)) (← exp run fuel s.exp)

end

/-- The results of a body, with fuel for its nesting depth and for each while loop in it. -/
def runBody {α : Type} [ScalarAlgebra α] : Nat → Body → Run α (List (Value α))
  | 0, _ => outOfFuel
  | fuel + 1, b => do
    b.stms.forM (stm (runBody fuel) fuel)
    operands b.result

end Run

/-- The results of a lambda on arguments; none if the fuel runs out. -/
def Lambda.interp {α : Type} [ScalarAlgebra α] (l : Lambda) (args : List (Value α)) (fuel : Nat) :
    Option (Except (Fault α) (List (Value α))) :=
  (Run.applyLambda (Run.runBody fuel) l args).run' Store.initial

end Cotangent
