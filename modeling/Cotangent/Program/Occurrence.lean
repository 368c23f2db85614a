import Cotangent.Program.Basic
/-!
Where names occur in a program. The occurrences of a body are listed in binding order: the operands
of a statement come before the names its pattern binds, and parameters come before what they scope
over. A declared type is read right after its name is bound. The free names, the largest name and
renaming all follow this order.
-/
namespace Cotangent

inductive Occurrence where
  | binds (x : Name)
  | reads (x : Name)
  deriving DecidableEq, Repr

def Occurrence.name : Occurrence → Name
  | .binds x => x
  | .reads x => x

abbrev Occurrences := List Occurrence

def Operand.occurrences : Operand → Occurrences
  | .const _ => []
  | .var x => [.reads x]

def operandOccurrences (xs : List Operand) : Occurrences := xs.flatMap Operand.occurrences

def nameOccurrences (xs : List Name) : Occurrences := xs.map .reads

mutual

def Ty.occurrences : Ty → Occurrences
  | .scalar _ => []
  | .array _ shape _ => operandOccurrences shape
  | .acc token shape elems _ =>
    .reads token :: (operandOccurrences shape ++ typeOccurrences elems)

def typeOccurrences : List Ty → Occurrences
  | [] => []
  | t :: ts => t.occurrences ++ typeOccurrences ts

end

def Param.occurrences (p : Param) : Occurrences := .binds p.name :: p.ty.occurrences

def paramOccurrences (ps : List Param) : Occurrences := ps.flatMap Param.occurrences

def DimIndex.occurrences : DimIndex → Occurrences
  | .fix i => i.occurrences
  | .slice start len stride => start.occurrences ++ len.occurrences ++ stride.occurrences

def sliceOccurrences (slice : List DimIndex) : Occurrences := slice.flatMap DimIndex.occurrences

def BasicOp.occurrences : BasicOp → Occurrences
  | .operand x => x.occurrences
  | .arrayLit elems ty => operandOccurrences elems ++ ty.occurrences
  | .unary _ x => x.occurrences
  | .binary _ x y => x.occurrences ++ y.occurrences
  | .compare _ x y => x.occurrences ++ y.occurrences
  | .convert _ x => x.occurrences
  | .index array slice => .reads array :: sliceOccurrences slice
  | .update array slice value => .reads array :: (sliceOccurrences slice ++ value.occurrences)
  | .concat _ first rest width => nameOccurrences (first :: rest) ++ width.occurrences
  | .copy array => [.reads array]
  | .manifest _ array => [.reads array]
  | .reshape shape array => operandOccurrences shape ++ [.reads array]
  | .rearrange _ array => [.reads array]
  | .rotate offsets array => operandOccurrences offsets ++ [.reads array]
  | .iota count start step _ => operandOccurrences [count, start, step]
  | .replicate shape value => operandOccurrences shape ++ value.occurrences
  | .scratch _ shape => operandOccurrences shape
  | .assert cond _ => cond.occurrences
  | .updateAcc acc position values =>
    .reads acc :: (operandOccurrences position ++ operandOccurrences values)

/-- The occurrences of a loop around those of its body. The condition of a while loop is read last,
    since it names a loop parameter. -/
def loopOccurrences (merge : List (Param × Operand)) (form : LoopForm) (body : Occurrences) :
    Occurrences :=
  let inits := operandOccurrences (merge.map (·.2))
  let params := paramOccurrences (merge.map (·.1))
  match form with
  | .whileHolds cond => inits ++ params ++ body ++ [.reads cond]
  | .forBelow counter _ bound arrays =>
    inits ++ bound.occurrences ++ nameOccurrences (arrays.map (·.2)) ++ params ++
      .binds counter :: paramOccurrences (arrays.map (·.1)) ++ body

def ScatterDest.occurrences (d : ScatterDest) : Occurrences :=
  operandOccurrences d.shape ++ [.reads d.array]

mutual

def Exp.occurrences : Exp → Occurrences
  | .basic op => op.occurrences
  | .apply _ args ret => operandOccurrences args ++ typeOccurrences ret
  | .branch cond yes no ret _ =>
    cond.occurrences ++ yes.occurrences ++ no.occurrences ++ typeOccurrences ret
  | .loop merge form body => loopOccurrences merge form body.occurrences
  | .withAcc inputs lam => accInputOccurrences inputs ++ lam.occurrences
  | .screma width arrays scans reduces map =>
    width.occurrences ++ nameOccurrences arrays ++ combinerOccurrences scans ++
      reductionOccurrences reduces ++ map.occurrences
  | .stream width arrays form inits lam =>
    width.occurrences ++ nameOccurrences arrays ++ operandOccurrences inits ++
      form.occurrences ++ lam.occurrences
  | .hist width ops bucket arrays =>
    width.occurrences ++ histogramOccurrences ops ++ bucket.occurrences ++ nameOccurrences arrays
  | .scatter width lam arrays dests =>
    width.occurrences ++ lam.occurrences ++ nameOccurrences arrays ++
      dests.flatMap ScatterDest.occurrences

def Stm.occurrences : Stm → Occurrences
  | ⟨pat, aux, exp⟩ => nameOccurrences aux.certs ++ exp.occurrences ++ paramOccurrences pat

def stmOccurrences : List Stm → Occurrences
  | [] => []
  | s :: ss => s.occurrences ++ stmOccurrences ss

def Body.occurrences : Body → Occurrences
  | ⟨stms, result⟩ => stmOccurrences stms ++ operandOccurrences result

def Lambda.occurrences : Lambda → Occurrences
  | ⟨params, body, ret⟩ => paramOccurrences params ++ body.occurrences ++ typeOccurrences ret

def Combiner.occurrences : Combiner → Occurrences
  | ⟨op, neutral⟩ => operandOccurrences neutral ++ op.occurrences

def combinerOccurrences : List Combiner → Occurrences
  | [] => []
  | c :: cs => c.occurrences ++ combinerOccurrences cs

def reductionOccurrences : List Reduction → Occurrences
  | [] => []
  | ⟨_, c⟩ :: rs => c.occurrences ++ reductionOccurrences rs

def StreamForm.occurrences : StreamForm → Occurrences
  | .sequential => []
  | .parallel _ _ op => op.occurrences

def accInputOccurrences : List AccInput → Occurrences
  | [] => []
  | ⟨shape, arrays, none⟩ :: rest =>
    operandOccurrences shape ++ nameOccurrences arrays ++ accInputOccurrences rest
  | ⟨shape, arrays, some c⟩ :: rest =>
    operandOccurrences shape ++ nameOccurrences arrays ++ c.occurrences ++
      accInputOccurrences rest

def histogramOccurrences : List Histogram → Occurrences
  | [] => []
  | ⟨shape, race, dests, c⟩ :: rest =>
    operandOccurrences shape ++ race.occurrences ++ nameOccurrences dests ++ c.occurrences ++
      histogramOccurrences rest

end

namespace Occurrences

/-- The names read before they are bound, each once, in the order of their first occurrence. `known`
    holds the names bound or listed so far. -/
def freeFrom (known : List Name) : Occurrences → List Name
  | [] => []
  | .binds x :: rest => freeFrom (x :: known) rest
  | .reads x :: rest =>
    if x ∈ known then freeFrom known rest else x :: freeFrom (x :: known) rest

def free (os : Occurrences) : List Name := freeFrom [] os

/-- The binders in order, with repetitions. -/
def binders : Occurrences → List Name
  | [] => []
  | .binds x :: rest => x :: binders rest
  | .reads _ :: rest => binders rest

def larger (x : Name) : Option Name → Name
  | none => x
  | some y => if y.id ≤ x.id then x else y

def largest? : Occurrences → Option Name
  | [] => none
  | o :: rest => some (larger o.name (largest? rest))

end Occurrences

/-- The names that a body reads and does not bind itself, by first occurrence. -/
def Body.freeNames (b : Body) : List Name := b.occurrences.free

def Lambda.largestName? (l : Lambda) : Option Name := l.occurrences.largest?

/-- The supply past every name of the program. -/
def Supply.reserve (s : Supply) (l : Lambda) : Supply := s.skip l.largestName?

/-- The least supply past every name of the program. -/
def Supply.after (l : Lambda) : Supply := Supply.reserve ⟨0⟩ l

end Cotangent
