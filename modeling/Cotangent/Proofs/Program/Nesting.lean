import Cotangent.Proofs.Program.Parts
/-!
What a run of an expression deals with itself: the operands it evaluates, the bodies it enters and the
combining operators it keeps for later. All of them are parts of the expression, so what is asked of
every part of a program is known wherever a run gets to.
-/
namespace Cotangent

def DimIndex.operands : DimIndex → List Operand
  | .fix i => [i]
  | .slice start len stride => [start, len, stride]

/-- The operands that a run evaluates. -/
def BasicOp.operands : BasicOp → List Operand
  | .operand x => [x]
  | .arrayLit elems _ => elems
  | .unary _ x => [x]
  | .binary _ x y => [x, y]
  | .compare _ x y => [x, y]
  | .convert _ x => [x]
  | .index _ slice => slice.flatMap DimIndex.operands
  | .update _ slice value => slice.flatMap DimIndex.operands ++ [value]
  | .concat .. => []
  | .copy _ => []
  | .manifest .. => []
  | .reshape shape _ => shape
  | .rearrange .. => []
  | .rotate offsets _ => offsets
  | .iota count start step _ => [count, start, step]
  | .replicate shape value => shape ++ [value]
  | .scratch _ shape => shape
  | .assert cond _ => [cond]
  | .updateAcc _ position values => position ++ values

def LoopForm.operands : LoopForm → List Operand
  | .whileHolds _ => []
  | .forBelow _ _ bound _ => [bound]

namespace Exp

/-- The operands that a run evaluates before and between its visits to the bodies. -/
def operands : Exp → List Operand
  | .basic op => op.operands
  | .apply _ args _ => args
  | .branch cond _ _ _ _ => [cond]
  | .loop merge form _ => merge.map (·.2) ++ form.operands
  | .withAcc .. => []
  | .screma width _ scans reduces _ =>
    width :: (scans.flatMap (·.neutral) ++ reduces.flatMap (·.combiner.neutral))
  | .stream width _ _ inits _ => width :: inits
  | .hist width _ _ _ => [width]
  | .scatter width _ _ _ => [width]

/-- The bodies that a run may enter. An accumulator region keeps its operators for the updates. -/
def bodies : Exp → List Body
  | .basic _ => []
  | .apply .. => []
  | .branch _ yes no _ _ => [yes, no]
  | .loop _ _ b => [b]
  | .withAcc _ lam => [lam.body]
  | .screma _ _ scans reduces map =>
    map.body :: (scans.map (·.op.body) ++ reduces.map (·.combiner.op.body))
  | .stream _ _ _ _ lam => [lam.body]
  | .hist _ ops bucket _ => bucket.body :: ops.map (·.combiner.op.body)
  | .scatter _ lam _ _ => [lam.body]

/-- The combining operators of an accumulator region. -/
def operators : Exp → List Lambda
  | .withAcc inputs _ => inputs.filterMap fun input => input.combine.map (·.op)
  | _ => []

/-- The expression updates an accumulator itself. -/
def updates : Exp → Bool
  | .basic (.updateAcc ..) => true
  | _ => false

/-- The expression is a loop with a condition. -/
def repeats : Exp → Bool
  | .loop _ (.whileHolds _) _ => true
  | _ => false

end Exp

/-- The operands that a run may evaluate. -/
def Part.operands : Part → List Operand
  | .ty _ => []
  | .stm s => s.exp.operands
  | .body b => b.result

/-- Every operand that a run of the lambda may evaluate, at whatever depth it stands. -/
def Lambda.operands (l : Lambda) : List Operand := l.parts.flatMap Part.operands

def Operand.constant? : Operand → Option Scalar
  | .const v => some v
  | .var _ => none

def Lambda.constants (l : Lambda) : List Scalar := l.operands.filterMap Operand.constant?

/-- The statements of a program, at whatever depth they stand. -/
def Part.stm? : Part → Option Stm
  | .stm s => some s
  | _ => none

def Lambda.statements (l : Lambda) : List Stm := l.parts.filterMap Part.stm?

/-! Parts of parts. -/

theorem stm_mem_parts (s : Stm) : .stm s ∈ s.parts := by
  cases s
  simp [Stm.parts]

theorem Exp.parts_sublist_stm (s : Stm) : s.exp.parts.Sublist s.parts := by
  cases s
  exact (List.sublist_append_right _ _).cons _

theorem parts_sublist_stms {s : Stm} {ss : List Stm} (mem : s ∈ ss) :
    s.parts.Sublist (stmParts ss) := by
  induction ss with
  | nil => simp at mem
  | cons t ss ih =>
    rcases List.mem_cons.mp mem with rfl | mem
    · exact List.sublist_append_left _ _
    · exact (ih mem).trans (List.sublist_append_right _ _)

theorem Body.parts_eq (b : Body) : b.parts = .body b :: stmParts b.stms := by
  cases b
  rfl

theorem Body.parts_sublist_lambda (l : Lambda) : l.body.parts.Sublist l.parts := by
  cases l
  exact (List.sublist_append_right _ _).trans (List.sublist_append_left _ _)

theorem combiner_parts_sublist {c : Combiner} {cs : List Combiner} (mem : c ∈ cs) :
    c.op.parts.Sublist (combinerParts cs) := by
  induction cs with
  | nil => simp at mem
  | cons d cs ih =>
    rcases List.mem_cons.mp mem with rfl | mem
    · cases c
      exact List.sublist_append_left _ _
    · exact (ih mem).trans (List.sublist_append_right _ _)

theorem reduction_parts_sublist {r : Reduction} {rs : List Reduction} (mem : r ∈ rs) :
    r.combiner.op.parts.Sublist (reductionParts rs) := by
  induction rs with
  | nil => simp at mem
  | cons s rs ih =>
    obtain ⟨commutative, op, neutral⟩ := s
    rcases List.mem_cons.mp mem with rfl | mem
    · exact List.sublist_append_left _ _
    · exact (ih mem).trans (List.sublist_append_right _ _)

theorem histogram_parts_sublist {h : Histogram} {hs : List Histogram} (mem : h ∈ hs) :
    h.combiner.op.parts.Sublist (histogramParts hs) := by
  induction hs with
  | nil => simp at mem
  | cons g hs ih =>
    obtain ⟨shape, race, dests, op, neutral⟩ := g
    rcases List.mem_cons.mp mem with rfl | mem
    · exact List.sublist_append_left _ _
    · exact (ih mem).trans (List.sublist_append_right _ _)

theorem accInput_parts_sublist {input : AccInput} {c : Combiner} {inputs : List AccInput}
    (mem : input ∈ inputs) (combines : input.combine = some c) :
    c.op.parts.Sublist (accInputParts inputs) := by
  induction inputs with
  | nil => simp at mem
  | cons other inputs ih =>
    rcases List.mem_cons.mp mem with rfl | later
    · obtain ⟨shape, arrays, combine⟩ := input
      obtain rfl : combine = some c := combines
      cases c
      exact List.sublist_append_left _ _
    · obtain ⟨shape, arrays, combine⟩ := other
      cases combine with
      | none => exact ih later
      | some d => exact (ih later).trans (List.sublist_append_right _ _)

/-- A body that the expression enters is part of it. -/
theorem Exp.parts_of_body {e : Exp} {b : Body} (mem : b ∈ e.bodies) : b.parts.Sublist e.parts := by
  have lambda (l : Lambda) : l.body.parts.Sublist l.parts := Body.parts_sublist_lambda l
  cases e with
  | basic op => simp [bodies] at mem
  | apply func args ret => simp [bodies] at mem
  | branch cond yes no ret sort =>
    simp only [bodies, List.mem_cons, List.not_mem_nil, or_false] at mem
    refine List.Sublist.trans ?_ (List.sublist_append_left _ _)
    rcases mem with rfl | rfl
    · exact List.sublist_append_left _ _
    · exact List.sublist_append_right _ _
  | loop merge form body =>
    obtain rfl : b = body := by simpa [bodies] using mem
    exact List.sublist_append_right _ _
  | withAcc inputs lam =>
    obtain rfl : b = lam.body := by simpa [bodies] using mem
    exact (lambda lam).trans (List.sublist_append_right _ _)
  | screma width arrays scans reduces map =>
    simp only [bodies, List.mem_cons, List.mem_append, List.mem_map] at mem
    rcases mem with rfl | ⟨c, isScan, rfl⟩ | ⟨r, isReduction, rfl⟩
    · exact (lambda map).trans (List.sublist_append_right _ _)
    · refine (lambda c.op).trans ((combiner_parts_sublist isScan).trans ?_)
      exact (List.sublist_append_left _ _).trans (List.sublist_append_left _ _)
    · refine (lambda r.combiner.op).trans ((reduction_parts_sublist isReduction).trans ?_)
      exact (List.sublist_append_right _ _).trans (List.sublist_append_left _ _)
  | stream width arrays form inits lam =>
    obtain rfl : b = lam.body := by simpa [bodies] using mem
    exact (lambda lam).trans (List.sublist_append_right _ _)
  | hist width ops bucket arrays =>
    simp only [bodies, List.mem_cons, List.mem_map] at mem
    rcases mem with rfl | ⟨h, isHistogram, rfl⟩
    · exact (lambda bucket).trans (List.sublist_append_right _ _)
    · refine (lambda h.combiner.op).trans ((histogram_parts_sublist isHistogram).trans ?_)
      exact List.sublist_append_left _ _
  | scatter width lam arrays dests =>
    obtain rfl : b = lam.body := by simpa [bodies] using mem
    exact lambda lam

/-- A combining operator that the expression keeps is part of it. -/
theorem Exp.parts_of_operator {e : Exp} {op : Lambda} (mem : op ∈ e.operators) :
    op.parts.Sublist e.parts := by
  cases e with
  | withAcc inputs lam =>
    simp only [operators, List.mem_filterMap, Option.map_eq_some_iff] at mem
    obtain ⟨input, isInput, c, combines, rfl⟩ := mem
    exact (accInput_parts_sublist isInput combines).trans (List.sublist_append_left _ _)
  | _ => simp [operators] at mem

theorem mem_constants {l : Lambda} {v : Scalar} : v ∈ l.constants ↔ .const v ∈ l.operands := by
  simp only [Lambda.constants, List.mem_filterMap]
  constructor
  · rintro ⟨x, mem, known⟩
    cases x with
    | const w => exact Option.some.inj known ▸ mem
    | var x => cases known
  · exact fun mem => ⟨.const v, mem, rfl⟩

theorem mem_statements {l : Lambda} {s : Stm} : s ∈ l.statements ↔ .stm s ∈ l.parts := by
  simp only [Lambda.statements, List.mem_filterMap]
  constructor
  · rintro ⟨part, mem, known⟩
    cases part with
    | stm t => exact Option.some.inj known ▸ mem
    | _ => cases known
  · exact fun mem => ⟨.stm s, mem, rfl⟩

/-! A body and its statements. -/

section

variable {b : Body} {s : Stm}

theorem Body.parts_of_stm (mem : s ∈ b.stms) : s.parts.Sublist b.parts := by
  rw [b.parts_eq]
  exact (parts_sublist_stms mem).cons _

theorem Body.stm_mem (mem : s ∈ b.stms) : .stm s ∈ b.parts :=
  (parts_of_stm mem).subset (stm_mem_parts s)

theorem Body.parts_of_exp (mem : s ∈ b.stms) : s.exp.parts.Sublist b.parts :=
  (Exp.parts_sublist_stm s).trans (parts_of_stm mem)

/-- What a statement of a body enters is part of the body, and a smaller one. -/
theorem Body.parts_of_entered {inner : Body} (mem : s ∈ b.stms) (entered : inner ∈ s.exp.bodies) :
    inner.parts.Sublist b.parts ∧ inner.parts.length < b.parts.length := by
  have inside : inner.parts.Sublist (stmParts b.stms) :=
    (Exp.parts_of_body entered).trans ((Exp.parts_sublist_stm s).trans (parts_sublist_stms mem))
  rw [b.parts_eq]
  exact ⟨inside.cons _, Nat.lt_succ_of_le inside.length_le⟩

end

end Cotangent
