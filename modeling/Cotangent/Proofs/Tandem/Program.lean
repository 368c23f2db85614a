import Mathlib.Tactic.MkIffOfInductiveProp
import Cotangent.Proofs.Program.Rewriting
import Cotangent.Proofs.Tandem.Loops
import Cotangent.Proofs.Tandem.Primitives
import Cotangent.Proofs.Tandem.Scatters
/-!
Programs: the recursion over statements, bodies and lambdas. What is asked of a program is asked of each of
its statements: that the names it binds have their declared types, that no scatter returns more than its
destinations take, and, where tangents are looked at, that those of constants are right.
-/
namespace Cotangent

open Diff Outline

def StreamForm.opens : StreamForm → List Param
  | .sequential => []
  | .parallel _ _ op => op.params

/-- The names that a loop binds, or the lambdas of a combinator. -/
def Exp.opens : Exp → List Param
  | .loop merge form _ => Tandem.loopOpens merge form
  | .screma _ _ scans reduces map =>
    scans.flatMap (·.op.params) ++ reduces.flatMap (·.combiner.op.params) ++ map.params
  | .stream _ _ form _ lam => form.opens ++ lam.params
  | .hist _ ops bucket _ => ops.flatMap (·.combiner.op.params) ++ bucket.params
  | .scatter _ lam _ _ => lam.params
  | _ => []

/-- The lambda of a scatter returns no value that none of the destinations takes. -/
def Exp.Dealt : Exp → Prop
  | .scatter _ lam _ dests => lam.body.result.length ≤ scatterIndices dests + scatterValues dests
  | _ => True

/-- The tangents that are made of constants are right: constants have the types of their operators, and
    neutral operands and initial values do not move. -/
def Exp.Exact : Exp → Prop
  | .basic op => op.Exact
  | .apply .. => False
  | .screma _ _ scans reduces _ =>
    (∀ c ∈ scans, operandNames c.neutral = []) ∧ ∀ r ∈ reduces, operandNames r.combiner.neutral = []
  | .stream _ _ _ inits _ => operandNames inits = []
  | _ => True

/-- The names have their declared types, there are no accumulators, and scatters deal out what they
    return. -/
@[mk_iff]
structure Stm.Ordinary (decl : Name → Ty) (s : Stm) : Prop where
  declared : Tandem.Declared decl (s.pat ++ s.exp.opens)
  free : s.exp.accumulates = false
  dealt : s.exp.Dealt

def Part.Ordinary (decl : Name → Ty) : Part → Prop
  | .ty t => t.isAcc = false
  | .stm s => s.Ordinary decl
  | .body _ => True

def Part.Exact : Part → Prop
  | .stm s => s.exp.Exact
  | _ => True

namespace Tandem

/-- What is asked of each part of a program, in order that what is emitted for it shadows it. -/
def Follows {α : Type} [ScalarAlgebra α] (rules : Rules) (decl : Name → Ty) (f : Dual → α) (part : Part) :
    Prop :=
  part.Ordinary decl ∧ Traces rules f part.Exact

section

variable {α : Type} [ScalarAlgebra α] {f : Dual → α} {bound : Nat} {decl : Name → Ty} {rules : Rules}
  {pat : List Param} {aux : Annotations} {ps qs : List Param}

theorem Declared.first (declared : Declared decl (ps ++ qs)) : Declared decl ps :=
  fun p mem => declared p (List.mem_append_left _ mem)

theorem Declared.second (declared : Declared decl (ps ++ qs)) : Declared decl qs :=
  fun p mem => declared p (List.mem_append_right _ mem)

theorem Declared.inside {β : Type} {xs : List β} {params : β → List Param}
    (declared : Declared decl (xs.flatMap params)) {x : β} (mem : x ∈ xs) : Declared decl (params x) :=
  fun p inParams => declared p (List.mem_flatMap.mpr ⟨x, mem, inParams⟩)

/-- Where tangents are looked at, the code is exact. -/
theorem Traces.fixed {exact : Prop} (traces : Traces rules f exact) {fixed : Prop} (of : exact → fixed) :
    Blind f ∨ fixed :=
  traces.imp (fun plain => plain.blind) fun both => of both.2

theorem transforms_lambda (view : View f) (chunk : List Param) {rest : List Param} {act : Diff Unit}
    {result : Diff (List Operand)} {lay : List (Value Dual) → List Value} {ss : List Stm} {xs : List Operand}
    {ret ret' : List Ty} (declared : Declared decl (chunk ++ rest)) (runs : Runs f bound decl act ss)
    (answers : Answers f bound decl xs result lay) :
    Transforms f bound decl (within do
      build (Build.declareParams (chunk ++ rest))
      let ps ← Forward.bundleBinders rest
      let body ← bodyOf act result
      return ⟨chunk ++ ps, body, ret'⟩) chunk.length lay ⟨chunk ++ rest, ⟨ss, xs⟩, ret⟩ := by
  intro scope still names s l' t serves awaits gives
  obtain ⟨asks, -, applies⟩ := lambda_works view declared runs answers serves awaits gives
  exact ⟨asks, applies⟩

/-- The emitted lambda returns twice as many values. -/
theorem lambda_wide {l l' : Lambda} {s t : DiffState} (plain : ∀ t ∈ l.ret, t.isAcc = false)
    (gives : Gives (Forward.lambda rules l) s l' t) : l'.ret.length = 2 * l.ret.length := by
  obtain ⟨ps, b, ret⟩ := l
  simp only [Forward.lambda, Forward.lambdaOf, gives_within, gives_bind, gives_pure] at gives
  obtain ⟨_, ⟨_, _, -, ps', _, -, b', _, -, rfl, -⟩, -⟩ := gives
  exact Forward.length_bundledTypes plain

mutual

theorem stm_stands (view : View f) (s : Stm) (follows : ∀ part ∈ s.parts, Follows rules decl f part) :
    Stands f bound decl (Forward.stm rules s) s := by
  obtain ⟨pat, aux, e⟩ := s
  simp only [Stm.parts, List.forall_mem_cons, List.forall_mem_append] at follows
  obtain ⟨⟨⟨declared, free, dealt⟩, traces⟩, -, inside⟩ := follows
  have pattern := declared.first
  have opens := declared.second
  cases e with
  | basic op =>
    have ordinary : Stands f bound decl (Forward.basicOp rules ⟨pat, aux, .basic op⟩ op) ⟨pat, aux, .basic op⟩ := by
      cases constant : Forward.isConstant op with
      | true => exact constant_stands view pattern constant
      | false => exact basicOp_stands view pattern constant free traces
    cases op with
    | updateAcc acc position values => exact absurd free (by simp [Exp.accumulates])
    | _ => exact ordinary
  | apply func args ret => exact apply_stands view (traces.resolve_right fun both => both.2) pattern
  | branch cond yes no ret sort =>
    simp only [Exp.parts, List.forall_mem_append] at inside
    exact branch_stands view pattern (body_nested view yes inside.1.1) (body_nested view no inside.1.2)
  | loop merge form b =>
    simp only [Exp.parts, List.forall_mem_append] at inside
    cases form with
    | whileHolds cond => exact while_stands view pattern opens (body_nested view b inside.2)
    | forBelow counter w limit arrays => exact for_stands view pattern opens (body_nested view b inside.2)
  | withAcc inputs lam => exact absurd free (by simp [Exp.accumulates])
  | screma width arrays scans reduces map =>
    simp only [Exp.parts, List.forall_mem_append] at inside
    have plainRet : ∀ t ∈ map.ret, t.isAcc = false := fun t mem => And.left (inside.2 (.ty t) (by
      obtain ⟨ps, b, ret⟩ := map
      exact List.mem_append_right _ (List.mem_map_of_mem mem)))
    exact screma_stands view pattern
      (combiners_gather view scans (fun c => opens.first.first.inside) (fun c mem => traces.fixed fun exact => exact.1 c mem)
        inside.1.1)
      (reductions_gather view reduces (fun r => opens.first.second.inside)
        (fun r mem => traces.fixed fun exact => exact.2 r mem) inside.1.2)
      (lambda_transforms view map opens.second inside.2) fun s l' t gives => lambda_wide plainRet gives
  | stream width arrays form inits lam =>
    obtain ⟨ps, ⟨ss, result⟩, ret⟩ := lam
    simp only [Exp.parts, Lambda.parts, Body.parts, List.forall_mem_append, List.forall_mem_cons] at inside
    have fixed := traces.fixed (fun exact => exact)
    cases ps with
    | nil =>
      refine stream_stands view pattern (fun scope still names s l' t _ _ gives => ?_)
        (streamForm_asks view form opens.first inside.1) fixed
      simp [Forward.streamLambda, Forward.unsupported] at gives
    | cons chunk rest =>
      exact stream_stands view pattern (transforms_lambda view [chunk] opens.second
        (stms_run view ss inside.2.1.2.2) (answers_bundleOperands view result))
        (streamForm_asks view form opens.first inside.1) fixed
  | hist width ops bucket arrays =>
    obtain ⟨ps, ⟨ss, result⟩, ret⟩ := bucket
    simp only [Exp.parts, Lambda.parts, Body.parts, List.forall_mem_append, List.forall_mem_cons] at inside
    exact hist_stands view pattern (histograms_count view ops (fun h => opens.first.inside) inside.1)
      (transforms_lambda view [] opens.second (stms_run view ss inside.2.1.2.2)
        (answers_partly view (bucketIndices ops) result))
  | scatter width lam arrays dests =>
    obtain ⟨ps, ⟨ss, result⟩, ret⟩ := lam
    simp only [Exp.parts, Lambda.parts, Body.parts, List.forall_mem_append, List.forall_mem_cons] at inside
    exact scatter_stands view pattern dealt (transforms_lambda view [] opens (stms_run view ss inside.1.2.2)
      (answers_dealt view (scatterIndices dests) result))

theorem stms_run (view : View f) (ss : List Stm) (follows : ∀ part ∈ stmParts ss, Follows rules decl f part) :
    Runs f bound decl (Forward.stms rules ss) ss := by
  cases ss with
  | nil => exact runs_nil
  | cons s ss =>
    simp only [stmParts, List.forall_mem_append] at follows
    exact runs_cons (stm_stands view s follows.1) (stms_run view ss follows.2)

theorem body_nested (view : View f) (b : Body) (follows : ∀ part ∈ b.parts, Follows rules decl f part) :
    Nested f bound decl (Forward.body rules b) b := by
  obtain ⟨ss, result⟩ := b
  simp only [Body.parts, List.forall_mem_cons] at follows
  exact nested_of_runs view (stms_run view ss follows.2)

theorem lambda_transforms (view : View f) (l : Lambda) (declared : Declared decl l.params)
    (follows : ∀ part ∈ l.parts, Follows rules decl f part) :
    Transforms f bound decl (Forward.lambda rules l) 0 doubled l := by
  obtain ⟨ps, ⟨ss, result⟩, ret⟩ := l
  simp only [Lambda.parts, Body.parts, List.forall_mem_append, List.forall_mem_cons] at follows
  exact transforms_lambda view [] declared (stms_run view ss follows.1.2.2)
    (answers_bundleOperands view result)

theorem combiners_gather (view : View f) (cs : List Combiner) (declared : ∀ c ∈ cs, Declared decl c.op.params)
    (fixed : ∀ c ∈ cs, Blind f ∨ operandNames c.neutral = [])
    (follows : ∀ part ∈ combinerParts cs, Follows rules decl f part) :
    Gathers f bound decl id (Forward.combiners rules cs) cs (combinerOutline cs) := by
  cases cs with
  | nil => exact gathers_nil
  | cons c cs =>
    obtain ⟨op, neutral⟩ := c
    simp only [combinerParts, Combiner.parts, List.forall_mem_append] at follows
    obtain ⟨here, others⟩ := List.forall_mem_cons.mp declared
    obtain ⟨fixed, fixed'⟩ := List.forall_mem_cons.mp fixed
    exact gathers_cons id (fun _ => rfl) view (lambda_transforms view op here follows.1) fixed rfl
      (combiners_gather view cs others fixed' follows.2)

theorem reductions_gather (view : View f) (rs : List Reduction) (declared : ∀ r ∈ rs, Declared decl r.combiner.op.params)
    (fixed : ∀ r ∈ rs, Blind f ∨ operandNames r.combiner.neutral = [])
    (follows : ∀ part ∈ reductionParts rs, Follows rules decl f part) :
    Gathers f bound decl Reduction.combiner (Forward.reductions rules rs) rs (reductionOutline rs) := by
  cases rs with
  | nil => exact gathers_nil
  | cons r rs =>
    obtain ⟨commutative, ⟨op, neutral⟩⟩ := r
    simp only [reductionParts, Combiner.parts, List.forall_mem_append] at follows
    obtain ⟨here, others⟩ := List.forall_mem_cons.mp declared
    obtain ⟨fixed, fixed'⟩ := List.forall_mem_cons.mp fixed
    exact gathers_cons (Reduction.mk commutative) (fun _ => rfl) view
      (lambda_transforms view op here follows.1) fixed rfl (reductions_gather view rs others fixed' follows.2)

theorem streamForm_asks (view : View f) (form : StreamForm) (declared : Declared decl form.opens)
    (follows : ∀ part ∈ form.parts, Follows rules decl f part) (scope still names : List Name) (s : DiffState)
    (form' : StreamForm) (t : DiffState) (serves : Serves bound decl scope still s)
    (awaits : Awaits bound scope s form.outline) (gives : Gives (Forward.streamForm rules form) s form' t) :
    Asks f bound decl scope still form.outline.binders names s t fun _ _ => True := by
  cases form with
  | sequential =>
    obtain ⟨rfl, rfl⟩ := (gives_pure ..).mp gives
    exact .refl serves fun _ _ _ _ _ _ => trivial
  | parallel order commutative op =>
    simp only [Forward.streamForm, gives_bind, gives_pure] at gives
    obtain ⟨op', _, made, rfl, rfl⟩ := gives
    obtain ⟨asks, -⟩ := lambda_transforms view op declared follows scope still names s op' _ serves
      (Awaits.block awaits).1 made
    exact asks.widen (by simp [StreamForm.outline])

theorem histograms_count (view : View f) (hs : List Histogram) (declared : ∀ h ∈ hs, Declared decl h.combiner.op.params)
    (follows : ∀ part ∈ histogramParts hs, Follows rules decl f part) :
    Counts f bound decl (Forward.histograms rules hs) hs := by
  cases hs with
  | nil => exact counts_nil
  | cons h hs =>
    obtain ⟨shape, race, dests, ⟨op, neutral⟩⟩ := h
    simp only [histogramParts, Combiner.parts, List.forall_mem_append] at follows
    obtain ⟨here, others⟩ := List.forall_mem_cons.mp declared
    exact counts_cons view (lambda_transforms view op here follows.1) (histograms_count view hs others follows.2)

end

end

end Tandem

end Cotangent
