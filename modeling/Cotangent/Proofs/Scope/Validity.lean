import Cotangent.Proofs.Outcome
import Cotangent.Proofs.Scope.Marks
import Cotangent.Proofs.Scope.Outline
/-!
Outlines of programs. The outline of a lambda has the occurrences of the lambda, and the scope check
accepts the lambda exactly if its outline is accepted.
-/
namespace Cotangent

open Outline

def Operand.names : Operand → List Name
  | .const _ => []
  | .var x => [x]

def operandNames (xs : List Operand) : List Name := xs.flatMap Operand.names

mutual

def Ty.names : Ty → List Name
  | .scalar _ => []
  | .array _ shape _ => operandNames shape
  | .acc token shape elems _ => token :: (operandNames shape ++ typeNames elems)

def typeNames : List Ty → List Name
  | [] => []
  | t :: ts => t.names ++ typeNames ts

end

theorem mem_typeNames (ts : List Ty) (x : Name) : x ∈ typeNames ts ↔ ∃ t ∈ ts, x ∈ t.names := by
  induction ts with
  | nil => simp [typeNames]
  | cons t ts ih => simp [typeNames, ih]

def DimIndex.names : DimIndex → List Name
  | .fix i => i.names
  | .slice start len stride => operandNames [start, len, stride]

/-- The names that an operation reads, those of type annotations apart. -/
def BasicOp.names : BasicOp → List Name
  | .operand x => x.names
  | .arrayLit elems _ => operandNames elems
  | .unary _ x => x.names
  | .binary _ x y => operandNames [x, y]
  | .compare _ x y => operandNames [x, y]
  | .convert _ x => x.names
  | .index array slice => array :: slice.flatMap DimIndex.names
  | .update array slice value => array :: (slice.flatMap DimIndex.names ++ value.names)
  | .concat _ first rest width => first :: rest ++ width.names
  | .copy array => [array]
  | .manifest _ array => [array]
  | .reshape shape array => operandNames shape ++ [array]
  | .rearrange _ array => [array]
  | .rotate offsets array => operandNames offsets ++ [array]
  | .iota n start step _ => operandNames [n, start, step]
  | .replicate shape value => operandNames shape ++ value.names
  | .scratch _ shape => operandNames shape
  | .assert cond _ => cond.names
  | .updateAcc acc position values => acc :: (operandNames position ++ operandNames values)

def BasicOp.typeNames : BasicOp → List Name
  | .arrayLit _ ty => ty.names
  | _ => []

def BasicOp.outline (op : BasicOp) : Outline := readsAll op.names ++ mentionsAll op.typeNames

def Param.outline (p : Param) : Outline := binds p.name (mentionsAll p.ty.names)

def paramOutline : List Param → Outline
  | [] => done
  | p :: ps => p.outline ++ paramOutline ps

theorem paramOutline_append (ps qs : List Param) :
    paramOutline (ps ++ qs) = paramOutline ps ++ paramOutline qs := by
  induction ps with
  | nil => rfl
  | cons p ps ih => simp [paramOutline, ih, append_assoc]

/-- The names of an outline of parameters that a scope gains. -/
theorem mem_after_paramOutline (ps : List Param) (scope : Scope) (x : Name) :
    x ∈ (paramOutline ps).after scope ↔ x ∈ scope ∨ ∃ p ∈ ps, p.name = x := by
  induction ps generalizing scope with
  | nil => simp [paramOutline]
  | cons p ps ih =>
    simp only [paramOutline, Param.outline, after_append, after, after_mentionsAll, ih,
      List.mem_cons, exists_eq_or_imp]
    rw [eq_comm (a := x), or_comm (a := p.name = x), or_assoc]

theorem mem_binders_paramOutline (ps : List Param) (x : Name) :
    x ∈ (paramOutline ps).binders ↔ ∃ p ∈ ps, p.name = x := by
  induction ps with
  | nil => simp [paramOutline]
  | cons p ps ih => simp [paramOutline, Param.outline, ih, eq_comm]

/-- A loop around the outline of its body. The body stands in a block of its own, so that the
    condition of a while loop can only be a loop parameter or come from outside. -/
def loopOutline (merge : List (Param × Operand)) (form : LoopForm) (body : Outline) : Outline :=
  let inits := readsAll (operandNames (merge.map (·.2)))
  let params := paramOutline (merge.map (·.1))
  match form with
  | .whileHolds cond => inits ++ block (params ++ block body (reads cond done)) done
  | .forBelow counter _ bound arrays =>
    inits ++ readsAll (bound.names ++ arrays.map (·.2)) ++
      block (params ++ binds counter (paramOutline (arrays.map (·.1))) ++ block body done) done

def ScatterDest.names (d : ScatterDest) : List Name := operandNames d.shape ++ [d.array]

mutual

/-- The expression of a statement whose pattern has `arity` names. -/
def Exp.outline (arity : Nat) : Exp → Outline
  | .basic op => op.outline ++ count 1 arity done
  | .apply _ args ret =>
    readsAll (operandNames args) ++ mentionsAll (typeNames ret) ++ count ret.length arity done
  | .branch cond yes no ret _ =>
    readsAll cond.names ++ block yes.outline (count ret.length yes.result.length done) ++
      block no.outline (count ret.length no.result.length done) ++ mentionsAll (typeNames ret) ++
      count ret.length arity done
  | .loop merge form b =>
    loopOutline merge form b.outline ++ count merge.length b.result.length done ++
      count merge.length arity done
  | .withAcc inputs lam => accInputOutline inputs ++ block lam.outline done
  | .screma width arrays scans reduces map =>
    readsAll (width.names ++ arrays) ++ combinerOutline scans ++ reductionOutline reduces ++
      block map.outline done
  | .stream width arrays form inits lam =>
    readsAll (width.names ++ arrays ++ operandNames inits) ++ form.outline ++
      block lam.outline done
  | .hist width ops bucket arrays =>
    readsAll width.names ++ histogramOutline ops ++ block bucket.outline (readsAll arrays)
  | .scatter width lam arrays dests =>
    readsAll width.names ++
      block lam.outline (readsAll (arrays ++ dests.flatMap ScatterDest.names))

def Stm.outline : Stm → Outline
  | ⟨pat, aux, exp⟩ => readsAll aux.certs ++ exp.outline pat.length ++ paramOutline pat

def stmOutline : List Stm → Outline
  | [] => done
  | s :: ss => s.outline ++ stmOutline ss

def Body.outline : Body → Outline
  | ⟨stms, result⟩ => stmOutline stms ++ readsAll (operandNames result)

def Lambda.outline : Lambda → Outline
  | ⟨params, body, ret⟩ =>
    paramOutline params ++ body.outline ++ mentionsAll (typeNames ret) ++
      count ret.length body.result.length done

def Combiner.outline : Combiner → Outline
  | ⟨op, neutral⟩ => readsAll (operandNames neutral) ++ block op.outline done

def combinerOutline : List Combiner → Outline
  | [] => done
  | c :: cs => c.outline ++ combinerOutline cs

def reductionOutline : List Reduction → Outline
  | [] => done
  | ⟨_, c⟩ :: rs => c.outline ++ reductionOutline rs

def StreamForm.outline : StreamForm → Outline
  | .sequential => done
  | .parallel _ _ op => block op.outline done

def accInputOutline : List AccInput → Outline
  | [] => done
  | ⟨shape, arrays, none⟩ :: rest =>
    readsAll (operandNames shape ++ arrays) ++ accInputOutline rest
  | ⟨shape, arrays, some c⟩ :: rest =>
    readsAll (operandNames shape ++ arrays) ++ c.outline ++ accInputOutline rest

def histogramOutline : List Histogram → Outline
  | [] => done
  | ⟨shape, race, dests, c⟩ :: rest =>
    readsAll (operandNames shape ++ race.names ++ dests) ++ c.outline ++ histogramOutline rest

end

theorem body_outline (b : Body) :
    b.outline = stmOutline b.stms ++ readsAll (operandNames b.result) := by
  cases b
  rfl

theorem accepted_lambda (l : Lambda) (scope : Scope) :
    l.outline.Accepted scope ↔
      (paramOutline l.params).Accepted scope ∧
        l.body.outline.Accepted ((paramOutline l.params).after scope) ∧
        l.body.result.length = l.ret.length := by
  obtain ⟨ps, b, ret⟩ := l
  simp [Lambda.outline, Accepted, and_assoc]

theorem closed_lambda (l : Lambda) (scope : Scope) :
    l.outline.Closed scope ↔
      (paramOutline l.params).Closed scope ∧
        l.body.outline.Closed ((paramOutline l.params).after scope) ∧
        (∀ x ∈ typeNames l.ret, x ∈ l.body.outline.after ((paramOutline l.params).after scope)) ∧
        l.body.result.length = l.ret.length := by
  obtain ⟨ps, b, ret⟩ := l
  simp [Lambda.outline, and_assoc]

/-- Every name of a type annotation is in scope where the annotation stands: bound earlier, or
    earlier in the same list of binders. -/
def Lambda.TypesInScope (l : Lambda) : Prop := l.outline.TypesIn []

instance (l : Lambda) : Decidable l.TypesInScope := inferInstanceAs (Decidable (l.outline.TypesIn []))

/-- Every name of a type annotation is bound somewhere to the left of the annotation. -/
def Lambda.TypesBound (l : Lambda) : Prop := l.outline.TypesBound []

instance (l : Lambda) : Decidable l.TypesBound := inferInstanceAs (Decidable (l.outline.TypesBound []))

/-! The occurrences of an outline. -/

theorem operand_occurrences (x : Operand) : x.occurrences = x.names.map .reads := by
  cases x <;> rfl

theorem operandOccurrences_eq (xs : List Operand) :
    operandOccurrences xs = (operandNames xs).map .reads := by
  simp [operandOccurrences, operandNames, List.map_flatMap, funext operand_occurrences]

mutual

theorem ty_occurrences (t : Ty) : t.occurrences = t.names.map .reads := by
  cases t with
  | scalar t => rfl
  | array elem shape unique => simp [Ty.occurrences, Ty.names, operandOccurrences_eq]
  | acc token shape elems unique =>
    simp [Ty.occurrences, Ty.names, operandOccurrences_eq, typeOccurrences_eq elems]

theorem typeOccurrences_eq (ts : List Ty) :
    typeOccurrences ts = (typeNames ts).map .reads := by
  cases ts with
  | nil => rfl
  | cons t ts => simp [typeOccurrences, typeNames, ty_occurrences t, typeOccurrences_eq ts]

end

theorem dimIndex_occurrences (d : DimIndex) : d.occurrences = d.names.map .reads := by
  cases d <;> simp [DimIndex.occurrences, DimIndex.names, operandNames, operand_occurrences]

theorem sliceOccurrences_eq (slice : List DimIndex) :
    sliceOccurrences slice = (slice.flatMap DimIndex.names).map .reads := by
  simp [sliceOccurrences, List.map_flatMap, funext dimIndex_occurrences]

theorem occurrences_basicOp (op : BasicOp) : op.outline.occurrences = op.occurrences := by
  cases op <;>
    simp [BasicOp.outline, BasicOp.names, BasicOp.typeNames, BasicOp.occurrences, operandNames,
      operandOccurrences_eq, operand_occurrences, sliceOccurrences_eq, ty_occurrences,
      nameOccurrences]

theorem occurrences_param (p : Param) : p.outline.occurrences = p.occurrences := by
  simp [Param.outline, Param.occurrences, ty_occurrences]

theorem occurrences_paramOutline (ps : List Param) :
    (paramOutline ps).occurrences = paramOccurrences ps := by
  induction ps with
  | nil => rfl
  | cons p ps ih =>
    rw [paramOutline, occurrences_append, occurrences_param, ih, paramOccurrences,
      paramOccurrences, List.flatMap_cons]

theorem occurrences_loopOutline (merge : List (Param × Operand)) (form : LoopForm)
    (body : Outline) :
    (loopOutline merge form body).occurrences =
      loopOccurrences merge form body.occurrences := by
  cases form <;>
    simp [loopOutline, loopOccurrences, occurrences_paramOutline,
      operandOccurrences_eq, operand_occurrences, nameOccurrences]

theorem scatterDest_occurrences (d : ScatterDest) : d.occurrences = d.names.map .reads := by
  simp [ScatterDest.occurrences, ScatterDest.names, operandOccurrences_eq]

mutual

theorem occurrences_exp (arity : Nat) (e : Exp) :
    (e.outline arity).occurrences = e.occurrences := by
  cases e with
  | basic op => simp [Exp.outline, Exp.occurrences, occurrences_basicOp]
  | apply func args ret =>
    simp [Exp.outline, Exp.occurrences, operandOccurrences_eq,
      typeOccurrences_eq]
  | branch cond yes no ret sort =>
    simp [Exp.outline, Exp.occurrences, operand_occurrences,
      typeOccurrences_eq, occurrences_body yes, occurrences_body no]
  | loop merge form b =>
    simp [Exp.outline, Exp.occurrences, occurrences_loopOutline,
      occurrences_body b]
  | withAcc inputs lam =>
    simp [Exp.outline, Exp.occurrences, occurrences_accInputs inputs,
      occurrences_lambda lam]
  | screma width arrays scans reduces map =>
    simp [Exp.outline, Exp.occurrences, operand_occurrences,
      nameOccurrences, occurrences_combiners scans, occurrences_reductions reduces,
      occurrences_lambda map]
  | stream width arrays form inits lam =>
    simp [Exp.outline, Exp.occurrences, operand_occurrences,
      nameOccurrences, operandOccurrences_eq, occurrences_streamForm form, occurrences_lambda lam]
  | hist width ops bucket arrays =>
    simp [Exp.outline, Exp.occurrences, operand_occurrences,
      nameOccurrences, occurrences_histograms ops, occurrences_lambda bucket]
  | scatter width lam arrays dests =>
    simp [Exp.outline, Exp.occurrences, operand_occurrences,
      nameOccurrences, occurrences_lambda lam, funext scatterDest_occurrences, List.map_flatMap]

theorem occurrences_stm (s : Stm) : s.outline.occurrences = s.occurrences := by
  obtain ⟨pat, aux, e⟩ := s
  simp [Stm.outline, Stm.occurrences, nameOccurrences, occurrences_exp pat.length e,
    occurrences_paramOutline]

theorem occurrences_stms (ss : List Stm) :
    (stmOutline ss).occurrences = stmOccurrences ss := by
  cases ss with
  | nil => rfl
  | cons s ss => simp [stmOutline, stmOccurrences, occurrences_stm s, occurrences_stms ss]

theorem occurrences_body (b : Body) : b.outline.occurrences = b.occurrences := by
  obtain ⟨ss, result⟩ := b
  simp [Body.outline, Body.occurrences, operandOccurrences_eq, occurrences_stms ss]

theorem occurrences_lambda (l : Lambda) : l.outline.occurrences = l.occurrences := by
  obtain ⟨ps, b, ret⟩ := l
  simp [Lambda.outline, Lambda.occurrences, occurrences_paramOutline,
    occurrences_body b, typeOccurrences_eq]

theorem occurrences_combiner (c : Combiner) : c.outline.occurrences = c.occurrences := by
  obtain ⟨op, neutral⟩ := c
  simp [Combiner.outline, Combiner.occurrences, operandOccurrences_eq,
    occurrences_lambda op]

theorem occurrences_combiners (cs : List Combiner) :
    (combinerOutline cs).occurrences = combinerOccurrences cs := by
  cases cs with
  | nil => rfl
  | cons c cs =>
    simp [combinerOutline, combinerOccurrences, occurrences_combiner c, occurrences_combiners cs]

theorem occurrences_reductions (rs : List Reduction) :
    (reductionOutline rs).occurrences = reductionOccurrences rs := by
  cases rs with
  | nil => rfl
  | cons r rs =>
    obtain ⟨commutative, c⟩ := r
    simp [reductionOutline, reductionOccurrences, occurrences_combiner c,
      occurrences_reductions rs]

theorem occurrences_streamForm (form : StreamForm) :
    form.outline.occurrences = form.occurrences := by
  cases form with
  | sequential => rfl
  | parallel order commutative op =>
    simp [StreamForm.outline, StreamForm.occurrences, occurrences_lambda op]

theorem occurrences_accInputs (inputs : List AccInput) :
    (accInputOutline inputs).occurrences = accInputOccurrences inputs := by
  cases inputs with
  | nil => rfl
  | cons input rest =>
    obtain ⟨shape, arrays, combine⟩ := input
    cases combine with
    | none =>
      simp [accInputOutline, accInputOccurrences, operandOccurrences_eq, nameOccurrences,
        occurrences_accInputs rest]
    | some c =>
      simp [accInputOutline, accInputOccurrences, operandOccurrences_eq, nameOccurrences,
        occurrences_combiner c, occurrences_accInputs rest]

theorem occurrences_histograms (hs : List Histogram) :
    (histogramOutline hs).occurrences = histogramOccurrences hs := by
  cases hs with
  | nil => rfl
  | cons h rest =>
    obtain ⟨shape, race, dests, c⟩ := h
    simp [histogramOutline, histogramOccurrences, operandOccurrences_eq, operand_occurrences,
      nameOccurrences, occurrences_combiner c, occurrences_histograms rest]

end

/-! The scope check against the outline. -/

namespace Scope

theorem read_ok (scope : Scope) (x : Name) : scope.read x = .ok () ↔ x ∈ scope := by
  simp only [read]
  split <;> simp_all

theorem readAll_ok (scope : Scope) (xs : List Name) :
    scope.readAll xs = .ok () ↔ ∀ x ∈ xs, x ∈ scope := by
  simp only [readAll, except_forM_ok, read_ok]

theorem operand_ok (scope : Scope) (x : Operand) :
    scope.operand x = .ok () ↔ ∀ y ∈ x.names, y ∈ scope := by
  cases x <;> simp [operand, Operand.names, read_ok]

theorem operands_ok (scope : Scope) (xs : List Operand) :
    scope.operands xs = .ok () ↔ ∀ y ∈ operandNames xs, y ∈ scope := by
  simp only [operands, except_forM_ok, operand_ok, operandNames, List.mem_flatMap]
  constructor
  · rintro all y ⟨x, mem, inX⟩
    exact all x mem y inX
  · exact fun all x mem y inX => all y ⟨x, mem, inX⟩

theorem dimIndex_ok (scope : Scope) (d : DimIndex) :
    scope.dimIndex d = .ok () ↔ ∀ y ∈ d.names, y ∈ scope := by
  cases d with
  | fix i => exact operand_ok scope i
  | slice start len stride => exact operands_ok scope [start, len, stride]

theorem slice_ok (scope : Scope) (ds : List DimIndex) :
    scope.slice ds = .ok () ↔ ∀ y ∈ ds.flatMap DimIndex.names, y ∈ scope := by
  simp only [slice, except_forM_ok, dimIndex_ok, List.mem_flatMap]
  constructor
  · rintro all y ⟨x, mem, inX⟩
    exact all x mem y inX
  · exact fun all x mem y inX => all y ⟨x, mem, inX⟩

theorem basicOp_ok (scope : Scope) (op : BasicOp) :
    scope.basicOp op = .ok () ↔ ∀ y ∈ op.names, y ∈ scope := by
  cases op <;>
    simp [basicOp, BasicOp.names, read_ok, readAll_ok, operand_ok, operands_ok, slice_ok,
      or_imp, forall_and, and_assoc]

theorem pattern_ok (expected found : Nat) : pattern expected found = .ok () ↔ found = expected := by
  simp only [pattern]
  split <;> simp_all

theorem branchCount_ok (expected found : Nat) :
    branchCount expected found = .ok () ↔ found = expected := by
  simp only [branchCount]
  split <;> simp_all

theorem loopCount_ok (expected found : Nat) :
    loopCount expected found = .ok () ↔ found = expected := by
  simp only [loopCount]
  split <;> simp_all

theorem nested_ok (checked : Except ScopeError Unit) :
    nested checked = .ok () ↔ checked = .ok () := by
  cases checked <;> simp [nested]

theorem bind_ok (scope inner : Scope) (x : Name) :
    scope.bind x = .ok inner ↔ x ∉ scope ∧ x :: scope = inner := by
  simp only [Scope.bind]
  split <;> simp_all

theorem bindParams_ok (scope inner : Scope) (ps : List Param) :
    scope.bindParams ps = .ok inner ↔
      (paramOutline ps).Accepted scope ∧ (paramOutline ps).after scope = inner := by
  induction ps generalizing scope with
  | nil => simp [bindParams, bindAll, paramOutline, Accepted]
  | cons p ps ih =>
    simp only [bindParams, bindAll] at ih
    simp [bindParams, bindAll, paramOutline, Param.outline, Accepted, bind_ok, ih, and_assoc]

theorem params_ok (scope inner : Scope) (ps : List Param) :
    scope.params ps = .ok inner ↔
      (paramOutline ps).Accepted scope ∧ (paramOutline ps).after scope = inner := by
  induction ps generalizing scope with
  | nil => simp [params, paramOutline, Accepted]
  | cons p ps ih =>
    simp only [params, paramOutline, Param.outline]
    split
    · rename_i bound
      simp [Accepted, bound]
    · rename_i unbound
      simp [Accepted, unbound, ih]

theorem results_ok (scope : Scope) (xs : List Operand) :
    scope.results xs = .ok () ↔ ∀ y ∈ operandNames xs, y ∈ scope := by
  fun_induction results scope xs <;> simp_all [operandNames, Operand.names]

theorem dest_ok (scope : Scope) (d : ScatterDest) :
    scope.dest d = .ok () ↔ ∀ y ∈ d.names, y ∈ scope := by
  simp [dest, ScatterDest.names, operands_ok, read_ok, or_imp, forall_and]

theorem dests_ok (scope : Scope) (ds : List ScatterDest) :
    ds.forM scope.dest = .ok () ↔ ∀ y ∈ ds.flatMap ScatterDest.names, y ∈ scope := by
  simp only [except_forM_ok, dest_ok, List.mem_flatMap]
  constructor
  · rintro all y ⟨x, mem, inX⟩
    exact all x mem y inX
  · exact fun all x mem y inX => all y ⟨x, mem, inX⟩

theorem after_combiner (c : Combiner) (scope : Scope) : c.outline.after scope = scope := by
  obtain ⟨op, neutral⟩ := c
  simp [Combiner.outline]

theorem after_combinerOutline (cs : List Combiner) (scope : Scope) :
    (combinerOutline cs).after scope = scope := by
  induction cs with
  | nil => rfl
  | cons c cs ih => simp [combinerOutline, after_combiner, ih]

theorem after_reductionOutline (rs : List Reduction) (scope : Scope) :
    (reductionOutline rs).after scope = scope := by
  induction rs with
  | nil => rfl
  | cons r rs ih =>
    obtain ⟨commutative, c⟩ := r
    simp [reductionOutline, after_combiner, ih]

theorem after_streamForm (form : StreamForm) (scope : Scope) :
    form.outline.after scope = scope := by
  cases form <;> simp [StreamForm.outline]

theorem after_accInputOutline (inputs : List AccInput) (scope : Scope) :
    (accInputOutline inputs).after scope = scope := by
  induction inputs with
  | nil => rfl
  | cons input inputs ih =>
    obtain ⟨shape, arrays, combine⟩ := input
    cases combine <;> simp [accInputOutline, after_combiner, ih]

theorem after_histogramOutline (hs : List Histogram) (scope : Scope) :
    (histogramOutline hs).after scope = scope := by
  induction hs with
  | nil => rfl
  | cons h hs ih =>
    obtain ⟨shape, race, dests, c⟩ := h
    simp [histogramOutline, after_combiner, ih]

/-- An expression binds names only in scopes of its own. -/
theorem after_exp (arity : Nat) (e : Exp) (scope : Scope) :
    (e.outline arity).after scope = scope := by
  cases e with
  | loop merge form b => cases form <;> simp [Exp.outline, loopOutline]
  | _ =>
    simp [Exp.outline, BasicOp.outline, after_combinerOutline, after_reductionOutline,
      after_streamForm, after_accInputOutline, after_histogramOutline]

theorem loop_ok (scope : Scope) (merge : List (Param × Operand)) (form : LoopForm) (b : Body)
    (body : ∀ inner, Scope.body inner b = .ok () ↔ b.outline.Accepted inner) :
    (∃ inner, scope.loopScope merge form = .ok inner ∧ Scope.body inner b = .ok ()) ↔
      (loopOutline merge form b.outline).Accepted scope := by
  cases form with
  | whileHolds cond =>
    simp only [loopScope, except_bind_ok, except_pure_ok, exists_unit, operands_ok, bindParams_ok,
      read_ok, loopOutline, accepted_append, accepted_readsAll, after_readsAll, Accepted, body]
    constructor
    · rintro ⟨inner, ⟨inits, _, ⟨params, rfl⟩, known, rfl⟩, inside⟩
      exact ⟨inits, ⟨params, inside, known, trivial⟩, trivial⟩
    · rintro ⟨inits, ⟨params, inside, known, -⟩, -⟩
      exact ⟨_, ⟨inits, _, ⟨params, rfl⟩, known, rfl⟩, inside⟩
  | forBelow counter w bound arrays =>
    simp only [loopScope, except_bind_ok, exists_unit, operands_ok, operand_ok, readAll_ok,
      bindParams_ok, bind_ok, loopOutline, accepted_append, accepted_readsAll, after_readsAll,
      after_append, List.forall_mem_append, Accepted, after, body]
    constructor
    · rintro ⟨inner, ⟨inits, bound, sources, _, ⟨params, rfl⟩, _, ⟨fresh, rfl⟩, rows, rfl⟩, inside⟩
      exact ⟨⟨inits, bound, sources⟩, ⟨⟨params, fresh, rows⟩, inside, trivial⟩, trivial⟩
    · rintro ⟨⟨inits, bound, sources⟩, ⟨⟨params, fresh, rows⟩, inside, -⟩, -⟩
      exact ⟨_, ⟨inits, bound, sources, _, ⟨params, rfl⟩, _, ⟨fresh, rfl⟩, rows, rfl⟩, inside⟩

mutual

theorem exp_ok (scope : Scope) (arity : Nat) (e : Exp) :
    scope.exp arity e = .ok () ↔ (e.outline arity).Accepted scope := by
  cases e with
  | basic op =>
    simp [exp, Exp.outline, BasicOp.outline, basicOp_ok, pattern_ok, Accepted]
  | apply func args ret => simp [exp, Exp.outline, operands_ok, pattern_ok, Accepted]
  | branch cond yes no ret sort =>
    simp [exp, Exp.outline, operand_ok, pattern_ok, branchCount_ok, nested_ok, Accepted,
      body_ok scope yes, body_ok scope no, and_assoc]
  | loop merge form b =>
    have inside := loop_ok scope merge form b fun inner => body_ok inner b
    simp only [exp, except_bind_ok, exists_unit, nested_ok, loopCount_ok, pattern_ok, Exp.outline,
      accepted_append, Accepted, ← inside]
    constructor
    · rintro ⟨inner, opened, checked, found, arity⟩
      exact ⟨⟨⟨inner, opened, checked⟩, found, trivial⟩, arity, trivial⟩
    · rintro ⟨⟨⟨inner, opened, checked⟩, found, -⟩, arity, -⟩
      exact ⟨inner, opened, checked, found, arity⟩
  | withAcc inputs lam =>
    simp [exp, Exp.outline, nested_ok, Accepted, accInputs_ok scope inputs, lambda_ok scope lam,
      after_accInputOutline]
  | screma width arrays scans reduces map =>
    simp [exp, Exp.outline, operand_ok, readAll_ok, nested_ok, Accepted, or_imp, forall_and,
      combiners_ok scope scans, reductions_ok scope reduces, lambda_ok scope map,
      after_combinerOutline, after_reductionOutline, and_assoc]
  | stream width arrays form inits lam =>
    simp [exp, Exp.outline, operand_ok, operands_ok, readAll_ok, nested_ok, Accepted, or_imp,
      forall_and, streamForm_ok scope form, lambda_ok scope lam, after_streamForm, and_assoc]
  | hist width ops bucket arrays =>
    simp [exp, Exp.outline, operand_ok, readAll_ok, nested_ok, Accepted,
      histograms_ok scope ops, lambda_ok scope bucket, after_histogramOutline, and_assoc]
  | scatter width lam arrays dests =>
    simp only [exp, except_bind_ok, exists_unit, operand_ok, nested_ok, lambda_ok scope lam,
      readAll_ok, dests_ok, Exp.outline, accepted_append, accepted_readsAll, after_readsAll,
      Accepted, List.forall_mem_append]

theorem stm_ok (scope inner : Scope) (s : Stm) :
    scope.stm s = .ok inner ↔ s.outline.Accepted scope ∧ s.outline.after scope = inner := by
  obtain ⟨pat, aux, e⟩ := s
  simp only [stm, except_bind_ok, exists_unit, readAll_ok, exp_ok scope pat.length e,
    bindParams_ok, Stm.outline, accepted_append, accepted_readsAll, after_append, after_readsAll,
    after_exp, and_assoc]

theorem stms_ok (scope inner : Scope) (i : Nat) (ss : List Stm) :
    scope.stms i ss = .ok inner ↔
      (stmOutline ss).Accepted scope ∧ (stmOutline ss).after scope = inner := by
  cases ss with
  | nil => simp [stms, stmOutline, Accepted]
  | cons s ss =>
    simp only [stms, stmOutline, accepted_append, after_append]
    split
    · rename_i failed
      have rejected : ¬ s.outline.Accepted scope := by
        intro accepted
        have succeeded := (stm_ok scope (s.outline.after scope) s).mpr ⟨accepted, rfl⟩
        simp [failed] at succeeded
      simp [rejected]
    · rename_i middle opened
      obtain ⟨accepted, rfl⟩ := (stm_ok scope middle s).mp opened
      simp only [stms_ok (s.outline.after scope) inner (i + 1) ss, accepted, true_and]

theorem body_ok (scope : Scope) (b : Body) :
    scope.body b = .ok () ↔ b.outline.Accepted scope := by
  obtain ⟨ss, result⟩ := b
  simp only [body, except_bind_ok, results_ok, Body.outline, accepted_append, accepted_readsAll]
  constructor
  · rintro ⟨inner, opened, known⟩
    obtain ⟨accepted, rfl⟩ := (stms_ok scope inner 0 ss).mp opened
    exact ⟨accepted, known⟩
  · rintro ⟨accepted, known⟩
    exact ⟨_, (stms_ok scope _ 0 ss).mpr ⟨accepted, rfl⟩, known⟩

theorem lambda_ok (scope : Scope) (l : Lambda) :
    scope.lambda l = .ok () ↔ l.outline.Accepted scope := by
  obtain ⟨ps, b, ret⟩ := l
  simp only [lambda, except_bind_ok, exists_unit, params_ok, Lambda.outline, accepted_append,
    accepted_mentionsAll, Accepted, after_append]
  constructor
  · rintro ⟨inner, ⟨params, rfl⟩, checked, count⟩
    refine ⟨⟨⟨params, (body_ok _ b).mp checked⟩, trivial⟩, ?_, trivial⟩
    simpa using count
  · rintro ⟨⟨⟨params, inside⟩, -⟩, count, -⟩
    exact ⟨_, ⟨params, rfl⟩, (body_ok _ b).mpr inside, by simp [count]⟩

theorem combiner_ok (scope : Scope) (c : Combiner) :
    scope.combiner c = .ok () ↔ c.outline.Accepted scope := by
  obtain ⟨op, neutral⟩ := c
  simp [combiner, Combiner.outline, operands_ok, nested_ok, Accepted, lambda_ok scope op]

theorem combiners_ok (scope : Scope) (cs : List Combiner) :
    scope.combiners cs = .ok () ↔ (combinerOutline cs).Accepted scope := by
  cases cs with
  | nil => simp [combiners, combinerOutline, Accepted]
  | cons c cs =>
    simp [combiners, combinerOutline, combiner_ok scope c, combiners_ok scope cs, after_combiner]

theorem reductions_ok (scope : Scope) (rs : List Reduction) :
    scope.reductions rs = .ok () ↔ (reductionOutline rs).Accepted scope := by
  cases rs with
  | nil => simp [reductions, reductionOutline, Accepted]
  | cons r rs =>
    obtain ⟨commutative, c⟩ := r
    simp [reductions, reductionOutline, combiner_ok scope c, reductions_ok scope rs, after_combiner]

theorem streamForm_ok (scope : Scope) (form : StreamForm) :
    scope.streamForm form = .ok () ↔ form.outline.Accepted scope := by
  cases form with
  | sequential => simp [streamForm, StreamForm.outline, Accepted]
  | parallel order commutative op =>
    simp [streamForm, StreamForm.outline, nested_ok, Accepted, lambda_ok scope op]

theorem accInputs_ok (scope : Scope) (inputs : List AccInput) :
    scope.accInputs inputs = .ok () ↔ (accInputOutline inputs).Accepted scope := by
  cases inputs with
  | nil => simp [accInputs, accInputOutline, Accepted]
  | cons input rest =>
    obtain ⟨shape, arrays, combine⟩ := input
    cases combine with
    | none =>
      simp [accInputs, accInputOutline, operands_ok, readAll_ok, accInputs_ok scope rest, or_imp,
        forall_and, and_assoc]
    | some c =>
        simp [accInputs, accInputOutline, operands_ok, readAll_ok, combiner_ok scope c,
        accInputs_ok scope rest, after_combiner, or_imp, forall_and, and_assoc]

theorem histograms_ok (scope : Scope) (hs : List Histogram) :
    scope.histograms hs = .ok () ↔ (histogramOutline hs).Accepted scope := by
  cases hs with
  | nil => simp [histograms, histogramOutline, Accepted]
  | cons h rest =>
    obtain ⟨shape, race, dests, c⟩ := h
    simp [histograms, histogramOutline, operands_ok, operand_ok, readAll_ok, combiner_ok scope c,
      histograms_ok scope rest, after_combiner, or_imp, forall_and, and_assoc]

end

end Scope

theorem validate_iff (l : Lambda) : l.validate = .ok () ↔ l.outline.Accepted [] := by
  rw [validate_eq]
  exact Scope.lambda_ok [] l

/-- The body of a valid lambda binds no parameter again. -/
theorem Lambda.param_not_bound {l : Lambda} (valid : l.validate = .ok ()) {x : Name}
    (param : x ∈ l.params.map (·.name)) : x ∉ l.body.occurrences.binders := by
  obtain ⟨-, body, -⟩ := (accepted_lambda l []).mp ((validate_iff l).mp valid)
  intro binder
  rw [← occurrences_body, binders_occurrences] at binder
  obtain ⟨p, isParam, same⟩ := List.mem_map.mp param
  exact not_mem_of_binder body binder
    ((mem_after_paramOutline l.params [] x).mpr (Or.inr ⟨p, isParam, same⟩))

end Cotangent
