import Cotangent.Proofs.Scope.Validity
/-!
The parts of a program at every depth: its type annotations, its statements and its bodies. A condition
on a program that speaks of each of them separately is stated through this list.
-/
namespace Cotangent

open Outline

inductive Part where
  | ty (t : Ty)
  | stm (s : Stm)
  | body (b : Body)

def BasicOp.types : BasicOp → List Ty
  | .arrayLit _ t => [t]
  | _ => []

/-- The names that a loop binds around its body, with their types; the counter has none. -/
def loopParams (merge : List (Param × Operand)) : LoopForm → List Param
  | .whileHolds _ => merge.map (·.1)
  | .forBelow _ _ _ arrays => merge.map (·.1) ++ arrays.map (·.1)

mutual

def Exp.parts : Exp → List Part
  | .basic op => op.types.map .ty
  | .apply _ _ ret => ret.map .ty
  | .branch _ yes no ret _ => yes.parts ++ no.parts ++ ret.map .ty
  | .loop merge form b => (loopParams merge form).map (.ty ·.ty) ++ b.parts
  | .withAcc inputs lam => accInputParts inputs ++ lam.parts
  | .screma _ _ scans reduces map => combinerParts scans ++ reductionParts reduces ++ map.parts
  | .stream _ _ form _ lam => form.parts ++ lam.parts
  | .hist _ ops bucket _ => histogramParts ops ++ bucket.parts
  | .scatter _ lam _ _ => lam.parts

def Stm.parts : Stm → List Part
  | ⟨pat, aux, exp⟩ => .stm ⟨pat, aux, exp⟩ :: (pat.map (.ty ·.ty) ++ exp.parts)

def stmParts : List Stm → List Part
  | [] => []
  | s :: ss => s.parts ++ stmParts ss

def Body.parts : Body → List Part
  | ⟨ss, result⟩ => .body ⟨ss, result⟩ :: stmParts ss

def Lambda.parts : Lambda → List Part
  | ⟨ps, b, ret⟩ => ps.map (.ty ·.ty) ++ b.parts ++ ret.map .ty

def Combiner.parts : Combiner → List Part
  | ⟨op, _⟩ => op.parts

def combinerParts : List Combiner → List Part
  | [] => []
  | c :: cs => c.parts ++ combinerParts cs

def reductionParts : List Reduction → List Part
  | [] => []
  | ⟨_, c⟩ :: rs => c.parts ++ reductionParts rs

def StreamForm.parts : StreamForm → List Part
  | .sequential => []
  | .parallel _ _ op => op.parts

def accInputParts : List AccInput → List Part
  | [] => []
  | ⟨_, _, none⟩ :: rest => accInputParts rest
  | ⟨_, _, some c⟩ :: rest => c.parts ++ accInputParts rest

def histogramParts : List Histogram → List Part
  | [] => []
  | ⟨_, _, _, c⟩ :: rest => c.parts ++ histogramParts rest

end

/-- The binders of a part at every depth. -/
def Part.binders : Part → List Name
  | .ty _ => []
  | .stm s => s.outline.binders
  | .body b => b.outline.binders

/-- The binders of every part stand among the names, in the same order. -/
def Among (parts : List Part) (names : List Name) : Prop :=
  ∀ part ∈ parts, part.binders.Sublist names

variable {ps qs : List Part} {xs ys : List Name}

theorem Among.mono (among : Among ps xs) (sub : xs.Sublist ys) : Among ps ys :=
  fun part mem => (among part mem).trans sub

theorem Among.append (first : Among ps xs) (second : Among qs ys) : Among (ps ++ qs) (xs ++ ys) :=
  List.forall_mem_append.mpr
    ⟨first.mono (List.sublist_append_left xs ys), second.mono (List.sublist_append_right xs ys)⟩

theorem Among.cons {part : Part} (here : part.binders.Sublist xs) (rest : Among ps xs) :
    Among (part :: ps) xs :=
  List.forall_mem_cons.mpr ⟨here, rest⟩

theorem among_types {α : Type} (f : α → Ty) (as : List α) (names : List Name) :
    Among (as.map fun a => Part.ty (f a)) names := by
  simp [Among, Part.binders]

/-- Type annotations bind nothing. -/
theorem Among.types {α : Type} (among : Among ps xs) (f : α → Ty) (as : List α) :
    Among (ps ++ as.map fun a => Part.ty (f a)) xs :=
  List.forall_mem_append.mpr ⟨among, among_types f as xs⟩

theorem Among.typesFirst {α : Type} (among : Among ps xs) (f : α → Ty) (as : List α) :
    Among ((as.map fun a => Part.ty (f a)) ++ ps) xs :=
  List.forall_mem_append.mpr ⟨among_types f as xs, among⟩

mutual

theorem among_exp (arity : Nat) (e : Exp) : Among e.parts (e.outline arity).binders := by
  cases e with
  | basic op => exact among_types id op.types _
  | apply func args ret => exact among_types id ret _
  | branch cond yes no ret sort =>
    have inside := ((among_body yes).append (among_body no)).types id ret
    simpa [Exp.outline, Exp.parts] using inside
  | loop merge form b =>
    have inside := (among_body b).typesFirst (·.ty) (loopParams merge form)
    refine inside.mono ?_
    cases form with
    | whileHolds cond => simp [Exp.outline, loopOutline]
    | forBelow counter w limit arrays =>
      simp only [Exp.outline, loopOutline, binders_append, binders, binders_readsAll,
        List.append_nil, List.nil_append]
      exact List.sublist_append_right _ _
  | withAcc inputs lam =>
    have inside := (among_accInputs inputs).append (among_lambda lam)
    simpa [Exp.outline, Exp.parts] using inside
  | screma width arrays scans reduces map =>
    have inside := ((among_combiners scans).append (among_reductions reduces)).append
      (among_lambda map)
    simpa [Exp.outline, Exp.parts] using inside
  | stream width arrays form inits lam =>
    have inside := (among_streamForm form).append (among_lambda lam)
    simpa [Exp.outline, Exp.parts] using inside
  | hist width ops bucket arrays =>
    have inside := (among_histograms ops).append (among_lambda bucket)
    simpa [Exp.outline, Exp.parts] using inside
  | scatter width lam arrays dests =>
    have inside := among_lambda lam
    simpa [Exp.outline, Exp.parts] using inside

theorem among_stm (s : Stm) : Among s.parts s.outline.binders := by
  obtain ⟨pat, aux, e⟩ := s
  have inside := ((among_exp pat.length e).mono (List.sublist_append_left _
    (paramOutline pat).binders)).typesFirst (·.ty) pat
  refine Among.cons (List.Sublist.refl _) (inside.mono ?_)
  simp [Stm.outline]

theorem among_stms (ss : List Stm) : Among (stmParts ss) (stmOutline ss).binders := by
  cases ss with
  | nil => simp [Among, stmParts]
  | cons s ss =>
    have inside := (among_stm s).append (among_stms ss)
    simpa [stmOutline, stmParts] using inside

theorem among_body (b : Body) : Among b.parts b.outline.binders := by
  obtain ⟨ss, result⟩ := b
  refine Among.cons (List.Sublist.refl _) ((among_stms ss).mono ?_)
  simp [Body.outline]

theorem among_lambda (l : Lambda) : Among l.parts l.outline.binders := by
  obtain ⟨ps, b, ret⟩ := l
  have inside := (((among_body b).mono (List.sublist_append_right
    (paramOutline ps).binders _)).typesFirst (·.ty) ps).types id ret
  simpa [Lambda.outline, Lambda.parts] using inside

theorem among_combiners (cs : List Combiner) :
    Among (combinerParts cs) (combinerOutline cs).binders := by
  cases cs with
  | nil => simp [Among, combinerParts]
  | cons c cs =>
    obtain ⟨op, neutral⟩ := c
    have inside := (among_lambda op).append (among_combiners cs)
    simpa [combinerOutline, combinerParts, Combiner.outline, Combiner.parts] using inside

theorem among_reductions (rs : List Reduction) :
    Among (reductionParts rs) (reductionOutline rs).binders := by
  cases rs with
  | nil => simp [Among, reductionParts]
  | cons r rs =>
    obtain ⟨commutative, op, neutral⟩ := r
    have inside := (among_lambda op).append (among_reductions rs)
    simpa [reductionOutline, reductionParts, Combiner.outline, Combiner.parts] using inside

theorem among_streamForm (form : StreamForm) : Among form.parts form.outline.binders := by
  cases form with
  | sequential => simp [Among, StreamForm.parts]
  | parallel order commutative op =>
    have inside := among_lambda op
    simpa [StreamForm.outline, StreamForm.parts] using inside

theorem among_accInputs (inputs : List AccInput) :
    Among (accInputParts inputs) (accInputOutline inputs).binders := by
  cases inputs with
  | nil => simp [Among, accInputParts]
  | cons input rest =>
    obtain ⟨shape, arrays, combine⟩ := input
    cases combine with
    | none =>
      have inside := among_accInputs rest
      simpa [accInputOutline, accInputParts] using inside
    | some c =>
      obtain ⟨op, neutral⟩ := c
      have inside := (among_lambda op).append (among_accInputs rest)
      simpa [accInputOutline, accInputParts, Combiner.outline, Combiner.parts] using inside

theorem among_histograms (hs : List Histogram) :
    Among (histogramParts hs) (histogramOutline hs).binders := by
  cases hs with
  | nil => simp [Among, histogramParts]
  | cons h rest =>
    obtain ⟨shape, race, dests, ⟨op, neutral⟩⟩ := h
    have inside := (among_lambda op).append (among_histograms rest)
    simpa [histogramOutline, histogramParts, Combiner.outline, Combiner.parts] using inside

end

end Cotangent
