import Cotangent.Proofs.Derivative.AdjointSweep
import Cotangent.Proofs.Derivative.CopyCode
import Cotangent.Proofs.Evaluation.Fuel
/-!
Runs of copy code. Once it is known what is copied, and at what layouts, a run always ends, and every name
that it binds stands for the value of what it is a copy of.
-/
namespace Cotangent

open Outline Run

variable {σ τ : Store Scalar} {I : Inputs} {o o' : Origins} {types : NameTable Ty} {scope : Scope}

/-- The name is a copy of the operand, declared at its layout. -/
structure Inputs.Copies (I : Inputs) (types : NameTable Ty) (σ : Store Scalar) (x : Name) (src : Operand) :
    Prop where
  value : ∃ v, σ.vars.find? x = some v ∧ I.store.value src = some v
  layout : ∃ t L, types.find? x = some t ∧ t.layout? I.store = some L ∧ I.layout? src = some L

theorem Inputs.Copies.agree {types' : NameTable Ty} {on : Name → Prop} {x : Name} {src : Operand}
    (copies : I.Copies types σ x src) (agree : σ.Agree on τ) (known : on x)
    (same : types'.find? x = types.find? x) : I.Copies types' τ x src where
  value := have ⟨v, found, is⟩ := copies.value; ⟨v, (agree x known).trans found, is⟩
  layout := have ⟨t, L, declared, rest⟩ := copies.layout; ⟨t, L, same.trans declared, rest⟩

/-- Every name in scope is a copy of what is recorded for it. -/
def Inputs.Tracks (I : Inputs) (types : NameTable Ty) (σ : Store Scalar) (o : Origins) (scope : Scope) :
    Prop :=
  ∀ x ∈ scope, ∃ src, o.find? x = some src ∧ I.Copies types σ x src

namespace Inputs.Tracks

theorem value (tracks : I.Tracks types σ o scope) {x src : Operand} (known : ∀ y ∈ x.names, y ∈ scope)
    (is : x.origin? o = some src) : ∃ v, σ.value x = some v ∧ I.store.value src = some v := by
  cases x with
  | const v =>
    obtain rfl := Option.some.inj is
    exact ⟨_, rfl, rfl⟩
  | var x =>
    obtain ⟨src', is', copies⟩ := tracks x (known x (by simp [Operand.names]))
    obtain rfl := Option.some.inj (is.symm.trans is')
    exact copies.value

theorem truth (tracks : I.Tracks types σ o scope) {cond : Operand} {b : Bool}
    (known : ∀ y ∈ cond.names, y ∈ scope) (truth : (cond.origin? o).bind I.truth? = some b) :
    σ.value cond = some (.scalar (.bool b)) := by
  obtain ⟨src, is, truth⟩ := Option.bind_eq_some_iff.mp truth
  obtain ⟨v, found, same⟩ := tracks.value known is
  rw [Inputs.truth?, same] at truth
  rw [found]
  revert truth
  rcases v with (_ | _ | _ | _) | _ | _ <;> simp

theorem values (tracks : I.Tracks types σ o scope) {xs srcs : List Operand}
    (known : ∀ y ∈ operandNames xs, y ∈ scope) (are : xs.mapM (·.origin? o) = some srcs) :
    ∃ vs, List.Forall₂ (fun x v => σ.value x = some v) xs vs ∧
      List.Forall₂ (fun src v => I.store.value src = some v) srcs vs := by
  refine forall₂_through.mpr ?_
  have are := option_mapM_iff.mp are
  clear * - tracks known are
  induction are with
  | nil => exact .nil
  | cons here rest ih =>
    simp only [operandNames, List.flatMap_cons, List.forall_mem_append] at known ih
    exact .cons (tracks.value known.1 here) (ih known.2)

/-- One more name that copies an operand. -/
theorem insert (tracks : I.Tracks types σ o scope) (x : Name) {t : Ty} {L : Layout} {src : Operand}
    {v : Value} (layout : t.layout? I.store = some L) (layoutSrc : I.layout? src = some L)
    (is : I.store.value src = some v) :
    I.Tracks (types.insert x t) (σ.bound [x] [v]) (o.insert x src) (x :: scope) := by
  intro y known
  by_cases same : y = x
  · subst y
    refine ⟨src, by simp [NameTable.find_insert], ⟨v, ?_, is⟩, t, L, ?_, layout, layoutSrc⟩
    · simp [Store.bound, NameTable.insertAll, NameTable.find_insert]
    · simp [NameTable.find_insert]
  · obtain ⟨src, is, copies⟩ := tracks y ((List.mem_cons.mp known).resolve_left same)
    have agree : σ.Agree (· = y) (σ.bound [x] [v]) := .bound σ [v] (by simpa using Ne.symm same)
    exact ⟨src, by simpa [NameTable.find_insert, same] using is,
      copies.agree agree rfl (by simp [NameTable.find_insert, same])⟩

/-- A pattern that is declared at the layouts of what it copies. -/
theorem assign {pat : List Param} {xs : List Operand} {vs : List Value} (tracks : I.Tracks types σ o scope)
    (assigned : o.assign I pat xs = some o')
    (values : List.Forall₂ (fun x v => I.store.value x = some v) xs vs) :
    I.Tracks (types.insertAll (pat.map fun p => (p.name, p.ty))) (σ.bound (pat.map (·.name)) vs) o'
      ((paramOutline pat).after scope) := by
  obtain ⟨declared, rfl⟩ := Origins.assign_iff.mp assigned
  clear assigned
  induction declared generalizing types σ o scope vs with
  | nil =>
    obtain rfl := List.forall₂_nil_left_iff.mp values
    exact tracks
  | @cons p x pat xs here rest ih =>
    obtain ⟨v, vs, is, tail, rfl⟩ := List.forall₂_cons_left_iff.mp values
    obtain ⟨L, layout, layoutSrc⟩ := here
    simp only [paramOutline, Param.outline, after_append, after, after_mentionsAll]
    exact ih (tracks.insert p.name layout layoutSrc is) tail

end Inputs.Tracks

/-- A conditional runs the body that its condition picks. -/
theorem Run.ends_taken {cond : Operand} {b : Bool} {yes no : Body} {ret : List Ty} {sort : BranchSort}
    {fuel : Nat} {vs : List Value} (holds : σ.value cond = some (.scalar (.bool b)))
    (ran : Ends (runBody fuel (if b then yes else no)) σ vs τ) :
    Ends (exp (runBody fuel) fuel (.branch cond yes no ret sort)) σ vs τ := by
  simp only [exp, ends_bind, ends_scalar, ends_lift]
  refine ⟨.bool b, σ, ⟨holds, rfl⟩, b, σ, ⟨rfl, rfl⟩, ?_⟩
  cases b <;> exact ran

mutual

theorem runs_copyExp (e : Exp) {arity : Nat} {σ : Store Scalar} {o : Origins} {types : NameTable Ty}
    {scope : Scope} {srcs : List Operand} (closed : (e.outline arity).Closed scope)
    (tracks : I.Tracks types σ o scope) (are : e.origins? I o = some srcs) :
    ∃ fuel vs τ, Ends (exp (runBody fuel) fuel e) σ vs τ ∧ σ.Agree (· ∉ (e.outline arity).binders) τ ∧
      List.Forall₂ (fun src v => I.store.value src = some v) srcs vs := by
  cases e with
  | basic op =>
    cases op with
    | operand x =>
      obtain ⟨src, is, rfl⟩ := Option.map_eq_some_iff.mp are
      simp only [Exp.outline, BasicOp.outline, closed_append, closed_readsAll] at closed
      obtain ⟨v, found, same⟩ := tracks.value closed.1.1 is
      refine ⟨0, [v], σ, (ends_basic ..).mpr ⟨v, ?_, rfl⟩, .refl _ σ, .cons same .nil⟩
      exact (ends_operand ..).mpr ⟨found, rfl⟩
    | _ => cases are
  | branch cond yes no ret sort =>
    simp only [Exp.outline, closed_append, closed_readsAll, after_append, after_readsAll, after,
      closed_block] at closed
    obtain ⟨⟨⟨⟨inScope, closedYes, -⟩, closedNo, -⟩, -⟩, -⟩ := closed
    simp only [Exp.origins?] at are
    split at are
    · rename_i truth
      obtain ⟨fuel, vs, τ, ran, agree, values⟩ := runs_copyBody yes closedYes tracks are
      refine ⟨fuel, vs, τ, ends_taken (tracks.truth inScope truth) ran, agree.mono fun x outside => ?_, values⟩
      simp_all [Exp.outline]
    · rename_i truth
      obtain ⟨fuel, vs, τ, ran, agree, values⟩ := runs_copyBody no closedNo tracks are
      refine ⟨fuel, vs, τ, ends_taken (tracks.truth inScope truth) ran, agree.mono fun x outside => ?_, values⟩
      simp_all [Exp.outline]
    · cases are
  | _ => cases are

theorem runs_copyStms (ss : List Stm) {σ : Store Scalar} {o o' : Origins} {types : NameTable Ty}
    {scope : Scope} (closed : (stmOutline ss).Closed scope) (tracks : I.Tracks types σ o scope)
    (are : stmsOrigins? I o ss = some o') :
    ∃ fuel τ, Ends (stms fuel ss) σ () τ ∧ σ.Agree (· ∉ (stmOutline ss).binders) τ ∧
      I.Tracks (types.insertAll ((ss.flatMap (·.pat)).map fun p => (p.name, p.ty))) τ o'
        ((stmOutline ss).after scope) := by
  cases ss with
  | nil =>
    obtain rfl := Option.some.inj are
    exact ⟨0, σ, (ends_stms_nil ..).mpr rfl, .refl _ σ, tracks⟩
  | cons s ss =>
    obtain ⟨pat, aux, e⟩ := s
    simp only [stmOutline, closed_append, after_append, after_stm] at closed ⊢
    have closedExp := ((closed_stm _ _).mp closed.1).2.1
    simp only [stmsOrigins?, Stm.origins?] at are
    split at are
    · rename_i mid assigned
      split at assigned
      · rename_i srcs known
        obtain ⟨m, vs, υ, ran, kept, values⟩ := runs_copyExp e closedExp tracks known
        have inScope : ∀ x ∈ scope, x ∉ (e.outline pat.length).binders := fun x mem binder =>
          not_mem_of_binder closedExp.1 binder mem
        have carried : I.Tracks types υ o scope := fun x mem => by
          obtain ⟨src, is, copies⟩ := tracks x mem
          exact ⟨src, is, copies.agree kept (inScope x mem) rfl⟩
        have bound := carried.assign assigned values
        have length : vs.length = pat.length := by
          rw [← values.length_eq, ← (Origins.assign_iff.mp assigned).1.length_eq]
        obtain ⟨n, τ, rest, keptRest, tracks⟩ := runs_copyStms ss closed.2 bound are
        have here : Ends (stm (runBody m) m ⟨pat, aux, e⟩) σ () (υ.bound (pat.map (·.name)) vs) :=
          (ends_stm ..).mpr ⟨vs, υ, ran, length, rfl⟩
        refine ⟨max m n, τ, (ends_stms_cons ..).mpr ⟨υ.bound (pat.map (·.name)) vs, ?_, ?_⟩, ?_, ?_⟩
        · exact extends_stm (extends_runBody (Nat.le_max_left m n)) (Nat.le_max_left m n) _ σ _ here
        · exact extends_stms (Nat.le_max_right m n) ss _ _ rest
        · simp only [Stm.outline, binders_append, binders_readsAll, List.nil_append, List.mem_append,
            not_or, mem_binders_paramOutline]
          refine ((kept.mono fun x outside => outside.1.1).trans (.bound υ vs fun x mem outside => ?_)).trans
            (keptRest.mono fun x outside => outside.2)
          obtain ⟨p, inPat, rfl⟩ := List.mem_map.mp mem
          exact outside.1.2 ⟨p, inPat, rfl⟩
        · rw [List.flatMap_cons, List.map_append, Builder.insertAll_append]
          exact tracks
      · cases assigned
    · cases are

theorem runs_copyBody (b : Body) {σ : Store Scalar} {o : Origins} {types : NameTable Ty}
    {scope : Scope} {srcs : List Operand} (closed : b.outline.Closed scope)
    (tracks : I.Tracks types σ o scope) (are : b.origins? I o = some srcs) :
    ∃ fuel vs τ, Ends (runBody fuel b) σ vs τ ∧ σ.Agree (· ∉ b.outline.binders) τ ∧
      List.Forall₂ (fun src v => I.store.value src = some v) srcs vs := by
  obtain ⟨ss, result⟩ := b
  simp only [Body.outline, closed_append, closed_readsAll] at closed
  simp only [Body.origins?] at are
  split at are
  · rename_i o' known
    obtain ⟨fuel, τ, ran, agree, inside⟩ := runs_copyStms ss closed.1 tracks known
    obtain ⟨vs, read, values⟩ := inside.values closed.2 are
    refine ⟨fuel + 1, vs, τ, (ends_runBody ..).mpr ⟨fuel, τ, rfl, ran, ends_operands.mpr ⟨read, rfl⟩⟩,
      ?_, values⟩
    simpa [Body.outline] using agree
  · cases are

end

/-! Lambdas. -/

section

variable {l : Lambda} {args : List Value}

theorem exists_of_forall₂_left {α β : Type} {R : α → β → Prop} {as : List α} {bs : List β}
    (each : List.Forall₂ R as bs) {a : α} (mem : a ∈ as) : ∃ b ∈ bs, R a b := by
  have turned : List.Forall₂ (fun b a => R a b) bs as := each.flip
  exact exists_of_forall₂ turned mem

/-- Parameters of distinct names stand for what they were inserted with. -/
theorem NameTable.find_insertAll_params {α : Type} (t : NameTable α) (f : Param → α) {ps : List Param}
    (distinct : (ps.map (·.name)).Nodup) :
    ∀ p ∈ ps, (t.insertAll (ps.map fun p => (p.name, f p))).find? p.name = some (f p) := by
  have stand := find_insertAll_zip t (ps.map f) distinct (by simp)
  rw [List.zip_map', List.forall₂_map_left_iff, List.forall₂_map_right_iff, List.forall₂_same] at stand
  exact stand

theorem Lambda.find_ownOrigins (distinct : (l.params.map (·.name)).Nodup) :
    ∀ p ∈ l.params, l.ownOrigins.find? p.name = some (.var p.name) :=
  NameTable.find_insertAll_params .empty (fun p => Operand.var p.name) distinct

theorem Lambda.find_inputs (args : List Value) (distinct : (l.params.map (·.name)).Nodup) :
    ∀ p ∈ l.params, (l.inputs args).types.find? p.name = some p.ty :=
  NameTable.find_insertAll_params .empty (·.ty) distinct

/-- Each parameter stands for a value of its layout. -/
theorem Lambda.Accepts.stands (accepts : l.Accepts args) (distinct : (l.params.map (·.name)).Nodup) :
    ∀ p ∈ l.params, ∃ v L, (l.inputs args).store.vars.find? p.name = some v ∧
      p.ty.layout? (l.inputs args).store = some L ∧ v.Fits L := by
  have stand := NameTable.find_insertAll_zip Store.initial.vars args distinct
    (by simpa using accepts.length_eq.symm)
  rw [List.forall₂_map_left_iff] at stand
  intro p mem
  obtain ⟨v, -, found, L, layout, fits⟩ :=
    exists_of_forall₂_left (List.Forall₂.mp (fun _ _ => And.intro) stand accepts) mem
  exact ⟨v, L, found, layout, fits⟩

/-- The parameters are copies of themselves, in tables and stores that know what is known of them. -/
theorem Lambda.Accepts.tracks (accepts : l.Accepts args) (distinct : (l.params.map (·.name)).Nodup)
    (agree : (l.inputs args).store.Agree (· ∈ l.params.map (·.name)) σ)
    (declared : ∀ p ∈ l.params, types.find? p.name = some p.ty) :
    (l.inputs args).Tracks types σ l.ownOrigins (l.params.map (·.name)) := by
  intro x mem
  obtain ⟨p, inParams, rfl⟩ := List.mem_map.mp mem
  obtain ⟨v, L, found, layout, -⟩ := accepts.stands distinct p inParams
  refine ⟨.var p.name, find_ownOrigins distinct p inParams, ⟨v, (agree p.name mem).trans found, found⟩,
    p.ty, L, declared p inParams, layout, ?_⟩
  rw [Inputs.layout?, find_inputs args distinct p inParams]
  exact layout

/-- Copy code runs, and its results are those of what they are copies of. -/
theorem Lambda.Accepts.interp {srcs : List Operand} (accepts : l.Accepts args)
    (valid : l.validate = .ok ()) (typesInScope : l.TypesInScope) (are : l.origins? args = some srcs) :
    ∃ fuel vs, l.interp args fuel = some (.ok vs) ∧
      List.Forall₂ (fun src v => (l.inputs args).store.value src = some v) srcs vs := by
  have closed : l.outline.Closed [] := ⟨(validate_iff l).mp valid, typesInScope⟩
  obtain ⟨header, body, -⟩ := (closed_lambda l []).mp closed
  have distinct : (l.params.map (·.name)).Nodup := nodup_of_accepted header.1
  have inParams : ∀ x, x ∈ (paramOutline l.params).after [] ↔ x ∈ l.params.map (·.name) := fun x => by
    simp [mem_after_paramOutline]
  have narrow : l.body.outline.Closed (l.params.map (·.name)) :=
    body.mono (fun x known => (inParams x).mp known) fun x _ known => (inParams x).mpr known
  obtain ⟨fuel, vs, τ, ran, -, values⟩ := runs_copyBody l.body narrow
    (accepts.tracks distinct (.refl _ _) (Lambda.find_inputs args distinct)) are
  refine ⟨fuel, vs, (interp_ok ..).mpr ⟨τ, ?_⟩, values⟩
  simp only [applyLambda, ends_bind, ends_bindNames]
  exact ⟨(), _, ⟨by simpa using accepts.length_eq.symm, rfl⟩, ran⟩

end

end Cotangent
