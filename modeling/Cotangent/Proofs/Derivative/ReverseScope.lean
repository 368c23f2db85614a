import Cotangent.Derivative.Reverse
import Cotangent.Proofs.Derivative.Steps
/-!
Scoping of reverse differentiation. Each step of the backward sweep emits statements that are closed in
the scope so far, and every adjoint in the table stands in that scope. Branches are computed again
under fresh names, so their statements are closed wherever the branch itself was.
-/
namespace Cotangent

open Outline

namespace Builder

variable {b c : Builder} {scope later : Scope}

theorem letFormula_grows (ready : b.Ready scope) {f : Formula} (known : ∀ x ∈ f.names, x ∈ scope) :
    ∃ later, b.Grows scope (Build.letFormula f b).2 later ∧
      (Build.letFormula f b).1 ∈ later :=
  bindFormula_grows (Grows.draw ready) ⟨⟨b.supply.next⟩, .scalar f.ty⟩ .none
    (by simp [Annotations.none]) rfl (Nat.le_refl _) (Nat.lt_succ_self _) ready.below.fresh known

theorem names_ofShape (elem : ScalarType) (unique : Bool) (shape : List Operand) :
    (Ty.ofShape elem unique shape).names = operandNames shape := by
  cases shape <;> rfl

/-- The state in which the row operator of a sum is built, with the names of its parameters. -/
def rowBuilder (b : Builder) (row : Ty) : Builder :=
  ⟨⟨b.supply.next + 2⟩,
    (b.types.insert ⟨b.supply.next⟩ row).insert ⟨b.supply.next + 1⟩ row, []⟩

def rowParams (b : Builder) (row : Ty) : List Param :=
  [⟨⟨b.supply.next⟩, row⟩, ⟨⟨b.supply.next + 1⟩, row⟩]

theorem closed_rowParams (ready : b.Ready scope) {row : Ty} (known : ∀ y ∈ row.names, y ∈ scope) :
    (paramOutline (rowParams b row)).Closed scope := by
  have first : (⟨b.supply.next⟩ : Name) ∉ scope := ready.below.fresh
  have second : (⟨b.supply.next + 1⟩ : Name) ∉ scope := fun mem =>
    absurd (ready.below _ mem) (Nat.not_lt.mpr (Nat.le_succ _))
  simp only [rowParams, paramOutline, Param.outline, closed_append, closed_binds,
    closed_mentionsAll, after, after_mentionsAll, closed_done, and_true]
  refine ⟨⟨first, fun y mem => List.mem_cons_of_mem _ (known y mem)⟩, ?_, fun y mem =>
    List.mem_cons_of_mem _ (List.mem_cons_of_mem _ (known y mem))⟩
  simp [second]

theorem ready_rowBuilder (ready : b.Ready scope) {row : Ty} (known : ∀ y ∈ row.names, y ∈ scope) :
    (rowBuilder b row).Ready ((paramOutline (rowParams b row)).after scope) := by
  have drawn : Ready { b with supply := ⟨b.supply.next + 2⟩ } scope :=
    ⟨ready.below.mono (Nat.le_add_right _ 2), ready.typesIn⟩
  have declared := drawn.declare (closed_rowParams ready known) (by simp [rowParams])
  exact ⟨declared.below, declared.typesIn⟩

theorem sum_grows (elem : ScalarType) (unique : Bool) (shape : List Operand) (ready : b.Ready scope)
    {x y : Name} (left : x ∈ scope) (right : y ∈ scope)
    (known : ∀ z ∈ operandNames shape, z ∈ scope) :
    ∃ later, b.Grows scope (Build.sum elem unique shape x y b).2 later ∧
      (Build.sum elem unique shape x y b).1 ∈ later := by
  induction shape generalizing b scope x y with
  | nil =>
    refine letFormula_grows ready ?_
    simp [Formula.add, Formula.names, left, right]
  | cons width shape ih =>
    have split : operandNames (width :: shape) = width.names ++ operandNames shape := rfl
    rw [split, List.forall_mem_append] at known
    let row := Ty.ofShape elem unique shape
    have inRow : ∀ z ∈ row.names, z ∈ scope := by simpa [row, names_ofShape] using known.2
    have inside := ready_rowBuilder ready inRow
    have sub (z : Name) (mem : z ∈ scope) : z ∈ (paramOutline (rowParams b row)).after scope :=
      mem_after _ mem
    obtain ⟨inner, grows, result⟩ := ih inside (x := ⟨b.supply.next⟩) (y := ⟨b.supply.next + 1⟩)
      (by simp [rowParams, paramOutline, Param.outline])
      (by simp [rowParams, paramOutline, Param.outline]) fun z mem => sub z (known.2 z mem)
    obtain ⟨new, emitted, closed, rfl, bounded⟩ := grows.emitted
    let opened := Build.sum elem unique shape ⟨b.supply.next⟩ ⟨b.supply.next + 1⟩
      (rowBuilder b row)
    have aside : b.Grows scope { opened.2 with stms := b.stms } scope := by
      refine .aside ready rfl ?_ ?_
      · exact Nat.le_trans (Nat.le_add_right _ 2) grows.next_le
      · intro z mem
        have below := ready.below z mem
        have first : z ≠ ⟨b.supply.next⟩ := fun same => by simp [same] at below
        have second : z ≠ ⟨b.supply.next + 1⟩ := fun same =>
          absurd (same ▸ below) (Nat.not_lt.mpr (Nat.le_succ _))
        show opened.2.types.find? z = _
        rw [grows.kept z (sub z mem), rowBuilder, NameTable.find_insert, if_neg second,
          NameTable.find_insert, if_neg first]
    have emittedHere : opened.2.stms = new := emitted.trans (List.nil_append new)
    let op : Lambda := ⟨rowParams b row, ⟨opened.2.stms, [.var opened.1]⟩, [row]⟩
    have closedOp : op.outline.Closed scope := by
      simp only [op, emittedHere, Lambda.outline, Body.outline, closed_append, after_append,
        closed_readsAll, closed_mentionsAll, after_readsAll, closed_count, closed_done]
      refine ⟨⟨⟨closed_rowParams ready inRow, closed, ?_⟩, ?_⟩, rfl, trivial⟩
      · simpa [operandNames, Operand.names] using result
      · intro z mem
        have mem : z ∈ row.names := by simpa [typeNames] using mem
        exact mem_after _ (sub z (inRow z mem))
    have closedMap :
        ((Exp.screma width [x, y] [] [] op).outline 1).Closed scope := by
      simp only [Exp.outline, combinerOutline, reductionOutline, append_done, closed_append,
        closed_readsAll, after_readsAll, closed_block, closed_done, and_true]
      exact ⟨by simpa [left, right, or_imp, forall_and] using known.1, closedOp⟩
    have inside : Scope.Below
        ((Exp.screma width [x, y] [] [] op).outline 1).binders opened.2.supply.next := by
      have params : Scope.Below (paramOutline (rowParams b row)).binders opened.2.supply.next :=
        fun z binder => by
          have le : b.supply.next + 2 ≤ opened.2.supply.next := grows.next_le
          simp only [rowParams, paramOutline, Param.outline, binders_append, binders,
            binders_mentionsAll, List.append_nil, List.mem_append, List.mem_singleton] at binder
          rcases binder with rfl | rfl
          · show b.supply.next < _
            omega
          · show b.supply.next + 1 < _
            omega
      have all : ((Exp.screma width [x, y] [] [] op).outline 1).binders =
          (paramOutline (rowParams b row)).binders ++ (stmOutline new).binders := by
        simp [op, emittedHere, Exp.outline, Lambda.outline, Body.outline, combinerOutline,
          reductionOutline]
      exact all ▸ params.append bounded
    have typed : ∀ z ∈ (Ty.ofShape elem unique (width :: shape)).names, z ∈ scope := by
      rw [names_ofShape, split, List.forall_mem_append]
      exact known
    have bound := letExp_grows (t := Ty.ofShape elem unique (width :: shape)) aside.ready closedMap
      inside typed
    exact ⟨_, aside.trans bound, List.mem_cons_self⟩

end Builder

namespace Reverse

open Diff

variable {s t : DiffState} {scope : Scope} {rules : Rules}

/-- Every name counts, whichever statement it comes from. -/
abbrev All : Name → Prop := fun _ => True

theorem addValues_extends (ready : Ready All s scope) {ty : Ty} {x y z : Name} (left : x ∈ scope)
    (right : y ∈ scope) (inType : ∀ n ∈ ty.names, n ∈ scope)
    (gives : Gives (addValues ty x y) s z t) :
    ∃ later, Extends All s scope t later ∧ z ∈ later := by
  match ty with
  | .scalar k =>
    simp only [addValues, gives_build] at gives
    obtain ⟨rfl, rfl⟩ := gives
    obtain ⟨later, grows, mem⟩ := Builder.sum_grows k false [] ready.builder left right
      (by simp [operandNames])
    exact ⟨later, ready.build grows, mem⟩
  | .array elem (width :: shape) unique =>
    simp only [addValues, gives_build] at gives
    obtain ⟨rfl, rfl⟩ := gives
    obtain ⟨later, grows, mem⟩ := Builder.sum_grows elem unique (width :: shape) ready.builder
      left right inType
    exact ⟨later, ready.build grows, mem⟩
  | .array _ [] _ => exact absurd gives (gives_throw _ _ _ _)
  | .acc .. => exact absurd gives (gives_throw _ _ _ _)

theorem contribute_extends (ready : Ready All s scope) {x d : Name} (known : x ∈ scope)
    (fresh : d ∈ scope) (gives : Gives (contribute x d) s () t) :
    ∃ later, Extends All s scope t later := by
  simp only [contribute, gives_bind, gives_companion?] at gives
  obtain ⟨found, _, ⟨isFound, rfl⟩, gives⟩ := gives
  cases found with
  | none =>
    simp only [gives_bind, gives_pure, gives_setCompanion] at gives
    obtain ⟨_, _, ⟨rfl, rfl⟩, rfl⟩ := gives
    exact ⟨scope, ready.setCompanion fresh⟩
  | some old =>
    simp only [gives_bind, gives_typeOf, gives_setCompanion] at gives
    obtain ⟨ty, _, ⟨typed, rfl⟩, adjoint, u, summed, rfl⟩ := gives
    obtain ⟨later, extends_, mem⟩ := addValues_extends ready
      (ready.companion_mem x trivial old isFound) fresh
      (ready.builder.typesIn x known ty typed) summed
    exact ⟨later, extends_.trans (extends_.ready.setCompanion mem)⟩

theorem contributeTo_extends (ready : Ready All s scope) {x : Operand} {d : Name}
    (known : ∀ y ∈ x.names, y ∈ scope) (fresh : d ∈ scope)
    (gives : Gives (contributeTo x d) s () t) : ∃ later, Extends All s scope t later := by
  cases x with
  | const v =>
    obtain ⟨-, rfl⟩ := (gives_pure ..).mp gives
    exact ⟨scope, .refl ready⟩
  | var x => exact contribute_extends ready (known x (by simp [Operand.names])) fresh gives

theorem contributeFormula_extends (ready : Ready All s scope) {x : Operand} {f : Formula}
    (known : ∀ y ∈ x.names, y ∈ scope) (inFormula : ∀ y ∈ f.names, y ∈ scope)
    (gives : Gives (contributeFormula x f) s () t) : ∃ later, Extends All s scope t later := by
  cases x with
  | const v =>
    obtain ⟨-, rfl⟩ := (gives_pure ..).mp gives
    exact ⟨scope, .refl ready⟩
  | var x =>
    simp only [contributeFormula, gives_bind, gives_build] at gives
    obtain ⟨d, u, ⟨rfl, rfl⟩, gives⟩ := gives
    obtain ⟨middle, grows, mem⟩ := Builder.letFormula_grows ready.builder inFormula
    have first := ready.build grows
    obtain ⟨later, second⟩ := contribute_extends first.ready
      (first.sub (known x (by simp [Operand.names]))) mem gives
    exact ⟨later, first.trans second⟩

/-- A walk whose steps extend the scope extends it. -/
theorem forM_extends {α : Type} {f : α → Diff Unit} {xs : List α} (ready : Ready All s scope)
    (step : ∀ a ∈ xs, ∀ s u middle, (∀ x ∈ scope, x ∈ middle) → Ready All s middle →
      Gives (f a) s () u → ∃ later, Extends All s middle u later)
    (gives : Gives (xs.forM f) s () t) : ∃ later, Extends All s scope t later := by
  induction xs generalizing s scope with
  | nil =>
    obtain ⟨-, rfl⟩ := (gives_pure ..).mp gives
    exact ⟨scope, .refl ready⟩
  | cons a xs ih =>
    obtain ⟨_, u, first, rest⟩ := (gives_bind ..).mp gives
    obtain ⟨middle, extended⟩ := step a (by simp) s u scope (fun _ known => known) ready first
    obtain ⟨later, more⟩ := ih extended.ready (fun b mem s u wider sub =>
      step b (by simp [mem]) s u wider fun x known => sub x (extended.sub known)) rest
    exact ⟨later, extended.trans more⟩

theorem seed_extends (ready : Ready All s scope) {results : List Operand} {seeds : List Name}
    (known : ∀ y ∈ operandNames results, y ∈ scope)
    (seeded : ∀ r ∈ results.zip seeds, r.1.name?.isSome → r.2 ∈ scope)
    (gives : Gives (seed results seeds) s () t) : ∃ later, Extends All s scope t later := by
  refine forM_extends ready ?_ gives
  intro r mem s u middle sub opened step
  cases isVar : r.1 with
  | const v =>
    simp only [isVar] at step
    obtain ⟨-, rfl⟩ := (gives_pure ..).mp step
    exact ⟨middle, .refl opened⟩
  | var x =>
    have inResults : r.1 ∈ results := (List.of_mem_zip mem).1
    have here := seeded r mem (by simp [isVar, Operand.name?])
    refine contributeTo_extends opened (fun y inside => sub y (known y ?_)) (sub _ here) step
    exact List.mem_flatMap.mpr ⟨r.1, inResults, inside⟩

/-- The same for a walk whose results have a property that wider scopes preserve. -/
theorem mapM_extends {α β : Type} {f : α → Diff β} {xs : List α} (holds : Scope → β → Prop)
    {ys : List β} (ready : Ready All s scope)
    (mono : ∀ {middle later : Scope} {b}, (∀ x ∈ middle, x ∈ later) → holds middle b →
      holds later b)
    (step : ∀ a ∈ xs, ∀ s u b middle, (∀ x ∈ scope, x ∈ middle) → Ready All s middle →
      Gives (f a) s b u → ∃ later, Extends All s middle u later ∧ holds later b)
    (gives : Gives (xs.mapM f) s ys t) :
    ∃ later, Extends All s scope t later ∧ ys.length = xs.length ∧ ∀ b ∈ ys, holds later b := by
  induction xs generalizing s scope ys with
  | nil =>
    obtain ⟨rfl, rfl⟩ := (gives_pure ..).mp gives
    exact ⟨scope, .refl ready, rfl, by simp⟩
  | cons a xs ih =>
    simp only [List.mapM_cons, gives_bind, gives_pure] at gives
    obtain ⟨b, u, first, bs, v, rest, rfl, rfl⟩ := gives
    obtain ⟨middle, extended, here⟩ :=
      step a (by simp) s u b scope (fun _ known => known) ready first
    obtain ⟨later, more, length, tail⟩ := ih extended.ready (fun c mem s u d wider sub =>
      step c (by simp [mem]) s u d wider fun x known => sub x (extended.sub known)) rest
    refine ⟨later, extended.trans more, by simp [length], ?_⟩
    exact List.forall_mem_cons.mpr ⟨mono (fun _ => more.sub) here, tail⟩

theorem companions_extends (ready : Ready All s scope) {ps : List Param} {cs : List Name}
    (known : ∀ p ∈ ps, p.name ∈ scope)
    (gives : Gives (ps.mapM fun p => companion p.name) s cs t) :
    ∃ later, Extends All s scope t later ∧ ∀ c ∈ cs, c ∈ later := by
  obtain ⟨later, extended, -, all⟩ := mapM_extends (fun later c => c ∈ later) ready
    (fun sub mem => sub _ mem) (fun p mem s u c middle sub opened found =>
      companion_extends opened trivial (sub _ (known p mem)) found) gives
  exact ⟨later, extended, all⟩

theorem adjoints_extends (ready : Ready All s scope) {xs : List Name} {cs : List Operand}
    (known : ∀ x ∈ xs, x ∈ scope) (gives : Gives (adjoints xs) s cs t) :
    ∃ later, Extends All s scope t later ∧ (∀ y ∈ operandNames cs, y ∈ later) ∧
      cs.length = xs.length := by
  obtain ⟨later, extended, length, all⟩ :=
    mapM_extends (fun later c => ∀ y ∈ Operand.names c, y ∈ later) ready
      (fun sub inside y mem => sub y (inside y mem)) (fun x mem s u c middle sub opened found => by
        simp only [gives_bind, gives_pure] at found
        obtain ⟨d, _, found, rfl, rfl⟩ := found
        obtain ⟨later, extended, here⟩ := companion_extends opened trivial (sub _ (known x mem)) found
        exact ⟨later, extended, by simpa [Operand.names] using here⟩) gives
  refine ⟨later, extended, fun y mem => ?_, length⟩
  obtain ⟨c, inList, inside⟩ := List.mem_flatMap.mp mem
  exact all c inList y inside

theorem contributeBoth_extends (ready : Ready All s scope) {x y : Operand} {d : Name}
    (knownLeft : ∀ z ∈ x.names, z ∈ scope) (knownRight : ∀ z ∈ y.names, z ∈ scope)
    (fresh : d ∈ scope)
    (gives : Gives (do contributeTo x d; contributeTo y d) s () t) :
    ∃ later, Extends All s scope t later := by
  obtain ⟨_, u, left, right⟩ := (gives_bind ..).mp gives
  obtain ⟨middle, first⟩ := contributeTo_extends ready knownLeft fresh left
  obtain ⟨later, second⟩ := contributeTo_extends first.ready
    (fun z mem => first.sub (knownRight z mem)) (first.sub fresh) right
  exact ⟨later, first.trans second⟩

theorem comparison_extends (ready : Ready All s scope) {kind : ScalarType} {b : Name}
    {x y : Operand} (outcome : b ∈ scope) (knownLeft : ∀ z ∈ x.names, z ∈ scope)
    (knownRight : ∀ z ∈ y.names, z ∈ scope) (gives : Gives (comparison kind b x y) s () t) :
    ∃ later, Extends All s scope t later := by
  -- the number that stands for the outcome is bound first, and then contributed to both operands
  have bound (e : Exp) (ty : Ty) (closed : (e.outline 1).Closed scope)
      (flat : (e.outline 1).binders = []) (plain : ty.names = [])
      (rest : Gives (do contributeTo x ⟨s.builder.supply.next⟩
                        contributeTo y ⟨s.builder.supply.next⟩)
        { s with builder := (Build.letExp ty e s.builder).2 } () t) :
      ∃ later, Extends All s scope t later := by
    have first := ready.build (Builder.letExp_grows (t := ty) ready.builder closed
      (by simp [flat, Scope.Below]) (by simp [plain]))
    obtain ⟨later, second⟩ := contributeBoth_extends first.ready
      (fun z mem => first.sub (knownLeft z mem)) (fun z mem => first.sub (knownRight z mem))
      List.mem_cons_self rest
    exact ⟨later, first.trans second⟩
  cases kind with
  | float w =>
    simp only [comparison, gives_bind, gives_map, gives_build] at gives
    obtain ⟨_, _, ⟨_, ⟨rfl, rfl⟩, rfl⟩, rest⟩ := gives
    refine bound _ (.scalar (.float w)) ?_
      (by simp [Exp.outline, Body.outline, stmOutline, operandNames, Operand.names]) rfl rest
    simpa [Exp.outline, Body.outline, stmOutline, operandNames, Operand.names, typeNames,
      Ty.names] using outcome
  | int w =>
    simp only [comparison, gives_bind, gives_map, gives_build] at gives
    obtain ⟨_, _, ⟨_, ⟨rfl, rfl⟩, rfl⟩, rest⟩ := gives
    refine bound _ (.scalar (.int w)) (Builder.closed_basic rfl ?_) (Builder.binders_basic _ 1)
      rfl rest
    simpa [BasicOp.names, Operand.names] using outcome
  | bool =>
    simp only [comparison, gives_bind, gives_pure] at gives
    obtain ⟨_, _, ⟨rfl, rfl⟩, rest⟩ := gives
    exact contributeBoth_extends ready knownLeft knownRight outcome rest
  | cert =>
    simp only [comparison, gives_bind, gives_pure] at gives
    obtain ⟨_, _, ⟨rfl, rfl⟩, -, rfl⟩ := gives
    exact ⟨scope, .refl ready⟩

/-- Both formulas are contributed, the second to the second operand. -/
theorem contributeFormulas_extends (ready : Ready All s scope) {x y : Operand} {f g : Formula}
    (knownLeft : ∀ z ∈ x.names, z ∈ scope) (knownRight : ∀ z ∈ y.names, z ∈ scope)
    (inLeft : ∀ z ∈ f.names, z ∈ scope) (inRight : ∀ z ∈ g.names, z ∈ scope)
    (gives : Gives (do contributeFormula x f; contributeFormula y g) s () t) :
    ∃ later, Extends All s scope t later := by
  obtain ⟨_, u, left, right⟩ := (gives_bind ..).mp gives
  obtain ⟨middle, first⟩ := contributeFormula_extends ready knownLeft inLeft left
  obtain ⟨later, second⟩ := contributeFormula_extends first.ready
    (fun z mem => first.sub (knownRight z mem)) (fun z mem => first.sub (inRight z mem)) right
  exact ⟨later, first.trans second⟩

/-- What the sweep may rely on at a statement: the statement is closed in a part of the scope, and its
    pattern is bound. -/
structure Bound (stm : Stm) (scope : Scope) : Prop where
  closed : ∃ inner : Scope, (∀ x ∈ inner, x ∈ scope) ∧ stm.outline.Closed inner
  pattern : ∀ p ∈ stm.pat, p.name ∈ scope

theorem Bound.basic {pat : List Param} {aux : Annotations} {op : BasicOp}
    (bound : Bound ⟨pat, aux, .basic op⟩ scope) : ∀ x ∈ op.names, x ∈ scope := by
  obtain ⟨inner, sub, closed⟩ := bound.closed
  have inExp := ((closed_stm _ _).mp closed).2.1
  simp only [Exp.outline, BasicOp.outline, closed_append, closed_readsAll] at inExp
  exact fun x mem => sub x (inExp.1.1 x mem)

/-- The adjoint of what a statement binds. -/
theorem adjoint_extends (ready : Ready All s scope) {stm : Stm}
    (pattern : ∀ p ∈ stm.pat, p.name ∈ scope) {α : Type} {next : Name → Diff α} {a : α}
    (gives : Gives (do next (← companion (← single .reverse stm).name)) s a t) :
    ∃ adjoint u middle, Extends All s scope u middle ∧ adjoint ∈ middle ∧
      Gives (next adjoint) u a t := by
  simp only [gives_bind, gives_single] at gives
  obtain ⟨p, _, ⟨pat, rfl⟩, adjoint, u, found, rest⟩ := gives
  obtain ⟨middle, extended, mem⟩ :=
    companion_extends ready trivial (pattern p (by simp [pat])) found
  exact ⟨adjoint, u, middle, extended, mem, rest⟩

/-- An adjoint times a partial is contributed. -/
theorem product_extends (ready : Ready All s scope) {x : Operand} {adjoint : Name}
    {kind : ScalarType} {f : Formula} (known : ∀ y ∈ x.names, y ∈ scope) (mem : adjoint ∈ scope)
    (inFormula : ∀ y ∈ f.names, y ∈ scope)
    (gives : Gives (contributeFormula x ((Formula.leaf adjoint kind).mul f)) s () t) :
    ∃ later, Extends All s scope t later := by
  refine contributeFormula_extends ready known ?_ gives
  rw [names_mul, List.forall_mem_append]
  exact ⟨by simpa [Formula.names] using mem, inFormula⟩

theorem Bound.apply {pat : List Param} {aux : Annotations} {func : String} {args : List Operand}
    {ret : List Ty} (bound : Bound ⟨pat, aux, .apply func args ret⟩ scope) :
    ∀ x ∈ operandNames args, x ∈ scope := by
  obtain ⟨inner, sub, closed⟩ := bound.closed
  have inExp := ((closed_stm _ _).mp closed).2.1
  simp only [Exp.outline, closed_append, closed_readsAll] at inExp
  exact fun x mem => sub x (inExp.1.1 x mem)

theorem basicOp_extends (localRules : rules.Local) (ready : Ready All s scope) {stm : Stm}
    {op : BasicOp} (reads : ∀ x ∈ op.names, x ∈ scope) (pattern : ∀ p ∈ stm.pat, p.name ∈ scope)
    (gives : Gives (basicOp rules stm op) s () t) : ∃ later, Extends All s scope t later := by
  -- every case but three starts from the adjoint of what the statement binds
  have started {next : Name → Diff Unit}
      (gives : Gives (do next (← companion (← single .reverse stm).name)) s () t)
      (rest : ∀ adjoint u middle, Extends All s scope u middle → adjoint ∈ middle →
        Gives (next adjoint) u () t → ∃ later, Extends All u middle t later) :
      ∃ later, Extends All s scope t later := by
    obtain ⟨adjoint, u, middle, first, mem, next⟩ := adjoint_extends ready pattern gives
    obtain ⟨later, second⟩ := rest adjoint u middle first mem next
    exact ⟨later, first.trans second⟩
  cases op with
  | operand x =>
    cases x with
    | const v =>
      obtain ⟨-, rfl⟩ := (gives_pure ..).mp gives
      exact ⟨scope, .refl ready⟩
    | var x =>
      refine started gives fun adjoint u middle first mem next => ?_
      have known : ∀ z ∈ (Operand.var x).names, z ∈ middle := fun z inX => first.sub (reads z inX)
      exact contributeTo_extends first.ready known mem next
  | assert cond msg =>
    obtain ⟨-, rfl⟩ := (gives_pure ..).mp gives
    exact ⟨scope, .refl ready⟩
  | compare op x y =>
    simp only [basicOp, gives_bind, gives_single] at gives
    obtain ⟨p, _, ⟨pat, rfl⟩, rest⟩ := gives
    simp only [BasicOp.names, operandNames, List.flatMap_cons, List.flatMap_nil, List.append_nil,
      List.forall_mem_append] at reads
    exact comparison_extends ready (pattern p (by simp [pat])) reads.1 reads.2 rest
  | convert op x =>
    refine started gives fun adjoint u middle first mem next => ?_
    cases op with
    | floatToFloat source target =>
      refine contributeFormula_extends first.ready (fun z inX => first.sub (reads z inX)) ?_ next
      simpa [Formula.names] using mem
    | _ =>
      obtain ⟨-, rfl⟩ := (gives_pure ..).mp next
      exact ⟨middle, .refl first.ready⟩
  | unary op x =>
    refine started gives fun adjoint u middle first mem next => ?_
    refine product_extends first.ready (fun z inX => first.sub (reads z inX)) mem ?_ next
    intro z inPartial
    have inX := localRules.unary op _ z inPartial
    rw [names_ofOperand] at inX
    exact first.sub (reads z inX)
  | binary op x y =>
    refine started gives fun adjoint u middle first mem next => ?_
    have known : ∀ z ∈ x.names ++ y.names, z ∈ middle := by
      simpa [BasicOp.names, operandNames] using fun z inXY => first.sub (reads z inXY)
    have inPartials := localRules.binary op (.ofOperand op.ty x) (.ofOperand op.ty y)
    simp only [names_ofOperand] at inPartials
    have inBoth := fun z inPartial => known z (inPartials z inPartial)
    rw [List.forall_mem_append] at known inBoth
    refine contributeFormulas_extends first.ready known.1 known.2 ?_ ?_ next
    · rw [names_mul, List.forall_mem_append]
      exact ⟨by simpa [Formula.names] using mem, inBoth.1⟩
    · rw [names_mul, List.forall_mem_append]
      exact ⟨by simpa [Formula.names] using mem, inBoth.2⟩
  | _ => exact started gives fun _ _ _ _ _ next => absurd next (gives_throw _ _ _ _)

theorem apply_extends (localRules : rules.Local) (ready : Ready All s scope) {stm : Stm}
    {func : String} {args : List Operand} (reads : ∀ x ∈ operandNames args, x ∈ scope)
    (pattern : ∀ p ∈ stm.pat, p.name ∈ scope) (gives : Gives (apply rules stm func args) s () t) :
    ∃ later, Extends All s scope t later := by
  simp only [apply, gives_bind, gives_signature, gives_partials, gives_single] at gives
  obtain ⟨⟨kinds, ret⟩, _, ⟨-, rfl⟩, ds, _, ⟨known, rfl⟩, p, _, ⟨pat, rfl⟩, adjoint, u, found,
    rest⟩ := gives
  obtain ⟨middle, first, mem⟩ :=
    companion_extends ready trivial (pattern p (by simp [pat])) found
  have inPartials : ∀ d ∈ ds, ∀ x ∈ d.names, x ∈ scope := by
    intro d dMem x inD
    have inArgs := localRules.builtin func _ ds known x ((mem_formulaNames ..).mpr ⟨_, dMem, inD⟩)
    rw [names_formulas] at inArgs
    obtain ⟨arg, argMem, inArg⟩ := List.mem_flatMap.mp inArgs
    obtain ⟨pair, pairMem, rfl⟩ := List.mem_map.mp argMem
    exact reads x (List.mem_flatMap.mpr ⟨pair.2, (List.of_mem_zip pairMem).2, inArg⟩)
  obtain ⟨later, second⟩ := forM_extends first.ready (by
    intro a aMem s u wider sub opened step
    obtain ⟨argMem, dMem⟩ := List.of_mem_zip aMem
    have inArg : ∀ y ∈ a.1.names, y ∈ wider := fun y inArg =>
      sub y (first.sub (reads y (List.mem_flatMap.mpr ⟨a.1, argMem, inArg⟩)))
    exact product_extends opened inArg (sub _ mem)
      (fun y inD => sub y (first.sub (inPartials a.2 dMem y inD))) step) rest
  exact ⟨later, first.trans second⟩

theorem gives_emit (ss : List Stm) (s t : DiffState) (a : Unit) :
    Gives (ss.forM fun stm => build (Build.add stm)) s a t ↔
      { s with builder := s.builder.emit ss } = t := by
  induction ss generalizing s with
  | nil => simp [Builder.emit_nil]
  | cons stm ss ih =>
    simp only [List.forM_eq_forM] at ih
    simp [Builder.emit_cons, ih]

/-- Going back over a statement extends every scope in which it is bound. -/
def Accounts (back : Stm → Diff Unit) : Prop :=
  ∀ (stm : Stm) (s t : DiffState) (scope : Scope), Ready All s scope → Bound stm scope →
    Gives (back stm) s () t → ∃ later, Extends All s scope t later

theorem sweep_extends {back : Stm → Diff Unit} (accounts : Accounts back) {ss : List Stm}
    {seeding : Diff Unit} (closed : (stmOutline ss).Closed scope)
    (seeds : ∀ u, Gives seeding { s with builder := s.builder.emit ss } () u →
      ∃ middle, Extends All { s with builder := s.builder.emit ss } ((stmOutline ss).after scope)
        u middle)
    (gives : Gives (sweep back ss seeding) s () t) :
    ∃ later, Extends All { s with builder := s.builder.emit ss } ((stmOutline ss).after scope)
      t later := by
  simp only [sweep, gives_bind, gives_emit] at gives
  obtain ⟨_, _, rfl, _, u, seeded, swept⟩ := gives
  obtain ⟨middle, first⟩ := seeds u seeded
  obtain ⟨later, second⟩ := forM_extends first.ready (by
    intro stm mem s u wider sub opened step
    have mem : stm ∈ ss := List.mem_reverse.mp mem
    obtain ⟨inner, inScope, closedStm⟩ := closed_of_mem closed mem
    refine accounts stm s u wider opened ⟨⟨inner, ?_, closedStm⟩, ?_⟩ step
    · exact fun x known => sub x (first.sub (inScope x known))
    · intro p inPat
      refine sub _ (first.sub ((mem_after_stmOutline ss scope _).mpr (Or.inr ?_)))
      exact ⟨p, List.mem_flatMap.mpr ⟨stm, mem, inPat⟩, rfl⟩) swept
  exact ⟨later, first.trans second⟩

/-- A body that is emitted as it is, followed by the sweep over it, on an empty statement list. -/
theorem sweepBody_closed {back : Stm → Diff Unit} (accounts : Accounts back) {ss : List Stm}
    {result : List Operand} {seeds xs : List Name} {b : Body}
    (closed : (stmOutline ss).Closed scope)
    (reads : ∀ y ∈ operandNames result, y ∈ (stmOutline ss).after scope)
    (ready : Ready All { s with builder := { s.builder with stms := [] }.emit ss }
      ((stmOutline ss).after scope))
    (seeded : ∀ r ∈ result.zip seeds, r.1.name?.isSome → r.2 ∈ scope)
    (known : ∀ x ∈ xs, x ∈ (stmOutline ss).after scope)
    (gives : Gives (bodyOf (sweep back ss (seed result seeds)) (adjoints xs)) s b t) :
    (∃ new, b.stms = ss ++ new) ∧ b.outline.Closed scope ∧ b.result.length = xs.length ∧
      (Scope.Below (stmOutline ss).binders s.builder.supply.next →
        Scope.Below b.outline.binders t.builder.supply.next) ∧
      t.builder.stms = s.builder.stms ∧ s.builder.supply.next ≤ t.builder.supply.next ∧
      ∀ x ∈ scope, t.builder.types.find? x = s.builder.types.find? x := by
  obtain ⟨u, v, swept, adjoints, emitted, rfl⟩ := (gives_bodyOf ..).mp gives
  obtain ⟨middle, first⟩ := sweep_extends accounts closed (fun w seeding =>
    seed_extends ready reads (fun r mem isVar => mem_after _ (seeded r mem isVar)) seeding) swept
  obtain ⟨later, second, inLater, length⟩ :=
    adjoints_extends first.ready (fun x mem => first.sub (known x mem)) adjoints
  have whole := first.trans second
  obtain ⟨new, stms, closedNew, rfl, bounded⟩ := whole.grows.emitted
  have bodyStms : b.stms = ss ++ new := by
    rw [← emitted, stms]
    simp [Builder.emit]
  refine ⟨⟨new, bodyStms⟩, ?_, length, ?_, rfl, whole.grows.next_le, ?_⟩
  · rw [body_outline, bodyStms, Builder.stmOutline_append]
    simp only [closed_append, after_append, closed_readsAll]
    exact ⟨⟨closed, closedNew⟩, inLater⟩
  · intro below
    rw [body_outline, bodyStms, Builder.stmOutline_append]
    simp only [binders_append, binders_readsAll, List.append_nil]
    exact (below.mono whole.grows.next_le).append bounded
  · intro x here
    have absent : ∀ p ∈ ss.flatMap (·.pat), p.name ≠ x := fun p mem same =>
      not_mem_of_pattern closed.1 p mem (same ▸ here)
    show v.builder.types.find? x = _
    rw [whole.grows.kept x (mem_after _ here)]
    exact Builder.find_declared_of_not_mem _ absent

theorem branchBody_extends {back : Stm → Diff Unit} (accounts : Accounts back)
    (ready : Ready All s scope) {seeds free : List Name} {body b : Body} {inner : Scope}
    (inScope : ∀ x ∈ inner, x ∈ scope) (closed : body.outline.Closed inner)
    (seeded : ∀ x ∈ seeds, x ∈ scope) (known : ∀ x ∈ free, x ∈ scope)
    (gives : Gives (branchBody back seeds free body) s b t) :
    Extends All s scope t scope ∧ b.outline.Closed scope ∧ b.result.length = free.length ∧
      Scope.Below b.outline.binders t.builder.supply.next := by
  simp only [branchBody, gives_bind, gives_build, gives_isolated] at gives
  obtain ⟨_, _, ⟨rfl, rfl⟩, u, inside, rfl⟩ := gives
  obtain ⟨renamed, bound, drawn, next_le⟩ :=
    Body.closed_rename (s := s.builder.supply) closed inScope ready.builder.below
  rw [body_outline] at renamed bound drawn
  simp only [binders_append, binders_readsAll, List.append_nil] at drawn
  simp only [closed_append, closed_readsAll, after_append, after_readsAll] at renamed bound
  -- the copy sees no adjoints from outside
  obtain ⟨-, closedBody, length, bounded, stms, inside_le, kept⟩ :=
    sweepBody_closed (s := ⟨(Build.renamed body s.builder).2, .empty⟩) accounts renamed.1 renamed.2
      { builder := Builder.ready_emit (ready.builder.below.mono next_le)
          (fun x here ty found y inType =>
            mem_after _ (ready.builder.typesIn x here ty found y inType)) renamed.1
          fun p mem => bound _ ((mem_after_stmOutline _ _ _).mpr (Or.inr ⟨p, mem, rfl⟩))
        companion_mem := fun x _ c found => by simp [NameTable.find_empty] at found }
      (fun r mem _ => seeded r.2 (List.of_mem_zip mem).2) (fun x mem => mem_after _ (known x mem))
      inside
  refine ⟨⟨?_, ready.companion_mem⟩, closedBody, length, bounded fun x mem => (drawn x mem).2⟩
  exact .aside ready.builder stms (Nat.le_trans next_le inside_le) kept

theorem gives_typed (xs : List Name) (s t : DiffState) (ps : List Param) :
    Gives (xs.mapM fun x => return Param.mk x (← typeOf x)) s ps t →
      s = t ∧ ps.map (·.name) = xs ∧
        ∀ p ∈ ps, s.builder.types.find? p.name = some p.ty := by
  induction xs generalizing ps with
  | nil =>
    intro gives
    obtain ⟨rfl, rfl⟩ := (gives_pure ..).mp gives
    simp
  | cons x xs ih =>
    simp only [List.mapM_cons, gives_bind, gives_typeOf, gives_pure]
    rintro ⟨_, _, ⟨ty, _, ⟨found, rfl⟩, rfl, rfl⟩, rest, u, tail, rfl, rfl⟩
    obtain ⟨rfl, names, all⟩ := ih rest tail
    exact ⟨rfl, by simp [names], by simpa [found] using all⟩

/-- A pattern of the same types with names drawn one after the other. -/
theorem gives_drawn (ps pat : List Param) (s t : DiffState) (scope : Scope)
    (below : scope.Below s.builder.supply.next)
    (known : ∀ p ∈ ps, ∀ y ∈ p.ty.names, y ∈ scope)
    (gives : Gives (ps.mapM fun p => return { p with name := ← build Build.fresh }) s pat t) :
    t = { s with builder := { s.builder with
        supply := ⟨s.builder.supply.next + ps.length⟩ } } ∧
      pat.map (·.ty) = ps.map (·.ty) ∧ (paramOutline pat).Closed scope ∧
      ∀ p ∈ pat, s.builder.supply.next ≤ p.name.id ∧ p.name.id < t.builder.supply.next := by
  induction ps generalizing s pat scope with
  | nil =>
    obtain ⟨rfl, rfl⟩ := (gives_pure ..).mp gives
    simp [paramOutline]
  | cons p ps ih =>
    simp only [List.mapM_cons, gives_bind, gives_build, gives_pure] at gives
    obtain ⟨_, _, ⟨_, _, ⟨rfl, rfl⟩, rfl, rfl⟩, rest, u, tail, rfl, rfl⟩ := gives
    let x : Name := ⟨s.builder.supply.next⟩
    have wider : Scope.Below (x :: scope) (s.builder.supply.next + 1) :=
      (below.mono (Nat.le_succ _)).cons (Nat.lt_succ_self _)
    obtain ⟨rfl, types, closed, drawn⟩ := ih rest _ (x :: scope) wider
      (fun q mem y inType => List.mem_cons_of_mem _ (known q (by simp [mem]) y inType)) tail
    refine ⟨?_, by simp [types], ?_, ?_⟩
    · simp only [Build.fresh, Supply.fresh, List.length_cons, Nat.add_assoc, Nat.add_comm 1]
    · have fresh : x ∉ scope := below.fresh
      simp only [paramOutline, Param.outline, closed_append, closed_binds, closed_mentionsAll,
        after, after_mentionsAll]
      refine ⟨⟨fresh, fun y inType => ?_⟩, closed⟩
      exact List.mem_cons_of_mem _ (known p (by simp) y inType)
    · intro q mem
      rcases List.mem_cons.mp mem with rfl | mem
      · refine ⟨Nat.le_refl _, ?_⟩
        show s.builder.supply.next < s.builder.supply.next + 1 + ps.length
        omega
      · obtain ⟨lower, upper⟩ := drawn q mem
        exact ⟨Nat.le_of_succ_le lower, upper⟩

theorem mem_freeNames {yes no : Body} {inner : Scope} (closedYes : yes.outline.Closed inner)
    (closedNo : no.outline.Closed inner) : ∀ x ∈ freeNames yes no, x ∈ inner := by
  intro x mem
  rcases List.mem_append.mp mem with mem | mem
  · refine closedYes.free_mem ?_
    rw [occurrences_body]
    exact mem
  · refine closedNo.free_mem ?_
    rw [occurrences_body]
    exact (List.mem_filter.mp mem).1

/-- The conditional over the copies, with a pattern that was drawn for what it returns. -/
theorem branchStm_grows {b : Builder} (aux : Annotations) (sort : BranchSort)
    (ready : b.Ready scope) {free pat : List Param} {cond : Operand} {yes no : Body}
    (certs : ∀ y ∈ aux.certs, y ∈ scope) (knownCond : ∀ y ∈ cond.names, y ∈ scope)
    (closedYes : yes.outline.Closed scope) (closedNo : no.outline.Closed scope)
    (lengthYes : yes.result.length = free.length) (lengthNo : no.result.length = free.length)
    (types : ∀ p ∈ free, ∀ y ∈ p.ty.names, y ∈ scope) (length : pat.length = free.length)
    (closedPat : (paramOutline pat).Closed scope)
    (fresh : ∀ p ∈ pat, b.supply.next ≤ p.name.id ∧ p.name.id < b.supply.next + free.length)
    (inside : Scope.Below (yes.outline.binders ++ no.outline.binders) b.supply.next) :
    b.Grows scope (Build.add ⟨pat, aux, .branch cond yes no (free.map (·.ty)) sort⟩
      { b with supply := ⟨b.supply.next + free.length⟩ }).2 ((paramOutline pat).after scope) := by
  have aside : b.Grows scope { b with supply := ⟨b.supply.next + free.length⟩ } scope :=
    .aside ready rfl (Nat.le_add_right _ _) fun _ _ => rfl
  refine aside.add ((closed_stm _ _).mpr ⟨certs, ?_, closedPat⟩) fresh ?_
  · simp only [Exp.outline, closed_append, after_append, closed_readsAll, after_readsAll,
      closed_block, closed_mentionsAll, after_mentionsAll, closed_count, closed_done, after]
    refine ⟨⟨⟨⟨knownCond, closedYes, by simp [lengthYes]⟩, closedNo, by simp [lengthNo]⟩, ?_⟩,
      by simp [length]⟩
    intro y mem
    obtain ⟨ty, inTypes, inType⟩ := (mem_typeNames _ _).mp mem
    obtain ⟨p, inFree, rfl⟩ := List.mem_map.mp inTypes
    exact types p inFree y inType
  · simp only [Exp.outline, binders_append, binders_readsAll, binders_mentionsAll, binders,
      List.nil_append, List.append_nil]
    exact inside.mono (Nat.le_add_right _ _)

theorem branch_extends {back : Stm → Diff Unit} (accounts : Accounts back)
    (ready : Ready All s scope) {pat : List Param} {aux : Annotations} {cond : Operand}
    {yes no : Body} {ret : List Ty} {sort sort' : BranchSort}
    (bound : Bound ⟨pat, aux, .branch cond yes no ret sort⟩ scope)
    (gives : Gives (branch back ⟨pat, aux, .branch cond yes no ret sort⟩ cond yes no sort') s () t) :
    ∃ later, Extends All s scope t later := by
  obtain ⟨inner, inScope, closed⟩ := bound.closed
  obtain ⟨certs, closedExp, -⟩ := (closed_stm _ _).mp closed
  simp only [Exp.outline, closed_append, after_append, closed_readsAll, after_readsAll,
    closed_block, closed_mentionsAll, after_mentionsAll, closed_count, closed_done, after]
    at closedExp
  obtain ⟨⟨⟨⟨knownCond, closedYes, -⟩, closedNo, -⟩, -⟩, -⟩ := closedExp
  simp only [branch, gives_bind] at gives
  obtain ⟨seeds, u, seeded, typed, _, collected, rest⟩ := gives
  obtain ⟨middle, first, knownSeeds⟩ := companions_extends ready bound.pattern seeded
  obtain ⟨rfl, names, found⟩ := gives_typed _ _ _ _ collected
  have inMiddle : ∀ x ∈ inner, x ∈ middle := fun x mem => first.sub (inScope x mem)
  have knownTyped : ∀ p ∈ typed, p.name ∈ middle := by
    intro p mem
    refine inMiddle _ (mem_freeNames closedYes closedNo _ ?_)
    rw [← names]
    exact List.mem_map_of_mem mem
  have knownFree : ∀ p ∈ typed.filter fun p => !p.ty.isAcc, p.name ∈ middle := fun p mem =>
    knownTyped p (List.mem_filter.mp mem).1
  have typesFree : ∀ p ∈ typed.filter fun p => !p.ty.isAcc, ∀ y ∈ p.ty.names, y ∈ middle :=
    fun p mem => first.ready.builder.typesIn p.name (knownFree p mem) p.ty
      (found p (List.mem_filter.mp mem).1)
  generalize (typed.filter fun p => !p.ty.isAcc) = free at knownFree typesFree rest
  cases isEmpty : free.isEmpty with
  | true =>
    simp only [isEmpty, Bool.not_true, Bool.false_eq_true, if_false, gives_pure] at rest
    obtain ⟨-, rfl⟩ := rest
    exact ⟨middle, first⟩
  | false =>
    simp only [isEmpty, Bool.not_false, if_true, gives_bind, gives_build] at rest
    obtain ⟨yes', v, yesGives, no', w, noGives, pat', x, drawn, _, _, ⟨-, rfl⟩, rest⟩ := rest
    have names : ∀ y ∈ free.map (·.name), y ∈ middle := by simpa using knownFree
    obtain ⟨second, yesClosed, yesLength, yesBelow⟩ :=
      branchBody_extends accounts first.ready inMiddle closedYes knownSeeds names yesGives
    obtain ⟨third, noClosed, noLength, noBelow⟩ :=
      branchBody_extends accounts second.ready inMiddle closedNo knownSeeds names noGives
    have below := third.ready.builder.below
    obtain ⟨rfl, types, closedPat, fresh⟩ := gives_drawn free pat' w x middle below typesFree drawn
    have length : pat'.length = free.length := by simpa using congrArg List.length types
    have fourth := third.ready.build <| branchStm_grows aux sort'
      third.ready.builder (fun y mem => inMiddle y (certs y mem))
      (fun y mem => inMiddle y (knownCond y mem)) yesClosed noClosed (by simp [yesLength])
      (by simp [noLength]) typesFree length closedPat fresh
      ((yesBelow.mono third.grows.next_le).append noBelow)
    obtain ⟨later, fifth⟩ := forM_extends fourth.ready (by
      intro r mem s u wider sub opened step
      obtain ⟨inFree, inPat⟩ := List.of_mem_zip mem
      refine contribute_extends opened (sub _ (fourth.sub (knownFree _ inFree))) (sub _ ?_) step
      exact (mem_after_paramOutline _ _ _).mpr (Or.inr ⟨r.2, inPat, rfl⟩)) rest
    exact ⟨later, (((first.trans second).trans third).trans fourth).trans fifth⟩

/-- Branches may nest as deeply as the number says. -/
theorem accounts_stm (localRules : rules.Local) (depth : Nat) : Accounts (stm rules depth) := by
  induction depth with
  | zero =>
    rintro ⟨pat, aux, e⟩ s t scope ready bound gives
    cases e with
    | basic op => exact basicOp_extends localRules ready bound.basic bound.pattern gives
    | apply func args ret => exact apply_extends localRules ready bound.apply bound.pattern gives
    | _ => exact absurd gives (gives_throw _ _ _ _)
  | succ depth ih =>
    rintro ⟨pat, aux, e⟩ s t scope ready bound gives
    cases e with
    | basic op => exact basicOp_extends localRules ready bound.basic bound.pattern gives
    | apply func args ret => exact apply_extends localRules ready bound.apply bound.pattern gives
    | branch cond yes no ret sort => exact branch_extends ih ready bound gives
    | _ => exact absurd gives (gives_throw _ _ _ _)

theorem companion_recorded {x c : Name} (gives : Gives (companion x) s c t) :
    t.companions.find? x = some c ∧
      ∀ y d, s.companions.find? y = some d → t.companions.find? y = some d := by
  simp only [companion, gives_bind, gives_companion?] at gives
  obtain ⟨found, _, ⟨isFound, rfl⟩, gives⟩ := gives
  cases found with
  | some d =>
    obtain ⟨rfl, rfl⟩ := (gives_pure ..).mp gives
    exact ⟨isFound, fun y e known => known⟩
  | none =>
    simp only [gives_bind, gives_setCompanion, gives_pure, zeroOf, gives_typeOf] at gives
    obtain ⟨d, u, ⟨ty, _, ⟨-, rfl⟩, zero⟩, _, _, rfl, rfl, rfl⟩ := gives
    split at zero
    · obtain ⟨rfl, rfl⟩ := (gives_build ..).mp zero
      refine ⟨by simp [NameTable.find_insert], fun y e known => ?_⟩
      have other : y ≠ x := fun same => by simp [same, isFound] at known
      simpa [NameTable.find_insert, other] using known
    · exact absurd zero (gives_throw _ _ _ _)

/-- The results of the sweep are the adjoints that the table holds at its end, in order. -/
theorem adjoints_recorded {xs : List Name} {cs : List Operand} (gives : Gives (adjoints xs) s cs t) :
    (∀ y d, s.companions.find? y = some d → t.companions.find? y = some d) ∧
      List.Forall₂ (fun x c => ∃ d, t.companions.find? x = some d ∧ c = .var d) xs cs := by
  induction xs generalizing s cs with
  | nil =>
    obtain ⟨rfl, rfl⟩ := (gives_pure ..).mp gives
    exact ⟨fun _ _ known => known, .nil⟩
  | cons x xs ih =>
    simp only [adjoints, List.mapM_cons, gives_bind, gives_pure] at gives ih
    obtain ⟨_, u, ⟨c, _, found, rfl, rfl⟩, rest, v, tail, rfl, rfl⟩ := gives
    obtain ⟨here, kept⟩ := companion_recorded found
    obtain ⟨keptRest, records⟩ := ih tail
    exact ⟨fun y d known => keptRest y d (kept y d known),
      .cons ⟨c, keptRest x c here, rfl⟩ records⟩

end Reverse

end Cotangent
