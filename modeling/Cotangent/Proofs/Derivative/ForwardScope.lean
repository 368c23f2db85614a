import Cotangent.Derivative.Forward
import Cotangent.Proofs.Derivative.Steps
import Cotangent.Proofs.Interleave
import Cotangent.Proofs.Program.Parts
/-!
Scoping of forward differentiation. A state serves a source scope within an emitted scope: every source
name has a type, and the tangents made so far are bound. Asking for a tangent always succeeds, and it
emits at most the zero that it needs, so each construct is followed by the actions it is made of.
-/
namespace Cotangent

open Outline

namespace Forward

open Diff

variable {s t u : DiffState} {source scope middle later : Scope} {bound : Nat}

/-- The state serves the names of `source`, whose numbers lie below `bound`, with statements emitted
    in `scope`. Every other name of that scope is at least `bound`. -/
structure Serves (bound : Nat) (source scope : Scope) (s : DiffState) : Prop where
  sub : ∀ x ∈ source, x ∈ scope
  ready : s.builder.Ready scope
  reserved : bound ≤ s.builder.supply.next
  below : source.Below bound
  old : ∀ x ∈ scope, x.id < bound → x ∈ source
  typed : ∀ x ∈ source, ∃ t, s.builder.types.find? x = some t ∧ t.isAcc = false
  companion_mem : ∀ x ∈ source, ∀ c, s.companions.find? x = some c → c ∈ scope

/-- More was emitted for the same source scope. The tangents of other names stay. -/
structure Goes (bound : Nat) (source : Scope) (s : DiffState) (scope : Scope) (t : DiffState)
    (later : Scope) : Prop where
  grows : s.builder.Grows scope t.builder later
  serves : Serves bound source later t
  kept : ∀ x, x ∉ source → t.companions.find? x = s.companions.find? x

/-- Only fresh names were given types on the way. -/
structure Asks (bound : Nat) (source : Scope) (s : DiffState) (scope : Scope) (t : DiffState)
    (later : Scope) : Prop extends Goes bound source s scope t later where
  types : ∀ x, x.id < s.builder.supply.next →
    t.builder.types.find? x = s.builder.types.find? x

theorem Goes.refl (serves : Serves bound source scope s) : Goes bound source s scope s scope where
  grows := .refl serves.ready
  serves := serves
  kept _ _ := rfl

theorem Goes.trans (first : Goes bound source s scope t middle)
    (second : Goes bound source t middle u later) : Goes bound source s scope u later where
  grows := first.grows.trans second.grows
  serves := second.serves
  kept x other := by rw [second.kept x other, first.kept x other]

theorem Goes.sub (goes : Goes bound source s scope t later) {x : Name} (known : x ∈ scope) :
    x ∈ later :=
  goes.grows.sub known

theorem Asks.refl (serves : Serves bound source scope s) : Asks bound source s scope s scope where
  toGoes := .refl serves
  types _ _ := rfl

theorem Asks.trans (first : Asks bound source s scope t middle)
    (second : Asks bound source t middle u later) : Asks bound source s scope u later where
  toGoes := first.toGoes.trans second.toGoes
  types x small := by
    rw [second.types x (Nat.lt_of_lt_of_le small first.grows.next_le), first.types x small]

/-- The builder grows and the companions stay. -/
theorem Serves.build (serves : Serves bound source scope s) {b : Builder}
    (grows : s.builder.Grows scope b later) :
    Goes bound source s scope { s with builder := b } later where
  grows := grows
  serves := {
    sub := fun x known => grows.sub (serves.sub x known)
    ready := grows.ready
    reserved := Nat.le_trans serves.reserved grows.next_le
    below := serves.below
    old := fun x known small => by
      rcases grows.fresh x known with known | fresh
      · exact serves.old x known small
      · have := serves.reserved
        omega
    typed := fun x known => by
      rw [grows.kept x (serves.sub x known)]
      exact serves.typed x known
    companion_mem := fun x known c found => grows.sub (serves.companion_mem x known c found) }
  kept _ _ := rfl

theorem Serves.setCompanion (serves : Serves bound source scope s) {x c : Name} (key : x ∈ source)
    (known : c ∈ scope) :
    Asks bound source s scope { s with companions := s.companions.insert x c } scope where
  grows := .refl serves.ready
  serves := { serves with
    companion_mem := fun y known' d found => by
      rw [NameTable.find_insert] at found
      split at found
      · exact Option.some.inj found ▸ known
      · exact serves.companion_mem y known' d found }
  kept y other := by
    have apart : y ≠ x := fun same => other (same ▸ key)
    rw [NameTable.find_insert, if_neg apart]
  types _ _ := rfl

/-! Tangents of names and operands. -/

theorem zeroExp_of_not_acc {t : Ty} (plain : t.isAcc = false) : ∃ e, zeroExp t = some e := by
  cases t with
  | scalar k => exact ⟨_, rfl⟩
  | array elem shape unique => exact ⟨_, rfl⟩
  | acc token shape elems unique => simp [Ty.isAcc] at plain

theorem zeroOf_asks (serves : Serves bound source scope s) {x : Name} (known : x ∈ source) :
    ∃ c t later, Gives (zeroOf x) s c t ∧ Asks bound source s scope t later ∧ c ∈ later := by
  obtain ⟨ty, found, plain⟩ := serves.typed x known
  obtain ⟨e, zero⟩ := zeroExp_of_not_acc plain
  have inType := serves.ready.typesIn x (serves.sub x known) ty found
  obtain ⟨closed, flat⟩ := closed_zeroExp zero inType
  have grows := Builder.letExp_grows serves.ready closed (by simp [flat, Scope.Below]) inType
  refine ⟨⟨s.builder.supply.next⟩, _, _, ?_, ⟨serves.build grows, ?_⟩, List.mem_cons_self⟩
  · simp only [zeroOf, gives_bind, gives_typeOf]
    refine ⟨ty, s, ⟨found, rfl⟩, ?_⟩
    simp only [zero]
    exact (gives_build ..).mpr ⟨rfl, rfl⟩
  · intro y small
    have other : ∀ p ∈ [Param.mk ⟨s.builder.supply.next⟩ ty], p.name ≠ y := by
      simp only [List.mem_singleton, forall_eq]
      exact fun same => Nat.lt_irrefl _ (same ▸ small)
    exact Builder.find_declared_of_not_mem _ other

theorem companion_asks (serves : Serves bound source scope s) {x : Name} (known : x ∈ source) :
    ∃ c t later, Gives (companion x) s c t ∧ Asks bound source s scope t later ∧ c ∈ later := by
  cases found : s.companions.find? x with
  | some c =>
    refine ⟨c, s, scope, ?_, .refl serves, serves.companion_mem x known c found⟩
    simp [companion, found]
  | none =>
    obtain ⟨c, t, later, gives, asks, mem⟩ := zeroOf_asks serves known
    refine ⟨c, _, later, ?_, asks.trans (asks.serves.setCompanion known mem), mem⟩
    simp only [companion, gives_bind, gives_companion?]
    refine ⟨none, s, ⟨found, rfl⟩, ?_⟩
    simp only [gives_bind, gives_setCompanion, gives_pure]
    exact ⟨c, t, gives, (), _, rfl, rfl, rfl⟩

/-- The names of an operand stand in a scope. -/
abbrev Known (scope : Scope) (x : Operand) : Prop := ∀ y ∈ x.names, y ∈ scope

theorem tangent_asks (serves : Serves bound source scope s) {x : Operand} (known : Known source x) :
    ∃ y t later, Gives (tangent x) s y t ∧ Asks bound source s scope t later ∧ Known later y := by
  cases x with
  | const v =>
    refine ⟨.const (Scalar.zero v.ty), s, scope, ?_, .refl serves, by simp [Known, Operand.names]⟩
    simp [tangent]
  | var x =>
    obtain ⟨c, t, later, gives, asks, mem⟩ := companion_asks serves (known x (by simp [Operand.names]))
    refine ⟨.var c, t, later, ?_, asks, by simpa [Known, Operand.names] using mem⟩
    simp only [tangent, gives_bind, gives_pure]
    exact ⟨c, t, gives, rfl, rfl⟩

theorem zeroOperand_asks (serves : Serves bound source scope s) {x : Operand}
    (known : Known source x) :
    ∃ y t later, Gives (zeroOperand x) s y t ∧ Asks bound source s scope t later ∧
      Known later y := by
  cases x with
  | const v =>
    refine ⟨.const (Scalar.zero v.ty), s, scope, ?_, .refl serves, by simp [Known, Operand.names]⟩
    simp [zeroOperand]
  | var x =>
    have known : x ∈ source := known x (by simp [Operand.names])
    obtain ⟨ty, found, plain⟩ := serves.typed x known
    have lazily (array : ∀ k, ty ≠ .scalar k) : ∃ y t later, Gives (zeroOperand (.var x)) s y t ∧
        Asks bound source s scope t later ∧ Known later y := by
      obtain ⟨c, t, later, gives, asks, mem⟩ := zeroOf_asks serves known
      refine ⟨.var c, t, later, ?_, asks, by simpa [Known, Operand.names] using mem⟩
      simp only [zeroOperand, gives_bind, gives_typeOf]
      refine ⟨ty, s, ⟨found, rfl⟩, ?_⟩
      split
      · rename_i k
        exact absurd rfl (array k)
      · simp only [gives_bind, gives_pure]
        exact ⟨c, t, gives, rfl, rfl⟩
    cases ty with
    | scalar k =>
      refine ⟨.const (Scalar.zero k), s, scope, ?_, .refl serves, by simp [Known, Operand.names]⟩
      simp only [zeroOperand, gives_bind, gives_typeOf]
      exact ⟨.scalar k, s, ⟨found, rfl⟩, (gives_pure ..).mpr ⟨rfl, rfl⟩⟩
    | array elem shape unique => exact lazily fun k same => by simp at same
    | acc token shape elems unique => simp [Ty.isAcc] at plain

/-- A walk of such steps is one; what its results have in a scope they keep in wider ones. -/
theorem mapM_asks {α β : Type} {f : α → Diff β} {xs : List α} (holds : Scope → β → Prop)
    (serves : Serves bound source scope s)
    (mono : ∀ {middle later : Scope} {b}, (∀ x ∈ middle, x ∈ later) → holds middle b →
      holds later b)
    (step : ∀ a ∈ xs, ∀ s middle, Serves bound source middle s →
      ∃ b t later, Gives (f a) s b t ∧ Asks bound source s middle t later ∧ holds later b) :
    ∃ ys t later, Gives (xs.mapM f) s ys t ∧ Asks bound source s scope t later ∧
      ys.length = xs.length ∧ ∀ b ∈ ys, holds later b := by
  induction xs generalizing s scope with
  | nil => exact ⟨[], s, scope, by simp, .refl serves, rfl, by simp⟩
  | cons a xs ih =>
    obtain ⟨b, u, middle, first, asks, here⟩ := step a (by simp) s scope serves
    obtain ⟨bs, t, later, rest, more, length, tail⟩ :=
      ih asks.serves fun c mem s wider => step c (by simp [mem]) s wider
    refine ⟨b :: bs, t, later, ?_, asks.trans more, by simp [length], ?_⟩
    · simp only [List.mapM_cons, gives_bind, gives_pure]
      exact ⟨b, u, first, bs, t, rest, rfl, rfl⟩
    · exact List.forall_mem_cons.mpr ⟨mono (fun _ => more.sub) here, tail⟩

theorem known_of_mem {xs : List Operand} (known : ∀ y ∈ operandNames xs, y ∈ source) {x : Operand}
    (mem : x ∈ xs) : Known source x :=
  fun y inX => known y (List.mem_flatMap.mpr ⟨x, mem, inX⟩)

theorem names_of_known {xs : List Operand} (known : ∀ x ∈ xs, Known source x) :
    ∀ y ∈ operandNames xs, y ∈ source := by
  intro y mem
  obtain ⟨x, inList, inX⟩ := List.mem_flatMap.mp mem
  exact known x inList y inX

theorem tangents_asks (serves : Serves bound source scope s) {xs : List Operand}
    (known : ∀ y ∈ operandNames xs, y ∈ source) :
    ∃ ys t later, Gives (tangents xs) s ys t ∧ Asks bound source s scope t later ∧
      ys.length = xs.length ∧ ∀ y ∈ operandNames ys, y ∈ later := by
  obtain ⟨ys, t, later, gives, asks, length, all⟩ := mapM_asks Known serves
    (fun sub inside y mem => sub y (inside y mem))
    fun x mem _ _ serves => tangent_asks serves (known_of_mem known mem)
  exact ⟨ys, t, later, gives, asks, length, names_of_known all⟩

theorem companions_asks (serves : Serves bound source scope s) {xs : List Name}
    (known : ∀ x ∈ xs, x ∈ source) :
    ∃ cs t later, Gives (xs.mapM companion) s cs t ∧ Asks bound source s scope t later ∧
      cs.length = xs.length ∧ ∀ c ∈ cs, c ∈ later :=
  mapM_asks (fun later c => c ∈ later) serves (fun sub mem => sub _ mem)
    fun x mem _ _ serves => companion_asks serves (known x mem)

/-! Pairs of a value and its tangent, side by side. -/

theorem gives_isAccOperand (serves : Serves bound source scope s) {x : Operand}
    (known : Known source x) : Gives (isAccOperand x) s false s := by
  cases x with
  | const v => simp [isAccOperand]
  | var x =>
    obtain ⟨ty, found, plain⟩ := serves.typed x (known x (by simp [Operand.names]))
    simp only [isAccOperand, isAccName, gives_bind, gives_typeOf, gives_pure]
    exact ⟨ty, s, ⟨found, rfl⟩, plain, rfl⟩

theorem gives_isAccName (serves : Serves bound source scope s) {x : Name} (known : x ∈ source) :
    Gives (isAccName x) s false s := by
  obtain ⟨ty, found, plain⟩ := serves.typed x known
  simp only [isAccName, gives_bind, gives_typeOf, gives_pure]
  exact ⟨ty, s, ⟨found, rfl⟩, plain, rfl⟩

theorem gives_bundled_nil {α β : Type} (f : α → Diff (List β)) (s : DiffState) :
    Gives (bundled f []) s [] s := by
  simp [bundled]

theorem gives_bundled_cons {α β : Type} {f : α → Diff (List β)} {x : α} {xs : List α}
    {part parts : List β} (first : Gives (f x) s part u) (rest : Gives (bundled f xs) u parts t) :
    Gives (bundled f (x :: xs)) s (part ++ parts) t := by
  simp only [bundled, gives_bind, gives_pure] at rest
  obtain ⟨more, _, mapped, rfl, rfl⟩ := rest
  simp only [bundled, List.mapM_cons]
  exact (first.bind (mapped.bind (.pure (part :: more) _))).bind (.pure _ _)

/-- Where nothing is an accumulator, a walk that bundles gives what the walk over the second parts
    alone gives, side by side with the first parts. -/
theorem gives_bundled {α : Type} {test : α → Diff Bool} {alone : α → Diff (List α)}
    {second : α → Diff α} {xs ys : List α} (serves : Serves bound source scope s)
    (plain : ∀ x ∈ xs, ∀ s scope, Serves bound source scope s → Gives (test x) s false s)
    (asks : ∀ x ∈ xs, ∀ s scope, Serves bound source scope s →
      ∃ y t later, Gives (second x) s y t ∧ Serves bound source later t)
    (gives : Gives (xs.mapM second) s ys t) :
    Gives (bundled (fun x => do
      if ← test x then alone x else return [x, ← second x]) xs) s (interleave xs ys) t := by
  induction xs generalizing s scope ys with
  | nil =>
    obtain ⟨rfl, rfl⟩ := (gives_pure ..).mp gives
    exact gives_bundled_nil _ s
  | cons x xs ih =>
    simp only [List.mapM_cons, gives_bind, gives_pure] at gives
    obtain ⟨y, u, first, rest, v, tail, rfl, rfl⟩ := gives
    obtain ⟨y', u', middle, first', served⟩ := asks x (by simp) s scope serves
    obtain ⟨rfl, rfl⟩ := first'.unique first
    have bundledRest := ih served (fun z mem => plain z (by simp [mem]))
      (fun z mem => asks z (by simp [mem])) tail
    refine gives_bundled_cons ?_ bundledRest
    exact (plain x (by simp) s scope serves).bind (first'.bind (.pure [x, y'] _))

/-- The operands are bundled with the tangents that asking for tangents alone gives. -/
theorem gives_bundleOperands (serves : Serves bound source scope s) {xs ys : List Operand}
    (known : ∀ y ∈ operandNames xs, y ∈ source) (gives : Gives (tangents xs) s ys t) :
    Gives (bundleOperands xs) s (interleave xs ys) t := by
  refine gives_bundled serves ?_ ?_ gives
  · intro x mem s scope serves
    exact gives_isAccOperand serves (known_of_mem known mem)
  · intro x mem s scope serves
    obtain ⟨y, t, later, gives, asks, -⟩ := tangent_asks serves (known_of_mem known mem)
    exact ⟨y, t, later, gives, asks.serves⟩

theorem bundleNames_asks (serves : Serves bound source scope s) {xs : List Name}
    (known : ∀ x ∈ xs, x ∈ source) :
    ∃ cs t later, Gives (bundleNames xs) s (interleave xs cs) t ∧
      Asks bound source s scope t later ∧ cs.length = xs.length ∧ ∀ c ∈ cs, c ∈ later := by
  obtain ⟨cs, t, later, gives, asks, length, all⟩ := companions_asks serves known
  refine ⟨cs, t, later, gives_bundled serves ?_ ?_ gives, asks, length, all⟩
  · intro x mem s scope serves
    exact gives_isAccName serves (known x mem)
  · intro x mem s scope serves
    obtain ⟨c, t, later, gives, asks, -⟩ := companion_asks serves (known x mem)
    exact ⟨c, t, later, gives, asks.serves⟩

theorem bundleNeutral_asks (serves : Serves bound source scope s) {xs : List Operand}
    (known : ∀ y ∈ operandNames xs, y ∈ source) :
    ∃ ys t later, Gives (bundleNeutral xs) s (interleave xs ys) t ∧
      Asks bound source s scope t later ∧ ys.length = xs.length ∧
      ∀ y ∈ operandNames ys, y ∈ later := by
  obtain ⟨ys, t, later, gives, asks, length, all⟩ := mapM_asks Known serves
    (fun sub inside y mem => sub y (inside y mem))
    fun x mem _ _ serves => zeroOperand_asks serves (known_of_mem known mem)
  refine ⟨ys, t, later, ?_, asks, length, names_of_known all⟩
  simp only [bundleNeutral, gives_bind, gives_pure]
  exact ⟨ys, t, gives, rfl, rfl⟩

/-! Tangents of binders. -/

theorem tangent_of_not_acc {t : Ty} (plain : t.isAcc = false) : t.tangent = t := by
  cases t with
  | scalar k => rfl
  | array elem shape unique => rfl
  | acc token shape elems unique => simp [Ty.isAcc] at plain

theorem tangentTypes_eq {ts : List Ty} (plain : ∀ t ∈ ts, t.isAcc = false) :
    tangentTypes ts = ts := by
  induction ts with
  | nil => rfl
  | cons t ts ih =>
    rw [tangentTypes, tangent_of_not_acc (plain t (by simp)), ih fun u mem => plain u (by simp [mem])]

theorem bundledTypes_eq {ts : List Ty} (plain : ∀ t ∈ ts, t.isAcc = false) :
    bundledTypes ts = interleave ts ts := by
  induction ts with
  | nil => rfl
  | cons t ts ih =>
    have here := plain t (by simp)
    have rest := ih fun u mem => plain u (by simp [mem])
    simp only [bundledTypes, List.flatMap_cons] at rest ⊢
    rw [rest, here, tangent_of_not_acc here]
    rfl

/-- The tangents drawn for binders. -/
def tangentsOf (s : DiffState) (ps : List Param) : List Param :=
  paramsFrom s.builder.supply.next (ps.map (·.ty))

/-- The state after tangents were drawn for binders and recorded as their companions. -/
def withTangents (s : DiffState) (ps : List Param) : DiffState :=
  { builder := { s.builder with
      supply := ⟨s.builder.supply.next + ps.length⟩
      types := s.builder.types.insertAll ((tangentsOf s ps).map fun p => (p.name, p.ty)) }
    companions :=
      s.companions.insertAll ((ps.zip (tangentsOf s ps)).map fun p => (p.1.name, p.2.name)) }

theorem gives_newTangent {p : Param} (plain : p.ty.isAcc = false) (s : DiffState) :
    Gives (newTangent p) s ⟨⟨s.builder.supply.next⟩, p.ty⟩ (withTangents s [p]) := by
  simp only [newTangent, plain, Bool.false_eq_true, if_false, gives_bind, gives_build,
    gives_setCompanion, gives_pure, tangent_of_not_acc plain]
  exact ⟨_, _, ⟨rfl, rfl⟩, (), _, rfl, (), _, ⟨trivial, rfl⟩, rfl, rfl⟩

theorem withTangents_cons (s : DiffState) (p : Param) (ps : List Param) :
    withTangents (withTangents s [p]) ps = withTangents s (p :: ps) := by
  simp [withTangents, tangentsOf, paramsFrom, NameTable.insertAll, Nat.add_assoc, Nat.add_comm 1]

theorem gives_newTangents {ps : List Param} (plain : ∀ p ∈ ps, p.ty.isAcc = false)
    (s : DiffState) : Gives (ps.mapM newTangent) s (tangentsOf s ps) (withTangents s ps) := by
  induction ps generalizing s with
  | nil => simp [tangentsOf, withTangents, paramsFrom, NameTable.insertAll]
  | cons p ps ih =>
    have rest := ih (fun q mem => plain q (by simp [mem])) (withTangents s [p])
    rw [withTangents_cons] at rest
    rw [List.mapM_cons]
    exact (gives_newTangent (plain p (by simp)) s).bind (rest.bind (.pure _ _))

theorem gives_bundleBinders {ps : List Param} (plain : ∀ p ∈ ps, p.ty.isAcc = false)
    (s : DiffState) :
    Gives (bundleBinders ps) s (interleave ps (tangentsOf s ps)) (withTangents s ps) := by
  induction ps generalizing s with
  | nil => exact gives_bundled_nil _ s
  | cons p ps ih =>
    have here := plain p (by simp)
    have rest := ih (fun q mem => plain q (by simp [mem])) (withTangents s [p])
    rw [withTangents_cons] at rest
    have pair : Gives (do
        let tan ← newTangent p
        return if p.ty.isAcc then [tan] else [p, tan]) s
        [p, ⟨⟨s.builder.supply.next⟩, p.ty⟩] (withTangents s [p]) :=
      (gives_newTangent here s).bind (by simp [here])
    exact gives_bundled_cons pair rest

/-! Entering the scope of binders and their tangents. -/

/-- Binders that stand in for others of the same types, under names that are new to the scope. -/
structure Twins (bound : Nat) (scope : Scope) (ps tans : List Param) : Prop where
  types : tans.map (·.ty) = ps.map (·.ty)
  nodup : (tans.map (·.name)).Nodup
  absent : ∀ q ∈ tans, q.name ∉ scope
  large : ∀ q ∈ tans, bound ≤ q.name.id

theorem twins_tangentsOf (serves : Serves bound source scope s) (ps : List Param) :
    Twins bound scope ps (tangentsOf s ps) where
  types := types_paramsFrom _ _
  nodup := nodup_paramsFrom _ _
  absent q mem known := by
    have below := serves.ready.below _ known
    have drawn := (bounds_paramsFrom mem).1
    omega
  large q mem := Nat.le_trans serves.reserved (bounds_paramsFrom mem).1

theorem Twins.length {ps tans : List Param} (twins : Twins bound scope ps tans) :
    tans.length = ps.length := by
  simpa using congrArg List.length twins.types

theorem Twins.plain {ps tans : List Param} (twins : Twins bound scope ps tans)
    (plain : ∀ p ∈ ps, p.ty.isAcc = false) : ∀ q ∈ tans, q.ty.isAcc = false := by
  intro q mem
  have inTypes : q.ty ∈ ps.map (·.ty) := twins.types ▸ List.mem_map_of_mem mem
  obtain ⟨p, inParams, same⟩ := List.mem_map.mp inTypes
  exact same ▸ plain p inParams

theorem Twins.mono {ps tans : List Param} (twins : Twins bound scope ps tans) (later : Scope)
    (absent : ∀ q ∈ tans, q.name ∉ later) : Twins bound later ps tans :=
  { twins with absent := absent }

/-- How the names of two scopes relate, whatever the state. -/
structure Within (bound : Nat) (source scope : Scope) : Prop where
  sub : ∀ x ∈ source, x ∈ scope
  old : ∀ x ∈ scope, x.id < bound → x ∈ source

theorem Serves.within (serves : Serves bound source scope s) : Within bound source scope :=
  ⟨serves.sub, serves.old⟩

theorem Within.absent (within : Within bound source scope) {x : Name} (small : x.id < bound)
    (fresh : x ∉ source) : x ∉ scope :=
  fun known => fresh (within.old x known small)

theorem Within.cons (within : Within bound source scope) (x : Name) :
    Within bound (x :: source) (x :: scope) where
  sub y known := by
    rcases List.mem_cons.mp known with rfl | known
    · exact List.mem_cons_self
    · exact List.mem_cons_of_mem _ (within.sub y known)
  old y known small := by
    rcases List.mem_cons.mp known with rfl | known
    · exact List.mem_cons_self
    · exact List.mem_cons_of_mem _ (within.old y known small)

theorem Within.large (within : Within bound source scope) {x : Name} (large : bound ≤ x.id) :
    Within bound source (x :: scope) where
  sub y known := List.mem_cons_of_mem _ (within.sub y known)
  old y known small := by
    rcases List.mem_cons.mp known with rfl | known
    · omega
    · exact within.old y known small

theorem closed_cons_param (p : Param) (ps : List Param) (scope : Scope) :
    (paramOutline (p :: ps)).Closed scope ↔
      p.name ∉ scope ∧ (∀ y ∈ p.ty.names, y = p.name ∨ y ∈ scope) ∧
        (paramOutline ps).Closed (p.name :: scope) := by
  simp [paramOutline, Param.outline]

theorem after_cons_param (p : Param) (ps : List Param) (scope : Scope) :
    (paramOutline (p :: ps)).after scope = (paramOutline ps).after (p.name :: scope) := by
  simp [paramOutline, Param.outline]

theorem closed_interleave {ps tans : List Param} (within : Within bound source scope)
    (closed : (paramOutline ps).Closed source) (small : ∀ p ∈ ps, p.name.id < bound)
    (twins : Twins bound scope ps tans) :
    (paramOutline (interleave ps tans)).Closed scope ∧
      Within bound ((paramOutline ps).after source)
        ((paramOutline (interleave ps tans)).after scope) := by
  induction ps generalizing source scope tans with
  | nil => simpa [paramOutline] using within
  | cons p ps ih =>
    obtain ⟨types, nodup, absent, large⟩ := twins
    cases tans with
    | nil => simp at types
    | cons q tans =>
      obtain ⟨fresh, inType, rest⟩ := (closed_cons_param p ps source).mp closed
      obtain ⟨sameType, types⟩ := List.cons.inj types
      obtain ⟨other, nodup⟩ := List.nodup_cons.mp nodup
      have lower : bound ≤ q.name.id := large q (by simp)
      have upper : p.name.id < bound := small p (by simp)
      have apart : q.name ≠ p.name := fun same => by rw [same] at lower; omega
      have inner := (within.cons p.name).large lower
      have step := ih inner rest (fun r mem => small r (by simp [mem])) {
        types := types
        nodup := nodup
        absent := fun r mem known => by
          have lowerR := large r (by simp [mem])
          rcases List.mem_cons.mp known with same | known
          · exact other (List.mem_map.mpr ⟨r, mem, same⟩)
          · rcases List.mem_cons.mp known with same | known
            · rw [same] at lowerR
              omega
            · exact absent r (by simp [mem]) known
        large := fun r mem => large r (by simp [mem]) }
      have known : ∀ y ∈ p.ty.names, y = p.name ∨ y ∈ scope := fun y mem =>
        (inType y mem).imp_right (within.sub y)
      rw [interleave_cons, closed_cons_param, closed_cons_param, after_cons_param,
        after_cons_param, after_cons_param]
      refine ⟨⟨within.absent upper fresh, known, ?_, ?_, step.1⟩, step.2⟩
      · simpa [apart] using absent q (by simp)
      · intro y mem
        have same : q.ty = p.ty := sameType
        rw [same] at mem
        rcases known y mem with same | known
        · exact Or.inr (by simp [same])
        · exact Or.inr (List.mem_cons_of_mem _ known)

/-- The state after binders and their tangents were bound. Tangents that were not recorded are zero
    where they are asked for. -/
theorem Serves.enter (serves : Serves bound source scope s) {ps qs : List Param} (tans : List Param)
    (within : Within bound ((paramOutline ps).after source) ((paramOutline qs).after scope))
    (closed : (paramOutline qs).Closed scope) (small : ∀ p ∈ ps, p.name.id < bound)
    (plain : ∀ q ∈ qs, q.ty.isAcc = false) (sub : ∀ p ∈ ps, p ∈ qs) (tangents : ∀ q ∈ tans, q ∈ qs)
    (next_le : s.builder.supply.next ≤ t.builder.supply.next)
    (drawn : ∀ q ∈ qs, q.name.id < t.builder.supply.next)
    (types : ∀ x ∈ scope, t.builder.types.find? x = s.builder.types.find? x)
    (declared : ∀ q ∈ qs, ∃ r ∈ qs, t.builder.types.find? q.name = some r.ty)
    (kept : ∀ x ∈ source, t.companions.find? x = s.companions.find? x)
    (paired : ∀ p ∈ ps, ∀ c, t.companions.find? p.name = some c → ∃ q ∈ tans, q.name = c) :
    Serves bound ((paramOutline ps).after source) ((paramOutline qs).after scope) t where
  sub := within.sub
  old := within.old
  reserved := Nat.le_trans serves.reserved next_le
  below x known := by
    rcases (mem_after_paramOutline ..).mp known with known | ⟨p, mem, rfl⟩
    · exact serves.below x known
    · exact small p mem
  ready := {
    below := fun x known => by
      rcases (mem_after_paramOutline ..).mp known with known | ⟨q, mem, rfl⟩
      · exact Nat.lt_of_lt_of_le (serves.ready.below x known) next_le
      · exact drawn q mem
    typesIn := fun x known ty found y inType => by
      rcases (mem_after_paramOutline ..).mp known with known | ⟨q, mem, rfl⟩
      · rw [types x known] at found
        exact mem_after _ (serves.ready.typesIn x known ty found y inType)
      · obtain ⟨r, memR, here⟩ := declared q mem
        obtain rfl : r.ty = ty := Option.some.inj (here.symm.trans found)
        exact typesIn_params closed.2 r memR y inType }
  typed x known := by
    rcases (mem_after_paramOutline ..).mp known with known | ⟨p, mem, rfl⟩
    · rw [types x (serves.sub x known)]
      exact serves.typed x known
    · obtain ⟨r, memR, here⟩ := declared p (sub p mem)
      exact ⟨r.ty, here, plain r memR⟩
  companion_mem x known c found := by
    rcases (mem_after_paramOutline ..).mp known with known | ⟨p, mem, rfl⟩
    · rw [kept x known] at found
      exact mem_after _ (serves.companion_mem x known c found)
    · obtain ⟨q, memQ, rfl⟩ := paired p mem c found
      exact (mem_after_paramOutline ..).mpr (Or.inr ⟨q, tangents q memQ, rfl⟩)

/-! Statements. -/

/-- The state has emitted statements that take the source scope and the emitted one to later ones. -/
structure Emits (bound : Nat) (source scope : Scope) (s : DiffState) (source' later : Scope)
    (t : DiffState) : Prop where
  emitted : ∃ new, t.builder.stms = s.builder.stms ++ new ∧ (stmOutline new).Closed scope ∧
    (stmOutline new).after scope = later ∧
    Scope.Below (stmOutline new).binders t.builder.supply.next
  next_le : s.builder.supply.next ≤ t.builder.supply.next
  types : ∀ x ∈ scope, t.builder.types.find? x = s.builder.types.find? x
  serves : Serves bound source' later t

variable {source' source'' : Scope}

theorem Goes.emits (goes : Goes bound source s scope t later) :
    Emits bound source scope s source later t where
  emitted := goes.grows.emitted
  next_le := goes.grows.next_le
  types := goes.grows.kept
  serves := goes.serves

theorem Emits.sub (emits : Emits bound source scope s source' later t) {x : Name}
    (known : x ∈ scope) : x ∈ later := by
  obtain ⟨new, -, -, rfl, -⟩ := emits.emitted
  exact mem_after _ known

theorem Emits.trans (first : Emits bound source scope s source' middle t)
    (second : Emits bound source' middle t source'' later u) :
    Emits bound source scope s source'' later u where
  emitted := by
    obtain ⟨new, stms, closed, rfl, bounded⟩ := first.emitted
    obtain ⟨more, stms', closed', rfl, bounded'⟩ := second.emitted
    refine ⟨new ++ more, by rw [stms', stms, List.append_assoc], ?_, ?_, ?_⟩
    · rw [Builder.stmOutline_append, closed_append]
      exact ⟨closed, closed'⟩
    · rw [Builder.stmOutline_append, after_append]
    · rw [Builder.stmOutline_append, binders_append]
      exact (bounded.mono second.next_le).append bounded'
  next_le := Nat.le_trans first.next_le second.next_le
  types x known := by rw [second.types x (first.sub known), first.types x known]
  serves := second.serves

/-- The types of parameters that were just declared. -/
theorem find_declared_self (types : NameTable Ty) {qs : List Param} {q : Param} (mem : q ∈ qs) :
    ∃ r ∈ qs, (types.insertAll (qs.map fun p => (p.name, p.ty))).find? q.name = some r.ty := by
  obtain ⟨ty, pair, found⟩ := NameTable.find_insertAll_of_mem types
    (qs.map fun p => (p.name, p.ty)) q.name (by
      simp only [List.map_map, List.mem_map]
      exact ⟨q, mem, rfl⟩)
  obtain ⟨r, memR, same⟩ := List.mem_map.mp pair
  obtain ⟨-, rfl⟩ := Prod.mk.inj same
  exact ⟨r, memR, found⟩

/-- A statement is emitted that binds a source pattern together with its tangents. -/
theorem Emits.bind (emits : Emits bound source scope s source middle t) {ps qs : List Param}
    {aux : Annotations} {e : Exp} (tans : List Param)
    (within : Within bound ((paramOutline ps).after source) ((paramOutline qs).after middle))
    (pattern : (paramOutline qs).Closed middle) (small : ∀ p ∈ ps, p.name.id < bound)
    (plain : ∀ q ∈ qs, q.ty.isAcc = false) (sub : ∀ p ∈ ps, p ∈ qs) (tangents : ∀ q ∈ tans, q ∈ qs)
    (drawn : ∀ q ∈ qs, q.name.id < t.builder.supply.next)
    (paired : ∀ p ∈ ps, ∀ c, t.companions.find? p.name = some c → ∃ q ∈ tans, q.name = c)
    (certs : ∀ x ∈ aux.certs, x ∈ middle) (closed : (e.outline qs.length).Closed middle)
    (inside : Scope.Below (e.outline qs.length).binders t.builder.supply.next) :
    Emits bound source scope s ((paramOutline ps).after source) ((paramOutline qs).after middle)
      { t with builder := (Build.add ⟨qs, aux, e⟩ t.builder).2 } := by
  have absent : ∀ x ∈ middle, ∀ q ∈ qs, q.name ≠ x := fun x known q mem same =>
    Builder.not_mem_of_params pattern.1 mem (same ▸ known)
  have types : ∀ x ∈ middle, (Build.add ⟨qs, aux, e⟩ t.builder).2.types.find? x =
      t.builder.types.find? x := fun x known => by
    simp only [Build.add_apply]
    exact Builder.find_declared_of_not_mem _ (absent x known)
  refine emits.trans ?_
  exact {
    emitted := by
      refine ⟨[⟨qs, aux, e⟩], by simp [Build.add_apply], ?_, ?_, ?_⟩
      · simp only [stmOutline, append_done]
        exact (closed_stm _ _).mpr ⟨certs, closed, pattern⟩
      · simp [stmOutline, after_stm]
      · simp only [stmOutline, append_done, binders_stm, Build.add_apply]
        refine inside.append ?_
        intro x binder
        obtain ⟨q, mem, rfl⟩ := (mem_binders_paramOutline qs x).mp binder
        exact drawn q mem
    next_le := Nat.le_of_eq (by simp [Build.add_apply])
    types := types
    serves := by
      refine emits.serves.enter tans within pattern small plain sub tangents
        (Nat.le_of_eq (by simp [Build.add_apply])) ?_ types ?_ (fun _ _ => rfl) paired
      · simpa [Build.add_apply] using drawn
      · intro q mem
        simp only [Build.add_apply]
        exact find_declared_self _ mem }

/-! Statements without bodies. -/

/-- The action emits what an expression needs that reads from the scope alone. -/
def Yields (act : Build Exp) (scope : Scope) : Prop :=
  ∀ (b : Builder) (wider : Scope), b.Ready wider → (∀ x ∈ scope, x ∈ wider) →
    ∃ later, b.Grows wider (act b).2 later ∧ ((act b).1.outline 1).Closed later ∧
      ((act b).1.outline 1).binders = []

theorem yields_basic {op : BasicOp} (reads : ∀ x ∈ op.names, x ∈ scope)
    (types : ∀ x ∈ op.typeNames, x ∈ scope) : Yields (pure (.basic op)) scope := by
  intro b wider ready sub
  refine ⟨wider, .refl ready, ?_, Builder.binders_basic _ _⟩
  simp only [state_pure_apply, Exp.outline, BasicOp.outline, closed_append, closed_readsAll,
    closed_mentionsAll, after_readsAll, closed_count, closed_done]
  exact ⟨⟨fun x mem => sub x (reads x mem), fun x mem => sub x (types x mem)⟩, trivial, trivial⟩

theorem yields_formula {f : Formula} (reads : ∀ x ∈ f.names, x ∈ scope) :
    Yields (Build.expOf f) scope :=
  fun b wider ready sub => Builder.expresses f b wider ready fun x mem => sub x (reads x mem)

theorem tangentExp_asks {rules : Rules} (localRules : rules.Local)
    (serves : Serves bound source scope s) (stm : Stm) {op : BasicOp}
    (reads : ∀ x ∈ op.names, x ∈ source) (types : ∀ x ∈ op.typeNames, x ∈ source)
    (varies : isConstant op = false) (plain : ∀ acc position values,
      op ≠ .updateAcc acc position values) :
    ∃ act t later, Gives (tangentExp rules stm op) s act t ∧ Asks bound source s scope t later ∧
      Yields act later := by
  -- most operations are applied to the tangent of the one array that they read
  have onArray {array : Name} (known : array ∈ source) (op : Name → BasicOp)
      (reads : ∀ c, ∀ x ∈ (op c).names, x = c ∨ x ∈ source) (untyped : ∀ c, (op c).typeNames = []) :
      ∃ act t later,
        Gives (do return pure (.basic (op (← companion array))) : Diff (Build Exp)) s act t ∧
          Asks bound source s scope t later ∧ Yields act later := by
    obtain ⟨c, t, later, gives, asks, mem⟩ := companion_asks serves known
    refine ⟨_, t, later, gives.bind (.pure _ _), asks, yields_basic ?_ (by simp [untyped])⟩
    intro x inOp
    rcases reads c x inOp with rfl | inSource
    · exact mem
    · exact asks.serves.sub x inSource
  cases op with
  | operand x =>
    obtain ⟨y, t, later, gives, asks, known⟩ := tangent_asks serves reads
    exact ⟨_, t, later, gives.bind (.pure _ _), asks, yields_basic known (by simp [BasicOp.typeNames])⟩
  | arrayLit elems ty =>
    obtain ⟨ys, t, later, gives, asks, -, known⟩ := tangents_asks serves reads
    exact ⟨_, t, later, gives.bind (.pure _ _), asks, yields_basic known
      fun x mem => asks.serves.sub x (types x mem)⟩
  | unary op x =>
    obtain ⟨y, t, later, gives, asks, known⟩ := tangent_asks serves reads
    refine ⟨_, t, later, gives.bind (.pure _ _), asks, yields_formula ?_⟩
    rw [names_mul, List.forall_mem_append, names_ofOperand]
    refine ⟨known, fun z inPartial => ?_⟩
    have inX := localRules.unary op _ z inPartial
    rw [names_ofOperand] at inX
    exact asks.serves.sub z (reads z inX)
  | binary op x y =>
    simp only [BasicOp.names, operandNames, List.flatMap_cons, List.flatMap_nil, List.append_nil,
      List.forall_mem_append] at reads
    obtain ⟨dx, u, middle, first, asks, knownLeft⟩ := tangent_asks serves reads.1
    obtain ⟨dy, t, later, second, more, knownRight⟩ := tangent_asks asks.serves reads.2
    refine ⟨_, t, later, first.bind (second.bind (.pure _ _)), asks.trans more, yields_formula ?_⟩
    have inPartials := localRules.binary op (.ofOperand op.ty x) (.ofOperand op.ty y)
    have known : ∀ z ∈ x.names ++ y.names, z ∈ later := fun z mem =>
      more.serves.sub z (List.forall_mem_append.mpr reads z mem)
    simp only [names_ofOperand] at inPartials
    have inBoth := fun z inPartial => known z (inPartials z inPartial)
    rw [List.forall_mem_append] at inBoth
    intro z mem
    simp only [Formula.add, names_mul, Formula.names, names_ofOperand, List.mem_append] at mem
    rcases mem with (mem | mem) | (mem | mem)
    · exact more.sub (knownLeft z mem)
    · exact inBoth.1 z mem
    · exact knownRight z mem
    · exact inBoth.2 z mem
  | convert op x =>
    obtain ⟨y, t, later, gives, asks, known⟩ := tangent_asks serves reads
    exact ⟨_, t, later, gives.bind (.pure _ _), asks, yields_basic known (by simp [BasicOp.typeNames])⟩
  | index array slice =>
    refine onArray (reads array (by simp [BasicOp.names])) (.index · slice) ?_ fun _ => rfl
    intro c x mem
    rcases List.mem_cons.mp mem with rfl | mem
    · exact Or.inl rfl
    · exact Or.inr (reads x (List.mem_cons_of_mem _ mem))
  | update array slice value =>
    simp only [BasicOp.names, List.forall_mem_cons, List.forall_mem_append] at reads
    obtain ⟨knownArray, knownSlice, knownValue⟩ := reads
    obtain ⟨c, u, middle, first, asks, mem⟩ := companion_asks serves knownArray
    obtain ⟨v, t, later, second, more, known⟩ := tangent_asks asks.serves knownValue
    refine ⟨_, t, later, first.bind (second.bind (.pure _ _)), asks.trans more, yields_basic ?_
      (by simp [BasicOp.typeNames])⟩
    simp only [BasicOp.names, List.forall_mem_cons, List.forall_mem_append]
    exact ⟨more.sub mem, fun x inSlice => more.serves.sub x (knownSlice x inSlice), known⟩
  | concat dim first rest width =>
    simp only [BasicOp.names, List.forall_mem_cons, List.forall_mem_append, List.cons_append]
      at reads
    obtain ⟨knownFirst, knownRest, knownWidth⟩ := reads
    obtain ⟨c, u, middle, gives, asks, mem⟩ := companion_asks serves knownFirst
    obtain ⟨cs, t, later, gives', more, -, known⟩ := companions_asks asks.serves knownRest
    refine ⟨_, t, later, gives.bind (gives'.bind (.pure _ _)), asks.trans more, yields_basic ?_
      (by simp [BasicOp.typeNames])⟩
    simp only [BasicOp.names, List.forall_mem_cons, List.forall_mem_append, List.cons_append]
    exact ⟨more.sub mem, known, fun x inWidth => more.serves.sub x (knownWidth x inWidth)⟩
  | copy array =>
    refine onArray (reads array (by simp [BasicOp.names])) .copy ?_ fun _ => rfl
    simp [BasicOp.names]
  | manifest perm array =>
    refine onArray (reads array (by simp [BasicOp.names])) (.manifest perm) ?_ fun _ => rfl
    simp [BasicOp.names]
  | reshape shape array =>
    refine onArray (reads array (by simp [BasicOp.names])) (.reshape shape) ?_ fun _ => rfl
    intro c x mem
    rcases List.mem_append.mp mem with mem | mem
    · exact Or.inr (reads x (List.mem_append_left _ mem))
    · exact Or.inl (List.mem_singleton.mp mem)
  | rearrange perm array =>
    refine onArray (reads array (by simp [BasicOp.names])) (.rearrange perm) ?_ fun _ => rfl
    simp [BasicOp.names]
  | rotate offsets array =>
    refine onArray (reads array (by simp [BasicOp.names])) (.rotate offsets) ?_ fun _ => rfl
    intro c x mem
    rcases List.mem_append.mp mem with mem | mem
    · exact Or.inr (reads x (List.mem_append_left _ mem))
    · exact Or.inl (List.mem_singleton.mp mem)
  | iota n start step w =>
    refine ⟨_, s, scope, .pure _ _, .refl serves, yields_basic ?_ (by simp [BasicOp.typeNames])⟩
    intro x mem
    refine serves.sub x (reads x ?_)
    simp only [BasicOp.names, operandNames, Operand.names, List.flatMap_cons, List.flatMap_nil,
      List.append_nil] at mem ⊢
    exact List.mem_append_left _ mem
  | replicate shape value =>
    simp only [BasicOp.names, List.forall_mem_append] at reads
    obtain ⟨y, t, later, gives, asks, known⟩ := tangent_asks serves reads.2
    refine ⟨_, t, later, gives.bind (.pure _ _), asks, yields_basic ?_ (by simp [BasicOp.typeNames])⟩
    simp only [BasicOp.names, List.forall_mem_append]
    exact ⟨fun x inShape => asks.serves.sub x (reads.1 x inShape), known⟩
  | compare op x y => simp [isConstant] at varies
  | scratch elem shape => simp [isConstant] at varies
  | assert cond msg => simp [isConstant] at varies
  | updateAcc acc position values => exact absurd rfl (plain acc position values)

end Forward

end Cotangent
