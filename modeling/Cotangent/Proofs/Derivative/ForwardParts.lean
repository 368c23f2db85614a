import Cotangent.Proofs.Derivative.ForwardScope
/-!
What forward differentiation is still to transform, and what it has transformed already. `Pending`
describes the former in the source scope, `Sealed` the latter in the emitted scope; both split along
outlines, so a construct is put together from its parts.
-/
namespace Cotangent

open Outline

namespace Forward

open Diff

variable {s t u : DiffState} {source scope middle later : Scope} {bound : Nat} {o p : Outline}

/-- The outline is closed in the source scope, its binders lie below the bound, and none of them has
    a tangent yet. -/
structure Pending (bound : Nat) (source : Scope) (s : DiffState) (o : Outline) : Prop where
  closed : o.Closed source
  small : Scope.Below o.binders bound
  unclaimed : ∀ x ∈ o.binders, s.companions.find? x = none

@[simp] theorem pending_append : Pending bound source s (o ++ p) ↔
    Pending bound source s o ∧ Pending bound (o.after source) s p := by
  constructor
  · rintro ⟨closed, small, unclaimed⟩
    rw [closed_append] at closed
    simp only [Scope.Below, binders_append, List.forall_mem_append] at small unclaimed
    exact ⟨⟨closed.1, small.1, unclaimed.1⟩, ⟨closed.2, small.2, unclaimed.2⟩⟩
  · rintro ⟨first, second⟩
    refine ⟨(closed_append ..).mpr ⟨first.closed, second.closed⟩, ?_, ?_⟩
    · rw [binders_append]
      exact first.small.append second.small
    · rw [binders_append, List.forall_mem_append]
      exact ⟨first.unclaimed, second.unclaimed⟩

@[simp] theorem pending_block : Pending bound source s (block o p) ↔
    Pending bound source s o ∧ Pending bound source s p := by
  constructor
  · rintro ⟨closed, small, unclaimed⟩
    rw [closed_block] at closed
    simp only [Scope.Below, binders, List.forall_mem_append] at small unclaimed
    exact ⟨⟨closed.1, small.1, unclaimed.1⟩, ⟨closed.2, small.2, unclaimed.2⟩⟩
  · rintro ⟨first, second⟩
    refine ⟨(closed_block ..).mpr ⟨first.closed, second.closed⟩, ?_, ?_⟩
    · exact first.small.append second.small
    · rw [binders, List.forall_mem_append]
      exact ⟨first.unclaimed, second.unclaimed⟩

@[simp] theorem pending_done : Pending bound source s done :=
  ⟨closed_done _, by simp [Scope.Below], by simp⟩

@[simp] theorem pending_readsAll (xs : List Name) :
    Pending bound source s (readsAll xs) ↔ ∀ x ∈ xs, x ∈ source := by
  constructor
  · exact fun pending => (closed_readsAll ..).mp pending.closed
  · exact fun known => ⟨(closed_readsAll ..).mpr known, by simp [Scope.Below], by simp⟩

@[simp] theorem pending_reads (x : Name) : Pending bound source s (reads x o) ↔
    x ∈ source ∧ Pending bound source s o := by
  constructor
  · rintro ⟨closed, small, unclaimed⟩
    obtain ⟨known, closed⟩ := (closed_reads ..).mp closed
    exact ⟨known, closed, small, unclaimed⟩
  · rintro ⟨known, closed, small, unclaimed⟩
    exact ⟨(closed_reads ..).mpr ⟨known, closed⟩, small, unclaimed⟩

@[simp] theorem pending_mentionsAll (xs : List Name) :
    Pending bound source s (mentionsAll xs) ↔ ∀ x ∈ xs, x ∈ source := by
  constructor
  · exact fun pending => (closed_mentionsAll ..).mp pending.closed
  · exact fun known => ⟨(closed_mentionsAll ..).mpr known, by simp [Scope.Below], by simp⟩

@[simp] theorem pending_count (m n : Nat) : Pending bound source s (count m n o) ↔
    n = m ∧ Pending bound source s o := by
  constructor
  · rintro ⟨closed, small, unclaimed⟩
    obtain ⟨same, closed⟩ := (closed_count ..).mp closed
    exact ⟨same, closed, small, unclaimed⟩
  · rintro ⟨same, closed, small, unclaimed⟩
    exact ⟨(closed_count ..).mpr ⟨same, closed⟩, small, unclaimed⟩

theorem Pending.next (pending : Pending bound source s o)
    (kept : ∀ x ∈ o.binders, t.companions.find? x = s.companions.find? x) :
    Pending bound source t o where
  closed := pending.closed
  small := pending.small
  unclaimed x binder := by rw [kept x binder, pending.unclaimed x binder]

/-- What the source scope lacks keeps its tangent, so the same is left to be transformed. -/
theorem Pending.goes (pending : Pending bound source s o)
    (goes : Goes bound source s scope t later) : Pending bound source t o :=
  pending.next fun x binder => goes.kept x (not_mem_of_binder pending.closed.1 binder)

/-- The outline is closed in the emitted scope, and none of its binders is drawn again. -/
structure Sealed (s : DiffState) (scope : Scope) (o : Outline) : Prop where
  closed : o.Closed scope
  bounded : Scope.Below o.binders s.builder.supply.next

@[simp] theorem sealed_append : Sealed s scope (o ++ p) ↔
    Sealed s scope o ∧ Sealed s (o.after scope) p := by
  constructor
  · rintro ⟨closed, bounded⟩
    rw [closed_append] at closed
    simp only [Scope.Below, binders_append, List.forall_mem_append] at bounded
    exact ⟨⟨closed.1, bounded.1⟩, ⟨closed.2, bounded.2⟩⟩
  · rintro ⟨first, second⟩
    refine ⟨(closed_append ..).mpr ⟨first.closed, second.closed⟩, ?_⟩
    rw [binders_append]
    exact first.bounded.append second.bounded

@[simp] theorem sealed_block : Sealed s scope (block o p) ↔
    Sealed s scope o ∧ Sealed s scope p := by
  constructor
  · rintro ⟨closed, bounded⟩
    rw [closed_block] at closed
    simp only [Scope.Below, binders, List.forall_mem_append] at bounded
    exact ⟨⟨closed.1, bounded.1⟩, ⟨closed.2, bounded.2⟩⟩
  · rintro ⟨first, second⟩
    exact ⟨(closed_block ..).mpr ⟨first.closed, second.closed⟩, first.bounded.append second.bounded⟩

@[simp] theorem sealed_done : Sealed s scope done := ⟨closed_done _, by simp [Scope.Below]⟩

@[simp] theorem sealed_readsAll (xs : List Name) :
    Sealed s scope (readsAll xs) ↔ ∀ x ∈ xs, x ∈ scope := by
  constructor
  · exact fun sealed => (closed_readsAll ..).mp sealed.closed
  · exact fun known => ⟨(closed_readsAll ..).mpr known, by simp [Scope.Below]⟩

@[simp] theorem sealed_reads (x : Name) : Sealed s scope (reads x o) ↔
    x ∈ scope ∧ Sealed s scope o := by
  constructor
  · rintro ⟨closed, bounded⟩
    obtain ⟨known, closed⟩ := (closed_reads ..).mp closed
    exact ⟨known, closed, bounded⟩
  · rintro ⟨known, closed, bounded⟩
    exact ⟨(closed_reads ..).mpr ⟨known, closed⟩, bounded⟩

@[simp] theorem sealed_mentionsAll (xs : List Name) :
    Sealed s scope (mentionsAll xs) ↔ ∀ x ∈ xs, x ∈ scope := by
  constructor
  · exact fun sealed => (closed_mentionsAll ..).mp sealed.closed
  · exact fun known => ⟨(closed_mentionsAll ..).mpr known, by simp [Scope.Below]⟩

@[simp] theorem sealed_count (m n : Nat) : Sealed s scope (count m n o) ↔
    n = m ∧ Sealed s scope o := by
  constructor
  · rintro ⟨closed, bounded⟩
    obtain ⟨same, closed⟩ := (closed_count ..).mp closed
    exact ⟨same, closed, bounded⟩
  · rintro ⟨same, closed, bounded⟩
    exact ⟨(closed_count ..).mpr ⟨same, closed⟩, bounded⟩

/-- Nothing that is emitted later binds a name of what was transformed before. -/
theorem Sealed.grows (sealed : Sealed s scope o) (grows : s.builder.Grows scope t.builder later) :
    Sealed t later o where
  closed := sealed.closed.mono (fun _ => grows.sub) fun x binder known => by
    rcases grows.fresh x known with known | fresh
    · exact known
    · have := sealed.bounded x binder
      omega
  bounded := sealed.bounded.mono grows.next_le

/-! Bodies and lambdas. -/

/-- The action emits what becomes of statements with this outline. Outside their scope, only the
    tangents of `leaks` stay recorded. -/
def Runs (bound : Nat) (act : Diff Unit) (o : Outline) (leaks : List Name) : Prop :=
  ∀ source scope s, Serves bound source scope s → Pending bound source s o →
    ∃ t later, Gives act s () t ∧ Emits bound source scope s (o.after source) later t ∧
      ∀ x, x ∉ o.after source → x ∉ leaks → t.companions.find? x = s.companions.find? x

/-- The action turns a part with this outline into one that is sealed. -/
def Transforms {α : Type} (bound : Nat) (act : Diff α) (o : Outline) (outline : α → Outline) : Prop :=
  ∀ source scope s, Serves bound source scope s → Pending bound source s o →
    ∃ a t later, Gives act s a t ∧ Goes bound source s scope t later ∧ Sealed t later (outline a)

/-- The action asks for tangents of what is in scope, and returns a number of operands. -/
def Answers (bound : Nat) (source : Scope) (act : Diff (List Operand)) (n : Nat) : Prop :=
  ∀ scope s, Serves bound source scope s →
    ∃ ys t later, Gives act s ys t ∧ Asks bound source s scope t later ∧ ys.length = n ∧
      ∀ y ∈ operandNames ys, y ∈ later

/-- The state with no statements. -/
def cleared (s : DiffState) : DiffState := { s with builder := { s.builder with stms := [] } }

theorem Serves.cleared (serves : Serves bound source scope s) :
    Serves bound source scope (cleared s) :=
  { serves with ready := ⟨serves.ready.below, serves.ready.typesIn⟩ }

/-- Nothing was emitted, and the types of the names in scope stay. -/
structure Aside (s : DiffState) (scope : Scope) (t : DiffState) : Prop where
  stms : t.builder.stms = s.builder.stms
  next_le : s.builder.supply.next ≤ t.builder.supply.next
  types : ∀ x ∈ scope, t.builder.types.find? x = s.builder.types.find? x

theorem Aside.trans (first : Aside s scope t) (second : Aside t scope u) : Aside s scope u where
  stms := second.stms.trans first.stms
  next_le := Nat.le_trans first.next_le second.next_le
  types x known := by rw [second.types x known, first.types x known]

theorem Aside.mono (aside : Aside s later t) (sub : ∀ x ∈ scope, x ∈ later) : Aside s scope t :=
  { aside with types := fun x known => aside.types x (sub x known) }

theorem Aside.grows (aside : Aside s scope t) (ready : s.builder.Ready scope) :
    s.builder.Grows scope t.builder scope :=
  .aside ready aside.stms aside.next_le aside.types

/-- A scope that was opened is closed again, with the tangents from before. -/
theorem Aside.goes (aside : Aside s scope t) (serves : Serves bound source scope s) :
    Goes bound source s scope { t with companions := s.companions } scope :=
  serves.build (aside.grows serves.ready)

/-- Statements and then results, put together as a body. -/
theorem sealed_bodyOf {source' : Scope} {act : Diff Unit} {result : Diff (List Operand)}
    {xs : List Operand} (first : Gives act (cleared s) () t)
    (emits : Emits bound source scope (cleared s) source' middle t) (second : Gives result t xs u)
    (goes : Goes bound source' t middle u later) (known : ∀ x ∈ operandNames xs, x ∈ later) :
    ∃ v, Gives (bodyOf act result) s ⟨u.builder.stms, xs⟩ v ∧ Aside s scope v ∧
      Sealed v scope (Body.outline ⟨u.builder.stms, xs⟩) ∧
      ∀ x ∈ source', x ∈ (Body.outline ⟨u.builder.stms, xs⟩).after scope := by
  have whole := emits.trans goes.emits
  obtain ⟨new, stms, closed, rfl, bounded⟩ := whole.emitted
  obtain rfl : u.builder.stms = new := stms
  refine ⟨_, (gives_bodyOf ..).mpr ⟨t, u, first, second, rfl, rfl⟩, ?_, ?_, ?_⟩
  · exact ⟨rfl, whole.next_le, whole.types⟩
  · refine ⟨?_, ?_⟩
    · simp only [Body.outline, closed_append, closed_readsAll]
      exact ⟨closed, known⟩
    · simpa [Body.outline] using bounded
  · intro x mem
    simp only [Body.outline, after_append, after_readsAll]
    exact whole.serves.sub x mem

theorem bodyOf_seals {act : Diff Unit} {result : Diff (List Operand)} {leaks : List Name} {n : Nat}
    (runs : Runs bound act o leaks) (answers : Answers bound (o.after source) result n)
    (serves : Serves bound source scope s) (pending : Pending bound source s o) :
    ∃ b t, Gives (bodyOf act result) s b t ∧ Aside s scope t ∧
      Sealed t scope b.outline ∧ b.result.length = n ∧
      ∀ x ∈ o.after source, x ∈ b.outline.after scope := by
  obtain ⟨t, middle, first, emits, -⟩ := runs source scope (cleared s) serves.cleared
    (pending.next fun _ _ => rfl)
  obtain ⟨xs, u, later, second, asks, length, known⟩ := answers middle t emits.serves
  obtain ⟨v, gives, aside, sealed, sub⟩ :=
    sealed_bodyOf first emits second asks.toGoes known
  exact ⟨_, v, gives, aside, sealed, length, sub⟩

theorem Within.after (within : Within bound source scope) (o : List Param) :
    Within bound ((paramOutline o).after source) ((paramOutline o).after scope) where
  sub x known := by
    rcases (mem_after_paramOutline ..).mp known with known | binder
    · exact mem_after _ (within.sub x known)
    · exact (mem_after_paramOutline ..).mpr (Or.inr binder)
  old x known small := by
    rcases (mem_after_paramOutline ..).mp known with known | binder
    · exact mem_after _ (within.old x known small)
    · exact (mem_after_paramOutline ..).mpr (Or.inr binder)

/-- What is closed in the source scope is closed in the emitted one. -/
theorem Within.closed (within : Within bound source scope) (closed : o.Closed source)
    (small : Scope.Below o.binders bound) : o.Closed scope :=
  closed.mono within.sub fun x binder known => within.old x known (small x binder)

/-- Parameters of which the first have no tangents. -/
theorem closed_partly {chunk rest tans : List Param} (within : Within bound source scope)
    (closed : (paramOutline (chunk ++ rest)).Closed source)
    (small : ∀ p ∈ chunk ++ rest, p.name.id < bound) (twins : Twins bound scope rest tans) :
    (paramOutline (chunk ++ interleave rest tans)).Closed scope ∧
      Within bound ((paramOutline (chunk ++ rest)).after source)
        ((paramOutline (chunk ++ interleave rest tans)).after scope) := by
  rw [paramOutline_append, closed_append] at closed
  rw [List.forall_mem_append] at small
  have twins := twins.mono ((paramOutline chunk).after scope) fun q mem known => by
    rcases (mem_after_paramOutline ..).mp known with known | ⟨p, inChunk, same⟩
    · exact twins.absent q mem known
    · have lower := twins.large q mem
      have upper := small.1 p inChunk
      rw [same] at upper
      omega
  have rest := closed_interleave (within.after chunk) closed.2 small.2 twins
  have first := within.closed closed.1 fun x binder => by
    obtain ⟨p, mem, rfl⟩ := (mem_binders_paramOutline ..).mp binder
    exact small.1 p mem
  simp only [paramOutline_append, closed_append, after_append]
  exact ⟨⟨first, rest.1⟩, rest.2⟩

theorem small_of_pending {ps : List Param} (pending : Pending bound source s (paramOutline ps)) :
    ∀ p ∈ ps, p.name.id < bound :=
  fun p mem => pending.small _ ((mem_binders_paramOutline ..).mpr ⟨p, mem, rfl⟩)

theorem unclaimed_of_pending {ps : List Param} (pending : Pending bound source s (paramOutline ps)) :
    ∀ p ∈ ps, s.companions.find? p.name = none :=
  fun p mem => pending.unclaimed _ ((mem_binders_paramOutline ..).mpr ⟨p, mem, rfl⟩)

/-! What is known of a state in which tangents were drawn. -/

theorem companion_withTangents_of_not_mem (s : DiffState) {ps : List Param} {x : Name}
    (other : ∀ p ∈ ps, p.name ≠ x) :
    (withTangents s ps).companions.find? x = s.companions.find? x := by
  refine NameTable.find_insertAll_of_not_mem _ _ _ ?_
  intro pair mem
  obtain ⟨⟨p, q⟩, inZip, rfl⟩ := List.mem_map.mp mem
  exact other p (List.of_mem_zip inZip).1

theorem length_tangentsOf (s : DiffState) (ps : List Param) :
    (tangentsOf s ps).length = ps.length := by
  have same := congrArg List.length (types_paramsFrom s.builder.supply.next (ps.map (·.ty)))
  simpa [tangentsOf] using same

theorem companion_withTangents_of_mem (s : DiffState) {ps : List Param} {p : Param} (mem : p ∈ ps) :
    ∃ q ∈ tangentsOf s ps, (withTangents s ps).companions.find? p.name = some q.name := by
  have length := length_tangentsOf s ps
  have present : p.name ∈
      ((ps.zip (tangentsOf s ps)).map fun p => (p.1.name, p.2.name)).map (·.1) := by
    simp only [List.map_map]
    have firsts : (ps.zip (tangentsOf s ps)).map Prod.fst = ps := List.map_fst_zip (by omega)
    obtain ⟨pair, inZip, rfl⟩ := List.mem_map.mp (firsts.symm ▸ mem)
    exact List.mem_map.mpr ⟨pair, inZip, rfl⟩
  obtain ⟨c, pair, found⟩ := NameTable.find_insertAll_of_mem s.companions _ p.name present
  obtain ⟨⟨r, q⟩, inZip, same⟩ := List.mem_map.mp pair
  obtain ⟨-, rfl⟩ := Prod.mk.inj same
  exact ⟨q, (List.of_mem_zip inZip).2, found⟩

theorem type_withTangents_of_lt (s : DiffState) (ps : List Param) {x : Name}
    (small : x.id < s.builder.supply.next) :
    (withTangents s ps).builder.types.find? x = s.builder.types.find? x := by
  refine Builder.find_declared_of_not_mem _ ?_
  intro q mem same
  have drawn := (bounds_paramsFrom mem).1
  rw [same] at drawn
  omega

theorem drawn_withTangents (s : DiffState) {ps : List Param} {q : Param}
    (mem : q ∈ tangentsOf s ps) : s.builder.supply.next ≤ q.name.id ∧
      q.name.id < (withTangents s ps).builder.supply.next := by
  have bounds := bounds_paramsFrom mem
  simpa [withTangents] using bounds

/-- Tangents for names that the source scope lacks, which are bound later. -/
theorem Serves.withTangents (serves : Serves bound source scope s) {ps : List Param}
    (apart : ∀ p ∈ ps, p.name ∉ source) :
    Serves bound source scope (withTangents s ps) ∧ Aside s scope (withTangents s ps) := by
  have types : ∀ x ∈ scope, (Forward.withTangents s ps).builder.types.find? x =
      s.builder.types.find? x := fun x known =>
    type_withTangents_of_lt s ps (serves.ready.below x known)
  have aside : Aside s scope (Forward.withTangents s ps) :=
    ⟨rfl, by simp [Forward.withTangents], types⟩
  refine ⟨?_, aside⟩
  exact {
    sub := serves.sub
    ready := (aside.grows serves.ready).ready
    reserved := Nat.le_trans serves.reserved aside.next_le
    below := serves.below
    old := serves.old
    typed := fun x known => by
      rw [types x (serves.sub x known)]
      exact serves.typed x known
    companion_mem := fun x known c found => by
      rw [companion_withTangents_of_not_mem s fun p mem same => apart p mem (same ▸ known)] at found
      exact serves.companion_mem x known c found }

/-- The state after parameters were declared. -/
def declared (s : DiffState) (ps : List Param) : DiffState :=
  { s with builder := { s.builder with
      types := s.builder.types.insertAll (ps.map fun p => (p.name, p.ty)) } }

/-- The state inside a lambda whose first parameters have no tangents. -/
def opened (s : DiffState) (chunk rest : List Param) : DiffState :=
  withTangents (declared s (chunk ++ rest)) rest

theorem Serves.opened (serves : Serves bound source scope s) (chunk : List Param) {rest : List Param}
    (pending : Pending bound source s (paramOutline (chunk ++ rest)))
    (plain : ∀ p ∈ chunk ++ rest, p.ty.isAcc = false) :
    Serves bound ((paramOutline (chunk ++ rest)).after source)
        ((paramOutline (chunk ++ interleave rest (tangentsOf s rest))).after scope)
        (opened s chunk rest) ∧
      Sealed (opened s chunk rest) scope
        (paramOutline (chunk ++ interleave rest (tangentsOf s rest))) ∧
      Aside s scope (opened s chunk rest) := by
  have small := small_of_pending pending
  have tans := twins_tangentsOf serves rest
  have twinLength := length_tangentsOf s rest
  obtain ⟨closed, within⟩ := closed_partly serves.within pending.closed small tans
  have inside : ∀ q ∈ chunk ++ interleave rest (tangentsOf s rest),
      q ∈ chunk ++ rest ∨ q ∈ tangentsOf s rest := by
    intro q mem
    rcases List.mem_append.mp mem with mem | mem
    · exact Or.inl (List.mem_append_left _ mem)
    · exact (mem_interleave mem).imp_left (List.mem_append_right chunk)
  have primal : ∀ p ∈ chunk ++ rest, p ∈ chunk ++ interleave rest (tangentsOf s rest) := by
    intro p mem
    rcases List.mem_append.mp mem with mem | mem
    · exact List.mem_append_left _ mem
    · exact List.mem_append_right _ (mem_interleave_left twinLength mem)
  have next_le : s.builder.supply.next ≤ (Forward.opened s chunk rest).builder.supply.next := by
    simp [Forward.opened, declared, Forward.withTangents]
  have early : ∀ p ∈ chunk ++ rest, p.name.id < s.builder.supply.next := fun p mem =>
    Nat.lt_of_lt_of_le (small p mem) serves.reserved
  have drawn : ∀ q ∈ chunk ++ interleave rest (tangentsOf s rest),
      q.name.id < (Forward.opened s chunk rest).builder.supply.next := by
    intro q mem
    rcases inside q mem with mem | mem
    · exact Nat.lt_of_lt_of_le (early q mem) next_le
    · exact (drawn_withTangents (declared s (chunk ++ rest)) mem).2
  have types : ∀ x ∈ scope, (Forward.opened s chunk rest).builder.types.find? x =
      s.builder.types.find? x := by
    intro x known
    rw [Forward.opened, type_withTangents_of_lt (declared s (chunk ++ rest)) rest
      (serves.ready.below x known)]
    refine Builder.find_declared_of_not_mem _ fun p mem same => ?_
    exact serves.within.absent (small p mem)
      (Builder.not_mem_of_params pending.closed.1 mem) (same ▸ known)
  refine ⟨?_, ⟨closed, ?_⟩, rfl, next_le, types⟩
  · refine serves.enter (tangentsOf s rest) within closed small ?_ primal ?_ next_le drawn
      types ?_ ?_ ?_
    · intro q mem
      rcases inside q mem with mem | mem
      · exact plain q mem
      · exact tans.plain (fun p inRest => plain p (List.mem_append_right _ inRest)) q mem
    · exact fun q mem => List.mem_append_right _ (mem_interleave_right twinLength mem)
    · intro q mem
      rcases inside q mem with mem | mem
      · rw [Forward.opened, type_withTangents_of_lt (declared s (chunk ++ rest)) rest (early q mem)]
        obtain ⟨r, inParams, found⟩ := find_declared_self s.builder.types mem
        exact ⟨r, primal r inParams, found⟩
      · obtain ⟨r, inTangents, found⟩ :=
          find_declared_self (declared s (chunk ++ rest)).builder.types mem
        exact ⟨r, List.mem_append_right _ (mem_interleave_right twinLength inTangents), found⟩
    · intro x known
      refine companion_withTangents_of_not_mem _ fun p mem same => ?_
      exact Builder.not_mem_of_params pending.closed.1 (List.mem_append_right chunk mem)
        (same ▸ known)
    · intro p mem c found
      by_cases claimed : ∃ r ∈ rest, r.name = p.name
      · obtain ⟨r, inRest, same⟩ := claimed
        obtain ⟨q, inTangents, recorded⟩ :=
          companion_withTangents_of_mem (declared s (chunk ++ rest)) inRest
        rw [same] at recorded
        exact ⟨q, inTangents, Option.some.inj (recorded.symm.trans found)⟩
      · rw [Forward.opened, companion_withTangents_of_not_mem _ fun r inRest same =>
          claimed ⟨r, inRest, same⟩] at found
        have none := unclaimed_of_pending pending p mem
        exact absurd (none.symm.trans found) (by simp)
  · intro x binder
    obtain ⟨q, mem, rfl⟩ := (mem_binders_paramOutline ..).mp binder
    exact drawn q mem

/-- What stands behind parameters is left to be transformed when they are opened. -/
theorem Pending.opened {chunk rest : List Param}
    (pending : Pending bound ((paramOutline (chunk ++ rest)).after source) s o) :
    Pending bound ((paramOutline (chunk ++ rest)).after source) (opened s chunk rest) o := by
  refine pending.next fun x binder => companion_withTangents_of_not_mem _ fun p mem same => ?_
  refine not_mem_of_binder pending.closed.1 binder ?_
  exact (mem_after_paramOutline ..).mpr (Or.inr ⟨p, List.mem_append_right chunk mem, same⟩)

/-- The transformation of a lambda around that of its statements. -/
theorem lambda_seals (chunk : List Param) {rest : List Param} {act : Diff Unit} {result : Diff (List Operand)}
    {xs : List Operand} {ret ret' : List Ty} {ss : List Stm} {leaks : List Name}
    (plain : ∀ p ∈ chunk ++ rest, p.ty.isAcc = false)
    (runs : Runs bound act (stmOutline ss) leaks)
    (answers : ∀ source, xs.length = ret.length → (∀ x ∈ operandNames xs, x ∈ source) →
      Answers bound source result ret'.length)
    (sameNames : ∀ x ∈ typeNames ret', x ∈ typeNames ret) :
    Transforms bound (within do
      build (Build.declareParams (chunk ++ rest))
      let ps ← bundleBinders rest
      let body ← bodyOf act result
      return ⟨chunk ++ ps, body, ret'⟩) (Lambda.outline ⟨chunk ++ rest, ⟨ss, xs⟩, ret⟩)
      Lambda.outline := by
  intro source scope s serves pending
  simp only [Lambda.outline, Body.outline, pending_append, pending_readsAll, pending_mentionsAll,
    after_append, after_readsAll] at pending
  obtain ⟨⟨⟨params, stms, known⟩, types⟩, count⟩ := pending
  obtain ⟨inside, header, entered⟩ := serves.opened chunk params plain
  obtain ⟨b, t, gives, aside, body, length, sub⟩ :=
    bodyOf_seals runs (answers _ ((pending_count ..).mp count).1 known) inside stms.opened
  have whole : Aside s scope t := entered.trans (aside.mono fun x known => mem_after _ known)
  have goes := whole.goes serves
  have plainRest : ∀ p ∈ rest, p.ty.isAcc = false := fun p mem =>
    plain p (List.mem_append_right _ mem)
  refine ⟨⟨chunk ++ interleave rest (tangentsOf s rest), b, ret'⟩, _, scope, ?_, goes, ?_⟩
  · refine (gives_within ..).mpr ⟨t, ?_, rfl⟩
    have declare : Gives (build (Build.declareParams (chunk ++ rest))) s ()
        (declared s (chunk ++ rest)) := by
      simp [gives_build, Build.declareParams_apply, declared]
    exact declare.bind ((gives_bundleBinders plainRest _).bind (gives.bind (.pure _ _)))
  · simp only [Lambda.outline, sealed_append, sealed_mentionsAll, sealed_count, sealed_done,
      after_append, and_true]
    have bounded := header.bounded.mono aside.next_le
    exact ⟨⟨⟨⟨header.closed, bounded⟩, body.closed, body.bounded⟩, fun x mem => sub x (types x (sameNames x mem))⟩, length⟩

/-! Results and their types. -/

@[simp] theorem operandNames_append (xs ys : List Operand) :
    operandNames (xs ++ ys) = operandNames xs ++ operandNames ys := by
  simp [operandNames]

theorem names_interleave {xs ys : List Operand} (left : ∀ x ∈ operandNames xs, x ∈ scope)
    (right : ∀ y ∈ operandNames ys, y ∈ scope) :
    ∀ z ∈ operandNames (interleave xs ys), z ∈ scope :=
  names_of_known (forall_mem_interleave (fun _ => known_of_mem left) fun _ => known_of_mem right)

theorem answers_bundleOperands {xs : List Operand} (known : ∀ x ∈ operandNames xs, x ∈ source) :
    Answers bound source (bundleOperands xs) (2 * xs.length) := by
  intro scope s serves
  obtain ⟨ys, t, later, gives, asks, length, inside⟩ := tangents_asks serves known
  refine ⟨_, t, later, gives_bundleOperands serves known gives, asks, length_interleave length, ?_⟩
  exact names_interleave (fun x mem => asks.serves.sub x (known x mem)) inside

/-- Some results stay as they are in front of those that are asked for. -/
theorem Answers.after {act : Diff (List Operand)} {n : Nat} (answers : Answers bound source act n)
    {front : List Operand} (known : ∀ x ∈ operandNames front, x ∈ source) :
    Answers bound source (do return front ++ (← act)) (front.length + n) := by
  intro scope s serves
  obtain ⟨ys, t, later, gives, asks, length, inside⟩ := answers scope s serves
  refine ⟨front ++ ys, t, later, gives.bind (.pure _ _), asks, by simp [length], ?_⟩
  rw [operandNames_append, List.forall_mem_append]
  exact ⟨fun x mem => asks.serves.sub x (known x mem), inside⟩

theorem answers_tangents {xs : List Operand} (known : ∀ x ∈ operandNames xs, x ∈ source) :
    Answers bound source (tangents xs) xs.length :=
  fun _ _ serves => tangents_asks serves known

theorem length_bundledTypes {ts : List Ty} (plain : ∀ t ∈ ts, t.isAcc = false) :
    (bundledTypes ts).length = 2 * ts.length := by
  rw [bundledTypes_eq plain, length_interleave rfl]

theorem names_bundledTypes {ts : List Ty} (plain : ∀ t ∈ ts, t.isAcc = false) :
    ∀ x ∈ typeNames (bundledTypes ts), x ∈ typeNames ts := by
  intro x mem
  rw [bundledTypes_eq plain] at mem
  obtain ⟨t, inPairs, inT⟩ := (mem_typeNames ..).mp mem
  exact (mem_typeNames ..).mpr ⟨t, (mem_interleave inPairs).elim id id, inT⟩

theorem typeNames_append (ts us : List Ty) : typeNames (ts ++ us) = typeNames ts ++ typeNames us := by
  induction ts with
  | nil => rfl
  | cons t ts ih => simp [typeNames, ih]

end Forward

end Cotangent
