import Cotangent.Proofs.Derivative.ForwardStatements
/-!
Forward differentiation of loops. The loop parameters are declared one by one, and before the tangent
of each is drawn, the tangent of what it starts from is asked for. `Binds` collects what such a walk
has done so far, and it composes.
-/
namespace Cotangent

open Outline

namespace Forward

open Diff

variable {s t u : DiffState} {source scope middle later : Scope} {bound : Nat}
  {ps ps' rest rest' tans tans' : List Param}

/-- Parameters `ps` were declared, and tangents `tans` drawn for those in `rest`, which are not bound
    yet; what had to be asked for was emitted. -/
structure Binds (bound : Nat) (source : Scope) (s : DiffState) (scope : Scope)
    (ps rest tans : List Param) (t : DiffState) (later : Scope) : Prop where
  grows : s.builder.Grows scope t.builder later
  serves : Serves bound source later t
  twins : Twins bound later rest tans
  drawn : ∀ q ∈ tans, s.builder.supply.next ≤ q.name.id ∧ q.name.id < t.builder.supply.next
  typed : ∀ q, q ∈ ps ∨ q ∈ tans → ∃ r, (r ∈ ps ∨ r ∈ tans) ∧
    t.builder.types.find? q.name = some r.ty
  still : ∀ x, x.id < s.builder.supply.next → (∀ p ∈ ps, p.name ≠ x) →
    t.builder.types.find? x = s.builder.types.find? x
  claimed : ∀ x, x ∉ source → ∀ c, t.companions.find? x = some c →
    (∃ q ∈ tans, q.name = c) ∨ s.companions.find? x = some c
  kept : ∀ x, x ∉ source → (∀ p ∈ rest, p.name ≠ x) →
    t.companions.find? x = s.companions.find? x

theorem twins_nil (bound : Nat) (scope : Scope) : Twins bound scope [] [] :=
  ⟨rfl, List.nodup_nil, by simp, by simp⟩

theorem Asks.binds (asks : Asks bound source s scope t later) :
    Binds bound source s scope [] [] [] t later where
  grows := asks.grows
  serves := asks.serves
  twins := twins_nil bound later
  drawn := by simp
  typed := by simp
  still x small _ := asks.types x small
  claimed x other c found := Or.inr (by rwa [asks.kept x other] at found)
  kept x other _ := asks.kept x other

theorem Serves.declares (serves : Serves bound source scope s) {p : Param} (fresh : p.name ∉ source)
    (small : p.name.id < bound) :
    Binds bound source s scope [p] [] [] (declared s [p]) scope := by
  have types : ∀ x, x ≠ p.name → (declared s [p]).builder.types.find? x =
      s.builder.types.find? x := fun x other =>
    Builder.find_declared_of_not_mem _ (by simpa using Ne.symm other)
  have absent := serves.within.absent small fresh
  have aside : Aside s scope (declared s [p]) :=
    ⟨rfl, Nat.le_refl _, fun x known => types x fun same => absent (same ▸ known)⟩
  exact {
    grows := aside.grows serves.ready
    serves := { serves with
      ready := (aside.grows serves.ready).ready
      typed := fun x known => by
        rw [aside.types x (serves.sub x known)]
        exact serves.typed x known }
    twins := twins_nil bound scope
    drawn := by simp
    typed := fun q mem => by
      obtain rfl : q = p := by simpa using mem
      exact ⟨q, Or.inl (by simp), by simp [declared, NameTable.insertAll, NameTable.find_insert]⟩
    still := fun x _ other => types x fun same => other p (by simp) same.symm
    claimed := fun _ _ _ found => Or.inr found
    kept := fun _ _ _ => rfl }

theorem Serves.draws (serves : Serves bound source scope s) {p : Param} (fresh : p.name ∉ source) :
    Binds bound source s scope [] [p] (tangentsOf s [p]) (Forward.withTangents s [p]) scope := by
  obtain ⟨drawn, aside⟩ := serves.withTangents (show ∀ q ∈ [p], q.name ∉ source by simpa using fresh)
  exact {
    grows := aside.grows serves.ready
    serves := drawn
    twins := twins_tangentsOf serves [p]
    drawn := fun q mem => drawn_withTangents s mem
    typed := fun q mem => by
      obtain ⟨r, mem, found⟩ := find_declared_self s.builder.types (mem.resolve_left (by simp))
      exact ⟨r, Or.inr mem, found⟩
    still := fun x small _ => type_withTangents_of_lt s [p] small
    claimed := fun x _ c found => by
      by_cases here : p.name = x
      · obtain ⟨q, mem, recorded⟩ := companion_withTangents_of_mem s (List.mem_singleton_self p)
        rw [here] at recorded
        exact Or.inl ⟨q, mem, Option.some.inj (recorded.symm.trans found)⟩
      · rw [companion_withTangents_of_not_mem s
          (show ∀ q ∈ [p], q.name ≠ x by simpa using here)] at found
        exact Or.inr found
    kept := fun x _ other => companion_withTangents_of_not_mem s other }

theorem Twins.append (first : Twins bound scope rest tans) (second : Twins bound scope rest' tans')
    (apart : ∀ q ∈ tans, ∀ r ∈ tans', q.name ≠ r.name) :
    Twins bound scope (rest ++ rest') (tans ++ tans') where
  types := by simp [first.types, second.types]
  nodup := by
    rw [List.map_append, List.nodup_append]
    refine ⟨first.nodup, second.nodup, ?_⟩
    intro x inFirst y inSecond
    obtain ⟨q, mem, rfl⟩ := List.mem_map.mp inFirst
    obtain ⟨r, mem', rfl⟩ := List.mem_map.mp inSecond
    exact apart q mem r mem'
  absent := List.forall_mem_append.mpr ⟨first.absent, second.absent⟩
  large := List.forall_mem_append.mpr ⟨first.large, second.large⟩

theorem Binds.append (first : Binds bound source s scope ps rest tans t middle)
    (second : Binds bound source t middle ps' rest' tans' u later)
    (small : ∀ p ∈ ps ++ ps', p.name.id < bound) :
    Binds bound source s scope (ps ++ ps') (rest ++ rest') (tans ++ tans') u later := by
  have reserved := first.serves.reserved
  have start := first.grows.next_le
  have next := second.grows.next_le
  rw [List.forall_mem_append] at small
  have outlives : ∀ x, x.id < t.builder.supply.next →
      u.builder.types.find? x = t.builder.types.find? x ∨
        ∃ r, (r ∈ ps' ∨ r ∈ tans') ∧ u.builder.types.find? x = some r.ty := by
    intro x early
    by_cases again : ∃ p ∈ ps', p.name = x
    · obtain ⟨p, mem, rfl⟩ := again
      exact Or.inr (second.typed p (Or.inl mem))
    · exact Or.inl (second.still x early fun p mem same => again ⟨p, mem, same⟩)
  exact {
    grows := first.grows.trans second.grows
    serves := second.serves
    twins := by
      refine (first.twins.mono later fun q mem known => ?_).append second.twins fun q mem r mem' same => ?_
      · have bounds := first.drawn q mem
        rcases second.grows.fresh q.name known with known | above
        · exact first.twins.absent q mem known
        · omega
      · have upper := (first.drawn q mem).2
        have lower := (second.drawn r mem').1
        rw [same] at upper
        omega
    drawn := by
      refine List.forall_mem_append.mpr ⟨fun q mem => ?_, fun q mem => ?_⟩
      · have bounds := first.drawn q mem
        omega
      · have bounds := second.drawn q mem
        omega
    typed := fun q mem => by
      have widen {r : Param} (mem : (r ∈ ps ∨ r ∈ tans) ∨ (r ∈ ps' ∨ r ∈ tans')) :
          r ∈ ps ++ ps' ∨ r ∈ tans ++ tans' := by
        simp only [List.mem_append]
        exact or_or_or_comm.mp mem
      have mem : (q ∈ ps ∨ q ∈ tans) ∨ (q ∈ ps' ∨ q ∈ tans') := by
        simp only [List.mem_append] at mem
        exact or_or_or_comm.mp mem
      rcases mem with mem | mem
      · have early : q.name.id < t.builder.supply.next := by
          rcases mem with mem | mem
          · exact Nat.lt_of_lt_of_le (small.1 q mem) reserved
          · exact (first.drawn q mem).2
        rcases outlives q.name early with same | ⟨r, mem, found⟩
        · obtain ⟨r, mem, found⟩ := first.typed q mem
          exact ⟨r, widen (Or.inl mem), same.trans found⟩
        · exact ⟨r, widen (Or.inr mem), found⟩
      · obtain ⟨r, mem, found⟩ := second.typed q mem
        exact ⟨r, widen (Or.inr mem), found⟩
    still := fun x early other => by
      rw [List.forall_mem_append] at other
      rw [second.still x (Nat.lt_of_lt_of_le early start) other.2, first.still x early other.1]
    claimed := fun x other c found => by
      rcases second.claimed x other c found with ⟨q, mem, same⟩ | found
      · exact Or.inl ⟨q, List.mem_append_right _ mem, same⟩
      · rcases first.claimed x other c found with ⟨q, mem, same⟩ | found
        · exact Or.inl ⟨q, List.mem_append_left _ mem, same⟩
        · exact Or.inr found
    kept := fun x outside other => by
      rw [List.forall_mem_append] at other
      rw [second.kept x outside other.2, first.kept x outside other.1] }

/-! One parameter after the other. -/

/-- What one step of the walk does: it declares the parameter, asks, and draws the tangent. -/
def Walks {α : Type} (act : Param × α → Diff (List (Param × α))) (ask : α → Diff α)
    (a : Param × α) : Prop :=
  ∀ s y t, Gives (ask a.2) (declared s [a.1]) y t →
    Gives (act a) s [a, (⟨⟨t.builder.supply.next⟩, a.1.ty⟩, y)] (withTangents t [a.1])

theorem bundled_binds {α : Type} {act : Param × α → Diff (List (Param × α))} {ask : α → Diff α}
    {xs : List (Param × α)} (holds : Scope → α → Prop) (serves : Serves bound source scope s)
    (mono : ∀ {middle later : Scope} {y}, (∀ x ∈ middle, x ∈ later) → holds middle y →
      holds later y)
    (fresh : ∀ a ∈ xs, a.1.name ∉ source) (small : ∀ a ∈ xs, a.1.name.id < bound)
    (walks : ∀ a ∈ xs, Walks act ask a)
    (asks : ∀ a ∈ xs, ∀ s scope, Serves bound source scope s →
      ∃ y t later, Gives (ask a.2) s y t ∧ Asks bound source s scope t later ∧ holds later y) :
    ∃ tans ys t later, Gives (bundled act xs) s (interleave xs (tans.zip ys)) t ∧
      Binds bound source s scope (xs.map (·.1)) (xs.map (·.1)) tans t later ∧
      ys.length = xs.length ∧ ∀ y ∈ ys, holds later y := by
  induction xs generalizing s scope with
  | nil => exact ⟨[], [], s, scope, gives_bundled_nil act s, (Asks.refl serves).binds, rfl, by simp⟩
  | cons a xs ih =>
    have freshHere := fresh a (by simp)
    have smallHere := small a (by simp)
    have declares := serves.declares freshHere smallHere
    obtain ⟨y, t, middle, gives, asked, inside⟩ := asks a (by simp) _ scope declares.serves
    have draws := asked.serves.draws (p := a.1) freshHere
    have here := (declares.append asked.binds (by simpa using smallHere)).append draws
      (by simpa using smallHere)
    obtain ⟨tans, ys, u, later, more, rest, length, tail⟩ :=
      ih here.serves (fun b mem => fresh b (by simp [mem])) (fun b mem => small b (by simp [mem]))
        (fun b mem => walks b (by simp [mem])) fun b mem => asks b (by simp [mem])
    have whole := here.append rest (by
      intro p mem
      rcases List.mem_append.mp mem with mem | mem
      · obtain rfl : p = a.1 := by simpa using mem
        exact smallHere
      · obtain ⟨b, inList, rfl⟩ := List.mem_map.mp mem
        exact small b (by simp [inList]))
    refine ⟨⟨⟨t.builder.supply.next⟩, a.1.ty⟩ :: tans, y :: ys, u, later, ?_, whole, ?_, ?_⟩
    · exact gives_bundled_cons (walks a (by simp) s y t gives) more
    · simp [length]
    · exact List.forall_mem_cons.mpr ⟨mono (fun _ => rest.grows.sub) inside, tail⟩

theorem walks_merge {m : Param × Operand} (plain : m.1.ty.isAcc = false) :
    Walks (fun m => do
      build (Build.declare m.1.name m.1.ty)
      if m.1.ty.isAcc then
        let tan ← newTangent m.1
        return [(tan, m.2)]
      else
        let init ← tangent m.2
        let tan ← newTangent m.1
        return [m, (tan, init)]) tangent m := by
  intro s y t gives
  have declare : Gives (build (Build.declare m.1.name m.1.ty)) s () (declared s [m.1]) :=
    Gives.build _ _
  refine declare.bind ?_
  simp only [plain, Bool.false_eq_true, if_false]
  exact gives.bind ((gives_newTangent plain t).bind (.pure _ _))

theorem bundleMerge_binds {merge : List (Param × Operand)} (serves : Serves bound source scope s)
    (known : ∀ x ∈ operandNames (merge.map (·.2)), x ∈ source)
    (fresh : ∀ m ∈ merge, m.1.name ∉ source) (small : ∀ m ∈ merge, m.1.name.id < bound)
    (plain : ∀ m ∈ merge, m.1.ty.isAcc = false) :
    ∃ tans inits t later, Gives (bundleMerge merge) s (interleave merge (tans.zip inits)) t ∧
      Binds bound source s scope (merge.map (·.1)) (merge.map (·.1)) tans t later ∧
      inits.length = merge.length ∧ ∀ x ∈ operandNames inits, x ∈ later := by
  obtain ⟨tans, inits, t, later, gives, binds, length, all⟩ := bundled_binds Known serves
    (fun sub inside y mem => sub y (inside y mem)) fresh small
    (fun m mem => walks_merge (plain m mem))
    fun m mem _ _ serves => tangent_asks serves (known_of_mem known (List.mem_map_of_mem mem))
  exact ⟨tans, inits, t, later, gives, binds, length, names_of_known all⟩

theorem bundleRows_binds {arrays : List (Param × Name)} (serves : Serves bound source scope s)
    (known : ∀ a ∈ arrays, a.2 ∈ source) (fresh : ∀ a ∈ arrays, a.1.name ∉ source)
    (small : ∀ a ∈ arrays, a.1.name.id < bound) (plain : ∀ a ∈ arrays, a.1.ty.isAcc = false) :
    ∃ tans cs t later, Gives (bundleRows arrays) s (interleave arrays (tans.zip cs)) t ∧
      Binds bound source s scope (arrays.map (·.1)) (arrays.map (·.1)) tans t later ∧
      cs.length = arrays.length ∧ ∀ c ∈ cs, c ∈ later := by
  refine bundled_binds (fun later c => c ∈ later) serves (fun sub mem => sub _ mem) fresh small
    (fun a mem s y t gives => ?_) fun a mem _ _ serves => companion_asks serves (known a mem)
  have declare : Gives (build (Build.declare a.1.name a.1.ty)) s () (declared s [a.1]) :=
    Gives.build _ _
  exact declare.bind (gives.bind ((gives_newTangent (plain a mem) t).bind (.pure _ _)))

/-! The body of a loop, inside all its parameters. -/

theorem Binds.emits (binds : Binds bound source s scope ps rest tans t later) :
    Emits bound source scope s source later t where
  emitted := binds.grows.emitted
  next_le := binds.grows.next_le
  types := binds.grows.kept
  serves := binds.serves

/-- The order in which the parameters were declared does not matter. -/
theorem Binds.reorder (binds : Binds bound source s scope ps rest tans t later)
    (same : ∀ p, p ∈ ps ↔ p ∈ ps') : Binds bound source s scope ps' rest tans t later :=
  { binds with
    typed := fun q mem => by
      simp only [← same] at mem ⊢
      exact binds.typed q mem
    still := fun x early other => binds.still x early fun p mem => other p ((same p).mp mem) }

theorem Binds.pending {o : Outline} (binds : Binds bound source s scope ps rest tans t later)
    (pending : Pending bound source s o) (apart : ∀ x ∈ o.binders, ∀ p ∈ rest, p.name ≠ x) :
    Pending bound source t o :=
  pending.next fun x binder =>
    binds.kept x (not_mem_of_binder pending.closed.1 binder) (apart x binder)

/-- The loop parameters with their tangents, where `chunk` has none. -/
theorem closed_loopParams {merge chunk rows : List Param} (within : Within bound source scope)
    (closed : (paramOutline (merge ++ chunk ++ rows)).Closed source)
    (small : ∀ p ∈ merge ++ chunk ++ rows, p.name.id < bound)
    (twins : Twins bound scope (merge ++ rows) (tans ++ tans'))
    (length : tans.length = merge.length) :
    (paramOutline (interleave merge tans ++ chunk ++ interleave rows tans')).Closed scope ∧
      Within bound ((paramOutline (merge ++ chunk ++ rows)).after source)
        ((paramOutline (interleave merge tans ++ chunk ++ interleave rows tans')).after scope) := by
  obtain ⟨types, nodup, absent, large⟩ := twins
  simp only [List.map_append] at types nodup
  obtain ⟨typesFirst, typesRest⟩ := List.append_inj types (by simp [length])
  obtain ⟨nodupFirst, nodupRest, apart⟩ := List.nodup_append.mp nodup
  rw [List.forall_mem_append] at absent large
  rw [List.append_assoc, paramOutline_append, closed_append] at closed
  rw [List.append_assoc, List.forall_mem_append] at small
  have first := closed_interleave within closed.1 small.1
    ⟨typesFirst, nodupFirst, absent.1, large.1⟩
  have second := closed_partly first.2 closed.2 small.2 {
    types := typesRest
    nodup := nodupRest
    absent := fun q mem known => by
      rcases (mem_after_paramOutline ..).mp known with known | ⟨r, inside, same⟩
      · exact absent.2 q mem known
      · rcases mem_interleave inside with inMerge | inTangents
        · have upper := small.1 r inMerge
          have lower := large.2 q mem
          rw [same] at upper
          omega
        · exact apart _ (List.mem_map_of_mem inTangents) _ (List.mem_map_of_mem mem) same
    large := large.2 }
  simp only [List.append_assoc, paramOutline_append (interleave merge tans),
    paramOutline_append merge, closed_append, after_append]
  exact ⟨⟨first.1, second.1⟩, second.2⟩

theorem loopBody_seals {qs pat : List Param} {b : Body} {act : Diff Body}
    (binds : Binds bound source s scope ps rest tans t middle) (sub : ∀ p ∈ rest, p ∈ ps)
    (params : Pending bound source s (paramOutline ps))
    (pending : Pending bound ((paramOutline ps).after source) s b.outline)
    (plain : ∀ p ∈ ps, p.ty.isAcc = false) (layout : ∀ q, q ∈ qs ↔ q ∈ ps ∨ q ∈ tans)
    (closed : (paramOutline qs).Closed middle)
    (within : Within bound ((paramOutline ps).after source) ((paramOutline qs).after middle))
    (fresh : ∀ q ∈ pat, q.name ∉ source) (apart : ∀ q ∈ pat, ∀ p ∈ ps, p.name ≠ q.name)
    (outside : ∀ q ∈ pat, q.name ∉ b.outline.binders) (transforms : TransformsBody bound act b) :
    ∃ b' u, Gives (Diff.within act) (withTangents t pat) b' u ∧
      Goes bound source (withTangents t pat) middle u middle ∧
      Sealed u middle (paramOutline qs) ∧ Sealed u ((paramOutline qs).after middle) b'.outline ∧
      b'.result.length = 2 * b.result.length := by
  obtain ⟨drawn, aside⟩ := binds.serves.withTangents fresh
  have small := small_of_pending params
  have new : ∀ p ∈ ps, p.name ∉ source := fun p => Builder.not_mem_of_params params.closed.1
  have reserved := binds.serves.reserved
  have early : ∀ q ∈ qs, q.name.id < t.builder.supply.next := by
    intro q mem
    rcases (layout q).mp mem with mem | mem
    · exact Nat.lt_of_lt_of_le (small q mem) reserved
    · exact (binds.drawn q mem).2
  have plainQs : ∀ q ∈ qs, q.ty.isAcc = false := by
    intro q mem
    rcases (layout q).mp mem with mem | mem
    · exact plain q mem
    · exact binds.twins.plain (fun p inRest => plain p (sub p inRest)) q mem
  have inside : Serves bound ((paramOutline ps).after source) ((paramOutline qs).after middle)
      (withTangents t pat) := by
    refine drawn.enter tans within closed small plainQs (fun p mem => (layout p).mpr (Or.inl mem))
      (fun q mem => (layout q).mpr (Or.inr mem)) (Nat.le_refl _)
      (fun q mem => Nat.lt_of_lt_of_le (early q mem) aside.next_le) (fun _ _ => rfl) ?_
      (fun _ _ => rfl) ?_
    · intro q mem
      obtain ⟨r, mem', found⟩ := binds.typed q ((layout q).mp mem)
      rw [type_withTangents_of_lt t pat (early q mem)]
      exact ⟨r, (layout r).mpr mem', found⟩
    · intro p mem c found
      rw [companion_withTangents_of_not_mem t fun q inPattern same =>
        apart q inPattern p mem same.symm] at found
      refine (binds.claimed p.name (new p mem) c found).resolve_right fun recorded => ?_
      exact absurd ((unclaimed_of_pending params p mem).symm.trans recorded) (by simp)
  have body : Pending bound ((paramOutline ps).after source) (withTangents t pat) b.outline := by
    refine pending.next fun x binder => ?_
    have unbound := not_mem_of_binder pending.closed.1 binder
    rw [companion_withTangents_of_not_mem t fun q mem same => outside q mem (same ▸ binder)]
    refine binds.kept x (fun known => unbound (mem_after _ known)) fun p mem same => ?_
    exact unbound ((mem_after_paramOutline ..).mpr (Or.inr ⟨p, sub p mem, same⟩))
  obtain ⟨b', u, gives, whole, sealed, length⟩ := transforms _ _ _ inside body
  refine ⟨b', _, (gives_within ..).mpr ⟨u, gives, rfl⟩,
    (whole.mono fun x known => mem_after _ known).goes drawn, ⟨closed, ?_⟩,
    ⟨sealed.closed, sealed.bounded⟩, length⟩
  intro x binder
  obtain ⟨q, mem, rfl⟩ := (mem_binders_paramOutline ..).mp binder
  exact Nat.lt_of_lt_of_le (early q mem) (Nat.le_trans aside.next_le whole.next_le)

/-- The rest of a loop, once its parameters are there. -/
theorem loop_emits {merge : List (Param × Operand)} {form : LoopForm} {b : Body}
    {act : Diff Body} {pat qs : List Param} {aux : Annotations}
    (merge' : List (Param × Operand)) (form' : LoopForm)
    (pending : Pending bound source s (Stm.outline ⟨pat, aux, .loop merge form b⟩))
    (plain : ∀ q ∈ pat, q.ty.isAcc = false) (apart : Stm.Apart ⟨pat, aux, .loop merge form b⟩)
    (binds : Binds bound source s scope ps (loopParams merge form) tans t middle)
    (sub : ∀ p ∈ loopParams merge form, p ∈ ps) (plainParams : ∀ p ∈ ps, p.ty.isAcc = false)
    (params : Pending bound source s (paramOutline ps))
    (body : Pending bound ((paramOutline ps).after source) s b.outline)
    (inside : ∀ x, x ∈ (paramOutline ps).binders ∨ x ∈ b.outline.binders →
      x ∈ ((Exp.loop merge form b).outline pat.length).binders)
    (layout : ∀ q, q ∈ qs ↔ q ∈ ps ∨ q ∈ tans) (closed : (paramOutline qs).Closed middle)
    (within : Within bound ((paramOutline ps).after source) ((paramOutline qs).after middle))
    (transforms : TransformsBody bound act b) (length : merge'.length = 2 * merge.length)
    (header : ∀ u o, Sealed u middle (paramOutline qs) →
      Sealed u ((paramOutline qs).after middle) o → Sealed u middle (loopOutline merge' form' o)) :
    ∃ u later, Gives (do
        let pat ← bundleBinders pat
        let body ← Diff.within act
        build (Build.add ⟨pat, aux, .loop merge' form' body⟩)) t () u ∧
      Emits bound source scope s ((Stm.outline ⟨pat, aux, .loop merge form b⟩).after source) later
        u ∧
      ∀ x, x ∉ (Stm.outline ⟨pat, aux, .loop merge form b⟩).after source →
        x ∉ Stm.leaks ⟨pat, aux, .loop merge form b⟩ →
        u.companions.find? x = s.companions.find? x := by
  obtain ⟨certs, whole, pattern⟩ := (pending_stm _).mp pending
  have fresh : ∀ q ∈ pat, q.name ∉ source := fun q =>
    Builder.not_mem_of_params pattern.closed.1
  have other : ∀ q ∈ pat, ∀ p ∈ ps, p.name ≠ q.name := fun q mem p inParams same =>
    apart q mem (inside _ (Or.inl ((mem_binders_paramOutline ..).mpr ⟨p, inParams, same⟩)))
  obtain ⟨b', u, gives, goes, sealed, sealedBody, results⟩ :=
    loopBody_seals binds sub params body plainParams layout closed within fresh other
      (fun q mem binder => apart q mem (inside _ (Or.inr binder))) transforms
  have pattern := binds.pending pattern fun x binder p mem same => by
    obtain ⟨q, inPattern, rfl⟩ := (mem_binders_paramOutline ..).mp binder
    exact other q inPattern p (sub p mem) same
  have patLength := length_tangentsOf t pat
  obtain ⟨counted, arity⟩ : b.result.length = merge.length ∧ pat.length = merge.length := by
    have parts := whole.closed
    simp only [Exp.outline, closed_append, closed_count] at parts
    exact ⟨parts.1.2.1, parts.2.1⟩
  obtain ⟨emits, kept⟩ := bindPattern_emits binds.serves aux pattern plain
    (layout_interleave pattern patLength) goes (fun x mem => goes.serves.sub x (certs x mem))
    (e := .loop merge' form' b') (by
      have after : (loopOutline merge' form' b'.outline).after middle = middle := by
        cases form' <;> simp [loopOutline]
      simp only [Exp.outline, sealed_append, sealed_count, sealed_done, after_append, after, and_true]
      refine ⟨⟨header u _ sealed sealedBody, ?_⟩, ?_⟩
      · omega
      · rw [length_interleave patLength]
        omega)
  simp only [after_stm]
  refine ⟨_, _, (gives_bundleBinders plain t).bind (gives.bind (gives_add _ u)),
    binds.emits.trans emits, fun x outside unleaked => ?_⟩
  rw [kept x outside]
  refine binds.kept x (fun known => outside (mem_after _ known)) fun p mem same => ?_
  exact unleaked (List.mem_map.mpr ⟨p, mem, same⟩)

theorem interleave_fst {α : Type} {xs : List (Param × α)} {ys : List α}
    (first : tans.length = xs.length) (second : ys.length = xs.length) :
    (interleave xs (tans.zip ys)).map (·.1) = interleave (xs.map (·.1)) tans := by
  rw [map_interleave, List.map_fst_zip (Nat.le_of_eq (first.trans second.symm))]

theorem interleave_snd {α : Type} {xs : List (Param × α)} {ys : List α}
    (first : tans.length = xs.length) (second : ys.length = xs.length) :
    (interleave xs (tans.zip ys)).map (·.2) = interleave (xs.map (·.2)) ys := by
  rw [map_interleave, List.map_snd_zip (Nat.le_of_eq (second.trans first.symm))]

theorem while_runs {merge : List (Param × Operand)} {cond : Name} {b : Body} {act : Diff Body}
    {pat : List Param} {aux : Annotations} (plain : ∀ q ∈ pat, q.ty.isAcc = false)
    (plainParams : ∀ m ∈ merge, m.1.ty.isAcc = false)
    (apart : Stm.Apart ⟨pat, aux, .loop merge (.whileHolds cond) b⟩)
    (transforms : TransformsBody bound act b) :
    Runs bound (loop ⟨pat, aux, .loop merge (.whileHolds cond) b⟩ merge (.whileHolds cond) act)
      (Stm.outline ⟨pat, aux, .loop merge (.whileHolds cond) b⟩)
      (Stm.leaks ⟨pat, aux, .loop merge (.whileHolds cond) b⟩) := by
  intro source scope s serves pending
  obtain ⟨-, inside, -⟩ := (pending_stm _).mp pending
  simp only [Exp.outline, loopOutline, pending_append, pending_readsAll, pending_reads,
    pending_block, after_readsAll] at inside
  obtain ⟨⟨⟨inits, ⟨params, body, knownCond, -⟩, -⟩, -⟩, -⟩ := inside
  have fresh : ∀ m ∈ merge, m.1.name ∉ source := fun m mem =>
    Builder.not_mem_of_params params.closed.1 (List.mem_map_of_mem mem)
  have small : ∀ m ∈ merge, m.1.name.id < bound := fun m mem =>
    small_of_pending params m.1 (List.mem_map_of_mem mem)
  obtain ⟨tans, inits', t, middle, gives, binds, length, known⟩ :=
    bundleMerge_binds serves inits fresh small plainParams
  have twins : tans.length = merge.length := by simpa using binds.twins.length
  have pairs : (tans.zip inits').length = merge.length := by simp [twins, length]
  obtain ⟨closed, within⟩ := closed_interleave binds.serves.within params.closed
    (small_of_pending params) binds.twins
  have layout : ∀ q, q ∈ interleave (merge.map (·.1)) tans ↔ q ∈ merge.map (·.1) ∨ q ∈ tans :=
    mem_interleave_iff (by simp [twins])
  have header : ∀ u o, Sealed u middle (paramOutline (interleave (merge.map (·.1)) tans)) →
      Sealed u ((paramOutline (interleave (merge.map (·.1)) tans)).after middle) o →
      Sealed u middle
        (loopOutline (interleave merge (tans.zip inits')) (.whileHolds cond) o) := by
    intro u o header sealed
    simp only [loopOutline, interleave_fst twins length, interleave_snd twins length, sealed_append,
      sealed_readsAll, sealed_reads, sealed_block, sealed_done, after_readsAll]
    exact ⟨names_interleave (fun x mem => binds.serves.sub x (inits x mem)) known,
      ⟨header, sealed, within.sub cond knownCond, trivial⟩, trivial⟩
  obtain ⟨u, later, gives', emits, kept⟩ := loop_emits _ _ pending plain apart binds
    (fun _ mem => mem) (by simpa using plainParams) params body
    (by simp [Exp.outline, loopOutline]) layout closed within transforms (length_interleave pairs)
    header
  exact ⟨u, later, gives.bind ((Gives.pure _ _).bind gives'), emits, kept⟩

/-- The counter as a parameter; it has no tangent. -/
def counterParam (counter : Name) (w : IntWidth) : Param := ⟨counter, .scalar (.int w)⟩

theorem forOutline (merge : List (Param × Operand)) (counter : Name) (w : IntWidth)
    (limit : Operand) (arrays : List (Param × Name)) (o : Outline) :
    loopOutline merge (.forBelow counter w limit arrays) o =
      readsAll (operandNames (merge.map (·.2))) ++
        readsAll (limit.names ++ arrays.map (·.2)) ++
        block (paramOutline (merge.map (·.1) ++ [counterParam counter w] ++ arrays.map (·.1)) ++
          block o done) done := by
  simp [loopOutline, paramOutline_append, paramOutline, Param.outline, counterParam, Ty.names,
    append_assoc]

theorem for_runs {merge : List (Param × Operand)} {counter : Name} {w : IntWidth} {limit : Operand}
    {arrays : List (Param × Name)} {b : Body} {act : Diff Body} {pat : List Param}
    {aux : Annotations} (plain : ∀ q ∈ pat, q.ty.isAcc = false)
    (plainMerge : ∀ m ∈ merge, m.1.ty.isAcc = false)
    (plainRows : ∀ a ∈ arrays, a.1.ty.isAcc = false)
    (apart : Stm.Apart ⟨pat, aux, .loop merge (.forBelow counter w limit arrays) b⟩)
    (transforms : TransformsBody bound act b) :
    Runs bound (loop ⟨pat, aux, .loop merge (.forBelow counter w limit arrays) b⟩ merge
        (.forBelow counter w limit arrays) act)
      (Stm.outline ⟨pat, aux, .loop merge (.forBelow counter w limit arrays) b⟩)
      (Stm.leaks ⟨pat, aux, .loop merge (.forBelow counter w limit arrays) b⟩) := by
  intro source scope s serves pending
  obtain ⟨-, inside, -⟩ := (pending_stm _).mp pending
  simp only [Exp.outline, forOutline, pending_append, pending_readsAll, pending_block,
    after_append, after_readsAll, List.forall_mem_append] at inside
  obtain ⟨⟨⟨⟨inits, knownLimit, knownArrays⟩, ⟨params, body, -⟩, -⟩, -⟩, -⟩ := inside
  have fresh := fun p => Builder.not_mem_of_params params.closed.1 (p := p)
  have small := small_of_pending params
  simp only [List.forall_mem_append, List.forall_mem_map, List.forall_mem_singleton] at fresh small
  obtain ⟨tans, inits', t₁, l₁, gives₁, binds₁, length₁, known₁⟩ :=
    bundleMerge_binds serves inits fresh.1.1 small.1.1 plainMerge
  obtain ⟨tans', cs, t₂, l₂, gives₂, binds₂, length₂, known₂⟩ :=
    bundleRows_binds binds₁.serves (fun a mem => knownArrays a.2 (List.mem_map_of_mem mem)) fresh.2 small.2 plainRows
  have binds₃ := binds₂.serves.declares (p := counterParam counter w) fresh.1.2 small.1.2
  have twins : tans.length = merge.length := by simpa using binds₁.twins.length
  have twins' : tans'.length = arrays.length := by simpa using binds₂.twins.length
  have params' : ∀ p ∈ merge.map (·.1) ++ arrays.map (·.1) ++ [counterParam counter w],
      p.name.id < bound := by
    simp only [List.forall_mem_append, List.forall_mem_map, List.forall_mem_singleton]
    exact ⟨⟨small.1.1, small.2⟩, small.1.2⟩
  have binds := (binds₁.append binds₂ (List.forall_mem_append.mp params').1).append binds₃ params'
  rw [List.append_nil, List.append_nil] at binds
  have order : ∀ p, p ∈ merge.map (·.1) ++ arrays.map (·.1) ++ [counterParam counter w] ↔
      p ∈ merge.map (·.1) ++ [counterParam counter w] ++ arrays.map (·.1) := by
    intro p
    simp only [List.mem_append]
    exact or_right_comm
  have binds := binds.reorder order
  obtain ⟨closed, within⟩ := closed_loopParams binds.serves.within params.closed
    (small_of_pending params) binds.twins (by simp [twins])
  have layout : ∀ q, q ∈ interleave (merge.map (·.1)) tans ++ [counterParam counter w] ++
      interleave (arrays.map (·.1)) tans' ↔
        q ∈ merge.map (·.1) ++ [counterParam counter w] ++ arrays.map (·.1) ∨
          q ∈ tans ++ tans' := by
    intro q
    have sameMerge : tans.length = (merge.map (·.1)).length := by simp [twins]
    have sameRows : tans'.length = (arrays.map (·.1)).length := by simp [twins']
    simp only [List.mem_append, mem_interleave_iff sameMerge, mem_interleave_iff sameRows]
    tauto
  have header : ∀ u o, Sealed u l₂ (paramOutline (interleave (merge.map (·.1)) tans ++
        [counterParam counter w] ++ interleave (arrays.map (·.1)) tans')) →
      Sealed u ((paramOutline (interleave (merge.map (·.1)) tans ++
        [counterParam counter w] ++ interleave (arrays.map (·.1)) tans')).after l₂) o →
      Sealed u l₂ (loopOutline (interleave merge (tans.zip inits'))
        (.forBelow counter w limit (interleave arrays (tans'.zip cs))) o) := by
    intro u o header sealed
    simp only [forOutline, interleave_fst twins length₁, interleave_snd twins length₁,
      interleave_fst twins' length₂, interleave_snd twins' length₂, sealed_append,
      sealed_readsAll, sealed_block, sealed_done, after_append, after_readsAll,
      List.forall_mem_append]
    refine ⟨⟨?_, fun x mem => binds₂.serves.sub x (knownLimit x mem), ?_⟩,
      ⟨header, sealed, trivial⟩, trivial⟩
    · exact names_interleave (fun x mem => binds₂.serves.sub x (inits x mem))
        fun x mem => binds₂.grows.sub (known₁ x mem)
    · exact forall_mem_interleave (fun x mem => binds₂.serves.sub x (knownArrays x mem)) known₂
  have plainParams : ∀ p ∈ merge.map (·.1) ++ [counterParam counter w] ++ arrays.map (·.1),
      p.ty.isAcc = false := by
    simp only [List.forall_mem_append, List.forall_mem_map, List.forall_mem_singleton]
    exact ⟨⟨plainMerge, rfl⟩, plainRows⟩
  obtain ⟨u, later, gives', emits, kept⟩ := loop_emits _ _ pending plain apart binds
    (fun p mem => (order p).mp (List.mem_append_left _ mem)) plainParams params body
    (by simp [Exp.outline, forOutline]) layout closed within transforms
    (length_interleave (by simp [twins, length₁])) header
  have counted : Gives (build (Build.declare counter (.scalar (.int w)))) t₂ ()
      (declared t₂ [counterParam counter w]) := Gives.build _ _
  refine ⟨u, later, gives₁.bind (gives₂.bind (counted.bind ?_)), emits, kept⟩
  exact (Gives.pure _ _).bind gives'

end Forward

end Cotangent
