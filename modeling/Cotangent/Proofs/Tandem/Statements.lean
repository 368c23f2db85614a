import Cotangent.Proofs.Derivative.ForwardStatements
import Cotangent.Proofs.Tandem.Operations
/-!
Statements. What is emitted for a statement shadows it: wherever that ends the statement ends as well, if no
type is violated, and stores in accord are in accord again, with the pattern in scope.
-/
namespace Cotangent

open Run ScalarAlgebra Diff Outline

namespace Tandem

/-- The outline is still to be transformed: it fits the scope, binds no name twice, and none of its binders
    was given a companion. -/
structure Awaits (bound : Nat) (scope : Scope) (s : DiffState) (o : Outline) : Prop where
  accepted : o.Accepted scope
  distinct : o.binders.Nodup
  small : ∀ x ∈ o.binders, x.id < bound
  unclaimed : ∀ x ∈ o.binders, s.companions.find? x = none

/-- Between the states, statements were emitted that shadow `m`, and the scope became `scope'`. -/
structure Emits {α : Type} [ScalarAlgebra α] (f : Dual → α) (bound : Nat) (decl : Name → Ty)
    (scope still bs : List Name) (s : DiffState) (m : Fault α → Nat → Run α Unit)
    (scope' still' : List Name) (t : DiffState) : Prop where
  serves : Serves bound decl scope' still' t
  shadows : ∃ new, Passes bound scope bs s new t ∧
    ∀ stop fuel σ τ, Accord f scope still s.companions σ τ → Source bound f σ τ →
      Shadows stop (stms fuel new) σ (m stop fuel) τ fun _ σ' _ τ' =>
        Accord f scope' still' t.companions σ' τ' ∧
          Keeps bound f bs s.builder.supply.next t.builder.supply.next σ τ σ' τ'

/-- A statement behind the guard of types. -/
def guardedStm {α : Type} [ScalarAlgebra α] (decl : Name → Ty) (s : Stm) (stop : Fault α) (fuel : Nat) :
    Run α Unit :=
  keepTypes decl stop s.uses s.outline.binders >>= fun _ =>
    stm (guardedBody (keepTypes decl stop) fuel) fuel s

section

variable {α : Type} [ScalarAlgebra α] {f : Dual → α} {bound : Nat} {decl : Name → Ty}
  {scope scope' scope'' still still' still'' bs bs' names : List Name} {s t u : DiffState}
  {σ σ' : Store Scalar} {τ τ' : Store α} {rules : Rules} {o p : Outline} {ps : List Param}

/-! What is left to be transformed. -/

theorem Awaits.first (awaits : Awaits bound scope s (o ++ p)) : Awaits bound scope s o where
  accepted := ((accepted_append ..).mp awaits.accepted).1
  distinct := by
    have distinct := awaits.distinct
    rw [binders_append] at distinct
    exact (List.nodup_append.mp distinct).1
  small x mem := awaits.small x (by simp [mem])
  unclaimed x mem := awaits.unclaimed x (by simp [mem])

theorem Awaits.second (awaits : Awaits bound scope s (o ++ p)) : Awaits bound (o.after scope) s p where
  accepted := ((accepted_append ..).mp awaits.accepted).2
  distinct := by
    have distinct := awaits.distinct
    rw [binders_append] at distinct
    exact (List.nodup_append.mp distinct).2.1
  small x mem := awaits.small x (by simp [mem])
  unclaimed x mem := awaits.unclaimed x (by simp [mem])

theorem Awaits.block (awaits : Awaits bound scope s (.block o p)) :
    Awaits bound scope s o ∧ Awaits bound scope s p := by
  obtain ⟨first, second⟩ := awaits.accepted
  obtain ⟨left, right, -⟩ := List.nodup_append.mp (show (o.binders ++ p.binders).Nodup from awaits.distinct)
  exact ⟨⟨first, left, fun x mem => awaits.small x (by simp [mem]), fun x mem => awaits.unclaimed x (by simp [mem])⟩,
    ⟨second, right, fun x mem => awaits.small x (by simp [mem]), fun x mem => awaits.unclaimed x (by simp [mem])⟩⟩

theorem Awaits.reads {xs : List Name} (awaits : Awaits bound scope s (readsAll xs)) : ∀ x ∈ xs, x ∈ scope :=
  (accepted_readsAll ..).mp awaits.accepted

theorem Awaits.fresh (awaits : Awaits bound scope s o) : ∀ x ∈ o.binders, x ∉ scope :=
  fun _ mem => not_mem_of_binder awaits.accepted mem

/-- What is bound apart from the outline leaves it as it was. -/
theorem Awaits.passes {new : List Stm} (awaits : Awaits bound scope s o)
    (passes : Passes bound scope' bs s new t) (apart : ∀ x ∈ o.binders, x ∉ scope' ∧ x ∉ bs) :
    Awaits bound scope t o where
  accepted := awaits.accepted
  distinct := awaits.distinct
  small := awaits.small
  unclaimed x mem := by
    rw [passes.free x (apart x mem).1 (apart x mem).2]
    exact awaits.unclaimed x mem

theorem Awaits.apart (awaits : Awaits bound scope s (o ++ p)) : ∀ x ∈ p.binders, x ∉ o.binders := by
  have distinct := awaits.distinct
  rw [binders_append, List.nodup_append] at distinct
  exact fun x mem inFirst => distinct.2.2 x inFirst x mem rfl

/-! Statements one after the other. -/

theorem Emits.trans {m m' : Fault α → Nat → Run α Unit}
    (first : Emits f bound decl scope still bs s m scope' still' t)
    (second : Emits f bound decl scope' still' bs' t m' scope'' still'' u)
    (sub : ∀ x ∈ scope, x ∈ scope') (within : ∀ x ∈ scope', x ∈ scope ∨ x ∈ bs) :
    Emits f bound decl scope still (bs ++ bs') s (fun stop fuel => m stop fuel >>= fun _ => m' stop fuel)
      scope'' still'' u where
  serves := second.serves
  shadows := by
    obtain ⟨new, passes, runs⟩ := first.shadows
    obtain ⟨more, passes', runs'⟩ := second.shadows
    refine ⟨new ++ more, (passes.mono fun x mem => List.mem_append_left _ mem).trans
      (passes'.mono fun x mem => List.mem_append_right _ mem) sub fun x mem =>
        (within x mem).imp_right (List.mem_append_left _), fun stop fuel σ τ accord source => ?_⟩
    rw [stms_append]
    refine (runs stop fuel σ τ accord source).bind fun _ σ' _ τ' ⟨after, keeps⟩ => ?_
    refine (runs' stop fuel σ' τ' after keeps.source).mono fun _ σ'' _ τ'' ⟨after', keeps'⟩ => ?_
    exact ⟨after', (keeps.mono (fun x mem => List.mem_append_left _ mem) (Nat.le_refl _) passes'.next_le).trans
      (keeps'.mono (fun x mem => List.mem_append_right _ mem) passes.next_le (Nat.le_refl _))⟩

theorem emits_nil (serves : Serves bound decl scope still s) :
    Emits f bound decl scope still [] s (fun _ _ => pure ()) scope still s where
  serves := serves
  shadows := by
    refine ⟨[], .refl s, fun stop fuel σ τ accord source => ?_⟩
    have none : (stms fuel [] : Run Scalar Unit) = pure () := by simp [stms]
    rw [none]
    exact shadows_pure ⟨accord, .refl source⟩

/-! Names that come into scope. -/

/-- Parameters come into scope, with companions unless they do not change. -/
theorem Serves.enter (serves : Serves bound decl scope still s) (small : ∀ q ∈ ps, q.name.id < bound)
    (plain : ∀ q ∈ ps, (decl q.name).isAcc = false) (next_le : s.builder.supply.next ≤ t.builder.supply.next)
    (typed : ∀ q ∈ ps, t.builder.types.find? q.name = some (decl q.name))
    (types : ∀ x ∈ scope, t.builder.types.find? x = s.builder.types.find? x)
    (kept : ∀ x ∈ scope, t.companions.find? x = s.companions.find? x)
    (drawn : ∀ q ∈ ps, ∀ c, t.companions.find? q.name = some c → bound ≤ c.id ∧ c.id < t.builder.supply.next)
    (calm : ∀ q ∈ ps, t.companions.find? q.name = none → q.name ∈ still') (grown : ∀ x ∈ still, x ∈ still')
    (within : ∀ x ∈ still', x ∈ still ∨ ∃ q ∈ ps, q.name = x) :
    Serves bound decl ((paramOutline ps).after scope) still' t where
  reserved := Nat.le_trans serves.reserved next_le
  small x mem := by
    rcases (mem_after_paramOutline ..).mp mem with mem | ⟨q, inPs, rfl⟩
    · exact serves.small x mem
    · exact small q inPs
  typed x mem := by
    rcases (mem_after_paramOutline ..).mp mem with mem | ⟨q, inPs, rfl⟩
    · exact types x mem ▸ serves.typed x mem
    · exact ⟨typed q inPs, plain q inPs⟩
  drawn x mem c found := by
    rcases (mem_after_paramOutline ..).mp mem with mem | ⟨q, inPs, rfl⟩
    · obtain ⟨large, below⟩ := serves.drawn x mem c (kept x mem ▸ found)
      exact ⟨large, Nat.lt_of_lt_of_le below next_le⟩
    · exact drawn q inPs c found
  claimed x mem none := by
    rcases (mem_after_paramOutline ..).mp mem with mem | ⟨q, inPs, rfl⟩
    · exact grown x (serves.claimed x mem (kept x mem ▸ none))
    · exact calm q inPs none
  sub x mem := (mem_after_paramOutline ..).mpr ((within x mem).imp_left (serves.sub x))

section

variable {bs : List Binder} {ds : List (Value Dual)} {tans tans' : NameTable Name} {m n : Nat}

/-- What enters a scope is bound in both stores, apart from all that was there before. -/
theorem Binds.enter_accord (binds : Binds f bs ds σ τ σ' τ') (serves : Serves bound decl scope still s)
    (accord : Accord f scope still tans σ τ) (fresh : ∀ b ∈ bs, b.name.id < bound ∧ b.name ∉ scope)
    (drawn : ∀ b ∈ bs, ∀ c, b.tangent = some c → bound ≤ c.id)
    (within : ∀ x ∈ scope', x ∈ scope ∨ ∃ b ∈ bs, b.name = x)
    (calm : ∀ x ∈ still', x ∈ still ∨ x ∉ scope ∧ ∀ b ∈ bs, b.name = x → b.tangent = none)
    (kept : ∀ x ∈ scope, ∀ c, tans'.find? x = some c →
      tans.find? x = some c ∧ bound ≤ c.id ∧ ∀ b ∈ bs, b.tangent ≠ some c)
    (new : ∀ b ∈ bs, ∀ c, tans'.find? b.name = some c → b.tangent = some c) :
    Accord f scope' still' tans' σ' τ' := by
  refine binds.accord accord within (fun x isStill => ⟨fun known => ?_, fun b inBs same => ?_⟩)
    (fun x mem => ⟨fun b inBs => ⟨?_, fun same => ?_⟩, fun c found => ⟨(kept x mem c found).1, fun b inBs =>
      ⟨?_, (kept x mem c found).2.2 b inBs⟩⟩⟩) new
  · exact (calm x isStill).resolve_right fun other => other.1 known
  · rcases calm x isStill with old | ⟨-, calm⟩
    · exact absurd (serves.sub x old) (same ▸ (fresh b inBs).2)
    · exact calm b inBs same
  · rintro rfl
    exact (fresh b inBs).2 mem
  · have := drawn b inBs x same
    have := serves.small x mem
    omega
  · rintro rfl
    have := (kept x mem _ found).2.1
    have := (fresh b inBs).1
    omega

theorem Binds.enter (binds : Binds f bs ds σ τ σ' τ') (serves : Serves bound decl scope still s)
    (accord : Accord f scope still tans σ τ) (source : Source bound f σ τ)
    (fresh : ∀ b ∈ bs, b.name ∈ names ∧ b.name.id < bound ∧ b.name ∉ scope)
    (drawn : ∀ b ∈ bs, ∀ c, b.tangent = some c → bound ≤ c.id ∧ m ≤ c.id ∧ c.id < n)
    (within : ∀ x ∈ scope', x ∈ scope ∨ ∃ b ∈ bs, b.name = x)
    (calm : ∀ x ∈ still', x ∈ still ∨ x ∉ scope ∧ ∀ b ∈ bs, b.name = x → b.tangent = none)
    (kept : ∀ x ∈ scope, ∀ c, tans'.find? x = some c →
      tans.find? x = some c ∧ bound ≤ c.id ∧ ∀ b ∈ bs, b.tangent ≠ some c)
    (new : ∀ b ∈ bs, ∀ c, tans'.find? b.name = some c → b.tangent = some c) :
    Accord f scope' still' tans' σ' τ' ∧ Keeps bound f names m n σ τ σ' τ' :=
  ⟨binds.enter_accord serves accord (fun b mem => (fresh b mem).2) (fun b mem c same => (drawn b mem c same).1)
      within calm kept new,
    binds.keeps (fun b mem => ⟨(fresh b mem).1, (fresh b mem).2.1⟩) drawn source⟩

end

/-! Steps that add statements, draw tangents or declare types. -/

theorem next_added (stm : Stm) (s : DiffState) :
    (Forward.added stm s).builder.supply.next = s.builder.supply.next := by
  rw [Forward.added, Build.add_apply]

theorem passes_added {stm : Stm} (binders : ∀ p ∈ stm.pat, p.name ∈ bs ∨ bound ≤ p.name.id) (s : DiffState) :
    Passes bound scope bs s [stm] (Forward.added stm s) where
  emitted := by rw [Forward.added, Build.add_apply]
  next_le := Nat.le_of_eq (next_added stm s).symm
  types x small other := by
    rw [Forward.added, Build.add_apply]
    refine Builder.find_declared_of_not_mem _ ?_
    rintro p mem rfl
    rcases binders p mem with inBs | large
    · exact other inBs
    · omega
  free _ _ _ := rfl
  kept _ _ _ found := found
  fresh _ _ _ found := .inl found

theorem passes_withTangents (s : DiffState) {ps : List Param} (reserved : bound ≤ s.builder.supply.next)
    (binders : ∀ p ∈ ps, p.name ∈ bs ∧ p.name ∉ scope) :
    Passes bound scope bs s [] (Forward.withTangents s ps) where
  emitted := (List.append_nil _).symm
  next_le := Nat.le_add_right _ _
  types x small _ := Forward.type_withTangents_of_lt s ps (by omega)
  free x _ other := Forward.companion_withTangents_of_not_mem s fun p mem same =>
    other (same ▸ (binders p mem).1)
  kept x known c found := by
    rw [Forward.companion_withTangents_of_not_mem s fun p mem same => (binders p mem).2 (same ▸ known)]
    exact found
  fresh x known c found := by
    rw [Forward.companion_withTangents_of_not_mem s fun p mem same => (binders p mem).2 (same ▸ known)] at found
    exact .inl found

/-- The tangents of parameters are their companions. -/
theorem companion_withTangents_zip (s : DiffState) {ps : List Param} (distinct : (ps.map (·.name)).Nodup) :
    List.Forall₂ (fun x c => (Forward.withTangents s ps).companions.find? x = some c) (ps.map (·.name))
      ((Forward.tangentsOf s ps).map (·.name)) := by
  have pairs : (ps.zip (Forward.tangentsOf s ps)).map (fun p => (p.1.name, p.2.name)) =
      (ps.map (·.name)).zip ((Forward.tangentsOf s ps).map (·.name)) := (List.zip_map ..).symm
  simp only [Forward.withTangents, pairs]
  exact NameTable.find_insertAll_zip _ _ distinct (by simp [Forward.length_tangentsOf])

end

end Tandem

end Cotangent
