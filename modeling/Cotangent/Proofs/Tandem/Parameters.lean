import Cotangent.Proofs.Tandem.Statements
/-!
Parameters that enter a scope. Their types are declared, and tangents are drawn for all but the first of
them; later they are bound to dual values, and what was in scope before stays what it is.
-/
namespace Cotangent

open Run ScalarAlgebra Diff Outline

namespace Tandem

/-- The parameters have their declared types, and none of them is an accumulator. -/
def Declared (decl : Name → Ty) (ps : List Param) : Prop := ∀ p ∈ ps, decl p.name = p.ty ∧ p.ty.isAcc = false

/-- Parameters that may enter the scope. -/
structure Entrants (bound : Nat) (decl : Name → Ty) (scope : List Name) (ps : List Param) : Prop where
  declared : Declared decl ps
  small : ∀ p ∈ ps, p.name.id < bound
  fresh : ∀ p ∈ ps, p.name ∉ scope
  distinct : (ps.map (·.name)).Nodup

/-- Between the states, the tangents `cs` were drawn for the parameters `ps`. Those in `chunk` have none, and
    the types of all of them are known. -/
structure Paired (decl : Name → Ty) (scope : List Name) (s : DiffState) (chunk ps : List Param)
    (cs : List Name) (t : DiffState) : Prop where
  found : List.Forall₂ (fun p c => t.companions.find? p.name = some c) ps cs
  calm : ∀ p ∈ chunk, t.companions.find? p.name = none
  distinct : cs.Nodup
  drawn : ∀ c ∈ cs, s.builder.supply.next ≤ c.id ∧ c.id < t.builder.supply.next
  typed : ∀ p ∈ chunk ++ ps, t.builder.types.find? p.name = some (decl p.name)
  apart : ∀ x ∈ scope, ∀ c, t.companions.find? x = some c → c ∉ cs

section

variable {α : Type} [ScalarAlgebra α] {f : Dual → α} {bound m n : Nat} {decl : Name → Ty}
  {scope scope' still bs names cs cs' : List Name} {s t u : DiffState} {new : List Stm}
  {σ σ' : Store Scalar} {τ τ' : Store α} {tans : NameTable Name} {chunk ps qs : List Param}

theorem Declared.plain (declared : Declared decl ps) : ∀ p ∈ ps, p.ty.isAcc = false :=
  fun p mem => (declared p mem).2

/-- Where parameters were declared, a name has its own type if nothing else in their list has that name. -/
theorem find_declared_type (types : NameTable Ty) {q : Param} (mem : q ∈ qs)
    (alone : ∀ r ∈ qs, r.name = q.name → r.ty = decl q.name) :
    (types.insertAll (qs.map fun p => (p.name, p.ty))).find? q.name = some (decl q.name) := by
  obtain ⟨r, -, found⟩ := Forward.find_declared_self types mem
  rcases Builder.find_declared found with inQs | ⟨absent, -⟩
  · rw [found, alone _ inQs rfl]
  · exact absurd rfl (absent q mem)

theorem passes_declared (s : DiffState) (binders : ∀ p ∈ ps, p.name ∈ bs) :
    Passes bound scope bs s [] (Forward.declared s ps) where
  emitted := (List.append_nil _).symm
  next_le := Nat.le_refl _
  types _ _ other := Builder.find_declared_of_not_mem _ fun p mem same => other (same ▸ binders p mem)
  free _ _ _ := rfl
  kept _ _ _ found := found
  fresh _ _ _ found := .inl found

theorem Awaits.params (awaits : Awaits bound scope s (paramOutline ps)) :
    (∀ p ∈ ps, p.name.id < bound) ∧ (∀ p ∈ ps, p.name ∉ scope) ∧
      (∀ p ∈ ps, s.companions.find? p.name = none) ∧ (ps.map (·.name)).Nodup :=
  have mem {p : Param} (inPs : p ∈ ps) : p.name ∈ (paramOutline ps).binders :=
    (mem_binders_paramOutline ..).mpr ⟨p, inPs, rfl⟩
  ⟨fun _ inPs => awaits.small _ (mem inPs), fun _ inPs => awaits.fresh _ (mem inPs),
    fun _ inPs => awaits.unclaimed _ (mem inPs), nodup_of_accepted awaits.accepted⟩

theorem Awaits.entrants (awaits : Awaits bound scope s (paramOutline ps)) (declared : Declared decl ps) :
    Entrants bound decl scope ps :=
  have ⟨small, fresh, _, distinct⟩ := awaits.params
  ⟨declared, small, fresh, distinct⟩

theorem Entrants.sublist (entrants : Entrants bound decl scope ps) (sub : qs.Sublist ps) :
    Entrants bound decl scope qs where
  declared q mem := entrants.declared q (sub.mem mem)
  small q mem := entrants.small q (sub.mem mem)
  fresh q mem := entrants.fresh q (sub.mem mem)
  distinct := entrants.distinct.sublist (sub.map _)

/-- Parameters that come after others may enter the scope of those. -/
theorem Entrants.deeper (entrants : Entrants bound decl scope (ps ++ qs)) :
    Entrants bound decl ((paramOutline ps).after scope) qs where
  declared q mem := entrants.declared q (List.mem_append_right _ mem)
  small q mem := entrants.small q (List.mem_append_right _ mem)
  fresh q mem known := by
    have distinct := entrants.distinct
    rw [List.map_append, List.nodup_append] at distinct
    rcases (mem_after_paramOutline ..).mp known with known | ⟨p, inPs, same⟩
    · exact entrants.fresh q (List.mem_append_right _ mem) known
    · exact distinct.2.2 _ (List.mem_map_of_mem inPs) _ (List.mem_map_of_mem mem) same
  distinct := (entrants.sublist (List.sublist_append_right ps qs)).distinct

/-- The types of parameters are declared. -/
theorem declared_asks (serves : Serves bound decl scope still s) (fresh : ∀ p ∈ ps, p.name ∉ scope) :
    Asks f bound decl scope still (ps.map (·.name)) names s (Forward.declared s ps) fun _ _ => True := by
  refine .aside serves (passes_declared s fun p mem => List.mem_map_of_mem mem) (fun x known named => ?_)
    fun _ _ => rfl
  obtain ⟨p, mem, rfl⟩ := List.mem_map.mp named
  exact fresh p mem known

/-- The tangents of parameters are drawn. -/
theorem withTangents_asks (serves : Serves bound decl scope still s) (fresh : ∀ p ∈ ps, p.name ∉ scope) :
    Asks f bound decl scope still (ps.map (·.name)) names s (Forward.withTangents s ps) fun _ _ => True := by
  refine .aside serves (passes_withTangents s serves.reserved fun p mem => ⟨List.mem_map_of_mem mem, fresh p mem⟩)
    (fun x known named => ?_) fun x known =>
      Forward.companion_withTangents_of_not_mem s fun p mem same => fresh p mem (same ▸ known)
  obtain ⟨p, mem, rfl⟩ := List.mem_map.mp named
  exact fresh p mem known

/-- The tangents that are drawn at once. -/
theorem paired_withTangents (serves : Serves bound decl scope still s) (entrants : Entrants bound decl scope (chunk ++ ps))
    (unclaimed : ∀ p ∈ chunk, s.companions.find? p.name = none)
    (typed : ∀ p ∈ chunk ++ ps, s.builder.types.find? p.name = some (decl p.name)) :
    Paired decl scope s chunk ps ((Forward.tangentsOf s ps).map (·.name)) (Forward.withTangents s ps) := by
  have distinct := entrants.distinct
  rw [List.map_append, List.nodup_append] at distinct
  have drawn (c : Name) (mem : c ∈ (Forward.tangentsOf s ps).map (·.name)) :
      s.builder.supply.next ≤ c.id ∧ c.id < (Forward.withTangents s ps).builder.supply.next := by
    obtain ⟨q, inTans, rfl⟩ := List.mem_map.mp mem
    exact Forward.drawn_withTangents s inTans
  refine {
    found := List.forall₂_map_left_iff.mp (companion_withTangents_zip s distinct.2.1)
    calm := fun p mem => ?_
    distinct := nodup_paramsFrom _ _
    drawn
    typed := fun p mem => (Forward.type_withTangents_of_lt s ps
      (Nat.lt_of_lt_of_le (entrants.small p mem) serves.reserved)).trans (typed p mem)
    apart := fun x known c found inTans => ?_ }
  · refine (Forward.companion_withTangents_of_not_mem s fun q inPs same => ?_).trans (unclaimed p mem)
    exact distinct.2.2 _ (List.mem_map_of_mem mem) _ (List.mem_map_of_mem inPs) same.symm
  · rw [Forward.companion_withTangents_of_not_mem s fun p inPs same =>
      entrants.fresh p (List.mem_append_right _ inPs) (same ▸ known)] at found
    have := (drawn c inTans).1
    have := (serves.drawn x known c found).2
    omega

namespace Paired

/-- The tangents stay what they are while others are drawn. -/
theorem passes (paired : Paired decl scope s chunk ps cs t) (passes : Passes bound scope bs t new u)
    (entrants : Entrants bound decl scope (chunk ++ ps)) (apart : ∀ p ∈ chunk ++ ps, p.name ∉ bs) :
    Paired decl scope s chunk ps cs u where
  found := forall₂_imp_mem paired.found fun p mem c found => by
    rw [passes.free _ (entrants.fresh p (by simp [mem])) (apart p (by simp [mem]))]
    exact found
  calm p mem := by
    rw [passes.free _ (entrants.fresh p (by simp [mem])) (apart p (by simp [mem]))]
    exact paired.calm p mem
  distinct := paired.distinct
  drawn c mem := ⟨(paired.drawn c mem).1, Nat.lt_of_lt_of_le (paired.drawn c mem).2 passes.next_le⟩
  typed p mem := (passes.types _ (entrants.small p mem) (apart p mem)).trans (paired.typed p mem)
  apart x known c found inCs := by
    rcases passes.fresh x known c found with old | late
    · exact paired.apart x known c old inCs
    · have := (paired.drawn c inCs).2
      omega

/-- Further parameters get tangents. -/
theorem append (first : Paired decl scope s [] ps cs t) (passes : Passes bound scope bs t new u)
    (entrants : Entrants bound decl scope ps) (apart : ∀ p ∈ ps, p.name ∉ bs)
    (le : s.builder.supply.next ≤ t.builder.supply.next) (second : Paired decl scope t [] qs cs' u) :
    Paired decl scope s [] (ps ++ qs) (cs ++ cs') u where
  found := List.rel_append (first.passes passes entrants apart).found second.found
  calm := by simp
  distinct := List.nodup_append.mpr ⟨first.distinct, second.distinct, fun c mem c' mem' same => by
    have := (first.drawn c mem).2
    have := (second.drawn c' mem').1
    subst same
    omega⟩
  drawn := List.forall_mem_append.mpr ⟨fun c mem => by
    have := first.drawn c mem
    have := passes.next_le
    omega, fun c mem => by
    have := second.drawn c mem
    omega⟩
  typed p mem := (List.mem_append.mp (List.nil_append (ps ++ qs) ▸ mem)).elim
    ((first.passes passes entrants apart).typed p) (second.typed p)
  apart x known c found mem := by
    rcases List.mem_append.mp mem with mem | mem
    · exact (first.passes passes entrants apart).apart x known c found mem
    · exact second.apart x known c found mem

theorem companion (paired : Paired decl scope s chunk ps cs t) {p : Param} (mem : p ∈ chunk ++ ps) {c : Name}
    (found : t.companions.find? p.name = some c) : c ∈ cs := by
  rcases List.mem_append.mp mem with inChunk | inPs
  · exact absurd ((paired.calm p inChunk).symm.trans found) (by simp)
  · obtain ⟨c', inCs, found'⟩ := exists_of_forall₂ paired.found.flip inPs
    exact Option.some.inj (found'.symm.trans found) ▸ inCs

/-- The type of a parameter is declared, which gets no tangent. -/
theorem declare {p : Param} (paired : Paired decl scope s [] ps cs t) (entrants : Entrants bound decl scope ([p] ++ ps))
    (unclaimed : t.companions.find? p.name = none) : Paired decl scope s [p] ps cs (Forward.declared t [p]) where
  found := paired.found
  calm q mem := List.mem_singleton.mp mem ▸ unclaimed
  distinct := paired.distinct
  drawn := paired.drawn
  typed := List.forall_mem_append.mpr ⟨fun q mem => by
    refine find_declared_type _ mem fun r mem' same => ?_
    rw [← same, (entrants.declared r (List.mem_append_left _ mem')).1], fun q mem => by
    refine (Builder.find_declared_of_not_mem _ fun r mem' same => ?_).trans (paired.typed q mem)
    obtain rfl := List.mem_singleton.mp mem'
    exact (List.nodup_cons.mp entrants.distinct).1 (List.mem_map.mpr ⟨q, mem, same.symm⟩)⟩
  apart := paired.apart

/-- Seen from inside the parameters that were there before. -/
theorem deeper (paired : Paired decl scope t chunk qs cs' u) (around : Paired decl scope s [] ps cs u)
    (before : ∀ c ∈ cs, c.id < t.builder.supply.next) :
    Paired decl ((paramOutline ps).after scope) t chunk qs cs' u where
  found := paired.found
  calm := paired.calm
  distinct := paired.distinct
  drawn := paired.drawn
  typed := paired.typed
  apart x known c found mem := by
    rcases (mem_after_paramOutline ..).mp known with known | ⟨p, inPs, rfl⟩
    · exact paired.apart x known c found mem
    · have := before c (around.companion (List.mem_append_right _ inPs) found)
      have := (paired.drawn c mem).1
      omega

/-- The scope inside the parameters is served. -/
theorem serves (paired : Paired decl scope s chunk ps cs t) (serves : Serves bound decl scope still t)
    (entrants : Entrants bound decl scope (chunk ++ ps)) (reserved : bound ≤ s.builder.supply.next) :
    Serves bound decl ((paramOutline (chunk ++ ps)).after scope) (chunk.map (·.name) ++ still) t := by
  refine serves.enter entrants.small (fun q mem => ?_) (Nat.le_refl _) paired.typed (fun _ _ => rfl)
    (fun _ _ => rfl) (fun q mem c found => ?_) (fun q mem none => ?_) (fun _ => List.mem_append_right _)
    fun x mem => ?_
  · rw [(entrants.declared q mem).1]
    exact (entrants.declared q mem).2
  · have := paired.drawn c (paired.companion mem found)
    omega
  · rcases List.mem_append.mp mem with inChunk | inPs
    · exact List.mem_append_left _ (List.mem_map_of_mem inChunk)
    · obtain ⟨c, -, found⟩ := exists_of_forall₂ paired.found.flip inPs
      exact absurd (none.symm.trans found) (by simp)
  · rcases List.mem_append.mp mem with inChunk | isStill
    · obtain ⟨p, inPs, rfl⟩ := List.mem_map.mp inChunk
      exact .inr ⟨p, List.mem_append_left _ inPs, rfl⟩
    · exact .inl isStill

/-- The parameters are bound to dual values, those in `chunk` to such as do not change. -/
theorem enters (paired : Paired decl scope s chunk ps cs t) (serves : Serves bound decl scope still t)
    (entrants : Entrants bound decl scope (chunk ++ ps)) (reserved : bound ≤ s.builder.supply.next)
    (accord : Accord f scope still tans σ τ) (source : Source bound f σ τ)
    (kept : ∀ x ∈ scope, ∀ c, t.companions.find? x = some c → tans.find? x = some c)
    (inside : ∀ p ∈ chunk ++ ps, p.name ∈ bs) {ds : List (Value Dual)}
    (count : ds.length = chunk.length + ps.length) (calm : ∀ d ∈ ds.take chunk.length, d.Every Dual.Still) :
    let σ' := σ.bound (chunk.map (·.name) ++ interleave (ps.map (·.name)) cs) (partly chunk.length ds)
    let τ' := τ.bound ((chunk ++ ps).map (·.name)) (ds.map (Value.map f))
    Accord f ((paramOutline (chunk ++ ps)).after scope) (chunk.map (·.name) ++ still) t.companions σ' τ' ∧
      Keeps bound f bs s.builder.supply.next t.builder.supply.next σ τ σ' τ' := by
  intro σ' τ'
  have counts : cs.length = (ps.map (·.name)).length := by
    rw [List.length_map]
    exact paired.found.length_eq.symm
  have distinct := entrants.distinct
  rw [List.map_append] at distinct
  have named (x : Name) (mem : x ∈ chunk.map (·.name) ++ ps.map (·.name)) : ∃ p ∈ chunk ++ ps, p.name = x := by
    rw [← List.map_append] at mem
    exact List.mem_map.mp mem
  have binds : Binds f (Binder.calm (chunk.map (·.name)) ++ Binder.moving (ps.map (·.name)) cs) ds σ τ σ' τ' := by
    have count' : ds.length = (chunk.map (·.name)).length + (ps.map (·.name)).length := by simpa using count
    have whole := binds_partly (f := f) counts count' distinct paired.distinct
      (fun x mem inCs => by
        obtain ⟨p, inPs, rfl⟩ := named x mem
        have := entrants.small p inPs
        have := (paired.drawn _ inCs).1
        omega)
      (by simpa using calm) σ τ
    simpa only [List.length_map, ← List.map_append] using whole
  have name (b : Binder) (mem : b ∈ Binder.calm (chunk.map (·.name)) ++ Binder.moving (ps.map (·.name)) cs) :
      (∃ p ∈ chunk ++ ps, p.name = b.name) ∧ ∀ c, b.tangent = some c → c ∈ cs := by
    rcases List.mem_append.mp mem with mem | mem
    · exact ⟨named _ (List.mem_append_left _ (mem_calm mem).1), by simp [(mem_calm mem).2]⟩
    · obtain ⟨inPs, c, inCs, isTangent⟩ := mem_moving mem
      exact ⟨named _ (List.mem_append_right _ inPs), fun c' same =>
        Option.some.inj (isTangent.symm.trans same) ▸ inCs⟩
  refine binds.enter serves accord source (fun b mem => ?_) (fun b mem c same => ?_) (fun x mem => ?_)
    (fun x isStill => ?_) (fun x mem c found => ?_) (fun b mem c found => ?_)
  · obtain ⟨p, inPs, same⟩ := (name b mem).1
    rw [← same]
    exact ⟨inside p inPs, entrants.small p inPs, entrants.fresh p inPs⟩
  · have := paired.drawn c ((name b mem).2 c same)
    exact ⟨by omega, this⟩
  · refine ((mem_after_paramOutline ..).mp mem).imp_right fun ⟨p, inPs, here⟩ => ?_
    rcases List.mem_append.mp inPs with inChunk | inRest
    · exact ⟨⟨p.name, none⟩, List.mem_append_left _ (List.mem_map_of_mem (List.mem_map_of_mem inChunk)), here⟩
    · obtain ⟨b, inBs, same⟩ := exists_moving counts (List.mem_map_of_mem inRest)
      exact ⟨b, List.mem_append_right _ inBs, same.trans here⟩
  · rcases List.mem_append.mp isStill with inChunk | isStill
    · obtain ⟨p, inPs, rfl⟩ := List.mem_map.mp inChunk
      refine .inr ⟨entrants.fresh p (List.mem_append_left _ inPs), fun b mem same => ?_⟩
      rcases List.mem_append.mp mem with mem | mem
      · exact (mem_calm mem).2
      · exact absurd rfl ((List.nodup_append.mp distinct).2.2 _ inChunk _ (same ▸ (mem_moving mem).1))
    · exact .inl isStill
  · have range := serves.drawn x mem c found
    exact ⟨kept x mem c found, range.1, fun b inBs same =>
      paired.apart x mem c found ((name b inBs).2 c same)⟩
  · rcases List.mem_append.mp mem with mem | mem
    · obtain ⟨p, inPs, same⟩ := List.mem_map.mp (mem_calm mem).1
      exact absurd (found.symm.trans (same ▸ paired.calm p inPs)) (by simp)
    · exact moving_found (List.forall₂_map_left_iff.mpr paired.found) b mem c found

end Paired

end

end Tandem

end Cotangent
