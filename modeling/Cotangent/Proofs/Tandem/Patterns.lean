import Cotangent.Proofs.Tandem.Bodies
/-!
Statements whose pattern is bound together with its tangents. The tangents are drawn at some point on the
way, parts of the expression are transformed before and after, and the statement is emitted at the end.
-/
namespace Cotangent

open Run ScalarAlgebra Diff Outline

/-- The dual values with all primal parts in front. -/
def grouped (ds : List (Value Dual)) : List Value := primals ds ++ changes ds

namespace Tandem

/-- Values that are laid out this way may be bound to the names `zs`, where what is seen of them is bound
    to `xs`, and `cs` are the names of the tangents. -/
def Lays {α : Type} [ScalarAlgebra α] (f : Dual → α) (xs cs zs : List Name)
    (lay : List (Value Dual) → List Value) : Prop :=
  ∀ (ds : List (Value Dual)) σ τ, (lay ds).length = zs.length → ds.length = xs.length ∧
    Binds f (Binder.moving xs cs) ds σ τ (σ.bound zs (lay ds)) (τ.bound xs (ds.map (Value.map f)))

/-- The action emits what shadows the statement. -/
def Stands {α : Type} [ScalarAlgebra α] (f : Dual → α) (bound : Nat) (decl : Name → Ty) (act : Diff Unit)
    (stm : Stm) : Prop :=
  ∀ scope still s t, Serves bound decl scope still s → Awaits bound scope s stm.outline → Gives act s () t →
    ∃ still', Emits f bound decl scope still stm.outline.binders s (fun stop fuel => guardedStm decl stm stop fuel)
      (stm.outline.after scope) still' t

section

variable {α : Type} [ScalarAlgebra α] {f : Dual → α} {bound m n : Nat} {decl : Name → Ty}
  {scope still still' bs names : List Name} {s t u : DiffState} {σ σ' : Store Scalar} {τ τ' : Store α}
  {lay : List (Value Dual) → List Value} {post : Store Scalar → Store α → Prop} {pat qs : List Param}
  {aux : Annotations} {e e' : Exp}

theorem lays_interleave {xs cs : List Name} (counts : cs.length = xs.length) (distinct : xs.Nodup)
    (distinct' : cs.Nodup) (apart : ∀ x ∈ xs, x ∉ cs) : Lays f xs cs (interleave xs cs) doubled := by
  intro ds σ τ count
  rw [length_doubled, length_interleave counts] at count
  have count : ds.length = xs.length := by omega
  exact ⟨count, binds_interleave counts count distinct distinct' apart σ τ⟩

theorem lays_append {xs cs : List Name} (counts : cs.length = xs.length) (distinct : (xs ++ cs).Nodup) :
    Lays f xs cs (xs ++ cs) grouped := by
  intro ds σ τ count
  simp only [grouped, primals, changes, List.length_append, List.length_map] at count
  have count : ds.length = xs.length := by omega
  exact ⟨count, binds_apart counts count distinct σ τ⟩

theorem apart_tangents (pattern : Awaits bound scope s (paramOutline pat)) (reserved : bound ≤ u.builder.supply.next) :
    ∀ x ∈ pat.map (·.name), x ∉ (Forward.tangentsOf u pat).map (·.name) := by
  intro x mem isTangent
  obtain ⟨p, inPat, rfl⟩ := List.mem_map.mp mem
  obtain ⟨q, inTans, same⟩ := List.mem_map.mp isTangent
  have := (Forward.drawn_withTangents u inTans).1
  have := pattern.params.1 p inPat
  rw [same] at *
  omega

/-- A pattern with its tangents in between, and one with its tangents behind. -/
theorem lays_pattern (pattern : Awaits bound scope s (paramOutline pat)) (reserved : bound ≤ u.builder.supply.next) :
    Lays f (pat.map (·.name)) ((Forward.tangentsOf u pat).map (·.name))
        ((interleave pat (Forward.tangentsOf u pat)).map (·.name)) doubled ∧
      Lays f (pat.map (·.name)) ((Forward.tangentsOf u pat).map (·.name))
        ((pat ++ Forward.tangentsOf u pat).map (·.name)) grouped := by
  have counts : ((Forward.tangentsOf u pat).map (·.name)).length = (pat.map (·.name)).length := by
    simp [Forward.length_tangentsOf]
  have distinct := pattern.params.2.2.2
  have distinct' : ((Forward.tangentsOf u pat).map (·.name)).Nodup := nodup_paramsFrom _ _
  have apart := apart_tangents pattern reserved
  rw [map_interleave, List.map_append]
  exact ⟨lays_interleave counts distinct distinct' apart, lays_append counts
    (List.nodup_append.mpr ⟨distinct, distinct', fun x mem y mem' same => apart x mem (same ▸ mem')⟩)⟩

/-- The binders inside the expression of a statement, and its pattern. -/
theorem Awaits.stm (awaits : Awaits bound scope s (Stm.outline ⟨pat, aux, e⟩)) :
    Awaits bound scope s (e.outline pat.length) ∧ Awaits bound scope s (paramOutline pat) ∧
      (∀ p ∈ pat, p.name ∉ (e.outline pat.length).binders) ∧
      ∀ x, x ∈ (Stm.outline ⟨pat, aux, e⟩).binders ↔
        x ∈ (e.outline pat.length).binders ∨ ∃ p ∈ pat, p.name = x := by
  have flat : (readsAll aux.certs ++ e.outline pat.length).after scope = scope := by
    rw [after_append, after_readsAll, Scope.after_exp]
  have inside := Awaits.second (Awaits.first awaits)
  have pattern := Awaits.second awaits
  rw [after_readsAll] at inside
  rw [flat] at pattern
  refine ⟨inside, pattern, fun p mem inner => ?_, fun x => ?_⟩
  · refine Awaits.apart awaits p.name ((mem_binders_paramOutline ..).mpr ⟨p, mem, rfl⟩) ?_
    rw [binders_append, binders_readsAll]
    exact inner
  · simp [Stm.outline]

/-- What the expression of a statement reads in scope the statement reads from outside. -/
theorem Awaits.looked (awaits : Awaits bound scope s (Stm.outline ⟨pat, aux, e⟩)) {x : Name}
    (mem : x ∈ (e.outline pat.length).uses) (known : x ∈ scope) : x ∈ Stm.uses ⟨pat, aux, e⟩ :=
  Stm.mem_uses awaits.accepted (by simp [Stm.outline, mem]) known

/-- The state after a statement was added that binds a pattern and names drawn before. -/
theorem serves_added (serves : Serves bound decl scope still t) (declared : Declared decl pat)
    (small : ∀ p ∈ pat, p.name.id < bound) (fresh : ∀ p ∈ pat, p.name ∉ scope)
    (members : ∀ q ∈ qs, q ∈ pat ∨ bound ≤ q.name.id) (sub : ∀ p ∈ pat, p ∈ qs)
    (drawn : ∀ p ∈ pat, ∀ c, t.companions.find? p.name = some c → bound ≤ c.id ∧ c.id < t.builder.supply.next)
    (calm : ∀ p ∈ pat, t.companions.find? p.name = none → p.name ∈ still') (grown : ∀ x ∈ still, x ∈ still')
    (within : ∀ x ∈ still', x ∈ still ∨ ∃ p ∈ pat, p.name = x) :
    Serves bound decl ((paramOutline pat).after scope) still' (Forward.added ⟨qs, aux, e'⟩ t) := by
  refine serves.enter small (fun p mem => ?_) (Nat.le_of_eq (next_added ..).symm) (fun p mem => ?_)
    (fun x mem => ?_) (fun x mem => rfl) (fun p mem c found => ?_) calm grown within
  · rw [(declared p mem).1]
    exact (declared p mem).2
  · rw [Forward.added, Build.add_apply]
    refine find_declared_type _ (sub p mem) fun r inQs same => ?_
    rcases members r inQs with inPat | large
    · rw [← same, (declared r inPat).1]
    · have := small p mem
      rw [same] at large
      omega
  · rw [Forward.added, Build.add_apply]
    refine Builder.find_declared_of_not_mem _ ?_
    rintro q inQs rfl
    rcases members q inQs with inPat | large
    · exact fresh q inPat mem
    · have := serves.small _ mem
      omega
  · rw [next_added]
    exact drawn p mem c found

/-- The state has these tangents for the pattern, which were drawn from `m` on, and none of them for a name
    in scope. -/
structure Claimed (bound : Nat) (scope : List Name) (m : Nat) (pat tans : List Param) (t : DiffState) :
    Prop where
  found : List.Forall₂ (fun x c => t.companions.find? x = some c) (pat.map (·.name)) (tans.map (·.name))
  drawn : ∀ q ∈ tans, m ≤ q.name.id ∧ q.name.id < t.builder.supply.next
  clear : ∀ x ∈ scope, ∀ c, t.companions.find? x = some c → bound ≤ c.id ∧ ∀ q ∈ tans, q.name ≠ c

/-- The tangents of a pattern stay what they are, whatever is asked for after they were drawn. -/
theorem claimed_tangents (before : Serves bound decl scope still u) (fresh : ∀ p ∈ pat, p.name ∉ scope)
    (apart : ∀ p ∈ pat, p.name ∉ bs) (distinct : (pat.map (·.name)).Nodup)
    (after : Asks f bound decl scope still bs names (Forward.withTangents u pat) t post)
    (le : m ≤ u.builder.supply.next) : Claimed bound scope m pat (Forward.tangentsOf u pat) t := by
  have le' := after.next_le
  obtain ⟨new, passes, -⟩ := after.emits
  have drawn (q : Param) (mem : q ∈ Forward.tangentsOf u pat) : u.builder.supply.next ≤ q.name.id ∧
      q.name.id < (Forward.withTangents u pat).builder.supply.next := Forward.drawn_withTangents u mem
  refine ⟨forall₂_imp_mem (companion_withTangents_zip u distinct) fun x mem c here => ?_, fun q mem => ?_,
    fun x mem c here => ⟨(after.serves.drawn x mem c here).1, ?_⟩⟩
  · obtain ⟨p, inPat, rfl⟩ := List.mem_map.mp mem
    exact (passes.free _ (fresh p inPat) (apart p inPat)).trans here
  · have := drawn q mem
    omega
  · rintro q inTans rfl
    have range := drawn q inTans
    rcases passes.fresh x mem _ here with old | late
    · rw [Forward.companion_withTangents_of_not_mem u fun p inPat same => fresh p inPat (same ▸ mem)] at old
      have := (before.drawn x mem _ old).2
      omega
    · omega

theorem Claimed.pair {tans : List Param} (claimed : Claimed bound scope m pat tans t) {p : Param} (mem : p ∈ pat) :
    ∃ c, t.companions.find? p.name = some c ∧ m ≤ c.id ∧ c.id < t.builder.supply.next := by
  obtain ⟨c, isTangent, here⟩ := exists_of_forall₂ claimed.found.flip (List.mem_map_of_mem mem)
  obtain ⟨q, inTans, rfl⟩ := List.mem_map.mp isTangent
  exact ⟨_, here, claimed.drawn q inTans⟩

/-- The stores after the pattern was bound with its tangents. -/
theorem Claimed.enter {tans : List Param} (claimed : Claimed bound scope m pat tans t)
    (serves : Serves bound decl scope still t) (reserved : bound ≤ m) (pattern : Awaits bound scope s (paramOutline pat))
    (inside : ∀ x ∈ pat.map (·.name), x ∈ bs) {ds : List (Value Dual)}
    (binds : Binds f (Binder.moving (pat.map (·.name)) (tans.map (·.name))) ds σ τ σ' τ')
    (accord : Accord f scope still t.companions σ τ) (source : Source bound f σ τ) :
    Accord f ((paramOutline pat).after scope) still t.companions σ' τ' ∧
      Keeps bound f bs m t.builder.supply.next σ τ σ' τ' := by
  obtain ⟨small, fresh, -, -⟩ := pattern.params
  have moving {b : Binder} (mem : b ∈ Binder.moving (pat.map (·.name)) (tans.map (·.name))) :
      ∃ p ∈ pat, p.name = b.name ∧ ∃ q ∈ tans, b.tangent = some q.name := by
    obtain ⟨isName, c, isTangent, same⟩ := mem_moving mem
    obtain ⟨p, inPat, name⟩ := List.mem_map.mp isName
    obtain ⟨q, inTans, rfl⟩ := List.mem_map.mp isTangent
    exact ⟨p, inPat, name, q, inTans, same⟩
  refine binds.enter serves accord source (fun b mem => ?_) (fun b mem c same => ?_) (fun x mem => ?_)
    (fun x isStill => .inl isStill) (fun x mem c here => ⟨here, (claimed.clear x mem c here).1, fun b inBs same => ?_⟩)
    (moving_found claimed.found)
  · obtain ⟨p, inPat, name, -⟩ := moving mem
    rw [← name]
    exact ⟨inside _ (List.mem_map_of_mem inPat), small p inPat, fresh p inPat⟩
  · obtain ⟨-, -, -, q, inTans, isTangent⟩ := moving mem
    obtain rfl := Option.some.inj (isTangent.symm.trans same)
    obtain ⟨first, last⟩ := claimed.drawn q inTans
    exact ⟨Nat.le_trans reserved first, first, last⟩
  · refine ((mem_after_paramOutline ..).mp mem).imp_right fun ⟨p, inPat, name⟩ => ?_
    obtain ⟨b, inBs, same⟩ := exists_moving claimed.found.length_eq.symm (List.mem_map_of_mem inPat)
    exact ⟨b, inBs, same.trans name⟩
  · obtain ⟨-, -, -, q, inTans, isTangent⟩ := moving inBs
    exact (claimed.clear x mem c here).2 q inTans (Option.some.inj (isTangent.symm.trans same))

/-- A statement is emitted for one with the same pattern, after parts of its expression were transformed
    before its tangents were drawn, and others after that. -/
theorem emits_pattern (view : View f) (serves : Serves bound decl scope still s)
    (declared : Declared decl pat) (awaits : Awaits bound scope s (Stm.outline ⟨pat, aux, e⟩))
    (before : Asks f bound decl scope still (e.outline pat.length).binders (Stm.uses ⟨pat, aux, e⟩) s u
      fun _ _ => True)
    (after : Asks f bound decl scope still (e.outline pat.length).binders (Stm.uses ⟨pat, aux, e⟩)
      (Forward.withTangents u pat) t post)
    (members : ∀ q, q ∈ qs ↔ q ∈ pat ∨ q ∈ Forward.tangentsOf u pat)
    (lays : Lays f (pat.map (·.name)) ((Forward.tangentsOf u pat).map (·.name)) (qs.map (·.name)) lay)
    (run : ∀ stop fuel σ₀ τ₀ σ τ, Steady f bound scope still (e.outline pat.length).binders t.companions
        s.builder.supply.next t.builder.supply.next σ₀ τ₀ σ τ → post σ τ →
      Shadows stop (exp (runBody fuel) fuel e') σ
        (exp (guardedBody (keepTypes decl stop) fuel) fuel e) τ
        (Comes f bound scope still (e.outline pat.length).binders t.companions s.builder.supply.next
          t.builder.supply.next lay σ₀ τ₀)) :
    Emits f bound decl scope still (Stm.outline ⟨pat, aux, e⟩).binders s
      (fun stop fuel => guardedStm decl ⟨pat, aux, e⟩ stop fuel) ((Stm.outline ⟨pat, aux, e⟩).after scope) still
      (Forward.added ⟨qs, aux, e'⟩ t) := by
  obtain ⟨-, pattern, apart, binders⟩ := awaits.stm
  obtain ⟨small, fresh, unclaimed, distinct⟩ := pattern.params
  have reserved := serves.reserved
  have inner : ∀ x ∈ (e.outline pat.length).binders, x ∈ (Stm.outline ⟨pat, aux, e⟩).binders := fun x mem =>
    (binders x).mpr (.inl mem)
  have patNames : ∀ x ∈ pat.map (·.name), x ∈ (Stm.outline ⟨pat, aux, e⟩).binders := fun x mem =>
    (binders x).mpr (.inr (List.mem_map.mp mem))
  have claimed := claimed_tangents before.serves fresh apart distinct after before.next_le
  have aside : Asks f bound decl scope still _ (Stm.uses ⟨pat, aux, e⟩) _ _ _ :=
    (withTangents_asks before.serves fresh).widen patNames
  obtain ⟨new, passes, runs⟩ := (((before.widen inner).bind aside).bind (after.widen inner)).emits
  have named (q : Param) (mem : q ∈ qs) : q ∈ pat ∨ bound ≤ q.name.id :=
    ((members q).mp mem).imp_right fun inTans => Nat.le_trans reserved (claimed.drawn q inTans).1
  rw [after_stm]
  refine ⟨serves_added after.serves declared small fresh named (fun p mem => (members p).mpr (.inl mem))
      (fun p mem c here => ?_) (fun p mem none => ?_) (fun _ mem => mem) fun _ mem => .inl mem,
    new ++ [⟨qs, aux, e'⟩], passes.trans (passes_added (fun q mem => (named q mem).imp_left fun inPat =>
      patNames _ (List.mem_map_of_mem inPat)) t) (fun _ mem => mem) fun _ mem => .inl mem,
    fun stop fuel σ τ accord source => ?_⟩
  · obtain ⟨c', found, first, last⟩ := claimed.pair mem
    obtain rfl := Option.some.inj (found.symm.trans here)
    exact ⟨Nat.le_trans reserved first, last⟩
  · obtain ⟨c, found, -⟩ := claimed.pair mem
    exact absurd (found.symm.trans none) (by simp)
  rw [stms_append, stms_singleton, next_added]
  refine .guarded fun typed => .before fun _ σ₁ ran => ?_
  obtain ⟨accord₁, agree, holds⟩ := runs fuel σ σ₁ τ accord
    (source.settled_all view (fun x mem => (typed x mem).1) reserved) ran
  refine Shadows.bind (run stop fuel σ τ σ₁ τ ⟨accord₁, keeps_of_drawn source reserved agree⟩
    (holds σ₁ (.refl _ σ₁)).2) ?_
  rintro _ σ₂ _ τ₂ ⟨es, rfl, rfl, steady⟩
  refine shadows_of_ends fun _ σ₃ ends => ?_
  obtain ⟨count, rfl⟩ := (ends_bindNames ..).mp ends
  obtain ⟨count', binds⟩ := lays es σ₂ τ₂ count
  obtain ⟨accord₃, keeps⟩ := claimed.enter after.serves reserved pattern patNames binds steady.accord steady.source
  exact ⟨(), _, (ends_bindNames ..).mpr ⟨by simpa using count', rfl⟩, accord₃,
    (steady.keeps.mono inner (Nat.le_refl _) (Nat.le_refl _)).trans keeps⟩

/-- The same where the pattern takes turns with its tangents. -/
theorem emits_bundled (view : View f) (serves : Serves bound decl scope still s)
    (declared : Declared decl pat) (awaits : Awaits bound scope s (Stm.outline ⟨pat, aux, e⟩))
    (binders : (e.outline pat.length).binders = bs)
    (before : Asks f bound decl scope still bs (Stm.uses ⟨pat, aux, e⟩) s u fun _ _ => True)
    (after : Asks f bound decl scope still bs (Stm.uses ⟨pat, aux, e⟩) (Forward.withTangents u pat) t post)
    (run : ∀ stop fuel σ₀ τ₀ σ τ, Steady f bound scope still bs t.companions s.builder.supply.next
        t.builder.supply.next σ₀ τ₀ σ τ → post σ τ →
      Shadows stop (exp (runBody fuel) fuel e') σ (exp (guardedBody (keepTypes decl stop) fuel) fuel e) τ
        (Comes f bound scope still bs t.companions s.builder.supply.next t.builder.supply.next doubled σ₀ τ₀)) :
    Emits f bound decl scope still (Stm.outline ⟨pat, aux, e⟩).binders s
      (fun stop fuel => guardedStm decl ⟨pat, aux, e⟩ stop fuel) ((Stm.outline ⟨pat, aux, e⟩).after scope) still
      (Forward.added ⟨interleave pat (Forward.tangentsOf u pat), aux, e'⟩ t) := by
  subst binders
  exact emits_pattern view serves declared awaits before after (mem_interleave_iff (Forward.length_tangentsOf u pat))
    (lays_pattern awaits.stm.2.1 before.serves.reserved).1 run

/-! Statements in a row. -/

theorem runs_nil : Runs f bound decl (pure ()) [] := by
  intro scope still s t serves awaits gives
  obtain ⟨-, rfl⟩ := (gives_pure ..).mp gives
  exact ⟨still, emits_nil serves⟩

theorem runs_cons {stm : Stm} {ss : List Stm} {first rest : Diff Unit} (here : Stands f bound decl first stm)
    (there : Runs f bound decl rest ss) :
    Runs f bound decl (do
      first
      rest) (stm :: ss) := by
  intro scope still s t serves awaits gives
  obtain ⟨_, u, gives, gives'⟩ := (gives_bind ..).mp gives
  obtain ⟨still', emits⟩ := here scope still s u serves (Awaits.first awaits) gives
  obtain ⟨new, passes, -⟩ := emits.shadows
  have next := (Awaits.second awaits).passes passes (t := u) fun x mem => ⟨fun known =>
    (Awaits.second awaits).fresh x mem (mem_after _ known), Awaits.apart awaits x mem⟩
  obtain ⟨still'', emits'⟩ := there _ still' u t emits.serves next gives'
  have binders : (stmOutline (stm :: ss)).binders = stm.outline.binders ++ (stmOutline ss).binders := by
    simp [stmOutline]
  have split : (fun stop fuel => guardedStms (keepTypes decl stop) fuel (stm :: ss) : Fault α → Nat → Run α Unit) =
      fun stop fuel => guardedStm decl stm stop fuel >>= fun _ => guardedStms (keepTypes decl stop) fuel ss :=
    funext fun _ => funext fun _ => guardedStms_cons ..
  rw [binders, split, stmOutline, after_append]
  refine ⟨still'', emits.trans emits' (fun x known => mem_after _ known) fun x mem => ?_⟩
  rw [after_stm] at mem
  refine ((mem_after_paramOutline ..).mp mem).imp_right fun bound => ?_
  rw [binders_stm]
  exact List.mem_append_right _ ((mem_binders_paramOutline ..).mpr bound)

/-! Conditionals. -/

theorem branch_stands (view : View f) {cond : Operand} {yes no : Body} {ret : List Ty} {sort : BranchSort}
    {yesAct noAct : Diff Body} (declared : Declared decl pat) (onYes : Nested f bound decl yesAct yes)
    (onNo : Nested f bound decl noAct no) :
    Stands f bound decl (Forward.branch ⟨pat, aux, .branch cond yes no ret sort⟩ cond yesAct noAct ret sort)
      ⟨pat, aux, .branch cond yes no ret sort⟩ := by
  intro scope still s t serves awaits gives
  obtain ⟨inside, pattern, -, -⟩ := awaits.stm
  simp only [Forward.branch, gives_bind] at gives
  obtain ⟨yes', u₁, madeYes, no', u₂, madeNo, qs, u₃, bundled, added⟩ := gives
  obtain ⟨rfl, rfl⟩ := (gives_of_outcome (Forward.gives_bundleBinders declared.plain u₂) ..).mp bundled
  obtain rfl := ((gives_build ..).mp added).2
  let e : Exp := .branch cond yes no ret sort
  let uses := Stm.uses ⟨pat, aux, e⟩
  have parts : Awaits bound scope s (readsAll cond.names ++
      block yes.outline (count ret.length yes.result.length done) ++
      block no.outline (count ret.length no.result.length done)) := by
    rw [Exp.outline] at inside
    exact Awaits.first (Awaits.first inside)
  have known := (Awaits.first (Awaits.first parts)).reads
  have intoYes : Awaits bound scope s yes.outline := by
    have second := Awaits.second (Awaits.first parts)
    rw [after_readsAll] at second
    exact second.block.1
  obtain ⟨passesYes, sameYes, worksYes⟩ := onYes scope still s yes' u₁ serves intoYes madeYes
  have asksYes : Asks f bound decl scope still _ uses s u₁ fun _ _ => True :=
    .aside serves passesYes (fun x mem binder => intoYes.fresh x binder mem) fun _ _ => by rw [sameYes]
  have intoNo : Awaits bound scope u₁ no.outline :=
    (parts.carry (by simp) asksYes fun x mem => by simp [mem]).block.1
  obtain ⟨passesNo, sameNo, worksNo⟩ := onNo scope still u₁ no' u₂ asksYes.serves intoNo madeNo
  have asksNo : Asks f bound decl scope still _ uses u₁ u₂ fun _ _ => True :=
    .aside asksYes.serves passesNo (fun x mem binder => intoNo.fresh x binder mem) fun _ _ => by rw [sameNo]
  have inYes : ∀ x ∈ yes.outline.binders, x ∈ (e.outline pat.length).binders := fun x mem => by
    simp [e, Exp.outline, mem]
  have inNo : ∀ x ∈ no.outline.binders, x ∈ (e.outline pat.length).binders := fun x mem => by
    simp [e, Exp.outline, mem]
  have asks : Asks f bound decl scope still (e.outline pat.length).binders uses s u₂ fun _ _ => True :=
    ((asksYes.widen inYes).bind (asksNo.widen inNo)).mono fun _ _ _ => trivial
  have drawn : Asks f bound decl scope still _ uses u₂ _ _ := withTangents_asks asks.serves pattern.params.2.1
  refine ⟨still, emits_bundled view serves declared awaits rfl asks
    (.refl drawn.serves fun _ _ _ _ _ _ => trivial) fun stop fuel σ₀ τ₀ σ τ steady _ => ?_⟩
  refine Shadows.reads (fun a c => ∃ d : Dual, a = d.primal ∧ c = f d) (fun a σ' ends => ?_) ?_
  · obtain ⟨read, rfl⟩ := (ends_scalar ..).mp ends
    obtain ⟨d, reads, rfl⟩ := (steady.accord.known known).scalar view read
    exact ⟨rfl, f d, reads.scalar, d, rfl, rfl⟩
  · rintro _ _ ⟨d, rfl, rfl⟩
    refine Shadows.lift (· = ·) (fun b isBool => ⟨b, view.asBool isBool, rfl⟩) fun b _ same => ?_
    subst same
    cases b with
    | true => exact worksYes.mono (Nat.le_refl _) inYes (asksNo.onward.trans drawn.onward) _ (.refl ..) _ _ _ _ _ _ steady
    | false =>
      exact worksNo.mono asksYes.next_le inNo drawn.onward _ (.refl ..) _ _ _ _ _ _ steady

end

end Tandem

end Cotangent
