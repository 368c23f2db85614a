import Cotangent.Proofs.Evaluation.UpdateRegions
import Cotangent.Proofs.Tandem.Patterns
/-!
Loops. The parameters are declared one by one, and before the tangent of each is drawn, that of what it
starts from is asked for. In each round the parameters are bound again, to the results of the round before.
-/
namespace Cotangent

open Run ScalarAlgebra Diff Outline

namespace Tandem

/-- The parameters of a loop, its counter, and what the rows of its arrays are bound to. -/
def loopOpens (merge : List (Param × Operand)) : LoopForm → List Param
  | .whileHolds _ => merge.map (·.1)
  | .forBelow counter w _ arrays => merge.map (·.1) ++ ([⟨counter, .scalar (.int w)⟩] ++ arrays.map (·.1))

/-- What one step of the walk over parameters does: it declares the parameter, asks, and draws the tangent. -/
def Walks {β : Type} (act : Param × β → Diff (List (Param × β))) (ask : β → Diff β) (a : Param × β) : Prop :=
  ∀ s zs t, Gives (act a) s zs t → ∃ y u, Gives (ask a.2) (Forward.declared s [a.1]) y u ∧
    zs = [a, (⟨⟨u.builder.supply.next⟩, a.1.ty⟩, y)] ∧ t = Forward.withTangents u [a.1]

section

variable {α : Type} [ScalarAlgebra α] {f : Dual → α} {bound m n : Nat} {decl : Name → Ty}
  {scope still bs names cs : List Name} {s t u : DiffState} {σ₀ σ σ' : Store Scalar} {τ₀ τ τ' : Store α}
  {tans : NameTable Name}

/-! One parameter after the other. -/

/-- A parameter with its tangent, between which something was asked for. -/
theorem walk_asks (serves : Serves bound decl scope still s) {p : Param} (entrants : Entrants bound decl scope [p])
    (asks : Asks f bound decl scope still [] names (Forward.declared s [p]) u fun _ _ => True) :
    Asks f bound decl scope still [p.name] names s (Forward.withTangents u [p]) (fun _ _ => True) ∧
      Paired decl scope s [] [p] [⟨u.builder.supply.next⟩] (Forward.withTangents u [p]) := by
  have declares : Asks f bound decl scope still [p.name] names s (Forward.declared s [p]) fun _ _ => True :=
    declared_asks serves entrants.fresh
  have draws : Asks f bound decl scope still [p.name] names u (Forward.withTangents u [p]) fun _ _ => True :=
    withTangents_asks asks.serves entrants.fresh
  refine ⟨((declares.bind (asks.widen (by simp))).bind draws).mono fun _ _ _ => trivial, ?_⟩
  have typed : ∀ q ∈ [] ++ [p], u.builder.types.find? q.name = some (decl q.name) := by
    intro q mem
    obtain ⟨new, passes, -⟩ := asks.emits
    rw [passes.types _ (entrants.small q mem) (by simp)]
    refine find_declared_type _ mem fun r mem' same => ?_
    rw [← same, (entrants.declared r mem').1]
  have paired : Paired decl scope u [] [p] _ _ := paired_withTangents asks.serves entrants (by simp) typed
  exact { paired with drawn := fun c mem => ⟨Nat.le_trans asks.next_le (paired.drawn c mem).1, (paired.drawn c mem).2⟩ }

theorem bundled_asks {β : Type} (keys : β → List Name) {ask : β → Diff β}
    {act : Param × β → Diff (List (Param × β))} (holds : NameTable Name → β → β → Prop)
    (mono : ∀ {tans tans' : NameTable Name} {b c}, (∀ x ∈ keys b, ∀ z, tans.find? x = some z →
      tans'.find? x = some z) → holds tans b c → holds tans' b c)
    (each : ∀ b c s t, Serves bound decl scope still s → (∀ x ∈ keys b, x ∈ scope) →
      (∀ x ∈ keys b, x ∈ names) → Gives (ask b) s c t →
      Asks f bound decl scope still [] names s t (fun _ _ => True) ∧ holds t.companions b c)
    {xs zs : List (Param × β)} (walks : ∀ a ∈ xs, Walks act ask a) (serves : Serves bound decl scope still s)
    (entrants : Entrants bound decl scope (xs.map (·.1))) (known : ∀ x ∈ (xs.map (·.2)).flatMap keys, x ∈ scope)
    (read : ∀ x ∈ (xs.map (·.2)).flatMap keys, x ∈ names) (gives : Gives (Forward.bundled act xs) s zs t) :
    ∃ (qs : List Param) (ys : List β), zs = interleave xs (qs.zip ys) ∧ ys.length = xs.length ∧
      Asks f bound decl scope still ((xs.map (·.1)).map (·.name)) names s t (fun _ _ => True) ∧
      Paired decl scope s [] (xs.map (·.1)) (qs.map (·.name)) t ∧
      List.Forall₂ (holds t.companions) (xs.map (·.2)) ys := by
  induction xs generalizing s zs with
  | nil =>
    obtain ⟨rfl, rfl⟩ := Roles.gives_bundled_nil_iff.mp gives
    refine ⟨[], [], rfl, rfl, .refl serves fun _ _ _ _ _ _ => trivial, ?_, .nil⟩
    exact ⟨.nil, by simp, .nil, by simp, by simp, by simp⟩
  | cons a xs ih =>
    obtain ⟨part, v, parts, first, rest, rfl⟩ := Roles.gives_bundled_cons_iff.mp gives
    obtain ⟨y, u, asked, rfl, rfl⟩ := walks a (by simp) s part v first
    simp only [List.map_cons, List.flatMap_cons, List.forall_mem_append] at known read
    have here : Entrants bound decl scope [a.1] := entrants.sublist (by simp)
    have there : Entrants bound decl scope (xs.map (·.1)) := entrants.sublist (by simp)
    have declares : Asks f bound decl scope still _ names s (Forward.declared s [a.1]) _ :=
      declared_asks serves here.fresh
    obtain ⟨asks, found⟩ := each a.2 y _ u declares.serves known.1 read.1 asked
    obtain ⟨asks', paired⟩ := walk_asks serves here asks
    obtain ⟨qs, ys, rfl, count, more, others, found'⟩ := ih (fun b mem => walks b (by simp [mem])) asks'.serves there
      known.2 read.2 rest
    have apart : ∀ p ∈ [a.1], p.name ∉ (xs.map (·.1)).map (·.name) := by
      simpa using (List.nodup_cons.mp entrants.distinct).1
    obtain ⟨new, passes, -⟩ := more.emits
    refine ⟨⟨⟨u.builder.supply.next⟩, a.1.ty⟩ :: qs, y :: ys, rfl, by simp [count],
      ((asks'.widen (by simp)).bind (more.widen (by simp +contextual))).mono fun _ _ _ => trivial,
      paired.append passes here apart asks'.next_le others, .cons (mono (fun z mem c here => ?_) found) found'⟩
    refine more.kept (known.1 z mem) ((Forward.companion_withTangents_of_not_mem u fun p inPs same => ?_).trans here)
    obtain rfl := List.mem_singleton.mp inPs
    exact entrants.fresh _ (by simp) (same ▸ known.1 z mem)

theorem bundleMerge_asks (serves : Serves bound decl scope still s) {merge merge' : List (Param × Operand)}
    (entrants : Entrants bound decl scope (merge.map (·.1)))
    (known : ∀ x ∈ operandNames (merge.map (·.2)), x ∈ scope)
    (read : ∀ x ∈ operandNames (merge.map (·.2)), x ∈ names) (gives : Gives (Forward.bundleMerge merge) s merge' t) :
    ∃ (qs : List Param) (inits : List Operand), merge' = interleave merge (qs.zip inits) ∧
      inits.length = merge.length ∧
      Asks f bound decl scope still ((merge.map (·.1)).map (·.name)) names s t (fun _ _ => True) ∧
      Paired decl scope s [] (merge.map (·.1)) (qs.map (·.name)) t ∧
      List.Forall₂ (Tangent t.companions) (merge.map (·.2)) inits := by
  refine bundled_asks Operand.names Tangent (fun kept tangent => tangent.kept kept)
    (fun _ _ _ _ serves known read gives => tangent_asks [] serves known read gives) (fun m mem s zs t gives => ?_)
    serves entrants known read gives
  have plain := entrants.declared.plain m.1 (List.mem_map_of_mem mem)
  simp only [gives_bind, gives_build, plain, Bool.false_eq_true, if_false, gives_pure] at gives
  obtain ⟨_, _, ⟨-, rfl⟩, y, u, asked, tan, _, drawn, rfl, rfl⟩ := gives
  obtain ⟨rfl, rfl⟩ := (gives_of_outcome (Forward.gives_newTangent plain u) ..).mp drawn
  exact ⟨y, u, asked, rfl, rfl⟩

theorem bundleRows_asks (serves : Serves bound decl scope still s) {arrays arrays' : List (Param × Name)}
    (entrants : Entrants bound decl scope (arrays.map (·.1))) (known : ∀ x ∈ arrays.map (·.2), x ∈ scope)
    (read : ∀ x ∈ arrays.map (·.2), x ∈ names) (gives : Gives (Forward.bundleRows arrays) s arrays' t) :
    ∃ (qs : List Param) (sources : List Name), arrays' = interleave arrays (qs.zip sources) ∧
      sources.length = arrays.length ∧
      Asks f bound decl scope still ((arrays.map (·.1)).map (·.name)) names s t (fun _ _ => True) ∧
      Paired decl scope s [] (arrays.map (·.1)) (qs.map (·.name)) t ∧
      List.Forall₂ (fun x c => t.companions.find? x = some c) (arrays.map (·.2)) sources := by
  refine bundled_asks (fun x => [x]) (fun tans x c => tans.find? x = some c) (fun kept found => kept _ (by simp) _ found)
    (fun _ _ _ _ serves known read gives => companion_asks [] serves (known _ (by simp)) (read _ (by simp)) gives)
    (fun a mem s zs t gives => ?_) serves entrants (by simpa using known) (by simpa using read) gives
  have plain := entrants.declared.plain a.1 (List.mem_map_of_mem mem)
  simp only [gives_bind, gives_build, gives_pure] at gives
  obtain ⟨_, _, ⟨-, rfl⟩, c, u, asked, tan, _, drawn, rfl, rfl⟩ := gives
  obtain ⟨rfl, rfl⟩ := (gives_of_outcome (Forward.gives_newTangent plain u) ..).mp drawn
  exact ⟨c, u, asked, rfl, rfl⟩

/-! Rounds. -/

variable {inner still' : List Name} {chunk ps : List Param} {b b' : Body}

/-- The results of the body are taken as the parameters of the next round. -/
theorem step_shadows (paired : Paired decl scope s [] ps cs t) (serves : Serves bound decl scope still t)
    (entrants : Entrants bound decl scope ps) (reserved : bound ≤ s.builder.supply.next)
    (inside : ∀ p ∈ ps, p.name ∈ bs) (le : m ≤ s.builder.supply.next) (sub : ∀ x ∈ scope, x ∈ inner)
    (calm : ∀ x ∈ scope, x ∈ still → x ∈ still')
    (works : Works f bound inner still' bs m t doubled (fun fuel => runBody fuel b')
      fun stop fuel => guardedBody (keepTypes decl stop) fuel b) (stop : Fault α) (fuel : Nat)
    (steady : Steady f bound inner still' bs t.companions m t.builder.supply.next σ₀ τ₀ σ τ) :
    Shadows stop (step (runBody fuel) (interleave (ps.map (·.name)) cs) b') σ
      (step (guardedBody (keepTypes decl stop) fuel) (ps.map (·.name)) b) τ fun _ σ' _ τ' =>
        Steady f bound ((paramOutline ps).after scope) still bs t.companions m t.builder.supply.next σ₀ τ₀ σ' τ' := by
  refine (works _ (Later.refl inner t) stop fuel σ₀ τ₀ σ τ steady).bind ?_
  rintro _ σ' _ τ' ⟨es, rfl, rfl, after⟩
  have base : Steady f bound scope still bs t.companions m t.builder.supply.next σ₀ τ₀ σ' τ' :=
    ⟨after.accord.sub sub (fun _ _ _ found => found) calm, after.keeps⟩
  have unmoved : ∀ d ∈ es.take ([] : List Param).length, d.Every Dual.Still := by simp
  simpa using paired.bind_shadows serves entrants reserved inside (fun _ _ _ found => found) le (Nat.le_refl _) base
    unmoved stop

/-- The counter and the rows of a round. -/
theorem rows_shadows (view : View f) {p : Param} (w : IntWidth) (i : Nat) {ds : List (Value Dual)}
    (counts : ds.length = ps.length) (paired : Paired decl scope s [p] ps cs t)
    (serves : Serves bound decl scope still t) (entrants : Entrants bound decl scope ([p] ++ ps))
    (reserved : bound ≤ s.builder.supply.next) (inside : ∀ q ∈ [p] ++ ps, q.name ∈ bs)
    (le : m ≤ s.builder.supply.next)
    (steady : Steady f bound scope still bs t.companions m t.builder.supply.next σ₀ τ₀ σ τ) (stop : Fault α) :
    Shadows stop (do
        set p.name (.scalar (ofScalar (.int w i)))
        ((interleave (ps.map (·.name)) cs).zip ((doubled ds).map Value.table)).forM fun r => do
          set r.1 (← pick (← r.2) i)) σ
      (do
        set p.name (.scalar (ofScalar (.int w i)))
        ((ps.map (·.name)).zip ((ds.map (Value.map f)).map Value.table)).forM fun r => do
          set r.1 (← pick (← r.2) i)) τ fun _ σ' _ τ' =>
      Steady f bound ((paramOutline ([p] ++ ps)).after scope) ([p].map (·.name) ++ still) bs t.companions m
        t.builder.supply.next σ₀ τ₀ σ' τ' := by
  have counts' : cs.length = (ps.map (·.name)).length := by
    rw [List.length_map]
    exact paired.found.length_eq.symm
  refine shadows_of_ends fun _ σ' ends => ?_
  obtain ⟨_, σ₁, first, rest⟩ := (ends_bind ..).mp ends
  obtain rfl := (ends_set ..).mp first
  rw [Ends, outcome_setRows (by simp [length_interleave counts', length_doubled, counts]), rowsAt_doubled] at rest
  cases picked : rowsAt (ds.map Value.table) i with
  | error e => simp [picked, carry] at rest
  | ok es =>
    have length : es.length = ps.length := by
      have lengths := (except_mapM_iff.mp picked).length_eq
      rw [List.length_map] at lengths
      omega
    have calm : ∀ d ∈ (Value.scalar (Dual.constant (.int w i)) :: es).take [p].length, d.Every Dual.Still := by
      simp only [List.length_singleton, List.take_succ_cons, List.take_zero, List.forall_mem_singleton]
      exact Dual.still_constant _
    obtain ⟨accord, keeps⟩ := paired.enters serves entrants reserved steady.accord steady.source
      (fun _ _ _ found => found) inside (by simp [length, Nat.add_comm]) calm
    have seen : rowsAt ((ds.map (Value.map f)).map Value.table) i = .ok (es.map (Value.map f)) := by
      rw [rowsAt_map, picked, carry_ok]
    have there : Ends (((ps.map (·.name)).zip ((ds.map (Value.map f)).map Value.table)).forM fun r => do
        set r.1 (← pick (← r.2) i) : Run α Unit) (τ.bound [p.name] [.scalar (ofScalar (.int w i))]) ()
        ((τ.bound [p.name] [.scalar (ofScalar (.int w i))]).bound (ps.map (·.name)) (es.map (Value.map f))) := by
      rw [Ends, outcome_setRows (by simp [counts]), seen]
      rfl
    rw [picked, carry_ok] at rest
    obtain rfl := (Prod.mk.inj (Except.ok.inj (Option.some.inj rest))).2
    have seenCounter : f (.constant (.int w i)) = ofScalar (.int w i) := view.constant _
    refine ⟨(), _, (ends_bind ..).mpr ⟨(), _, (ends_set ..).mpr rfl, there⟩, ?_⟩
    rw [← seenCounter]
    exact ⟨accord, steady.keeps.trans (keeps.mono (fun _ mem => mem) le (Nat.le_refl _))⟩

/-- What all loops do before the first round and after the last one. -/
theorem turns_shadows (view : View f) {xs inits : List Operand}
    (tangents : List.Forall₂ (Tangent t.companions) xs inits) (known : ∀ x ∈ operandNames xs, x ∈ scope)
    (paired : Paired decl scope s [] ps cs t) (serves : Serves bound decl scope still t)
    (entrants : Entrants bound decl scope ps) (reserved : bound ≤ s.builder.supply.next)
    (inside : ∀ p ∈ ps, p.name ∈ bs) (le : m ≤ s.builder.supply.next) {stop : Fault α}
    {turns' : Run Scalar Unit} {turns : Run α Unit}
    (each : ∀ σ τ, Steady f bound ((paramOutline ps).after scope) still bs t.companions m t.builder.supply.next σ₀ τ₀
      σ τ → Shadows stop turns' σ turns τ fun _ σ' _ τ' =>
        Steady f bound ((paramOutline ps).after scope) still bs t.companions m t.builder.supply.next σ₀ τ₀ σ' τ')
    (steady : Steady f bound scope still bs t.companions m t.builder.supply.next σ₀ τ₀ σ τ) :
    Shadows stop (do
        Run.bind (interleave (ps.map (·.name)) cs) (← operands (interleave xs inits))
        turns'
        lookups (interleave (ps.map (·.name)) cs)) σ
      (do
        Run.bind (ps.map (·.name)) (← operands xs)
        turns
        lookups (ps.map (·.name))) τ
      (Comes f bound scope still bs t.companions m t.builder.supply.next doubled σ₀ τ₀) := by
  refine .reads (fun us ws => ∃ ds : List (Value Dual), us = doubled ds ∧ ws = ds.map (Value.map f))
    (fun us σ' ends => ?_) ?_
  · obtain ⟨ds, pairs⟩ := steady.accord.allPairs view known tangents
    obtain ⟨rfl, rfl, seen⟩ := pairs.ends_doubled ends
    exact ⟨rfl, _, seen, ds, rfl, rfl⟩
  rintro _ _ ⟨ds, rfl, rfl⟩
  have unmoved : ∀ d ∈ ds.take ([] : List Param).length, d.Every Dual.Still := by simp
  have enters := paired.bind_shadows serves entrants reserved inside (fun _ _ _ found => found) le (Nat.le_refl _)
    steady unmoved stop
  simp only [List.map_nil, List.nil_append, List.length_nil, partly_zero] at enters
  refine enters.bind fun _ σ₁ _ τ₁ entered => (each σ₁ τ₁ entered).bind fun _ σ₂ _ τ₂ turned => ?_
  refine shadows_of_ends fun us σ₃ ends => ?_
  obtain ⟨rfl, es, rfl, seen⟩ := turned.accord.lookups view
    (fun x mem => (mem_after_paramOutline ..).mpr (.inr (List.mem_map.mp mem)))
    (List.forall₂_map_left_iff.mpr paired.found) ends
  exact ⟨_, τ₂, seen, es, rfl, rfl, turned.accord.sub (fun _ => mem_after _) (fun _ _ _ found => found)
    fun _ _ isStill => isStill, turned.keeps⟩

/-- The condition of a loop is a parameter, or comes from outside. -/
theorem condition_shadows (view : View f) (steady : Steady f bound scope still bs tans m n σ₀ τ₀ σ τ) {cond : Name}
    (known : cond ∈ scope) {stop : Fault α} :
    Shadows stop (do asBool (← (← lookup cond).asScalar)) σ (do asBool (← (← lookup cond).asScalar)) τ
      fun b σ' c τ' => b = c ∧ Steady f bound scope still bs tans m n σ₀ τ₀ σ' τ' := by
  refine shadows_of_ends fun b σ' ends => ?_
  simp only [ends_bind, ends_lookup, ends_lift] at ends ⊢
  obtain ⟨v, _, ⟨found, rfl⟩, a, _, ⟨isScalar, rfl⟩, isBool, rfl⟩ := ends
  obtain ⟨d, reads, -⟩ := steady.accord cond known
  obtain rfl := Option.some.inj (found.symm.trans reads.primal)
  obtain ⟨d, rfl, rfl⟩ := Value.map_eq_scalar ((asScalar_eq_ok ..).mp isScalar)
  exact ⟨b, τ, ⟨_, τ, ⟨reads.seen, rfl⟩, f d, τ, ⟨rfl, rfl⟩, view.asBool isBool, rfl⟩, rfl, steady⟩

/-! Statements. -/

/-- The body of a loop, inside the parameters and what is bound in each round. -/
theorem loopBody_asks {act : Diff Body} {rows : List Param} {cs' : List Name} {v : DiffState}
    (serves : Serves bound decl scope still u) (entrants : Entrants bound decl scope (ps ++ (chunk ++ rows)))
    (outer : Paired decl scope s [] ps cs u) (inner : Paired decl scope v chunk rows cs' u)
    (before : ∀ c ∈ cs, c.id < v.builder.supply.next) (reserved : bound ≤ s.builder.supply.next)
    (reserved' : bound ≤ v.builder.supply.next)
    (awaits : Awaits bound ((paramOutline (chunk ++ rows)).after ((paramOutline ps).after scope)) u b.outline)
    (onBody : Nested f bound decl act b) (gives : Gives (within act) u b' t) :
    Asks f bound decl scope still b.outline.binders names u t (fun _ _ => True) ∧ t.companions = u.companions ∧
      Works f bound ((paramOutline (chunk ++ rows)).after ((paramOutline ps).after scope))
        (chunk.map (·.name) ++ still) b.outline.binders u.builder.supply.next t doubled
        (fun fuel => runBody fuel b') fun stop fuel => guardedBody (keepTypes decl stop) fuel b := by
  have around := outer.serves serves (entrants.sublist (List.sublist_append_left ..)) reserved
  obtain ⟨passes, same, works⟩ := onBody _ _ u b' t
    ((inner.deeper outer before).serves around entrants.deeper reserved') awaits gives
  have shrunk : Passes bound scope b.outline.binders u [] t := {
    emitted := passes.emitted
    next_le := passes.next_le
    types := passes.types
    free := fun x _ _ => by rw [same]
    kept := fun x _ c found => same ▸ found
    fresh := fun x _ c found => .inl (same ▸ found) }
  exact ⟨.aside serves shrunk (fun x known binder => awaits.fresh x binder (mem_after _ (mem_after _ known)))
    fun _ _ => by rw [same], same, works⟩

/-- The parameters of a loop and its body, after the tangents of the pattern were drawn. -/
theorem loop_ready (names : List Name) {pat : List Param} {act : Diff Body} {rows : List Param} {cs' : List Name} {v : DiffState}
    {new : List Stm} (serves : Serves bound decl scope still u)
    (entrants : Entrants bound decl scope (ps ++ (chunk ++ rows)))
    (passes : Passes bound scope ((ps ++ (chunk ++ rows)).map (·.name)) s new u)
    (outer : Paired decl scope s [] ps cs u) (inner : Paired decl scope v chunk rows cs' u)
    (before : ∀ c ∈ cs, c.id < v.builder.supply.next) (reserved : bound ≤ s.builder.supply.next)
    (le : s.builder.supply.next ≤ v.builder.supply.next)
    (awaits : Awaits bound ((paramOutline (chunk ++ rows)).after ((paramOutline ps).after scope)) s b.outline)
    (apart : ∀ p ∈ pat, p.name ∉ scope ∧ p.name ∉ (ps ++ (chunk ++ rows)).map (·.name) ∧ p.name ∉ b.outline.binders)
    (onBody : Nested f bound decl act b) (inside : ∀ x ∈ b.outline.binders, x ∈ bs)
    (gives : Gives (within act) (Forward.withTangents u pat) b' t) :
    Asks f bound decl scope still bs names (Forward.withTangents u pat) t (fun _ _ => True) ∧ Onward scope u t ∧
      Paired decl scope s [] ps cs t ∧
      Paired decl ((paramOutline ps).after scope) v chunk rows cs' t ∧
      Works f bound ((paramOutline (chunk ++ rows)).after ((paramOutline ps).after scope))
        (chunk.map (·.name) ++ still) bs s.builder.supply.next t doubled
        (fun fuel => runBody fuel b') fun stop fuel => guardedBody (keepTypes decl stop) fuel b := by
  have fresh (x : Name) (binder : x ∈ b.outline.binders) : x ∉ scope ∧ x ∉ (ps ++ (chunk ++ rows)).map (·.name) := by
    have unbound := awaits.fresh x binder
    refine ⟨fun known => unbound (mem_after _ (mem_after _ known)), fun isParam => unbound ?_⟩
    obtain ⟨p, mem, rfl⟩ := List.mem_map.mp isParam
    rcases List.mem_append.mp mem with mem | mem
    · exact mem_after _ ((mem_after_paramOutline ..).mpr (.inr ⟨p, mem, rfl⟩))
    · exact (mem_after_paramOutline ..).mpr (.inr ⟨p, mem, rfl⟩)
  have outerEntrants := entrants.sublist (List.sublist_append_left ..)
  have innerEntrants := entrants.sublist (List.sublist_append_right ..)
  have draws : Passes bound scope (pat.map (·.name)) u [] (Forward.withTangents u pat) :=
    passes_withTangents u serves.reserved fun p mem => ⟨List.mem_map_of_mem mem, (apart p mem).1⟩
  have patternNames {p : Param} (mem : p ∈ ps ++ (chunk ++ rows)) : p.name ∉ pat.map (·.name) := fun named => by
    obtain ⟨q, inPat, same⟩ := List.mem_map.mp named
    exact (apart q inPat).2.1 (same ▸ List.mem_map_of_mem mem)
  have draws' : Asks f bound decl scope still _ names u (Forward.withTangents u pat) _ :=
    withTangents_asks serves fun p mem => (apart p mem).1
  have outer' := outer.passes draws outerEntrants fun p mem => patternNames (List.mem_append_left _ mem)
  have inner' := inner.passes draws innerEntrants fun p mem => patternNames (List.mem_append_right _ mem)
  have awaits' := (awaits.passes passes fun x binder => fresh x binder).passes draws fun x binder =>
    ⟨(fresh x binder).1, fun named => by
      obtain ⟨q, inPat, same⟩ := List.mem_map.mp named
      exact (apart q inPat).2.2 (same ▸ binder)⟩
  obtain ⟨asks, same, works⟩ := loopBody_asks draws'.serves entrants outer' inner' before reserved
    (Nat.le_trans reserved le) awaits' onBody gives
  obtain ⟨more, passes', -⟩ := asks.emits
  have outer'' := outer'.passes passes' outerEntrants fun p mem binder =>
    (fresh _ binder).2 (List.mem_map_of_mem (List.mem_append_left _ mem))
  have inner'' := inner'.passes passes' innerEntrants fun p mem binder =>
    (fresh _ binder).2 (List.mem_map_of_mem (List.mem_append_right _ mem))
  exact ⟨asks.widen inside, draws'.onward.trans asks.onward, outer'', inner''.deeper outer'' before,
    works.mono (Nat.le_trans passes.next_le draws.next_le) inside ⟨Later.refl .., Nat.le_refl _⟩⟩

theorem map_names {β : Type} (xs : List (Param × β)) : xs.map (·.1.name) = (xs.map (·.1)).map (·.name) := by
  rw [List.map_map]
  rfl

/-- The names and the initial values of the parameters with their tangents. -/
theorem map_bundled {β : Type} {xs : List (Param × β)} {qs : List Param} {ys : List β}
    (counts : qs.length = xs.length) (counts' : ys.length = xs.length) :
    (interleave xs (qs.zip ys)).map (·.1.name) = interleave ((xs.map (·.1)).map (·.name)) (qs.map (·.name)) ∧
      (interleave xs (qs.zip ys)).map (·.2) = interleave (xs.map (·.2)) ys := by
  have firsts : (qs.zip ys).map (·.1) = qs := List.map_fst_zip (by omega)
  have seconds : (qs.zip ys).map (·.2) = ys := List.map_snd_zip (by omega)
  constructor
  · rw [map_interleave, List.map_map, ← firsts, List.map_map, firsts]
    rfl
  · rw [map_interleave, seconds]

theorem binders_loop (merge : List (Param × Operand)) (form : LoopForm) (b : Body) (arity : Nat) :
    (∀ p ∈ loopOpens merge form, p.name ∈ ((Exp.loop merge form b).outline arity).binders) ∧
      ∀ x ∈ b.outline.binders, x ∈ ((Exp.loop merge form b).outline arity).binders := by
  have named {ps : List Param} {p : Param} (mem : p ∈ ps) : p.name ∈ (paramOutline ps).binders :=
    (mem_binders_paramOutline ..).mpr ⟨p, mem, rfl⟩
  cases form with
  | whileHolds cond =>
    simp only [loopOpens, Exp.outline, loopOutline, binders_append, Outline.binders, List.mem_append]
    exact ⟨fun p mem => by simp only [named mem, true_or, or_true], fun x mem => by simp only [mem, true_or, or_true]⟩
  | forBelow counter w bound arrays =>
    simp only [loopOpens, Exp.outline, loopOutline, binders_append, Outline.binders, List.mem_append, List.mem_cons,
      List.not_mem_nil, or_false]
    refine ⟨fun p mem => ?_, fun x mem => by simp only [mem, or_true]⟩
    rcases mem with mem | rfl | mem
    · simp only [named mem, true_or, or_true]
    · simp only [true_or, or_true]
    · simp only [named mem, true_or, or_true]

theorem while_stands (view : View f) {pat : List Param} {aux : Annotations} {merge : List (Param × Operand)}
    {cond : Name} {act : Diff Body} (declared : Declared decl pat) (declared' : Declared decl (merge.map (·.1)))
    (onBody : Nested f bound decl act b) :
    Stands f bound decl
      (Forward.loop ⟨pat, aux, .loop merge (.whileHolds cond) b⟩ merge (.whileHolds cond) act)
      ⟨pat, aux, .loop merge (.whileHolds cond) b⟩ := by
  intro scope still s t serves awaits gives
  obtain ⟨inside, pattern, apart, -⟩ := awaits.stm
  simp only [Forward.loop, gives_bind, gives_pure] at gives
  obtain ⟨merge', u₁, walked, _, _, ⟨rfl, rfl⟩, qs, u₂, bundled, b', u₃, made, added⟩ := gives
  obtain ⟨rfl, rfl⟩ := (gives_of_outcome (Forward.gives_bundleBinders declared.plain u₁) ..).mp bundled
  obtain rfl := ((gives_build ..).mp added).2
  rw [Exp.outline] at inside
  have whole : Awaits bound scope s (readsAll (operandNames (merge.map (·.2))) ++
    block (paramOutline (merge.map (·.1)) ++ block b.outline (readsAll [cond])) done) := Awaits.first (Awaits.first inside)
  have known := (Awaits.first whole).reads
  have nested := Awaits.second whole
  rw [after_readsAll] at nested
  have params := Awaits.first nested.block.1
  obtain ⟨body, condition⟩ := (Awaits.second nested.block.1).block
  have entrants := params.entrants declared'
  have read (x : Name) (mem : x ∈ operandNames (merge.map (·.2))) :
      x ∈ Stm.uses ⟨pat, aux, .loop merge (.whileHolds cond) b⟩ :=
    awaits.looked (by simp only [Exp.outline, loopOutline, uses_append, uses_readsAll, List.mem_append, mem, true_or])
      (known x mem)
  obtain ⟨paramNames, bodyNames⟩ := binders_loop merge (.whileHolds cond) b pat.length
  obtain ⟨tans, inits, rfl, counts, asks, outer, tangents⟩ := bundleMerge_asks (f := f) serves entrants known read walked
  obtain ⟨new, passes, -⟩ := asks.emits
  have inner : Paired decl scope u₁ [] [] [] u₁ := ⟨.nil, by simp, .nil, by simp, by simp, by simp⟩
  have alone : merge.map (·.1) ++ ([] ++ []) = merge.map (·.1) := List.append_nil _
  obtain ⟨asks', onward, outer', -, works⟩ := loop_ready _ asks.serves (alone.symm ▸ entrants) (alone.symm ▸ passes) outer inner
    (fun c mem => (outer.drawn c mem).2) serves.reserved asks.next_le body (fun p mem =>
      ⟨pattern.params.2.1 p mem, fun named => by
        rw [alone] at named
        obtain ⟨q, inPs, same⟩ := List.mem_map.mp named
        exact apart p mem (same ▸ paramNames q inPs), fun binder => apart p mem (bodyNames _ binder)⟩)
    onBody bodyNames made
  have tangents' : List.Forall₂ (Tangent u₃.companions) (merge.map (·.2)) inits :=
    tangents_kept tangents fun y mem => onward.later.kept y (known y mem)
  obtain ⟨names, values⟩ := map_bundled (by simpa using outer.found.length_eq.symm) counts
  refine ⟨still, emits_bundled view serves declared awaits rfl (asks.widen fun x named => ?_) asks'
    fun stop fuel σ₀ τ₀ σ τ steady _ => ?_⟩
  · obtain ⟨q, inPs, rfl⟩ := List.mem_map.mp named
    exact paramNames q inPs
  · have each (σ : Store Scalar) (τ : Store α) (entered : Steady f bound ((paramOutline (merge.map (·.1))).after scope)
        still ((Exp.loop merge (.whileHolds cond) b).outline pat.length).binders u₃.companions s.builder.supply.next
        u₃.builder.supply.next σ₀ τ₀ σ τ) := shadows_repeatWhile
      (fun σ τ (here : Steady f bound ((paramOutline (merge.map (·.1))).after scope) still _ u₃.companions _ _ σ₀ τ₀ σ τ) =>
        condition_shadows view here (condition.reads cond (by simp)))
      (fun σ τ here => step_shadows outer' asks'.serves entrants serves.reserved paramNames (Nat.le_refl _)
        (fun _ => mem_after _) (fun _ _ isStill => isStill) works stop fuel here) fuel entered
    simp only [exp, loop, names, values]
    rw [map_names]
    exact turns_shadows view tangents' known outer' asks'.serves entrants serves.reserved paramNames (Nat.le_refl _) each
      steady

/-- All that a loop over rows binds gets its tangents, apart from the counter. -/
theorem header_asks (serves : Serves bound decl scope still s) {merge merge' : List (Param × Operand)}
    {arrays arrays' : List (Param × Name)} {p : Param}
    (entrants : Entrants bound decl scope (merge.map (·.1) ++ ([p] ++ arrays.map (·.1))))
    (unclaimed : s.companions.find? p.name = none)
    (known : ∀ x ∈ operandNames (merge.map (·.2)), x ∈ scope ∧ x ∈ names)
    (known' : ∀ x ∈ arrays.map (·.2), x ∈ scope ∧ x ∈ names)
    (walked : Gives (Forward.bundleMerge merge) s merge' t) (walked' : Gives (Forward.bundleRows arrays) t arrays' u) :
    ∃ (tans rowTans : List Param) (inits : List Operand) (sources : List Name),
      merge' = interleave merge (tans.zip inits) ∧ inits.length = merge.length ∧
      arrays' = interleave arrays (rowTans.zip sources) ∧ sources.length = arrays.length ∧
      Asks f bound decl scope still ((merge.map (·.1) ++ ([p] ++ arrays.map (·.1))).map (·.name)) names s
        (Forward.declared u [p]) (fun _ _ => True) ∧
      (s.builder.supply.next ≤ t.builder.supply.next ∧ ∀ c ∈ tans.map (·.name), c.id < t.builder.supply.next) ∧
      Paired decl scope s [] (merge.map (·.1)) (tans.map (·.name)) (Forward.declared u [p]) ∧
      Paired decl scope t [p] (arrays.map (·.1)) (rowTans.map (·.name)) (Forward.declared u [p]) ∧
      List.Forall₂ (Tangent (Forward.declared u [p]).companions) (merge.map (·.2)) inits ∧
      List.Forall₂ (fun x c => (Forward.declared u [p]).companions.find? x = some c) (arrays.map (·.2)) sources := by
  have first : Entrants bound decl scope (merge.map (·.1)) := entrants.sublist (List.sublist_append_left ..)
  have second : Entrants bound decl scope ([p] ++ arrays.map (·.1)) := entrants.sublist (List.sublist_append_right ..)
  have distinct := entrants.distinct
  rw [List.map_append] at distinct
  have apart := (List.nodup_append.mp distinct).2.2
  obtain ⟨tans, inits, rfl, counts, asks, outer, tangents⟩ := bundleMerge_asks (f := f) serves first
    (fun x mem => (known x mem).1) (fun x mem => (known x mem).2) walked
  obtain ⟨rowTans, sources, rfl, counts', asks', inner, found⟩ := bundleRows_asks (f := f) asks.serves
    (second.sublist (List.sublist_append_right ..)) (fun x mem => (known' x mem).1) (fun x mem => (known' x mem).2) walked'
  have declares : Asks f bound decl scope still ([p].map (·.name)) names u (Forward.declared u [p]) fun _ _ => True :=
    declared_asks asks'.serves (second.sublist (List.sublist_append_left ..)).fresh
  have rest : Asks f bound decl scope still (([p] ++ arrays.map (·.1)).map (·.name)) names t (Forward.declared u [p])
      fun _ _ => True :=
    ((asks'.widen fun x mem => List.mem_cons_of_mem _ mem).bind
      (declares.widen fun x mem => List.mem_append_left _ mem)).mono fun _ _ _ => trivial
  obtain ⟨new, passes, -⟩ := asks.emits
  obtain ⟨new', passes', -⟩ := asks'.emits
  obtain ⟨more, passes'', -⟩ := rest.emits
  have absent : p.name ∉ scope := second.fresh p (by simp)
  have still' : u.companions.find? p.name = none := by
    rw [passes'.free _ absent (List.nodup_cons.mp second.distinct).1, passes.free _ absent fun mem =>
      apart _ mem p.name (by simp) rfl, unclaimed]
  refine ⟨tans, rowTans, inits, sources, rfl, counts, rfl, counts', ?_,
    ⟨asks.next_le, fun c mem => (outer.drawn c mem).2⟩,
    outer.passes passes'' first fun q mem named => apart _ (List.mem_map_of_mem mem) _ named rfl,
    inner.declare second still', tangents_kept tangents fun y mem c => rest.kept (known y mem).1, found⟩
  rw [List.map_append]
  exact ((asks.widen fun x mem => List.mem_append_left _ mem).bind
    (rest.widen fun x mem => List.mem_append_right _ mem)).mono fun _ _ _ => trivial

/-- A round of a loop over rows. -/
theorem round_shadows (view : View f) {p : Param} {rows : List Param} {cs' : List Name} {v : DiffState} (w : IntWidth)
    (i : Nat) {ds : List (Value Dual)} (counts : ds.length = rows.length)
    (outer : Paired decl scope s [] ps cs t) (inner : Paired decl ((paramOutline ps).after scope) v [p] rows cs' t)
    (serves : Serves bound decl scope still t) (entrants : Entrants bound decl scope (ps ++ ([p] ++ rows)))
    (reserved : bound ≤ s.builder.supply.next) (inside : ∀ q ∈ ps ++ ([p] ++ rows), q.name ∈ bs)
    (le : m ≤ s.builder.supply.next) (le' : s.builder.supply.next ≤ v.builder.supply.next)
    (works : Works f bound ((paramOutline ([p] ++ rows)).after ((paramOutline ps).after scope))
      ([p].map (·.name) ++ still) bs m t doubled (fun fuel => runBody fuel b')
      fun stop fuel => guardedBody (keepTypes decl stop) fuel b) (stop : Fault α) (fuel : Nat)
    (steady : Steady f bound ((paramOutline ps).after scope) still bs t.companions m t.builder.supply.next σ₀ τ₀ σ τ) :
    Shadows stop
      (Run.round (runBody fuel) (interleave (ps.map (·.name)) cs) p.name w
        ((interleave (rows.map (·.name)) cs').zip ((doubled ds).map Value.table)) b' i ()) σ
      (Run.round (guardedBody (keepTypes decl stop) fuel) (ps.map (·.name)) p.name w
        ((rows.map (·.name)).zip ((ds.map (Value.map f)).map Value.table)) b i ()) τ fun _ σ' _ τ' =>
      Steady f bound ((paramOutline ps).after scope) still bs t.companions m t.builder.supply.next σ₀ τ₀ σ' τ' := by
  have split {β : Type} [ScalarAlgebra β] (run : Body → Run β (List (Value β))) (params : List Name)
      (pairs : List (Name × Table β)) (body : Body) : Run.round run params p.name w pairs body i () = (do
        (do
          set p.name (.scalar (ofScalar (.int w i)))
          pairs.forM fun r => do set r.1 (← pick (← r.2) i))
        step run params body) := by
    simp only [Run.round, bind_assoc]
  have outerEntrants := entrants.sublist (List.sublist_append_left ..)
  have around := outer.serves serves outerEntrants reserved
  rw [split, split]
  refine (rows_shadows view w i counts inner around entrants.deeper (Nat.le_trans reserved le')
    (fun q mem => inside q (List.mem_append_right _ mem)) (Nat.le_trans le le') steady stop).bind
      fun _ σ₁ _ τ₁ entered => ?_
  exact step_shadows outer serves outerEntrants reserved (fun q mem => inside q (List.mem_append_left _ mem)) le
    (fun x mem => mem_after _ (mem_after _ mem)) (fun x _ isStill => List.mem_append_right _ isStill) works stop fuel entered

/-- The rounds of a loop over rows. -/
theorem rows_turn (view : View f) {p : Param} {rows : List Param} {cs' : List Name} {v : DiffState} (w : IntWidth)
    {limit : Operand} {xs sources : List Name} (count : xs.length = rows.length)
    (known : ∀ x ∈ limit.names ++ xs, x ∈ scope)
    (found : List.Forall₂ (fun x c => t.companions.find? x = some c) xs sources)
    (outer : Paired decl scope s [] ps cs t) (inner : Paired decl ((paramOutline ps).after scope) v [p] rows cs' t)
    (serves : Serves bound decl scope still t) (entrants : Entrants bound decl scope (ps ++ ([p] ++ rows)))
    (reserved : bound ≤ s.builder.supply.next) (inside : ∀ q ∈ ps ++ ([p] ++ rows), q.name ∈ bs)
    (le : m ≤ s.builder.supply.next) (le' : s.builder.supply.next ≤ v.builder.supply.next)
    (works : Works f bound ((paramOutline ([p] ++ rows)).after ((paramOutline ps).after scope))
      ([p].map (·.name) ++ still) bs m t doubled (fun fuel => runBody fuel b')
      fun stop fuel => guardedBody (keepTypes decl stop) fuel b) (stop : Fault α) (fuel : Nat)
    (steady : Steady f bound ((paramOutline ps).after scope) still bs t.companions m t.builder.supply.next σ₀ τ₀ σ τ) :
    Shadows stop (do
        let tables := (← lookups (interleave xs sources)).map Value.table
        let n ← int limit
        rounds (Run.round (runBody fuel) (interleave (ps.map (·.name)) cs) p.name w
          ((interleave (rows.map (·.name)) cs').zip tables) b') n.toNat 0 ()) σ
      (do
        let tables := (← lookups xs).map Value.table
        let n ← int limit
        rounds (Run.round (guardedBody (keepTypes decl stop) fuel) (ps.map (·.name)) p.name w
          ((rows.map (·.name)).zip tables) b) n.toNat 0 ()) τ fun _ σ' _ τ' =>
      Steady f bound ((paramOutline ps).after scope) still bs t.companions m t.builder.supply.next σ₀ τ₀ σ' τ' := by
  simp only [List.forall_mem_append] at known
  refine .reads (fun us ws => ∃ ds : List (Value Dual), us = doubled ds ∧ ws = ds.map (Value.map f) ∧
    ds.length = rows.length) (fun us σ' ends => ?_) ?_
  · obtain ⟨rfl, ds, rfl, seen⟩ := steady.accord.lookups view (fun x mem => mem_after _ (known.2 x mem)) found ends
    refine ⟨rfl, _, seen, ds, rfl, rfl, ?_⟩
    rw [← count, ← ends_lookups_length seen, List.length_map]
  rintro _ _ ⟨ds, rfl, rfl, counts⟩
  refine .reads (· = ·) (fun n σ' ends => ?_) fun n _ same => ?_
  · obtain ⟨rfl, seen⟩ := (steady.accord.known fun x mem => mem_after _ (known.1 x mem)).int view ends
    exact ⟨rfl, n, seen, rfl⟩
  · subst same
    exact shadows_rounds (fun i _ σ _ τ here => round_shadows view w i counts outer inner serves entrants reserved inside
      le le' works stop fuel here) n.toNat 0 steady

theorem for_stands (view : View f) {pat : List Param} {aux : Annotations} {merge : List (Param × Operand)}
    {counter : Name} {w : IntWidth} {limit : Operand} {arrays : List (Param × Name)} {act : Diff Body}
    (declared : Declared decl pat) (declared' : Declared decl (loopOpens merge (.forBelow counter w limit arrays)))
    (onBody : Nested f bound decl act b) :
    Stands f bound decl
      (Forward.loop ⟨pat, aux, .loop merge (.forBelow counter w limit arrays) b⟩ merge
        (.forBelow counter w limit arrays) act)
      ⟨pat, aux, .loop merge (.forBelow counter w limit arrays) b⟩ := by
  intro scope still s t serves awaits gives
  obtain ⟨inside, pattern, apart, -⟩ := awaits.stm
  simp only [Forward.loop, gives_bind, gives_pure] at gives
  obtain ⟨merge', u₁, walked, arrays', u₂, walkedRows, _, _, counted, _, _, ⟨rfl, rfl⟩, qs, u₃, bundled, b', u₄, made,
    added⟩ := gives
  obtain rfl := ((gives_build ..).mp counted).2
  obtain ⟨rfl, rfl⟩ := (gives_of_outcome (Forward.gives_bundleBinders declared.plain _) ..).mp bundled
  obtain rfl := ((gives_build ..).mp added).2
  rw [Exp.outline] at inside
  have around : paramOutline (loopOpens merge (.forBelow counter w limit arrays)) =
      paramOutline (merge.map (·.1)) ++ binds counter (paramOutline (arrays.map (·.1))) := by
    rw [loopOpens, paramOutline_append]
    rfl
  have whole : Awaits bound scope s (readsAll (operandNames (merge.map (·.2))) ++
      readsAll (limit.names ++ arrays.map (·.2)) ++
      block (paramOutline (loopOpens merge (.forBelow counter w limit arrays)) ++ block b.outline done) done) := by
    rw [around]
    exact Awaits.first (Awaits.first inside)
  have known := (Awaits.first (Awaits.first whole)).reads
  have knownRows := (Awaits.second (Awaits.first whole)).reads
  rw [after_readsAll] at knownRows
  have nested := Awaits.second whole
  rw [after_append, after_readsAll, after_readsAll] at nested
  have params := Awaits.first nested.block.1
  have body := (Awaits.second nested.block.1).block.1
  have entrants := params.entrants declared'
  have read (x : Name) (mem : x ∈ operandNames (merge.map (·.2)) ∨ x ∈ limit.names ++ arrays.map (·.2)) :
      x ∈ Stm.uses ⟨pat, aux, .loop merge (.forBelow counter w limit arrays) b⟩ := by
    refine awaits.looked ?_ (mem.elim (known x) (knownRows x))
    simp only [Exp.outline, loopOutline, uses_append, uses_readsAll, List.mem_append] at mem ⊢
    tauto
  obtain ⟨paramNames, bodyNames⟩ := binders_loop merge (.forBelow counter w limit arrays) b pat.length
  obtain ⟨tans, rowTans, inits, sources, rfl, counts, rfl, counts', asks, ⟨le, before⟩, outer, inner, tangents, found⟩ :=
    header_asks (f := f) serves entrants (params.params.2.2.1 ⟨counter, .scalar (.int w)⟩ (by simp [loopOpens]))
      (fun x mem => ⟨known x mem, read x (.inl mem)⟩)
      (fun x mem => ⟨knownRows x (List.mem_append_right _ mem), read x (.inr (List.mem_append_right _ mem))⟩)
      walked walkedRows
  obtain ⟨new, passes, -⟩ := asks.emits
  rw [loopOpens, paramOutline_append, after_append] at body
  obtain ⟨asks', onward, outer', inner', works⟩ := loop_ready
    (Stm.uses ⟨pat, aux, .loop merge (.forBelow counter w limit arrays) b⟩) asks.serves entrants passes outer inner
    before serves.reserved le body
    (fun q mem => ⟨pattern.params.2.1 q mem, fun named => by
        obtain ⟨r, inPs, same⟩ := List.mem_map.mp named
        exact apart q mem (same ▸ paramNames r inPs), fun binder => apart q mem (bodyNames _ binder)⟩)
    onBody bodyNames made
  obtain ⟨names, values⟩ := map_bundled (by simpa using outer.found.length_eq.symm) counts
  obtain ⟨rowNames, rowSources⟩ := map_bundled (by simpa using inner.found.length_eq.symm) counts'
  have tangents' : List.Forall₂ (Tangent u₄.companions) (merge.map (·.2)) inits :=
    tangents_kept tangents fun y mem => onward.later.kept y (known y mem)
  have found' : List.Forall₂ (fun x c => u₄.companions.find? x = some c) (arrays.map (·.2)) sources :=
    forall₂_imp_mem found fun x mem c => onward.later.kept x (knownRows x (List.mem_append_right _ mem)) c
  refine ⟨still, emits_bundled view serves declared awaits rfl (asks.widen fun x named => ?_) asks'
    fun stop fuel σ₀ τ₀ σ τ steady _ => ?_⟩
  · obtain ⟨q, inPs, rfl⟩ := List.mem_map.mp named
    exact paramNames q inPs
  · have whole := turns_shadows view tangents' known outer' asks'.serves (entrants.sublist (List.sublist_append_left ..))
      serves.reserved (fun q mem => paramNames q (List.mem_append_left _ mem)) (Nat.le_refl _)
      (fun σ τ here => rows_turn view w (by simp) knownRows found' outer' inner' asks'.serves entrants serves.reserved
        paramNames (Nat.le_refl _) le works stop fuel here) steady
    simp only [exp, loop, names, values, rowNames, rowSources]
    rw [map_names, map_names]
    simpa only [bind_assoc] using whole

end

end Tandem

end Cotangent
