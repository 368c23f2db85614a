import Cotangent.Proofs.Tandem.Parameters
/-!
Bodies and lambdas. A nested scope is transformed before the statement that it belongs to is emitted, and
it runs later, perhaps many times. Until then further tangents may be given to the names around it, so what
it does is stated for any such tangents: from stores in accord it leads to stores in accord.
-/
namespace Cotangent

open Run ScalarAlgebra Diff Outline

namespace Tandem

/-- Tangents that include those of the state; the others were drawn later. -/
structure Later (scope : List Name) (t : DiffState) (tans : NameTable Name) : Prop where
  kept : ∀ x ∈ scope, ∀ c, t.companions.find? x = some c → tans.find? x = some c
  fresh : ∀ x ∈ scope, ∀ c, tans.find? x = some c →
    t.companions.find? x = some c ∨ t.builder.supply.next ≤ c.id

/-- The second state comes after the first, in the same scope. -/
structure Onward (scope : List Name) (t u : DiffState) : Prop where
  later : Later scope t u.companions
  next_le : t.builder.supply.next ≤ u.builder.supply.next

/-- Names that may be bound while a scope is open: they are names of the source, but not in scope. -/
def Spare (bound : Nat) (scope bs : List Name) : Prop := ∀ x ∈ bs, x.id < bound ∧ x ∉ scope

/-- The names in scope are in accord, and since the first pair of stores only names in `bs` were bound and
    those drawn from `m` on and below `n`. -/
structure Steady {α : Type} [ScalarAlgebra α] (f : Dual → α) (bound : Nat) (scope still bs : List Name)
    (tans : NameTable Name) (m n : Nat) (σ : Store Scalar) (τ : Store α) (σ' : Store Scalar) (τ' : Store α) :
    Prop where
  accord : Accord f scope still tans σ' τ'
  keeps : Keeps bound f bs m n σ τ σ' τ'

/-- What both runs end with, in stores that stayed steady: dual values, laid out by `lay` in the emitted
    code, and what is seen of them. -/
def Comes {α : Type} [ScalarAlgebra α] (f : Dual → α) (bound : Nat) (scope still bs : List Name)
    (tans : NameTable Name) (m n : Nat) (lay : List (Value Dual) → List Value) (σ : Store Scalar)
    (τ : Store α) (us : List Value) (σ' : Store Scalar) (ws : List (Value α)) (τ' : Store α) : Prop :=
  ∃ es : List (Value Dual), us = lay es ∧ ws = es.map (Value.map f) ∧
    Steady f bound scope still bs tans m n σ τ σ' τ'

/-- Whatever tangents are found later, the first run shadows the second from stores that are steady. -/
def Works {α : Type} [ScalarAlgebra α] (f : Dual → α) (bound : Nat) (scope still bs : List Name) (m : Nat)
    (t : DiffState) (lay : List (Value Dual) → List Value) (run' : Nat → Run Scalar (List Value))
    (run : Fault α → Nat → Run α (List (Value α))) : Prop :=
  ∀ tans, Later scope t tans → ∀ stop fuel σ₀ τ₀ σ τ,
    Steady f bound scope still bs tans m t.builder.supply.next σ₀ τ₀ σ τ →
      Shadows stop (run' fuel) σ (run stop fuel) τ
        (Comes f bound scope still bs tans m t.builder.supply.next lay σ₀ τ₀)

/-- Calls of the emitted lambda shadow those of the source, whose first `k` arguments do not change. -/
def Applies {α : Type} [ScalarAlgebra α] (f : Dual → α) (bound : Nat) (decl : Name → Ty)
    (scope still bs : List Name) (m : Nat) (t : DiffState) (k : Nat) (lay : List (Value Dual) → List Value)
    (l l' : Lambda) : Prop :=
  ∀ ds : List (Value Dual), (∀ d ∈ ds.take k, d.Every Dual.Still) →
    Works f bound scope still bs m t lay (fun fuel => applyLambda (runBody fuel) l' (partly k ds))
      fun stop fuel => applyLambda (guardedBody (keepTypes decl stop) fuel) l (ds.map (Value.map f))

/-- The action emits what shadows the statements. -/
def Runs {α : Type} [ScalarAlgebra α] (f : Dual → α) (bound : Nat) (decl : Name → Ty) (act : Diff Unit)
    (ss : List Stm) : Prop :=
  ∀ scope still s t, Serves bound decl scope still s → Awaits bound scope s (stmOutline ss) →
    Gives act s () t → ∃ still', Emits f bound decl scope still (stmOutline ss).binders s
      (fun stop fuel => guardedStms (keepTypes decl stop) fuel ss) ((stmOutline ss).after scope) still' t

/-- The operands come to dual values, and the emitted ones to these values as they are laid out. -/
def Answered {α : Type} [ScalarAlgebra α] (f : Dual → α) (lay : List (Value Dual) → List Value)
    (xs ys : List Operand) (σ : Store Scalar) (τ : Store α) : Prop :=
  ∀ us σ', Ends (operands ys) σ us σ' →
    σ' = σ ∧ ∃ es : List (Value Dual), us = lay es ∧ Ends (operands xs) τ (es.map (Value.map f)) τ

/-- The action asks for results in the given layout. -/
def Answers {α : Type} [ScalarAlgebra α] (f : Dual → α) (bound : Nat) (decl : Name → Ty) (xs : List Operand)
    (act : Diff (List Operand)) (lay : List (Value Dual) → List Value) : Prop :=
  ∀ scope still s ys t, Serves bound decl scope still s → (∀ y ∈ operandNames xs, y ∈ scope) →
    Gives act s ys t → Asks f bound decl scope still [] (operandNames xs) s t (Answered f lay xs ys)

section

variable {α : Type} [ScalarAlgebra α] {f : Dual → α} {bound m n m' : Nat} {decl : Name → Ty}
  {scope scope' still still' bs bs' names : List Name} {s t u : DiffState} {new : List Stm}
  {σ₀ σ σ' σ'' : Store Scalar} {τ₀ τ τ' τ'' : Store α} {tans : NameTable Name}
  {lay : List (Value Dual) → List Value} {post : Store Scalar → Store α → Prop} {o p : Outline}
  {run' : Nat → Run Scalar (List Value)} {run : Fault α → Nat → Run α (List (Value α))}

theorem Later.refl (scope : List Name) (t : DiffState) : Later scope t t.companions where
  kept _ _ _ found := found
  fresh _ _ _ found := .inl found

theorem Passes.onward (passes : Passes bound scope bs t new u) : Onward scope t u where
  later := ⟨passes.kept, fun x mem c found => passes.fresh x mem c found⟩
  next_le := passes.next_le

theorem Asks.onward (asks : Asks f bound decl scope still bs names t u post) : Onward scope t u := by
  obtain ⟨new, passes, -⟩ := asks.emits
  exact passes.onward

theorem Later.onward (later : Later scope u tans) (onward : Onward scope t u) : Later scope t tans where
  kept x mem c found := later.kept x mem c (onward.later.kept x mem c found)
  fresh x mem c found := by
    have le := onward.next_le
    rcases later.fresh x mem c found with found | drawn
    · exact onward.later.fresh x mem c found
    · exact .inr (by omega)

theorem Onward.trans {v : DiffState} (first : Onward scope t u) (second : Onward scope u v) :
    Onward scope t v :=
  ⟨second.later.onward first, Nat.le_trans first.next_le second.next_le⟩

theorem Steady.refl (accord : Accord f scope still tans σ τ) (source : Source bound f σ τ) :
    Steady f bound scope still bs tans m n σ τ σ τ :=
  ⟨accord, .refl source⟩

theorem Steady.source (steady : Steady f bound scope still bs tans m n σ₀ τ₀ σ τ) : Source bound f σ τ :=
  steady.keeps.source

/-- Whatever is bound that may be, the names in scope stay in accord. -/
theorem Steady.keeps_on (steady : Steady f bound scope still bs tans m n σ₀ τ₀ σ τ)
    (keeps : Keeps bound f bs m n σ τ σ' τ') (le : bound ≤ m) (small : ∀ x ∈ scope, x.id < bound)
    (spare : Spare bound scope bs)
    (drawn : ∀ x ∈ scope, ∀ c, tans.find? x = some c → bound ≤ c.id ∧ (c.id < m ∨ n ≤ c.id)) :
    Steady f bound scope still bs tans m n σ₀ τ₀ σ' τ' :=
  ⟨steady.accord.keeps keeps le (fun x mem => ⟨small x mem, fun inBs => (spare x inBs).2 mem⟩)
    (fun x mem => (spare x mem).1) drawn, steady.keeps.trans keeps⟩

/-- Parameters are bound on both sides. -/
theorem Paired.bind_shadows {chunk ps : List Param} {cs : List Name} (paired : Paired decl scope s chunk ps cs t)
    (serves : Serves bound decl scope still t) (entrants : Entrants bound decl scope (chunk ++ ps))
    (reserved : bound ≤ s.builder.supply.next) (inside : ∀ p ∈ chunk ++ ps, p.name ∈ bs)
    (kept : ∀ x ∈ scope, ∀ c, t.companions.find? x = some c → tans.find? x = some c)
    (le : m ≤ s.builder.supply.next) (le' : t.builder.supply.next ≤ n)
    (steady : Steady f bound scope still bs tans m n σ₀ τ₀ σ τ) {ds : List (Value Dual)}
    (calm : ∀ d ∈ ds.take chunk.length, d.Every Dual.Still) (stop : Fault α) :
    Shadows stop (Run.bind (chunk.map (·.name) ++ interleave (ps.map (·.name)) cs) (partly chunk.length ds)) σ
      (Run.bind ((chunk ++ ps).map (·.name)) (ds.map (Value.map f))) τ fun _ σ' _ τ' =>
        Steady f bound ((paramOutline (chunk ++ ps)).after scope) (chunk.map (·.name) ++ still) bs t.companions m n
          σ₀ τ₀ σ' τ' := by
  refine shadows_of_ends fun _ σ' ends => ?_
  obtain ⟨count, rfl⟩ := (ends_bindNames ..).mp ends
  have counts : cs.length = (ps.map (·.name)).length := by
    rw [List.length_map]
    exact paired.found.length_eq.symm
  have count : ds.length = chunk.length + ps.length := by
    have lengths := length_partly chunk.length ds
    simp only [List.length_map, List.length_append, length_interleave counts] at count
    omega
  obtain ⟨accord, keeps⟩ := paired.enters serves entrants reserved steady.accord steady.source kept inside count calm
  exact ⟨(), _, (ends_bindNames ..).mpr ⟨by simp [count], rfl⟩, accord, steady.keeps.trans (keeps.mono (fun _ mem => mem) le le')⟩

/-- The tangents of a state that serves the scope were drawn before it, and others after a later state. -/
theorem Serves.outside (serves : Serves bound decl scope still s) (le : s.builder.supply.next ≤ n)
    (kept : ∀ x ∈ scope, ∀ c, tans.find? x = some c → s.companions.find? x = some c ∨ n ≤ c.id) :
    ∀ x ∈ scope, ∀ c, tans.find? x = some c →
      bound ≤ c.id ∧ (c.id < s.builder.supply.next ∨ n ≤ c.id) := by
  intro x mem c found
  have reserved := serves.reserved
  rcases kept x mem c found with before | after
  · exact ⟨(serves.drawn x mem c before).1, .inl (serves.drawn x mem c before).2⟩
  · exact ⟨by omega, .inr after⟩

/-- What works in a state works later, and with more names that may be bound. -/
theorem Works.mono (works : Works f bound scope still bs m t lay run' run) (le : m' ≤ m)
    (sub : ∀ x ∈ bs, x ∈ bs') (onward : Onward scope t u) :
    Works f bound scope still bs' m' u lay run' run := by
  intro tans later stop fuel σ₀ τ₀ σ τ steady
  have here := works tans (later.onward onward) stop fuel σ τ σ τ (.refl steady.accord steady.source)
  refine here.mono fun us σ' ws τ' ⟨es, laid, seen, after⟩ => ⟨es, laid, seen, after.accord, ?_⟩
  exact steady.keeps.trans (after.keeps.mono sub le onward.next_le)

theorem Applies.mono {k : Nat} {l l' : Lambda}
    (applies : Applies f bound decl scope still bs m t k lay l l') (le : m' ≤ m) (sub : ∀ x ∈ bs, x ∈ bs')
    (onward : Onward scope t u) : Applies f bound decl scope still bs' m' u k lay l l' :=
  fun ds calm => (applies ds calm).mono le sub onward

/-- Names that are drawn and bound on the way are among those that may be. -/
theorem keeps_of_drawn (source : Source bound f σ τ) (le : bound ≤ m)
    (agree : σ.Agree (fun x => x.id < m ∨ n ≤ x.id) σ') : Keeps bound f bs m n σ τ σ' τ where
  left := agree.mono fun _ outside => outside.2
  right := .refl _ τ
  source x w found := by
    obtain ⟨small, d, reads⟩ := source x w found
    refine ⟨small, d, reads.agree agree (.refl (fun _ => True) τ) ?_ fun _ _ => trivial⟩
    simp only [Operand.names, List.mem_singleton, forall_eq]
    omega

/-- Names that the source run finds to be of their types are settled in the emitted code. -/
theorem Source.settled_all (source : Source bound f σ τ) (view : View f)
    (typed : ∀ x ∈ names, τ.holdsType decl x = true) (le : bound ≤ n) : ∀ x ∈ names, Settled decl n σ x :=
  fun x mem => source.settled view (typed x mem) le

/-! Results. -/

/-- Asking for results, and then reading them behind the guard. -/
theorem Asks.shadows (view : View f) {xs ys : List Operand}
    (asks : Asks f bound decl scope still bs (operandNames xs) s t (Answered f lay xs ys))
    (reserved : bound ≤ s.builder.supply.next) :
    ∃ new, Passes bound scope bs s new t ∧ ∀ stop fuel σ τ, Accord f scope still s.companions σ τ →
      Source bound f σ τ →
        Shadows stop (stms fuel new >>= fun _ => operands ys) σ
          (keepTypes decl stop (operandNames xs) [] >>= fun _ => operands xs) τ
          fun us σ' ws τ' => ∃ es : List (Value Dual), us = lay es ∧ ws = es.map (Value.map f) ∧ τ = τ' ∧
            Keeps bound f bs s.builder.supply.next t.builder.supply.next σ τ σ' τ := by
  obtain ⟨new, passes, runs⟩ := asks.emits
  refine ⟨new, passes, fun stop fuel σ τ accord source => .guarded fun typed => .before fun _ σ' ran => ?_⟩
  obtain ⟨-, agree, answered⟩ := runs fuel σ σ' τ accord
    (source.settled_all view (fun x mem => (typed x mem).1) reserved) ran
  refine shadows_of_ends fun us σ'' ends => ?_
  obtain ⟨rfl, es, rfl, seen⟩ := answered σ' (.refl _ σ') us σ'' ends
  exact ⟨_, τ, seen, es, rfl, rfl, rfl, keeps_of_drawn source reserved agree⟩

theorem answers_bundleOperands (view : View f) (xs : List Operand) :
    Answers f bound decl xs (Forward.bundleOperands xs) doubled := by
  intro scope still s ys t serves known gives
  obtain ⟨asks, dxs, rfl, tangents⟩ := bundleOperands_asks (f := f) [] serves known (fun _ mem => mem) gives
  refine asks.strengthen fun σ τ accord _ us σ' ends => ?_
  obtain ⟨ds, pairs⟩ := accord.allPairs view known tangents
  obtain ⟨rfl, rfl, seen⟩ := pairs.ends_doubled ends
  exact ⟨rfl, ds, rfl, seen⟩

/-- The tangents alone. -/
theorem answers_tangents (view : View f) (xs : List Operand) :
    Answers f bound decl xs (Forward.tangents xs) changes := by
  intro scope still s ys t serves known gives
  obtain ⟨asks, tangents⟩ := tangents_asks (f := f) [] serves known (fun _ mem => mem) gives
  refine asks.strengthen fun σ τ accord _ us σ' ends => ?_
  obtain ⟨ds, pairs⟩ := accord.allPairs view known tangents
  obtain ⟨rfl, rfl, seen⟩ := shadows_operands pairs.changes pairs.seen ends
  exact ⟨rfl, ds, rfl, seen⟩

/-! Bodies. -/

/-- A body works if its statements do and its results are asked for. -/
theorem bodyOf_works (view : View f) {act : Diff Unit} {result : Diff (List Operand)} {ss : List Stm}
    {xs : List Operand} {b : Body} (runs : Runs f bound decl act ss)
    (answers : Answers f bound decl xs result lay) (serves : Serves bound decl scope still s)
    (awaits : Awaits bound scope s (Body.outline ⟨ss, xs⟩)) (gives : Gives (bodyOf act result) s b t) :
    Passes bound scope (Body.outline ⟨ss, xs⟩).binders s [] { t with companions := s.companions } ∧
      Works f bound scope still (Body.outline ⟨ss, xs⟩).binders s.builder.supply.next
        { t with companions := s.companions } lay (fun fuel => runBody fuel b)
        fun stop fuel => guardedBody (keepTypes decl stop) fuel ⟨ss, xs⟩ := by
  have binders : (Body.outline ⟨ss, xs⟩).binders = (stmOutline ss).binders := by simp [Body.outline]
  have spare : Spare bound scope (stmOutline ss).binders := fun x mem =>
    ⟨awaits.small x (binders ▸ mem), awaits.fresh x (binders ▸ mem)⟩
  have first : Awaits bound scope s (stmOutline ss) := Awaits.first awaits
  have known := (Awaits.second awaits).reads
  obtain ⟨u, v, ran, asked, emitted, rfl⟩ := (gives_bodyOf ..).mp gives
  have cleared : Serves bound decl scope still (Forward.cleared s) := { serves with }
  obtain ⟨still', emits⟩ := runs scope still (Forward.cleared s) u cleared { first with } ran
  obtain ⟨new, passes, shadows⟩ := emits.shadows
  obtain ⟨more, passes', results⟩ :=
    (answers _ _ _ _ _ emits.serves known asked).shadows view emits.serves.reserved
  have le : s.builder.supply.next ≤ u.builder.supply.next := passes.next_le
  have le' := passes'.next_le
  have reserved := serves.reserved
  have code : b.stms = new ++ more := by
    rw [← emitted, passes'.emitted, passes.emitted]
    rfl
  rw [binders]
  refine ⟨?_, fun tans later stop fuel σ₀ τ₀ σ τ steady => ?_⟩
  · exact {
      emitted := (List.append_nil _).symm
      next_le := Nat.le_trans le le'
      types := fun x small other => (passes'.types x small (by simp)).trans (passes.types x small other)
      free := fun _ _ _ => rfl
      kept := fun _ _ _ found => found
      fresh := fun _ _ _ found => .inl found }
  cases fuel with
  | zero => exact fun us σ' ends => (ends_outOfFuel σ σ' us ends).elim
  | succ fuel =>
    have split : (runBody (fuel + 1) b : Run Scalar (List Value)) =
        stms fuel new >>= fun _ => stms fuel more >>= fun _ => operands b.result := by
      rw [← bind_assoc, ← stms_append, ← code]
      rfl
    have accord : Accord f scope still s.companions σ τ :=
      steady.accord.sub (fun _ mem => mem) later.kept fun _ _ isStill => isStill
    beta_reduce
    rw [split, guardedBody_succ]
    refine (shadows stop fuel σ τ accord steady.source).bind fun _ σ' _ τ' ⟨accord', keeps⟩ => ?_
    refine (results stop fuel σ' τ' accord' keeps.source).mono ?_
    rintro us σ'' ws _ ⟨es, rfl, rfl, rfl, keeps'⟩
    have whole : Keeps bound f (stmOutline ss).binders s.builder.supply.next v.builder.supply.next σ τ σ'' τ' :=
      (keeps.mono (fun _ mem => mem) (Nat.le_refl _) le').trans (keeps'.mono (by simp) le (Nat.le_refl _))
    exact ⟨es, rfl, rfl, steady.keeps_on whole reserved serves.small spare
      (serves.outside (Nat.le_trans le le') later.fresh)⟩

/-! Lambdas. -/

/-- The state inside a lambda, where all parameters but the first have tangents. -/
theorem opened_paired (serves : Serves bound decl scope still s) {chunk rest : List Param}
    (entrants : Entrants bound decl scope (chunk ++ rest))
    (unclaimed : ∀ p ∈ chunk ++ rest, s.companions.find? p.name = none) :
    Passes bound scope ((chunk ++ rest).map (·.name)) s [] (Forward.opened s chunk rest) ∧
      (∀ x ∈ scope, (Forward.opened s chunk rest).companions.find? x = s.companions.find? x) ∧
      Serves bound decl scope still (Forward.opened s chunk rest) ∧
      Paired decl scope (Forward.declared s (chunk ++ rest)) chunk rest ((Forward.tangentsOf s rest).map (·.name))
        (Forward.opened s chunk rest) := by
  have inRest {p : Param} (mem : p ∈ rest) : p ∈ chunk ++ rest := List.mem_append_right _ mem
  have outside (x : Name) (mem : x ∈ scope) : x ∉ (chunk ++ rest).map (·.name) := by
    rintro inParams
    obtain ⟨p, inPs, rfl⟩ := List.mem_map.mp inParams
    exact entrants.fresh p inPs mem
  have declares : Passes bound scope ((chunk ++ rest).map (·.name)) s [] (Forward.declared s (chunk ++ rest)) :=
    passes_declared s fun p mem => List.mem_map_of_mem mem
  have passes : Passes bound scope ((chunk ++ rest).map (·.name)) s [] (Forward.opened s chunk rest) :=
    declares.trans (passes_withTangents (Forward.declared s (chunk ++ rest)) serves.reserved fun p mem =>
      ⟨List.mem_map_of_mem (inRest mem), entrants.fresh p (inRest mem)⟩) (fun _ mem => mem) fun _ mem => .inl mem
  have same (x : Name) (known : x ∈ scope) :
      (Forward.opened s chunk rest).companions.find? x = s.companions.find? x :=
    Forward.companion_withTangents_of_not_mem (Forward.declared s (chunk ++ rest)) fun p mem here =>
      entrants.fresh p (inRest mem) (here ▸ known)
  refine ⟨passes, same, serves.passes passes outside fun x mem c found =>
      Nat.lt_of_lt_of_le (serves.drawn x mem c (same x mem ▸ found)).2 passes.next_le,
    paired_withTangents (serves.passes declares outside fun x mem c found => (serves.drawn x mem c found).2) entrants
      (fun p mem => unclaimed p (List.mem_append_left _ mem)) fun p mem => find_declared_type _ mem fun r inPs here => ?_⟩
  rw [← here, (entrants.declared r inPs).1]

theorem Awaits.lambda {l : Lambda} (awaits : Awaits bound scope s l.outline) :
    Awaits bound scope s (paramOutline l.params) ∧
      Awaits bound ((paramOutline l.params).after scope) s l.body.outline ∧
      (∀ x ∈ l.body.outline.binders, x ∉ (paramOutline l.params).binders) ∧
      l.outline.binders = (paramOutline l.params).binders ++ l.body.outline.binders := by
  obtain ⟨ps, b, ret⟩ := l
  have both := Awaits.first (Awaits.first awaits)
  exact ⟨Awaits.first both, Awaits.second both, Awaits.apart both, by simp [Lambda.outline]⟩

theorem lambda_works (view : View f) {chunk rest : List Param} {act : Diff Unit}
    {result : Diff (List Operand)} {ss : List Stm} {xs : List Operand} {ret ret' : List Ty} {l' : Lambda}
    (declared : Declared decl (chunk ++ rest)) (runs : Runs f bound decl act ss)
    (answers : Answers f bound decl xs result lay) (serves : Serves bound decl scope still s)
    (awaits : Awaits bound scope s (Lambda.outline ⟨chunk ++ rest, ⟨ss, xs⟩, ret⟩))
    (gives : Gives (within do
      build (Build.declareParams (chunk ++ rest))
      let ps ← Forward.bundleBinders rest
      let body ← bodyOf act result
      return ⟨chunk ++ ps, body, ret'⟩) s l' t) :
    Asks f bound decl scope still (Lambda.outline ⟨chunk ++ rest, ⟨ss, xs⟩, ret⟩).binders names s t
        (fun _ _ => True) ∧ l'.ret = ret' ∧
      Applies f bound decl scope still (Lambda.outline ⟨chunk ++ rest, ⟨ss, xs⟩, ret⟩).binders
        s.builder.supply.next t chunk.length lay ⟨chunk ++ rest, ⟨ss, xs⟩, ret⟩ l' := by
  obtain ⟨params, inside, apart, binders⟩ := awaits.lambda
  have outside : ∀ x ∈ scope, x ∉ (Lambda.outline ⟨chunk ++ rest, ⟨ss, xs⟩, ret⟩).binders :=
    fun x mem binder => awaits.fresh x binder mem
  simp only [gives_within, gives_bind, gives_build, gives_pure, Build.declareParams_apply] at gives
  obtain ⟨_, ⟨_, _, ⟨-, rfl⟩, ps, u, bundled, b, t, made, rfl, rfl⟩, rfl⟩ := gives
  obtain ⟨rfl, rfl⟩ := (gives_of_outcome (Forward.gives_bundleBinders
    (fun p mem => declared.plain p (List.mem_append_right _ mem)) _) ..).mp bundled
  have entrants := params.entrants declared
  obtain ⟨passes, same, served, paired⟩ := opened_paired serves entrants params.params.2.2.1
  have inParams {x : Name} : x ∈ (chunk ++ rest).map (·.name) ↔ x ∈ (paramOutline (chunk ++ rest)).binders := by
    rw [mem_binders_paramOutline, List.mem_map]
  obtain ⟨passes', works⟩ := bodyOf_works view runs answers (paired.serves served entrants serves.reserved)
    (inside.passes passes fun x mem =>
      ⟨fun (known : x ∈ scope) => awaits.fresh x (binders ▸ List.mem_append_right _ mem) known,
        fun named => apart x mem (inParams.mp named)⟩) made
  have le := passes.next_le
  have le' : _ ≤ t.builder.supply.next := passes'.next_le
  have whole : Passes bound scope (Lambda.outline ⟨chunk ++ rest, ⟨ss, xs⟩, ret⟩).binders s []
      { t with companions := s.companions } := {
    emitted := passes'.emitted.trans ((List.append_nil _).trans passes.emitted)
    next_le := Nat.le_trans le le'
    types := fun x small other => by
      rw [binders, List.mem_append, not_or] at other
      exact (passes'.types x small other.2).trans (passes.types x small fun mem => other.1 (inParams.mp mem))
    free := fun _ _ _ => rfl
    kept := fun _ _ _ found => found
    fresh := fun _ _ _ found => .inl found }
  refine ⟨.aside serves whole outside fun _ _ => rfl, rfl, fun ds calm tans later stop fuel σ₀ τ₀ σ τ steady => ?_⟩
  have enters := paired.bind_shadows served entrants serves.reserved (fun p mem => List.mem_map_of_mem mem)
    (fun x mem c found => later.kept x mem c (same x mem ▸ found)) (Nat.le_refl _) (Nat.le_refl _)
    (.refl steady.accord steady.source) calm stop
  rw [← map_interleave, ← List.map_append] at enters
  refine enters.bind fun _ σ' _ τ' entered => ?_
  refine (works _ (Later.refl _ _) stop fuel σ' τ' σ' τ' (.refl entered.accord entered.source)).mono ?_
  rintro us σ'' ws τ'' ⟨es, rfl, rfl, after⟩
  refine ⟨es, rfl, rfl, steady.keeps_on ((entered.keeps.mono (fun x mem => ?_) (Nat.le_refl _) le').trans
    (after.keeps.mono (fun x mem => ?_) le (Nat.le_refl _))) serves.reserved serves.small
    (fun x mem => ⟨awaits.small x mem, awaits.fresh x mem⟩)
    (serves.outside (Nat.le_trans le le') later.fresh)⟩
  · exact binders ▸ List.mem_append_left _ (inParams.mp mem)
  · exact binders ▸ List.mem_append_right _ mem

/-! Bodies on their own, in scopes that are left again. -/

/-- The action transforms a body so that it works. -/
def Nested {α : Type} [ScalarAlgebra α] (f : Dual → α) (bound : Nat) (decl : Name → Ty) (act : Diff Body)
    (b : Body) : Prop :=
  ∀ scope still s b' t, Serves bound decl scope still s → Awaits bound scope s b.outline →
    Gives (within act) s b' t → Passes bound scope b.outline.binders s [] t ∧ t.companions = s.companions ∧
      Works f bound scope still b.outline.binders s.builder.supply.next t doubled (fun fuel => runBody fuel b')
        fun stop fuel => guardedBody (keepTypes decl stop) fuel b

theorem nested_of_runs (view : View f) {act : Diff Unit} {ss : List Stm} {xs : List Operand}
    (runs : Runs f bound decl act ss) : Nested f bound decl (Forward.bundledBody act xs) ⟨ss, xs⟩ := by
  intro scope still s b' t serves awaits gives
  obtain ⟨u, made, rfl⟩ := (gives_within ..).mp gives
  obtain ⟨passes, works⟩ := bodyOf_works view runs (answers_bundleOperands view xs) serves awaits made
  exact ⟨passes, rfl, works⟩

/-- What is left to be transformed after a part of the same outline. -/
theorem Awaits.carry (awaits : Awaits bound scope s (o ++ p)) (flat : o.after scope = scope)
    (asks : Asks f bound decl scope still bs names s t post) (sub : ∀ x ∈ bs, x ∈ o.binders) :
    Awaits bound scope t p := by
  obtain ⟨new, passes, -⟩ := asks.emits
  have second := Awaits.second awaits
  rw [flat] at second
  exact second.passes passes fun x mem =>
    ⟨second.fresh x mem, fun inBs => Awaits.apart awaits x mem (sub x inBs)⟩

end

end Tandem

end Cotangent
