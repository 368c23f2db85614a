import Cotangent.Proofs.Derivative.Adjoints
import Cotangent.Proofs.Scope.FreeNames
/-!
The backward sweep as a transposition. Going back over a statement takes the pairing of what is bound
after it to the pairing of what was bound before it, so a whole sweep takes the seeds, paired with the
slopes of the results, to the adjoints of the names that the code reads from outside.
-/
namespace Cotangent

open Outline Run

variable {w : IntWidth} {σ τ υ : Store Scalar} {δ ε : NameTable Dual}

/-! Patterns. -/

/-- Distinct names that are inserted with as many values stand for these. -/
theorem NameTable.find_insertAll_zip {α : Type} (t : NameTable α) {xs : List Name} (as : List α)
    (distinct : xs.Nodup) (length : as.length = xs.length) :
    List.Forall₂ (fun x a => (t.insertAll (xs.zip as)).find? x = some a) xs as := by
  induction xs generalizing as t with
  | nil =>
    obtain rfl := List.length_eq_zero_iff.mp length
    exact .nil
  | cons x xs ih =>
    obtain ⟨a, as, rfl⟩ := List.exists_cons_of_length_eq_add_one length
    obtain ⟨absent, distinct⟩ := List.nodup_cons.mp distinct
    refine .cons ?_ (ih _ as distinct (by simpa using length))
    have later : ∀ p ∈ xs.zip as, p.1 ≠ x := by
      rintro p mem rfl
      exact absent (List.of_mem_zip mem).1
    rw [List.zip_cons_cons, NameTable.insertAll_cons, NameTable.find_insertAll_of_not_mem _ _ _ later,
      NameTable.find_insert, if_pos rfl]

namespace Reverse

open Diff

variable {s t u : DiffState} {scope middle later inner : Scope} {fuel : Nat}

/-- The pairs of what a pattern binds come on top of those of the names in scope. -/
theorem pairing_pattern {ps : List Param} (accepted : (paramOutline ps).Accepted inner)
    (kept : ∀ x ∈ inner, ε.find? x = δ.find? x) :
    pairing w s σ ε ((paramOutline ps).after inner) =
      pairing w s σ δ inner +
        (ps.map fun p => tally w s σ p.name * (Operand.var p.name).slope w ε).sum := by
  have wider (inner : Scope) (ps : List Param) (accepted : (paramOutline ps).Accepted inner) :
      pairing w s σ ε ((paramOutline ps).after inner) = pairing w s σ ε inner +
        (ps.map fun p => tally w s σ p.name * (Operand.var p.name).slope w ε).sum := by
    induction ps generalizing inner with
    | nil => simp [paramOutline]
    | cons p ps ih =>
      simp only [paramOutline, Param.outline, accepted_append, after_append, Accepted, after,
        after_mentionsAll] at accepted ⊢
      rw [ih _ accepted.2, pairing, List.toFinset_cons,
        Finset.sum_insert (by simpa using accepted.1.1), List.map_cons, List.sum_cons, pairing]
      ring
  rw [wider inner ps accepted]
  congr 1
  refine Finset.sum_congr rfl fun x mem => ?_
  rw [Operand.slope_congr (ε := δ) (by simpa [Operand.names] using kept x (List.mem_toFinset.mp mem))]

theorem pairing_of_empty (empty : s.companions = .empty) : pairing w s σ δ scope = 0 :=
  Finset.sum_eq_zero fun x _ => by
    rw [tally_of_none (by rw [empty, NameTable.find_empty]), zero_mul]

/-- The companions of names in scope are made as far as they are missing. -/
theorem walk_quiet {α β : Type} {f : α → Diff β} (key : α → Name) (wrap : Name → β)
    (step : ∀ a s b t, Gives (f a) s b t → ∃ c, Gives (companion (key a)) s c t ∧ wrap c = b)
    {xs : List α} {bs : List β} (ready : Ready All s scope) (plain : s.builder.Plain)
    (known : ∀ a ∈ xs, key a ∈ scope) (gives : Gives (xs.mapM f) s bs t) :
    (∃ later, Quiet w s scope t later) ∧
      (∀ x c, s.companions.find? x = some c → t.companions.find? x = some c) ∧
      List.Forall₂ (fun a b => ∃ c, t.companions.find? (key a) = some c ∧ wrap c = b) xs bs := by
  induction xs generalizing s scope bs with
  | nil =>
    obtain ⟨rfl, rfl⟩ := (gives_pure ..).mp gives
    exact ⟨⟨scope, .refl ready plain⟩, fun _ _ found => found, .nil⟩
  | cons a xs ih =>
    simp only [List.mapM_cons, gives_bind, gives_pure] at gives
    obtain ⟨b, u, first, bs, v, rest, rfl, rfl⟩ := gives
    obtain ⟨c, first, wrapped⟩ := step a s b u first
    obtain ⟨middle, quiet, -, found⟩ := companion_quiet (w := w) ready plain (known a (by simp)) first
    obtain ⟨⟨later, more⟩, keptRest, records⟩ := ih quiet.moves.extends_.ready
      quiet.moves.reaches.plain
      (fun b mem => quiet.moves.extends_.sub (known b (by simp [mem]))) rest
    have kept := (companion_recorded first).2
    exact ⟨⟨later, quiet.trans more⟩, fun x d here => keptRest x d (kept x d here),
      .cons ⟨c, keptRest _ c found, wrapped⟩ records⟩

theorem companions_quiet {ps : List Param} {cs : List Name} (ready : Ready All s scope)
    (plain : s.builder.Plain) (known : ∀ p ∈ ps, p.name ∈ scope)
    (gives : Gives (ps.mapM fun p => companion p.name) s cs t) :
    ∃ later, Quiet w s scope t later ∧
      List.Forall₂ (fun p c => t.companions.find? p.name = some c) ps cs := by
  obtain ⟨⟨later, quiet⟩, -, records⟩ := walk_quiet (w := w) (fun p : Param => p.name)
    (fun c => c) (fun p s c t found => ⟨c, found, rfl⟩) ready plain known gives
  exact ⟨later, quiet, records.imp fun p c ⟨d, found, same⟩ => same ▸ found⟩

theorem adjoints_quiet {xs : List Name} {cs : List Operand} (ready : Ready All s scope)
    (plain : s.builder.Plain) (known : ∀ x ∈ xs, x ∈ scope) (gives : Gives (adjoints xs) s cs t) :
    ∃ later, Quiet w s scope t later ∧
      List.Forall₂ (fun x y => ∃ c, t.companions.find? x = some c ∧ .var c = y) xs cs := by
  obtain ⟨⟨later, quiet⟩, -, records⟩ := walk_quiet (w := w) (fun x : Name => x)
    Operand.var (fun x s y t found => by simpa using found) ready plain known gives
  exact ⟨later, quiet, records⟩

/-! Statements. -/

/-- Going back over a statement passes the adjoints of what it binds on to what it reads. -/
def Transposes (w : IntWidth) (back : Stm → Diff Unit) (depth : Nat) : Prop :=
  ∀ (stm : Stm) (s t : DiffState) (scope inner : Scope) (δ ε : NameTable Dual), stm.ScalarCode →
    stm.branchDepth ≤ depth → Ready All s scope → s.builder.Plain → (∀ x ∈ inner, x ∈ scope) →
    Typed s inner → stm.outline.Closed inner → (∀ p ∈ stm.pat, p.name ∈ scope) →
    stm.Means w δ ε → Gives (back stm) s () t →
    ∃ later, Earns w δ inner s scope t later
      (fun σ => ∀ p ∈ stm.pat, ∀ d, ε.find? p.name = some d → Suited s σ p.name d.tangent.ty)
      fun σ => (stm.pat.map fun p => tally w s σ p.name * (Operand.var p.name).slope w ε).sum

/-- The sweep over statements takes the pairing after them to the pairing before them. -/
theorem stms_transpose {back : Stm → Diff Unit} {depth : Nat} (transposes : Transposes w back depth)
    (ss : List Stm) (code : ∀ stm ∈ ss, stm.ScalarCode) (nested : ∀ stm ∈ ss, stm.branchDepth ≤ depth)
    (closed : (stmOutline ss).Closed inner) (means : StmsMeans w δ ε ss) (ready : Ready All s scope)
    (plain : s.builder.Plain) (sub : ∀ x ∈ (stmOutline ss).after inner, x ∈ scope)
    (typed : Typed s ((stmOutline ss).after inner)) (gives : Gives (ss.reverse.forM back) s () t) :
    ∃ later, Moves s scope t later ∧ ∀ fuel σ τ, Traces fuel s t σ τ →
      Ledger w s σ ε ((stmOutline ss).after inner) →
      Ledger w t τ δ inner ∧
        pairing w t τ δ inner = pairing w s σ ε ((stmOutline ss).after inner) := by
  induction ss using List.reverseRecOn generalizing s scope ε with
  | nil =>
    obtain ⟨-, rfl⟩ := (gives_pure ..).mp gives
    obtain rfl := means
    refine ⟨scope, .refl ready plain, fun fuel σ τ traces ledger => ?_⟩
    obtain rfl := (traces_of_stms rfl).mp traces
    exact ⟨ledger, rfl⟩
  | append_singleton ss stm ih =>
    obtain ⟨mid, before, _, here, rfl⟩ := (stmsMeans_append ..).mp means
    rw [Builder.stmOutline_append, closed_append] at closed
    simp only [Builder.stmOutline_append, after_append, stmOutline, append_done, after_stm]
      at closed sub typed ⊢
    rw [List.reverse_append] at gives
    obtain ⟨_, u, first, rest⟩ := (gives_bind ..).mp gives
    have pattern : (paramOutline stm.pat).Accepted ((stmOutline ss).after inner) :=
      ((closed_stm _ _).mp closed.2).2.2.1
    have outer : ∀ x ∈ (stmOutline ss).after inner, x ∈ (paramOutline stm.pat).after
        ((stmOutline ss).after inner) := fun x known => mem_after _ known
    obtain ⟨middle, step⟩ := transposes stm s u scope ((stmOutline ss).after inner) mid _
      (code stm (by simp)) (nested stm (by simp)) ready plain (fun x known => sub x (outer x known))
      (fun x known => typed x (outer x known)) closed.2
      (fun p mem => sub _ ((mem_after_paramOutline ..).mpr (.inr ⟨p, mem, rfl⟩))) here first
    have reached := step.moves.reaches
    obtain ⟨later, moves, back⟩ := ih (fun s mem => code s (by simp [mem]))
      (fun s mem => nested s (by simp [mem])) closed.1 before step.moves.extends_.ready
      reached.plain (fun x known => step.moves.extends_.sub (sub x (outer x known)))
      (fun x known => reached.typed x (typed x (outer x known))) rest
    refine ⟨later, step.moves.trans moves, fun fuel σ υ traces ledger => ?_⟩
    obtain ⟨τ, there, onwards⟩ := step.moves.split moves traces
    have kept : ∀ x ∈ (stmOutline ss).after inner, ε.find? x = mid.find? x := fun x known =>
      here.kept fun p mem same => Builder.not_mem_of_params pattern mem (same ▸ known)
    have start : Ledger w s σ mid ((stmOutline ss).after inner) := by
      constructor
      · intro x known
        rw [← kept x known]
        exact ledger.tracks x (outer x known)
      · intro x known d stands
        exact ledger.suited x (outer x known) d ((kept x known).trans stands)
    obtain ⟨between, passed⟩ := step.earns fuel σ τ there start fun p mem =>
      ledger.suited p.name ((mem_after_paramOutline ..).mpr (.inr ⟨p, mem, rfl⟩))
    obtain ⟨after, same⟩ := back fuel τ υ onwards between
    exact ⟨after, by rw [same, passed, pairing_pattern pattern kept]⟩

/-! Bodies. -/

/-- The scalar is of the kind of the name. -/
def OfKind (δ : NameTable Dual) (x : Name) (g : Scalar) : Prop :=
  ∀ d, δ.find? x = some d → g.ty = d.tangent.ty

/-- The results of a sweep stand for the adjoints of the names that it goes back to. -/
theorem adjoints_read {xs : List Name} {cs : List Operand} {vs : List Value}
    (ledger : Ledger w s σ δ xs)
    (records : List.Forall₂ (fun x y => ∃ c, s.companions.find? x = some c ∧ .var c = y) xs cs)
    (read : List.Forall₂ (fun x v => σ.value x = some v) cs vs) :
    ∃ gs : List Scalar, vs = gs.map .scalar ∧ List.Forall₂ (OfKind δ) xs gs ∧
      List.Forall₂ (fun x g => tally w s σ x = g.number) xs gs := by
  induction records generalizing vs with
  | nil =>
    obtain rfl := List.forall₂_nil_left_iff.mp read
    exact ⟨[], rfl, .nil, .nil⟩
  | @cons x _ xs _ here rest ih =>
    obtain ⟨v, us, first, tail, rfl⟩ := List.forall₂_cons_left_iff.mp read
    obtain ⟨c, found, rfl⟩ := here
    obtain ⟨d, stands, -⟩ := ledger.tracks x List.mem_cons_self
    obtain ⟨g, isAdjoint, kind⟩ := (ledger.suited x List.mem_cons_self d stands).2 c found
    obtain rfl : Value.scalar g = v := Option.some.inj (isAdjoint.symm.trans first)
    obtain ⟨gs, rfl, kinds, amounts⟩ := ih (ledger.mono fun y mem => List.mem_cons_of_mem x mem) tail
    refine ⟨g :: gs, rfl, .cons (fun e here => ?_) kinds, .cons ?_ amounts⟩
    · rw [kind, Option.some.inj (stands.symm.trans here)]
    · rw [tally_of_companion found, Store.amount_of_find isAdjoint]

/-- Where there are no adjoints yet, all of them suit. -/
theorem ledger_of_empty (tracks : Tracks w s.builder.types σ δ inner)
    (empty : s.companions = .empty) : Ledger w s σ δ inner where
  tracks := tracks
  suited x known d stands := by
    obtain ⟨e, stands', -, t, declared, fits⟩ := tracks x known
    obtain rfl := Option.some.inj (stands.symm.trans stands')
    exact ⟨fits.tangent ▸ declared, fun c found => by simp [empty, NameTable.find_empty] at found⟩

/-- Adjoints, paired with the slopes of the names that they belong to. -/
def credits (w : IntWidth) (δ : NameTable Dual) (xs : List Name) (gs : List Scalar) :
    ZMod w.modulus :=
  ((xs.zip gs).map fun r => r.2.number * (Operand.var r.1).slope w δ).sum

/-- Seeds, paired with the slopes of the results that they belong to. -/
def debits (w : IntWidth) (σ : Store Scalar) (seeds : List Name) (ds : List Dual) : ZMod w.modulus :=
  ((seeds.zip ds).map fun r => σ.amount w r.1 * r.2.slope w).sum

theorem pairing_eq_credits {xs : List Name} {gs : List Scalar} (distinct : xs.Nodup)
    (amounts : List.Forall₂ (fun x g => tally w s σ x = g.number) xs gs) :
    pairing w s σ δ xs = credits w δ xs gs := by
  rw [pairing, List.sum_toFinset _ distinct, credits]
  clear distinct
  induction amounts with
  | nil => rfl
  | cons here rest ih => rw [List.map_cons, List.sum_cons, List.zip_cons_cons, List.map_cons,
      List.sum_cons, here, ih]

theorem seeds_eq_debits {result : List Operand} {seeds : List Name} {ds : List Dual}
    (results : List.Forall₂ (fun x d => x.dual? ε = some d) result ds) :
    ((result.zip seeds).map fun r => σ.amount w r.2 * r.1.slope w ε).sum = debits w σ seeds ds := by
  rw [debits]
  induction results generalizing seeds with
  | nil => simp
  | cons here rest ih =>
    cases seeds with
    | nil => rfl
    | cons x seeds => simp [ih, Operand.slope_of_dual here]

/-- Seeds of the kinds of the results suit them. -/
theorem seeds_of_kinds {result : List Operand} {seeds : List Name} {ds : List Dual}
    (results : List.Forall₂ (fun x d => x.dual? ε = some d) result ds)
    (kinds : ∀ r ∈ seeds.zip ds, σ.HasKind r.1 r.2.tangent.ty) :
    ∀ r ∈ result.zip seeds, ∀ d, r.1.dual? ε = some d → σ.HasKind r.2 d.tangent.ty := by
  induction results generalizing seeds with
  | nil => simp
  | cons here rest ih =>
    cases seeds with
    | nil => simp
    | cons c seeds =>
      rw [List.zip_cons_cons, List.forall_mem_cons] at kinds ⊢
      refine ⟨fun d stands => ?_, ih kinds.2⟩
      exact Option.some.inj (here.symm.trans stands) ▸ kinds.1

/-- A body that is emitted as it is, followed by the sweep over it. -/
theorem sweepBody_transposes {back : Stm → Diff Unit} {depth : Nat}
    (transposes : Transposes w back depth) {ss : List Stm} {result : List Operand}
    {seeds xs : List Name} {b : Body} {ds : List Dual} {vs : List Value}
    (code : ∀ stm ∈ ss, stm.ScalarCode) (nested : stmsBranchDepth ss ≤ depth)
    (distinct : xs.Nodup) (sub : ∀ x ∈ xs, x ∈ scope)
    (closed : (stmOutline ss).Closed scope) (narrow : (stmOutline ss).Closed xs)
    (below : Scope.Below ((stmOutline ss).after scope) s.builder.supply.next)
    (reads : ∀ y ∈ operandNames result, y ∈ (stmOutline ss).after xs)
    (seeded : ∀ x ∈ seeds, x ∈ scope) (ready : s.builder.Ready scope) (plain : s.builder.Plain)
    (empty : s.companions = .empty) (typed : Typed s xs) (means : StmsMeans w δ ε ss)
    (results : List.Forall₂ (fun x d => x.dual? ε = some d) result ds)
    (gives : Gives (bodyOf (sweep back ss (seed result seeds)) (adjoints xs)) s b t)
    (tracks : Tracks w s.builder.types σ δ xs)
    (kinds : ∀ r ∈ seeds.zip ds, σ.HasKind r.1 r.2.tangent.ty) (ends : Ends (runBody fuel b) σ vs τ) :
    ∃ gs : List Scalar, vs = gs.map .scalar ∧ List.Forall₂ (OfKind δ) xs gs ∧
      credits w δ xs gs = debits w σ seeds ds := by
  obtain ⟨u, v, swept, recorded, emitted, rfl⟩ := (gives_bodyOf ..).mp gives
  simp only [sweep, gives_bind, gives_emit] at swept
  obtain ⟨_, _, rfl, _, t, seeding, back⟩ := swept
  have stms := (stmsScalarCode_iff ss).mpr code
  let opened : DiffState := { s with builder := { s.builder with stms := [] }.emit ss }
  have reached : s.builder.Reaches opened.builder := by
    have fresh : s.builder.Reaches { s.builder with stms := [] } :=
      ⟨⟨plain.types, by simp⟩, fun _ known => known, Nat.le_refl _⟩
    exact fresh.trans (Builder.emit_reaches fresh.plain code)
  have start : Ready All opened ((stmOutline ss).after scope) := {
    builder := Builder.ready_emit ready.below
      (fun x here ty found y inType => mem_after _ (ready.typesIn x here ty found y inType)) closed
      fun p mem => below _ ((mem_after_stmOutline _ _ _).mpr (.inr ⟨p, mem, rfl⟩))
    companion_mem := fun x _ c found => by simp [opened, empty, NameTable.find_empty] at found }
  have inner : ∀ x ∈ (stmOutline ss).after xs, x ∈ (stmOutline ss).after scope := by
    intro x known
    rcases (mem_after_stmOutline ..).mp known with outer | bound
    · exact mem_after _ (sub x outer)
    · exact (mem_after_stmOutline ..).mpr (.inr bound)
  have typedInside : Typed opened ((stmOutline ss).after xs) := by
    intro x known
    refine Builder.typed_of_declared ?_
    exact ((mem_after_stmOutline ..).mp known).elim (fun outer => .inr (typed x outer)) .inl
  obtain ⟨first, earns⟩ := seed_earns (w := w) (δ := ε) start reached.plain inner reads
    (fun x mem => mem_after _ (seeded x mem)) seeding
  obtain ⟨second, moves, passes⟩ := stms_transpose transposes ss code
    (fun stm mem => Nat.le_trans (branchDepth_le mem) nested) narrow means
    earns.moves.extends_.ready earns.moves.reaches.plain
    (fun x known => earns.moves.extends_.sub (inner x known))
    (typedInside.reaches earns.moves.reaches) back
  obtain ⟨third, quiet, records⟩ := adjoints_quiet (w := w) moves.extends_.ready moves.reaches.plain
    (fun x mem => moves.extends_.sub (earns.moves.extends_.sub (mem_after _ (sub x mem)))) recorded
  -- the run of the emitted body, one part after the other
  obtain ⟨new, stmsAfter, -⟩ :=
    ((earns.moves.trans moves).trans quiet.moves).extends_.grows.emitted
  have bodyStms : b.stms = ss ++ new := by
    rw [← emitted, stmsAfter]
    simp [opened, Builder.emit]
  obtain ⟨fuel, τ', rfl, ran, read⟩ := (ends_runBody ..).mp ends
  rw [bodyStms] at ran
  obtain ⟨ρ, primal, rest⟩ := (ends_stms_append ..).mp ran
  have traces := (traces_of_emitted stmsAfter).mpr rest
  obtain ⟨υ, onwards, last⟩ := (earns.moves.trans moves).split quiet.moves traces
  obtain ⟨ρ', here, there⟩ := earns.moves.split moves onwards
  have ledger : Ledger w opened ρ ε ((stmOutline ss).after xs) :=
    ledger_of_empty (tracks.stms ss stms narrow.1 means primal) empty
  have agree := agree_of_closed stms closed primal
  obtain ⟨ledger, seeds_in⟩ := earns.earns fuel ρ ρ' here ledger <| seeds_of_kinds results fun r mem =>
    agree.hasKind (seeded _ (List.of_mem_zip mem).1) (kinds r mem)
  obtain ⟨ledger, same⟩ := passes fuel ρ' υ there ledger
  obtain ⟨ledger, still⟩ := quiet.ledger ledger
    (fun x mem => moves.extends_.sub (earns.moves.extends_.sub (mem_after _ (sub x mem)))) last
  obtain ⟨found, -⟩ := ends_operands.mp read
  obtain ⟨gs, rfl, ofKinds, amounts⟩ := adjoints_read ledger records found
  refine ⟨gs, rfl, ofKinds, ?_⟩
  have amount : ∀ x ∈ seeds, ρ.amount w x = σ.amount w x := fun x mem => agree.amount (seeded x mem)
  calc credits w δ xs gs
      = pairing w v τ' δ xs := (pairing_eq_credits distinct amounts).symm
    _ = pairing w opened ρ ε ((stmOutline ss).after xs) +
          ((result.zip seeds).map fun r => ρ.amount w r.2 * r.1.slope w ε).sum := by
        rw [still, same, seeds_in]
    _ = debits w ρ seeds ds := by
        rw [pairing_of_empty (s := opened) empty, zero_add, seeds_eq_debits results]
    _ = debits w σ seeds ds := by
        rw [debits, debits]
        congr 1
        exact List.map_congr_left fun r mem => by rw [amount _ (List.of_mem_zip mem).1]

theorem body_means {ds : List Dual} (b : Body) : b.Means w δ ds ↔ ∃ ε, StmsMeans w δ ε b.stms ∧
    List.Forall₂ (fun x d => x.dual? ε = some d) b.result ds := by
  cases b
  exact Iff.rfl

/-- A branch that is computed again under fresh names, from an empty table of adjoints. -/
theorem branchBody_transposes {back : Stm → Diff Unit} {depth : Nat}
    (transposes : Transposes w back depth) {seeds free : List Name} {body b : Body} {ds : List Dual}
    {vs : List Value} (code : body.ScalarCode) (nested : body.branchDepth ≤ depth)
    (distinct : free.Nodup) (sub : ∀ x ∈ free, x ∈ scope) (closed : body.outline.Closed free)
    (seeded : ∀ x ∈ seeds, x ∈ scope) (ready : Ready All s scope) (plain : s.builder.Plain)
    (typed : Typed s free) (means : body.Means w δ ds)
    (gives : Gives (branchBody back seeds free body) s b t)
    (tracks : Tracks w s.builder.types σ δ free)
    (kinds : ∀ r ∈ seeds.zip ds, σ.HasKind r.1 r.2.tangent.ty) (ends : Ends (runBody fuel b) σ vs τ) :
    ∃ gs : List Scalar, vs = gs.map .scalar ∧ List.Forall₂ (OfKind δ) free gs ∧
      credits w δ free gs = debits w σ seeds ds := by
  simp only [branchBody, gives_bind, gives_build, gives_isolated] at gives
  obtain ⟨_, _, ⟨rfl, rfl⟩, u, inside, rfl⟩ := gives
  have drawn : Scope.Below free s.builder.supply.next := fun x mem =>
    ready.builder.below x (sub x mem)
  obtain ⟨wide, bound, -, next_le⟩ := Body.closed_rename (s := s.builder.supply) closed sub
    ready.builder.below
  have narrow := (Body.closed_rename (s := s.builder.supply) closed (fun _ known => known) drawn).1
  obtain ⟨renamed, sameDepth⟩ := code.rename s.builder.supply
  obtain ⟨ε, inBody, results⟩ := (body_means _).mp (means.rename closed drawn)
  rw [body_outline] at wide narrow bound
  simp only [closed_append, closed_readsAll, after_append, after_readsAll] at wide narrow bound
  have grown : s.builder.Grows scope (Build.renamed body s.builder).2 scope :=
    .aside ready.builder rfl next_le fun _ _ => rfl
  exact sweepBody_transposes transposes (s := ⟨(Build.renamed body s.builder).2, .empty⟩)
    ((body_scalarCode _).mp renamed) (by rw [← branchDepth_body]; omega) distinct sub wide.1 narrow.1
    bound narrow.2 seeded grown.ready (plain.draw next_le).plain rfl typed inBody results inside tracks
    kinds ends

/-! Branches. -/

/-- What the adjoints of a pattern amount to is what they are as seeds. -/
theorem pattern_eq_debits {ps : List Param} {cs : List Name} {ds : List Dual}
    (records : List.Forall₂ (fun p c => s.companions.find? p.name = some c) ps cs)
    (duals : List.Forall₂ (fun p d => ε.find? p.name = some d) ps ds) :
    (ps.map fun p => tally w s σ p.name * (Operand.var p.name).slope w ε).sum =
      debits w σ cs ds := by
  rw [debits]
  induction records generalizing ds with
  | nil => simp
  | cons here rest ih =>
    obtain ⟨d, ds, stands, tail, rfl⟩ := List.forall₂_cons_left_iff.mp duals
    have isDual : (Operand.var _).dual? ε = some d := stands
    rw [List.map_cons, List.sum_cons, ih tail, tally_of_companion here,
      Operand.slope_of_dual isDual, List.zip_cons_cons, List.map_cons, List.sum_cons]

theorem kinds_of_pattern {ps : List Param} {cs : List Name} {ds : List Dual}
    (records : List.Forall₂ (fun p c => s.companions.find? p.name = some c) ps cs)
    (duals : List.Forall₂ (fun p d => ε.find? p.name = some d) ps ds)
    (suited : ∀ p ∈ ps, ∀ d, ε.find? p.name = some d → Suited s σ p.name d.tangent.ty) :
    ∀ r ∈ cs.zip ds, σ.HasKind r.1 r.2.tangent.ty := by
  induction records generalizing ds with
  | nil => simp
  | cons here rest ih =>
    obtain ⟨d, ds, stands, tail, rfl⟩ := List.forall₂_cons_left_iff.mp duals
    rw [List.forall_mem_cons] at suited
    rw [List.zip_cons_cons, List.forall_mem_cons]
    exact ⟨(suited.1 d stands).2 _ here, ih tail suited.2⟩

/-- Results that were bound are contributed to the names that they are adjoints of. -/
theorem contributions_eq_credits {xs : List Param} {pat : List Param} {gs : List Scalar}
    (stands : List.Forall₂ (fun p g => σ.vars.find? p.name = some (.scalar g)) pat gs) :
    ((xs.zip pat).map fun r => σ.amount w r.2.name * (Operand.var r.1.name).slope w δ).sum =
      credits w δ (xs.map (·.name)) gs := by
  rw [credits]
  induction stands generalizing xs with
  | nil => simp
  | cons here rest ih =>
    cases xs with
    | nil => rfl
    | cons x xs => simp [ih, Store.amount_of_find here]

theorem kinds_of_contributions {xs pat : List Param} {gs : List Scalar}
    (stands : List.Forall₂ (fun p g => σ.vars.find? p.name = some (.scalar g)) pat gs)
    (kinds : List.Forall₂ (OfKind δ) (xs.map (·.name)) gs) :
    ∀ r ∈ xs.zip pat, ∀ e, δ.find? r.1.name = some e → σ.HasKind r.2.name e.tangent.ty := by
  induction stands generalizing xs with
  | nil => simp
  | cons here rest ih =>
    cases xs with
    | nil => simp
    | cons x xs =>
      obtain ⟨first, tail⟩ := List.forall₂_cons.mp kinds
      rw [List.zip_cons_cons, List.forall_mem_cons]
      exact ⟨fun e stands => ⟨_, here, first e stands⟩, ih tail⟩

theorem nodup_freeNames (yes no : Body) : (freeNames yes no).Nodup := by
  refine List.nodup_append.mpr ⟨yes.nodup_freeNames, no.nodup_freeNames.filter _, ?_⟩
  rintro x inYes _ inNo rfl
  simpa [inYes] using (List.mem_filter.mp inNo).2

theorem mem_freeNames_right {yes no : Body} : ∀ x ∈ no.freeNames, x ∈ freeNames yes no := by
  intro x mem
  rw [freeNames, List.mem_append, List.mem_filter]
  by_cases inYes : x ∈ yes.freeNames
  · exact .inl inYes
  · exact .inr ⟨mem, by simpa using inYes⟩

/-- What the copy of a branch does to the state. -/
theorem branchBody_moves {back : Stm → Diff Unit} {depth : Nat} (accounts : Accounts back)
    (distributes : Distributes back depth) {seeds free : List Name} {body b : Body}
    (code : body.ScalarCode) (nested : body.branchDepth ≤ depth) (ready : Ready All s scope)
    (plain : s.builder.Plain) (sub : ∀ x ∈ inner, x ∈ scope) (typed : Typed s inner)
    (closed : body.outline.Closed inner) (seeded : ∀ x ∈ seeds, x ∈ scope)
    (known : ∀ x ∈ free, x ∈ inner) (gives : Gives (branchBody back seeds free body) s b t) :
    Moves s scope t scope ∧ b.ScalarCode ∧ b.outline.Closed scope ∧
      b.result.length = free.length ∧ Scope.Below b.outline.binders t.builder.supply.next := by
  obtain ⟨extends_, closedCopy, length, bounded⟩ := branchBody_extends accounts ready sub closed
    seeded (fun x mem => sub x (known x mem)) gives
  obtain ⟨b', t', gives', reaches, codeCopy⟩ := works_branchBody distributes code nested closed
    (fun _ inside => inside) (fun x mem => ready.builder.below x (sub x mem)) plain typed seeds known
  obtain ⟨rfl, rfl⟩ := gives.unique gives'
  exact ⟨⟨extends_, reaches⟩, codeCopy, closedCopy, length, bounded⟩

theorem debits_of_flat {cs : List Name} {ds : List Dual} (flat : ∀ d ∈ ds, d.slope w = 0) :
    debits w σ cs ds = 0 :=
  List.sum_eq_zero fun g mem => by
    obtain ⟨r, inList, rfl⟩ := List.mem_map.mp mem
    rw [flat r.2 (List.of_mem_zip inList).2, mul_zero]

/-- Branches that read nothing from outside come to values without slopes. -/
theorem slope_of_unfree {yes no : Body} {ds : List Dual} (closedYes : yes.outline.Closed inner)
    (closedNo : no.outline.Closed inner) (unfree : freeNames yes no = [])
    (means : yes.Means w δ ds ∨ no.Means w δ ds) : ∀ d ∈ ds, d.slope w = 0 := by
  obtain ⟨inYes, inNo⟩ := List.append_eq_nil_iff.mp unfree
  have still : Still w δ [] := by simp [Still]
  rcases means with means | means
  · exact Still.body yes still (Body.closed_freeNames closedYes (by simp) (by simp [inYes])).1 means
  · have none : ∀ x ∈ no.freeNames, x ∈ ([] : Scope) := by
      simpa [inYes, List.eq_nil_iff_forall_not_mem] using inNo
    exact Still.body no still (Body.closed_freeNames closedNo (by simp) none).1 means

theorem branchBody_kept {back : Stm → Diff Unit} {seeds free : List Name} {body b : Body}
    (gives : Gives (branchBody back seeds free body) s b t) :
    t.builder.stms = s.builder.stms ∧ t.companions = s.companions := by
  simp only [branchBody, gives_bind, gives_build, gives_isolated, gives_bodyOf] at gives
  obtain ⟨_, _, ⟨rfl, rfl⟩, u, ⟨v, x, -, -, -, rfl⟩, rfl⟩ := gives
  exact ⟨rfl, rfl⟩

/-- A run of the conditional that the sweep emits. -/
theorem branchStm_transposes {pat : List Param} {aux : Annotations} {cond : Operand}
    {yes no : Body} {tys : List Ty} {sort : BranchSort} (free : List Name) {c : Dual} {holds : Bool}
    {g : ZMod w.modulus} {types : NameTable Ty} (tracks : Tracks w types σ δ inner)
    (knownCond : ∀ y ∈ cond.names, y ∈ inner) (isCond : cond.dual? δ = some c)
    (isBool : c.primal = .bool holds) (distinct : (pat.map (·.name)).Nodup)
    (taken : ∀ fuel τ vs, Ends (runBody fuel (if holds then yes else no)) σ vs τ →
      ∃ gs : List Scalar, vs = gs.map .scalar ∧ List.Forall₂ (OfKind δ) free gs ∧
        credits w δ free gs = g)
    (ends : Ends (stms fuel [⟨pat, aux, .branch cond yes no tys sort⟩]) σ () υ) :
    ∃ gs : List Scalar, List.Forall₂ (fun p v => υ.vars.find? p.name = some (.scalar v)) pat gs ∧
      List.Forall₂ (OfKind δ) free gs ∧ credits w δ free gs = g := by
  simp only [ends_stms_cons, ends_stms_nil, exists_eq_right, ends_stm] at ends
  obtain ⟨vs, τ, ran, length, rfl⟩ := ends
  obtain ⟨gs, rfl, balance⟩ := taken fuel τ vs (tracks.condition knownCond isCond isBool ran)
  refine ⟨gs, ?_, balance⟩
  have bound := NameTable.find_insertAll_zip τ.vars (gs.map Value.scalar) distinct
    (by simpa using length)
  rw [List.forall₂_map_left_iff, List.forall₂_map_right_iff] at bound
  exact bound

/-- The adjoints of what a conditional binds go through its branches to what they read. -/
theorem branch_transposes {back : Stm → Diff Unit} {depth : Nat} (accounts : Accounts back)
    (distributes : Distributes back depth) (transposes : Transposes w back depth) {pat : List Param}
    {aux : Annotations} {cond : Operand} {yes no : Body} {ret : List Ty} {sort sort' : BranchSort}
    (codeYes : yes.ScalarCode) (codeNo : no.ScalarCode) (nestedYes : yes.branchDepth ≤ depth)
    (nestedNo : no.branchDepth ≤ depth) (ready : Ready All s scope) (plain : s.builder.Plain)
    (sub : ∀ x ∈ inner, x ∈ scope) (typed : Typed s inner)
    (closed : (Stm.mk pat aux (.branch cond yes no ret sort)).outline.Closed inner)
    (pattern : ∀ p ∈ pat, p.name ∈ scope)
    (means : (Stm.mk pat aux (.branch cond yes no ret sort)).Means w δ ε)
    (gives : Gives (branch back ⟨pat, aux, .branch cond yes no ret sort⟩ cond yes no sort') s () t) :
    ∃ later, Earns w δ inner s scope t later
      (fun σ => ∀ p ∈ pat, ∀ d, ε.find? p.name = some d → Suited s σ p.name d.tangent.ty)
      fun σ => (pat.map fun p => tally w s σ p.name * (Operand.var p.name).slope w ε).sum := by
  obtain ⟨ds, ⟨c, holds, isCond, isBool, inYes, inNo⟩, fits, rfl⟩ := means
  obtain ⟨certs, closedExp, closedPat⟩ := (closed_stm _ _).mp closed
  simp only [Exp.outline, closed_append, after_append, closed_readsAll, after_readsAll,
    closed_block, closed_mentionsAll, after_mentionsAll, closed_count, closed_done, after]
    at closedExp
  obtain ⟨⟨⟨⟨knownCond, closedYes, -⟩, closedNo, -⟩, -⟩, -⟩ := closedExp
  have duals : List.Forall₂ (fun p d => (δ.assign pat ds).find? p.name = some d) pat ds :=
    List.forall₂_map_left_iff.mp <| NameTable.find_insertAll_zip δ ds (nodup_of_accepted closedPat.1)
      (by simpa using fits.length_eq.symm)
  simp only [branch, gives_bind] at gives
  obtain ⟨seeds, u, seeded, free, _, collected, rest⟩ := gives
  obtain ⟨middle, quiet, records⟩ := companions_quiet (w := w) ready plain pattern seeded
  obtain ⟨rfl, names, found⟩ := gives_typed _ _ _ _ collected
  have scalar : ∀ p ∈ free, p.ty.IsScalar := fun p mem =>
    quiet.moves.reaches.plain.types p.name p.ty (found p mem)
  have allScalar : (free.filter fun p => !p.ty.isAcc) = free :=
    List.filter_eq_self.mpr fun p mem => by simp [(scalar p mem).isAcc]
  have start : ∀ fuel σ τ, Traces fuel s u σ τ →
      (pat.map fun p => tally w s σ p.name * (Operand.var p.name).slope w (δ.assign pat ds)).sum =
        debits w τ seeds ds := by
    intro fuel σ τ traces
    rw [← pattern_eq_debits records duals]
    simp only [(quiet.run fuel σ τ traces).2]
  rw [allScalar] at rest
  have knownFree : ∀ x ∈ freeNames yes no, x ∈ inner := mem_freeNames closedYes closedNo
  cases isEmpty : free.isEmpty with
  | true =>
    simp only [isEmpty, Bool.not_true, Bool.false_eq_true, if_false, gives_pure] at rest
    obtain ⟨-, rfl⟩ := rest
    have none : freeNames yes no = [] := by rw [← names, List.isEmpty_iff.mp isEmpty, List.map_nil]
    have flat : ∀ d ∈ ds, d.slope w = 0 := slope_of_unfree closedYes closedNo none
      (by cases holds; exact .inr (inNo rfl); exact .inl (inYes rfl))
    refine ⟨middle, quiet.moves, fun fuel σ τ traces ledger _ => ?_⟩
    obtain ⟨after, same⟩ := quiet.ledger ledger sub traces
    refine ⟨after, ?_⟩
    rw [same, start fuel σ τ traces, debits_of_flat flat, add_zero]
  | false =>
    simp only [isEmpty, Bool.not_false, if_true, gives_bind, gives_build] at rest
    obtain ⟨yes', v, yesGives, no', x, noGives, pat', y, drawn, _, _, ⟨-, rfl⟩, rest⟩ := rest
    have opened := quiet.moves.extends_.ready
    have reached := quiet.moves.reaches
    have outer : ∀ x ∈ inner, x ∈ middle := fun x known => quiet.moves.extends_.sub (sub x known)
    have typedHere := typed.reaches reached
    have inFree : ∀ x ∈ free.map (·.name), x ∈ inner := names ▸ knownFree
    have freeYes : ∀ z ∈ yes.freeNames, z ∈ free.map (·.name) := fun z mem =>
      names ▸ List.mem_append_left _ mem
    have freeNo : ∀ z ∈ no.freeNames, z ∈ free.map (·.name) := names ▸ mem_freeNames_right
    have distinct : (free.map (·.name)).Nodup := names ▸ nodup_freeNames yes no
    have knownSeeds : ∀ c ∈ seeds, c ∈ middle := by
      intro c mem
      obtain ⟨p, -, here⟩ := exists_of_forall₂ records mem
      exact quiet.moves.extends_.companion_mem p.name trivial c here
    obtain ⟨movesYes, codeYes', closedYes', lengthYes, belowYes⟩ := branchBody_moves accounts
      distributes codeYes nestedYes opened reached.plain outer typedHere closedYes knownSeeds inFree
      yesGives
    obtain ⟨movesNo, codeNo', closedNo', lengthNo, belowNo⟩ := branchBody_moves accounts distributes
      codeNo nestedNo movesYes.extends_.ready movesYes.reaches.plain outer
      (typedHere.reaches movesYes.reaches) closedNo knownSeeds inFree noGives
    have typeNames : ∀ p ∈ free, ∀ y ∈ p.ty.names, y ∈ middle := fun p mem => by
      simp [(scalar p mem).names]
    have last := movesNo.extends_.ready
    obtain ⟨rfl, types, closedPat', fresh⟩ :=
      gives_drawn free pat' x y middle last.builder.below typeNames drawn
    have length : pat'.length = free.length := by simpa using congrArg List.length types
    have grows := branchStm_grows aux sort' last.builder
      (fun z mem => outer z (certs z mem)) (fun z mem => outer z (knownCond z mem)) closedYes'
      closedNo' (by simp [lengthYes]) (by simp [lengthNo]) typeNames length closedPat' fresh
      ((belowYes.mono movesNo.extends_.grows.next_le).append belowNo)
    let emitted : Stm := ⟨pat', aux, .branch cond yes' no' (free.map (·.ty)) sort'⟩
    have code : emitted.ScalarCode := ⟨fun p mem => by
      have inTypes := List.mem_map_of_mem (f := (·.ty)) mem
      rw [types] at inTypes
      obtain ⟨q, inFree, same⟩ := List.mem_map.mp inTypes
      exact same ▸ scalar q inFree, codeYes', codeNo', by simpa using scalar⟩
    have movesStm : Moves x middle { x with builder := (Build.add emitted
        { x.builder with supply := ⟨x.builder.supply.next + free.length⟩ }).2 }
        ((paramOutline pat').after middle) := {
      extends_ := last.build grows
      reaches := (movesNo.reaches.plain.draw (Nat.le_add_right _ _)).trans
        ((movesNo.reaches.plain.draw (Nat.le_add_right _ _)).plain.add code) }
    have moves := (movesYes.trans movesNo).trans movesStm
    obtain ⟨keptYes, companionsYes⟩ := branchBody_kept yesGives
    obtain ⟨keptNo, companionsNo⟩ := branchBody_kept noGives
    obtain ⟨later, contributed⟩ := forM_earns (w := w) (δ := δ) inner
      (fun r σ => ∀ e, δ.find? r.1.name = some e → σ.HasKind r.2.name e.tangent.ty)
      (fun r σ => σ.amount w r.2.name * (Operand.var r.1.name).slope w δ)
      movesStm.extends_.ready movesStm.reaches.plain (fun r mem s u wider more opened plain step => by
        obtain ⟨inFree', inPat⟩ := List.of_mem_zip mem
        exact contribute_earns opened plain
          (fun z known => more z (moves.extends_.sub (outer z known)))
          (inFree _ (List.mem_map_of_mem inFree'))
          (more _ ((mem_after_paramOutline ..).mpr (.inr ⟨r.2, inPat, rfl⟩))) step)
      (fun r mem σ τ agree => by
        have inScope : r.2.name ∈ (paramOutline pat').after middle :=
          (mem_after_paramOutline ..).mpr (.inr ⟨r.2, (List.of_mem_zip mem).2, rfl⟩)
        exact ⟨fun kinds e stands => agree.hasKind inScope (kinds e stands),
          by rw [agree.amount inScope]⟩) rest
    refine ⟨later, (quiet.moves.trans moves).trans contributed.moves,
      fun fuel σ υ traces ledger suited => ?_⟩
    obtain ⟨ρ, front, back⟩ := (quiet.moves.trans moves).split contributed.moves traces
    obtain ⟨τ, here, there⟩ := quiet.moves.split moves front
    obtain ⟨ledgerHere, same⟩ := quiet.ledger ledger sub here
    have kinds : ∀ r ∈ seeds.zip ds, τ.HasKind r.1 r.2.tangent.ty :=
      kinds_of_pattern records duals fun p mem d stands =>
        (quiet.run fuel σ τ here).1 p.name (pattern p mem) _ (suited p mem d stands)
    have ran : Ends (stms fuel [emitted]) τ () ρ := (traces_of_emitted (by
      simp [Build.add_apply, keptYes, keptNo, emitted])).mp there
    obtain ⟨gs, stands, ofKinds, balance⟩ := branchStm_transposes (free.map (·.name))
      (g := debits w τ seeds ds) ledgerHere.tracks knownCond isCond isBool
      (nodup_of_accepted closedPat'.1) (fun fuel υ vs taken => by
        have tracks := ledgerHere.tracks
        cases holds with
        | true =>
          exact branchBody_transposes transposes codeYes nestedYes
            distinct (fun z mem => outer z (inFree z mem))
            (Body.closed_freeNames closedYes inFree freeYes) knownSeeds opened reached.plain
            (fun z mem => typedHere z (inFree z mem)) (inYes rfl) yesGives (tracks.mono inFree) kinds
            taken
        | false =>
          have still : Traces fuel u v τ τ := (traces_of_stms keptYes).mpr rfl
          have tracks := movesYes.tracks outer still tracks
          exact branchBody_transposes transposes codeNo nestedNo
            distinct (fun z mem => outer z (inFree z mem))
            (Body.closed_freeNames closedNo inFree freeNo) knownSeeds movesYes.extends_.ready
            movesYes.reaches.plain
            (fun z mem => typedHere.reaches movesYes.reaches z (inFree z mem)) (inNo rfl) noGives
            (tracks.mono inFree) kinds taken) ran
    have companions : x.companions = u.companions := companionsNo.trans companionsYes
    have between := ledgerHere.moves moves outer there fun z known _ _ suits =>
      moves.suited opened there (outer z known) (congrArg (·.find? z) companions) suits
    obtain ⟨after, added⟩ :=
      contributed.earns fuel ρ υ back between (kinds_of_contributions stands ofKinds)
    refine ⟨after, ?_⟩
    rw [added, contributions_eq_credits stands, balance, start fuel σ τ here, ← same]
    congr 1
    exact pairing_congr fun z _ => moves.tally opened there (congrArg (·.find? z) companions)

/-- Every statement of integer code is transposed, with branches nested as deeply as the number says. -/
theorem transposes_stm (depth : Nat) : Transposes w (stm .standard depth) depth := by
  -- basic operations need no depth
  have basic (depth : Nat) {pat : List Param} {aux : Annotations} {op : BasicOp} {s t : DiffState}
      {scope inner : Scope} {δ ε : NameTable Dual} (ready : Ready All s scope)
      (plain : s.builder.Plain) (sub : ∀ x ∈ inner, x ∈ scope)
      (closed : (Stm.mk pat aux (.basic op)).outline.Closed inner)
      (pattern : ∀ p ∈ pat, p.name ∈ scope) (means : (Stm.mk pat aux (.basic op)).Means w δ ε)
      (gives : Gives (basicOp .standard ⟨pat, aux, .basic op⟩ op) s () t) :
      ∃ later, Earns w δ inner s scope t later
        (fun σ => ∀ p ∈ pat, ∀ d, ε.find? p.name = some d → Suited s σ p.name d.tangent.ty)
        fun σ => (pat.map fun p => tally w s σ p.name * (Operand.var p.name).slope w ε).sum := by
    obtain ⟨ds, ⟨d, rfl, means⟩, fits, rfl⟩ := means
    obtain ⟨p, rfl⟩ : ∃ p, pat = [p] := List.length_eq_one_iff.mp (by simpa using fits.length_eq)
    have reads := ((closed_stm _ _).mp closed).2.1
    simp only [Exp.outline, BasicOp.outline, closed_append, closed_readsAll] at reads
    obtain ⟨later, earns⟩ := basicOp_earns ready plain sub rfl (pattern p (by simp)) reads.1.1 means
      gives
    have reads : (Operand.var p.name).dual? (δ.assign [p] [d]) = some d := by
      simp [Operand.dual?, NameTable.assign, NameTable.insertAll, NameTable.find_insert]
    refine ⟨later, earns.congr fun σ _ suited => ⟨suited p (by simp) d reads, ?_⟩⟩
    simp [Operand.slope_of_dual reads]
  induction depth with
  | zero =>
    rintro ⟨pat, aux, e⟩ s t scope inner δ ε code nested ready plain sub typed closed pattern means gives
    cases e with
    | basic op => exact basic 0 ready plain sub closed pattern means gives
    | apply func args ret =>
      obtain ⟨ds, means, -⟩ := means
      exact absurd means (by simp [Exp.Means])
    | _ => exact absurd gives (gives_throw _ _ _ _)
  | succ depth ih =>
    rintro ⟨pat, aux, e⟩ s t scope inner δ ε code nested ready plain sub typed closed pattern means gives
    cases e with
    | basic op => exact basic (depth + 1) ready plain sub closed pattern means gives
    | branch cond yes no ret sort =>
      obtain ⟨-, inYes, inNo, -⟩ := code
      simp only [Stm.branchDepth, Exp.branchDepth] at nested
      exact branch_transposes (accounts_stm local_standard depth) (distributes_stm depth) ih inYes inNo
        (by omega) (by omega) ready plain sub typed closed pattern means gives
    | apply func args ret =>
      obtain ⟨ds, means, -⟩ := means
      exact absurd means (by simp [Exp.Means])
    | _ => exact absurd gives (gives_throw _ _ _ _)

end Reverse

end Cotangent
