import Mathlib.Algebra.BigOperators.Group.Finset.Basic
import Cotangent.Proofs.Derivative.DualRuns
import Cotangent.Proofs.Derivative.ScalarPasses
/-!
What the adjoints of the backward sweep add up to. At every point of a run, the adjoints of the names in
scope are paired with the slopes of those names; the steps of the sweep move amounts from the names that
a statement binds to the names that it reads, and the sum of all pairs stays the same.
-/
namespace Cotangent

open Outline Run

variable {w : IntWidth} {σ τ υ : Store Scalar} {δ : NameTable Dual}

/-! Amounts. -/

/-- The number that a name stands for, modulo the width. -/
def Store.amount (w : IntWidth) (σ : Store Scalar) (x : Name) : ZMod w.modulus :=
  ((σ.reading x).map fun v => (v.number : ZMod w.modulus)).getD 0

/-- The number that a formula comes to, modulo the width. -/
def Formula.amount (w : IntWidth) (σ : Store Scalar) (f : Formula) : ZMod w.modulus :=
  ((f.eval σ.reading).map fun v => (v.number : ZMod w.modulus)).getD 0

/-- The name stands for a scalar. -/
def Store.HasScalar (σ : Store Scalar) (x : Name) : Prop := ∃ v, σ.vars.find? x = some (.scalar v)

/-- The name stands for a scalar of the kind. -/
def Store.HasKind (σ : Store Scalar) (x : Name) (k : ScalarType) : Prop :=
  ∃ v, σ.vars.find? x = some (.scalar v) ∧ v.ty = k

theorem Store.HasKind.hasScalar {x : Name} {k : ScalarType} (kind : σ.HasKind x k) : σ.HasScalar x :=
  have ⟨v, found, _⟩ := kind
  ⟨v, found⟩

theorem Store.amount_of_find {x : Name} {v : Scalar} (found : σ.vars.find? x = some (.scalar v)) :
    σ.amount w x = v.number := by
  simp [Store.amount, Store.reading_of_find found]

theorem Formula.amount_of_eval {f : Formula} {v : Scalar} (known : f.eval σ.reading = some v) :
    f.amount w σ = v.number := by
  simp [Formula.amount, known]

section

variable {on : Name → Prop}

theorem Store.Agree.amount (agree : σ.Agree on τ) {x : Name} (known : on x) :
    τ.amount w x = σ.amount w x := by
  rw [Store.amount, agree.reading known, Store.amount]

theorem Store.Agree.hasKind (agree : σ.Agree on τ) {x : Name} {k : ScalarType} (known : on x)
    (kind : σ.HasKind x k) : τ.HasKind x k := by
  obtain ⟨v, found, same⟩ := kind
  exact ⟨v, (agree x known).trans found, same⟩

theorem Store.Agree.formula (agree : σ.Agree on τ) {f : Formula} (known : ∀ x ∈ f.names, on x) :
    f.amount w τ = f.amount w σ := by
  rw [Formula.amount, Formula.eval_congr f fun x mem => agree.reading (known x mem), Formula.amount]

end

namespace Reverse

open Diff

variable {s t u : DiffState} {scope middle later inner : Scope} {fuel : Nat}

/-- Statements of scalar code were emitted that are closed in the scope. -/
structure Moves (s : DiffState) (scope : Scope) (t : DiffState) (later : Scope) : Prop where
  extends_ : Extends All s scope t later
  reaches : s.builder.Reaches t.builder

theorem Moves.refl (ready : Ready All s scope) (plain : s.builder.Plain) : Moves s scope s scope :=
  ⟨.refl ready, plain.refl⟩

theorem Moves.trans (first : Moves s scope t middle) (second : Moves t middle u later) :
    Moves s scope u later :=
  ⟨first.extends_.trans second.extends_, first.reaches.trans second.reaches⟩

theorem Moves.split (first : Moves s scope t middle) (second : Moves t middle u later)
    (traces : Traces fuel s u σ υ) : ∃ τ, Traces fuel s t σ τ ∧ Traces fuel t u τ υ := by
  obtain ⟨new, emitted, -⟩ := first.extends_.grows.emitted
  obtain ⟨more, emitted', -⟩ := second.extends_.grows.emitted
  exact traces.split emitted emitted'

/-- What was in scope is left alone. -/
theorem Moves.agree (moves : Moves s scope t later) (traces : Traces fuel s t σ τ) :
    σ.Agree (· ∈ scope) τ := by
  obtain ⟨new, emitted, closed, -⟩ := moves.extends_.grows.emitted
  rw [traces_of_emitted emitted] at traces
  refine agree_of_closed ((stmsScalarCode_iff _).mpr fun stm mem => ?_) closed traces
  exact moves.reaches.plain.stms stm (emitted ▸ List.mem_append_right _ mem)

theorem Moves.tracks (moves : Moves s scope t later) (sub : ∀ x ∈ inner, x ∈ scope)
    (traces : Traces fuel s t σ τ) (tracks : Tracks w s.builder.types σ δ inner) :
    Tracks w t.builder.types τ δ inner := by
  intro x known
  obtain ⟨d, stands, primal, ty, typed, fits⟩ := tracks x known
  refine ⟨d, stands, (moves.agree traces x (sub x known)).trans primal, ty, ?_, fits⟩
  exact (moves.extends_.grows.kept x (sub x known)).trans typed

/-- The adjoint of a name so far. -/
def tally (w : IntWidth) (s : DiffState) (σ : Store Scalar) (x : Name) : ZMod w.modulus :=
  ((s.companions.find? x).map (σ.amount w)).getD 0

theorem tally_of_companion {x c : Name} (found : s.companions.find? x = some c) :
    tally w s σ x = σ.amount w c := by
  simp [tally, found]

theorem tally_of_none {x : Name} (found : s.companions.find? x = none) : tally w s σ x = 0 := by
  simp [tally, found]

theorem Moves.tally (moves : Moves s scope t later) (ready : Ready All s scope)
    (traces : Traces fuel s t σ τ) {x : Name}
    (same : t.companions.find? x = s.companions.find? x) : tally w t τ x = tally w s σ x := by
  cases found : s.companions.find? x with
  | none => rw [tally_of_none (same.trans found), tally_of_none found]
  | some c =>
    rw [tally_of_companion (same.trans found), tally_of_companion found]
    exact (moves.agree traces).amount (ready.companion_mem x trivial c found)

/-- The adjoints of the names in scope times their slopes. -/
def pairing (w : IntWidth) (s : DiffState) (σ : Store Scalar) (δ : NameTable Dual) (scope : Scope) :
    ZMod w.modulus :=
  ∑ x ∈ scope.toFinset, tally w s σ x * (Operand.var x).slope w δ

theorem pairing_congr (same : ∀ x ∈ inner, tally w t τ x = tally w s σ x) :
    pairing w t τ δ inner = pairing w s σ δ inner :=
  Finset.sum_congr rfl fun x mem => by rw [same x (List.mem_toFinset.mp mem)]

theorem pairing_credit {x : Name} {g : ZMod w.modulus} (known : x ∈ inner)
    (others : ∀ y, y ≠ x → tally w t τ y = tally w s σ y)
    (here : tally w t τ x * (Operand.var x).slope w δ =
      tally w s σ x * (Operand.var x).slope w δ + g) :
    pairing w t τ δ inner = pairing w s σ δ inner + g := by
  have mem : x ∈ inner.toFinset := List.mem_toFinset.mpr known
  rw [pairing, pairing, ← Finset.add_sum_erase _ _ mem, here, ← Finset.add_sum_erase _ _ mem]
  have rest : ∀ y ∈ inner.toFinset.erase x, tally w t τ y * (Operand.var y).slope w δ =
      tally w s σ y * (Operand.var y).slope w δ := fun y inErase => by
    rw [others y (Finset.ne_of_mem_erase inErase)]
  rw [Finset.sum_congr rfl rest]
  ring

/-- The name is of the kind, and so is its adjoint if it has one. -/
def Suited (s : DiffState) (σ : Store Scalar) (x : Name) (k : ScalarType) : Prop :=
  s.builder.types.find? x = some (.scalar k) ∧ ∀ c, s.companions.find? x = some c → σ.HasKind c k

/-- The names of the scope stand for the primal parts of their dual numbers, and their adjoints for
    scalars of the same kinds. -/
structure Ledger (w : IntWidth) (s : DiffState) (σ : Store Scalar) (δ : NameTable Dual)
    (inner : Scope) : Prop where
  tracks : Tracks w s.builder.types σ δ inner
  suited : ∀ x ∈ inner, ∀ d, δ.find? x = some d → Suited s σ x d.tangent.ty

theorem Ledger.mono (ledger : Ledger w s σ δ scope) (sub : ∀ x ∈ inner, x ∈ scope) :
    Ledger w s σ δ inner :=
  ⟨ledger.tracks.mono sub, fun x known => ledger.suited x (sub x known)⟩

theorem Moves.suited (moves : Moves s scope t later) (ready : Ready All s scope)
    (traces : Traces fuel s t σ τ) {x : Name} {k : ScalarType} (known : x ∈ scope)
    (same : t.companions.find? x = s.companions.find? x) (suited : Suited s σ x k) :
    Suited t τ x k := by
  refine ⟨(moves.extends_.grows.kept x known).trans suited.1, fun c found => ?_⟩
  rw [same] at found
  exact (moves.agree traces).hasKind (ready.companion_mem x trivial c found) (suited.2 c found)

/-- A name keeps suiting its kind when an adjoint is set. -/
theorem Moves.suited_insert (moves : Moves s scope t later) (ready : Ready All s scope)
    (traces : Traces fuel s t σ τ) {x y c : Name} {k : ScalarType}
    (companions : t.companions = s.companions.insert x c) (known : y ∈ scope)
    (kind : y = x → τ.HasKind c k) (suited : Suited s σ y k) : Suited t τ y k := by
  by_cases same : y = x
  · refine ⟨(moves.extends_.grows.kept y known).trans suited.1, fun d found => ?_⟩
    obtain rfl : c = d := by simpa [companions, NameTable.find_insert, same] using found
    exact kind same
  · exact moves.suited ready traces known (by simp [companions, NameTable.find_insert, same]) suited

theorem Ledger.moves (ledger : Ledger w s σ δ inner) (moves : Moves s scope t later)
    (sub : ∀ x ∈ inner, x ∈ scope) (traces : Traces fuel s t σ τ)
    (suited : ∀ x ∈ inner, ∀ d, δ.find? x = some d → Suited s σ x d.tangent.ty →
      Suited t τ x d.tangent.ty) : Ledger w t τ δ inner where
  tracks := moves.tracks sub traces ledger.tracks
  suited x known d stands := suited x known d stands (ledger.suited x known d stands)

/-- What was emitted leaves the adjoints as they were, up to zeros that were missing. -/
structure Quiet (w : IntWidth) (s : DiffState) (scope : Scope) (t : DiffState) (later : Scope) :
    Prop where
  moves : Moves s scope t later
  run : ∀ fuel σ τ, Traces fuel s t σ τ →
    (∀ x ∈ scope, ∀ k, Suited s σ x k → Suited t τ x k) ∧ ∀ x, tally w t τ x = tally w s σ x

theorem Quiet.refl (ready : Ready All s scope) (plain : s.builder.Plain) : Quiet w s scope s scope where
  moves := .refl ready plain
  run fuel σ τ traces := by
    obtain rfl := (traces_of_stms rfl).mp traces
    exact ⟨fun _ _ _ suited => suited, fun _ => rfl⟩

theorem Quiet.trans (first : Quiet w s scope t middle) (second : Quiet w t middle u later) :
    Quiet w s scope u later where
  moves := first.moves.trans second.moves
  run fuel σ υ traces := by
    obtain ⟨τ, here, there⟩ := first.moves.split second.moves traces
    obtain ⟨suited, same⟩ := first.run fuel σ τ here
    obtain ⟨suited', same'⟩ := second.run fuel τ υ there
    exact ⟨fun x known k suits => suited' x (first.moves.extends_.sub known) k (suited x known k suits),
      fun x => (same' x).trans (same x)⟩

theorem Quiet.ledger (quiet : Quiet w s scope t later) (ledger : Ledger w s σ δ inner)
    (sub : ∀ x ∈ inner, x ∈ scope) (traces : Traces fuel s t σ τ) :
    Ledger w t τ δ inner ∧ pairing w t τ δ inner = pairing w s σ δ inner := by
  obtain ⟨suited, same⟩ := quiet.run fuel σ τ traces
  exact ⟨ledger.moves quiet.moves sub traces fun x known d _ => suited x (sub x known) _,
    pairing_congr fun x _ => same x⟩

/-- Running what was emitted adds to the pairing, as long as `pre` holds where the run starts. -/
structure Earns (w : IntWidth) (δ : NameTable Dual) (inner : Scope) (s : DiffState) (scope : Scope)
    (t : DiffState) (later : Scope) (pre : Store Scalar → Prop)
    (gain : Store Scalar → ZMod w.modulus) : Prop where
  moves : Moves s scope t later
  earns : ∀ fuel σ τ, Traces fuel s t σ τ → Ledger w s σ δ inner → pre σ →
    Ledger w t τ δ inner ∧ pairing w t τ δ inner = pairing w s σ δ inner + gain σ

section

variable {pre pre' pre'' : Store Scalar → Prop} {gain gain' gain'' : Store Scalar → ZMod w.modulus}

theorem Earns.trans (first : Earns w δ inner s scope t middle pre gain)
    (second : Earns w δ inner t middle u later pre' gain')
    (step : ∀ fuel σ τ, Traces fuel s t σ τ → Ledger w s σ δ inner → pre'' σ →
      pre σ ∧ pre' τ ∧ gain σ + gain' τ = gain'' σ) :
    Earns w δ inner s scope u later pre'' gain'' where
  moves := first.moves.trans second.moves
  earns fuel σ υ traces ledger holds := by
    obtain ⟨τ, here, there⟩ := first.moves.split second.moves traces
    obtain ⟨holdsFirst, holdsSecond, sum⟩ := step fuel σ τ here ledger holds
    obtain ⟨between, added⟩ := first.earns fuel σ τ here ledger holdsFirst
    obtain ⟨after, added'⟩ := second.earns fuel τ υ there between holdsSecond
    exact ⟨after, by rw [added', added, add_assoc, sum]⟩

theorem Earns.refl (ready : Ready All s scope) (plain : s.builder.Plain)
    (none : ∀ σ, pre σ → gain σ = 0) : Earns w δ inner s scope s scope pre gain where
  moves := .refl ready plain
  earns fuel σ τ traces ledger holds := by
    obtain rfl := (traces_of_stms rfl).mp traces
    exact ⟨ledger, by rw [none σ holds, add_zero]⟩

theorem Earns.congr (earns : Earns w δ inner s scope t later pre gain)
    (same : ∀ σ, Ledger w s σ δ inner → pre' σ → pre σ ∧ gain σ = gain' σ) :
    Earns w δ inner s scope t later pre' gain' where
  moves := earns.moves
  earns fuel σ τ traces ledger holds := by
    obtain ⟨holds, equal⟩ := same σ ledger holds
    exact equal ▸ earns.earns fuel σ τ traces ledger holds

/-- A walk adds what its steps add. -/
theorem forM_earns (inner : Scope) {α : Type} {f : α → Diff Unit} {xs : List α} (pre : α → Store Scalar → Prop)
    (gain : α → Store Scalar → ZMod w.modulus) (ready : Ready All s scope) (plain : s.builder.Plain)
    (step : ∀ a ∈ xs, ∀ s u middle, (∀ x ∈ scope, x ∈ middle) → Ready All s middle →
      s.builder.Plain → Gives (f a) s () u →
      ∃ later, Earns w δ inner s middle u later (pre a) (gain a))
    (stable : ∀ a ∈ xs, ∀ σ τ : Store Scalar, σ.Agree (· ∈ scope) τ →
      (pre a σ → pre a τ) ∧ gain a τ = gain a σ)
    (gives : Gives (xs.forM f) s () t) :
    ∃ later, Earns w δ inner s scope t later (fun σ => ∀ a ∈ xs, pre a σ)
      fun σ => (xs.map fun a => gain a σ).sum := by
  induction xs generalizing s scope with
  | nil =>
    obtain ⟨-, rfl⟩ := (gives_pure ..).mp gives
    exact ⟨scope, .refl ready plain (by simp)⟩
  | cons a xs ih =>
    obtain ⟨_, u, first, rest⟩ := (gives_bind ..).mp gives
    obtain ⟨middle, here⟩ := step a (by simp) s u scope (fun _ known => known) ready plain first
    obtain ⟨later, more⟩ := ih here.moves.extends_.ready here.moves.reaches.plain
      (fun b mem s u wider sub =>
        step b (by simp [mem]) s u wider fun x known => sub x (here.moves.extends_.sub known))
      (fun b mem σ τ agree => stable b (by simp [mem]) σ τ
        (agree.mono fun x known => here.moves.extends_.sub known)) rest
    refine ⟨later, here.trans more fun fuel σ τ traces _ holds => ?_⟩
    have agree := here.moves.agree traces
    refine ⟨holds a (by simp), fun b mem => ?_, ?_⟩
    · exact (stable b (by simp [mem]) σ τ agree).1 (holds b (by simp [mem]))
    · have same : (xs.map fun b => gain b τ) = xs.map fun b => gain b σ :=
        List.map_congr_left fun b mem => (stable b (by simp [mem]) σ τ agree).2
      rw [List.map_cons, List.sum_cons, same]

end

/-! The steps of the sweep. -/

theorem letFormula_moves (ready : Ready All s scope) (plain : s.builder.Plain) {f : Formula}
    (known : f.Known) (inScope : ∀ x ∈ f.names, x ∈ scope) :
    ∃ later, Moves s scope { s with builder := (Build.letFormula f s.builder).2 } later ∧
      (Build.letFormula f s.builder).1 ∈ later := by
  obtain ⟨later, grows, mem⟩ := Builder.letFormula_grows ready.builder inScope
  exact ⟨later, ⟨ready.build grows, plain.letFormula known⟩, mem⟩

/-- A formula is bound to what it comes to where its statements start. -/
theorem letFormula_stands (ready : Ready All s scope) {f : Formula}
    (inScope : ∀ x ∈ f.names, x ∈ scope) (scalars : ∀ x ∈ f.names, σ.HasScalar x)
    (traces : Traces fuel s { s with builder := (Build.letFormula f s.builder).2 } σ τ) :
    ∃ v, f.eval σ.reading = some v ∧
      τ.vars.find? (Build.letFormula f s.builder).1 = some (.scalar v) := by
  have readable : Readable σ.reading s.builder.supply.next f.names := by
    intro x mem
    obtain ⟨v, found⟩ := scalars x mem
    exact ⟨ready.builder.below x (inScope x mem), v, Store.reading_of_find found⟩
  have supplies : σ.Supplies σ.reading s.builder.supply.next f.names := by
    intro x mem
    obtain ⟨v, found⟩ := scalars x mem
    exact ⟨ready.builder.below x (inScope x mem), v, Store.reading_of_find found, found⟩
  obtain ⟨new, leads⟩ := letFormula_leads f readable fun x mem => mem
  obtain ⟨-, v, known, found⟩ :=
    leads.holds fuel σ τ supplies ((traces_of_emitted leads.emitted).mp traces)
  exact ⟨v, known, found⟩

/-- The zero of a scalar kind is a formula. -/
theorem letExp_zero (k : ScalarType) :
    Build.letExp (.scalar k) (.basic (.operand (.const (Scalar.zero k)))) =
      Build.letFormula (.zero k) := by
  cases k <;> rfl

/-- A companion that is missing is made as a zero, which does not count. -/
theorem companion_quiet (ready : Ready All s scope) (plain : s.builder.Plain) {x c : Name}
    (known : x ∈ scope) (gives : Gives (companion x) s c t) :
    ∃ later, Quiet w s scope t later ∧ c ∈ later ∧ t.companions.find? x = some c := by
  simp only [companion, gives_bind, gives_companion?] at gives
  obtain ⟨found, _, ⟨isFound, rfl⟩, gives⟩ := gives
  cases found with
  | some d =>
    obtain ⟨rfl, rfl⟩ := (gives_pure ..).mp gives
    exact ⟨scope, .refl ready plain, ready.companion_mem x trivial d isFound, isFound⟩
  | none =>
    simp only [gives_bind, gives_setCompanion, gives_pure, zeroOf, gives_typeOf] at gives
    obtain ⟨c, u, ⟨ty, _, ⟨typed, rfl⟩, zero⟩, _, _, rfl, rfl, rfl⟩ := gives
    obtain ⟨k, rfl⟩ := plain.types x ty typed
    simp only [zeroExp, letExp_zero, gives_build] at zero
    obtain ⟨rfl, rfl⟩ := zero
    obtain ⟨later, first, mem⟩ := letFormula_moves ready plain (f := .zero k) (Formula.known_zero k)
      (by simp [Formula.zero, Formula.names])
    have moves : Moves s scope
        ⟨(Build.letFormula (.zero k) s.builder).2,
          s.companions.insert x (Build.letFormula (.zero k) s.builder).1⟩ later :=
      ⟨first.extends_.trans (first.extends_.ready.setCompanion mem), first.reaches⟩
    refine ⟨later, ⟨moves, fun fuel σ τ traces => ?_⟩, mem, by simp [NameTable.find_insert]⟩
    obtain ⟨v, isZero, found⟩ := letFormula_stands (f := .zero k) ready
      (by simp [Formula.zero, Formula.names]) (by simp [Formula.zero, Formula.names]) traces
    obtain rfl := Option.some.inj isZero
    refine ⟨fun y inScope j suits => ?_, fun y => ?_⟩
    · refine moves.suited_insert ready traces rfl inScope (fun same => ?_) suits
      have sameKind := typed.symm.trans (same ▸ suits.1)
      obtain rfl : k = j := by simpa only [Option.some.injEq, Ty.scalar.injEq] using sameKind
      exact ⟨_, found, Scalar.ty_zero k⟩
    · by_cases same : y = x
      · subst same
        rw [tally_of_none isFound, tally_of_companion (by simp [NameTable.find_insert]; rfl),
          Store.amount_of_find found]
        cases k <;> simp [Scalar.zero, Scalar.number]
      · rw [← first.tally ready traces (t := { s with builder := _ }) rfl]
        simp [tally, NameTable.find_insert, same]

/-- The ledger stays one when the adjoint of a name is set. -/
theorem Ledger.insert (ledger : Ledger w s σ δ inner) (moves : Moves s scope t later)
    (ready : Ready All s scope) (sub : ∀ x ∈ inner, x ∈ scope) (traces : Traces fuel s t σ τ)
    {x c : Name} (companions : t.companions = s.companions.insert x c) {e : Dual}
    (stands : δ.find? x = some e) (kind : τ.HasKind c e.tangent.ty) : Ledger w t τ δ inner :=
  ledger.moves moves sub traces fun y known d here suits =>
    moves.suited_insert ready traces companions (sub y known) (fun same => by
      subst same
      exact Option.some.inj (stands.symm.trans here) ▸ kind) suits

/-- The contribution is added to the adjoint, which counts for what has a slope. -/
theorem contribute_earns (ready : Ready All s scope) (plain : s.builder.Plain)
    (sub : ∀ x ∈ inner, x ∈ scope) {x d : Name} (known : x ∈ inner) (fresh : d ∈ scope)
    (gives : Gives (contribute x d) s () t) :
    ∃ later, Earns w δ inner s scope t later
      (fun σ => ∀ e, δ.find? x = some e → σ.HasKind d e.tangent.ty)
      fun σ => σ.amount w d * (Operand.var x).slope w δ := by
  simp only [contribute, gives_bind, gives_companion?] at gives
  obtain ⟨found, _, ⟨isFound, rfl⟩, gives⟩ := gives
  cases found with
  | none =>
    simp only [gives_bind, gives_pure, gives_setCompanion] at gives
    obtain ⟨_, _, ⟨rfl, rfl⟩, rfl⟩ := gives
    have moves : Moves s scope { s with companions := s.companions.insert x d } scope :=
      ⟨ready.setCompanion fresh, plain.refl⟩
    refine ⟨scope, moves, fun fuel σ τ traces ledger kind => ?_⟩
    obtain rfl := (traces_of_stms rfl).mp traces
    obtain ⟨e, stands, -⟩ := ledger.tracks x known
    refine ⟨ledger.insert moves ready sub traces rfl stands (kind e stands),
      pairing_credit known ?_ ?_⟩
    · intro y other
      simp [tally, NameTable.find_insert, other]
    · rw [tally_of_none isFound, tally_of_companion (by simp [NameTable.find_insert]; rfl)]
      ring
  | some old =>
    simp only [gives_bind, gives_typeOf, gives_setCompanion] at gives
    obtain ⟨ty, _, ⟨typed, rfl⟩, adjoint, u, summed, rfl⟩ := gives
    obtain ⟨k, rfl⟩ := plain.types x ty typed
    simp only [addValues, Build.sum, gives_build] at summed
    obtain ⟨rfl, rfl⟩ := summed
    let f : Formula := (Formula.leaf old k).add (.leaf d k)
    have inScope : ∀ y ∈ f.names, y ∈ scope := by
      simp [f, Formula.add, Formula.names, fresh, ready.companion_mem x trivial old isFound]
    obtain ⟨later, first, mem⟩ := letFormula_moves ready plain (f := f)
      (Formula.Known.add trivial trivial) inScope
    have moves : Moves s scope
        ⟨(Build.letFormula f s.builder).2, s.companions.insert x (Build.letFormula f s.builder).1⟩
        later :=
      ⟨first.extends_.trans (first.extends_.ready.setCompanion mem), first.reaches⟩
    refine ⟨later, moves, fun fuel σ τ traces ledger kind => ?_⟩
    obtain ⟨e, stands, -, ty, declared', fits⟩ := ledger.tracks x known
    have slope : (Operand.var x).slope w δ = e.slope w := Operand.slope_of_dual stands
    obtain ⟨declared, adjoint⟩ := ledger.suited x known e stands
    have sameKind : k = e.tangent.ty := by
      simpa only [Option.some.injEq, Ty.scalar.injEq] using typed.symm.trans declared
    obtain ⟨a, isOld, kindOld⟩ := adjoint old isFound
    obtain ⟨b, isNew, -⟩ := kind e stands
    obtain rfl : Ty.scalar k = ty := Option.some.inj (typed.symm.trans declared')
    have op : (BinaryOp.add k).ty = k := BinaryOp.ty_ofFamily _ _ _ fits.within.not_cert
    have scalars : ∀ y ∈ f.names, σ.HasScalar y := by
      simp [f, Formula.add, Formula.names, Store.HasScalar, isOld, isNew]
    obtain ⟨v, result, bound⟩ := letFormula_stands ready inScope scalars traces
    have left : (Formula.leaf old k).eval σ.reading = some a := Store.reading_of_find isOld
    have right : (Formula.leaf d k).eval σ.reading = some b := Store.reading_of_find isNew
    have kindSum : v.ty = e.tangent.ty := by
      rw [← sameKind, ← op]
      exact Formula.ty_eval_binary left (by rw [op, sameKind, kindOld]) result
    refine ⟨ledger.insert moves ready sub traces rfl stands ⟨v, bound, kindSum⟩,
      pairing_credit known ?_ ?_⟩
    · intro y other
      exact moves.tally ready traces (by simp [NameTable.find_insert, other])
    · rw [slope, tally_of_companion isFound, tally_of_companion (by simp [NameTable.find_insert]; rfl),
        Store.amount_of_find bound, Store.amount_of_find isOld, Store.amount_of_find isNew]
      rcases fits.slope with isInt | flat
      · obtain rfl : k = .int w := by simpa using isInt
        obtain ⟨a', b', isLeft, isRight, rfl⟩ := Dual.eval_add rfl result
        obtain rfl := Option.some.inj (left.symm.trans isLeft)
        obtain rfl := Option.some.inj (right.symm.trans isRight)
        simp only [Scalar.number, IntWidth.cast_wrap]
        push_cast
        ring
      · rw [flat]
        ring

theorem contributeTo_earns (ready : Ready All s scope) (plain : s.builder.Plain)
    (sub : ∀ x ∈ inner, x ∈ scope) {x : Operand} {d : Name} (known : ∀ y ∈ x.names, y ∈ inner)
    (fresh : d ∈ scope) (gives : Gives (contributeTo x d) s () t) :
    ∃ later, Earns w δ inner s scope t later
      (fun σ => ∀ e, x.dual? δ = some e → σ.HasKind d e.tangent.ty)
      fun σ => σ.amount w d * x.slope w δ := by
  cases x with
  | const v =>
    obtain ⟨-, rfl⟩ := (gives_pure ..).mp gives
    exact ⟨scope, .refl ready plain fun σ _ => by rw [Operand.slope_const, mul_zero]⟩
  | var x => exact contribute_earns ready plain sub (known x (by simp [Operand.names])) fresh gives

/-- An adjoint times a partial is contributed. -/
theorem product_earns (ready : Ready All s scope) (plain : s.builder.Plain)
    (sub : ∀ x ∈ inner, x ∈ scope) {x : Operand} {adjoint : Name} {k : ScalarType} {f : Formula}
    (known : ∀ y ∈ x.names, y ∈ inner) (mem : adjoint ∈ scope) (inFormula : ∀ y ∈ f.names, y ∈ inner)
    (knownCalls : f.Known) {a : Dual} (reads : x.dual? δ = some a) (fits : a.Fits w (.scalar k))
    (gives : Gives (contributeFormula x ((Formula.leaf adjoint k).mul f)) s () t) :
    ∃ later, Earns w δ inner s scope t later (fun σ => σ.HasKind adjoint k)
      fun σ => σ.amount w adjoint * (f.amount w σ * a.slope w) := by
  rw [← Operand.slope_of_dual reads]
  cases x with
  | const v =>
    obtain ⟨-, rfl⟩ := (gives_pure ..).mp gives
    exact ⟨scope, .refl ready plain fun σ _ => by rw [Operand.slope_const, mul_zero, mul_zero]⟩
  | var x =>
    simp only [contributeFormula, gives_bind, gives_build] at gives
    obtain ⟨d, u, ⟨rfl, rfl⟩, gives⟩ := gives
    have inScope : ∀ y ∈ ((Formula.leaf adjoint k).mul f).names, y ∈ scope := by
      rw [names_mul, List.forall_mem_append]
      exact ⟨by simpa [Formula.names] using mem, fun y inF => sub y (inFormula y inF)⟩
    have leaf : (Formula.leaf adjoint k).Known := trivial
    obtain ⟨middle, first, drawn⟩ := letFormula_moves ready plain (leaf.mul knownCalls) inScope
    obtain ⟨later, second⟩ := contribute_earns (w := w) (δ := δ) first.extends_.ready
      first.reaches.plain (fun y mem => first.extends_.sub (sub y mem))
      (known x (by simp [Operand.names])) drawn gives
    refine ⟨later, first.trans second.moves, fun fuel σ υ traces ledger kind => ?_⟩
    obtain ⟨τ, here, there⟩ := first.split second.moves traces
    have scalars : ∀ y ∈ ((Formula.leaf adjoint k).mul f).names, σ.HasScalar y := by
      rw [names_mul, List.forall_mem_append]
      refine ⟨by simpa [Formula.names] using kind.hasScalar, fun y inF => ?_⟩
      obtain ⟨d, -, primal, -⟩ := ledger.tracks y (inFormula y inF)
      exact ⟨_, primal⟩
    obtain ⟨v, result, bound⟩ := letFormula_stands ready inScope scalars here
    have between := ledger.moves first sub here fun y inside d _ suits =>
      first.suited ready here (sub y inside) rfl suits
    obtain ⟨m, isAdjoint, kindAdjoint⟩ := kind
    have left : (Formula.leaf adjoint k).eval σ.reading = some m := Store.reading_of_find isAdjoint
    have op : (BinaryOp.mul k).ty = k := BinaryOp.ty_ofFamily _ _ _ fits.within.not_cert
    have kindProduct : v.ty = a.tangent.ty := by
      have same : v.ty = (BinaryOp.mul k).ty := Formula.ty_eval_binary left (kindAdjoint.trans op.symm) result
      have same' : k = a.tangent.ty := by simpa using fits.tangent
      rw [same, op, same']
    obtain ⟨after, added⟩ := second.earns fuel τ υ there between fun e stands => by
      obtain rfl : a = e := Option.some.inj (reads.symm.trans stands)
      exact ⟨v, bound, kindProduct⟩
    refine ⟨after, added.trans ?_⟩
    rw [pairing_congr fun y _ => first.tally ready here rfl, Store.amount_of_find bound,
      Store.amount_of_find isAdjoint]
    congr 1
    rcases fits.slope with isInt | flat
    · obtain rfl : k = .int w := by simpa using isInt
      obtain ⟨m', n, isLeft, isRight, rfl⟩ := Dual.eval_mul rfl result
      obtain rfl := Option.some.inj (left.symm.trans isLeft)
      rw [Formula.amount_of_eval isRight]
      simp only [Scalar.number, IntWidth.cast_wrap]
      push_cast
      ring
    · rw [Operand.slope_of_dual reads, flat]
      ring

/-- The results pass their seeds on to what they stand for. -/
theorem seed_earns (ready : Ready All s scope) (plain : s.builder.Plain)
    (sub : ∀ x ∈ inner, x ∈ scope) {results : List Operand} {seeds : List Name}
    (known : ∀ y ∈ operandNames results, y ∈ inner) (seeded : ∀ x ∈ seeds, x ∈ scope)
    (gives : Gives (seed results seeds) s () t) :
    ∃ later, Earns w δ inner s scope t later
      (fun σ => ∀ r ∈ results.zip seeds, ∀ d, r.1.dual? δ = some d → σ.HasKind r.2 d.tangent.ty)
      fun σ => ((results.zip seeds).map fun r => σ.amount w r.2 * r.1.slope w δ).sum := by
  refine forM_earns inner (fun r σ => ∀ d, r.1.dual? δ = some d → σ.HasKind r.2 d.tangent.ty)
    (fun r σ => σ.amount w r.2 * r.1.slope w δ) ready plain
    (fun r mem s u middle wider opened plain step => ?_) (fun r mem σ τ agree => ?_) gives
  · obtain ⟨inResults, inSeeds⟩ := List.of_mem_zip mem
    exact contributeTo_earns opened plain (fun y inside => wider y (sub y inside))
      (fun y inX => known y (List.mem_flatMap.mpr ⟨r.1, inResults, inX⟩))
      (wider _ (seeded r.2 inSeeds)) step
  · have inScope := seeded r.2 (List.of_mem_zip mem).2
    exact ⟨fun kinds d stands => agree.hasKind inScope (kinds d stands), by rw [agree.amount inScope]⟩

/-- A step that starts from the adjoint of a name that is not in the inner scope. -/
theorem adjoint_earns (ready : Ready All s scope) (plain : s.builder.Plain)
    (sub : ∀ x ∈ inner, x ∈ scope) {x c : Name} {k : ScalarType} (known : x ∈ scope)
    (gives : Gives (companion x) s c t) {factor : Store Scalar → ZMod w.modulus}
    (rest : ∀ middle, Moves s scope t middle → c ∈ middle → ∃ later,
      Earns w δ inner t middle u later (fun σ => σ.HasKind c k) fun σ => σ.amount w c * factor σ)
    (same : ∀ σ τ : Store Scalar, σ.Agree (· ∈ scope) τ → factor τ = factor σ) :
    ∃ later, Earns w δ inner s scope u later (fun σ => Suited s σ x k)
      fun σ => tally w s σ x * factor σ := by
  obtain ⟨middle, first, mem, found⟩ := companion_quiet (w := w) ready plain known gives
  obtain ⟨later, second⟩ := rest middle first.moves mem
  refine ⟨later, first.moves.trans second.moves, fun fuel σ υ traces ledger suits => ?_⟩
  obtain ⟨τ, here, there⟩ := first.moves.split second.moves traces
  obtain ⟨between, kept⟩ := first.ledger ledger sub here
  obtain ⟨suited, tallies⟩ := first.run fuel σ τ here
  obtain ⟨after, added⟩ := second.earns fuel τ υ there between ((suited x known k suits).2 c found)
  refine ⟨after, added.trans ?_⟩
  rw [kept, ← tallies x, tally_of_companion found, same σ τ (first.moves.agree here)]

/-- The adjoint of what an operation binds goes on to what it reads, in proportion to its partials. -/
theorem basicOp_earns (ready : Ready All s scope) (plain : s.builder.Plain)
    (sub : ∀ x ∈ inner, x ∈ scope) {stm : Stm} {op : BasicOp} {p : Param} (alone : stm.pat = [p])
    (pattern : p.name ∈ scope) (reads : ∀ y ∈ op.names, y ∈ inner) {d : Dual}
    (means : op.Means w δ d) (gives : Gives (basicOp .standard stm op) s () t) :
    ∃ later, Earns w δ inner s scope t later (fun σ => Suited s σ p.name d.tangent.ty)
      fun σ => tally w s σ p.name * d.slope w := by
  -- all operations but the copy of a constant start from the adjoint
  have started {next : Name → Diff Unit} (factor : Store Scalar → ZMod w.modulus)
      (gives : Gives (do next (← companion (← single .reverse stm).name)) s () t)
      (rest : ∀ adjoint u middle, Moves s scope u middle → adjoint ∈ middle →
        Gives (next adjoint) u () t → ∃ later, Earns w δ inner u middle t later
          (fun σ => σ.HasKind adjoint d.tangent.ty) fun σ => σ.amount w adjoint * factor σ)
      (same : ∀ σ τ : Store Scalar, σ.Agree (· ∈ scope) τ → factor τ = factor σ)
      (slope : ∀ σ, Ledger w s σ δ inner → factor σ = d.slope w) :
      ∃ later, Earns w δ inner s scope t later (fun σ => Suited s σ p.name d.tangent.ty)
        fun σ => tally w s σ p.name * d.slope w := by
    simp only [gives_bind, gives_single] at gives
    obtain ⟨q, _, ⟨isPattern, rfl⟩, adjoint, u, found, next⟩ := gives
    obtain rfl : p = q := by simpa [alone] using isPattern
    obtain ⟨later, earns⟩ := adjoint_earns ready plain sub pattern found
      (fun middle moves mem => rest adjoint u middle moves mem next) same
    exact ⟨later, earns.congr fun σ ledger suits => ⟨suits, by rw [slope σ ledger]⟩⟩
  have wider {u : DiffState} {middle : Scope} (moves : Moves s scope u middle) :
      ∀ x ∈ inner, x ∈ middle := fun x mem => moves.extends_.sub (sub x mem)
  cases op with
  | operand x =>
    rw [← Operand.slope_of_dual means]
    cases x with
    | const v =>
      obtain ⟨-, rfl⟩ := (gives_pure ..).mp gives
      exact ⟨scope, .refl ready plain fun σ _ => by rw [Operand.slope_const, mul_zero]⟩
    | var x =>
      rw [Operand.slope_of_dual means]
      refine started (fun _ => (Operand.var x).slope w δ) gives
        (fun adjoint u middle moves mem next => ?_) (fun _ _ _ => rfl)
        fun _ _ => Operand.slope_of_dual means
      obtain ⟨later, earns⟩ := contributeTo_earns (x := .var x) moves.extends_.ready
        moves.reaches.plain (wider moves) reads mem next
      refine ⟨later, earns.congr fun σ _ kind => ⟨fun e stands => ?_, rfl⟩⟩
      obtain rfl : d = e := Option.some.inj (means.symm.trans stands)
      exact kind
  | unary op x =>
    obtain ⟨result, a, isArg, fits, -, tangent⟩ := means
    have kind : d.tangent.ty = op.ty := by simpa using result.tangent.symm
    rw [kind] at started ⊢
    have inFormula : ∀ y ∈ (op.derivative (.ofOperand op.ty x)).names, y ∈ inner := by
      intro y mem
      have inX := local_standard.unary op _ y mem
      rw [names_ofOperand] at inX
      exact reads y inX
    refine started
      (fun σ => (op.derivative (.ofOperand op.ty x)).amount w σ * a.slope w) gives
      (fun adjoint u middle moves mem next => ?_) (fun σ τ agree => ?_) fun σ ledger => ?_
    · exact product_earns moves.extends_.ready moves.reaches.plain (wider moves) reads mem inFormula
        (known_unary op (Formula.known_ofOperand _ _)) isArg fits next
    · rw [agree.formula fun y mem => sub y (inFormula y mem)]
    · obtain ⟨p, evaluated, slope⟩ := Dual.slope_unary fits result
        (eval_ofOperand (ledger.tracks.operand reads isArg)) (ty_ofOperand isArg fits) tangent
      rw [Formula.amount_of_eval evaluated, slope, mul_comm]
  | binary op x y =>
    obtain ⟨result, a, b, isLeft, isRight, left, right, -, tangent⟩ := means
    have kind : d.tangent.ty = op.ty := by simpa using result.tangent.symm
    rw [kind] at started ⊢
    simp only [BasicOp.names, operandNames, List.flatMap_cons, List.flatMap_nil, List.append_nil]
      at reads
    obtain ⟨readsLeft, readsRight⟩ := List.forall_mem_append.mp reads
    have inFormulas := local_standard.binary op (.ofOperand op.ty x) (.ofOperand op.ty y)
    simp only [names_ofOperand] at inFormulas
    obtain ⟨inLeft, inRight⟩ :=
      List.forall_mem_append.mp fun z mem => reads z (inFormulas z mem)
    obtain ⟨knownLeft, knownRight⟩ := known_binary op (Formula.known_ofOperand op.ty x)
      (Formula.known_ofOperand op.ty y)
    simp only [Rules.standard] at inLeft inRight knownLeft knownRight
    refine started (fun σ =>
        (op.partials (.ofOperand op.ty x) (.ofOperand op.ty y)).1.amount w σ * a.slope w +
          (op.partials (.ofOperand op.ty x) (.ofOperand op.ty y)).2.amount w σ * b.slope w) gives
      (fun adjoint u middle moves mem next => ?_) (fun σ τ agree => ?_) fun σ ledger => ?_
    · obtain ⟨_, v, gives, gives'⟩ := (gives_bind ..).mp next
      obtain ⟨between, first⟩ := product_earns moves.extends_.ready moves.reaches.plain (wider moves)
        readsLeft mem inLeft knownLeft isLeft left gives
      have sub' := fun z mem => first.moves.extends_.sub (wider moves z mem)
      obtain ⟨later, second⟩ := product_earns first.moves.extends_.ready first.moves.reaches.plain
        sub' readsRight (first.moves.extends_.sub mem) inRight knownRight isRight right gives'
      refine ⟨later, first.trans second fun fuel σ τ traces _ kind => ?_⟩
      have agree := first.moves.agree traces
      refine ⟨kind, agree.hasKind mem kind, ?_⟩
      rw [agree.amount mem, agree.formula fun z mem => wider moves z (inRight z mem)]
      ring
    · rw [agree.formula fun z mem => sub z (inLeft z mem),
        agree.formula fun z mem => sub z (inRight z mem)]
    · obtain ⟨p, q, first, second, slope⟩ := Dual.slope_binary left right result
        ⟨eval_ofOperand (ledger.tracks.operand readsLeft isLeft),
          eval_ofOperand (ledger.tracks.operand readsRight isRight)⟩
        ⟨ty_ofOperand isLeft left, ty_ofOperand isRight right⟩ tangent
      rw [Formula.amount_of_eval first, Formula.amount_of_eval second, slope]
      ring
  | _ => exact absurd means (by simp [BasicOp.Means])

end Reverse

end Cotangent
