import Cotangent.Proofs.Derivative.DualRuns
import Cotangent.Proofs.Derivative.ScalarPasses
/-!
What the code of the forward pass computes on integer code. Beside every name of the source stands the
name of its tangent, so a run of the emitted code is a run of the source on dual numbers.
-/
namespace Cotangent

open Outline Run

variable {w : IntWidth} {σ τ υ : Store Scalar} {δ ε : NameTable Dual} {types types' types'' : NameTable Ty}

variable {source : Scope}

/-! Operands of integer code. -/

theorem Dual.fits_constant {v : Scalar} {t : Ty} (within : t.Within w) (same : t = .scalar v.ty) :
    (Dual.constant v).Fits w t :=
  ⟨within, same, by simpa [Dual.constant, Scalar.ty_zero] using same⟩

theorem Tracks.typed (tracks : Tracks w types σ δ source) {x : Operand} {t : Ty}
    (known : ∀ y ∈ x.names, y ∈ source) (has : x.HasType types t) (within : t.Within w) :
    ∃ d, x.dual? δ = some d ∧ d.Fits w t := by
  cases x with
  | const v => exact ⟨_, rfl, Dual.fits_constant within has⟩
  | var x =>
    obtain ⟨d, stands, -, u, found, fits⟩ := tracks x (known x (by simp [Operand.names]))
    obtain rfl := Option.some.inj (found.symm.trans has)
    exact ⟨d, stands, fits⟩

namespace Dual

variable {a b d : Dual}

/-- The tangent of an operation has the kind of the operation. -/
theorem fits_unary {op : UnaryOp} (within : (Ty.scalar op.ty).Within w)
    (applied : op.apply a.primal = .ok d.primal) (tangent : unaryTangent op a = some d.tangent) :
    d.Fits w (.scalar op.ty) := by
  refine ⟨within, by rw [UnaryOp.ty_apply applied], ?_⟩
  cases op with
  | not => exact Option.some.inj tangent ▸ rfl
  | int op v =>
    obtain ⟨_, _, -, -, same⟩ := eval_mul rfl tangent
    rw [same]
    rfl
  | float op v => exact absurd within (by simp [Ty.Within, UnaryOp.ty])

theorem fits_binary {op : BinaryOp} (left : a.Fits w (.scalar op.ty))
    (applied : op.apply a.primal b.primal = .ok d.primal)
    (tangent : binaryTangent op a b = some d.tangent) : d.Fits w (.scalar op.ty) := by
  have kind : a.primal.ty = op.ty := by simpa using left.primal.symm
  refine ⟨left.within, by rw [BinaryOp.ty_apply kind applied], ?_⟩
  have general (op : IntBinary) (v : IntWidth) (known : (binaryFormula (.int op v) (.leaf ⟨0⟩ (.int v))
      (.leaf ⟨1⟩ (.int v)) (.leaf ⟨2⟩ (.int v)) (.leaf ⟨3⟩ (.int v))).eval
        (readings [a.primal, b.primal, a.tangent, b.tangent]) = some d.tangent) :
      d.tangent.ty = .int v := by
    obtain ⟨_, _, -, -, same⟩ := eval_binaryFormula rfl rfl ⟨rfl, rfl⟩ known
    rw [same]
    rfl
  cases op with
  | int op v =>
    have kind : d.tangent.ty = .int v := by
      cases op with
      | add => exact Option.some.inj tangent ▸ rfl
      | sub => exact Option.some.inj tangent ▸ rfl
      | mul => exact Option.some.inj tangent ▸ rfl
      | _ => exact general _ v tangent
    rw [kind]
    rfl
  | float op v => exact absurd left.within (by simp [Ty.Within, BinaryOp.ty])
  | and => exact Option.some.inj tangent ▸ rfl
  | or => exact Option.some.inj tangent ▸ rfl

end Dual

/-- Operands of the given types stand for dual numbers that fit. -/
theorem Tracks.typed_all (tracks : Tracks w types σ δ source) {xs : List Operand} {ts : List Ty}
    (known : ∀ y ∈ operandNames xs, y ∈ source) (within : ∀ t ∈ ts, t.Within w)
    (has : List.Forall₂ (Operand.HasType types) ts xs) :
    ∃ ds, List.Forall₂ (fun x d => x.dual? δ = some d) xs ds ∧ List.Forall₂ (Dual.Fits w) ts ds := by
  induction has with
  | nil => exact ⟨[], .nil, .nil⟩
  | cons here rest ih =>
    rw [operandNames, List.flatMap_cons, List.forall_mem_append] at known
    obtain ⟨inFirst, inRest⟩ := List.forall_mem_cons.mp within
    obtain ⟨d, means, fits⟩ := tracks.typed known.1 here inFirst
    obtain ⟨ds, meanRest, fitRest⟩ := ih known.2 inRest
    exact ⟨d :: ds, .cons means meanRest, .cons fits fitRest⟩

/-! States of the pass. -/

namespace Forward

open Diff

variable {s t u : DiffState} {middle later : Scope} {bound : Nat}

/-- The tangent of an operand whose names all have one. -/
def shadow (s : DiffState) : Operand → Operand
  | .const v => .const (Scalar.zero v.ty)
  | .var x => .var ((s.companions.find? x).getD x)

/-- Every name of the source has a tangent, which was drawn later than all names of the source. -/
structure Paired (bound : Nat) (source : Scope) (s : DiffState) : Prop where
  reserved : bound ≤ s.builder.supply.next
  below : source.Below bound
  drawn : ∀ x ∈ source, ∃ c, s.companions.find? x = some c ∧ bound ≤ c.id ∧
    c.id < s.builder.supply.next

/-- A state of the pass over scalar code. -/
structure Doubled (bound : Nat) (source : Scope) (s : DiffState) : Prop
    extends Paired bound source s where
  plain : s.builder.Plain
  typed : Typed s source

/-- The names of the source and all names that may be tangents. -/
def Kept (bound : Nat) (source : Scope) (s : DiffState) (x : Name) : Prop :=
  x ∈ source ∨ bound ≤ x.id ∧ x.id < s.builder.supply.next

/-- The names of the source stand for the primal parts of dual numbers, and their tangents for the
    tangents. -/
structure Mirrors (w : IntWidth) (types : NameTable Ty) (s : DiffState) (σ : Store Scalar)
    (δ : NameTable Dual) (source : Scope) : Prop where
  tracks : Tracks w types σ δ source
  shadows : ∀ x ∈ source, ∀ d, δ.find? x = some d →
    ∃ c, s.companions.find? x = some c ∧ σ.vars.find? c = some (.scalar d.tangent)

theorem Paired.kept (paired : Paired bound source s) {x c : Name} (known : x ∈ source)
    (found : s.companions.find? x = some c) : Kept bound source s c := by
  obtain ⟨_, found', large, small⟩ := paired.drawn x known
  obtain rfl := Option.some.inj (found.symm.trans found')
  exact .inr ⟨large, small⟩

/-- A name of the source, or the tangent of one. -/
def Served (source : Scope) (s : DiffState) (x : Name) : Prop :=
  x ∈ source ∨ ∃ y ∈ source, s.companions.find? y = some x

theorem Paired.served (paired : Paired bound source s) {x : Name} (served : Served source s x) :
    Kept bound source s x := by
  rcases served with known | ⟨y, known, found⟩
  · exact .inl known
  · exact paired.kept known found

theorem Mirrors.served (mirrors : Mirrors w types s σ δ source) {x : Name}
    (served : Served source s x) : ∃ v, σ.vars.find? x = some (.scalar v) := by
  rcases served with known | ⟨y, known, found⟩
  · obtain ⟨d, -, primal, -⟩ := mirrors.tracks x known
    exact ⟨_, primal⟩
  · obtain ⟨d, stands, -⟩ := mirrors.tracks y known
    obtain ⟨c, found', tangent⟩ := mirrors.shadows y known d stands
    obtain rfl := Option.some.inj (found.symm.trans found')
    exact ⟨_, tangent⟩

theorem Paired.served_shadow (paired : Paired bound source s) {x : Operand}
    (known : Known source x) : ∀ y ∈ (shadow s x).names, Served source s y := by
  cases x with
  | const v => simp [shadow, Operand.names]
  | var x =>
    have known : x ∈ source := known x (by simp [Operand.names])
    obtain ⟨c, found, -⟩ := paired.drawn x known
    have here : Served source s c := .inr ⟨x, known, found⟩
    simpa only [shadow, found, Option.getD_some, Operand.names, List.mem_singleton, forall_eq]

theorem gives_tangent (paired : Paired bound source s) {x y : Operand} (known : Known source x)
    (gives : Gives (tangent x) s y t) : s = t ∧ shadow s x = y := by
  cases x with
  | const v =>
    obtain ⟨rfl, rfl⟩ := (gives_pure ..).mp gives
    exact ⟨rfl, rfl⟩
  | var x =>
    obtain ⟨c, found, -⟩ := paired.drawn x (known x (by simp [Operand.names]))
    simp only [tangent, companion, gives_bind, gives_companion?, gives_pure] at gives
    obtain ⟨d, u, ⟨_, _, ⟨rfl, rfl⟩, gives⟩, rfl, rfl⟩ := gives
    rw [found] at gives
    obtain ⟨rfl, rfl⟩ := (gives_pure ..).mp gives
    exact ⟨rfl, by simp [shadow, found]⟩

theorem Mirrors.shadow (mirrors : Mirrors w types s σ δ source) {x : Operand} {d : Dual}
    (known : Known source x) (means : x.dual? δ = some d) :
    σ.value (shadow s x) = some (.scalar d.tangent) := by
  cases x with
  | const v =>
    obtain rfl : Dual.constant v = d := Option.some.inj means
    rfl
  | var x =>
    obtain ⟨c, found, stands⟩ := mirrors.shadows x (known x (by simp [Operand.names])) d means
    simpa [Forward.shadow, found, Store.value] using stands

theorem Mirrors.agree (mirrors : Mirrors w types s σ δ source) (paired : Paired bound source s)
    (agree : σ.Agree (Kept bound source s) τ) : Mirrors w types s τ δ source where
  tracks := mirrors.tracks.agree (agree.mono fun _ known => .inl known)
  shadows x known d stands := by
    obtain ⟨c, found, here⟩ := mirrors.shadows x known d stands
    exact ⟨c, found, (agree c (paired.kept known found)).trans here⟩

/-- A further name with its tangent. -/
theorem Mirrors.push (mirrors : Mirrors w types s σ δ source) (paired : Paired bound source s)
    {p : Param} {c : Name} {d : Dual} (fits : d.Fits w p.ty)
    (agree : σ.Agree (Kept bound source s) τ)
    (primal : τ.vars.find? p.name = some (.scalar d.primal))
    (tangent : τ.vars.find? c = some (.scalar d.tangent))
    (companions : t.companions = s.companions.insert p.name c) :
    Mirrors w (types.declare [p]) t τ (δ.assign [p] [d]) (p.name :: source) := by
  have still := mirrors.agree paired agree
  constructor
  · intro x known
    by_cases same : x = p.name
    · subst same
      refine ⟨d, ?_, primal, p.ty, ?_, fits⟩
      · simp [NameTable.assign, NameTable.insertAll, NameTable.find_insert]
      · simp [NameTable.declare, NameTable.insertAll, NameTable.find_insert]
    · obtain ⟨e, stands, here, ty, typed, fits⟩ :=
        still.tracks x ((List.mem_cons.mp known).resolve_left same)
      refine ⟨e, ?_, here, ty, ?_, fits⟩
      · simpa [NameTable.assign, NameTable.insertAll, NameTable.find_insert, same] using stands
      · simpa [NameTable.declare, NameTable.insertAll, NameTable.find_insert, same] using typed
  · intro x known e stands
    rw [companions, NameTable.find_insert]
    by_cases same : x = p.name
    · obtain rfl : d = e := by
        simpa [same, NameTable.assign, NameTable.insertAll, NameTable.find_insert] using stands
      exact ⟨c, by simp [same], tangent⟩
    · obtain ⟨c', found, here⟩ := still.shadows x ((List.mem_cons.mp known).resolve_left same) e (by
        simpa [same, NameTable.assign, NameTable.insertAll, NameTable.find_insert] using stands)
      exact ⟨c', by simp [same, found], here⟩

theorem Paired.push (paired : Paired bound source s) {p : Param} {c : Name}
    (small : p.name.id < bound) (large : bound ≤ c.id) (drawn : c.id < t.builder.supply.next)
    (next_le : s.builder.supply.next ≤ t.builder.supply.next)
    (companions : t.companions = s.companions.insert p.name c) :
    Paired bound (p.name :: source) t where
  reserved := Nat.le_trans paired.reserved next_le
  below := paired.below.cons small
  drawn x known := by
    rw [companions, NameTable.find_insert]
    by_cases same : x = p.name
    · exact ⟨c, by simp [same], large, drawn⟩
    · obtain ⟨c', found, bounds⟩ := paired.drawn x ((List.mem_cons.mp known).resolve_left same)
      exact ⟨c', by simp [same, found], bounds.1, Nat.lt_of_lt_of_le bounds.2 next_le⟩

theorem Paired.mono (paired : Paired bound source s)
    (next_le : s.builder.supply.next ≤ t.builder.supply.next)
    (companions : t.companions = s.companions) : Paired bound source t where
  reserved := Nat.le_trans paired.reserved next_le
  below := paired.below
  drawn x known := by
    obtain ⟨c, found, large, small⟩ := paired.drawn x known
    exact ⟨c, companions ▸ found, large, Nat.lt_of_lt_of_le small next_le⟩

/-- The tangents drawn for binders. -/
theorem Paired.push_withTangents (paired : Paired bound source s) {p : Param}
    (small : p.name.id < bound) : Paired bound (p.name :: source) (withTangents s [p]) :=
  paired.push small paired.reserved (Nat.lt_succ_self _) (Nat.le_succ _) rfl

theorem Paired.binders (paired : Paired bound source s) {ps : List Param}
    (small : ∀ p ∈ ps, p.name.id < bound) :
    Paired bound ((paramOutline ps).after source) (withTangents s ps) := by
  induction ps generalizing s source with
  | nil => simpa [paramOutline, withTangents, NameTable.insertAll, tangentsOf, paramsFrom] using paired
  | cons p ps ih =>
    have rest := ih (paired.push_withTangents (small p (by simp))) fun q mem => small q (by simp [mem])
    rw [withTangents_cons] at rest
    simpa [paramOutline, Param.outline] using rest

/-- Binders and their tangents are bound to the two parts of dual numbers. -/
theorem Mirrors.binders (mirrors : Mirrors w types s σ δ source) (paired : Paired bound source s)
    {ps : List Param} {ds : List Dual} (accepted : (paramOutline ps).Accepted source)
    (small : ∀ p ∈ ps, p.name.id < bound) (fits : List.Forall₂ (Dual.Fits w) (ps.map (·.ty)) ds) :
    Mirrors w (types.declare ps) (withTangents s ps)
      (σ.bound ((interleave ps (tangentsOf s ps)).map (·.name))
        ((interleave (ds.map (·.primal)) (ds.map (·.tangent))).map .scalar))
      (δ.assign ps ds) ((paramOutline ps).after source) := by
  induction ps generalizing s σ δ types source ds with
  | nil =>
    obtain rfl := List.forall₂_nil_left_iff.mp fits
    exact mirrors
  | cons p ps ih =>
    obtain ⟨d, rest, fit, tail, rfl⟩ := List.forall₂_cons_left_iff.mp fits
    rw [paramOutline, accepted_append] at accepted
    have fresh : p.name ∉ source := by
      have here := accepted.1
      simp only [Param.outline, Accepted] at here
      exact here.1
    have tangentFresh : (⟨s.builder.supply.next⟩ : Name) ≠ p.name := fun same => by
      have := small p (by simp)
      have := paired.reserved
      simp only [← same] at *
      omega
    let mid := σ.bound [p.name, ⟨s.builder.supply.next⟩] [.scalar d.primal, .scalar d.tangent]
    have agree : σ.Agree (Kept bound source s) mid := .bound σ _ fun x mem => by
      have := small p (by simp)
      have := paired.reserved
      rcases List.mem_cons.mp mem with rfl | mem
      · rintro (known | ⟨large, -⟩)
        · exact fresh known
        · omega
      · obtain rfl := List.mem_singleton.mp mem
        rintro (known | ⟨-, drawn⟩)
        · exact absurd (paired.below _ known) (Nat.not_lt.mpr paired.reserved)
        · exact Nat.lt_irrefl _ drawn
    have pushed := mirrors.push (t := withTangents s [p]) paired fit agree
      (by simp [mid, Store.bound, NameTable.insertAll, NameTable.find_insert, tangentFresh.symm])
      (by simp [mid, Store.bound, NameTable.insertAll, NameTable.find_insert]) rfl
    have inside := ih pushed (paired.push_withTangents (small p (by simp)))
      (by simpa [Param.outline] using accepted.2) (fun q mem => small q (by simp [mem])) tail
    have after : (paramOutline (p :: ps)).after source = (paramOutline ps).after (p.name :: source) := by
      simp [paramOutline, Param.outline]
    rw [withTangents_cons] at inside
    rw [after]
    exact inside

theorem Doubled.build (doubled : Doubled bound source s) {b : Builder}
    (reaches : s.builder.Reaches b) : Doubled bound source { s with builder := b } where
  plain := reaches.plain
  typed := doubled.typed.reaches (t := { s with builder := b }) reaches
  toPaired := doubled.toPaired.mono reaches.next_le rfl

/-! Statements. -/

/-- The code emitted on the way computes the duals that the source comes to. -/
structure Follows (w : IntWidth) (bound : Nat) (types types' : NameTable Ty) (source later : Scope)
    (s t : DiffState) (means : NameTable Dual → NameTable Dual → Prop) : Prop where
  emitted : ∃ new, t.builder.stms = s.builder.stms ++ new
  reaches : s.builder.Reaches t.builder
  doubled : Doubled bound later t
  run : ∀ fuel σ τ δ, Traces fuel s t σ τ → Mirrors w types s σ δ source →
    ∃ ε, means δ ε ∧ Mirrors w types' t τ ε later ∧ σ.Agree (Kept bound source s) τ

theorem Follows.refl (doubled : Doubled bound source s) :
    Follows w bound types types source source s s fun δ ε => ε = δ where
  emitted := ⟨[], by simp⟩
  reaches := doubled.plain.refl
  doubled := doubled
  run fuel σ τ δ traces mirrors := by
    obtain rfl := (traces_of_stms rfl).mp traces
    exact ⟨δ, rfl, mirrors, .refl _ σ⟩

theorem Follows.trans {means means' : NameTable Dual → NameTable Dual → Prop}
    (first : Follows w bound types types' source middle s u means)
    (second : Follows w bound types' types'' middle later u t means')
    (sub : ∀ x ∈ source, x ∈ middle) :
    Follows w bound types types'' source later s t fun δ ε => ∃ mid, means δ mid ∧ means' mid ε where
  emitted := by
    obtain ⟨new, emitted⟩ := first.emitted
    obtain ⟨more, emitted'⟩ := second.emitted
    exact ⟨new ++ more, by rw [emitted', emitted, List.append_assoc]⟩
  reaches := first.reaches.trans second.reaches
  doubled := second.doubled
  run fuel σ υ δ traces mirrors := by
    obtain ⟨new, emitted⟩ := first.emitted
    obtain ⟨more, emitted'⟩ := second.emitted
    obtain ⟨τ, here, there⟩ := traces.split emitted emitted'
    obtain ⟨mid, meant, between, agree⟩ := first.run fuel σ τ δ here mirrors
    obtain ⟨ε, meant', after, agree'⟩ := second.run fuel τ υ mid there between
    refine ⟨ε, ⟨mid, meant, meant'⟩, after, agree.trans (agree'.mono fun x kept => ?_)⟩
    exact kept.imp (sub x) fun ⟨large, small⟩ => ⟨large, Nat.lt_of_lt_of_le small first.reaches.next_le⟩

/-- The formula of the tangent of an operation, with the tangents of its operands in place. -/
def tangentFormula (s : DiffState) : BasicOp → Formula
  | .unary op x => Dual.unaryFormula op (.ofOperand op.ty x) (.ofOperand op.ty (shadow s x))
  | .binary op x y => Dual.binaryFormula op (.ofOperand op.ty x) (.ofOperand op.ty y)
      (.ofOperand op.ty (shadow s x)) (.ofOperand op.ty (shadow s y))
  | .operand x => .ofOperand .bool (shadow s x)
  | _ => .zero .bool

theorem gives_tangentExp (doubled : Doubled bound source s) {op : BasicOp} {ty : Ty} {stm : Stm}
    {act : Build Exp} (returns : op.Returns types ty) (known : ∀ x ∈ op.names, x ∈ source)
    (gives : Gives (tangentExp .standard stm op) s act t) :
    s = t ∧ Build.expOf (tangentFormula s op) = act := by
  cases op with
  | operand x =>
    simp only [tangentExp, gives_bind, gives_pure] at gives
    obtain ⟨y, _, found, rfl, rfl⟩ := gives
    obtain ⟨rfl, rfl⟩ := gives_tangent doubled.toPaired known found
    exact ⟨rfl, by cases x <;> rfl⟩
  | unary op x =>
    simp only [tangentExp, gives_bind, gives_pure] at gives
    obtain ⟨y, _, found, rfl, rfl⟩ := gives
    obtain ⟨rfl, rfl⟩ := gives_tangent doubled.toPaired known found
    exact ⟨rfl, rfl⟩
  | binary op x y =>
    simp only [BasicOp.names, operandNames, List.flatMap_cons, List.flatMap_nil, List.append_nil,
      List.forall_mem_append] at known
    simp only [tangentExp, gives_bind, gives_pure] at gives
    obtain ⟨dx, _, left, dy, _, right, rfl, rfl⟩ := gives
    obtain ⟨rfl, rfl⟩ := gives_tangent doubled.toPaired known.1 left
    obtain ⟨rfl, rfl⟩ := gives_tangent doubled.toPaired known.2 right
    exact ⟨rfl, rfl⟩
  | _ => exact absurd returns (by simp [BasicOp.Returns])

theorem served_tangentFormula (doubled : Doubled bound source s) {op : BasicOp} {ty : Ty}
    (returns : op.Returns types ty) (known : ∀ x ∈ op.names, x ∈ source) :
    ∀ y ∈ (tangentFormula s op).names, Served source s y := by
  cases op with
  | operand x =>
    simp only [tangentFormula, names_ofOperand]
    exact doubled.served_shadow known
  | unary op x =>
    simp only [tangentFormula, Dual.unaryFormula, names_mul, List.forall_mem_append, names_ofOperand]
    refine ⟨doubled.served_shadow known, fun y mem => .inl (known y ?_)⟩
    have inX := local_standard.unary op _ y mem
    rwa [names_ofOperand] at inX
  | binary op x y =>
    simp only [BasicOp.names, operandNames, List.flatMap_cons, List.flatMap_nil, List.append_nil,
      List.forall_mem_append] at known
    have partials := local_standard.binary op (.ofOperand op.ty x) (.ofOperand op.ty y)
    simp only [names_ofOperand] at partials
    obtain ⟨left, right⟩ := List.forall_mem_append.mp fun z mem =>
      (.inl ((List.forall_mem_append.mpr known) z (partials z mem)) : Served source s z)
    simp only [tangentFormula, Dual.binaryFormula, Formula.add, Formula.names, names_mul,
      List.forall_mem_append, names_ofOperand]
    exact ⟨⟨doubled.served_shadow known.1, left⟩, doubled.served_shadow known.2, right⟩
  | _ => exact absurd returns (by simp [BasicOp.Returns])

theorem ty_shadow {x : Operand} {k : ScalarType} {a : Dual} (means : x.dual? δ = some a)
    (fits : a.Fits w (.scalar k)) : (Formula.ofOperand k (shadow s x)).ty = k := by
  cases x with
  | const v =>
    obtain rfl : Dual.constant v = a := Option.some.inj means
    have kind : v.ty = k := by simpa [Dual.constant] using fits.primal.symm
    exact (Scalar.ty_zero v.ty).trans kind
  | var x => rfl

/-- An operation and the formula of its tangent come to the two parts of what it means. -/
theorem tangentFormula_means (mirrors : Mirrors w types s σ δ source) {op : BasicOp} {ty : Ty}
    (returns : op.Returns types ty) (within : ty.Within w) (known : ∀ x ∈ op.names, x ∈ source)
    {run : Body → Run Scalar (List Value)} {v : Value} {r : Scalar}
    (ends : Ends (Run.basicOp run op) σ v τ) (eval : (tangentFormula s op).eval σ.reading = some r) :
    ∃ d, v = .scalar d.primal ∧ d.tangent = r ∧ op.Means w δ d ∧ d.Fits w ty := by
  cases op with
  | operand x =>
    obtain ⟨d, means, fits⟩ := mirrors.tracks.typed known returns within
    obtain ⟨found, -⟩ := (ends_operand ..).mp ends
    obtain rfl := Option.some.inj (found.symm.trans (mirrors.tracks.operand known means))
    have tangent := eval_ofOperand (k := .bool) (mirrors.shadow known means)
    exact ⟨d, rfl, Option.some.inj (tangent.symm.trans eval), means, fits⟩
  | unary op x =>
    obtain ⟨rfl, has⟩ := returns
    obtain ⟨a, means, fits⟩ := mirrors.tracks.typed known has within
    simp only [Run.basicOp, ends_bind, ends_scalar, ends_lift, ends_pure] at ends
    obtain ⟨m, _, ⟨found, rfl⟩, u, _, ⟨applied, rfl⟩, rfl, rfl⟩ := ends
    obtain rfl : a.primal = m := by simpa using (mirrors.tracks.operand known means).symm.trans found
    have tangent := Dual.unaryTangent_of_eval ⟨ty_ofOperand means fits, ty_shadow means fits⟩
      (eval_ofOperand (mirrors.tracks.operand known means))
      (eval_ofOperand (mirrors.shadow known means)) eval
    have result : (Dual.mk u r).Fits w (.scalar op.ty) := Dual.fits_unary within applied tangent
    exact ⟨⟨u, r⟩, rfl, rfl, ⟨result, a, means, fits, applied, tangent⟩, result⟩
  | binary op x y =>
    obtain ⟨rfl, hasLeft, hasRight⟩ := returns
    simp only [BasicOp.names, operandNames, List.flatMap_cons, List.flatMap_nil, List.append_nil,
      List.forall_mem_append] at known
    obtain ⟨a, left, fitsLeft⟩ := mirrors.tracks.typed known.1 hasLeft within
    obtain ⟨b, right, fitsRight⟩ := mirrors.tracks.typed known.2 hasRight within
    simp only [Run.basicOp, ends_bind, ends_scalar, ends_lift, ends_pure] at ends
    obtain ⟨m, _, ⟨foundLeft, rfl⟩, n, _, ⟨foundRight, rfl⟩, u, _, ⟨applied, rfl⟩, rfl, rfl⟩ := ends
    have isLeft := mirrors.tracks.operand known.1 left
    have isRight := mirrors.tracks.operand known.2 right
    obtain rfl : a.primal = m := by simpa using isLeft.symm.trans foundLeft
    obtain rfl : b.primal = n := by simpa using isRight.symm.trans foundRight
    have tangent := Dual.binaryTangent_of_eval
      ⟨ty_ofOperand left fitsLeft, ty_ofOperand right fitsRight, ty_shadow left fitsLeft,
        ty_shadow right fitsRight⟩
      ⟨eval_ofOperand isLeft, eval_ofOperand isRight⟩
      ⟨eval_ofOperand (mirrors.shadow known.1 left), eval_ofOperand (mirrors.shadow known.2 right)⟩
      eval
    have result : (Dual.mk u r).Fits w (.scalar op.ty) := Dual.fits_binary fitsLeft applied tangent
    exact ⟨⟨u, r⟩, rfl, rfl, ⟨result, a, b, left, right, fitsLeft, fitsRight, applied, tangent⟩, result⟩
  | _ => exact absurd returns (by simp [BasicOp.Returns])

theorem varies_of_returns {op : BasicOp} {ty : Ty} (returns : op.Returns types ty) :
    isConstant op = false ∧ op.ScalarCode := by
  cases op with
  | operand x => exact ⟨rfl, trivial⟩
  | unary op x => exact ⟨rfl, trivial⟩
  | binary op x y => exact ⟨rfl, trivial⟩
  | _ => exact absurd returns (by simp [BasicOp.Returns])

/-- What the pass emits for an operation. -/
theorem gives_basicOp (doubled : Doubled bound source s) {p : Param} {aux : Annotations}
    {op : BasicOp} (returns : op.Returns types p.ty) (scalar : p.ty.IsScalar)
    (known : ∀ x ∈ op.names, x ∈ source)
    (gives : Gives (basicOp .standard ⟨[p], aux, .basic op⟩ op) s () t) :
    ∃ d : Builder, d.stms = s.builder.stms ++ [⟨[p], aux, .basic op⟩] ∧
      d.supply.next = s.builder.supply.next + 1 ∧
      t = ⟨(Build.bindFormula ⟨⟨s.builder.supply.next⟩, p.ty⟩ aux (tangentFormula s op) d).2,
        s.companions.insert p.name ⟨s.builder.supply.next⟩⟩ := by
  have added := doubled.build (doubled.plain.add (s := ⟨[p], aux, .basic op⟩)
    ⟨by simpa using scalar, (varies_of_returns returns).2⟩)
  simp only [basicOp, (varies_of_returns returns).1, Bool.not_false, if_true, gives_bind,
    gives_build, gives_single] at gives
  obtain ⟨_, _, ⟨-, rfl⟩, q, _, ⟨alone, rfl⟩, act, u, formula, tan, v, drawn, -, rfl⟩ := gives
  obtain rfl : p = q := by simpa using alone
  obtain ⟨rfl, rfl⟩ := gives_tangentExp added returns known formula
  obtain ⟨rfl, rfl⟩ := (gives_newTangent scalar.isAcc _).unique drawn
  exact ⟨_, rfl, rfl, rfl⟩

theorem basicOp_follows (doubled : Doubled bound source s) {p : Param} {aux : Annotations}
    {op : BasicOp} (returns : op.Returns types p.ty) (within : p.ty.Within w)
    (known : ∀ x ∈ op.names, x ∈ source) (fresh : p.name ∉ source) (small : p.name.id < bound)
    (gives : Gives (basicOp .standard ⟨[p], aux, .basic op⟩ op) s () t) :
    Follows w bound types (types.declare [p]) source (p.name :: source) s t
      fun δ ε => (Stm.mk [p] aux (.basic op)).Means w δ ε := by
  have code := (varies_of_returns returns).2
  have whole : (Stm.mk [p] aux (.basic op)).ScalarCode := ⟨by simpa using within.isScalar, code⟩
  obtain ⟨_, _, gives', reaches, typed⟩ := works_basicOp doubled.plain code whole rfl within.isScalar
    fun x mem => doubled.typed x (known x mem)
  obtain ⟨-, rfl⟩ := gives.unique gives'
  obtain ⟨d, stms, drawn, rfl⟩ := gives_basicOp doubled returns within.isScalar known gives
  have served := served_tangentFormula doubled returns known
  have below : ∀ x, Kept bound source s x → x.id < s.builder.supply.next := by
    rintro x (known | ⟨-, small⟩)
    · exact Nat.lt_of_lt_of_le (doubled.below x known) doubled.reserved
    · exact small
  -- the statements for the tangent, read where the operation has been bound
  let b : Builder := { d with supply := s.builder.supply }
  have leads (read : Name → Option Scalar)
      (reads : ∀ x ∈ (tangentFormula s op).names, ∃ v, read x = some v) :=
    drawn_leads (tangentFormula s op) p.ty aux (b := b) (d := d) rfl drawn
      (fun x mem => ⟨below x (doubled.served (served x mem)), reads x mem⟩) (fun x mem => mem)
  obtain ⟨next, new, static⟩ := leads (fun _ => some (.bool false)) fun _ _ => ⟨_, rfl⟩
  have emitted : (Build.bindFormula ⟨⟨s.builder.supply.next⟩, p.ty⟩ aux (tangentFormula s op) d).2.stms =
      s.builder.stms ++ (⟨[p], aux, .basic op⟩ :: new) := by
    rw [static.emitted]
    simp [b, stms]
  refine ⟨⟨_, emitted⟩, reaches, ?_, fun fuel σ τ δ traces mirrors => ?_⟩
  · exact {
      doubled.toPaired.push small doubled.reserved next reaches.next_le rfl with
      plain := reaches.plain
      typed := List.forall_mem_cons.mpr ⟨typed p (by simp), doubled.typed.reaches reaches⟩ }
  · rw [traces_of_emitted emitted] at traces
    obtain ⟨υ, first, rest⟩ := (ends_stms_cons ..).mp traces
    obtain ⟨vs, _, ran, -, rfl⟩ := (ends_stm ..).mp first
    obtain ⟨v, applied, rfl⟩ := (ends_basic ..).mp ran
    obtain rfl := ends_scalarOp code applied
    have still : σ.Agree (Kept bound source s) (σ.bound [p.name] [v]) :=
      .bound σ [v] fun x mem => by
        obtain rfl := List.mem_singleton.mp mem
        rintro (known | ⟨large, -⟩)
        · exact fresh known
        · omega
    have scalars : ∀ x ∈ (tangentFormula s op).names, ∃ u,
        (σ.bound [p.name] [v]).vars.find? x = some (.scalar u) := fun x mem => by
      obtain ⟨u, found⟩ := mirrors.served (served x mem)
      exact ⟨u, (still x (doubled.served (served x mem))).trans found⟩
    have readings : ∀ x ∈ (tangentFormula s op).names, ∃ u,
        (σ.bound [p.name] [v]).reading x = some u := fun x mem =>
      (scalars x mem).imp fun u found => Store.reading_of_find found
    obtain ⟨-, new', here⟩ := leads _ readings
    obtain rfl : new = new' := List.append_cancel_left (static.emitted.symm.trans here.emitted)
    obtain ⟨spared, r, eval, tangent⟩ := here.holds fuel _ τ (fun x mem =>
      have ⟨u, found⟩ := scalars x mem
      ⟨below x (doubled.served (served x mem)), u, Store.reading_of_find found, found⟩) rest
    rw [Formula.eval_congr _ fun x mem => still.reading (doubled.served (served x mem))] at eval
    obtain ⟨e, rfl, rfl, means, fits⟩ :=
      tangentFormula_means mirrors returns within known applied eval
    have agree : σ.Agree (Kept bound source s) τ := still.trans (spared.mono fun x kept => .inl (below x kept))
    refine ⟨δ.assign [p] [e], ⟨[e], ⟨e, rfl, means⟩, by simpa using fits, rfl⟩, ?_, agree⟩
    refine mirrors.push doubled.toPaired fits agree ?_ tangent rfl
    have primal := spared p.name (.inl (Nat.lt_of_lt_of_le small doubled.reserved))
    exact primal.trans (Store.find_bound_single ..)

/-! Bodies. -/

theorem gives_mapM_still {α β : Type} {f : α → Diff β} {g : α → β} {xs : List α} {bs : List β}
    (each : ∀ x ∈ xs, ∀ t b, Gives (f x) s b t → s = t ∧ g x = b)
    (gives : Gives (xs.mapM f) s bs t) : s = t ∧ xs.map g = bs := by
  induction xs generalizing bs with
  | nil =>
    obtain ⟨rfl, rfl⟩ := (gives_pure ..).mp gives
    exact ⟨rfl, rfl⟩
  | cons x xs ih =>
    simp only [List.mapM_cons, gives_bind, gives_pure] at gives
    obtain ⟨b, u, first, bs, v, rest, rfl, rfl⟩ := gives
    obtain ⟨rfl, rfl⟩ := each x (by simp) u b first
    obtain ⟨rfl, rfl⟩ := ih (fun y mem => each y (by simp [mem])) rest
    exact ⟨rfl, rfl⟩

theorem gives_tangents (doubled : Doubled bound source s) {xs ys : List Operand}
    (known : ∀ y ∈ operandNames xs, y ∈ source) (gives : Gives (tangents xs) s ys t) :
    s = t ∧ xs.map (shadow s) = ys :=
  gives_mapM_still (fun _ mem _ _ => gives_tangent doubled.toPaired (known_of_mem known mem)) gives

theorem gives_bundled_shadows (doubled : Doubled bound source s) {xs ys : List Operand}
    (known : ∀ y ∈ operandNames xs, y ∈ source) (gives : Gives (bundleOperands xs) s ys t) :
    s = t ∧ interleave xs (xs.map (shadow s)) = ys := by
  simp only [bundleOperands, bundled, gives_bind, gives_pure] at gives
  obtain ⟨parts, _, gives, rfl, rfl⟩ := gives
  obtain ⟨rfl, rfl⟩ := gives_mapM_still (g := fun x => [x, shadow s x]) (fun x mem t part step => by
    obtain ⟨acc, u, test, step⟩ := (gives_bind ..).mp step
    have isPlain : acc = false ∧ s = u := by
      cases x with
      | const v =>
        obtain ⟨rfl, rfl⟩ := (gives_pure ..).mp test
        exact ⟨rfl, rfl⟩
      | var x =>
        simp only [isAccOperand, isAccName, gives_bind, gives_typeOf, gives_pure] at test
        obtain ⟨ty, _, ⟨found, rfl⟩, rfl, rfl⟩ := test
        exact ⟨(doubled.plain.types x ty found).isAcc, rfl⟩
    obtain ⟨rfl, rfl⟩ := isPlain
    simp only [Bool.false_eq_true, if_false, gives_bind, gives_pure] at step
    obtain ⟨y, _, found, rfl, rfl⟩ := step
    obtain ⟨rfl, rfl⟩ := gives_tangent doubled.toPaired (known_of_mem known mem) found
    exact ⟨rfl, rfl⟩) gives
  refine ⟨rfl, ?_⟩
  clear known gives
  induction xs with
  | nil => rfl
  | cons x xs ih => simp [ih]

/-- The tangents of operands stand for the tangents of what the operands mean. -/
theorem Mirrors.shadow_values (mirrors : Mirrors w types s σ δ source) {xs : List Operand}
    {ds : List Dual} (known : ∀ y ∈ operandNames xs, y ∈ source)
    (means : List.Forall₂ (fun x d => x.dual? δ = some d) xs ds) :
    List.Forall₂ (fun x d => σ.value x = some (.scalar d.primal) ∧
      σ.value (Forward.shadow s x) = some (.scalar d.tangent)) xs ds := by
  refine ((List.forall₂_and_left xs ds).mpr ⟨fun x mem => known_of_mem known mem, means⟩).imp ?_
  exact fun x d read => ⟨mirrors.tracks.operand read.1 read.2, mirrors.shadow read.1 read.2⟩

theorem values_interleave {xs : List Operand} {f : Operand → Operand} {ds : List Dual}
    (values : List.Forall₂ (fun x d => σ.value x = some (.scalar d.primal) ∧
      σ.value (f x) = some (.scalar d.tangent)) xs ds) :
    List.Forall₂ (fun x v => σ.value x = some v) (interleave xs (xs.map f))
      ((interleave (ds.map (·.primal)) (ds.map (·.tangent))).map .scalar) := by
  induction values with
  | nil => exact .nil
  | cons here rest ih => exact .cons here.1 (.cons here.2 ih)

/-- The two parts of dual numbers, in turn. -/
def bundledParts (ds : List Dual) : List Scalar :=
  interleave (ds.map (·.primal)) (ds.map (·.tangent))

/-- A body comes to what is shown of the dual numbers that its source means. -/
structure BodyFollows (w : IntWidth) (bound : Nat) (types : NameTable Ty) (source : Scope)
    (s t : DiffState) (ts : List Ty) (shown : List Dual → List Scalar) (b c : Body) : Prop where
  reaches : s.builder.Reaches t.builder
  stms : t.builder.stms = s.builder.stms
  code : c.ScalarCode
  run : ∀ fuel σ τ δ vs, Ends (runBody fuel c) σ vs τ → Mirrors w types s σ δ source →
    ∃ ds, b.Means w δ ds ∧ List.Forall₂ (Dual.Fits w) ts ds ∧ vs = (shown ds).map .scalar ∧
      σ.Agree (Kept bound source s) τ

/-- The operands that are read at the end show something of the dual numbers of `result`. -/
def Shows (w : IntWidth) (bound : Nat) (source : Scope) (result : List Operand)
    (shown : List Dual → List Scalar) (read : Diff (List Operand)) : Prop :=
  ∀ s ys t, Doubled bound source s → Gives read s ys t → s = t ∧
    ∀ types σ δ ds, Mirrors w types s σ δ source →
      List.Forall₂ (fun x d => x.dual? δ = some d) result ds →
      List.Forall₂ (fun y v => σ.value y = some v) ys ((shown ds).map .scalar)

theorem shows_bundled {xs : List Operand} (known : ∀ y ∈ operandNames xs, y ∈ source) :
    Shows w bound source xs bundledParts (bundleOperands xs) := by
  intro s ys t doubled gives
  obtain ⟨same, rfl⟩ := gives_bundled_shadows doubled known gives
  exact ⟨same, fun _ _ _ _ mirrors means => values_interleave (mirrors.shadow_values known means)⟩

theorem shows_tangents {xs : List Operand} (known : ∀ y ∈ operandNames xs, y ∈ source) :
    Shows w bound source xs (·.map (·.tangent)) (tangents xs) := by
  intro s ys t doubled gives
  obtain ⟨same, rfl⟩ := gives_tangents doubled known gives
  refine ⟨same, fun _ _ _ _ mirrors means => ?_⟩
  simp only [List.forall₂_map_left_iff, List.forall₂_map_right_iff]
  exact (mirrors.shadow_values known means).imp fun _ _ read => read.2

theorem bodyOf_follows {act : Diff Unit} {read : Diff (List Operand)} {ss : List Stm}
    {result : List Operand} {shown : List Dual → List Scalar} {c : Body} {ts : List Ty}
    (doubled : Doubled bound source s)
    (inside : ∀ u, Gives act { s with builder := { s.builder with stms := [] } } () u →
      Follows w bound types types' source later { s with builder := { s.builder with stms := [] } } u
        fun δ ε => StmsMeans w δ ε ss)
    (known : ∀ y ∈ operandNames result, y ∈ later) (within : ∀ t ∈ ts, t.Within w)
    (has : List.Forall₂ (Operand.HasType types') ts result)
    (ending : Shows w bound later result shown read) (gives : Gives (bodyOf act read) s c t) :
    BodyFollows w bound types source s t ts shown ⟨ss, result⟩ c := by
  obtain ⟨u, v, swept, last, emitted, rfl⟩ := (gives_bodyOf ..).mp gives
  have follows := inside u swept
  obtain ⟨rfl, shown⟩ := ending u _ v follows.doubled last
  have plain := follows.reaches.plain
  refine ⟨⟨⟨plain.types, doubled.plain.stms⟩, follows.reaches.typed, follows.reaches.next_le⟩, rfl,
    (body_scalarCode c).mpr fun stm mem => plain.stms stm (emitted ▸ mem),
    fun fuel σ τ δ vs ends mirrors => ?_⟩
  obtain ⟨below, υ, rfl, ran, read⟩ := (ends_runBody ..).mp ends
  obtain ⟨ε, means, after, agree⟩ := follows.run below σ υ δ
    ((traces_of_emitted (by simpa using emitted)).mpr ran) ⟨mirrors.tracks, mirrors.shadows⟩
  obtain ⟨ds, results, fits⟩ := after.tracks.typed_all known within has
  obtain ⟨found, rfl⟩ := ends_operands.mp read
  refine ⟨ds, ⟨ε, means, results⟩, fits, ?_, agree⟩
  refine List.right_unique_forall₂' (fun x a b here there => ?_) found
    (shown _ _ _ _ after results)
  exact Option.some.inj (here.symm.trans there)

/-! Conditionals. -/

theorem branch_follows {yesAct noAct : Diff Body} {pat : List Param} {aux : Annotations}
    {cond : Operand} {yes no : Body} {sort : BranchSort} (doubled : Doubled bound source s)
    (pattern : ∀ p ∈ pat, p.ty.Within w) (accepted : (paramOutline pat).Accepted source)
    (small : ∀ p ∈ pat, p.name.id < bound) (isCond : cond.HasType types (.scalar .bool))
    (knownCond : Known source cond)
    (inYes : ∀ c t, Gives yesAct s c t → BodyFollows w bound types source s t (pat.map (·.ty)) bundledParts yes c)
    (inNo : ∀ s, Doubled bound source s → ∀ c t, Gives noAct s c t →
      BodyFollows w bound types source s t (pat.map (·.ty)) bundledParts no c)
    (gives : Gives (branch ⟨pat, aux, .branch cond yes no (pat.map (·.ty)) sort⟩ cond yesAct noAct
      (pat.map (·.ty)) sort) s () t) :
    Follows w bound types (types.declare pat) source ((paramOutline pat).after source) s t
      fun δ ε => (Stm.mk pat aux (.branch cond yes no (pat.map (·.ty)) sort)).Means w δ ε := by
  simp only [branch, gives_bind, gives_within, gives_build] at gives
  obtain ⟨yes', _, ⟨u, yesGives, rfl⟩, no', _, ⟨v, noGives, rfl⟩, pat', x, drawn, -, rfl⟩ := gives
  have yesFollows := inYes yes' u yesGives
  have doubledYes := doubled.build yesFollows.reaches
  have noFollows := inNo _ doubledYes no' v noGives
  have doubledNo := doubledYes.build noFollows.reaches
  have isPlain : ∀ p ∈ pat, p.ty.isAcc = false := fun p mem => (pattern p mem).isScalar.isAcc
  obtain ⟨rfl, rfl⟩ := (gives_bundleBinders isPlain _).unique drawn
  obtain ⟨_, _, bundled, reachesPat, scalarPat, inPat⟩ :=
    works_bundleBinders doubledNo.plain fun p mem => (pattern p mem).isScalar
  obtain ⟨rfl, rfl⟩ := drawn.unique bundled
  let before : DiffState := { s with builder := v.builder }
  let emitted : Stm := ⟨interleave pat (tangentsOf before pat), aux,
    .branch cond yes' no' (bundledTypes (pat.map (·.ty))) sort⟩
  have scalarTypes : ∀ t ∈ pat.map (·.ty), t.IsScalar := by
    simpa using fun p mem => (pattern p mem).isScalar
  have added : (withTangents before pat).builder.Reaches
      (Build.add emitted (withTangents before pat).builder).2 :=
    reachesPat.plain.add ⟨scalarPat, yesFollows.code, noFollows.code, by
      rw [bundledTypes_eq fun t mem => (scalarTypes t mem).isAcc]
      exact forall_mem_interleave scalarTypes scalarTypes⟩
  have reaches := ((yesFollows.reaches.trans noFollows.reaches).trans reachesPat).trans added
  have paired := doubledNo.toPaired.binders small
  have stms : (Build.add emitted (withTangents before pat).builder).2.stms =
      s.builder.stms ++ [emitted] := by
    simp [Build.add_apply, withTangents, noFollows.stms, yesFollows.stms, before]
  refine {
    emitted := ⟨[emitted], stms⟩
    reaches := reaches
    doubled := ⟨paired.mono added.next_le rfl, reaches.plain, ?_⟩
    run := fun fuel σ υ δ traces mirrors => ?_ }
  · intro x known
    rcases (mem_after_paramOutline ..).mp known with known | ⟨p, mem, rfl⟩
    · exact reaches.typed x (doubled.typed x known)
    · exact Builder.typed_add emitted _ p (inPat p mem)
  · have ran := (traces_of_emitted stms).mp traces
    simp only [ends_stms_cons, ends_stms_nil, exists_eq_right, ends_stm] at ran
    obtain ⟨vs, τ, taken, -, rfl⟩ := ran
    obtain ⟨c, reads, fits⟩ := mirrors.tracks.typed knownCond isCond (.inr rfl)
    obtain ⟨holds, isBool⟩ := Scalar.eq_bool (v := c.primal) (by simpa using fits.primal.symm)
    have taken := mirrors.tracks.condition knownCond reads isBool taken
    obtain ⟨ds, means, fits, rfl, agree⟩ : ∃ ds,
        (Exp.branch cond yes no (pat.map (·.ty)) sort).Means w δ ds ∧
        List.Forall₂ (Dual.Fits w) (pat.map (·.ty)) ds ∧
        vs = (interleave (ds.map (·.primal)) (ds.map (·.tangent))).map .scalar ∧
        σ.Agree (Kept bound source s) τ := by
      cases holds with
      | true =>
        obtain ⟨ds, means, rest⟩ := yesFollows.run fuel σ τ δ vs taken mirrors
        exact ⟨ds, ⟨c, true, reads, isBool, fun _ => means, by simp⟩, rest⟩
      | false =>
        obtain ⟨ds, means, fits, same, agree⟩ :=
          noFollows.run fuel σ τ δ vs taken ⟨mirrors.tracks, mirrors.shadows⟩
        refine ⟨ds, ⟨c, false, reads, isBool, by simp, fun _ => means⟩, fits, same, agree.mono ?_⟩
        exact fun x kept => kept.imp_right fun drawn =>
          ⟨drawn.1, Nat.lt_of_lt_of_le drawn.2 yesFollows.reaches.next_le⟩
    have there := mirrors.agree doubled.toPaired agree
    have bound := Mirrors.binders (s := before) ⟨there.tracks, there.shadows⟩ doubledNo.toPaired
      accepted small fits
    refine ⟨δ.assign pat ds, ⟨ds, means, fits, rfl⟩, ⟨bound.tracks, bound.shadows⟩,
      agree.trans (.bound τ _ fun x mem kept => ?_)⟩
    obtain ⟨p, inPat', rfl⟩ := List.mem_map.mp mem
    have next_le : s.builder.supply.next ≤ before.builder.supply.next :=
      (yesFollows.reaches.trans noFollows.reaches).next_le
    rcases mem_interleave inPat' with inPat | inTans
    · rcases kept with known | ⟨large, -⟩
      · exact Builder.not_mem_of_params accepted inPat known
      · exact absurd (small p inPat) (Nat.not_lt.mpr large)
    · have large := (bounds_paramsFrom inTans).1
      rcases kept with known | ⟨-, drawn⟩
      · have := doubled.below _ known
        have := doubled.reserved
        omega
      · omega

mutual

/-- The code that the pass emits for a statement of integer code. -/
theorem stm_follows (stm : Stm) {types : NameTable Ty} {source : Scope} {s t : DiffState}
    (code : stm.IntegerCode w types) (accepted : stm.outline.Accepted source)
    (small : Scope.Below stm.outline.binders bound) (doubled : Doubled bound source s)
    (gives : Gives (Forward.stm .standard stm) s () t) :
    Follows w bound types (types.declare stm.pat) source ((paramOutline stm.pat).after source) s t
      fun δ ε => stm.Means w δ ε := by
  obtain ⟨pat, aux, e⟩ := stm
  obtain ⟨pattern, returns⟩ := code
  simp only [Stm.outline, accepted_append, accepted_readsAll, after_readsAll] at accepted
  simp only [Stm.outline, binders_append, binders_readsAll, List.nil_append] at small
  have inPattern : ∀ p ∈ pat, p.name.id < bound := fun p mem =>
    small _ (List.mem_append_right _ ((mem_binders_paramOutline ..).mpr ⟨p, mem, rfl⟩))
  cases e with
  | basic op =>
    obtain ⟨t', alone, returns⟩ := returns
    obtain ⟨p, rfl⟩ : ∃ p, pat = [p] := List.length_eq_one_iff.mp (by simpa using congrArg List.length alone)
    obtain rfl : p.ty = t' := by simpa using alone
    simp only [Exp.outline, BasicOp.outline, accepted_append, accepted_readsAll] at accepted
    have emits : Gives (basicOp .standard ⟨[p], aux, .basic op⟩ op) s () t := by
      cases op with
      | updateAcc acc position values => exact absurd returns (by simp [BasicOp.Returns])
      | _ => exact gives
    have fresh : p.name ∉ source := fun known =>
      Builder.not_mem_of_params (p := p) accepted.2 (by simp) (mem_after _ known)
    have after : (paramOutline [p]).after source = p.name :: source := by
      simp [paramOutline, Param.outline]
    rw [after]
    exact basicOp_follows doubled returns (pattern p (by simp)) accepted.1.2.1.1 fresh
      (inPattern p (by simp)) emits
  | branch cond yes no ret sort =>
    obtain ⟨isCond, rfl, inYes, inNo⟩ := returns
    have within : ∀ t ∈ pat.map (·.ty), t.Within w := by simpa using pattern
    simp only [Exp.outline, accepted_append, accepted_readsAll, after_append, after_readsAll,
      after, Accepted] at accepted
    simp only [Exp.outline, binders_append, binders_readsAll, binders, List.append_nil, List.nil_append]
      at small
    obtain ⟨⟨-, ⟨⟨⟨knownCond, acceptedYes, -⟩, acceptedNo, -⟩, -⟩, -⟩, acceptedPat⟩ := accepted
    have smallYes : Scope.Below yes.outline.binders bound := fun x mem => small x (by simp [mem])
    have smallNo : Scope.Below no.outline.binders bound := fun x mem => small x (by simp [mem])
    exact branch_follows doubled pattern (by simpa using acceptedPat) inPattern isCond knownCond
      (fun c t => body_follows yes inYes within acceptedYes smallYes doubled)
      (fun s doubled c t => body_follows no inNo within acceptedNo smallNo doubled) gives
  | _ => exact absurd returns (by simp [Exp.Returns])

theorem stms_follow (ss : List Stm) {types : NameTable Ty} {source : Scope} {s t : DiffState}
    (code : StmsIntegerCode w types ss) (accepted : (stmOutline ss).Accepted source)
    (small : Scope.Below (stmOutline ss).binders bound) (doubled : Doubled bound source s)
    (gives : Gives (Forward.stms .standard ss) s () t) :
    Follows w bound types (types.declare (ss.flatMap (·.pat))) source ((stmOutline ss).after source)
      s t fun δ ε => StmsMeans w δ ε ss := by
  cases ss with
  | nil =>
    obtain ⟨-, rfl⟩ := (gives_pure ..).mp gives
    exact .refl doubled
  | cons stm ss =>
    obtain ⟨here, rest⟩ := code
    obtain ⟨_, u, first, gives⟩ := (gives_bind ..).mp gives
    rw [stmOutline, accepted_append, after_stm] at accepted
    rw [stmOutline, binders_append] at small
    have step := stm_follows stm here accepted.1 (fun x mem => small x (List.mem_append_left _ mem))
      doubled first
    have steps := stms_follow ss rest accepted.2 (fun x mem => small x (List.mem_append_right _ mem))
      step.doubled gives
    have whole := step.trans steps fun x known => mem_after _ known
    rw [List.flatMap_cons, NameTable.declare, List.map_append, Builder.insertAll_append, stmOutline,
      after_append, after_stm]
    exact whole

theorem body_follows (b : Body) {types : NameTable Ty} {source : Scope} {s t : DiffState} {c : Body}
    {ts : List Ty} (returns : b.Returns w types ts) (within : ∀ t ∈ ts, t.Within w)
    (accepted : b.outline.Accepted source) (small : Scope.Below b.outline.binders bound)
    (doubled : Doubled bound source s) (gives : Gives (Forward.body .standard b) s c t) :
    BodyFollows w bound types source s t ts bundledParts b c := by
  obtain ⟨ss, result⟩ := b
  obtain ⟨code, has⟩ := returns
  simp only [Body.outline, accepted_append, accepted_readsAll, binders_append, binders_readsAll,
    List.append_nil] at accepted small
  refine bodyOf_follows doubled (fun u inside => ?_) accepted.2 within has
    (shows_bundled accepted.2) gives
  have fresh : s.builder.Reaches { s.builder with stms := [] } :=
    ⟨⟨doubled.plain.types, by simp⟩, fun _ known => known, Nat.le_refl _⟩
  exact stms_follow ss code accepted.1 small (doubled.build fresh) inside

end

end Forward

end Cotangent
