import Cotangent.Proofs.Derivative.Steps
import Cotangent.Proofs.Program.ScalarCode
/-!
Differentiation steps on scalar code. As long as every type that is known is scalar, a step that asks
for the type of a name that has one succeeds, and what it emits is scalar code again.
-/
namespace Cotangent

namespace Builder

def Typed (b : Builder) (x : Name) : Prop := ∃ t, b.types.find? x = some t

/-- Everything seen and emitted so far is scalar. -/
structure Plain (b : Builder) : Prop where
  types : ∀ x t, b.types.find? x = some t → t.IsScalar
  stms : ∀ s ∈ b.stms, s.ScalarCode

/-- The later builder has emitted scalar code only, and forgotten no type. -/
structure Reaches (b c : Builder) : Prop where
  plain : c.Plain
  typed : ∀ x, b.Typed x → c.Typed x
  next_le : b.supply.next ≤ c.supply.next

variable {b c d : Builder}

theorem Plain.refl (plain : b.Plain) : b.Reaches b := ⟨plain, fun _ known => known, Nat.le_refl _⟩

theorem Reaches.trans (first : b.Reaches c) (second : c.Reaches d) : b.Reaches d where
  plain := second.plain
  typed x known := second.typed x (first.typed x known)
  next_le := Nat.le_trans first.next_le second.next_le

theorem typed_of_declared {ps : List Param} {types : NameTable Ty} {x : Name}
    (known : (∃ p ∈ ps, p.name = x) ∨ ∃ t, types.find? x = some t) :
    ∃ t, (types.insertAll (ps.map fun p => (p.name, p.ty))).find? x = some t := by
  by_cases declared : ∃ p ∈ ps, p.name = x
  · obtain ⟨t, -, found⟩ := NameTable.find_insertAll_of_mem types
      (ps.map fun p => (p.name, p.ty)) x (by simpa using declared)
    exact ⟨t, found⟩
  · obtain ⟨t, found⟩ := known.resolve_left declared
    refine ⟨t, ?_⟩
    rw [find_declared_of_not_mem types fun p mem same => declared ⟨p, mem, same⟩]
    exact found

/-- Scalar parameters become known. -/
theorem Plain.declare (plain : b.Plain) {ps : List Param} (scalar : ∀ p ∈ ps, p.ty.IsScalar) :
    b.Reaches { b with types := b.types.insertAll (ps.map fun p => (p.name, p.ty)) } where
  plain := {
    types := fun x t found => by
      rcases find_declared found with mem | ⟨-, found⟩
      · exact scalar _ mem
      · exact plain.types x t found
    stms := plain.stms }
  typed x known := typed_of_declared (.inr known)
  next_le := Nat.le_refl _

theorem Plain.draw (plain : b.Plain) {n : Nat} (le : b.supply.next ≤ n) :
    b.Reaches { b with supply := ⟨n⟩ } :=
  ⟨⟨plain.types, plain.stms⟩, fun _ known => known, le⟩

theorem Plain.add (plain : b.Plain) {s : Stm} (code : s.ScalarCode) :
    b.Reaches (Build.add s b).2 := by
  have scalar : ∀ p ∈ s.pat, p.ty.IsScalar := by
    obtain ⟨pat, aux, e⟩ := s
    exact code.1
  have declared := plain.declare scalar
  rw [Build.add_apply]
  refine ⟨⟨declared.plain.types, ?_⟩, declared.typed, declared.next_le⟩
  intro stm mem
  rcases List.mem_append.mp mem with old | new
  · exact plain.stms stm old
  · exact List.mem_singleton.mp new ▸ code

theorem typed_add (s : Stm) (b : Builder) : ∀ p ∈ s.pat, (Build.add s b).2.Typed p.name := by
  intro p mem
  rw [Build.add_apply]
  exact typed_of_declared (.inl ⟨p, mem, rfl⟩)

theorem Plain.letExp (plain : b.Plain) {k : ScalarType} {e : Exp} (code : e.ScalarCode 1) :
    b.Reaches (Build.letExp (.scalar k) e b).2 := by
  have drawn := plain.draw (Nat.le_succ b.supply.next)
  exact drawn.trans (drawn.plain.add (s := ⟨[⟨⟨b.supply.next⟩, .scalar k⟩], .none, e⟩)
    ⟨by simp [Ty.IsScalar], code⟩)

/-! Formulas. -/

/-- The statements for the operands of a formula are scalar code, and so is its last operation. -/
def Lowers (f : Formula) : Prop := ∀ b : Builder, b.Plain →
  b.Reaches (Build.expOf f b).2 ∧ (Build.expOf f b).1.ScalarCode 1

theorem Lowers.operand {f : Formula} (lowers : Lowers f) (plain : b.Plain) :
    b.Reaches (Build.lower f b).2 := by
  have composite (e : Build.lower f b = (do
      let e ← Build.expOf f
      let x ← Build.letExp (.scalar f.ty) e
      return .var x : Build Operand) b) : b.Reaches (Build.lower f b).2 := by
    obtain ⟨reaches, code⟩ := lowers b plain
    rw [e]
    exact reaches.trans (reaches.plain.letExp code)
  cases f with
  | leaf x t => exact plain.refl
  | lit v => exact plain.refl
  | _ => exact composite rfl

mutual

theorem lowers (f : Formula) (known : f.Known) : Lowers f := by
  intro b plain
  cases f with
  | leaf x t => exact ⟨plain.refl, trivial⟩
  | lit v => exact ⟨plain.refl, trivial⟩
  | unary op a => exact ⟨(lowers a known).operand plain, trivial⟩
  | binary op x y =>
    have first := (lowers x known.1).operand plain
    exact ⟨first.trans ((lowers y known.2).operand first.plain), trivial⟩
  | compare op x y =>
    have first := (lowers x known.1).operand plain
    exact ⟨first.trans ((lowers y known.2).operand first.plain), trivial⟩
  | convert op a => exact ⟨(lowers a known).operand plain, trivial⟩
  | call func args t =>
    obtain ⟨reaches, length⟩ := lowers_list args known.2 b plain
    exact ⟨reaches, rfl, length.symm ▸ known.1, t, rfl⟩

theorem lowers_list (fs : List Formula) (known : FormulasKnown fs) (b : Builder) (plain : b.Plain) :
    b.Reaches (Build.operandsOf fs b).2 ∧ (Build.operandsOf fs b).1.length = fs.length := by
  cases fs with
  | nil => exact ⟨plain.refl, rfl⟩
  | cons f fs =>
    have first := (lowers f known.1).operand plain
    obtain ⟨rest, length⟩ := lowers_list fs known.2 _ first.plain
    exact ⟨first.trans rest, congrArg Nat.succ length⟩

end

theorem Plain.bindFormula (plain : b.Plain) {p : Param} (scalar : p.ty.IsScalar)
    (aux : Annotations) {f : Formula} (known : f.Known) :
    b.Reaches (Build.bindFormula p aux f b).2 := by
  obtain ⟨reaches, code⟩ := lowers f known b plain
  exact reaches.trans (reaches.plain.add (s := ⟨[p], aux, (Build.expOf f b).1⟩)
    ⟨by simpa using scalar, code⟩)

theorem Plain.letFormula (plain : b.Plain) {f : Formula} (known : f.Known) :
    b.Reaches (Build.letFormula f b).2 := by
  have drawn := plain.draw (Nat.le_succ b.supply.next)
  exact drawn.trans (drawn.plain.bindFormula (p := ⟨⟨b.supply.next⟩, .scalar f.ty⟩) ⟨_, rfl⟩ .none
    known)

theorem emit_reaches {ss : List Stm} (plain : b.Plain) (code : ∀ s ∈ ss, s.ScalarCode) :
    b.Reaches (b.emit ss) := by
  induction ss generalizing b with
  | nil => exact (emit_nil b).symm ▸ plain.refl
  | cons s ss ih =>
    rw [emit_cons]
    have first := plain.add (code s (by simp))
    exact first.trans (ih first.plain fun t mem => code t (by simp [mem]))

end Builder

namespace Diff

variable {α β : Type} {s t : DiffState}

/-- The action succeeds, emits scalar code only, and what it yields has the property. -/
def Works (m : Diff α) (s : DiffState) (P : α → DiffState → Prop) : Prop :=
  ∃ a t, Gives m s a t ∧ s.builder.Reaches t.builder ∧ P a t

/-- The action succeeds and emits scalar code only. -/
abbrev Passes (m : Diff α) (s : DiffState) : Prop := Works m s fun _ _ => True

theorem Works.bind {m : Diff α} {f : α → Diff β} {P : α → DiffState → Prop}
    {Q : β → DiffState → Prop} (first : Works m s P)
    (rest : ∀ a t, s.builder.Reaches t.builder → P a t → Works (f a) t Q) :
    Works (m >>= f) s Q := by
  obtain ⟨a, t, gives, reaches, here⟩ := first
  obtain ⟨b, u, gives', reaches', there⟩ := rest a t reaches here
  exact ⟨b, u, gives.bind gives', reaches.trans reaches', there⟩

theorem Works.mono {m : Diff α} {P Q : α → DiffState → Prop} (works : Works m s P)
    (sub : ∀ a t, s.builder.Reaches t.builder → P a t → Q a t) : Works m s Q := by
  obtain ⟨a, t, gives, reaches, here⟩ := works
  exact ⟨a, t, gives, reaches, sub a t reaches here⟩

theorem works_pure (plain : s.builder.Plain) {a : α} {P : α → DiffState → Prop}
    (here : P a s) : Works (pure a) s P :=
  ⟨a, s, .pure a s, plain.refl, here⟩

theorem works_build {m : Build α} (reaches : s.builder.Reaches (m s.builder).2) :
    Works (build m) s fun a t => a = (m s.builder).1 ∧ t.builder = (m s.builder).2 :=
  ⟨_, _, .build m s, reaches, rfl, rfl⟩

theorem works_setCompanion (plain : s.builder.Plain) (x c : Name) : Passes (setCompanion x c) s :=
  ⟨(), _, (gives_setCompanion ..).mpr rfl, ⟨plain, fun _ known => known, Nat.le_refl _⟩, trivial⟩

theorem works_typeOf (plain : s.builder.Plain) {x : Name} (typed : s.builder.Typed x) :
    Works (typeOf x) s fun t u => t.IsScalar ∧ s = u := by
  obtain ⟨t, found⟩ := typed
  exact ⟨t, s, (gives_typeOf ..).mpr ⟨found, rfl⟩, plain.refl, plain.types x t found, rfl⟩

theorem works_single {mode : Mode} {stm : Stm} {p : Param} (plain : s.builder.Plain)
    (alone : stm.pat = [p]) : Works (single mode stm) s fun q u => q = p ∧ s = u :=
  ⟨p, s, (gives_single ..).mpr ⟨alone, rfl⟩, plain.refl, rfl, rfl⟩

/-- The companion of a name is at hand, or it is the zero of a scalar type. -/
theorem works_companion (plain : s.builder.Plain) {x : Name} (typed : s.builder.Typed x) :
    Passes (companion x) s := by
  have found : Works (companion? x) s fun a u => a = s.companions.find? x ∧ s = u :=
    ⟨_, s, (gives_companion? ..).mpr ⟨rfl, rfl⟩, plain.refl, rfl, rfl⟩
  refine found.bind ?_
  rintro a _ - ⟨rfl, rfl⟩
  cases s.companions.find? x with
  | some c => exact works_pure plain trivial
  | none =>
    have zero : Passes (zeroOf x) s := by
      refine (works_typeOf plain typed).bind ?_
      rintro _ _ - ⟨⟨k, rfl⟩, rfl⟩
      refine (works_build (plain.letExp ?_)).mono fun _ _ _ _ => trivial
      exact trivial
    refine zero.bind fun c u reaches _ => ?_
    exact (works_setCompanion reaches.plain x c).bind fun _ v further _ =>
      works_pure further.plain trivial

theorem works_forM {f : α → Diff Unit} {xs : List α} (plain : s.builder.Plain)
    (step : ∀ a ∈ xs, ∀ t, s.builder.Reaches t.builder → Passes (f a) t) : Passes (xs.forM f) s := by
  induction xs generalizing s with
  | nil => exact works_pure plain trivial
  | cons a xs ih =>
    rw [List.forM_eq_forM, List.forM_cons, ← List.forM_eq_forM]
    refine (step a (by simp) s plain.refl).bind fun _ t reaches _ => ?_
    exact ih reaches.plain fun b mem u further => step b (by simp [mem]) u (reaches.trans further)

theorem works_mapM {f : α → Diff β} {xs : List α} {P : β → Prop} (plain : s.builder.Plain)
    (step : ∀ a ∈ xs, ∀ t, s.builder.Reaches t.builder → Works (f a) t fun b _ => P b) :
    Works (xs.mapM f) s fun bs _ => bs.length = xs.length ∧ ∀ b ∈ bs, P b := by
  induction xs generalizing s with
  | nil => exact works_pure plain ⟨rfl, by simp⟩
  | cons a xs ih =>
    rw [List.mapM_cons]
    refine (step a (by simp) s plain.refl).bind fun b t reaches here => ?_
    refine (ih reaches.plain fun c mem u further =>
      step c (by simp [mem]) u (reaches.trans further)).bind fun bs u further rest => ?_
    exact works_pure further.plain ⟨by simp [rest.1], List.forall_mem_cons.mpr ⟨here, rest.2⟩⟩

theorem works_signature {func : String} {count : Nat} (plain : s.builder.Plain)
    (known : KnownCall func count) : Works (signature .standard func) s fun sig u =>
      Rules.standard.signature func = some sig ∧ count = sig.1.length ∧ s = u := by
  obtain ⟨sig, found, length⟩ := known
  exact ⟨sig, s, (gives_signature ..).mpr ⟨found, rfl⟩, plain.refl, found, length, rfl⟩

theorem works_partials {func : String} {kinds : List ScalarType} {ret : ScalarType}
    {args : List Operand} (plain : s.builder.Plain)
    (found : Rules.standard.signature func = some (kinds, ret)) (length : args.length = kinds.length) :
    Works (partials .standard func kinds args) s fun ds u => (∀ d ∈ ds, d.Known) ∧ s = u := by
  obtain ⟨ds, partials⟩ := complete_standard func (kinds, ret)
    ((kinds.zip args).map fun a => Formula.ofOperand a.1 a.2) found (by simp [length])
  refine ⟨ds, s, (gives_partials ..).mpr ⟨partials, rfl⟩, plain.refl, ?_, rfl⟩
  refine known_builtin partials fun f mem => ?_
  obtain ⟨a, -, rfl⟩ := List.mem_map.mp mem
  exact Formula.known_ofOperand a.1 a.2

/-- A body is built on an empty statement list, and those from before are put back. -/
theorem works_bodyOf {stms : Diff Unit} {result : Diff (List Operand)} (plain : s.builder.Plain)
    (first : ∀ u : DiffState, u.companions = s.companions → s.builder.Reaches u.builder →
      Works (do stms; result) u fun _ _ => True) :
    Works (bodyOf stms result) s fun b _ => b.ScalarCode := by
  let inner : DiffState := { s with builder := { s.builder with stms := [] } }
  have start : s.builder.Reaches inner.builder :=
    ⟨⟨plain.types, by simp [inner]⟩, fun _ known => known, Nat.le_refl _⟩
  obtain ⟨xs, v, gives, reaches, -⟩ := first inner rfl start
  obtain ⟨_, u, gives, result⟩ := (gives_bind ..).mp gives
  refine ⟨⟨v.builder.stms, xs⟩, _, (gives_bodyOf ..).mpr ⟨u, v, gives, result, rfl, rfl⟩, ?_, ?_⟩
  · exact ⟨⟨reaches.plain.types, plain.stms⟩, reaches.typed, reaches.next_le⟩
  · exact (body_scalarCode _).mpr reaches.plain.stms

theorem works_within {act : Diff α} {P : α → Prop} (works : Works act s fun a _ => P a) :
    Works (within act) s fun a _ => P a := by
  obtain ⟨a, u, gives, reaches, here⟩ := works
  exact ⟨a, _, (gives_within ..).mpr ⟨u, gives, rfl⟩, reaches, here⟩

theorem works_isolated {act : Diff α} {P : α → Prop}
    (works : Works act { s with companions := .empty } fun a _ => P a) :
    Works (isolated act) s fun a _ => P a := by
  obtain ⟨a, u, gives, reaches, here⟩ := works
  exact ⟨a, _, (gives_isolated ..).mpr ⟨u, gives, rfl⟩, reaches, here⟩

end Diff

end Cotangent
