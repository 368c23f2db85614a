import Cotangent.Derivative.Context
import Cotangent.Proofs.Derivative.Steps
/-!
Which names an action gives a type. The types are not scoped, so a name of the program keeps its type
only as long as nothing declares it again. `Declares` says that an action declares fresh names and
names from a given set alone, also where it fails; it composes, so that an action is followed step by
step, on arbitrary programs.
-/
namespace Cotangent

variable {α β : Type} {on : Name → Prop} {n : Nat}

/-- The supply is past `n`, and of the names below `n` only those in `on` may have a new type. -/
structure Builder.Frame (on : Name → Prop) (n : Nat) (b c : Builder) : Prop where
  next_le : n ≤ c.supply.next
  kept : ∀ x, x.id < n → ¬ on x → c.types.find? x = b.types.find? x

namespace Builder

variable {b c d : Builder}

theorem Frame.refl (past : n ≤ b.supply.next) : b.Frame on n b := ⟨past, fun _ _ _ => rfl⟩

theorem Frame.trans (first : b.Frame on n c) (second : c.Frame on n d) : b.Frame on n d where
  next_le := second.next_le
  kept x below other := (second.kept x below other).trans (first.kept x below other)

theorem Frame.mono {wider : Name → Prop} (frame : b.Frame on n c) (sub : ∀ x, on x → wider x) :
    b.Frame wider n c where
  next_le := frame.next_le
  kept x below other := frame.kept x below fun known => other (sub x known)

/-- Types for any number of names, each of which is fresh or may be declared. -/
theorem frame_declared {ps : List Param} (past : n ≤ c.supply.next) (types : NameTable Ty)
    (same : c.types = types.insertAll (ps.map fun p => (p.name, p.ty))) (before : b.types = types)
    (free : ∀ p ∈ ps, on p.name ∨ n ≤ p.name.id) : b.Frame on n c where
  next_le := past
  kept x below other := by
    rw [same, before]
    refine NameTable.find_insertAll_of_not_mem _ _ _ fun q mem => ?_
    obtain ⟨p, inPs, rfl⟩ := List.mem_map.mp mem
    rintro rfl
    rcases free p inPs with known | fresh
    · exact other known
    · exact absurd below (Nat.not_lt.mpr fresh)

end Builder

/-! Builders. -/

namespace Build

variable {P : α → Prop} {Q : β → Prop}

/-- From a supply past `n` on, the action declares fresh names and names in `on` only. -/
def Declares (on : Name → Prop) (n : Nat) (act : Build α) (P : α → Prop) : Prop :=
  ∀ b : Builder, n ≤ b.supply.next → b.Frame on n (act b).2 ∧ P (act b).1

theorem Declares.bind {act : Build α} {f : α → Build β} (first : Declares on n act P)
    (rest : ∀ a, P a → Declares on n (f a) Q) : Declares on n (act >>= f) Q := by
  intro b past
  obtain ⟨frame, holds⟩ := first b past
  obtain ⟨further, holds⟩ := rest _ holds _ frame.next_le
  exact ⟨frame.trans further, holds⟩

theorem declares_pure {a : α} (holds : P a) : Declares on n (pure a) P :=
  fun _ past => ⟨.refl past, holds⟩

theorem declares_fresh : Declares on n fresh fun x => n ≤ x.id :=
  fun _ past => ⟨⟨Nat.le_succ_of_le past, fun _ _ _ => rfl⟩, past⟩

theorem declares_declareParams {ps : List Param} (free : ∀ p ∈ ps, on p.name ∨ n ≤ p.name.id) :
    Declares on n (declareParams ps) fun _ => True := by
  intro b past
  rw [declareParams_apply]
  exact ⟨Builder.frame_declared past b.types rfl rfl free, trivial⟩

theorem declares_declare {x : Name} {t : Ty} (free : on x ∨ n ≤ x.id) :
    Declares on n (declare x t) fun _ => True :=
  declares_declareParams (by simpa using free : ∀ p ∈ [Param.mk x t], on p.name ∨ n ≤ p.name.id)

theorem declares_add {s : Stm} (free : ∀ p ∈ s.pat, on p.name ∨ n ≤ p.name.id) :
    Declares on n (add s) fun _ => True := by
  intro b past
  rw [add_apply]
  exact ⟨Builder.frame_declared past b.types rfl rfl free, trivial⟩

theorem declares_letExp (t : Ty) (e : Exp) : Declares on n (letExp t e) fun x => n ≤ x.id :=
  declares_fresh.bind fun _ fresh =>
    (declares_add (by simpa using Or.inr fresh)).bind fun _ _ => declares_pure fresh

theorem declares_operandOf (f : Formula) {e : Build Exp} (inside : Declares on n e fun _ => True) :
    Declares on n (operandOf f e) fun _ => True := by
  have bound (t : ScalarType) : Declares on n (do
      let e ← e
      let x ← letExp (.scalar t) e
      return .var x : Build Operand) fun _ => True :=
    inside.bind fun e _ => (declares_letExp _ e).bind fun _ _ => declares_pure trivial
  cases f with
  | leaf x t => exact declares_pure trivial
  | lit v => exact declares_pure trivial
  | _ => exact bound _

mutual

theorem declares_expOf (f : Formula) : Declares on n (expOf f) fun _ => True := by
  cases f with
  | leaf x t => exact declares_pure trivial
  | lit v => exact declares_pure trivial
  | unary op a =>
    exact (declares_operandOf a (declares_expOf a)).bind fun _ _ => declares_pure trivial
  | binary op a b =>
    exact (declares_operandOf a (declares_expOf a)).bind fun _ _ =>
      (declares_operandOf b (declares_expOf b)).bind fun _ _ => declares_pure trivial
  | compare op a b =>
    exact (declares_operandOf a (declares_expOf a)).bind fun _ _ =>
      (declares_operandOf b (declares_expOf b)).bind fun _ _ => declares_pure trivial
  | convert op a =>
    exact (declares_operandOf a (declares_expOf a)).bind fun _ _ => declares_pure trivial
  | call func args t => exact (declares_operandsOf args).bind fun _ _ => declares_pure trivial

theorem declares_operandsOf (fs : List Formula) :
    Declares on n (operandsOf fs) fun _ => True := by
  cases fs with
  | nil => exact declares_pure trivial
  | cons f fs =>
    exact (declares_operandOf f (declares_expOf f)).bind fun _ _ =>
      (declares_operandsOf fs).bind fun _ _ => declares_pure trivial

end

theorem declares_bindFormula {p : Param} (free : on p.name ∨ n ≤ p.name.id) (aux : Annotations)
    (f : Formula) : Declares on n (bindFormula p aux f) fun _ => True :=
  (declares_expOf f).bind fun _ _ => declares_add (by simpa using free)

end Build

/-! Actions that may fail. -/

namespace Diff

variable {P : α → NameTable Ty → Prop} {Q : β → NameTable Ty → Prop}

/-- From a supply past `n` on, the action declares fresh names and names in `on` only, also if it
    fails. Its result, if there is one, has the property together with the types at the end. -/
def Declares (on : Name → Prop) (n : Nat) (act : Diff α) (P : α → NameTable Ty → Prop) : Prop :=
  ∀ s : DiffState, n ≤ s.builder.supply.next →
    s.builder.Frame on n (outcome act s).2.builder ∧
      ∀ a, (outcome act s).1 = .ok a → P a (outcome act s).2.builder.types

/-- Nothing is said of the result. -/
abbrev DeclaresOnly (on : Name → Prop) (n : Nat) (act : Diff α) : Prop :=
  Declares on n act fun _ _ => True

/-- The rest may rely on what it finds, and declare fewer names. -/
theorem Declares.sequence {act : Diff α} {f : α → Diff β} {later : Name → Prop}
    {R : β → NameTable Ty → Prop} (first : Declares on n act P)
    (rest : ∀ a, Declares later n (f a) Q) (sub : ∀ x, later x → on x)
    (carry : ∀ a b before after, P a before → Q b after →
      (∀ x, x.id < n → ¬ later x → after.find? x = before.find? x) → R b after) :
    Declares on n (act >>= f) R := by
  intro s past
  obtain ⟨frame, holds⟩ := first s past
  rw [outcome_bind]
  cases ran : outcome act s with
  | mk r t =>
    rw [ran] at frame holds
    cases r with
    | error e => exact ⟨frame, fun b succeeded => by cases succeeded⟩
    | ok a =>
      obtain ⟨further, after⟩ := rest a t frame.next_le
      refine ⟨frame.trans (further.mono sub), fun b succeeded => ?_⟩
      exact carry a b _ _ (holds a rfl) (after b succeeded) further.kept

theorem Declares.bind {act : Diff α} {f : α → Diff β} (first : Declares on n act P)
    (rest : ∀ a types, P a types → Declares on n (f a) Q) : Declares on n (act >>= f) Q := by
  intro s past
  obtain ⟨frame, holds⟩ := first s past
  rw [outcome_bind]
  cases ran : outcome act s with
  | mk r t =>
    rw [ran] at frame holds
    cases r with
    | error e => exact ⟨frame, fun b succeeded => by cases succeeded⟩
    | ok a =>
      obtain ⟨further, after⟩ := rest a _ (holds a rfl) t frame.next_le
      exact ⟨frame.trans further, after⟩

theorem Declares.mono {act : Diff α} {P' : α → NameTable Ty → Prop} (declares : Declares on n act P)
    (sub : ∀ a types, P a types → P' a types) : Declares on n act P' := by
  intro s past
  obtain ⟨frame, holds⟩ := declares s past
  exact ⟨frame, fun a succeeded => sub a _ (holds a succeeded)⟩

theorem declares_pure {a : α} (holds : ∀ types, P a types) : Declares on n (pure a) P := by
  intro s past
  refine ⟨.refl past, fun b succeeded => ?_⟩
  obtain rfl : a = b := Except.ok.inj succeeded
  exact holds _

theorem declaresOnly_pure {a : α} : DeclaresOnly on n (pure a) := declares_pure fun _ => trivial

theorem declares_throw (e : DiffError) : Declares on n (throw e : Diff α) P :=
  fun _ past => ⟨.refl past, fun _ succeeded => by cases succeeded⟩

theorem declares_build {R : α → Prop} {act : Build α} (declares : Build.Declares on n act R) :
    Declares on n (build act) fun a _ => R a := by
  intro s past
  obtain ⟨frame, holds⟩ := declares s.builder past
  refine ⟨frame, fun a succeeded => ?_⟩
  obtain rfl := Except.ok.inj succeeded
  exact holds

theorem declares_mapM {R : α → β → Prop} {f : α → Diff β} {xs : List α}
    (each : ∀ x ∈ xs, Declares on n (f x) fun y _ => R x y) :
    Declares on n (xs.mapM f) fun ys _ => List.Forall₂ R xs ys := by
  induction xs with
  | nil => exact declares_pure fun _ => .nil
  | cons x xs ih =>
    rw [List.mapM_cons]
    refine (each x (by simp)).bind fun y _ here => ?_
    exact (ih fun z mem => each z (by simp [mem])).bind fun ys _ rest =>
      declares_pure fun _ => .cons here rest

theorem declaresOnly_mapM {f : α → Diff β} {xs : List α} (each : ∀ x ∈ xs, DeclaresOnly on n (f x)) :
    DeclaresOnly on n (xs.mapM f) :=
  (declares_mapM (R := fun _ _ => True) each).mono fun _ _ _ => trivial

theorem declaresOnly_typeOf (x : Name) : DeclaresOnly on n (typeOf x) := by
  intro s past
  have asks : (outcome (typeOf x) s).2 = s := by
    have read : outcome (get : Diff DiffState) s = (.ok s, s) := rfl
    simp only [typeOf, outcome_bind, read]
    cases s.builder.ty x <;> rfl
  refine ⟨?_, fun _ _ => trivial⟩
  rw [asks]
  exact .refl past

theorem declaresOnly_companion? (x : Name) : DeclaresOnly on n (companion? x) :=
  fun _ past => ⟨.refl past, fun _ _ => trivial⟩

theorem declaresOnly_setCompanion (x c : Name) : DeclaresOnly on n (setCompanion x c) :=
  fun _ past => ⟨⟨past, fun _ _ _ => rfl⟩, fun _ _ => trivial⟩

theorem Declares.within {act : Diff α} (declares : Declares on n act P) :
    Declares on n (within act) P := by
  intro s past
  obtain ⟨frame, holds⟩ := declares s past
  exact ⟨⟨frame.next_le, frame.kept⟩, holds⟩

/-- The statements are set aside; the types stay. -/
theorem declaresOnly_collect {act : Diff α} (declares : DeclaresOnly on n act) :
    DeclaresOnly on n (collect act) := by
  intro s past
  obtain ⟨frame, -⟩ := declares { s with builder := { s.builder with stms := [] } } past
  exact ⟨⟨frame.next_le, frame.kept⟩, fun _ _ => trivial⟩

theorem declaresOnly_bodyOf {stms : Diff Unit} {result : Diff (List Operand)}
    (inStms : DeclaresOnly on n stms) (inResult : DeclaresOnly on n result) :
    DeclaresOnly on n (bodyOf stms result) :=
  (declaresOnly_collect (inStms.bind fun _ _ _ => inResult)).bind fun _ _ _ => declaresOnly_pure

/-! Zeros, companions and rules declare fresh names at most. -/

theorem declaresOnly_zeroOf (x : Name) : DeclaresOnly on n (zeroOf x) := by
  refine (declaresOnly_typeOf x).bind fun t _ _ => ?_
  cases zeroExp t with
  | some e => exact (declares_build (Build.declares_letExp t e)).mono fun _ _ _ => trivial
  | none => exact declares_throw _

theorem declaresOnly_zeroOperand (x : Operand) : DeclaresOnly on n (zeroOperand x) := by
  cases x with
  | const v => exact declaresOnly_pure
  | var x =>
    refine (declaresOnly_typeOf x).bind fun t _ _ => ?_
    have lazily : DeclaresOnly on n (do return .var (← zeroOf x) : Diff Operand) :=
      (declaresOnly_zeroOf x).bind fun _ _ _ => declaresOnly_pure
    cases t with
    | scalar k => exact declaresOnly_pure
    | _ => exact lazily

theorem declaresOnly_companion (x : Name) : DeclaresOnly on n (companion x) := by
  refine (declaresOnly_companion? x).bind fun found _ _ => ?_
  cases found with
  | some c => exact declaresOnly_pure
  | none =>
    exact (declaresOnly_zeroOf x).bind fun c _ _ =>
      (declaresOnly_setCompanion x c).bind fun _ _ _ => declaresOnly_pure

theorem declares_single (mode : Mode) (s : Stm) :
    Declares on n (single mode s) fun p _ => p ∈ s.pat := by
  unfold single
  split
  · rename_i p pat
    exact declares_pure fun _ => by simp [pat]
  · exact declares_throw _

theorem declaresOnly_signature (rules : Rules) (func : String) :
    DeclaresOnly on n (signature rules func) := by
  unfold signature
  split
  · exact declaresOnly_pure
  · exact declares_throw _

theorem declaresOnly_partials (rules : Rules) (func : String) (kinds : List ScalarType)
    (args : List Operand) : DeclaresOnly on n (partials rules func kinds args) := by
  unfold partials
  split
  · exact declaresOnly_pure
  · exact declares_throw _

end Diff

end Cotangent
