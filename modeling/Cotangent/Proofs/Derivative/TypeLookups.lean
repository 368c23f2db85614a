import Cotangent.Derivative.Reverse
import Cotangent.Proofs.Derivative.ScalarSteps
/-!
Types that are asked for while a program is transformed. Nothing takes a type back, so a name that was
declared once has a type from then on. `Resolves` says of an action that it asks for no type that is
missing, whatever else it may fail of; it composes, so that an action is followed step by step, on
arbitrary programs.
-/
namespace Cotangent

/-- Names may have been drawn and declared in between, and no type was forgotten. -/
structure Builder.Later (b c : Builder) : Prop where
  typed : ∀ x, b.Typed x → c.Typed x
  next_le : b.supply.next ≤ c.supply.next

namespace Builder

variable {b c d : Builder}

theorem Later.refl (b : Builder) : b.Later b := ⟨fun _ known => known, Nat.le_refl _⟩

theorem Later.trans (first : b.Later c) (second : c.Later d) : b.Later d where
  typed x known := second.typed x (first.typed x known)
  next_le := Nat.le_trans first.next_le second.next_le

theorem later_declared (b : Builder) (ps : List Param) :
    b.Later { b with types := b.types.insertAll (ps.map fun p => (p.name, p.ty)) } where
  typed _ known := typed_of_declared (.inr known)
  next_le := Nat.le_refl _

end Builder

/-! Builders. -/

namespace Build

variable {α β : Type}

/-- The action forgets no type and puts no name back. -/
def Retains (act : Build α) : Prop := ∀ b : Builder, b.Later (act b).2

theorem retains_pure (a : α) : Retains (pure a) := fun b => .refl b

theorem Retains.bind {act : Build α} {f : α → Build β} (first : Retains act)
    (rest : ∀ a, Retains (f a)) : Retains (act >>= f) :=
  fun b => (first b).trans (rest _ _)

theorem retains_fresh : Retains fresh := fun _ => ⟨fun _ known => known, Nat.le_succ _⟩

theorem retains_declare (x : Name) (t : Ty) : Retains (declare x t) :=
  fun b => b.later_declared [⟨x, t⟩]

theorem typed_declare (x : Name) (t : Ty) (b : Builder) : (declare x t b).2.Typed x := by
  have bound : ∃ p ∈ [Param.mk x t], p.name = x := ⟨⟨x, t⟩, by simp, rfl⟩
  exact Builder.typed_of_declared (.inl bound)

theorem retains_declareParams (ps : List Param) : Retains (declareParams ps) := by
  intro b
  rw [declareParams_apply]
  exact b.later_declared ps

theorem typed_declareParams (ps : List Param) (b : Builder) :
    ∀ p ∈ ps, (declareParams ps b).2.Typed p.name := by
  intro p mem
  rw [declareParams_apply]
  exact Builder.typed_of_declared (.inl ⟨p, mem, rfl⟩)

theorem retains_add (s : Stm) : Retains (add s) := by
  intro b
  rw [add_apply]
  have declared := b.later_declared s.pat
  exact ⟨declared.typed, declared.next_le⟩

theorem retains_letExp (t : Ty) (e : Exp) : Retains (letExp t e) :=
  retains_fresh.bind fun x => (retains_add ⟨[⟨x, t⟩], .none, e⟩).bind fun _ => retains_pure x

theorem retains_param (t : Ty) : Retains (param t) :=
  retains_fresh.bind fun x => (retains_declare x t).bind fun _ => retains_pure _

theorem retains_operandOf (f : Formula) {e : Build Exp} (inside : Retains e) :
    Retains (operandOf f e) := by
  have bound (t : ScalarType) : Retains (do
      let e ← e
      let x ← letExp (.scalar t) e
      return .var x : Build Operand) :=
    inside.bind fun e => (retains_letExp _ e).bind fun x => retains_pure _
  cases f with
  | leaf x t => exact retains_pure _
  | lit v => exact retains_pure _
  | _ => exact bound _

mutual

theorem retains_expOf (f : Formula) : Retains (expOf f) := by
  cases f with
  | leaf x t => exact retains_pure _
  | lit v => exact retains_pure _
  | unary op a => exact (retains_operandOf a (retains_expOf a)).bind fun _ => retains_pure _
  | binary op a b =>
    exact (retains_operandOf a (retains_expOf a)).bind fun _ =>
      (retains_operandOf b (retains_expOf b)).bind fun _ => retains_pure _
  | compare op a b =>
    exact (retains_operandOf a (retains_expOf a)).bind fun _ =>
      (retains_operandOf b (retains_expOf b)).bind fun _ => retains_pure _
  | convert op a => exact (retains_operandOf a (retains_expOf a)).bind fun _ => retains_pure _
  | call func args t => exact (retains_operandsOf args).bind fun _ => retains_pure _

theorem retains_operandsOf (fs : List Formula) : Retains (operandsOf fs) := by
  cases fs with
  | nil => exact retains_pure _
  | cons f fs =>
    exact (retains_operandOf f (retains_expOf f)).bind fun _ =>
      (retains_operandsOf fs).bind fun _ => retains_pure _

end

theorem retains_bindFormula (p : Param) (aux : Annotations) (f : Formula) :
    Retains (bindFormula p aux f) :=
  (retains_expOf f).bind fun e => retains_add ⟨[p], aux, e⟩

theorem retains_letFormula (f : Formula) : Retains (letFormula f) :=
  retains_fresh.bind fun x => (retains_bindFormula _ _ f).bind fun _ => retains_pure x

theorem Retains.collect {act : Build α} (inside : Retains act) : Retains (collect act) := by
  intro b
  obtain ⟨typed, next_le⟩ := inside { b with stms := [] }
  exact ⟨typed, next_le⟩

theorem retains_mapM {f : α → Build β} (each : ∀ a, Retains (f a)) (xs : List α) :
    Retains (xs.mapM f) := by
  induction xs with
  | nil => exact retains_pure []
  | cons a xs ih =>
    rw [List.mapM_cons]
    exact (each a).bind fun b => ih.bind fun bs => retains_pure (b :: bs)

theorem retains_sum (elem : ScalarType) (unique : Bool) (shape : List Operand) (x y : Name) :
    Retains (sum elem unique shape x y) := by
  induction shape generalizing x y with
  | nil => exact retains_letFormula _
  | cons width shape ih =>
    exact (retains_param _).bind fun a => (retains_param _).bind fun b =>
      (ih a.name b.name).collect.bind fun _ => retains_letExp _ _

end Build

/-! Actions that may fail. -/

namespace Diff

variable {α β γ : Type} {s t : DiffState} {P : α → DiffState → Prop} {Q : β → DiffState → Prop}

/-- The action forgets no type, asks for none that is missing, and has the property if it succeeds. -/
structure Resolves (act : Diff α) (s : DiffState) (P : α → DiffState → Prop) : Prop where
  later : s.builder.Later (outcome act s).2.builder
  holds : ∀ a, (outcome act s).1 = .ok a → P a (outcome act s).2
  resolved : ∀ x, (outcome act s).1 ≠ .error (.build x)

/-- Nothing is said of the result. -/
abbrev Resolved (act : Diff α) (s : DiffState) : Prop := Resolves act s fun _ _ => True

theorem Resolves.bind {act : Diff α} {f : α → Diff β} (first : Resolves act s P)
    (rest : ∀ a t, s.builder.Later t.builder → P a t → Resolves (f a) t Q) :
    Resolves (act >>= f) s Q := by
  obtain ⟨later, holds, resolved⟩ := first
  have ran := outcome_bind act f s
  cases came : outcome act s with
  | mk r t =>
    rw [came] at later holds resolved ran
    cases r with
    | error e =>
      have ran : outcome (act >>= f) s = (.error e, t) := ran
      refine ⟨ran ▸ later, fun b succeeded => ?_, fun x => ?_⟩
      · rw [ran] at succeeded
        cases succeeded
      · rw [ran]
        exact fun same => resolved x (congrArg Except.error (Except.error.inj same))
    | ok a =>
      have ran : outcome (act >>= f) s = outcome (f a) t := ran
      obtain ⟨further, holds', resolved'⟩ := rest a t later (holds a rfl)
      exact ⟨ran ▸ later.trans further, ran ▸ holds', ran ▸ resolved'⟩

theorem Resolves.mono {act : Diff α} {P' : α → DiffState → Prop} (resolves : Resolves act s P)
    (sub : ∀ a t, s.builder.Later t.builder → P a t → P' a t) : Resolves act s P' where
  later := resolves.later
  holds a succeeded := sub a _ resolves.later (resolves.holds a succeeded)
  resolved := resolves.resolved

theorem resolves_pure {a : α} (here : P a s) : Resolves (pure a) s P where
  later := .refl _
  holds b succeeded := by
    obtain rfl : a = b := Except.ok.inj succeeded
    exact here
  resolved _ same := by cases same

theorem resolves_throw {e : DiffError} (other : ∀ x, e ≠ .build x) :
    Resolves (throw e : Diff α) s P where
  later := .refl _
  holds _ succeeded := by cases succeeded
  resolved x same := other x (Except.error.inj same)

theorem resolves_build {act : Build α} (retains : Build.Retains act) :
    Resolves (build act) s fun a t => a = (act s.builder).1 ∧ t.builder = (act s.builder).2 where
  later := retains s.builder
  holds _ succeeded := ⟨(Except.ok.inj succeeded).symm, rfl⟩
  resolved _ same := by cases same

theorem resolved_build {act : Build α} (retains : Build.Retains act) : Resolved (build act) s :=
  (resolves_build retains).mono fun _ _ _ _ => trivial

theorem resolves_typeOf {x : Name} (typed : s.builder.Typed x) :
    Resolves (typeOf x) s fun t u => s.builder.types.find? x = some t ∧ s = u := by
  obtain ⟨t, found⟩ := typed
  have gives : outcome (typeOf x) s = (.ok t, s) := (gives_typeOf ..).mpr ⟨found, rfl⟩
  refine ⟨gives ▸ .refl _, ?_, ?_⟩
  · rw [gives]
    rintro _ ⟨⟩
    exact ⟨found, rfl⟩
  · rw [gives]
    rintro _ ⟨⟩

theorem resolves_companion? (x : Name) :
    Resolves (companion? x) s fun found t => s.companions.find? x = found ∧ s = t where
  later := .refl _
  holds _ succeeded := ⟨Except.ok.inj succeeded, rfl⟩
  resolved _ same := by cases same

theorem resolved_setCompanion (x c : Name) : Resolved (setCompanion x c) s where
  later := ⟨fun _ known => known, Nat.le_refl _⟩
  holds _ _ := trivial
  resolved _ same := by cases same

/-- A walk over resolved steps; what holds of the parts it has gone through goes on to hold. -/
theorem resolves_mapM {f : α → Diff β} {xs : List α} {R : α → β → DiffState → Prop}
    (keeps : ∀ a b t u, t.builder.Later u.builder → R a b t → R a b u)
    (each : ∀ a ∈ xs, ∀ t, s.builder.Later t.builder → Resolves (f a) t (R a)) :
    Resolves (xs.mapM f) s fun bs t => List.Forall₂ (fun a b => R a b t) xs bs := by
  induction xs generalizing s with
  | nil => exact resolves_pure .nil
  | cons a xs ih =>
    rw [List.mapM_cons]
    refine (each a (by simp) s (.refl _)).bind fun b t later here => ?_
    refine (ih fun c mem u further => each c (by simp [mem]) u (later.trans further)).bind
      fun bs u further rest => resolves_pure ?_
    exact .cons (keeps a b t u further here) rest

theorem resolved_mapM {f : α → Diff β} {xs : List α}
    (each : ∀ a ∈ xs, ∀ t, s.builder.Later t.builder → Resolved (f a) t) :
    Resolved (xs.mapM f) s :=
  (resolves_mapM (R := fun _ _ _ => True) (fun _ _ _ _ _ _ => trivial) each).mono
    fun _ _ _ _ => trivial

theorem resolved_forM {f : α → Diff Unit} {xs : List α}
    (each : ∀ a ∈ xs, ∀ t, s.builder.Later t.builder → Resolved (f a) t) :
    Resolved (xs.forM f) s := by
  induction xs generalizing s with
  | nil => exact resolves_pure trivial
  | cons a xs ih =>
    rw [List.forM_eq_forM, List.forM_cons, ← List.forM_eq_forM]
    exact (each a (by simp) s (.refl _)).bind fun _ t later _ =>
      ih fun c mem u further => each c (by simp [mem]) u (later.trans further)

theorem resolved_within {act : Diff α} (resolved : Resolved act s) : Resolved (within act) s where
  later := resolved.later
  holds _ _ := trivial
  resolved := resolved.resolved

theorem resolved_isolated {act : Diff α} (resolved : Resolved act { s with companions := .empty }) :
    Resolved (isolated act) s where
  later := resolved.later
  holds _ _ := trivial
  resolved := resolved.resolved

/-- A body is built on an empty statement list, which hides no type. -/
theorem resolved_bodyOf {stms : Diff Unit} {result : Diff (List Operand)}
    (inside : ∀ t, s.builder.Later t.builder → Resolved (do stms; result) t) :
    Resolved (bodyOf stms result) s := by
  obtain ⟨later, -, resolved⟩ := inside { s with builder := { s.builder with stms := [] } }
    ⟨fun _ known => known, Nat.le_refl _⟩
  have collects : Resolved (collect (do stms; result)) s := by
    refine ⟨⟨later.typed, later.next_le⟩, fun _ _ => trivial, fun x failed => ?_⟩
    have unfolded : (outcome (collect (do stms; result)) s).1 =
        (outcome (do stms; result) { s with builder := { s.builder with stms := [] } }).1.map
          fun xs => (xs, (outcome (do stms; result)
            { s with builder := { s.builder with stms := [] } }).2.builder.stms) := rfl
    rw [unfolded] at failed
    cases came : (outcome (do stms; result)
      { s with builder := { s.builder with stms := [] } }).1 with
    | ok xs =>
      rw [came] at failed
      cases failed
    | error e =>
      rw [came] at failed resolved
      exact resolved x (congrArg Except.error (Except.error.inj failed))
  exact collects.bind fun _ _ _ _ => resolves_pure trivial

/-! Zeros, companions and rules. -/

theorem resolved_zeroOf {x : Name} (typed : s.builder.Typed x) : Resolved (zeroOf x) s := by
  refine (resolves_typeOf typed).bind ?_
  rintro t _ - -
  cases zeroExp t with
  | some e => exact resolved_build (Build.retains_letExp t e)
  | none => exact resolves_throw (by simp)

theorem resolved_zeroOperand {x : Operand} (typed : ∀ y ∈ x.names, s.builder.Typed y) :
    Resolved (zeroOperand x) s := by
  cases x with
  | const v => exact resolves_pure trivial
  | var x =>
    have typed : s.builder.Typed x := typed x (by simp [Operand.names])
    refine (resolves_typeOf typed).bind ?_
    rintro t _ later ⟨-, rfl⟩
    have lazily : Resolved (do return .var (← zeroOf x) : Diff Operand) s :=
      (resolved_zeroOf typed).bind fun _ _ _ _ => resolves_pure trivial
    cases t with
    | scalar k => exact resolves_pure trivial
    | array elem shape unique => exact lazily
    | acc token shape elems unique => exact lazily

theorem resolved_companion {x : Name} (typed : s.builder.Typed x) : Resolved (companion x) s := by
  refine (resolves_companion? x).bind ?_
  rintro found _ - ⟨-, rfl⟩
  cases found with
  | some c => exact resolves_pure trivial
  | none =>
    exact (resolved_zeroOf typed).bind fun c t _ _ =>
      (resolved_setCompanion x c).bind fun _ _ _ _ => resolves_pure trivial

theorem resolves_single (mode : Mode) (stm : Stm) :
    Resolves (single mode stm) s fun p t => p ∈ stm.pat ∧ s = t := by
  unfold single
  split
  · rename_i p pat
    exact resolves_pure ⟨by simp [pat], rfl⟩
  · exact resolves_throw (by simp)

theorem resolved_signature (rules : Rules) (func : String) : Resolved (signature rules func) s := by
  unfold signature
  split
  · exact resolves_pure trivial
  · exact resolves_throw (by simp)

theorem resolved_partials (rules : Rules) (func : String) (kinds : List ScalarType)
    (args : List Operand) : Resolved (partials rules func kinds args) s := by
  unfold partials
  split
  · exact resolves_pure trivial
  · exact resolves_throw (by simp)

end Diff

end Cotangent
