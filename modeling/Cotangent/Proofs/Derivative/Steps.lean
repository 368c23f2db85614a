import Cotangent.Derivative.Context
import Cotangent.Proofs.Derivative.Leaves
import Cotangent.Proofs.Scope.Renaming
/-!
What the actions of a builder do to the scope of its statements. `Grows` says that a builder has
emitted statements that are closed in the scope so far and bind fresh names only; it composes, so that
a longer action is followed step by step. The last part does the same for actions that may fail.
-/
namespace Cotangent

open Outline

/-! Declared types. -/

namespace Build

variable {α β : Type}

theorem declareParams_apply (ps : List Param) (b : Builder) :
    declareParams ps b =
      ((), { b with types := b.types.insertAll (ps.map fun p => (p.name, p.ty)) }) := by
  induction ps generalizing b with
  | nil => rfl
  | cons p ps ih =>
    have step : declareParams (p :: ps) b = declareParams ps (b.declareIn p.name p.ty) := rfl
    rw [step, ih]
    rfl

theorem add_apply (s : Stm) (b : Builder) :
    add s b = ((), { b with
      types := b.types.insertAll (s.pat.map fun p => (p.name, p.ty))
      stms := b.stms ++ [s] }) := by
  simp [add, declareParams_apply]

end Build

theorem typesIn_params {ps : List Param} {scope : Scope} (typesIn : (paramOutline ps).TypesIn scope) :
    ∀ p ∈ ps, ∀ y ∈ p.ty.names, y ∈ (paramOutline ps).after scope := by
  induction ps generalizing scope with
  | nil => simp
  | cons q ps ih =>
    simp only [paramOutline, Param.outline, typesIn_append, TypesIn, typesIn_mentionsAll,
      after_append, after, after_mentionsAll] at typesIn ⊢
    intro p mem y inType
    rcases List.mem_cons.mp mem with rfl | mem
    · exact mem_after _ (typesIn.1 y inType)
    · exact ih typesIn.2 p mem y inType

namespace Builder

/-- The names of the scope lie below the supply, and so do those of their types in the scope. -/
structure Ready (b : Builder) (scope : Scope) : Prop where
  below : scope.Below b.supply.next
  typesIn : ∀ x ∈ scope, ∀ t, b.types.find? x = some t → ∀ y ∈ t.names, y ∈ scope

/-- The later builder has emitted statements that are closed in the scope and turn it into the later
    one; what they bind is fresh, and nothing they bind at any depth is drawn again. -/
structure Grows (b : Builder) (scope : Scope) (c : Builder) (later : Scope) : Prop where
  emitted : ∃ new, c.stms = b.stms ++ new ∧ (stmOutline new).Closed scope ∧
    (stmOutline new).after scope = later ∧ Scope.Below (stmOutline new).binders c.supply.next
  next_le : b.supply.next ≤ c.supply.next
  fresh : ∀ x ∈ later, x ∈ scope ∨ b.supply.next ≤ x.id
  kept : ∀ x ∈ scope, c.types.find? x = b.types.find? x
  ready : c.Ready later

variable {b c d : Builder} {scope middle later : Scope}

theorem Grows.refl (ready : b.Ready scope) : b.Grows scope b scope where
  emitted := ⟨[], by simp, by simp [stmOutline], rfl, by simp [stmOutline, Scope.Below]⟩
  next_le := Nat.le_refl _
  fresh _ known := Or.inl known
  kept _ _ := rfl
  ready := ready

theorem stmOutline_append (ss ts : List Stm) :
    stmOutline (ss ++ ts) = stmOutline ss ++ stmOutline ts := by
  induction ss with
  | nil => rfl
  | cons s ss ih => simp [stmOutline, ih, append_assoc]

theorem Grows.sub (grows : b.Grows scope c later) {x : Name} (known : x ∈ scope) : x ∈ later := by
  obtain ⟨new, -, -, rfl, -⟩ := grows.emitted
  exact mem_after _ known

theorem Grows.trans (first : b.Grows scope c middle) (second : c.Grows middle d later) :
    b.Grows scope d later where
  emitted := by
    obtain ⟨new, stms, closed, rfl, bounded⟩ := first.emitted
    obtain ⟨more, stms', closed', rfl, bounded'⟩ := second.emitted
    refine ⟨new ++ more, by rw [stms', stms, List.append_assoc], ?_, ?_, ?_⟩
    · rw [stmOutline_append, closed_append]
      exact ⟨closed, closed'⟩
    · rw [stmOutline_append, after_append]
    · rw [stmOutline_append, binders_append]
      exact (bounded.mono second.next_le).append bounded'
  next_le := Nat.le_trans first.next_le second.next_le
  fresh x known := by
    rcases second.fresh x known with known | fresh
    · exact first.fresh x known
    · exact Or.inr (Nat.le_trans first.next_le fresh)
  kept x known := by rw [second.kept x (first.sub known), first.kept x known]
  ready := second.ready

/-- Nothing is emitted, and the types of the names in scope stay. -/
theorem Grows.aside (ready : b.Ready scope) (stms : c.stms = b.stms)
    (next_le : b.supply.next ≤ c.supply.next)
    (kept : ∀ x ∈ scope, c.types.find? x = b.types.find? x) : b.Grows scope c scope where
  emitted := ⟨[], by simp [stms], by simp [stmOutline], rfl, by simp [stmOutline, Scope.Below]⟩
  next_le := next_le
  fresh _ known := Or.inl known
  kept := kept
  ready := {
    below := ready.below.mono next_le
    typesIn := fun x known t found => ready.typesIn x known t (kept x known ▸ found) }

theorem find_declared {ps : List Param} {types : NameTable Ty} {x : Name} {t : Ty}
    (found : (types.insertAll (ps.map fun p => (p.name, p.ty))).find? x = some t) :
    ⟨x, t⟩ ∈ ps ∨ ((∀ p ∈ ps, p.name ≠ x) ∧ types.find? x = some t) := by
  by_cases declared : x ∈ (ps.map fun p => (p.name, p.ty)).map (·.1)
  · obtain ⟨u, mem, here⟩ := NameTable.find_insertAll_of_mem types _ x declared
    obtain ⟨p, pMem, same⟩ := List.mem_map.mp mem
    obtain ⟨rfl, rfl⟩ := Prod.mk.inj same
    obtain rfl : p.ty = t := Option.some.inj (here.symm.trans found)
    exact Or.inl pMem
  · have absent : ∀ p ∈ ps, p.name ≠ x := by
      intro p mem same
      exact declared (by simpa using ⟨p, mem, same⟩)
    refine Or.inr ⟨absent, ?_⟩
    rwa [NameTable.find_insertAll_of_not_mem _ _ _ (by simpa using absent)] at found

theorem find_declared_of_not_mem {ps : List Param} (types : NameTable Ty) {x : Name}
    (absent : ∀ p ∈ ps, p.name ≠ x) :
    (types.insertAll (ps.map fun p => (p.name, p.ty))).find? x = types.find? x :=
  NameTable.find_insertAll_of_not_mem _ _ _ (by simpa using absent)

/-- Parameters that are new to the scope join it. -/
theorem Ready.declare (ready : b.Ready scope) {ps : List Param}
    (closed : (paramOutline ps).Closed scope)
    (drawn : ∀ p ∈ ps, p.name.id < b.supply.next) :
    Ready { b with types := b.types.insertAll (ps.map fun p => (p.name, p.ty)) }
      ((paramOutline ps).after scope) where
  below := by
    intro x known
    rcases (mem_after_paramOutline ps scope x).mp known with known | ⟨p, mem, rfl⟩
    · exact ready.below x known
    · exact drawn p mem
  typesIn := by
    intro x known t found y inType
    rcases find_declared found with mem | ⟨absent, found⟩
    · exact typesIn_params closed.2 _ mem y inType
    · rcases (mem_after_paramOutline ps scope x).mp known with known | ⟨p, mem, same⟩
      · exact mem_after _ (ready.typesIn x known t found y inType)
      · exact absurd same (absent p mem)

theorem not_mem_of_params {ps : List Param} (accepted : (paramOutline ps).Accepted scope)
    {p : Param} (mem : p ∈ ps) : p.name ∉ scope := by
  refine not_mem_of_binder accepted ?_
  induction ps generalizing scope with
  | nil => simp at mem
  | cons q ps ih =>
    rcases List.mem_cons.mp mem with rfl | mem
    · simp [paramOutline, Param.outline]
    · simp only [paramOutline, accepted_append] at accepted
      simp [paramOutline, ih accepted.2 mem]

end Builder

theorem nodup_of_accepted {ps : List Param} {scope : Scope}
    (accepted : (paramOutline ps).Accepted scope) : (ps.map (·.name)).Nodup := by
  induction ps generalizing scope with
  | nil => exact List.nodup_nil
  | cons p ps ih =>
    rw [paramOutline, accepted_append] at accepted
    refine List.nodup_cons.mpr ⟨fun mem => ?_, ih accepted.2⟩
    obtain ⟨q, inList, same⟩ := List.mem_map.mp mem
    exact Builder.not_mem_of_params accepted.2 inList (same ▸ by simp [Param.outline])

theorem after_stm (s : Stm) (scope : Scope) :
    s.outline.after scope = (paramOutline s.pat).after scope := by
  obtain ⟨pat, aux, e⟩ := s
  simp [Stm.outline, Scope.after_exp]

theorem binders_stm (s : Stm) :
    s.outline.binders = (s.exp.outline s.pat.length).binders ++ (paramOutline s.pat).binders := by
  obtain ⟨pat, aux, e⟩ := s
  simp [Stm.outline]

theorem closed_stm (s : Stm) (scope : Scope) :
    s.outline.Closed scope ↔
      (∀ x ∈ s.aux.certs, x ∈ scope) ∧ (s.exp.outline s.pat.length).Closed scope ∧
        (paramOutline s.pat).Closed scope := by
  obtain ⟨pat, aux, e⟩ := s
  simp [Stm.outline, Scope.after_exp, and_assoc]

namespace Builder

variable {b c d : Builder} {scope middle later : Scope}

/-- A statement is emitted whose binders were drawn on the way. -/
theorem Grows.add (grows : b.Grows scope c middle) {s : Stm} (closed : s.outline.Closed middle)
    (drawn : ∀ p ∈ s.pat, b.supply.next ≤ p.name.id ∧ p.name.id < c.supply.next)
    (inside : Scope.Below (s.exp.outline s.pat.length).binders c.supply.next) :
    b.Grows scope (Build.add s c).2 ((paramOutline s.pat).after middle) := by
  have pattern : (paramOutline s.pat).Closed middle := ((closed_stm s middle).mp closed).2.2
  have absent : ∀ x ∈ middle, ∀ p ∈ s.pat, p.name ≠ x := fun x known p mem same =>
    not_mem_of_params pattern.1 mem (same ▸ known)
  simp only [Build.add_apply]
  exact {
    emitted := by
      obtain ⟨new, stms, before, rfl, bounded⟩ := grows.emitted
      refine ⟨new ++ [s], by simp [stms], ?_, ?_, ?_⟩
      · simp only [stmOutline_append, closed_append, stmOutline, closed_done, and_true]
        exact ⟨before, closed⟩
      · simp [stmOutline_append, stmOutline, after_stm]
      · simp only [stmOutline_append, stmOutline, append_done, binders_append, binders_stm]
        refine bounded.append (inside.append ?_)
        intro x binder
        obtain ⟨p, mem, rfl⟩ := (mem_binders_paramOutline s.pat x).mp binder
        exact (drawn p mem).2
    next_le := grows.next_le
    fresh := by
      intro x known
      rcases (mem_after_paramOutline s.pat middle x).mp known with known | ⟨p, mem, rfl⟩
      · exact grows.fresh x known
      · exact Or.inr (drawn p mem).1
    kept := fun x known => by
      rw [find_declared_of_not_mem _ (absent x (grows.sub known)), grows.kept x known]
    ready := by
      have declared := grows.ready.declare pattern fun p mem => (drawn p mem).2
      exact ⟨declared.below, declared.typesIn⟩ }

/-- One name is drawn. -/
theorem Grows.draw (ready : b.Ready scope) : b.Grows scope (Build.fresh b).2 scope :=
  Grows.aside ready rfl (Nat.le_succ _) fun _ _ => rfl

theorem letExp_fst (t : Ty) (e : Exp) (b : Builder) : (Build.letExp t e b).1 = ⟨b.supply.next⟩ :=
  rfl

theorem letExp_grows (ready : b.Ready scope) {t : Ty} {e : Exp} (closed : (e.outline 1).Closed scope)
    (inside : Scope.Below (e.outline 1).binders b.supply.next) (typed : ∀ y ∈ t.names, y ∈ scope) :
    b.Grows scope (Build.letExp t e b).2 (⟨b.supply.next⟩ :: scope) := by
  have drawn := Grows.draw ready
  have fresh : (⟨b.supply.next⟩ : Name) ∉ scope := ready.below.fresh
  have stm : (Stm.mk [⟨⟨b.supply.next⟩, t⟩] .none e).outline.Closed scope := by
    refine (closed_stm _ _).mpr ⟨by simp [Annotations.none], closed, ?_⟩
    simpa [paramOutline, Param.outline, fresh] using fun y mem => Or.inr (typed y mem)
  have grown := drawn.add stm (by simp [Build.fresh, Supply.fresh]) (inside.mono drawn.next_le)
  rw [paramOutline, paramOutline, Param.outline, append_done, after, after_mentionsAll] at grown
  exact grown

end Builder

/-! Parameters with names drawn one after the other. -/

/-- Parameters of the given types, with numbers from `n` on. -/
def paramsFrom : Nat → List Ty → List Param
  | _, [] => []
  | n, t :: ts => ⟨⟨n⟩, t⟩ :: paramsFrom (n + 1) ts

theorem types_paramsFrom (n : Nat) (ts : List Ty) : (paramsFrom n ts).map (·.ty) = ts := by
  induction ts generalizing n with
  | nil => rfl
  | cons t ts ih => simp [paramsFrom, ih]

theorem bounds_paramsFrom {n : Nat} {ts : List Ty} {p : Param} (mem : p ∈ paramsFrom n ts) :
    n ≤ p.name.id ∧ p.name.id < n + ts.length := by
  induction ts generalizing n with
  | nil => simp [paramsFrom] at mem
  | cons t ts ih =>
    rcases List.mem_cons.mp mem with rfl | mem
    · simp
    · have bounds := ih mem
      simp only [List.length_cons]
      omega

theorem nodup_paramsFrom (n : Nat) (ts : List Ty) : ((paramsFrom n ts).map (·.name)).Nodup := by
  induction ts generalizing n with
  | nil => simp [paramsFrom]
  | cons t ts ih =>
    simp only [paramsFrom, List.map_cons, List.nodup_cons, ih, and_true, List.mem_map, not_exists,
      not_and]
    intro p mem same
    have bounds := bounds_paramsFrom mem
    simp only [same] at bounds
    omega

theorem accepted_paramsFrom {scope : Scope} {n : Nat} (below : scope.Below n) (ts : List Ty) :
    (paramOutline (paramsFrom n ts)).Accepted scope := by
  induction ts generalizing scope n with
  | nil => trivial
  | cons t ts ih =>
    have wider : Scope.Below (⟨n⟩ :: scope) (n + 1) :=
      (below.mono (Nat.le_succ n)).cons (Nat.lt_succ_self n)
    simp only [paramsFrom, paramOutline, Param.outline, accepted_append, after, after_mentionsAll]
    exact ⟨⟨below.fresh, by simp⟩, ih wider⟩

/-! Formulas. -/

theorem names_ofOperand (kind : ScalarType) (x : Operand) :
    (Formula.ofOperand kind x).names = x.names := by
  cases x <;> rfl

theorem names_mul (f g : Formula) : (f.mul g).names = f.names ++ g.names := rfl

theorem names_formulas (xs : List (ScalarType × Operand)) :
    formulaNames (xs.map fun a => Formula.ofOperand a.1 a.2) = operandNames (xs.map (·.2)) := by
  induction xs with
  | nil => rfl
  | cons a xs ih =>
    simp only [List.map_cons, formulaNames, names_ofOperand, ih]
    rfl

theorem mem_formulaNames (fs : List Formula) (x : Name) :
    x ∈ formulaNames fs ↔ ∃ f ∈ fs, x ∈ f.names := by
  induction fs with
  | nil => simp [formulaNames]
  | cons g fs ih => simp [formulaNames, ih]

namespace Builder

variable {b c d : Builder} {scope middle later : Scope}

/-- The statements for the operands of a formula make its outermost operation closed. -/
def Expresses (f : Formula) : Prop :=
  ∀ (b : Builder) (scope : Scope), b.Ready scope → (∀ x ∈ f.names, x ∈ scope) →
    ∃ later, b.Grows scope (Build.expOf f b).2 later ∧
      ((Build.expOf f b).1.outline 1).Closed later ∧ ((Build.expOf f b).1.outline 1).binders = []

theorem operandOf_grows {f : Formula} (expresses : Expresses f) (ready : b.Ready scope)
    (known : ∀ x ∈ f.names, x ∈ scope) :
    ∃ later, b.Grows scope (Build.lower f b).2 later ∧
      ∀ y ∈ (Build.lower f b).1.names, y ∈ later := by
  have composite (e : (Build.lower f b) = (do
      let e ← Build.expOf f
      let x ← Build.letExp (.scalar f.ty) e
      return .var x : Build Operand) b) :
      ∃ later, b.Grows scope (Build.lower f b).2 later ∧
        ∀ y ∈ (Build.lower f b).1.names, y ∈ later := by
    obtain ⟨middle, grows, closed, flat⟩ := expresses b scope ready known
    have bound := letExp_grows (t := .scalar f.ty) grows.ready closed (by simp [flat, Scope.Below])
      (by simp [Ty.names])
    rw [e]
    exact ⟨_, grows.trans bound, by simp [Operand.names, letExp_fst]⟩
  cases f with
  | leaf x t => exact ⟨scope, Grows.refl ready, by simpa [Build.lower, Build.operandOf,
      Operand.names, Formula.names] using known⟩
  | lit v => exact ⟨scope, Grows.refl ready, by simp [Build.lower, Build.operandOf,
      Operand.names]⟩
  | _ => exact composite rfl

/-- The reads of an operation without a type annotation make its expression closed. -/
theorem closed_basic {op : BasicOp} (plain : op.typeNames = [])
    (reads : ∀ y ∈ op.names, y ∈ scope) : ((Exp.basic op).outline 1).Closed scope := by
  simpa [Exp.outline, BasicOp.outline, plain] using reads

theorem binders_basic (op : BasicOp) (arity : Nat) : ((Exp.basic op).outline arity).binders = [] := by
  simp [Exp.outline, BasicOp.outline]

mutual

theorem expresses (f : Formula) : Expresses f := by
  intro b scope ready known
  cases f with
  | leaf x t => exact ⟨scope, Grows.refl ready, closed_basic rfl known, binders_basic _ 1⟩
  | lit v => exact ⟨scope, Grows.refl ready, closed_basic rfl known, binders_basic _ 1⟩
  | unary op a =>
    obtain ⟨later, grows, operand⟩ := operandOf_grows (expresses a) ready known
    exact ⟨later, grows, closed_basic rfl operand, binders_basic _ 1⟩
  | binary op x y =>
    obtain ⟨knownLeft, knownRight⟩ := List.forall_mem_append.mp known
    obtain ⟨middle, first, left⟩ := operandOf_grows (expresses x) ready knownLeft
    obtain ⟨later, second, right⟩ := operandOf_grows (expresses y) first.ready
      fun z mem => first.sub (knownRight z mem)
    refine ⟨later, first.trans second, closed_basic rfl ?_, binders_basic _ 1⟩
    simp only [BasicOp.names, operandNames, List.flatMap_cons, List.flatMap_nil,
      List.append_nil, List.forall_mem_append]
    exact ⟨fun z mem => second.sub (left z mem), right⟩
  | compare op x y =>
    obtain ⟨knownLeft, knownRight⟩ := List.forall_mem_append.mp known
    obtain ⟨middle, first, left⟩ := operandOf_grows (expresses x) ready knownLeft
    obtain ⟨later, second, right⟩ := operandOf_grows (expresses y) first.ready
      fun z mem => first.sub (knownRight z mem)
    refine ⟨later, first.trans second, closed_basic rfl ?_, binders_basic _ 1⟩
    simp only [BasicOp.names, operandNames, List.flatMap_cons, List.flatMap_nil,
      List.append_nil, List.forall_mem_append]
    exact ⟨fun z mem => second.sub (left z mem), right⟩
  | convert op a =>
    obtain ⟨later, grows, operand⟩ := operandOf_grows (expresses a) ready known
    exact ⟨later, grows, closed_basic rfl operand, binders_basic _ 1⟩
  | call func args t =>
    obtain ⟨later, grows, operands⟩ := operandsOf_grows args ready known
    refine ⟨later, grows, ?_, by simp [Build.expOf, Exp.outline]⟩
    simpa [Build.expOf, Exp.outline, typeNames, Ty.names] using operands

theorem operandsOf_grows (fs : List Formula) {b : Builder} {scope : Scope} (ready : b.Ready scope)
    (known : ∀ x ∈ formulaNames fs, x ∈ scope) :
    ∃ later, b.Grows scope (Build.operandsOf fs b).2 later ∧
      ∀ y ∈ operandNames (Build.operandsOf fs b).1, y ∈ later := by
  cases fs with
  | nil => exact ⟨scope, Grows.refl ready, by simp [Build.operandsOf, operandNames]⟩
  | cons f fs =>
    obtain ⟨knownFirst, knownRest⟩ := List.forall_mem_append.mp known
    obtain ⟨middle, first, left⟩ := operandOf_grows (expresses f) ready knownFirst
    obtain ⟨later, second, right⟩ := operandsOf_grows fs first.ready
      fun z mem => first.sub (knownRest z mem)
    refine ⟨later, first.trans second, ?_⟩
    have split : operandNames (Build.operandsOf (f :: fs) b).1 =
        (Build.lower f b).1.names ++ operandNames (Build.operandsOf fs (Build.lower f b).2).1 := rfl
    rw [split, List.forall_mem_append]
    exact ⟨fun z mem => second.sub (left z mem), right⟩

end

/-- A formula is bound to a parameter that was drawn before. -/
theorem bindFormula_grows (start : b.Grows scope c middle) (p : Param) (aux : Annotations)
    {f : Formula} (certs : ∀ x ∈ aux.certs, x ∈ middle) (typed : p.ty.names = [])
    (lower : b.supply.next ≤ p.name.id) (upper : p.name.id < c.supply.next)
    (fresh : p.name ∉ middle) (known : ∀ x ∈ f.names, x ∈ middle) :
    ∃ later, b.Grows scope (Build.bindFormula p aux f c).2 later ∧ p.name ∈ later := by
  obtain ⟨after, grows, closed, flat⟩ := expresses f c middle start.ready known
  have absent : p.name ∉ after := fun bound => by
    rcases grows.fresh p.name bound with bound | above
    · exact fresh bound
    · omega
  have stm : (Stm.mk [p] aux (Build.expOf f c).1).outline.Closed after := by
    refine (closed_stm _ _).mpr ⟨fun x mem => grows.sub (certs x mem), closed, ?_⟩
    simp [paramOutline, Param.outline, absent, typed]
  have bound := (start.trans grows).add stm (by
    simpa using ⟨lower, Nat.lt_of_lt_of_le upper grows.next_le⟩) (by simp [flat, Scope.Below])
  exact ⟨_, bound, by simp [paramOutline, Param.outline]⟩

end Builder

/-! Statements emitted as they are. -/

theorem mem_after_stmOutline (ss : List Stm) (scope : Scope) (x : Name) :
    x ∈ (stmOutline ss).after scope ↔ x ∈ scope ∨ ∃ p ∈ ss.flatMap (·.pat), p.name = x := by
  induction ss generalizing scope with
  | nil => simp [stmOutline]
  | cons s ss ih =>
    simp only [stmOutline, after_append, after_stm, ih, mem_after_paramOutline, List.flatMap_cons,
      List.mem_append, or_and_right, exists_or, or_assoc]

theorem typesIn_stms {ss : List Stm} {scope : Scope} (closed : (stmOutline ss).Closed scope) :
    ∀ p ∈ ss.flatMap (·.pat), ∀ y ∈ p.ty.names, y ∈ (stmOutline ss).after scope := by
  induction ss generalizing scope with
  | nil => simp
  | cons s ss ih =>
    simp only [stmOutline, closed_append, after_append] at closed ⊢
    intro p mem y inType
    rcases List.mem_append.mp mem with mem | mem
    · have pattern := ((closed_stm s scope).mp closed.1).2.2
      refine mem_after _ ?_
      rw [after_stm]
      exact typesIn_params pattern.2 p mem y inType
    · exact ih closed.2 p mem y inType

theorem closed_of_mem {ss : List Stm} {scope : Scope} (closed : (stmOutline ss).Closed scope)
    {s : Stm} (mem : s ∈ ss) :
    ∃ inner : Scope, (∀ x ∈ inner, x ∈ (stmOutline ss).after scope) ∧ s.outline.Closed inner := by
  induction ss generalizing scope with
  | nil => simp at mem
  | cons first ss ih =>
    simp only [stmOutline, closed_append, after_append] at closed ⊢
    rcases List.mem_cons.mp mem with rfl | mem
    · exact ⟨scope, fun x known => mem_after _ (mem_after _ known), closed.1⟩
    · exact ih closed.2 mem

theorem not_mem_of_pattern {ss : List Stm} {scope : Scope}
    (accepted : (stmOutline ss).Accepted scope) : ∀ p ∈ ss.flatMap (·.pat), p.name ∉ scope := by
  induction ss generalizing scope with
  | nil => simp
  | cons s ss ih =>
    obtain ⟨pat, aux, e⟩ := s
    simp only [stmOutline, accepted_append] at accepted
    intro p mem known
    rcases List.mem_append.mp mem with mem | mem
    · have whole := accepted.1
      simp only [Stm.outline, accepted_append, after_append, after_readsAll,
        Scope.after_exp] at whole
      have pattern : (paramOutline pat).Accepted scope := whole.2
      exact Builder.not_mem_of_params pattern mem known
    · exact ih accepted.2 p mem (mem_after _ known)

namespace Builder

/-- The builder after statements that are emitted as they are. -/
def emit (b : Builder) (ss : List Stm) : Builder :=
  { b with
    types := b.types.insertAll ((ss.flatMap (·.pat)).map fun p => (p.name, p.ty))
    stms := b.stms ++ ss }

theorem insertAll_append {α : Type} (types : NameTable α) (ps qs : List (Name × α)) :
    types.insertAll (ps ++ qs) = (types.insertAll ps).insertAll qs := by
  simp [NameTable.insertAll]

theorem emit_nil (b : Builder) : b.emit [] = b := by
  simp [emit, NameTable.insertAll]

theorem emit_cons (b : Builder) (s : Stm) (ss : List Stm) :
    b.emit (s :: ss) = (Build.add s b).2.emit ss := by
  simp [emit, Build.add_apply, insertAll_append]

/-- The types that are declared before may speak of what the statements bind. -/
theorem ready_emit {b : Builder} {scope : Scope} {ss : List Stm} (below : scope.Below b.supply.next)
    (typed : ∀ x ∈ scope, ∀ t, b.types.find? x = some t → ∀ y ∈ t.names,
      y ∈ (stmOutline ss).after scope)
    (closed : (stmOutline ss).Closed scope)
    (drawn : ∀ p ∈ ss.flatMap (·.pat), p.name.id < b.supply.next) :
    (b.emit ss).Ready ((stmOutline ss).after scope) where
  below x known := by
    rcases (mem_after_stmOutline ss scope x).mp known with known | ⟨p, mem, rfl⟩
    · exact below x known
    · exact drawn p mem
  typesIn x known t found y inType := by
    rcases find_declared found with mem | ⟨absent, found⟩
    · exact typesIn_stms closed _ mem y inType
    · rcases (mem_after_stmOutline ss scope x).mp known with known | ⟨p, mem, same⟩
      · exact typed x known t found y inType
      · exact absurd same (absent p mem)

end Builder

/-! Actions that may fail. -/

namespace Diff

variable {α β : Type}

/-- The result of an action and the state that it leaves. -/
def outcome (m : Diff α) (s : DiffState) : Except DiffError α × DiffState := m.run.run s

/-- The action succeeds on the first state with this result and leaves the second. -/
def Gives (m : Diff α) (s : DiffState) (a : α) (t : DiffState) : Prop := outcome m s = (.ok a, t)

theorem gives_of_outcome {m : Diff α} {s u : DiffState} {b : α} (known : outcome m s = (.ok b, u))
    (a : α) (t : DiffState) : Gives m s a t ↔ b = a ∧ u = t := by
  rw [Gives, known, Prod.mk.injEq, Except.ok.injEq]

theorem not_gives_of_outcome {m : Diff α} {s u : DiffState} {e : DiffError}
    (known : outcome m s = (.error e, u)) (a : α) (t : DiffState) : ¬ Gives m s a t := by
  simp [Gives, known]

theorem Gives.unique {m : Diff α} {s t u : DiffState} {a b : α} (first : Gives m s a t)
    (second : Gives m s b u) : a = b ∧ t = u :=
  (gives_of_outcome first b u).mp second

theorem outcome_bind (m : Diff α) (f : α → Diff β) (s : DiffState) :
    outcome (m >>= f) s =
      match outcome m s with
      | (.ok a, t) => outcome (f a) t
      | (.error e, t) => (.error e, t) := by
  have unfolded : outcome (m >>= f) s = (m s >>= fun p => ExceptT.bindCont f p.1 p.2 :
    Id (Except DiffError β × DiffState)) := rfl
  rw [unfolded]
  show ExceptT.bindCont f (outcome m s).1 (outcome m s).2 = _
  cases outcome m s with
  | mk r t => cases r <;> rfl

@[simp] theorem gives_pure (a b : α) (s t : DiffState) :
    Gives (pure a) s b t ↔ a = b ∧ s = t :=
  gives_of_outcome rfl b t

@[simp] theorem gives_bind (m : Diff α) (f : α → Diff β) (s u : DiffState) (b : β) :
    Gives (m >>= f) s b u ↔ ∃ a t, Gives m s a t ∧ Gives (f a) t b u := by
  simp only [Gives, outcome_bind]
  constructor
  · intro gives
    split at gives
    · rename_i a t first
      exact ⟨a, t, first, gives⟩
    · simp at gives
  · rintro ⟨a, t, first, second⟩
    simp only [first, second]

theorem Gives.bind {m : Diff α} {f : α → Diff β} {s t u : DiffState} {a : α} {b : β}
    (first : Gives m s a t) (second : Gives (f a) t b u) : Gives (m >>= f) s b u :=
  (gives_bind ..).mpr ⟨a, t, first, second⟩

theorem Gives.pure (a : α) (s : DiffState) : Gives (Pure.pure a) s a s :=
  (gives_pure ..).mpr ⟨rfl, rfl⟩

@[simp] theorem gives_map (f : α → β) (m : Diff α) (s t : DiffState) (b : β) :
    Gives (f <$> m) s b t ↔ ∃ a, Gives m s a t ∧ f a = b := by
  have unfolded : f <$> m = m >>= fun a => pure (f a) := rfl
  simp only [unfolded, gives_bind, gives_pure]
  constructor
  · rintro ⟨a, u, first, same, rfl⟩
    exact ⟨a, first, same⟩
  · rintro ⟨a, first, same⟩
    exact ⟨a, t, first, same, rfl⟩

@[simp] theorem gives_throw (e : DiffError) (s t : DiffState) (a : α) :
    ¬ Gives (throw e) s a t :=
  not_gives_of_outcome rfl a t

@[simp] theorem gives_build (act : Build α) (s t : DiffState) (a : α) :
    Gives (build act) s a t ↔
      (act s.builder).1 = a ∧ { s with builder := (act s.builder).2 } = t :=
  gives_of_outcome rfl a t

theorem Gives.build (act : Build α) (s : DiffState) :
    Gives (build act) s (act s.builder).1 { s with builder := (act s.builder).2 } :=
  (gives_build ..).mpr ⟨rfl, rfl⟩

@[simp] theorem gives_typeOf (x : Name) (s t : DiffState) (a : Ty) :
    Gives (typeOf x) s a t ↔ s.builder.types.find? x = some a ∧ s = t := by
  have current : ∀ u v, Gives (get : Diff DiffState) s u v ↔ s = u ∧ s = v :=
    fun u v => gives_of_outcome rfl u v
  simp only [typeOf, gives_bind, current, Builder.ty]
  cases found : s.builder.types.find? x with
  | none => simp [found]
  | some b => simp [found]

@[simp] theorem gives_companion? (x : Name) (s t : DiffState) (a : Option Name) :
    Gives (companion? x) s a t ↔ s.companions.find? x = a ∧ s = t :=
  gives_of_outcome rfl a t

@[simp] theorem gives_setCompanion (x c : Name) (s t : DiffState) (a : Unit) :
    Gives (setCompanion x c) s a t ↔ { s with companions := s.companions.insert x c } = t := by
  have gives : Gives (setCompanion x c) s a t ↔
      () = a ∧ { s with companions := s.companions.insert x c } = t := gives_of_outcome rfl a t
  rw [gives]
  exact and_iff_right rfl

@[simp] theorem gives_within (act : Diff α) (s t : DiffState) (a : α) :
    Gives (within act) s a t ↔
      ∃ u, Gives act s a u ∧ { u with companions := s.companions } = t := by
  have unfolded : outcome (within act) s =
      ((outcome act s).1, { (outcome act s).2 with companions := s.companions }) := rfl
  simp only [Gives, unfolded, Prod.mk.injEq]
  constructor
  · rintro ⟨result, same⟩
    exact ⟨_, Prod.ext result rfl, same⟩
  · rintro ⟨u, gives, same⟩
    rw [gives]
    exact ⟨rfl, same⟩

@[simp] theorem gives_isolated (act : Diff α) (s t : DiffState) (a : α) :
    Gives (isolated act) s a t ↔
      ∃ u, Gives act { s with companions := .empty } a u ∧
        { u with companions := s.companions } = t := by
  simp only [isolated, gives_within]
  rfl

@[simp] theorem gives_collect (act : Diff α) (s t : DiffState) (r : α × List Stm) :
    Gives (collect act) s r t ↔
      ∃ u, Gives act { s with builder := { s.builder with stms := [] } } r.1 u ∧
        u.builder.stms = r.2 ∧
        { u with builder := { u.builder with stms := s.builder.stms } } = t := by
  obtain ⟨a, new⟩ := r
  let inside := outcome act { s with builder := { s.builder with stms := [] } }
  have unfolded : outcome (collect act) s =
      (inside.1.map fun x => (x, inside.2.builder.stms),
        { inside.2 with builder := { inside.2.builder with stms := s.builder.stms } }) := rfl
  simp only [Gives, unfolded, Prod.mk.injEq, except_map_ok]
  constructor
  · rintro ⟨⟨b, result, rfl, stms⟩, left⟩
    exact ⟨inside.2, Prod.ext result rfl, stms, left⟩
  · rintro ⟨u, gives, stms, left⟩
    have here : inside = (.ok a, u) := gives
    rw [here]
    exact ⟨⟨a, rfl, rfl, stms⟩, left⟩

theorem gives_start {α : Type} (act : Diff α) (s : Supply) (a : α) :
    (act.start s).1 = .ok a ↔ ∃ t, Gives act ⟨.ofSupply s, .empty⟩ a t := by
  constructor
  · intro succeeded
    exact ⟨_, Prod.ext succeeded rfl⟩
  · rintro ⟨t, gives⟩
    exact congrArg Prod.fst gives

theorem gives_bodyOf (stms : Diff Unit) (result : Diff (List Operand)) (s t : DiffState)
    (b : Body) :
    Gives (bodyOf stms result) s b t ↔
      ∃ u v, Gives stms { s with builder := { s.builder with stms := [] } } () u ∧
        Gives result u b.result v ∧ v.builder.stms = b.stms ∧
        { v with builder := { v.builder with stms := s.builder.stms } } = t := by
  obtain ⟨ss, xs⟩ := b
  simp only [bodyOf, gives_bind, gives_collect, gives_pure]
  constructor
  · rintro ⟨⟨ys, new⟩, t', ⟨v, ⟨_, u, first, second⟩, emitted, left⟩, same, rfl⟩
    obtain ⟨rfl, rfl⟩ := Body.mk.inj same
    exact ⟨u, v, first, second, emitted, left⟩
  · rintro ⟨u, v, first, second, emitted, left⟩
    exact ⟨(xs, ss), t, ⟨v, ⟨(), u, first, second⟩, emitted, left⟩, rfl, rfl⟩

theorem gives_single (mode : Mode) (stm : Stm) (s t : DiffState) (p : Param) :
    Gives (single mode stm) s p t ↔ stm.pat = [p] ∧ s = t := by
  simp only [single]
  split
  · rename_i q pat
    simp [pat]
  · rename_i pat several
    simp only [gives_throw, false_iff]
    rintro ⟨alone, -⟩
    exact several p alone

theorem gives_signature (rules : Rules) (func : String) (s t : DiffState)
    (sig : List ScalarType × ScalarType) :
    Gives (signature rules func) s sig t ↔ rules.signature func = some sig ∧ s = t := by
  simp only [signature]
  cases rules.signature func <;> simp

theorem gives_partials (rules : Rules) (func : String) (kinds : List ScalarType)
    (args : List Operand) (s t : DiffState) (ds : List Formula) :
    Gives (partials rules func kinds args) s ds t ↔
      rules.builtin func ((kinds.zip args).map fun a => Formula.ofOperand a.1 a.2) = some ds ∧
        s = t := by
  simp only [partials]
  cases rules.builtin func ((kinds.zip args).map fun a => Formula.ofOperand a.1 a.2) <;> simp

/-- A state in a scope that also holds the companions of the names in question. -/
structure Ready (keys : Name → Prop) (s : DiffState) (scope : Scope) : Prop where
  builder : s.builder.Ready scope
  companion_mem : ∀ x, keys x → ∀ c, s.companions.find? x = some c → c ∈ scope

structure Extends (keys : Name → Prop) (s : DiffState) (scope : Scope) (t : DiffState)
    (later : Scope) : Prop where
  grows : s.builder.Grows scope t.builder later
  companion_mem : ∀ x, keys x → ∀ c, t.companions.find? x = some c → c ∈ later

variable {keys : Name → Prop} {s t u : DiffState} {scope middle later : Scope}

theorem Extends.ready (extends_ : Extends keys s scope t later) : Ready keys t later :=
  ⟨extends_.grows.ready, extends_.companion_mem⟩

theorem Extends.refl (ready : Ready keys s scope) : Extends keys s scope s scope :=
  ⟨.refl ready.builder, ready.companion_mem⟩

theorem Extends.trans (first : Extends keys s scope t middle)
    (second : Extends keys t middle u later) : Extends keys s scope u later :=
  ⟨first.grows.trans second.grows, second.companion_mem⟩

theorem Extends.sub (extends_ : Extends keys s scope t later) {x : Name} (known : x ∈ scope) :
    x ∈ later :=
  extends_.grows.sub known

/-- Growing the builder leaves the companions alone. -/
theorem Ready.build (ready : Ready keys s scope) {b : Builder}
    (grows : s.builder.Grows scope b later) :
    Extends keys s scope { s with builder := b } later :=
  ⟨grows, fun x key c found => grows.sub (ready.companion_mem x key c found)⟩

theorem Ready.setCompanion (ready : Ready keys s scope) {x c : Name} (known : c ∈ scope) :
    Extends keys s scope { s with companions := s.companions.insert x c } scope where
  grows := .refl ready.builder
  companion_mem y key d found := by
    rw [NameTable.find_insert] at found
    split at found
    · exact Option.some.inj found ▸ known
    · exact ready.companion_mem y key d found

theorem closed_zeroExp {ty : Ty} {e : Exp} (zero : zeroExp ty = some e)
    (known : ∀ y ∈ ty.names, y ∈ scope) :
    (e.outline 1).Closed scope ∧ (e.outline 1).binders = [] := by
  cases ty with
  | scalar k =>
    obtain rfl : _ = e := Option.some.inj zero
    exact ⟨Builder.closed_basic rfl (by simp [BasicOp.names, Operand.names]),
      Builder.binders_basic _ 1⟩
  | array elem shape unique =>
    obtain rfl : _ = e := Option.some.inj zero
    exact ⟨Builder.closed_basic rfl
      (by simpa [BasicOp.names, Operand.names, Ty.names] using known), Builder.binders_basic _ 1⟩
  | acc token shape elems unique => simp [zeroExp] at zero

theorem zeroOf_extends (ready : Ready keys s scope) {x c : Name} (known : x ∈ scope)
    (gives : Gives (zeroOf x) s c t) : ∃ later, Extends keys s scope t later ∧ c ∈ later := by
  simp only [zeroOf, gives_bind, gives_typeOf] at gives
  obtain ⟨ty, _, ⟨typed, rfl⟩, gives⟩ := gives
  split at gives
  · rename_i e zero
    have inType := ready.builder.typesIn x known ty typed
    obtain ⟨rfl, rfl⟩ := (gives_build ..).mp gives
    obtain ⟨closed, flat⟩ := closed_zeroExp zero inType
    have grows := Builder.letExp_grows ready.builder closed (by simp [flat, Scope.Below]) inType
    exact ⟨_, ready.build grows, by simp [Builder.letExp_fst]⟩
  · exact absurd gives (gives_throw _ _ _ _)

theorem companion_extends (ready : Ready keys s scope) {x c : Name} (key : keys x)
    (known : x ∈ scope) (gives : Gives (companion x) s c t) :
    ∃ later, Extends keys s scope t later ∧ c ∈ later := by
  simp only [companion, gives_bind, gives_companion?] at gives
  obtain ⟨found, _, ⟨isFound, rfl⟩, gives⟩ := gives
  cases found with
  | some d =>
    obtain ⟨rfl, rfl⟩ := (gives_pure ..).mp gives
    exact ⟨scope, .refl ready, ready.companion_mem x key d isFound⟩
  | none =>
    simp only [gives_bind, gives_setCompanion, gives_pure] at gives
    obtain ⟨d, u, zero, _, _, rfl, rfl, rfl⟩ := gives
    obtain ⟨later, extends_, mem⟩ := zeroOf_extends ready known zero
    exact ⟨later, extends_.trans (extends_.ready.setCompanion mem), mem⟩

end Diff

end Cotangent
