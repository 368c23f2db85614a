import Cotangent.Proofs.Tandem.Guarded
import Cotangent.Proofs.Derivative.Dual
import Cotangent.Proofs.Value.Everywhere
/-!
Values of declared types, at run time. The extents of an array type are operands, so whether a value has
the type depends on the store. A guarded run looks at every name that is about to be read; what that is
good for is that the zero of the declared type then has the shape of the value.
-/
namespace Cotangent

open ScalarAlgebra

section

variable {α : Type} [ScalarAlgebra α]

/-- The value has the extents, down to leaves of the type. -/
def Value.hasShape (t : ScalarType) : List Nat → Value α → Bool
  | [], .scalar a => decide ((toScalar a).ty = t)
  | n :: ns, .array rows => rows.length == n && rows.all (hasShape t ns)
  | _, _ => false

/-- The number of rows that a value stands for. -/
def Value.size? (v : Value α) : Option Nat :=
  (do asSize (α := α) (← asInt (← v.asScalar)) : Except (Fault α) Nat).toOption

namespace Store

variable (τ : Store α)

def extent (x : Operand) : Option Nat := (τ.value x).bind Value.size?

def hasType : Ty → Value α → Bool
  | .scalar t, v => v.hasShape t []
  | .array t shape _, v =>
    match shape.mapM τ.extent with
    | some ns => v.hasShape t ns
    | none => false
  | .acc .., _ => false

/-- The name has a value of the type that is declared for it. -/
def holdsType (decl : Name → Ty) (x : Name) : Bool :=
  match τ.vars.find? x with
  | some v => τ.hasType (decl x) v
  | none => false

end Store

/-- Stops the run unless each name that is read has a value of its declared type. The extents in that
    type have to be known already, so none of them may be a name that is about to be bound. -/
def Run.keepTypes (decl : Name → Ty) (stop : Fault α) (uses binders : List Name) : Run α Unit := do
  let τ ← get
  if uses.all fun x => τ.holdsType decl x && (decl x).names.all (· ∉ binders) then return ()
  else throw stop

/-- In the run every name that is read has a value of its declared type: whatever fault a wrong type
    would raise, the run comes to the same. -/
def Lambda.KeepsTypes (decl : Name → Ty) (l : Lambda) (args : List (Value α)) (fuel : Nat) : Prop :=
  ∀ stop, Run.result (Run.applyLambda (Run.guardedBody (Run.keepTypes decl stop) fuel) l args)
    Store.initial = l.interp args fuel

namespace Run

variable {β γ : Type} {decl : Name → Ty} {stop : Fault α}

/-- A run goes on behind the guard only where the types are kept. -/
theorem Shadows.guarded {m' : Run Scalar β} {m : Run α γ} {σ : Store Scalar} {τ : Store α}
    {uses binders : List Name} {post : β → Store Scalar → γ → Store α → Prop}
    (rest : (∀ x ∈ uses, τ.holdsType decl x = true ∧ ∀ y ∈ (decl x).names, y ∉ binders) →
      Shadows stop m' σ m τ post) :
    Shadows stop m' σ (keepTypes decl stop uses binders >>= fun _ => m) τ post := by
  intro b σ' ends
  simp only [keepTypes, bind_assoc]
  refine Reaches.after ((ends_get ..).mpr ⟨rfl, rfl⟩) ?_
  split
  · rename_i kept
    refine Reaches.after ((ends_pure ..).mpr ⟨rfl, rfl⟩) (rest (fun x mem => ?_) b σ' ends)
    simpa using List.all_eq_true.mp kept x mem
  · exact .inl (outcome_bind ..)

/-- A run that nothing stops is as good as the one without a guard. -/
theorem interp_of_reaches {l : Lambda} {args : List (Value α)} {fuel : Nat}
    {post : List (Value α) → Prop} (keeps : l.KeepsTypes decl args fuel)
    (reaches : ∀ stop, Reaches stop (applyLambda (guardedBody (keepTypes decl stop) fuel) l args)
      Store.initial fun vs _ => post vs) :
    ∃ vs, l.interp args fuel = some (.ok vs) ∧ post vs := by
  have decided (stop : Fault α) : l.interp args fuel = some (.error stop) ∨
      ∃ vs, l.interp args fuel = some (.ok vs) ∧ post vs := by
    rw [← keeps stop]
    rcases reaches stop with stopped | ⟨vs, τ, ends, holds⟩
    · refine .inl ?_
      rw [result_eq, stopped]
      rfl
    · exact .inr ⟨vs, (result_ok ..).mpr ⟨τ, ends⟩, holds⟩
  -- No run ends in two faults, so one of two guards cannot have stopped it.
  rcases decided .shape with stopped | ended
  · rcases decided .divisionByZero with stopped' | ended
    · simp [stopped] at stopped'
    · exact ended
  · exact ended

/-! Sizes. -/

theorem size?_eq_some (v : Value α) (n : Nat) : v.size? = some n ↔
    (do asSize (α := α) (← asInt (← v.asScalar)) : Except (Fault α) Nat) = .ok n := by
  unfold Value.size?
  generalize (do asSize (α := α) (← asInt (← v.asScalar)) : Except (Fault α) Nat) = x
  cases x <;> simp [Except.toOption]

theorem ends_size_iff {x : Operand} {n : Nat} {τ τ' : Store α} :
    Ends (size x) τ n τ' ↔ τ.extent x = some n ∧ τ = τ' := by
  simp only [size, int, scalar, ends_bind, ends_operand, ends_lift, Store.extent, Option.bind_eq_some_iff,
    size?_eq_some, except_bind_ok]
  constructor
  · rintro ⟨i, _, ⟨a, _, ⟨v, _, ⟨found, rfl⟩, isScalar, rfl⟩, isInt, rfl⟩, sized, rfl⟩
    exact ⟨⟨v, found, a, isScalar, i, isInt, sized⟩, rfl⟩
  · rintro ⟨⟨v, found, a, isScalar, i, isInt, sized⟩, rfl⟩
    exact ⟨i, τ, ⟨a, τ, ⟨v, τ, ⟨found, rfl⟩, isScalar, rfl⟩, isInt, rfl⟩, sized, rfl⟩

theorem ends_number {x : Operand} {a : α} {τ τ' : Store α} : Ends (number x) τ a τ' ↔
    τ.value x = some (.scalar a) ∧ (∃ i, asInt a = .ok i) ∧ τ = τ' := by
  simp only [number, ends_bind, ends_scalar, ends_lift, ends_pure]
  constructor
  · rintro ⟨_, _, ⟨found, rfl⟩, i, _, ⟨isInt, rfl⟩, rfl, rfl⟩
    exact ⟨found, ⟨i, isInt⟩, rfl⟩
  · rintro ⟨found, ⟨i, isInt⟩, rfl⟩
    exact ⟨a, τ, ⟨found, rfl⟩, i, τ, ⟨isInt, rfl⟩, rfl, rfl⟩

theorem ends_sizes_iff {xs : List Operand} {ns : List Nat} {τ τ' : Store α} :
    Ends (sizes xs) τ ns τ' ↔ List.Forall₂ (fun x n => τ.extent x = some n) xs ns ∧ τ = τ' :=
  ends_reads fun _ _ _ _ => ends_size_iff

end Run

namespace Store

variable {τ τ' : Store α} {x : Name} {t : Ty} {v : Value α}

theorem holdsType_iff {decl : Name → Ty} :
    τ.holdsType decl x = true ↔ ∃ v, τ.vars.find? x = some v ∧ τ.hasType (decl x) v = true := by
  unfold holdsType
  cases τ.vars.find? x <;> simp

/-- An array has its type, with the extents that it has. -/
theorem hasType_array {k : ScalarType} {shape : List Operand} {unique : Bool} :
    τ.hasType (.array k shape unique) v = true ↔
      ∃ ns, List.Forall₂ (fun y n => τ.extent y = some n) shape ns ∧ v.hasShape k ns = true := by
  simp only [hasType, ← option_mapM_iff]
  cases shape.mapM τ.extent <;> simp

/-- The type of a value depends on the extents alone. -/
theorem hasType_congr (same : ∀ y ∈ t.names, ∀ n, τ.extent (.var y) = some n → τ'.extent (.var y) = some n)
    (has : τ.hasType t v = true) : τ'.hasType t v = true := by
  cases t with
  | scalar k => exact has
  | acc token shape elems unique => exact has
  | array k shape unique =>
    obtain ⟨ns, sized, shaped⟩ := hasType_array.mp has
    refine hasType_array.mpr ⟨ns, ?_, shaped⟩
    have known : ∀ y ∈ operandNames shape, ∀ n, τ.extent (.var y) = some n → τ'.extent (.var y) = some n := same
    clear has shaped same
    induction sized with
    | nil => exact .nil
    | @cons y n shape ns here rest ih =>
      obtain ⟨first, others⟩ := List.forall_mem_append.mp known
      refine .cons ?_ (ih others)
      cases y with
      | const c => exact here
      | var y => exact first y (by simp [Operand.names]) n here

end Store

end

/-! Values and their tangents. -/

/-- The scalar does not change. -/
def Dual.Still (d : Dual) : Prop := d.tangent = Scalar.zero d.primal.ty

theorem Dual.still_constant (v : Scalar) : (Dual.constant v).Still := rfl

mutual

theorem Value.map_map {α β γ : Type} (f : α → β) (g : β → γ) (v : Value α) :
    (v.map f).map g = v.map (g ∘ f) := by
  cases v with
  | scalar a => rfl
  | array rows => exact congrArg Value.array (mapRows_mapRows f g rows)
  | acc id arrays => exact congrArg (Value.acc id) (mapRows_mapRows f g arrays)

theorem mapRows_mapRows {α β γ : Type} (f : α → β) (g : β → γ) (vs : List (Value α)) :
    mapRows g (mapRows f vs) = mapRows (g ∘ f) vs := by
  cases vs with
  | nil => rfl
  | cons v vs => exact congrArg₂ List.cons (v.map_map f g) (mapRows_mapRows f g vs)

end

mutual

theorem Value.every_map_of_forall {α β : Type} {p : β → Prop} {f : α → β} (all : ∀ a, p (f a))
    (v : Value α) : (v.map f).Every p := by
  cases v with
  | scalar a => exact all a
  | array rows => exact everyRow_map_of_forall all rows
  | acc id arrays => exact everyRow_map_of_forall all arrays

theorem everyRow_map_of_forall {α β : Type} {p : β → Prop} {f : α → β} (all : ∀ a, p (f a))
    (vs : List (Value α)) : EveryRow p (mapRows f vs) := by
  cases vs with
  | nil => trivial
  | cons v vs => exact ⟨v.every_map_of_forall all, everyRow_map_of_forall all vs⟩

end

/-- The value as one that does not change. -/
def Value.calm (v : Value) : Value Dual := v.map Dual.constant

@[simp] theorem Value.primal_calm (v : Value) : v.calm.map Dual.primal = v :=
  (v.map_map _ _).trans v.map_id

theorem Value.still_calm (v : Value) : v.calm.Every Dual.Still := v.every_map_of_forall Dual.still_constant

section

variable {α : Type} [ScalarAlgebra α] {f : Dual → α}

theorem Value.hasShape_map (primal : ∀ d, toScalar (f d) = d.primal) (t : ScalarType) (ns : List Nat)
    (d : Value Dual) : (d.map f).hasShape t ns = (d.map Dual.primal).hasShape t ns := by
  induction ns generalizing d with
  | nil =>
    cases d with
    | scalar a => simp [Value.map, hasShape, primal, toScalar]
    | array rows => rfl
    | acc id arrays => rfl
  | cons n ns ih =>
    cases d with
    | scalar a => rfl
    | array rows => simp [Value.map, hasShape, List.all_map, Function.comp_def, ih]
    | acc id arrays => rfl

omit f in
theorem Value.size?_scalar (a : α) : (Value.scalar a).size? =
    match toScalar a with
    | .int _ n => if n < 0 then none else some n.toNat
    | _ => none := by
  show (do asSize (α := α) (← asInt a) : Except (Fault α) Nat).toOption = _
  unfold asInt
  cases toScalar a with
  | int w n => by_cases negative : n < 0 <;> simp [asSize, negative, bind, Except.bind, Except.toOption]
  | _ => rfl

theorem Value.size?_map (primal : ∀ d, toScalar (f d) = d.primal) (d : Value Dual) :
    (d.map f).size? = (d.map Dual.primal).size? := by
  cases d with
  | scalar a =>
    rw [Value.map, Value.map, size?_scalar, size?_scalar, primal]
    rfl
  | array rows => rfl
  | acc id arrays => rfl

/-- The tangent of what does not change is the zero of its type. -/
theorem Value.tangent_of_still {t : ScalarType} {ns : List Nat} {d : Value Dual}
    (shaped : (d.map Dual.primal).hasShape t ns = true) (still : d.Every Dual.Still) :
    d.map Dual.tangent = Value.replicate ns (.scalar (Scalar.zero t)) := by
  induction ns generalizing d with
  | nil =>
    cases d with
    | scalar a =>
      have isTy : a.primal.ty = t := by simpa [Value.map, hasShape, toScalar] using shaped
      have isZero : a.tangent = Scalar.zero a.primal.ty := still
      rw [Value.map, isZero, isTy, Value.replicate]
    | array rows => simp [Value.map, hasShape] at shaped
    | acc id arrays => simp [Value.map, hasShape] at shaped
  | cons n ns ih =>
    cases d with
    | scalar a => simp [Value.map, hasShape] at shaped
    | acc id arrays => simp [Value.map, hasShape] at shaped
    | array rows =>
      simp only [Value.map, mapRows_eq, hasShape, List.length_map, Bool.and_eq_true, beq_iff_eq,
        List.all_map, List.all_eq_true, Function.comp_apply] at shaped
      rw [Value.map, Value.replicate, mapRows_eq]
      refine congrArg Value.array (List.eq_replicate_iff.mpr ⟨by simpa using shaped.1, fun u mem => ?_⟩)
      obtain ⟨r, inRows, rfl⟩ := List.mem_map.mp mem
      exact ih (shaped.2 r inRows) ((Value.every_array rows).mp still r inRows)

/-- What the zero of the type of a value comes to. -/
theorem Store.zero_ends {σ σ' : Store Scalar} {ty : Ty} {e : Exp} (zero : Diff.zeroExp ty = some e)
    {d : Value Dual} (has : σ.hasType ty (d.map Dual.primal) = true) (still : d.Every Dual.Still)
    {run : Body → Run Scalar (List Value)} {fuel : Nat} {us : List Value}
    (ends : Run.Ends (Run.exp run fuel e) σ us σ') : us = [d.map Dual.tangent] ∧ σ' = σ := by
  cases ty with
  | acc token shape elems unique => cases zero
  | scalar t =>
    obtain rfl := Option.some.inj zero
    obtain ⟨v, applied, rfl⟩ := (Run.ends_basic ..).mp ends
    obtain ⟨read, rfl⟩ := (Run.ends_operand (.const (Scalar.zero t)) v σ σ').mp applied
    obtain rfl : .scalar (Scalar.zero t) = v := Option.some.inj read
    exact ⟨by rw [Value.tangent_of_still has still, Value.replicate], rfl⟩
  | array t shape unique =>
    obtain rfl := Option.some.inj zero
    obtain ⟨v, applied, rfl⟩ := (Run.ends_basic ..).mp ends
    simp only [Run.basicOp, Run.ends_bind, Run.ends_sizes_iff, Run.ends_operand, Run.ends_pure] at applied
    obtain ⟨ms, _, ⟨sized, rfl⟩, u, _, ⟨read, rfl⟩, rfl, rfl⟩ := applied
    obtain rfl : .scalar (Scalar.zero t) = u := Option.some.inj read
    obtain ⟨ns, sized', shaped⟩ := Store.hasType_array.mp has
    obtain rfl : ms = ns := by
      refine Option.some.inj ((option_mapM_iff.mpr sized).symm.trans (option_mapM_iff.mpr sized'))
    exact ⟨by rw [Value.tangent_of_still shaped still], rfl⟩

end

end Cotangent
