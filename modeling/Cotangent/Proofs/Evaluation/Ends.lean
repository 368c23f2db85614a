import Cotangent.Evaluation.Run
import Cotangent.Proofs.Scope.Validity
import Cotangent.Proofs.Outcome
/-!
Runs that end with a value. `Ends m σ a τ` says so of a run from the store `σ` to the store `τ`; the
lemmas below take a run apart into the runs that it is made of.
-/
namespace Cotangent

/-- The store after names were bound to as many values. -/
def Store.bound {α : Type} (σ : Store α) (xs : List Name) (vs : List (Value α)) : Store α :=
  { σ with vars := σ.vars.insertAll (xs.zip vs) }

theorem Store.bound_append {α : Type} (σ : Store α) {xs : List Name} {vs : List (Value α)}
    (ys : List Name) (us : List (Value α)) (length : vs.length = xs.length) :
    σ.bound (xs ++ ys) (vs ++ us) = (σ.bound xs vs).bound ys us := by
  simp [Store.bound, List.zip_append length.symm, NameTable.insertAll]

theorem Store.find_bound_single {α : Type} (σ : Store α) (x : Name) (v : Value α) :
    (σ.bound [x] [v]).vars.find? x = some v := by
  simp [Store.bound, NameTable.insertAll, NameTable.find_insert]

/-- What an operand stands for. -/
def Store.value {α : Type} [ScalarAlgebra α] (σ : Store α) : Operand → Option (Value α)
  | .const v => some (.scalar (ScalarAlgebra.ofScalar v))
  | .var x => σ.vars.find? x

namespace Run

variable {α β γ : Type} {σ τ υ : Store α}

def outcome (m : Run α β) (σ : Store α) : Option (Except (Fault α) (β × Store α)) := m σ

def Ends (m : Run α β) (σ : Store α) (a : β) (τ : Store α) : Prop :=
  outcome m σ = some (.ok (a, τ))

theorem ends_of_outcome {m : Run α β} {a : β} (known : outcome m σ = some (.ok (a, τ))) (b : β)
    (υ : Store α) : Ends m σ b υ ↔ a = b ∧ τ = υ := by
  unfold Ends
  rw [known]
  simp

theorem not_ends_of_outcome {m : Run α β} {e : Fault α} (known : outcome m σ = some (.error e))
    (b : β) (υ : Store α) : ¬ Ends m σ b υ := by
  unfold Ends
  rw [known]
  simp

@[simp] theorem ends_pure (a b : β) (σ τ : Store α) : Ends (pure a) σ b τ ↔ a = b ∧ σ = τ :=
  ends_of_outcome rfl b τ

theorem outcome_bind (m : Run α β) (f : β → Run α γ) (σ : Store α) :
    outcome (m >>= f) σ =
      match outcome m σ with
      | none => none
      | some (.error e) => some (.error e)
      | some (.ok (a, τ)) => outcome (f a) τ := by
  have unfolded : outcome (m >>= f) σ =
      (outcome m σ >>= fun r => ExceptT.bindCont (fun p => f p.1 p.2) r) := rfl
  rw [unfolded]
  cases outcome m σ with
  | none => rfl
  | some r =>
    cases r with
    | error e => rfl
    | ok p => rfl

@[simp] theorem ends_bind (m : Run α β) (f : β → Run α γ) (σ υ : Store α) (c : γ) :
    Ends (m >>= f) σ c υ ↔ ∃ a τ, Ends m σ a τ ∧ Ends (f a) τ c υ := by
  unfold Ends
  rw [outcome_bind]
  cases first : outcome m σ with
  | none => simp
  | some r =>
    cases r with
    | error e => simp
    | ok p =>
      obtain ⟨a, τ⟩ := p
      constructor
      · intro rest
        exact ⟨a, τ, rfl, rest⟩
      · rintro ⟨b, υ, same, rest⟩
        obtain ⟨rfl, rfl⟩ : a = b ∧ τ = υ := by simpa using same
        exact rest

@[simp] theorem ends_map (m : Run α β) (f : β → γ) (σ τ : Store α) (c : γ) :
    Ends (f <$> m) σ c τ ↔ ∃ a, Ends m σ a τ ∧ f a = c := by
  rw [map_eq_pure_bind]
  simp only [ends_bind, ends_pure]
  constructor
  · rintro ⟨a, _, ends, same, rfl⟩
    exact ⟨a, ends, same⟩
  · rintro ⟨a, ends, same⟩
    exact ⟨a, τ, ends, same, rfl⟩

@[simp] theorem ends_throw (e : Fault α) (σ τ : Store α) (b : β) :
    ¬ Ends (throw e : Run α β) σ b τ :=
  not_ends_of_outcome rfl b τ

@[simp] theorem ends_outOfFuel (σ τ : Store α) (b : β) : ¬ Ends (outOfFuel : Run α β) σ b τ := by
  have stops : outcome (outOfFuel : Run α β) σ = none := rfl
  unfold Ends
  rw [stops]
  simp

/-- A computation that does not look at the store ends where it began. -/
@[simp] theorem ends_lift (m : Except (Fault α) β) (σ τ : Store α) (b : β) :
    Ends (liftM m : Run α β) σ b τ ↔ m = .ok b ∧ σ = τ := by
  cases m with
  | ok a =>
    rw [ends_of_outcome (rfl : outcome (liftM (.ok a : Except (Fault α) β)) σ = some (.ok (a, σ)))]
    simp
  | error e =>
    have fails : outcome (liftM (.error e : Except (Fault α) β) : Run α β) σ = some (.error e) := rfl
    simp [not_ends_of_outcome fails]

@[simp] theorem ends_get (σ τ υ : Store α) :
    Ends (get : Run α (Store α)) σ τ υ ↔ σ = τ ∧ σ = υ :=
  ends_of_outcome rfl τ υ

@[simp] theorem ends_modify (f : Store α → Store α) (σ τ : Store α) (u : Unit) :
    Ends (modify f : Run α Unit) σ u τ ↔ f σ = τ := by
  have ends : Ends (modify f : Run α Unit) σ u τ ↔ () = u ∧ f σ = τ := ends_of_outcome rfl u τ
  simpa using ends

@[simp] theorem ends_lookup (x : Name) (v : Value α) (σ τ : Store α) :
    Ends (lookup x) σ v τ ↔ σ.vars.find? x = some v ∧ σ = τ := by
  simp only [lookup, ends_bind, ends_get]
  constructor
  · rintro ⟨_, _, ⟨rfl, rfl⟩, ends⟩
    cases found : σ.vars.find? x with
    | none => simp [found] at ends
    | some w => simpa [found] using ends
  · rintro ⟨found, rfl⟩
    exact ⟨σ, σ, ⟨rfl, rfl⟩, by simp [found]⟩

theorem ends_mapM_length {f : β → Run α γ} {xs : List β} {ys : List γ} {σ τ : Store α}
    (ends : Ends (xs.mapM f) σ ys τ) : ys.length = xs.length := by
  induction xs generalizing σ τ ys with
  | nil =>
    obtain ⟨rfl, -⟩ := (ends_pure ..).mp ends
    rfl
  | cons x xs ih =>
    simp only [List.mapM_cons, ends_bind, ends_pure] at ends
    obtain ⟨y, _, -, zs, _, rest, rfl, -⟩ := ends
    simp [ih rest]

theorem ends_lookups_length {xs : List Name} {vs : List (Value α)} {σ τ : Store α}
    (ends : Ends (lookups xs) σ vs τ) : vs.length = xs.length :=
  ends_mapM_length ends

@[simp] theorem ends_set (x : Name) (v : Value α) (σ τ : Store α) (u : Unit) :
    Ends (set x v) σ u τ ↔ σ.bound [x] [v] = τ :=
  ends_modify ..

@[simp] theorem ends_checkArity (m n : Nat) (σ τ : Store α) (u : Unit) :
    Ends (liftM (checkArity (α := α) m n) : Run α Unit) σ u τ ↔ n = m ∧ σ = τ := by
  rw [ends_lift]
  unfold checkArity
  by_cases same : n = m
  · simp [same]
  · simp [same]

@[simp] theorem ends_bindNames (xs : List Name) (vs : List (Value α)) (σ τ : Store α) (u : Unit) :
    Ends (Run.bind xs vs) σ u τ ↔ vs.length = xs.length ∧ σ.bound xs vs = τ := by
  simp only [Run.bind, ends_bind, ends_checkArity, ends_modify]
  constructor
  · rintro ⟨_, _, ⟨same, rfl⟩, bound⟩
    exact ⟨same, bound⟩
  · rintro ⟨same, bound⟩
    exact ⟨(), σ, ⟨same, rfl⟩, bound⟩

theorem splitValues_ok {vs : List (Value α)} {n : Nat} {parts : List (Value α) × List (Value α)}
    (known : splitValues vs n = .ok parts) : n ≤ vs.length ∧ parts = (vs.take n, vs.drop n) := by
  unfold splitValues at known
  split at known
  · cases known
  · exact ⟨by omega, (Except.ok.inj known).symm⟩

theorem inBounds_some {m : Except (Fault α) β} {b : β} (known : inBounds m = .ok (some b)) :
    m = .ok b := by
  cases m with
  | ok a => simpa [inBounds] using known
  | error e => cases e <;> simp [inBounds] at known

theorem asScalar_eq_ok (v : Value α) (a : α) : v.asScalar = .ok a ↔ v = .scalar a := by
  cases v <;> simp [Value.asScalar]

/-- What a run comes to, without the store at its end. -/
def result (m : Run α β) (σ : Store α) : Option (Except (Fault α) β) := m.run' σ

theorem result_eq (m : Run α β) (σ : Store α) :
    result m σ = (outcome m σ).map (Except.map Prod.fst) := by
  have unfolded : result m σ = outcome m σ >>= ExceptT.bindCont (pure ∘ Prod.fst) := rfl
  rw [unfolded]
  cases outcome m σ with
  | none => rfl
  | some r => cases r <;> rfl

theorem result_ok (m : Run α β) (σ : Store α) (b : β) :
    result m σ = some (.ok b) ↔ ∃ τ, Ends m σ b τ := by
  simp only [result_eq, Option.map_eq_some_iff, except_map_ok, Prod.exists, Ends]
  constructor
  · rintro ⟨_, ran, a, τ, rfl, rfl⟩
    exact ⟨τ, ran⟩
  · rintro ⟨τ, ran⟩
    exact ⟨_, ran, b, τ, rfl, rfl⟩

section

variable [ScalarAlgebra α]

@[simp] theorem ends_operand (x : Operand) (v : Value α) (σ τ : Store α) :
    Ends (operand x) σ v τ ↔ σ.value x = some v ∧ σ = τ := by
  cases x with
  | const c => simp [operand, Store.value]
  | var x => simp [operand, Store.value]

@[simp] theorem ends_scalar (x : Operand) (a : α) (σ τ : Store α) :
    Ends (scalar x) σ a τ ↔ σ.value x = some (.scalar a) ∧ σ = τ := by
  simp only [scalar, ends_bind, ends_operand, ends_lift, asScalar_eq_ok]
  constructor
  · rintro ⟨_, _, ⟨known, rfl⟩, rfl, rfl⟩
    exact ⟨known, rfl⟩
  · rintro ⟨known, rfl⟩
    exact ⟨_, σ, ⟨known, rfl⟩, rfl, rfl⟩

/-- The statements one after the other. -/
def stms (fuel : Nat) (ss : List Stm) : Run α Unit := ss.forM (stm (runBody fuel) fuel)

@[simp] theorem ends_stms_nil (fuel : Nat) (σ τ : Store α) : Ends (stms fuel []) σ () τ ↔ σ = τ := by
  simp [stms]

@[simp] theorem ends_stms_cons (fuel : Nat) (s : Stm) (ss : List Stm) (σ υ : Store α) :
    Ends (stms fuel (s :: ss)) σ () υ ↔
      ∃ τ, Ends (stm (runBody fuel) fuel s) σ () τ ∧ Ends (stms fuel ss) τ () υ := by
  simp [stms]

theorem stms_singleton (fuel : Nat) (s : Stm) :
    (stms fuel [s] : Run α Unit) = stm (runBody fuel) fuel s := by
  simp [stms]

theorem stms_append (fuel : Nat) (ss ts : List Stm) :
    (stms fuel (ss ++ ts) : Run α Unit) = stms fuel ss >>= fun _ => stms fuel ts := by
  simp [stms]

@[simp] theorem ends_stms_append (fuel : Nat) (ss ts : List Stm) (σ υ : Store α) :
    Ends (stms fuel (ss ++ ts)) σ () υ ↔
      ∃ τ, Ends (stms fuel ss) σ () τ ∧ Ends (stms fuel ts) τ () υ := by
  simp [stms]

theorem ends_stm (fuel : Nat) (s : Stm) (σ υ : Store α) :
    Ends (stm (runBody fuel) fuel s) σ () υ ↔ ∃ vs τ, Ends (exp (runBody fuel) fuel s.exp) σ vs τ ∧
      vs.length = s.pat.length ∧ τ.bound (s.pat.map (·.name)) vs = υ := by
  simp [stm]

theorem ends_runBody (fuel : Nat) (b : Body) (σ υ : Store α) (vs : List (Value α)) :
    Ends (runBody fuel b) σ vs υ ↔ ∃ below τ, fuel = below + 1 ∧ Ends (stms below b.stms) σ () τ ∧
      Ends (operands b.result) τ vs υ := by
  cases fuel with
  | zero => simp [runBody]
  | succ below =>
    simp only [runBody, stms, ends_bind, exists_unit]
    constructor
    · rintro ⟨τ, ran, read⟩
      exact ⟨below, τ, rfl, ran, read⟩
    · rintro ⟨_, τ, same, ran, read⟩
      obtain rfl := Nat.succ.inj same
      exact ⟨τ, ran, read⟩

theorem ends_basic (run : Body → Run α (List (Value α))) (fuel : Nat) (op : BasicOp) (σ τ : Store α)
    (vs : List (Value α)) :
    Ends (exp run fuel (.basic op)) σ vs τ ↔ ∃ v, Ends (basicOp run op) σ v τ ∧ vs = [v] := by
  simp only [exp, ends_bind, ends_pure]
  constructor
  · rintro ⟨v, _, ends, rfl, rfl⟩
    exact ⟨v, ends, rfl⟩
  · rintro ⟨v, ends, rfl⟩
    exact ⟨v, τ, ends, rfl, rfl⟩

end

end Run

/-! Lambdas run from the empty store. -/

section

variable {α : Type} [ScalarAlgebra α]

theorem interp_eq (l : Lambda) (args : List (Value α)) (fuel : Nat) :
    l.interp args fuel =
      (Run.outcome (Run.applyLambda (Run.runBody fuel) l args) Store.initial).map
        (Except.map Prod.fst) :=
  Run.result_eq ..

theorem interp_ok (l : Lambda) (args vs : List (Value α)) (fuel : Nat) :
    l.interp args fuel = some (.ok vs) ↔
      ∃ τ, Run.Ends (Run.applyLambda (Run.runBody fuel) l args) Store.initial vs τ :=
  Run.result_ok ..

theorem interp_error (l : Lambda) (args : List (Value α)) (fuel : Nat) (e : Fault α) :
    l.interp args fuel = some (.error e) ↔
      Run.outcome (Run.applyLambda (Run.runBody fuel) l args) Store.initial = some (.error e) := by
  rw [interp_eq]
  cases Run.outcome (Run.applyLambda (Run.runBody fuel) l args) Store.initial with
  | none => simp
  | some r => cases r <;> simp [Except.map]

end

/-! Stores that agree. -/

/-- The stores give the same values to the names that `on` picks out. -/
def Store.Agree {α : Type} (on : Name → Prop) (σ τ : Store α) : Prop :=
  ∀ x, on x → τ.vars.find? x = σ.vars.find? x

namespace Store.Agree

variable {α : Type} {on other : Name → Prop} {σ τ υ : Store α}

theorem refl (on : Name → Prop) (σ : Store α) : σ.Agree on σ := fun _ _ => rfl

theorem trans (first : σ.Agree on τ) (second : τ.Agree on υ) : σ.Agree on υ :=
  fun x known => (second x known).trans (first x known)

theorem mono (agree : σ.Agree on τ) (sub : ∀ x, other x → on x) : σ.Agree other τ :=
  fun x known => agree x (sub x known)

theorem bound {xs : List Name} (σ : Store α) (vs : List (Value α)) (apart : ∀ x ∈ xs, ¬ on x) :
    σ.Agree on (σ.bound xs vs) := by
  intro x known
  refine NameTable.find_insertAll_of_not_mem _ _ _ fun p mem same => ?_
  exact apart p.1 (List.of_mem_zip mem).1 (same ▸ known)

theorem value [ScalarAlgebra α] (agree : σ.Agree on τ) {x : Operand} (known : ∀ y ∈ x.names, on y) :
    τ.value x = σ.value x := by
  cases x with
  | const v => rfl
  | var x => exact agree x (known x (by simp [Operand.names]))

end Store.Agree

end Cotangent
