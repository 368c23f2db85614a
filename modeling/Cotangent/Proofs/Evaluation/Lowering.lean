import Cotangent.Proofs.Derivative.Dual
import Cotangent.Proofs.Evaluation.FormulaRuns
/-!
What the statements of a formula leave behind when they end, in terms of the scalars that a store holds
where they start. It follows from what they come to in general.
-/
namespace Cotangent

namespace Formula

variable {read read' : Name → Option Scalar}

mutual

/-- A formula depends on the names it reads alone. -/
theorem eval_congr (f : Formula) (same : ∀ x ∈ f.names, read x = read' x) :
    f.eval read = f.eval read' := by
  cases f with
  | leaf x t => exact same x (by simp [names])
  | lit v => rfl
  | unary op a =>
    simp only [eval]
    rw [eval_congr a same]
  | binary op a b =>
    obtain ⟨left, right⟩ := List.forall_mem_append.mp same
    simp only [eval]
    rw [eval_congr a left, eval_congr b right]
  | compare op a b =>
    obtain ⟨left, right⟩ := List.forall_mem_append.mp same
    simp only [eval]
    rw [eval_congr a left, eval_congr b right]
  | convert op a =>
    simp only [eval]
    rw [eval_congr a same]
  | call func args t =>
    simp only [eval]
    rw [evals_congr args same]

theorem evals_congr (fs : List Formula) (same : ∀ x ∈ formulaNames fs, read x = read' x) :
    evals read fs = evals read' fs := by
  cases fs with
  | nil => rfl
  | cons f fs =>
    obtain ⟨first, rest⟩ := List.forall_mem_append.mp same
    simp only [evals]
    rw [eval_congr f first, evals_congr fs rest]

end

mutual

/-- Evaluation with the faults left out. -/
theorem eval_eq {env : Name → Scalar} (f : Formula) (same : ∀ x ∈ f.names, read x = some (env x)) :
    f.eval read = (f.evaluate env).toOption := by
  cases f with
  | leaf x t => exact same x (by simp [names])
  | lit v => rfl
  | unary op a =>
    simp only [eval, evaluate, eval_eq a same]
    cases a.evaluate env <;> rfl
  | binary op a b =>
    obtain ⟨left, right⟩ := List.forall_mem_append.mp same
    simp only [eval, evaluate, eval_eq a left, eval_eq b right]
    cases a.evaluate env with
    | error e => rfl
    | ok x => cases b.evaluate env <;> rfl
  | compare op a b =>
    obtain ⟨left, right⟩ := List.forall_mem_append.mp same
    simp only [eval, evaluate, eval_eq a left, eval_eq b right]
    cases a.evaluate env with
    | error e => rfl
    | ok x =>
      cases b.evaluate env with
      | error e => rfl
      | ok y =>
        show (do return Scalar.bool (← (op.apply x y).toOption)) =
          (do return Scalar.bool (← op.apply x y) : Except Fault Scalar).toOption
        cases op.apply x y <;> rfl
  | convert op a =>
    simp only [eval, evaluate, eval_eq a same]
    cases a.evaluate env <;> rfl
  | call func args t =>
    simp only [eval, evaluate, evals_eq args same]
    cases evaluateAll env args <;> rfl

theorem evals_eq {env : Name → Scalar} (fs : List Formula)
    (same : ∀ x ∈ formulaNames fs, read x = some (env x)) :
    evals read fs = (evaluateAll env fs).toOption := by
  cases fs with
  | nil => rfl
  | cons f fs =>
    obtain ⟨first, rest⟩ := List.forall_mem_append.mp same
    simp only [evals, evaluateAll, eval_eq f first, evals_eq fs rest]
    cases f.evaluate env with
    | error e => rfl
    | ok x => cases evaluateAll env fs <;> rfl

end

end Formula

def Value.scalar? {α : Type} : Value α → Option α
  | .scalar v => some v
  | _ => none

/-- The scalar that a name stands for. -/
def Store.reading (σ : Store Scalar) (x : Name) : Option Scalar :=
  (σ.vars.find? x).bind Value.scalar?

/-- The names were drawn before, and they stand for the scalars that `read` gives them. -/
def Store.Supplies (σ : Store Scalar) (read : Name → Option Scalar) (bound : Nat) (xs : List Name) :
    Prop :=
  ∀ x ∈ xs, x.id < bound ∧ ∃ v, read x = some v ∧ σ.vars.find? x = some (.scalar v)

theorem Store.reading_of_find {σ : Store Scalar} {x : Name} {v : Scalar}
    (found : σ.vars.find? x = some (.scalar v)) : σ.reading x = some v := by
  simp [reading, found, Value.scalar?]

theorem Store.Agree.reading {on : Name → Prop} {σ τ : Store Scalar} (agree : σ.Agree on τ) {x : Name}
    (known : on x) : τ.reading x = σ.reading x := by
  unfold Store.reading
  rw [agree x known]

namespace Run

/-- The names that code emitted from one builder to another leaves alone. -/
def Spared (b c : Builder) (x : Name) : Prop := x.id < b.supply.next ∨ c.supply.next ≤ x.id

/-- Statements whose only lasting effect is on names drawn in the meantime. Where they end, with `xs`
    standing for what `read` gives, `post` holds of the store. -/
structure Leads (read : Name → Option Scalar) (xs : List Name) (b : Builder) (new : List Stm)
    (c : Builder) (post : Store Scalar → Prop) : Prop where
  emitted : c.stms = b.stms ++ new
  holds : ∀ fuel (σ τ : Store Scalar), σ.Supplies read b.supply.next xs →
    Ends (stms fuel new) σ () τ → σ.Agree (Spared b c) τ ∧ post τ

/-- The names were drawn before, and `read` gives them something. -/
def Readable (read : Name → Option Scalar) (bound : Nat) (xs : List Name) : Prop :=
  ∀ x ∈ xs, x.id < bound ∧ ∃ v, read x = some v

/-- The operand stands for what the formula comes to. -/
def Stands (x : Operand) (value : Option Scalar) (τ : Store Scalar) : Prop :=
  ∃ v, value = some v ∧ τ.value x = some (.scalar v)

variable {read : Name → Option Scalar} {xs : List Name} {b c d : Builder} {new : List Stm}

/-- A formula bound to a name that was drawn just before. -/
theorem drawn_leads (f : Formula) (t : Ty) (aux : Annotations) {b d : Builder}
    (same : d.stms = b.stms) (drawn : d.supply.next = b.supply.next + 1)
    (readable : Readable read b.supply.next xs) (inside : ∀ x ∈ f.names, x ∈ xs) :
    b.supply.next < (Build.bindFormula ⟨⟨b.supply.next⟩, t⟩ aux f d).2.supply.next ∧
      ∃ new, Leads read xs b new (Build.bindFormula ⟨⟨b.supply.next⟩, t⟩ aux f d).2
        (Stands (.var ⟨b.supply.next⟩) (f.eval read)) := by
  let env : Name → Scalar := fun x => (read x).getD (.bool false)
  have known : ∀ x ∈ xs, read x = some (env x) := fun x mem => by
    obtain ⟨-, v, given⟩ := readable x mem
    simp [env, given]
  have past : ∀ x ∈ xs, x.id < d.supply.next := fun x mem => by
    have small := (readable x mem).1
    omega
  have prepared : Prepares env xs d f (Build.expOf f d) := prepares f past inside
  obtain ⟨γ, ready, finish, new, split, emits⟩ := prepared
  have le : d.supply.next ≤ (Build.expOf f d).2.supply.next := emits.next_le
  have evaluates := emits.evaluates.bind ⟨⟨b.supply.next⟩, t⟩ aux
  rw [← split] at evaluates
  refine ⟨show b.supply.next < (Build.expOf f d).2.supply.next by omega,
    new ++ [⟨[⟨⟨b.supply.next⟩, t⟩], aux, (Build.expOf f d).1⟩], ?_, ?_⟩
  · show (Build.expOf f d).2.stms ++ _ = _
    rw [emits.emitted, same, List.append_assoc]
  · intro fuel σ τ supplies ends
    have gives : σ.Gives env xs := fun x mem => by
      obtain ⟨-, v, given, found⟩ := supplies x mem
      simpa [env, given] using found
    refine ⟨(evaluates.kept gives ends).mono fun x spared inNew => ?_, ?_⟩
    · have spared : x.id < b.supply.next ∨ (Build.expOf f d).2.supply.next ≤ x.id := spared
      rw [boundNames_append, emits.drawn, List.mem_append, mem_namesBetween] at inNew
      rcases inNew with bounds | last
      · omega
      · obtain rfl : x = ⟨b.supply.next⟩ := by simpa [boundNames] using last
        dsimp only at spared
        omega
    · cases came : f.evaluate env with
      | error e =>
        exact absurd ends (not_ends_of_outcome (evaluates.fails e came fuel σ gives) () τ)
      | ok v =>
        obtain ⟨υ, ends', -, found⟩ := evaluates.ends v came fuel σ gives
        obtain ⟨-, rfl⟩ := (ends_of_outcome ends () υ).mp ends'
        refine ⟨v, ?_, found⟩
        rw [Formula.eval_eq f fun x mem => known x (inside x mem), came]
        rfl

/-- A formula bound to a fresh name. -/
theorem letFormula_leads (f : Formula) {b : Builder} (readable : Readable read b.supply.next xs)
    (inside : ∀ x ∈ f.names, x ∈ xs) :
    ∃ new, Leads read xs b new (Build.letFormula f b).2
      (Stands (.var (Build.letFormula f b).1) (f.eval read)) :=
  (drawn_leads f _ _ (b := b) (d := { b with supply := ⟨b.supply.next + 1⟩ }) rfl rfl readable inside).2

end Run

end Cotangent
