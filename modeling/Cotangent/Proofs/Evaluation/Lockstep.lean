import Cotangent.Proofs.Evaluation.Confinement
/-!
Two runs in lockstep. From stores that stand in one relation they both run out of fuel, or both fail, with
whatever fault, or both end, with values and stores that stand in another. A confined run goes in lockstep with
itself under every relation that bindings of its names keep, and steps that only read may change places.
-/
namespace Cotangent

variable {α β γ δ ε κ : Type}

namespace Run

/-- Outcomes of one sort, and related if they are values. -/
inductive Paired (R : β → Store α → γ → Store α → Prop) :
    Option (Except (Fault α) (β × Store α)) → Option (Except (Fault α) (γ × Store α)) → Prop
  | starved : Paired R none none
  | failed (e e' : Fault α) : Paired R (some (.error e)) (some (.error e'))
  | ended {b σ c τ} : R b σ c τ → Paired R (some (.ok (b, σ))) (some (.ok (c, τ)))

/-- From stores related by `P` the runs come to outcomes of one sort, with values related by `R`. -/
def Lockstep (P : Store α → Store α → Prop) (R : β → Store α → γ → Store α → Prop) (m : Run α β)
    (m' : Run α γ) : Prop :=
  ∀ σ τ, P σ τ → Paired R (outcome m σ) (outcome m' τ)

section

variable {P Q : Store α → Store α → Prop} {R S : β → Store α → γ → Store α → Prop}
  {m : Run α β} {m' : Run α γ}

theorem Paired.mono {x : Option (Except (Fault α) (β × Store α))}
    {y : Option (Except (Fault α) (γ × Store α))} (paired : Paired R x y)
    (sub : ∀ b σ c τ, R b σ c τ → S b σ c τ) : Paired S x y := by
  cases paired with
  | starved => exact .starved
  | failed e e' => exact .failed e e'
  | ended related => exact .ended (sub _ _ _ _ related)

/-- The same values, and a fault on one side if there is one on the other. -/
theorem Paired.results {x y : Option (Except (Fault α) (β × Store α))}
    (paired : Paired (fun b σ c τ => b = c ∧ Q σ τ) x y) :
    (∀ b, x.map (Except.map Prod.fst) = some (.ok b) ↔ y.map (Except.map Prod.fst) = some (.ok b)) ∧
      ((∃ e, x.map (Except.map Prod.fst) = some (.error e)) ↔
        ∃ e, y.map (Except.map Prod.fst) = some (.error e)) := by
  cases paired with
  | starved => simp
  | failed e e' => simp [Except.map]
  | ended related =>
    obtain ⟨rfl, -⟩ := related
    simp [Except.map]

theorem Lockstep.mono (locked : Lockstep P R m m') (before : ∀ σ τ, Q σ τ → P σ τ)
    (after : ∀ b σ c τ, R b σ c τ → S b σ c τ) : Lockstep Q S m m' :=
  fun σ τ related => (locked σ τ (before σ τ related)).mono after

theorem Lockstep.bind {T : δ → Store α → ε → Store α → Prop} {f : β → Run α δ} {f' : γ → Run α ε}
    (first : Lockstep P R m m')
    (rest : ∀ b c, Lockstep (fun σ τ => R b σ c τ) T (f b) (f' c)) :
    Lockstep P T (m >>= f) (m' >>= f') := by
  intro σ τ related
  have paired := first σ τ related
  rw [outcome_bind, outcome_bind]
  generalize outcome m σ = x at paired ⊢
  generalize outcome m' τ = y at paired ⊢
  cases paired with
  | starved => exact .starved
  | failed e e' => exact .failed e e'
  | ended related => exact rest _ _ _ _ related

/-- The first run came to its value somehow. -/
theorem Lockstep.ended (locked : Lockstep P R m m') :
    Lockstep P (fun b σ c τ => (∃ υ, Ends m υ b σ) ∧ R b σ c τ) m m' := by
  intro σ τ related
  have paired := locked σ τ related
  generalize ran : outcome m σ = x at paired ⊢
  generalize outcome m' τ = y at paired ⊢
  cases paired with
  | starved => exact .starved
  | failed e e' => exact .failed e e'
  | ended known => exact .ended ⟨⟨σ, ran⟩, known⟩

/-- Both runs go on from the same value, with which the first one ended. -/
theorem Lockstep.next {m' : Run α β} {T : δ → Store α → ε → Store α → Prop} {f : β → Run α δ}
    {f' : β → Run α ε} (first : Lockstep P (fun b σ c τ => b = c ∧ Q σ τ) m m')
    (rest : ∀ b, (∃ σ τ, Ends m σ b τ) → Lockstep Q T (f b) (f' b)) :
    Lockstep P T (m >>= f) (m' >>= f') := by
  refine first.ended.bind fun b c σ τ known => ?_
  obtain ⟨⟨υ, ends⟩, rfl, related⟩ := known
  exact rest b ⟨υ, σ, ends⟩ σ τ related

/-- A step that only the second run takes, and that never fails. -/
theorem Lockstep.ahead {T : β → Store α → ε → Store α → Prop} {Q : γ → Store α → Store α → Prop}
    {f' : γ → Run α ε} (surely : ∀ σ τ, P σ τ → ∃ c υ, Ends m' τ c υ ∧ Q c σ υ)
    (rest : ∀ c, Lockstep (Q c) T m (f' c)) : Lockstep P T m (m' >>= f') := by
  intro σ τ related
  obtain ⟨c, υ, ends, related⟩ := surely σ τ related
  rw [outcome_bind, show outcome m' τ = some (.ok (c, υ)) from ends]
  exact rest c σ υ related

/-- Only the second run still has something to do, which never fails. -/
theorem lockstep_ends {b : β} (surely : ∀ σ τ, P σ τ → ∃ c υ, Ends m' τ c υ ∧ R b σ c υ) :
    Lockstep P R (pure b) m' := by
  intro σ τ related
  obtain ⟨c, υ, ends, related⟩ := surely σ τ related
  rw [show outcome m' τ = some (.ok (c, υ)) from ends]
  exact .ended related

theorem Lockstep.known {p : Prop} (locked : p → Lockstep P R m m') :
    Lockstep (fun σ τ => p ∧ P σ τ) R m m' := fun σ τ related => locked related.1 σ τ related.2

theorem lockstep_pure {b : β} {c : γ} (related : ∀ σ τ, P σ τ → R b σ c τ) :
    Lockstep P R (pure b : Run α β) (pure c : Run α γ) := fun σ τ known => .ended (related σ τ known)

theorem lockstep_lift (e : Except (Fault α) β) :
    Lockstep P (fun b σ c τ => b = c ∧ P σ τ) (liftM e : Run α β) (liftM e) := by
  cases e with
  | error e => exact fun σ τ _ => .failed e e
  | ok b => exact fun σ τ known => .ended ⟨rfl, known⟩

theorem lockstep_bindNames {xs ys : List Name} {vs ws : List (Value α)}
    (same : vs.length = xs.length ↔ ws.length = ys.length)
    (bound : ∀ σ τ, P σ τ → Q (σ.bound xs vs) (τ.bound ys ws)) :
    Lockstep P (fun _ σ _ τ => Q σ τ) (Run.bind xs vs) (Run.bind ys ws) := by
  intro σ τ related
  by_cases fits : vs.length = xs.length
  · have here : outcome (Run.bind xs vs) σ = some (.ok ((), σ.bound xs vs)) :=
      (ends_bindNames ..).mpr ⟨fits, rfl⟩
    have there : outcome (Run.bind ys ws) τ = some (.ok ((), τ.bound ys ws)) :=
      (ends_bindNames ..).mpr ⟨same.mp fits, rfl⟩
    rw [here, there]
    exact .ended (bound σ τ related)
  · have misfits : ¬ ws.length = ys.length := fun fit => fits (same.mpr fit)
    have here : outcome (Run.bind xs vs) σ = some (.error (.arity xs.length vs.length)) := by
      simp only [Run.bind, checkArity, if_neg fits]
      rfl
    have there : outcome (Run.bind ys ws) τ = some (.error (.arity ys.length ws.length)) := by
      simp only [Run.bind, checkArity, if_neg misfits]
      rfl
    rw [here, there]
    exact .failed _ _

theorem lockstep_rounds {B : β → γ → Store α → Store α → Prop} {step : Nat → β → Run α β}
    {step' : Nat → γ → Run α γ}
    (each : ∀ i b c, Lockstep (B b c) (fun b σ c τ => B b c σ τ) (step i b) (step' i c)) (n i : Nat)
    (b : β) (c : γ) :
    Lockstep (B b c) (fun b σ c τ => B b c σ τ) (rounds step n i b) (rounds step' n i c) := by
  induction n generalizing i b c with
  | zero => exact lockstep_pure fun σ τ known => known
  | succ n ih => exact (each i b c).bind fun b c => ih (i + 1) b c

end

/-- What the bindings of its names keep, and what agrees on them, a confined run keeps. -/
theorem Confined.lockstep {on : Name → Prop} {P : Store α → Store α → Prop} {m : Run α β}
    (confined : Confined on m) (agree : ∀ σ τ, P σ τ → σ.Agree on τ)
    (bound : ∀ σ τ xs vs, P σ τ → (∀ x ∈ xs, on x) → P (σ.bound xs vs) (τ.bound xs vs)) :
    Lockstep P (fun b σ c τ => b = c ∧ P σ τ) m m := by
  induction confined with
  | lift e => exact lockstep_lift e
  | outOfFuel => exact fun σ τ _ => .starved
  | @lookup x visible =>
    intro σ τ related
    rw [outcome_lookup, outcome_lookup, agree σ τ related x visible]
    cases σ.vars.find? x with
    | none => exact .failed _ _
    | some v => exact .ended ⟨rfl, related⟩
  | @bindNames xs vs visible =>
    refine (lockstep_bindNames .rfl fun σ τ related => bound σ τ xs vs related visible).mono
      (fun _ _ related => related) fun _ _ _ _ related => ⟨rfl, related⟩
  | bind first rest ih ih' => exact ih.next fun b _ => ih' b

/-! Runs that only read. -/

/-- The run does not change the store, and it comes to the same wherever the names of `on` have the same
    values. It never runs out of fuel. -/
def Reads (on : Name → Prop) (m : Run α β) : Prop :=
  ∀ σ τ : Store α, σ.Agree on τ → ∃ r : Except (Fault α) β,
    outcome m σ = some (r.map (·, σ)) ∧ outcome m τ = some (r.map (·, τ))

namespace Reads

variable {on : Name → Prop} {m : Run α β}

theorem lift (e : Except (Fault α) β) : Reads on (liftM e : Run α β) := fun σ τ _ => by
  cases e with
  | error e => exact ⟨.error e, rfl, rfl⟩
  | ok b => exact ⟨.ok b, rfl, rfl⟩

theorem pure (b : β) : Reads on (pure b : Run α β) := lift (.ok b)

theorem lookup {x : Name} (visible : on x) : Reads on (lookup x : Run α (Value α)) := by
  intro σ τ agree
  rw [outcome_lookup, outcome_lookup, agree x visible]
  cases σ.vars.find? x with
  | none => exact ⟨.error _, rfl, rfl⟩
  | some v => exact ⟨.ok v, rfl, rfl⟩

theorem bind {f : β → Run α γ} (first : Reads on m) (rest : ∀ b, Reads on (f b)) :
    Reads on (m >>= f) := by
  intro σ τ agree
  obtain ⟨r, here, there⟩ := first σ τ agree
  rw [outcome_bind, outcome_bind, here, there]
  cases r with
  | error e => exact ⟨.error e, rfl, rfl⟩
  | ok b => exact rest b σ τ agree

theorem mapM {f : β → Run α γ} {xs : List β} (each : ∀ x ∈ xs, Reads on (f x)) :
    Reads on (xs.mapM f) := by
  induction xs with
  | nil => exact .pure []
  | cons x xs ih =>
    rw [List.mapM_cons]
    have rest := ih fun y later => each y (by simp [later])
    exact (each x (by simp)).bind fun y => rest.bind fun ys => .pure (y :: ys)

theorem lookups {xs : List Name} (visible : ∀ x ∈ xs, on x) :
    Reads on (lookups xs : Run α (List (Value α))) :=
  mapM fun x mem => lookup (visible x mem)

section

open Occurrences

variable [ScalarAlgebra α]

theorem operand {x : Operand} (seen : Seen on x.occurrences) :
    Reads on (operand x : Run α (Value α)) := by
  cases x with
  | const v => exact .pure _
  | var x => exact .lookup (seen (.reads x) List.mem_cons_self)

theorem operands {xs : List Operand} (seen : Seen on (operandOccurrences xs)) :
    Reads on (operands xs : Run α (List (Value α))) :=
  mapM fun x mem => operand ((seen_operands xs).mp seen x mem)

theorem int {x : Operand} (seen : Seen on x.occurrences) : Reads on (int x : Run α Int) :=
  ((operand seen).bind fun v => lift v.asScalar).bind fun v => lift (ScalarAlgebra.asInt v)

end

variable {P : Store α → Store α → Prop} {S : γ → Store α → δ → Store α → Prop}

theorem lockstep (reads : Reads on m) (agree : ∀ σ τ, P σ τ → σ.Agree on τ) :
    Lockstep P (fun b σ c τ => b = c ∧ P σ τ) m m := by
  intro σ τ related
  obtain ⟨r, here, there⟩ := reads σ τ (agree σ τ related)
  rw [here, there]
  cases r with
  | error e => exact .failed e e
  | ok b => exact .ended ⟨rfl, related⟩

/-- Steps that only read may change places. -/
theorem swap {m' : Run α ε} {f : β → ε → Run α γ} {other : Run α δ} (first : Reads on m)
    (second : Reads on m')
    (locked : Lockstep P S (m' >>= fun b' => m >>= fun b => f b b') other) :
    Lockstep P S (m >>= fun b => m' >>= fun b' => f b b') other := by
  intro σ τ related
  have paired := locked σ τ related
  obtain ⟨r, here, -⟩ := first σ σ (.refl _ σ)
  obtain ⟨r', here', -⟩ := second σ σ (.refl _ σ)
  have swapped : outcome (m >>= fun b => m' >>= fun b' => f b b') σ =
        outcome (m' >>= fun b' => m >>= fun b => f b b') σ ∨
      ∃ e e', outcome (m >>= fun b => m' >>= fun b' => f b b') σ = some (.error e) ∧
        outcome (m' >>= fun b' => m >>= fun b => f b b') σ = some (.error e') := by
    simp only [outcome_bind, here, here']
    cases r <;> cases r' <;> simp [Except.map, here, here']
  rcases swapped with same | ⟨e, e', failed, failed'⟩
  · rwa [same]
  · rw [failed]
    rw [failed'] at paired
    generalize outcome other τ = y at paired ⊢
    cases paired with
    | failed _ e'' => exact .failed e e''

/-- Three of them, in the opposite order. -/
theorem reverse {m' : Run α ε} {m'' : Run α κ} {f : β → ε → κ → Run α γ} {other : Run α δ}
    (first : Reads on m) (second : Reads on m') (third : Reads on m'')
    (locked : Lockstep P S (m'' >>= fun b'' => m' >>= fun b' => m >>= fun b => f b b' b'') other) :
    Lockstep P S (m >>= fun b => m' >>= fun b' => m'' >>= fun b'' => f b b' b'') other := by
  refine swap first second ?_
  have paired : (m' >>= fun b' => m >>= fun b => m'' >>= fun b'' => f b b' b'') =
      (m' >>= fun b' => m >>= fun b => Pure.pure (b, b')) >>= fun p => m'' >>= fun b'' =>
        f p.1 p.2 b'' := by
    simp only [bind_assoc, pure_bind]
  rw [paired]
  refine swap (second.bind fun b' => first.bind fun b => .pure (b, b')) third ?_
  simpa only [bind_assoc, pure_bind] using locked

end Reads

end Run

end Cotangent
