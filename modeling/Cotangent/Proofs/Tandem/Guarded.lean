import Cotangent.Proofs.Evaluation.ScalarRuns
/-!
Runs with a look at the names that are read. Before each statement, and before the results of a body, a
guard may look at the store; it stops the run with a given fault or lets it go on. A run that reaches
somewhere ends as wanted, unless the guard stops it.
-/
namespace Cotangent

/-- The names that are read, types apart. -/
def Outline.uses : Outline → List Name
  | done => []
  | binds _ rest => rest.uses
  | reads x rest => x :: rest.uses
  | mentions _ rest => rest.uses
  | count _ _ rest => rest.uses
  | block inside rest => inside.uses ++ rest.uses

/-- The names that a statement reads from outside. -/
def Stm.uses (s : Stm) : List Name := s.outline.uses.filter (· ∉ s.outline.binders)

namespace Outline

@[simp] theorem uses_append (o p : Outline) : (o ++ p).uses = o.uses ++ p.uses := by
  induction o with
  | done => rfl
  | binds x rest ih => exact ih
  | reads x rest ih => exact congrArg (x :: ·) ih
  | mentions x rest ih => exact ih
  | count m n rest ih => exact ih
  | block inside rest _ ih => simp [uses, ih]

@[simp] theorem uses_readsAll (xs : List Name) : (readsAll xs).uses = xs := by
  induction xs with
  | nil => rfl
  | cons x xs ih => exact congrArg (x :: ·) ih

/-- What is read and not in scope is bound on the way. -/
theorem Accepted.uses {o : Outline} {scope : Scope} (accepted : o.Accepted scope) {x : Name}
    (mem : x ∈ o.uses) : x ∈ scope ∨ x ∈ o.binders := by
  induction o generalizing scope with
  | done => simp [Outline.uses] at mem
  | binds y rest ih =>
    rcases ih accepted.2 mem with known | binder
    · rcases List.mem_cons.mp known with rfl | known
      · exact .inr (by simp)
      · exact .inl known
    · exact .inr (by simp [binder])
  | reads y rest ih =>
    rcases List.mem_cons.mp mem with rfl | mem
    · exact .inl accepted.1
    · exact ih accepted.2 mem
  | mentions y rest ih => exact ih accepted mem
  | count m n rest ih => exact ih accepted.2 mem
  | block inside rest insideIH ih =>
    rcases List.mem_append.mp mem with mem | mem
    · exact (insideIH accepted.1 mem).imp_right fun binder => by simp [binder]
    · exact (ih accepted.2 mem).imp_right fun binder => by simp [binder]

end Outline

/-- What the statement reads in scope it reads from outside. -/
theorem Stm.mem_uses {s : Stm} {scope : Scope} (accepted : s.outline.Accepted scope) {x : Name}
    (read : x ∈ s.outline.uses) (known : x ∈ scope) : x ∈ s.uses :=
  List.mem_filter.mpr ⟨read, by simpa using fun binder => Outline.not_mem_of_binder accepted binder known⟩

theorem Stm.uses_known {s : Stm} {scope : Scope} (accepted : s.outline.Accepted scope) :
    ∀ x ∈ s.uses, x ∈ scope := by
  intro x mem
  obtain ⟨read, outside⟩ := List.mem_filter.mp mem
  exact (accepted.uses read).resolve_right (by simpa using outside)

namespace Run

variable {α β γ : Type}

section

variable [ScalarAlgebra α] (guard : List Name → List Name → Run α Unit)

/-- Runs a body as `runBody` does, with the guard in front of each statement and of the results. The
    guard is told which names are read, and which are bound. -/
def guardedBody : Nat → Body → Run α (List (Value α))
  | 0, _ => outOfFuel
  | fuel + 1, b => do
    b.stms.forM fun s => do
      guard s.uses s.outline.binders
      stm (guardedBody fuel) fuel s
    guard (operandNames b.result) []
    operands b.result

/-- The statements one after the other, with the guard in front of each. -/
def guardedStms (fuel : Nat) (ss : List Stm) : Run α Unit :=
  ss.forM fun s => do
    guard s.uses s.outline.binders
    stm (guardedBody guard fuel) fuel s

theorem guardedStms_cons (fuel : Nat) (s : Stm) (ss : List Stm) :
    guardedStms guard fuel (s :: ss) =
      (guard s.uses s.outline.binders >>= fun _ => stm (guardedBody guard fuel) fuel s) >>=
        fun _ => guardedStms guard fuel ss := by
  simp [guardedStms]

theorem guardedBody_succ (fuel : Nat) (b : Body) :
    guardedBody guard (fuel + 1) b = (do
      guardedStms guard fuel b.stms
      guard (operandNames b.result) []
      operands b.result) := rfl

end

/-- The run ends with what is wanted, if the fault does not stop it. -/
def Reaches (stop : Fault α) (m : Run α β) (τ : Store α) (post : β → Store α → Prop) : Prop :=
  outcome m τ = some (.error stop) ∨ ∃ b τ', Ends m τ b τ' ∧ post b τ'

section

variable {stop : Fault α} {m : Run α β} {k : β → Run α γ} {τ τ' : Store α} {b : β}
  {mid post post' : β → Store α → Prop} {last : γ → Store α → Prop}

theorem reaches_of_ends (ends : Ends m τ b τ') (holds : post b τ') : Reaches stop m τ post :=
  .inr ⟨b, τ', ends, holds⟩

theorem Reaches.mono (reaches : Reaches stop m τ post) (weaker : ∀ b τ', post b τ' → post' b τ') :
    Reaches stop m τ post' :=
  reaches.imp_right fun ⟨b, τ', ends, holds⟩ => ⟨b, τ', ends, weaker b τ' holds⟩

theorem Reaches.bind (first : Reaches stop m τ mid) (rest : ∀ b τ', mid b τ' → Reaches stop (k b) τ' last) :
    Reaches stop (m >>= k) τ last := by
  rcases first with stopped | ⟨b, τ', ends, holds⟩
  · refine .inl ?_
    rw [outcome_bind, stopped]
  · rcases rest b τ' holds with stopped | ⟨c, υ, ends', holds'⟩
    · refine .inl ?_
      rw [outcome_bind, show outcome m τ = some (.ok (b, τ')) from ends]
      exact stopped
    · exact .inr ⟨c, υ, (ends_bind ..).mpr ⟨b, τ', ends, ends'⟩, holds'⟩

/-- A step that ends in front of others. -/
theorem Reaches.after (ends : Ends m τ b τ') (rest : Reaches stop (k b) τ' last) :
    Reaches stop (m >>= k) τ last :=
  have here : Reaches stop m τ fun c υ => c = b ∧ υ = τ' := reaches_of_ends ends ⟨rfl, rfl⟩
  here.bind fun _ _ ⟨same, same'⟩ => same ▸ same' ▸ rest

end

/-! A run on plain scalars, and another that follows it. -/

/-- Wherever the first run ends the second ends as well, if the fault does not stop it, and what they
    end with is related. -/
def Shadows (stop : Fault α) (m' : Run Scalar β) (σ : Store Scalar) (m : Run α γ) (τ : Store α)
    (post : β → Store Scalar → γ → Store α → Prop) : Prop :=
  ∀ b σ', Ends m' σ b σ' → Reaches stop m τ fun c τ' => post b σ' c τ'

section

variable {δ ε : Type} {stop : Fault α} {m' : Run Scalar β} {m : Run α γ} {k' : β → Run Scalar δ}
  {k : γ → Run α ε} {σ : Store Scalar} {τ : Store α} {mid post : β → Store Scalar → γ → Store α → Prop}
  {last : δ → Store Scalar → ε → Store α → Prop}

theorem shadows_pure {b : β} {c : γ} (holds : post b σ c τ) :
    Shadows stop (pure b) σ (pure c) τ post := by
  intro b' σ' ends
  obtain ⟨rfl, rfl⟩ := (ends_pure ..).mp ends
  exact reaches_of_ends ((ends_pure ..).mpr ⟨rfl, rfl⟩) holds

theorem shadows_of_ends (each : ∀ b σ', Ends m' σ b σ' → ∃ c τ', Ends m τ c τ' ∧ post b σ' c τ') :
    Shadows stop m' σ m τ post := by
  intro b σ' ends
  obtain ⟨c, τ', ends', holds⟩ := each b σ' ends
  exact reaches_of_ends ends' holds

theorem Shadows.mono (shadows : Shadows stop m' σ m τ mid)
    (weaker : ∀ b σ' c τ', mid b σ' c τ' → post b σ' c τ') : Shadows stop m' σ m τ post :=
  fun b σ' ends => (shadows b σ' ends).mono fun c τ' => weaker b σ' c τ'

theorem Shadows.bind (first : Shadows stop m' σ m τ mid)
    (rest : ∀ b σ' c τ', mid b σ' c τ' → Shadows stop (k' b) σ' (k c) τ' last) :
    Shadows stop (m' >>= k') σ (m >>= k) τ last := by
  intro d υ ends
  obtain ⟨b, σ', ran, ends⟩ := (ends_bind ..).mp ends
  exact (first b σ' ran).bind fun c τ' holds => rest b σ' c τ' holds d υ ends

/-- Something that only the first run does. -/
theorem Shadows.before {last : δ → Store Scalar → γ → Store α → Prop}
    (rest : ∀ b σ', Ends m' σ b σ' → Shadows stop (k' b) σ' m τ last) :
    Shadows stop (m' >>= k') σ m τ last := by
  intro d υ ends
  obtain ⟨b, σ', ran, ends⟩ := (ends_bind ..).mp ends
  exact rest b σ' ran d υ ends

/-- Steps that only read, with values that are related. -/
theorem Shadows.reads (rel : β → γ → Prop)
    (each : ∀ b σ', Ends m' σ b σ' → σ' = σ ∧ ∃ c, Ends m τ c τ ∧ rel b c)
    (rest : ∀ b c, rel b c → Shadows stop (k' b) σ (k c) τ last) :
    Shadows stop (m' >>= k') σ (m >>= k) τ last := by
  have first : Shadows stop m' σ m τ fun b σ' c τ' => σ' = σ ∧ τ' = τ ∧ rel b c :=
    shadows_of_ends fun b σ' ends => by
      obtain ⟨rfl, c, ends', related⟩ := each b σ' ends
      exact ⟨c, τ, ends', rfl, rfl, related⟩
  refine first.bind fun b σ' c τ' => ?_
  rintro ⟨rfl, rfl, related⟩
  exact rest b c related

theorem Shadows.lift (rel : β → γ → Prop) {x' : Except Fault β} {x : Except (Fault α) γ}
    (each : ∀ b, x' = .ok b → ∃ c, x = .ok c ∧ rel b c)
    (rest : ∀ b c, rel b c → Shadows stop (k' b) σ (k c) τ last) :
    Shadows stop (liftM x' >>= k') σ (liftM x >>= k) τ last := by
  refine Shadows.reads rel (fun b σ' ends => ?_) rest
  obtain ⟨known, rfl⟩ := (ends_lift ..).mp ends
  obtain ⟨c, known', related⟩ := each b known
  exact ⟨rfl, c, (ends_lift ..).mpr ⟨known', rfl⟩, related⟩

/-- Rounds follow rounds if each round keeps what relates the two runs. -/
theorem shadows_rounds {step' : Nat → β → Run Scalar β} {step : Nat → γ → Run α γ}
    {inv : β → Store Scalar → γ → Store α → Prop}
    (each : ∀ i b σ c τ, inv b σ c τ → Shadows stop (step' i b) σ (step i c) τ inv) (n i : Nat) {b : β}
    {c : γ} (start : inv b σ c τ) : Shadows stop (rounds step' n i b) σ (rounds step n i c) τ inv := by
  induction n generalizing i b c σ τ with
  | zero => exact shadows_pure start
  | succ n ih =>
    exact Shadows.bind (each i b σ c τ start) fun b' σ' c' τ' holds => ih (i + 1) holds

theorem shadows_repeatWhile {holds' : Run Scalar Bool} {holds : Run α Bool} {step' : Run Scalar Unit}
    {step : Run α Unit} {inv : Store Scalar → Store α → Prop}
    (test : ∀ σ τ, inv σ τ → Shadows stop holds' σ holds τ fun b σ' c τ' => b = c ∧ inv σ' τ')
    (each : ∀ σ τ, inv σ τ → Shadows stop step' σ step τ fun _ σ' _ τ' => inv σ' τ') (fuel : Nat)
    (start : inv σ τ) :
    Shadows stop (repeatWhile holds' step' fuel) σ (repeatWhile holds step fuel) τ
      fun _ σ' _ τ' => inv σ' τ' := by
  induction fuel generalizing σ τ with
  | zero => exact fun b σ' ends => absurd ends (ends_outOfFuel _ _ _)
  | succ fuel ih =>
    refine Shadows.bind (test σ τ start) ?_
    rintro b σ' _ τ' ⟨rfl, kept⟩
    cases b with
    | false => exact shadows_pure kept
    | true => exact Shadows.bind (each σ' τ' kept) fun _ σ'' _ τ'' => ih

end

end Run

end Cotangent
