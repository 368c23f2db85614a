import Cotangent.Proofs.Evaluation.Fuel
import Cotangent.Proofs.Evaluation.Obligations
/-!
Runs that come to an end. A body enters only smaller ones, apart from an update, which jumps to an
operator that an accumulator region has left in the store. If operators update nothing, there is one
such jump at most on the way down, so code without loops that wait for a condition comes to an end on
fuel for two descents, whatever the arguments are.
-/
namespace Cotangent

open ScalarAlgebra Run Contract

/-- No loop with a condition is among the parts. -/
abbrev LoopFree (parts : List Part) : Prop := ∀ s, .stm s ∈ parts → ¬ s.exp.repeats

/-- No update of an accumulator is among the parts. -/
abbrev UpdateFree (parts : List Part) : Prop := ∀ s, .stm s ∈ parts → ¬ s.exp.updates

variable {α : Type}

/-- Runs end, with operators in the store that update nothing and have no more parts than the bound. -/
def ending (bound : Nat) : Contract α where
  leaf _ := True
  operator op := LoopFree op.parts ∧ UpdateFree op.parts ∧ op.parts.length ≤ bound
  halts := True

variable [ScalarAlgebra α]

theorem closed_true : Closed fun _ : α => True := by
  constructor <;> intros <;> trivial

theorem grants_ending (bound : Nat) (x : Operand) : (ending bound : Contract α).Grants x := by
  cases x <;> trivial

/-- One level of the descent: a body meets the contract with a little more fuel than what its
    statements enter. -/
theorem serves_of_entered {bound fuel : Nat} {b : Body} (short : b.parts.length ≤ bound)
    (loops : LoopFree b.parts)
    (operators : ∀ s ∈ b.stms, ∀ op ∈ s.exp.operators, UpdateFree op.parts)
    (entered : ∀ s ∈ b.stms, ∀ inner ∈ s.exp.bodies,
      (ending bound : Contract α).Serves (runBody fuel) inner)
    (updates : ∀ s ∈ b.stms, s.exp.updates → ∀ op, (ending bound : Contract α).operator op →
      (ending bound : Contract α).Serves (runBody fuel) op.body) :
    (ending bound : Contract α).Serves (runBody (fuel + 1)) b := by
  refine serves_runBody closed_true (fun s mem σ _ => ?_) fun x _ => grants_ending bound x
  exact {
    grants := fun x _ => grants_ending bound x
    serves := entered s mem
    keeps := fun op isOperator => by
      have part := (Exp.parts_of_operator isOperator).trans (Body.parts_of_exp mem)
      refine ⟨fun t isIn => loops t (part.subset isIn), operators s mem op isOperator, ?_⟩
      exact Nat.le_trans part.length_le short
    updates := updates s mem
    repeats := fun repeats => absurd repeats (loops s (Body.stm_mem mem))
    counts := fun _ _ _ _ _ => trivial }

/-- Code that updates nothing ends on fuel for its own parts. -/
theorem serves_updateFree {bound fuel : Nat} {b : Body} (short : b.parts.length ≤ bound)
    (enough : b.parts.length ≤ fuel) (loops : LoopFree b.parts) (updates : UpdateFree b.parts) :
    (ending bound : Contract α).Serves (runBody fuel) b := by
  induction fuel generalizing b with
  | zero => simp [Body.parts_eq] at enough
  | succ fuel ih =>
    refine serves_of_entered short loops (fun s mem op isOperator t isIn => ?_)
      (fun s mem inner isInner => ?_) fun s mem does => absurd does (updates s (Body.stm_mem mem))
    · exact updates t (((Exp.parts_of_operator isOperator).trans (Body.parts_of_exp mem)).subset isIn)
    · obtain ⟨part, smaller⟩ := Body.parts_of_entered mem isInner
      exact ih (by omega) (by omega) (fun t isIn => loops t (part.subset isIn))
        fun t isIn => updates t (part.subset isIn)

/-- Any code ends on fuel for its own parts and for one operator. -/
theorem serves_loopFree {bound fuel : Nat} {b : Body} (short : b.parts.length ≤ bound)
    (enough : b.parts.length + bound ≤ fuel) (loops : LoopFree b.parts)
    (operators : ∀ s, .stm s ∈ b.parts → ∀ op ∈ s.exp.operators, UpdateFree op.parts) :
    (ending bound : Contract α).Serves (runBody fuel) b := by
  induction fuel generalizing b with
  | zero => simp [Body.parts_eq] at enough
  | succ fuel ih =>
    refine serves_of_entered short loops (fun s mem => operators s (Body.stm_mem mem))
      (fun s mem inner isInner => ?_) fun s mem _ op admitted => ?_
    · obtain ⟨part, smaller⟩ := Body.parts_of_entered mem isInner
      exact ih (by omega) (by omega) (fun t isIn => loops t (part.subset isIn))
        fun t isIn => operators t (part.subset isIn)
    · obtain ⟨noLoops, noUpdates, atMost⟩ := admitted
      have part := Body.parts_sublist_lambda op
      have atMost := Nat.le_trans part.length_le atMost
      have nonempty : 0 < b.parts.length := by simp [Body.parts_eq]
      exact serves_updateFree atMost (by omega) (fun t isIn => noLoops t (part.subset isIn))
        fun t isIn => noUpdates t (part.subset isIn)

/-- A lambda without loops that wait for a condition, whose combining operators update nothing, comes
    to values or a fault, and fuel for twice its parts shows to which. -/
theorem interp_settles (l : Lambda) (args : List (Value α))
    (loops : ∀ s ∈ l.statements, ¬ s.exp.repeats)
    (operators : ∀ s ∈ l.statements, ∀ op ∈ s.exp.operators, ∀ t ∈ op.statements, ¬ t.exp.updates) :
    ∃ outcome, ∀ fuel, 2 * l.parts.length ≤ fuel → l.interp args fuel = some outcome := by
  have part := Body.parts_sublist_lambda l
  have serves : (ending l.parts.length : Contract α).Serves (runBody (2 * l.parts.length)) l.body := by
    refine serves_loopFree part.length_le (by have := part.length_le; omega) (fun s isIn => ?_)
      fun s isIn op isOperator t => ?_
    · exact loops s (mem_statements.mpr (part.subset isIn))
    · intro inOperator
      exact operators s (mem_statements.mpr (part.subset isIn)) op isOperator t
        (mem_statements.mpr inOperator)
  have ends : outcome (applyLambda (runBody (2 * l.parts.length)) l args) Store.initial ≠ none :=
    (meets_applyLambda serves (fun v _ => v.every_of_forall fun _ => trivial) _
      (kept_initial _)).halts trivial
  obtain ⟨r, ran⟩ := Option.ne_none_iff_exists'.mp ends
  have known : l.interp args (2 * l.parts.length) = some (r.map Prod.fst) := by
    rw [interp_eq, ran, Option.map_some]
  exact ⟨_, fun fuel enough => interp_mono enough known⟩

/-- Adds up the first numbers in an accumulator, one update in each round of a loop. -/
def sumBelow : Lambda :=
  let t : Ty := .scalar (.int .i64)
  let extent : List Operand := [.const (.int .i64 1)]
  let handle (x : Nat) : Param := ⟨⟨x⟩, .acc ⟨2⟩ extent [t] false⟩
  let sum : Lambda := ⟨[⟨⟨5⟩, t⟩, ⟨⟨6⟩, t⟩, ⟨⟨7⟩, t⟩],
    ⟨[⟨[⟨⟨8⟩, t⟩], .none, .basic (.binary (.int .add .i64) (.var ⟨6⟩) (.var ⟨7⟩))⟩],
      [.var ⟨8⟩]⟩, [t]⟩
  let round : Body := ⟨[⟨[handle 9], .none, .basic (.updateAcc ⟨3⟩ [.const (.int .i64 0)] [.var ⟨4⟩])⟩],
    [.var ⟨9⟩]⟩
  let region : Lambda := ⟨[handle 2],
    ⟨[⟨[handle 10], .none, .loop [(handle 3, .var ⟨2⟩)] (.forBelow ⟨4⟩ .i64 (.var ⟨0⟩) []) round⟩],
      [.var ⟨10⟩]⟩, [(handle 2).ty]⟩
  let total : Ty := .array (.int .i64) extent false
  ⟨[⟨⟨0⟩, t⟩, ⟨⟨1⟩, total⟩],
    ⟨[⟨[⟨⟨11⟩, total⟩], .none,
        .withAcc [⟨extent, [⟨1⟩], some ⟨sum, [.const (.int .i64 0)]⟩⟩] region⟩], [.var ⟨11⟩]⟩, [total]⟩

def sumBelowArgs : List Value := [.scalar (.int .i64 4), .array [.scalar (.int .i64 10)]]

theorem interp_sumBelow : ∃ outcome, ∀ fuel, 2 * sumBelow.parts.length ≤ fuel →
    sumBelow.interp sumBelowArgs fuel = some outcome :=
  interp_settles sumBelow sumBelowArgs (by decide) (by decide)

example : sumBelow.interp sumBelowArgs 4 = some (.ok [.array [.scalar (.int .i64 16)]]) := by rfl

end Cotangent
