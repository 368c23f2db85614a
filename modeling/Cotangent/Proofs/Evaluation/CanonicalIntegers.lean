import Cotangent.Proofs.Evaluation.Fuel
import Cotangent.Proofs.Evaluation.Obligations
/-!
Integers stay in the range of their width. Most operators wrap what they compute. The others rely on
their operands or on how small their results are: signs, truth values as integers, the size of a chunk,
and the counter of a for loop, which is only as small as the bound of the loop.
-/
namespace Cotangent

open Run Contract

/-- One more than the greatest integer of the width. -/
def IntWidth.limit (w : IntWidth) : Int := Int.pow 2 (w.bits - 1)

theorem IntWidth.wrap_eq_self_iff (w : IntWidth) (n : Int) :
    w.wrap n = n ↔ -w.limit ≤ n ∧ n < w.limit := by
  have twice : (w.modulus : Int) = 2 * w.limit := by cases w <;> rfl
  have positive : 0 < w.limit := by cases w <;> decide
  unfold wrap
  constructor
  · intro same
    have lower : -((w.modulus : Int) / 2) ≤ n.bmod w.modulus := Int.le_bmod (w.modulus_pos)
    have upper : n.bmod w.modulus < ((w.modulus : Int) + 1) / 2 := Int.bmod_lt (w.modulus_pos)
    omega
  · rintro ⟨lower, upper⟩
    exact Int.bmod_eq_of_le_mul_two (by omega) (by omega)

namespace Scalar

/-- An integer is the one that its width makes of it. -/
def Canonical : Scalar → Prop
  | .int w n => w.wrap n = n
  | _ => True

instance : DecidablePred Canonical
  | .int w n => inferInstanceAs (Decidable (w.wrap n = n))
  | .float .. => isTrue trivial
  | .bool .. => isTrue trivial
  | .cert => isTrue trivial

theorem canonical_wrap (w : IntWidth) (n : Int) : (int w (w.wrap n)).Canonical := w.wrap_wrap n

theorem canonical_small (w : IntWidth) {n : Int} (lower : -1 ≤ n) (upper : n ≤ 1) :
    (int w n).Canonical := by
  refine (w.wrap_eq_self_iff n).mpr ?_
  have room : 128 ≤ w.limit := by cases w <;> decide
  omega

theorem canonical_below {w : IntWidth} {n : Int} {i : Nat} (below : (i : Int) < n)
    (within : n ≤ w.limit) : (int w i).Canonical :=
  (w.wrap_eq_self_iff i).mpr (by omega)

/-- The greatest width has room for the integers of every other. -/
theorem Canonical.widen {w : IntWidth} {n : Int} (canonical : (int w n).Canonical) :
    (int .i64 n).Canonical := by
  have range := (w.wrap_eq_self_iff n).mp canonical
  have room : w.limit ≤ IntWidth.limit .i64 := by cases w <;> decide
  exact (IntWidth.wrap_eq_self_iff .i64 n).mpr (by omega)

theorem canonical_intUnary (w : IntWidth) (op : IntUnary) (n : Int) : (int w (op.apply w n)).Canonical := by
  cases op with
  | complement => exact canonical_wrap w _
  | abs => exact canonical_wrap w _
  | signum =>
    have sign := Int.sign_trichotomy n
    exact canonical_small w (by simp only [IntUnary.apply]; omega) (by simp only [IntUnary.apply]; omega)
  | unsignedSignum =>
    simp only [IntUnary.apply]
    split <;> exact canonical_small w (by decide) (by decide)

theorem canonical_unary (op : UnaryOp) {a b : Scalar} (known : op.apply a = .ok b) : b.Canonical := by
  cases op <;> simp only [UnaryOp.apply, except_bind_ok, except_pure_ok] at known <;>
    obtain ⟨x, -, rfl⟩ := known
  case not => trivial
  case float => trivial
  case int op w => exact canonical_intUnary w op x

theorem canonical_binary (op : BinaryOp) {a b r : Scalar} (known : op.apply a b = .ok r) :
    r.Canonical := by
  revert known
  fun_cases BinaryOp.apply op a b with
  | case1 op w a b =>
    simp only [except_bind_ok, except_pure_ok]
    rintro ⟨x, -, y, -, n, -, rfl⟩
    exact canonical_wrap w n
  | case2 op w a b =>
    simp only [except_bind_ok, except_pure_ok]
    rintro ⟨x, -, y, -, rfl⟩
    trivial
  | case3 =>
    rintro ⟨⟩
    trivial
  | case4 a b =>
    simp only [except_bind_ok]
    rintro ⟨(_ | _), -, known⟩
    · obtain rfl := Except.ok.inj known
      trivial
    · simp only [reduceIte, except_bind_ok, except_pure_ok] at known
      obtain ⟨y, -, rfl⟩ := known
      trivial
  | case5 a b =>
    simp only [except_bind_ok]
    rintro ⟨(_ | _), -, known⟩
    · simp only [Bool.false_eq_true, reduceIte, except_bind_ok, except_pure_ok] at known
      obtain ⟨y, -, rfl⟩ := known
      trivial
    · obtain rfl := Except.ok.inj known
      trivial

theorem canonical_convert (op : Conversion) {a b : Scalar} (known : op.apply a = .ok b) :
    b.Canonical := by
  cases op <;> simp only [Conversion.apply, except_bind_ok, except_pure_ok] at known <;>
    obtain ⟨x, -, rfl⟩ := known
  case zeroExtend s t => exact canonical_wrap t _
  case signExtend s t => exact canonical_wrap t _
  case floatToUnsigned s t => exact canonical_wrap t _
  case floatToSigned s t => exact canonical_wrap t _
  case boolToInt t => cases x <;> exact canonical_small t (by decide) (by decide)
  all_goals trivial

theorem canonical_call {func : String} {args : List Scalar} {b : Scalar}
    (known : MathFunction.call func args = .ok b) : b.Canonical := by
  unfold MathFunction.call at known
  split at known
  · cases known
  · obtain ⟨xs, -, known⟩ := (except_bind_ok ..).mp known
    split at known
    · cases known
    · obtain rfl := Except.ok.inj known
      trivial

/-- What a run makes of canonical scalars is canonical. -/
theorem closed_canonical : ScalarAlgebra.Closed Canonical where
  unary op _ _ _ known := canonical_unary op known
  binary op _ _ _ _ _ known := canonical_binary op known
  convert op _ _ _ known := canonical_convert op known
  call _ _ _ known := canonical_call known
  member w _ _ _ _ _ := canonical_wrap w _
  bool _ := trivial
  cert := trivial
  zero t := by
    cases t with
    | int w => exact canonical_small w (by decide) (by decide)
    | _ => trivial
  chunk a n canonical known := by
    cases a with
    | int w m =>
      obtain rfl := Except.ok.inj known
      exact canonical.widen
    | _ => cases known

end Scalar

/-! Runs whose for loops keep to a limit. -/

section

variable {α : Type} [ScalarAlgebra α] (limit : IntWidth → Int)

namespace Run

/-- Has no outcome in front of a for loop whose bound is above the limit for the width of its counter;
    anywhere else it does nothing. -/
def watch (e : Exp) : Run α Unit := do
  match e.bound? (← get) with
  | some (w, n) => if limit w < n then outOfFuel else return ()
  | none => return ()

/-- Runs a body as `runBody` does, with a watch on each statement. -/
def watchedBody : Nat → Body → Run α (List (Value α))
  | 0, _ => outOfFuel
  | fuel + 1, b => do
    b.stms.forM fun s => do
      watch limit s.exp
      stm (watchedBody fuel) fuel s
    operands b.result

end Run

/-- The results of a lambda on arguments; none if the fuel runs out or if the run gets to a for loop
    whose bound is above the limit. -/
def Lambda.interpWithin (l : Lambda) (args : List (Value α)) (fuel : Nat) :
    Option (Except (Fault α) (List (Value α))) :=
  result (applyLambda (watchedBody limit fuel) l args) Store.initial

/-- The watch makes no difference to the run: every for loop in it keeps to the limit. -/
def Lambda.LoopsWithin (l : Lambda) (args : List (Value α)) (fuel : Nat) : Prop :=
  l.interpWithin limit args fuel = l.interp args fuel

/-- A watch either stops the run or says that the loop ahead keeps to the limit. -/
theorem outcome_watched (e : Exp) (m : Run α Unit) (σ : Store α) :
    outcome (do watch limit e; m) σ = none ∨ outcome (do watch limit e; m) σ = outcome m σ ∧
      ∀ w n, e.bound? σ = some (w, n) → n ≤ limit w := by
  have looked : outcome (watch limit e) σ = outcome (match e.bound? σ with
    | some (w, n) => if limit w < n then outOfFuel else return ()
    | none => return ()) σ := rfl
  rw [outcome_bind, looked]
  cases bound : e.bound? σ with
  | none => exact .inr ⟨rfl, by simp⟩
  | some p =>
    obtain ⟨w, n⟩ := p
    by_cases above : limit w < n
    · simp only [if_pos above]
      exact .inl rfl
    · simp only [if_neg above]
      refine .inr ⟨rfl, fun v m same => ?_⟩
      obtain ⟨rfl, rfl⟩ : w = v ∧ n = m := by simpa using same
      omega

theorem extends_watched (e : Exp) (m : Run α Unit) : Extends (do watch limit e; m) m := by
  intro σ r known
  rcases outcome_watched limit e m σ with stops | ⟨passes, -⟩
  · exact absurd (stops.symm.trans known) (by simp)
  · exact passes.symm.trans known

variable {limit}

theorem met_watched {c : Contract α} {e : Exp} {m : Run α Unit} {σ : Store α}
    (endless : ¬ c.halts) (met : (∀ w n, e.bound? σ = some (w, n) → n ≤ limit w) →
      c.Met m (fun _ => True) σ) : c.Met (do watch limit e; m) (fun _ => True) σ := by
  refine ⟨fun must => absurd must endless, fun b τ ended => ?_⟩
  rcases outcome_watched limit e m σ with stops | ⟨passes, within⟩
  · exact absurd (stops.symm.trans ended) (by simp)
  · exact (met within).ends b τ (passes.symm.trans ended)

/-- A watched run comes to nothing that the plain run does not come to. -/
theorem extends_watchedBody (limit : IntWidth → Int) (fuel : Nat) (b : Body) :
    Extends (watchedBody limit fuel b : Run α _) (runBody fuel b) := by
  induction fuel generalizing b with
  | zero => exact .outOfFuel _
  | succ fuel ih =>
    refine (Extends.forM (fun s => ?_) b.stms).before _
    exact (extends_watched limit s.exp _).trans (extends_stm ih (Nat.le_refl fuel) s)

/-- What a run within the limit comes to is what the lambda comes to. -/
theorem interp_of_interpWithin {l : Lambda} {args : List (Value α)} {fuel : Nat}
    {r : Except (Fault α) (List (Value α))} (known : l.interpWithin limit args fuel = some r) :
    l.interp args fuel = some r := by
  rw [Lambda.interpWithin, Run.result_eq, Option.map_eq_some_iff] at known
  obtain ⟨q, ran, rfl⟩ := known
  have grows := extends_applyLambda (extends_watchedBody limit fuel) l args
  rw [interp_eq, grows _ q ran, Option.map_some]

end

/-! Canonical runs. -/

/-- Leaves in the store are canonical, and so are the constants of its operators. -/
def canonical : Contract Scalar where
  leaf := Scalar.Canonical
  operator op := ∀ v ∈ op.constants, v.Canonical
  halts := False

theorem grantsAll_canonical {l : Lambda} (constants : ∀ v ∈ l.constants, v.Canonical) :
    canonical.GrantsAll l.parts := by
  intro x mem
  cases x with
  | const v => exact constants v (mem_constants.mpr mem)
  | var x => trivial

theorem serves_watchedBody {fuel : Nat} {b : Body} (granted : canonical.GrantsAll b.parts) :
    canonical.Serves (watchedBody IntWidth.limit fuel) b := by
  induction fuel generalizing b with
  | zero => exact meets_outOfFuel id
  | succ fuel ih =>
    refine (meets_forM fun s mem σ kept => ?_).bind fun _ _ => meets_operands granted.result
    refine met_watched id fun within => met_stm Scalar.closed_canonical fuel kept {
      grants := granted.exp mem
      serves := fun inner isInner => ih (granted.mono (Body.parts_of_entered mem isInner).1)
      keeps := fun op isOperator v isIn => ?_
      updates := fun _ op constants => ih ?_
      repeats := fun _ => id
      counts := fun w n bound i below => Scalar.canonical_below below (within w n bound) }
    · have part := (Exp.parts_of_operator isOperator).trans (Body.parts_of_exp mem)
      exact granted.mono part (.const v) (mem_constants.mp isIn)
    · exact (grantsAll_canonical constants).mono (Body.parts_sublist_lambda op)

/-- Where constants and arguments are canonical and no for loop counts beyond its width, results are
    canonical. -/
theorem interp_canonical {l : Lambda} {args vals : List Value} {fuel : Nat}
    (constants : ∀ v ∈ l.constants, v.Canonical)
    (arguments : ∀ v ∈ args, v.Every Scalar.Canonical)
    (within : l.LoopsWithin IntWidth.limit args fuel)
    (known : l.interp args fuel = some (.ok vals)) : ∀ v ∈ vals, v.Every Scalar.Canonical := by
  have serves : canonical.Serves (watchedBody IntWidth.limit fuel) l.body :=
    serves_watchedBody ((grantsAll_canonical constants).mono (Body.parts_sublist_lambda l))
  obtain ⟨τ, ended⟩ := (Run.result_ok ..).mp (within.trans known)
  exact ((meets_applyLambda serves arguments _ (kept_initial _)).ends vals τ ended).2

/-- Squares in 8 bits, with a counter added in each round, and the sign of what comes out. -/
def squareRounds : Lambda :=
  let p (x : Nat) : Param := ⟨⟨x⟩, .scalar (.int .i8)⟩
  let round : Body := ⟨[⟨[p 4], .none, .basic (.binary (.int .mul .i8) (.var ⟨2⟩) (.var ⟨2⟩))⟩,
    ⟨[p 5], .none, .basic (.binary (.int .add .i8) (.var ⟨4⟩) (.var ⟨3⟩))⟩], [.var ⟨5⟩]⟩
  ⟨[p 0, p 1], ⟨[⟨[p 6], .none, .loop [(p 2, .var ⟨1⟩)] (.forBelow ⟨3⟩ .i8 (.var ⟨0⟩) []) round⟩,
    ⟨[p 7], .none, .basic (.unary (.int .signum .i8) (.var ⟨6⟩))⟩],
    [.var ⟨6⟩, .var ⟨7⟩, .const (.int .i8 (-128))]⟩, [(p 6).ty, (p 7).ty, (p 7).ty]⟩

def squareRoundsArgs : List Value := [.scalar (.int .i8 3), .scalar (.int .i8 11)]

def squareRoundsResults : List Value :=
  [.scalar (.int .i8 (-58)), .scalar (.int .i8 (-1)), .scalar (.int .i8 (-128))]

theorem interp_squareRounds :
    squareRounds.interp squareRoundsArgs 3 = some (.ok squareRoundsResults) ∧
      ∀ v ∈ squareRoundsResults, v.Every Scalar.Canonical := by
  have arguments : ∀ v ∈ squareRoundsArgs, v.Every Scalar.Canonical := by
    refine List.forall_mem_cons.mpr ⟨?_, List.forall_mem_singleton.mpr ?_⟩ <;>
      exact (Value.every_scalar _).mpr (by decide)
  have within : squareRounds.LoopsWithin IntWidth.limit squareRoundsArgs 3 := rfl
  exact ⟨rfl, interp_canonical (by decide) arguments within rfl⟩

end Cotangent
