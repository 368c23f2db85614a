import Mathlib.Data.List.Forall2
import Mathlib.Data.List.Nodup
import Mathlib.Data.List.Range
import Cotangent.Proofs.Evaluation.ScalarRuns
/-!
Running the statements that a formula is lowered to. They come to exactly what the formula comes to
when it is evaluated directly, faults included: the statements stand in the order of evaluation, so the
first of them that fails is the first operation that fails. Each binds the next name of the supply, and
an operand that was lowered early keeps its value until it is read.
-/
namespace Cotangent

open Outline

namespace Formula

variable {α : Type} [ScalarAlgebra α]

mutual

/-- What a formula comes to where its leaves stand for the scalars of `env`. Operands are evaluated from
    left to right, and the first fault ends the evaluation. -/
def evaluate (env : Name → α) : Formula → Except (Fault α) α
  | .leaf x _ => .ok (env x)
  | .lit v => .ok (ScalarAlgebra.ofScalar v)
  | .unary op a => do ScalarAlgebra.unary op (← evaluate env a)
  | .binary op a b => do
    let x ← evaluate env a
    let y ← evaluate env b
    ScalarAlgebra.binary op x y
  | .compare op a b => do
    let x ← evaluate env a
    let y ← evaluate env b
    return ScalarAlgebra.ofScalar (.bool (← ScalarAlgebra.compare op x y))
  | .convert op a => do ScalarAlgebra.convert op (← evaluate env a)
  | .call func args _ => do ScalarAlgebra.call func (← evaluateAll env args)

def evaluateAll (env : Name → α) : List Formula → Except (Fault α) (List α)
  | [] => .ok []
  | f :: fs => do
    let x ← evaluate env f
    let xs ← evaluateAll env fs
    return x :: xs

end

end Formula

/-- The names that statements bind, those inside their expressions apart. -/
def boundNames (ss : List Stm) : List Name := ss.flatMap fun s => s.pat.map (·.name)

theorem boundNames_append (ss ts : List Stm) :
    boundNames (ss ++ ts) = boundNames ss ++ boundNames ts := List.flatMap_append

/-- The names that a supply hands out on its way from one number to another. -/
def namesBetween (first last : Nat) : List Name := (List.range' first (last - first)).map Name.mk

theorem mem_namesBetween {m n : Nat} {x : Name} :
    x ∈ namesBetween m n ↔ m ≤ x.id ∧ x.id < n := by
  simp only [namesBetween, List.mem_map, List.mem_range'_1]
  constructor
  · rintro ⟨i, bounds, rfl⟩
    dsimp only
    omega
  · intro bounds
    exact ⟨x.id, by omega, rfl⟩

theorem nodup_namesBetween (m n : Nat) : (namesBetween m n).Nodup :=
  List.Nodup.map (fun _ _ same => Name.mk.inj same) (List.nodup_range' 1)

theorem namesBetween_append {m k n : Nat} (first : m ≤ k) (second : k ≤ n) :
    namesBetween m k ++ namesBetween k n = namesBetween m n := by
  have joined : List.range' m (k - m) ++ List.range' (m + 1 * (k - m)) (n - k) =
      List.range' m (k - m + (n - k)) := List.range'_append
  rw [show m + 1 * (k - m) = k by omega, show k - m + (n - k) = n - m by omega] at joined
  rw [namesBetween, namesBetween, ← List.map_append, joined, namesBetween]

/-- The store gives the names the scalars of `env`. -/
def Store.Gives {α : Type} (σ : Store α) (env : Name → α) (xs : List Name) : Prop :=
  ∀ x ∈ xs, σ.vars.find? x = some (.scalar (env x))

theorem Store.Gives.agree {α : Type} {on : Name → Prop} {σ τ : Store α} {env : Name → α}
    {xs : List Name} (gives : σ.Gives env xs) (agree : σ.Agree on τ) (known : ∀ x ∈ xs, on x) :
    τ.Gives env xs :=
  fun x mem => (agree x (known x mem)).trans (gives x mem)

namespace Run

variable {α β γ δ : Type} {σ τ : Store α}

theorem outcome_lift (m : Except (Fault α) β) (σ : Store α) :
    outcome (liftM m : Run α β) σ = some (m.map fun b => (b, σ)) := by
  cases m <;> rfl

theorem outcome_bind_of_ends {m : Run α β} {b : β} (ends : Ends m σ b τ) (f : β → Run α γ) :
    outcome (m >>= f) σ = outcome (f b) τ := by
  rw [outcome_bind, show outcome m σ = some (.ok (b, τ)) from ends]

theorem outcome_bind_of_error {m : Run α β} {e : Fault α} (fails : outcome m σ = some (.error e))
    (f : β → Run α γ) : outcome (m >>= f) σ = some (.error e) := by
  rw [outcome_bind, fails]

variable [ScalarAlgebra α] {env : Name → α} {xs : List Name}

/-- Where the store gives the names `xs` their scalars, the statements come to `value`: they end, having
    changed nothing but what they bind, in a store of which `post` holds, or they end with the fault. -/
structure Evaluates (env : Name → α) (xs : List Name) (new : List Stm) (value : Except (Fault α) γ)
    (post : γ → Store α → Prop) : Prop where
  ends : ∀ v, value = .ok v → ∀ fuel (σ : Store α), σ.Gives env xs →
    ∃ τ, Ends (stms fuel new) σ () τ ∧ σ.Agree (· ∉ boundNames new) τ ∧ post v τ
  fails : ∀ e, value = .error e → ∀ fuel (σ : Store α), σ.Gives env xs →
    outcome (stms fuel new) σ = some (.error e)

theorem evaluates_nil {v : γ} {post : γ → Store α → Prop}
    (holds : ∀ σ : Store α, σ.Gives env xs → post v σ) : Evaluates env xs [] (.ok v) post where
  ends := by
    rintro _ ⟨⟩ fuel σ gives
    exact ⟨σ, (ends_stms_nil ..).mpr rfl, .refl _ σ, holds σ gives⟩
  fails := by
    rintro _ ⟨⟩

theorem Evaluates.map {new : List Stm} {value : Except (Fault α) γ} {post : γ → Store α → Prop}
    {post' : δ → Store α → Prop} (evaluates : Evaluates env xs new value post) (g : γ → δ)
    (weaker : ∀ v τ, post v τ → post' (g v) τ) : Evaluates env xs new (value.map g) post' where
  ends v known fuel σ gives := by
    obtain ⟨a, came, rfl⟩ := (except_map_ok ..).mp known
    obtain ⟨τ, ends, agree, holds⟩ := evaluates.ends a came fuel σ gives
    exact ⟨τ, ends, agree, weaker a τ holds⟩
  fails e known := evaluates.fails e (by cases value <;> simp_all [Except.map])

/-- What the first statements come to is still there after the others. -/
theorem Evaluates.append {new more : List Stm} {first : Except (Fault α) γ}
    {second : Except (Fault α) δ} {post : γ → Store α → Prop} {post' : δ → Store α → Prop}
    (left : Evaluates env xs new first post) (right : Evaluates env xs more second post')
    (apart : ∀ x ∈ xs, x ∉ boundNames new) :
    Evaluates env xs (new ++ more) (do return (← first, ← second)) fun v υ =>
      ∃ τ, post v.1 τ ∧ τ.Agree (· ∉ boundNames more) υ ∧ post' v.2 υ where
  ends v known fuel σ gives := by
    simp only [except_bind_ok, except_pure_ok] at known
    obtain ⟨a, isFirst, b, isSecond, rfl⟩ := known
    obtain ⟨τ, ends, agree, here⟩ := left.ends a isFirst fuel σ gives
    obtain ⟨υ, ends', agree', there⟩ := right.ends b isSecond fuel τ (gives.agree agree apart)
    refine ⟨υ, (ends_stms_append ..).mpr ⟨τ, ends, ends'⟩, ?_, τ, here, agree', there⟩
    rw [boundNames_append]
    simp only [List.mem_append, not_or]
    exact (agree.mono fun x outside => outside.1).trans (agree'.mono fun x outside => outside.2)
  fails e known fuel σ gives := by
    rw [stms_append]
    rcases except_bind_error.mp known with failed | ⟨a, isFirst, rest⟩
    · exact outcome_bind_of_error (left.fails e failed fuel σ gives) _
    · obtain ⟨τ, ends, agree, -⟩ := left.ends a isFirst fuel σ gives
      rcases except_bind_error.mp rest with failed | ⟨b, -, impossible⟩
      · exact (outcome_bind_of_ends ends _).trans
          (right.fails e failed fuel τ (gives.agree agree apart))
      · cases impossible

/-- The expression comes to one scalar or to a fault, and leaves the store as it is. -/
def Yields (e : Exp) (value : Except (Fault α) α) (τ : Store α) : Prop :=
  ∀ fuel, outcome (exp (runBody fuel) fuel e) τ = some (value.map fun v => ([.scalar v], τ))

/-- An expression bound to a name, after the statements for its operands. -/
theorem Evaluates.bind {new : List Stm} {e : Exp} {ready : Except (Fault α) γ}
    {finish : γ → Except (Fault α) α}
    (evaluates : Evaluates env xs new ready fun v => Yields e (finish v)) (p : Param)
    (aux : Annotations) : Evaluates env xs (new ++ [⟨[p], aux, e⟩]) (ready >>= finish) fun v τ =>
      τ.vars.find? p.name = some (.scalar v) := by
  have last (fuel : Nat) : (stms fuel [⟨[p], aux, e⟩] : Run α Unit) =
      (do Run.bind [p.name] (← exp (runBody fuel) fuel e)) := by simp [stms, stm]
  constructor
  · intro v known fuel σ gives
    obtain ⟨a, isReady, finished⟩ := (except_bind_ok ..).mp known
    obtain ⟨τ, ends, agree, yields⟩ := evaluates.ends a isReady fuel σ gives
    have came : Ends (exp (runBody fuel) fuel e) τ [.scalar v] τ := by
      have came := yields fuel
      rwa [finished] at came
    refine ⟨τ.bound [p.name] [.scalar v], ?_, ?_, ?_⟩
    · rw [stms_append, last]
      refine (ends_bind ..).mpr ⟨(), τ, ends, (ends_bind ..).mpr ⟨_, τ, came, ?_⟩⟩
      exact (ends_bindNames ..).mpr ⟨rfl, rfl⟩
    · rw [boundNames_append]
      simp only [List.mem_append, not_or]
      refine (agree.mono fun x outside => outside.1).trans (.bound τ _ fun x mem outside => ?_)
      exact outside.2 (by simpa [boundNames] using mem)
    · exact Store.find_bound_single τ p.name (.scalar v)
  · intro f known fuel σ gives
    rw [stms_append, last]
    rcases except_bind_error.mp known with failed | ⟨a, isReady, failed⟩
    · exact outcome_bind_of_error (evaluates.fails f failed fuel σ gives) _
    · obtain ⟨τ, ends, -, yields⟩ := evaluates.ends a isReady fuel σ gives
      have came := yields fuel
      rw [failed] at came
      exact (outcome_bind_of_ends ends _).trans (outcome_bind_of_error came _)

/-! What the outermost operation of a formula yields, once its operands stand in the store. -/

/-- The operand stands for the scalar. -/
def Carries (x : Operand) (a : α) (τ : Store α) : Prop := τ.value x = some (.scalar a)

theorem yields_operand {x : Operand} {a : α} (carries : Carries x a τ) :
    Yields (.basic (.operand x)) (.ok a) τ :=
  fun _ => (ends_basic ..).mpr ⟨_, (ends_operand ..).mpr ⟨carries, rfl⟩, rfl⟩

theorem outcome_scalar {x : Operand} {a : α} (carries : Carries x a τ) :
    outcome (scalar x) τ = some (.ok (a, τ)) := (ends_scalar ..).mpr ⟨carries, rfl⟩

theorem yields_unary {x : Operand} {a : α} (op : UnaryOp) (carries : Carries x a τ) :
    Yields (.basic (.unary op x)) (ScalarAlgebra.unary op a) τ := by
  intro fuel
  simp only [exp, basicOp, outcome_bind, outcome_scalar carries, outcome_lift]
  cases ScalarAlgebra.unary op a <;> rfl

theorem yields_binary {x y : Operand} {a b : α} (op : BinaryOp) (left : Carries x a τ)
    (right : Carries y b τ) : Yields (.basic (.binary op x y)) (ScalarAlgebra.binary op a b) τ := by
  intro fuel
  simp only [exp, basicOp, outcome_bind, outcome_scalar left, outcome_scalar right, outcome_lift]
  cases ScalarAlgebra.binary op a b <;> rfl

theorem yields_compare {x y : Operand} {a b : α} (op : Comparison) (left : Carries x a τ)
    (right : Carries y b τ) : Yields (.basic (.compare op x y))
      (do return ScalarAlgebra.ofScalar (.bool (← ScalarAlgebra.compare op a b))) τ := by
  intro fuel
  simp only [exp, basicOp, outcome_bind, outcome_scalar left, outcome_scalar right, outcome_lift]
  cases ScalarAlgebra.compare op a b <;> rfl

theorem yields_convert {x : Operand} {a : α} (op : Conversion) (carries : Carries x a τ) :
    Yields (.basic (.convert op x)) (ScalarAlgebra.convert op a) τ := by
  intro fuel
  simp only [exp, basicOp, outcome_bind, outcome_scalar carries, outcome_lift]
  cases ScalarAlgebra.convert op a <;> rfl

theorem yields_call {operands : List Operand} {args : List α} (func : String) (ret : List Ty)
    (carry : List.Forall₂ (fun x a => Carries x a τ) operands args) :
    Yields (.apply func operands ret) (ScalarAlgebra.call func args) τ := by
  intro fuel
  have read : outcome (operands.mapM scalar) τ = some (.ok (args, τ)) :=
    ends_scalars.mpr ⟨carry, rfl⟩
  simp only [exp, outcome_bind, read, outcome_lift]
  cases ScalarAlgebra.call func args <;> rfl

theorem Carries.agree {on : Name → Prop} {x : Operand} {a : α} (carries : Carries x a σ)
    (agree : σ.Agree on τ) (known : ∀ y ∈ x.names, on y) : Carries x a τ :=
  (agree.value known).trans carries

/-! Lowering. -/

/-- The builder has emitted statements that come to `value` and bind, in order, the names drawn in the
    meantime. -/
structure Emits (env : Name → α) (xs : List Name) (b : Builder) (new : List Stm) (c : Builder)
    (value : Except (Fault α) γ) (post : γ → Store α → Prop) : Prop where
  emitted : c.stms = b.stms ++ new
  next_le : b.supply.next ≤ c.supply.next
  drawn : boundNames new = namesBetween b.supply.next c.supply.next
  evaluates : Evaluates env xs new value post

variable {b c d : Builder} {new more : List Stm} {value : Except (Fault α) γ}
  {post post' : γ → Store α → Prop}

theorem emits_nothing {v : γ} (holds : ∀ σ : Store α, σ.Gives env xs → post v σ) :
    Emits env xs b [] b (.ok v) post where
  emitted := by simp
  next_le := Nat.le_refl _
  drawn := by simp [boundNames, namesBetween]
  evaluates := evaluates_nil holds

theorem Emits.map {post' : δ → Store α → Prop} (emits : Emits env xs b new c value post) (g : γ → δ)
    (weaker : ∀ v τ, post v τ → post' (g v) τ) : Emits env xs b new c (value.map g) post' :=
  ⟨emits.emitted, emits.next_le, emits.drawn, emits.evaluates.map g weaker⟩

theorem Emits.mono {post' : γ → Store α → Prop} (emits : Emits env xs b new c value post)
    (weaker : ∀ v τ, post v τ → post' v τ) : Emits env xs b new c value post' := by
  have same : value.map id = value := by cases value <;> rfl
  exact same ▸ emits.map id weaker

theorem Emits.apart (emits : Emits env xs b new c value post)
    (past : ∀ x ∈ xs, x.id < b.supply.next) : ∀ x ∈ xs, x ∉ boundNames new := by
  intro x mem inNew
  rw [emits.drawn, mem_namesBetween] at inNew
  have small := past x mem
  omega

theorem Emits.append {first : Except (Fault α) γ} {second : Except (Fault α) δ}
    {post' : δ → Store α → Prop} (left : Emits env xs b new c first post)
    (right : Emits env xs c more d second post') (past : ∀ x ∈ xs, x.id < b.supply.next) :
    Emits env xs b (new ++ more) d (do return (← first, ← second)) fun v υ =>
      ∃ τ, post v.1 τ ∧ τ.Agree (· ∉ boundNames more) υ ∧ post' v.2 υ where
  emitted := by rw [right.emitted, left.emitted, List.append_assoc]
  next_le := Nat.le_trans left.next_le right.next_le
  drawn := by
    rw [boundNames_append, left.drawn, right.drawn, namesBetween_append left.next_le right.next_le]
  evaluates := left.evaluates.append right.evaluates (left.apart past)

/-- An operand that holds the value of the formula, and no name that is still to be drawn. -/
def Holds (env : Name → α) (xs : List Name) (b : Builder) (f : Formula) (r : Operand × Builder) :
    Prop :=
  (∃ new, Emits env xs b new r.2 (f.evaluate env) (Carries r.1)) ∧
    ∀ y ∈ r.1.names, y.id < r.2.supply.next

/-- Statements for the operands of the outermost operation of a formula. With what they come to, the
    operation finishes the evaluation. -/
def Prepares (env : Name → α) (xs : List Name) (b : Builder) (f : Formula) (r : Exp × Builder) :
    Prop :=
  ∃ (γ : Type) (ready : Except (Fault α) γ) (finish : γ → Except (Fault α) α) (new : List Stm),
    f.evaluate env = ready >>= finish ∧
      Emits env xs b new r.2 ready fun v => Yields r.1 (finish v)

theorem Prepares.holds {f : Formula} {e : Exp} {t : Ty} (prepares : Prepares env xs b f (e, c)) :
    Holds env xs b f (.var ⟨c.supply.next⟩, (Build.letExp t e c).2) := by
  obtain ⟨γ, ready, finish, new, same, emits⟩ := prepares
  refine ⟨⟨new ++ [⟨[⟨⟨c.supply.next⟩, t⟩], .none, e⟩], ?_, ?_, ?_, ?_⟩, ?_⟩
  · show c.stms ++ _ = _
    rw [emits.emitted, List.append_assoc]
  · exact Nat.le_succ_of_le emits.next_le
  · have last : namesBetween c.supply.next (c.supply.next + 1) = [⟨c.supply.next⟩] := by
      simp [namesBetween]
    show boundNames (new ++ _) = namesBetween b.supply.next (c.supply.next + 1)
    rw [boundNames_append, emits.drawn, ← namesBetween_append emits.next_le (Nat.le_succ _), last]
    rfl
  · rw [same]
    exact emits.evaluates.bind ⟨⟨c.supply.next⟩, t⟩ .none
  · intro y mem
    obtain rfl := List.mem_singleton.mp mem
    exact Nat.lt_succ_self _

theorem Prepares.operand {f : Formula} (prepares : Prepares env xs b f (Build.expOf f b))
    (past : ∀ x ∈ xs, x.id < b.supply.next) (inside : ∀ x ∈ f.names, x ∈ xs) :
    Holds env xs b f (Build.lower f b) := by
  cases f with
  | leaf x t =>
    have known : x ∈ xs := inside x (by simp [Formula.names])
    refine ⟨⟨[], emits_nothing fun σ gives => gives x known⟩, ?_⟩
    simpa [Build.lower, Build.operandOf, Operand.names] using past x known
  | lit v =>
    refine ⟨⟨[], emits_nothing fun σ _ => rfl⟩, ?_⟩
    simp [Build.lower, Build.operandOf, Operand.names]
  | _ => exact prepares.holds

theorem Holds.past {f : Formula} {r : Operand × Builder} (holds : Holds env xs b f r)
    (past : ∀ x ∈ xs, x.id < b.supply.next) : ∀ x ∈ xs, x.id < r.2.supply.next := by
  obtain ⟨⟨new, emits⟩, -⟩ := holds
  exact fun x mem => Nat.lt_of_lt_of_le (past x mem) emits.next_le

/-- An operand keeps its value while statements run that bind names drawn later. -/
theorem Carries.later {x : Operand} {a : α} (carries : Carries x a τ) {υ : Store α}
    (agree : τ.Agree (· ∉ boundNames more) υ)
    (drawn : boundNames more = namesBetween c.supply.next d.supply.next)
    (below : ∀ y ∈ x.names, y.id < c.supply.next) : Carries x a υ := by
  refine carries.agree agree fun y mem inMore => ?_
  rw [drawn, mem_namesBetween] at inMore
  have small := below y mem
  omega

/-- Two operands lowered one after the other. -/
theorem Holds.both {f g : Formula} (left : Holds env xs b f (Build.lower f b))
    (right : Holds env xs (Build.lower f b).2 g (Build.lower g (Build.lower f b).2))
    (past : ∀ x ∈ xs, x.id < b.supply.next) :
    ∃ new, Emits env xs b new (Build.lower g (Build.lower f b).2).2
      (do return (← f.evaluate env, ← g.evaluate env)) fun v τ =>
        Carries (Build.lower f b).1 v.1 τ ∧ Carries (Build.lower g (Build.lower f b).2).1 v.2 τ := by
  obtain ⟨⟨new, first⟩, drawn⟩ := left
  obtain ⟨⟨more, second⟩, -⟩ := right
  refine ⟨new ++ more, (first.append second past).mono ?_⟩
  rintro v υ ⟨τ, carries, agree, carries'⟩
  exact ⟨carries.later agree second.drawn drawn, carries'⟩

omit [ScalarAlgebra α] in
theorem pair_bind (first : Except (Fault α) β) (second : Except (Fault α) γ)
    (f : β → γ → Except (Fault α) δ) :
    (do let v ← (do return (← first, ← second) : Except (Fault α) (β × γ)); f v.1 v.2) =
      (do let x ← first; let y ← second; f x y) := by
  cases first with
  | error e => rfl
  | ok x => cases second <;> rfl

mutual

/-- One case for each kind of formula. -/
theorem prepares (f : Formula) {b : Builder} (past : ∀ x ∈ xs, x.id < b.supply.next)
    (inside : ∀ x ∈ f.names, x ∈ xs) : Prepares env xs b f (Build.expOf f b) := by
  cases f with
  | leaf x t =>
    refine ⟨Unit, .ok (), fun _ => .ok (env x), [], rfl, emits_nothing fun σ gives => ?_⟩
    exact yields_operand (gives x (inside x (by simp [Formula.names])))
  | lit v =>
    exact ⟨Unit, .ok (), fun _ => .ok (ScalarAlgebra.ofScalar v), [], rfl,
      emits_nothing fun σ _ => yields_operand rfl⟩
  | unary op a =>
    obtain ⟨⟨new, emits⟩, -⟩ := (prepares a past inside).operand past inside
    exact ⟨α, a.evaluate env, ScalarAlgebra.unary op, new, rfl,
      emits.mono fun v τ carries => yields_unary op carries⟩
  | binary op x y =>
    obtain ⟨left, right⟩ := List.forall_mem_append.mp inside
    have first := (prepares x past left).operand past left
    have later := first.past past
    obtain ⟨new, emits⟩ := first.both ((prepares y later right).operand later right) past
    exact ⟨α × α, _, fun v => ScalarAlgebra.binary op v.1 v.2, new, (pair_bind ..).symm,
      emits.mono fun v τ carries => yields_binary op carries.1 carries.2⟩
  | compare op x y =>
    obtain ⟨left, right⟩ := List.forall_mem_append.mp inside
    have first := (prepares x past left).operand past left
    have later := first.past past
    obtain ⟨new, emits⟩ := first.both ((prepares y later right).operand later right) past
    refine ⟨α × α, _, fun v => do
      return ScalarAlgebra.ofScalar (.bool (← ScalarAlgebra.compare op v.1 v.2)), new,
        (pair_bind _ _ fun a b => do
          return ScalarAlgebra.ofScalar (.bool (← ScalarAlgebra.compare op a b))).symm,
        emits.mono fun v τ carries => yields_compare op carries.1 carries.2⟩
  | convert op a =>
    obtain ⟨⟨new, emits⟩, -⟩ := (prepares a past inside).operand past inside
    exact ⟨α, a.evaluate env, ScalarAlgebra.convert op, new, rfl,
      emits.mono fun v τ carries => yields_convert op carries⟩
  | call func args t =>
    obtain ⟨new, emits⟩ := prepares_all args past inside
    exact ⟨List α, Formula.evaluateAll env args, ScalarAlgebra.call func, new, rfl,
      emits.mono fun v τ carry => yields_call func _ carry⟩

theorem prepares_all (fs : List Formula) {b : Builder} (past : ∀ x ∈ xs, x.id < b.supply.next)
    (inside : ∀ x ∈ formulaNames fs, x ∈ xs) :
    ∃ new, Emits env xs b new (Build.operandsOf fs b).2 (Formula.evaluateAll env fs) fun vs τ =>
      List.Forall₂ (fun x a => Carries x a τ) (Build.operandsOf fs b).1 vs := by
  cases fs with
  | nil => exact ⟨[], emits_nothing fun σ _ => .nil⟩
  | cons f fs =>
    obtain ⟨left, right⟩ := List.forall_mem_append.mp inside
    have here := (prepares f past left).operand past left
    obtain ⟨more, second⟩ := prepares_all fs (here.past past) right
    obtain ⟨⟨new, first⟩, drawn⟩ := here
    have split : Formula.evaluateAll env (f :: fs) =
        (do return (← f.evaluate env, ← Formula.evaluateAll env fs) : Except (Fault α) (α × List α)).map
          fun v => v.1 :: v.2 := by
      rw [Formula.evaluateAll]
      cases f.evaluate env with
      | error e => rfl
      | ok v => cases Formula.evaluateAll env fs <;> rfl
    rw [split]
    refine ⟨new ++ more, (first.append second past).map _ ?_⟩
    rintro v υ ⟨τ, carries, agree, rest⟩
    exact .cons (carries.later agree second.drawn drawn) rest

end

/-! Whole formulas. -/

/-- Between the builders `b` and `c`, statements were emitted that come to exactly `value` from the store
    `σ`, the same scalar or the same fault, and leave it in `x`. Besides `targets` they bind names drawn
    from the supply, each once and all of them new to the store. No other name of the store changes. -/
structure Computes (σ : Store α) (b c : Builder) (x : Operand) (targets : List Name)
    (value : Except (Fault α) α) (new : List Stm) : Prop where
  emitted : c.stms = b.stms ++ new
  result : ∀ fuel, result (do stms fuel new; operand x) σ = some (value.map .scalar)
  bound : ∃ drawn, boundNames new = drawn ++ targets ∧ drawn.Nodup ∧
    ∀ y ∈ drawn, b.supply.next ≤ y.id ∧ y.id < c.supply.next ∧ σ.vars.find? y = none
  kept : ∀ fuel τ, Ends (stms fuel new) σ () τ →
    ∀ y, (σ.vars.find? y).isSome → y ∉ targets → τ.vars.find? y = σ.vars.find? y

theorem Evaluates.result {value : Except (Fault α) α} {x : Operand}
    (evaluates : Evaluates env xs new value (Carries x)) (gives : σ.Gives env xs) (fuel : Nat) :
    result (do stms fuel new; operand x) σ = some (value.map .scalar) := by
  cases came : value with
  | ok v =>
    obtain ⟨τ, ends, -, carries⟩ := evaluates.ends v came fuel σ gives
    exact (result_ok ..).mpr ⟨τ, (ends_bind ..).mpr ⟨(), τ, ends, (ends_operand ..).mpr ⟨carries, rfl⟩⟩⟩
  | error e =>
    rw [result_eq, outcome_bind_of_error (evaluates.fails e came fuel σ gives)]
    rfl

theorem Evaluates.kept {value : Except (Fault α) γ} (evaluates : Evaluates env xs new value post)
    (gives : σ.Gives env xs) {fuel : Nat} (ends : Ends (stms fuel new) σ () τ) :
    σ.Agree (· ∉ boundNames new) τ := by
  cases came : value with
  | ok v =>
    obtain ⟨υ, ends', agree, -⟩ := evaluates.ends v came fuel σ gives
    have same := (ends_of_outcome ends () υ).mp ends'
    exact same.2 ▸ agree
  | error e => exact absurd ends (not_ends_of_outcome (evaluates.fails e came fuel σ gives) () τ)

/-- Statements that bind names drawn on the way, and then `targets`. -/
theorem Evaluates.computes {value : Except (Fault α) α} {x : Operand} {targets : List Name}
    (evaluates : Evaluates env xs new value (Carries x)) (gives : σ.Gives env xs)
    (past : ∀ y, (σ.vars.find? y).isSome → y.id < b.supply.next)
    (emitted : c.stms = b.stms ++ new)
    (drawn : boundNames new = namesBetween b.supply.next c.supply.next ++ targets) :
    Computes σ b c x targets value new where
  emitted := emitted
  result := evaluates.result gives
  bound := by
    refine ⟨_, drawn, nodup_namesBetween _ _, fun y mem => ?_⟩
    obtain ⟨lower, upper⟩ := mem_namesBetween.mp mem
    refine ⟨lower, upper, ?_⟩
    cases found : σ.vars.find? y with
    | none => rfl
    | some v =>
      have small := past y (by simp [found])
      omega
  kept fuel τ ends y known other := by
    refine evaluates.kept gives ends y fun inNew => ?_
    rw [drawn, List.mem_append, mem_namesBetween] at inNew
    have small := past y known
    exact inNew.elim (fun bounds => by omega) other

/-- Lowering a formula preserves what it comes to, where the leaves have scalars and the supply is past
    every name of the store. -/
theorem lowering_preserves_value (f : Formula) (p : Param) (aux : Annotations) {env : Name → α}
    {b : Builder} {σ : Store α} (binds : σ.Gives env f.names)
    (past : ∀ y, (σ.vars.find? y).isSome → y.id < b.supply.next) :
    (∃ new, Computes σ b (Build.lower f b).2 (Build.lower f b).1 [] (f.evaluate env) new) ∧
      ∃ new, Computes σ b (Build.bindFormula p aux f b).2 (.var p.name) [p.name] (f.evaluate env)
        new := by
  have small : ∀ x ∈ f.names, x.id < b.supply.next := fun x mem => past x (by simp [binds x mem])
  have prepared : Prepares env f.names b f (Build.expOf f b) := prepares f small fun _ mem => mem
  constructor
  · obtain ⟨⟨new, emits⟩, -⟩ := prepared.operand small fun _ mem => mem
    exact ⟨new, emits.evaluates.computes binds past emits.emitted (by simpa using emits.drawn)⟩
  · obtain ⟨γ, ready, finish, new, same, emits⟩ := prepared
    refine ⟨new ++ [⟨[p], aux, (Build.expOf f b).1⟩], ?_⟩
    have computes := emits.evaluates.bind p aux
    rw [← same] at computes
    refine Evaluates.computes computes binds past ?_ ?_
    · show (Build.expOf f b).2.stms ++ _ = _
      rw [emits.emitted, List.append_assoc]
    · rw [boundNames_append, emits.drawn]
      rfl

/-- Both summands have a fault where the second name stands for zero. -/
def twoFaults : Formula :=
  let x : Formula := .leaf ⟨0⟩ (.int .i64)
  let y : Formula := .leaf ⟨1⟩ (.int .i64)
  (x.div y).add (.binary (.int .pow .i64) x (y.sub (.one (.int .i64))))

/-- The quotient is lowered first, so it is its fault that the run ends with. -/
theorem lowering_of_twoFaults :
    let env : Name → Scalar := fun x => if x = ⟨0⟩ then .int .i64 7 else .int .i64 0
    let σ : Store Scalar := Store.initial.bound [⟨0⟩, ⟨1⟩] [.scalar (env ⟨0⟩), .scalar (env ⟨1⟩)]
    let b : Builder := .ofSupply ⟨2⟩
    twoFaults.evaluate env = .error .divisionByZero ∧
      (∃ new, Computes σ b (Build.lower twoFaults b).2 (Build.lower twoFaults b).1 []
        (.error .divisionByZero) new) ∧
      ∃ new, Computes σ b (Build.bindFormula ⟨⟨1⟩, .scalar (.int .i64)⟩ .none twoFaults b).2
        (.var ⟨1⟩) [⟨1⟩] (.error .divisionByZero) new := by
  intro env σ b
  have fault : twoFaults.evaluate env = .error .divisionByZero := by rfl
  have binds : σ.Gives env twoFaults.names := by
    have names : ∀ x ∈ twoFaults.names, x = ⟨0⟩ ∨ x = ⟨1⟩ := by decide
    intro x mem
    rcases names x mem with rfl | rfl <;> rfl
  have past : ∀ y, (σ.vars.find? y).isSome → y.id < b.supply.next := by
    intro y known
    by_contra large
    have new : ∀ x : Name, x.id < 2 → x ≠ y := fun x small same => large (same ▸ small)
    have found : σ.vars.find? y = none :=
      NameTable.find_insertAll_of_not_mem _ _ _ (by simpa using ⟨new ⟨0⟩ (by simp), new ⟨1⟩ (by simp)⟩)
    simp [found] at known
  obtain ⟨lowered, bound⟩ :=
    lowering_preserves_value twoFaults ⟨⟨1⟩, .scalar (.int .i64)⟩ .none binds past
  exact ⟨fault, fault ▸ lowered, fault ▸ bound⟩

end Run

end Cotangent
