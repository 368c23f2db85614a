import Cotangent.Proofs.Evaluation.Lowering
/-!
What can be told of a store where the statements of an arithmetic formula have ended, whatever the leaves
of the formula stood for. The formula came to something, so its leaves stood for scalars.
-/
namespace Cotangent

open Run

/-- Leaves, literals and binary operations. -/
inductive Formula.Arithmetic : Formula → Prop
  | leaf (x : Name) (t : ScalarType) : Formula.Arithmetic (.leaf x t)
  | lit (v : Scalar) : Formula.Arithmetic (.lit v)
  | binary (op : BinaryOp) {f g : Formula} (left : f.Arithmetic) (right : g.Arithmetic) :
      Formula.Arithmetic (.binary op f g)

theorem Formula.arithmetic_ofOperand (t : ScalarType) (x : Operand) :
    (Formula.ofOperand t x).Arithmetic := by
  cases x with
  | const v => exact .lit v
  | var x => exact .leaf x t

namespace Run

/-- Between the builders, statements were emitted after which `told` holds if they end. They change names
    drawn in the meantime alone. -/
structure Tells (b c : Builder) (new : List Stm) (told : Store Scalar → Store Scalar → Prop) :
    Prop where
  emitted : c.stms = b.stms ++ new
  next_le : b.supply.next ≤ c.supply.next
  types : ∀ x, x.id < b.supply.next → c.types.find? x = b.types.find? x
  ends : ∀ fuel (σ τ : Store Scalar), Ends (stms fuel new) σ () τ →
    τ.combiners = σ.combiners ∧ σ.Agree (Spared b c) τ ∧ told σ τ

/-- Where the operand stands for a scalar, that is what the formula came to. -/
def ReadsOut (f : Formula) (x : Operand) (σ τ : Store Scalar) : Prop :=
  ∀ v, τ.value x = some (.scalar v) → f.eval σ.reading = some v

variable {b c d : Builder} {f g : Formula} {new more : List Stm}

theorem spared_trans (first : b.supply.next ≤ c.supply.next) (second : c.supply.next ≤ d.supply.next)
    {x : Name} (spared : Spared b d x) : Spared b c x ∧ Spared c d x := by
  unfold Spared at *
  omega

/-- A scalar is bound to a name that is drawn after the statements. -/
theorem Tells.letExp {e : Exp} {t : Ty} {told : Store Scalar → Store Scalar → Prop}
    (tells : Tells b c new told) {f : Formula}
    (came : ∀ fuel σ τ vs υ, told σ τ → Ends (exp (runBody fuel) fuel e) τ vs υ →
      ∃ v, vs = [.scalar v] ∧ τ = υ ∧ f.eval σ.reading = some v) :
    Tells b (Build.letExp t e c).2 (new ++ [⟨[⟨⟨c.supply.next⟩, t⟩], .none, e⟩])
      (ReadsOut f (.var (Build.letExp t e c).1)) where
  emitted := by
    show c.stms ++ _ = _
    rw [tells.emitted, List.append_assoc]
  next_le := Nat.le_succ_of_le tells.next_le
  types x small := by
    have apart : x ≠ ⟨c.supply.next⟩ := by
      rintro rfl
      exact absurd tells.next_le (Nat.not_le.mpr small)
    show (c.types.insert ⟨c.supply.next⟩ t).find? x = _
    rw [NameTable.find_insert, if_neg apart, tells.types x small]
  ends fuel σ υ ended := by
    obtain ⟨τ, first, last⟩ := (ends_stms_append ..).mp ended
    simp only [ends_stms_cons, ends_stms_nil, exists_eq_right, Run.ends_stm] at last
    obtain ⟨vs, τ', ran, -, rfl⟩ := last
    obtain ⟨kept, agree, told⟩ := tells.ends fuel σ τ first
    obtain ⟨v, rfl, rfl, eval⟩ := came fuel σ τ vs τ' told ran
    refine ⟨kept, fun x spared => ?_, fun u read => ?_⟩
    · have next_le := tells.next_le
      have inside : x.id < b.supply.next ∨ c.supply.next + 1 ≤ x.id := spared
      have apart : x ∉ [(⟨c.supply.next⟩ : Name)] := by
        rw [List.mem_singleton]
        rintro rfl
        dsimp only at inside
        omega
      have kept : τ.Agree (· = x) (τ.bound [⟨c.supply.next⟩] [.scalar v]) :=
        .bound τ _ fun y mem same => apart (same ▸ mem)
      refine (kept x rfl).trans (agree x ?_)
      unfold Spared
      omega
    · have found : (τ.bound [⟨c.supply.next⟩] [.scalar v]).vars.find? ⟨c.supply.next⟩ =
          some (.scalar u) := read
      rw [Store.find_bound_single] at found
      obtain rfl := Value.scalar.inj (Option.some.inj found)
      exact eval

/-- Two operands, one lowered after the other. -/
theorem Tells.both {x y : Operand} (first : Tells b c new (ReadsOut f x))
    (second : Tells c d more (ReadsOut g y)) (kept : ∀ z ∈ x.names, Spared c d z)
    (below : ∀ z ∈ g.names, z.id < b.supply.next) :
    Tells b d (new ++ more) fun σ τ => ReadsOut f x σ τ ∧ ReadsOut g y σ τ where
  emitted := by rw [second.emitted, first.emitted, List.append_assoc]
  next_le := Nat.le_trans first.next_le second.next_le
  types z small := (second.types z (Nat.lt_of_lt_of_le small first.next_le)).trans (first.types z small)
  ends fuel σ υ ended := by
    obtain ⟨τ, ran, ran'⟩ := (ends_stms_append ..).mp ended
    obtain ⟨same, agree, told⟩ := first.ends fuel σ τ ran
    obtain ⟨same', agree', told'⟩ := second.ends fuel τ υ ran'
    refine ⟨same'.trans same, fun z spared => ?_, fun v read => ?_, fun v read => ?_⟩
    · obtain ⟨left, right⟩ := spared_trans first.next_le second.next_le spared
      exact (agree' z right).trans (agree z left)
    · exact told v ((agree'.value kept).symm.trans read)
    · rw [← told' v read]
      exact Formula.eval_congr g fun z mem => (agree.reading (.inl (below z mem))).symm

/-- What the operation on two operands comes to. -/
theorem readsOut_binary {op : BinaryOp} {x y : Operand} {σ τ υ : Store Scalar} {fuel : Nat}
    {vs : List Value} (told : ReadsOut f x σ τ ∧ ReadsOut g y σ τ)
    (ends : Ends (exp (runBody fuel) fuel (.basic (.binary op x y))) τ vs υ) :
    ∃ v, vs = [.scalar v] ∧ τ = υ ∧ (Formula.binary op f g).eval σ.reading = some v := by
  simp only [exp, basicOp, ends_bind, ends_scalar, ends_lift, ends_pure] at ends
  obtain ⟨_, _, ⟨m, _, ⟨left, rfl⟩, n, _, ⟨right, rfl⟩, r, _, ⟨applied, rfl⟩, rfl, rfl⟩, rfl, rfl⟩ := ends
  have result : op.apply m n = .ok r := applied
  refine ⟨r, rfl, rfl, ?_⟩
  simp [Formula.eval, told.1 m left, told.2 n right, result, Except.toOption]

/-- The statements for the operands of an operation. -/
theorem operands_tell {op : BinaryOp} {f g : Formula} {b : Builder}
    (left : ∃ new, Tells b (Build.lower f b).2 new (ReadsOut f (Build.lower f b).1) ∧
      ∀ z ∈ (Build.lower f b).1.names, z.id < (Build.lower f b).2.supply.next)
    (right : ∃ new, Tells (Build.lower f b).2 (Build.lower g (Build.lower f b).2).2 new
      (ReadsOut g (Build.lower g (Build.lower f b).2).1))
    (below : ∀ z ∈ (Formula.binary op f g).names, z.id < b.supply.next) :
    ∃ new, Tells b (Build.expOf (.binary op f g) b).2 new fun σ τ =>
      ∀ fuel vs υ, Ends (exp (runBody fuel) fuel (Build.expOf (.binary op f g) b).1) τ vs υ →
        ∃ v, vs = [.scalar v] ∧ τ = υ ∧ (Formula.binary op f g).eval σ.reading = some v := by
  obtain ⟨new, first, drawn⟩ := left
  obtain ⟨more, second⟩ := right
  have both := first.both second (fun z mem => .inl (drawn z mem))
    fun z mem => below z (List.mem_append_right _ mem)
  refine ⟨new ++ more, both.emitted, both.next_le, both.types, fun fuel σ τ ended => ?_⟩
  obtain ⟨same, agree, told⟩ := both.ends fuel σ τ ended
  exact ⟨same, agree, fun _ _ _ ran => readsOut_binary told ran⟩

theorem tells_nothing {told : Store Scalar → Store Scalar → Prop} (b : Builder)
    (holds : ∀ σ, told σ σ) : Tells b b [] told where
  emitted := (List.append_nil _).symm
  next_le := Nat.le_refl _
  types _ _ := rfl
  ends fuel σ τ ended := by
    obtain rfl := (ends_stms_nil ..).mp ended
    exact ⟨rfl, .refl _ σ, holds σ⟩

theorem lower_tells (arithmetic : f.Arithmetic) {b : Builder}
    (below : ∀ z ∈ f.names, z.id < b.supply.next) :
    ∃ new, Tells b (Build.lower f b).2 new (ReadsOut f (Build.lower f b).1) ∧
      ∀ z ∈ (Build.lower f b).1.names, z.id < (Build.lower f b).2.supply.next := by
  induction arithmetic generalizing b with
  | leaf x t =>
    refine ⟨[], tells_nothing b fun σ v read => Store.reading_of_find read, ?_⟩
    simpa [Build.lower, Build.operandOf, Operand.names, Formula.names] using below
  | lit v =>
    refine ⟨[], tells_nothing b fun σ u read => ?_, by simp [Build.lower, Build.operandOf, Operand.names]⟩
    exact congrArg some (Value.scalar.inj (Option.some.inj read))
  | binary op isLeft isRight ihLeft ihRight =>
    obtain ⟨before, first, drawn⟩ := ihLeft (b := b) fun z mem => below z (List.mem_append_left _ mem)
    obtain ⟨more, second, -⟩ := ihRight fun z mem =>
      Nat.lt_of_lt_of_le (below z (List.mem_append_right _ mem)) first.next_le
    obtain ⟨new, tells⟩ := operands_tell ⟨before, first, drawn⟩ ⟨more, second⟩ below
    refine ⟨_, tells.letExp fun fuel σ τ vs υ told ran => told fuel vs υ ran, fun z mem => ?_⟩
    obtain rfl := List.mem_singleton.mp mem
    exact Nat.lt_succ_self _

/-- An operation on formulas that is bound to a name drawn before. -/
theorem bindFormula_tells (op : BinaryOp) (left : f.Arithmetic) (right : g.Arithmetic) (p : Param)
    (aux : Annotations) {b : Builder}
    (below : ∀ z ∈ (Formula.binary op f g).names, z.id < b.supply.next) :
    ∃ new c, (Build.bindFormula p aux (.binary op f g) b).2.stms = b.stms ++ new ∧
      (Build.bindFormula p aux (.binary op f g) b).2.supply = c ∧ b.supply.next ≤ c.next ∧
      (∀ x, x.id < b.supply.next → x ≠ p.name →
        (Build.bindFormula p aux (.binary op f g) b).2.types.find? x = b.types.find? x) ∧
      ∀ fuel σ τ, Ends (stms fuel new) σ () τ → ∃ v, (Formula.binary op f g).eval σ.reading = some v ∧
        τ.combiners = σ.combiners ∧ τ.vars.find? p.name = some (.scalar v) ∧
        ∀ x, x.id < b.supply.next ∨ c.next ≤ x.id → x ≠ p.name →
          τ.vars.find? x = σ.vars.find? x := by
  obtain ⟨before, first, drawn⟩ := lower_tells left (b := b) fun z mem =>
    below z (List.mem_append_left _ mem)
  obtain ⟨more, second, -⟩ := lower_tells right (b := (Build.lower f b).2) fun z mem =>
    Nat.lt_of_lt_of_le (below z (List.mem_append_right _ mem)) first.next_le
  obtain ⟨new, tells⟩ := operands_tell ⟨before, first, drawn⟩ ⟨more, second⟩ below
  refine ⟨new ++ [⟨[p], aux, (Build.expOf (.binary op f g) b).1⟩], _, ?_, rfl, tells.next_le, ?_, ?_⟩
  · show (Build.expOf (.binary op f g) b).2.stms ++ _ = _
    rw [tells.emitted, List.append_assoc]
    rfl
  · intro x small other
    show ((Build.expOf (.binary op f g) b).2.types.insert p.name p.ty).find? x = _
    rw [NameTable.find_insert, if_neg other, tells.types x small]
  · intro fuel σ υ ended
    obtain ⟨τ, ran, last⟩ := (ends_stms_append ..).mp ended
    simp only [ends_stms_cons, ends_stms_nil, exists_eq_right, Run.ends_stm] at last
    obtain ⟨vs, τ', came, -, rfl⟩ := last
    obtain ⟨same, agree, told⟩ := tells.ends fuel σ τ ran
    obtain ⟨v, rfl, rfl, eval⟩ := told fuel vs τ' came
    refine ⟨v, eval, same, Store.find_bound_single .., fun x spared other => ?_⟩
    have kept : τ.Agree (· = x) (τ.bound [p.name] [.scalar v]) :=
      .bound τ _ fun y mem same => other (same ▸ List.mem_singleton.mp mem)
    exact (kept x rfl).trans (agree x spared)

end Run

end Cotangent
