import Mathlib.Data.List.Forall2
import Cotangent.Proofs.Derivative.Steps
import Cotangent.Proofs.Evaluation.Ends
import Cotangent.Proofs.Program.ScalarCode
/-!
Runs of scalar code. They bind the names that the code binds and change nothing else, over any algebra
of scalars.
-/
namespace Cotangent

open Outline

namespace Run

variable {α : Type} [ScalarAlgebra α] {σ τ : Store α} {fuel : Nat}

omit [ScalarAlgebra α] in
/-- A walk that only reads the store. -/
theorem ends_reads {β γ : Type} {f : γ → Run α β} {reads : Store α → γ → β → Prop}
    (each : ∀ x b (σ τ : Store α), Ends (f x) σ b τ ↔ reads σ x b ∧ σ = τ) {xs : List γ}
    {bs : List β} {σ τ : Store α} :
    Ends (xs.mapM f) σ bs τ ↔ List.Forall₂ (reads σ) xs bs ∧ σ = τ := by
  induction xs generalizing σ τ bs with
  | nil =>
    simp only [List.mapM_nil, ends_pure, List.forall₂_nil_left_iff]
    exact and_congr_left' eq_comm
  | cons x xs ih =>
    simp only [List.mapM_cons, ends_bind, ends_pure, each, ih, List.forall₂_cons_left_iff]
    constructor
    · rintro ⟨b, _, ⟨known, rfl⟩, us, _, ⟨rest, rfl⟩, rfl, rfl⟩
      exact ⟨⟨b, us, known, rest, rfl⟩, rfl⟩
    · rintro ⟨⟨b, us, known, rest, rfl⟩, rfl⟩
      exact ⟨b, σ, ⟨known, rfl⟩, us, σ, ⟨rest, rfl⟩, rfl, rfl⟩

theorem ends_scalars {xs : List Operand} {as : List α} : Ends (xs.mapM scalar) σ as τ ↔
    List.Forall₂ (fun x a => σ.value x = some (.scalar a)) xs as ∧ σ = τ :=
  ends_reads fun _ _ _ _ => ends_scalar ..

theorem ends_operands {xs : List Operand} {vs : List (Value α)} :
    Ends (operands xs) σ vs τ ↔ List.Forall₂ (fun x v => σ.value x = some v) xs vs ∧ σ = τ :=
  ends_reads fun _ _ _ _ => ends_operand ..

/-- A scalar operation leaves the store as it is and gives a scalar, except that a copy gives what it
    copies. -/
theorem ends_scalarOp {run : Body → Run α (List (Value α))} {op : BasicOp} {v : Value α}
    (code : op.ScalarCode) (ends : Ends (basicOp run op) σ v τ) : σ = τ := by
  cases op with
  | operand x => exact ((ends_operand ..).mp ends).2
  | unary op x =>
    simp only [basicOp, ends_bind, ends_scalar, ends_lift, ends_pure] at ends
    obtain ⟨_, _, ⟨-, rfl⟩, _, _, ⟨-, rfl⟩, -, rfl⟩ := ends
    rfl
  | binary op x y =>
    simp only [basicOp, ends_bind, ends_scalar, ends_lift, ends_pure] at ends
    obtain ⟨_, _, ⟨-, rfl⟩, _, _, ⟨-, rfl⟩, _, _, ⟨-, rfl⟩, -, rfl⟩ := ends
    rfl
  | compare op x y =>
    simp only [basicOp, ends_bind, ends_scalar, ends_lift, ends_pure] at ends
    obtain ⟨_, _, ⟨-, rfl⟩, _, _, ⟨-, rfl⟩, _, _, ⟨-, rfl⟩, -, rfl⟩ := ends
    rfl
  | convert op x =>
    simp only [basicOp, ends_bind, ends_scalar, ends_lift, ends_pure] at ends
    obtain ⟨_, _, ⟨-, rfl⟩, _, _, ⟨-, rfl⟩, -, rfl⟩ := ends
    rfl
  | assert cond msg =>
    simp only [basicOp, ends_bind, ends_scalar, ends_lift] at ends
    obtain ⟨_, _, ⟨-, rfl⟩, holds, _, ⟨-, rfl⟩, ends⟩ := ends
    cases holds with
    | true => exact ((ends_pure ..).mp ends).2
    | false => exact absurd ends (ends_throw _ _ _ _)
  | _ => exact absurd code (by simp [BasicOp.ScalarCode])

mutual

/-- Only what the code binds changes. -/
theorem agree_exp (e : Exp) {arity : Nat} (code : e.ScalarCode arity) {σ τ : Store α}
    {vs : List (Value α)} {fuel : Nat} (ends : Ends (exp (runBody fuel) fuel e) σ vs τ) :
    σ.Agree (· ∉ (e.outline arity).binders) τ := by
  cases e with
  | basic op =>
    obtain ⟨v, ends, -⟩ := (ends_basic ..).mp ends
    exact ends_scalarOp code ends ▸ .refl _ σ
  | apply func args ret =>
    simp only [exp, ends_bind, ends_lift, ends_pure] at ends
    obtain ⟨as, _, read, _, _, ⟨-, rfl⟩, -, rfl⟩ := ends
    exact (ends_scalars.mp read).2 ▸ .refl _ σ
  | branch cond yes no ret sort =>
    obtain ⟨inYes, inNo, -⟩ := code
    simp only [exp, ends_bind, ends_scalar, ends_lift] at ends
    obtain ⟨_, _, ⟨-, rfl⟩, holds, _, ⟨-, rfl⟩, ends⟩ := ends
    have apart : ∀ x, x ∉ ((Exp.branch cond yes no ret sort).outline arity).binders →
        x ∉ yes.outline.binders ∧ x ∉ no.outline.binders := by
      intro x outside
      simpa [Exp.outline] using outside
    cases holds with
    | true => exact (agree_body yes inYes ends).mono fun x outside => (apart x outside).1
    | false => exact (agree_body no inNo ends).mono fun x outside => (apart x outside).2
  | _ => exact absurd code (by simp [Exp.ScalarCode])

theorem agree_stm (s : Stm) (code : s.ScalarCode) {σ τ : Store α} {fuel : Nat}
    (ends : Ends (stm (runBody fuel) fuel s) σ () τ) : σ.Agree (· ∉ s.outline.binders) τ := by
  obtain ⟨pat, aux, e⟩ := s
  obtain ⟨vs, υ, ran, -, rfl⟩ := (ends_stm ..).mp ends
  have inside := agree_exp e code.2 ran
  refine (inside.mono fun x outside => ?_).trans (.bound υ vs fun x mem => ?_)
  · simp only [Stm.outline, binders_append, binders_readsAll, List.nil_append,
      List.mem_append, not_or] at outside
    exact outside.1
  · obtain ⟨p, inPat, rfl⟩ := List.mem_map.mp mem
    simp only [Stm.outline, binders_append, binders_readsAll, List.nil_append, List.mem_append,
      not_or, not_and, not_not, mem_binders_paramOutline]
    exact fun _ => ⟨p, inPat, rfl⟩

theorem agree_stms (ss : List Stm) (code : StmsScalarCode ss) {σ τ : Store α} {fuel : Nat}
    (ends : Ends (stms fuel ss) σ () τ) : σ.Agree (· ∉ (stmOutline ss).binders) τ := by
  cases ss with
  | nil => exact (ends_stms_nil ..).mp ends ▸ .refl _ σ
  | cons s ss =>
    obtain ⟨here, rest⟩ := code
    obtain ⟨υ, first, ends⟩ := (ends_stms_cons ..).mp ends
    simp only [stmOutline, binders_append, List.mem_append, not_or]
    exact ((agree_stm s here first).mono fun x outside => outside.1).trans
      ((agree_stms ss rest ends).mono fun x outside => outside.2)

theorem agree_body (b : Body) (code : b.ScalarCode) {σ τ : Store α} {vs : List (Value α)}
    {fuel : Nat} (ends : Ends (runBody fuel b) σ vs τ) : σ.Agree (· ∉ b.outline.binders) τ := by
  obtain ⟨ss, result⟩ := b
  obtain ⟨below, υ, rfl, ran, read⟩ := (ends_runBody ..).mp ends
  obtain ⟨-, rfl⟩ := ends_operands.mp read
  simp only [Body.outline, binders_append, binders_readsAll, List.append_nil]
  exact agree_stms ss code ran

end

/-- What is in scope where code starts is still the same where it ends. -/
theorem agree_of_closed {ss : List Stm} {scope : Scope} (code : StmsScalarCode ss)
    (closed : (stmOutline ss).Closed scope) (ends : Ends (stms fuel ss) σ () τ) :
    σ.Agree (· ∈ scope) τ :=
  (agree_stms ss code ends).mono fun _ known binder => not_mem_of_binder closed.1 binder known

end Run

end Cotangent
