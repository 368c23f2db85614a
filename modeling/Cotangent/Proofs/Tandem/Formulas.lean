import Cotangent.Proofs.Program.BuilderJournal
import Cotangent.Proofs.Derivative.DeclaredTypes
import Cotangent.Proofs.Derivative.DualRuns
import Cotangent.Proofs.Evaluation.Lowering
import Cotangent.Proofs.Tandem.Accord
/-!
Tangents that are given by formulas. Whatever a rule says, the statements of a formula bind fresh names
only, and the last of them binds a scalar; a view that sees no tangents need not know more. Under the usual
rules that scalar is the tangent of the operation on dual numbers.
-/
namespace Cotangent

open Run ScalarAlgebra Formula

/-- The expression only reads, and comes to one scalar. -/
def Exp.Computes (e : Exp) : Prop :=
  ∀ (run : Body → Run Scalar (List Value)) fuel σ vs τ, Ends (exp run fuel e) σ vs τ →
    τ = σ ∧ ∃ v, vs = [.scalar v]

/-- The statements that bind expressions to the names from `n` on. -/
def letStms (n : Nat) : Lets → List Stm
  | [] => []
  | (t, e) :: lets => ⟨[⟨⟨n⟩, t⟩], .none, e⟩ :: letStms (n + 1) lets

namespace Formula

theorem computes_basic {op : BasicOp} (each : ∀ (run : Body → Run Scalar (List Value)) σ v τ,
    Ends (basicOp run op) σ v τ → τ = σ ∧ ∃ a, v = .scalar a) : (Exp.basic op).Computes := by
  intro run fuel σ vs τ ends
  obtain ⟨v, applied, rfl⟩ := (ends_basic ..).mp ends
  obtain ⟨same, a, rfl⟩ := each run σ v τ applied
  exact ⟨same, a, rfl⟩

theorem computes_unary (op : UnaryOp) (x : Operand) : (Exp.basic (.unary op x)).Computes := by
  refine computes_basic fun run σ v τ applied => ?_
  simp only [basicOp, ends_bind, ends_scalar, ends_lift, ends_pure] at applied
  obtain ⟨_, _, ⟨-, rfl⟩, r, _, ⟨-, rfl⟩, rfl, rfl⟩ := applied
  exact ⟨rfl, r, rfl⟩

theorem computes_binary (op : BinaryOp) (x y : Operand) : (Exp.basic (.binary op x y)).Computes := by
  refine computes_basic fun run σ v τ applied => ?_
  simp only [basicOp, ends_bind, ends_scalar, ends_lift, ends_pure] at applied
  obtain ⟨_, _, ⟨-, rfl⟩, _, _, ⟨-, rfl⟩, r, _, ⟨-, rfl⟩, rfl, rfl⟩ := applied
  exact ⟨rfl, r, rfl⟩

theorem computes_compare (op : Comparison) (x y : Operand) : (Exp.basic (.compare op x y)).Computes := by
  refine computes_basic fun run σ v τ applied => ?_
  simp only [basicOp, ends_bind, ends_scalar, ends_lift, ends_pure] at applied
  obtain ⟨_, _, ⟨-, rfl⟩, _, _, ⟨-, rfl⟩, r, _, ⟨-, rfl⟩, rfl, rfl⟩ := applied
  exact ⟨rfl, _, rfl⟩

theorem computes_convert (op : Conversion) (x : Operand) : (Exp.basic (.convert op x)).Computes := by
  refine computes_basic fun run σ v τ applied => ?_
  simp only [basicOp, ends_bind, ends_scalar, ends_lift, ends_pure] at applied
  obtain ⟨_, _, ⟨-, rfl⟩, r, _, ⟨-, rfl⟩, rfl, rfl⟩ := applied
  exact ⟨rfl, r, rfl⟩

theorem computes_apply (func : String) (xs : List Operand) (ret : List Ty) :
    (Exp.apply func xs ret).Computes := by
  intro run fuel σ vs τ ends
  simp only [exp, ends_bind, ends_scalars, ends_lift, ends_pure] at ends
  obtain ⟨_, _, ⟨-, rfl⟩, r, _, ⟨-, rfl⟩, rfl, rfl⟩ := ends
  exact ⟨rfl, r, rfl⟩

theorem computes_bound {f : Formula} {n : Nat} {code : Lets × Exp} (inside : ∀ l ∈ code.1, l.2.Computes)
    (last : (∀ x t, f ≠ .leaf x t) → code.2.Computes) : ∀ l ∈ (f.bound n code).1, l.2.Computes := by
  cases f with
  | leaf x t => simp [bound]
  | lit v => simp [bound]
  | _ =>
    simp only [bound, List.mem_append, List.mem_singleton]
    rintro l (mem | rfl)
    · exact inside l mem
    · exact last (by simp)

mutual

/-- Whatever a formula binds is computed, and so is its outermost operation, unless it is a name. -/
theorem code_computes (n : Nat) (f : Formula) :
    (∀ l ∈ (f.code n).1, l.2.Computes) ∧ ((∀ x t, f ≠ .leaf x t) → (f.code n).2.Computes) := by
  cases f with
  | leaf x t => exact ⟨by simp [code], fun other => absurd rfl (other x t)⟩
  | lit v =>
    refine ⟨by simp [code], fun _ => computes_basic fun run σ w τ applied => ?_⟩
    obtain ⟨read, rfl⟩ := (ends_operand (.const v) w σ τ).mp applied
    exact ⟨rfl, v, (Option.some.inj read).symm⟩
  | unary op a =>
    exact ⟨computes_bound (code_computes n a).1 (code_computes n a).2, fun _ => computes_unary op _⟩
  | binary op a b =>
    exact ⟨List.forall_mem_append.mpr ⟨computes_bound (code_computes n a).1 (code_computes n a).2,
      computes_bound (code_computes _ b).1 (code_computes _ b).2⟩, fun _ => computes_binary op _ _⟩
  | compare op a b =>
    exact ⟨List.forall_mem_append.mpr ⟨computes_bound (code_computes n a).1 (code_computes n a).2,
      computes_bound (code_computes _ b).1 (code_computes _ b).2⟩, fun _ => computes_compare op _ _⟩
  | convert op a =>
    exact ⟨computes_bound (code_computes n a).1 (code_computes n a).2, fun _ => computes_convert op _⟩
  | call func args t => exact ⟨codeAll_computes n args, fun _ => computes_apply func _ _⟩

theorem codeAll_computes (n : Nat) (fs : List Formula) : ∀ l ∈ (codeAll n fs).1, l.2.Computes := by
  cases fs with
  | nil => simp [codeAll]
  | cons f fs =>
    exact List.forall_mem_append.mpr ⟨computes_bound (code_computes n f).1 (code_computes n f).2,
      codeAll_computes _ fs⟩

end

end Formula

theorem Builder.stms_letAll (b : Builder) (lets : Lets) :
    (b.letAll lets).stms = b.stms ++ letStms b.supply.next lets := by
  induction lets generalizing b with
  | nil => exact (List.append_nil _).symm
  | cons l lets ih =>
    calc (b.letAll (l :: lets)).stms
        = (Build.letExp l.1 l.2 b).2.stms ++ letStms (b.supply.next + 1) lets := ih _
      _ = (b.stms ++ [⟨[⟨⟨b.supply.next⟩, l.1⟩], .none, l.2⟩]) ++ letStms (b.supply.next + 1) lets := rfl
      _ = b.stms ++ letStms b.supply.next (l :: lets) := by rw [List.append_assoc]; rfl

theorem letStms_ends {n : Nat} {lets : Lets} (computes : ∀ l ∈ lets, l.2.Computes) {fuel : Nat}
    {σ τ : Store Scalar} (ends : Ends (stms fuel (letStms n lets)) σ () τ) :
    σ.Agree (fun x => x.id < n ∨ n + lets.length ≤ x.id) τ := by
  induction lets generalizing n σ with
  | nil =>
    obtain rfl := (ends_stms_nil ..).mp ends
    exact .refl _ _
  | cons l lets ih =>
    obtain ⟨_, first, rest⟩ := (ends_stms_cons ..).mp ends
    obtain ⟨vs, υ, ran, -, rfl⟩ := (ends_stm ..).mp first
    obtain ⟨rfl, -⟩ := computes l (by simp) _ _ _ _ _ ran
    simp only [List.length_cons]
    refine Store.Agree.trans (.bound υ vs fun x mem outside => ?_)
      ((ih (fun l mem => computes l (by simp [mem])) rest).mono fun x outside => by omega)
    obtain rfl : x = ⟨n⟩ := by simpa using mem
    simp only at outside
    omega

/-- A formula that is not a name, bound to a name that was drawn just before. -/
theorem bindFormula_emits {b d : Builder} (same : d.stms = b.stms)
    (drawn : d.supply.next = b.supply.next + 1) (t : Ty) (aux : Annotations) {f : Formula}
    (composite : ∀ x t, f ≠ .leaf x t) :
    ∃ new, (Build.bindFormula ⟨⟨b.supply.next⟩, t⟩ aux f d).2.stms = b.stms ++ new ∧
      ∀ fuel (σ τ : Store Scalar), Ends (stms fuel new) σ () τ →
        σ.Agree (fun x => x.id < b.supply.next ∨
          (Build.bindFormula ⟨⟨b.supply.next⟩, t⟩ aux f d).2.supply.next ≤ x.id) τ ∧
        ∃ v, τ.vars.find? ⟨b.supply.next⟩ = some (.scalar v) ∧
          ((∀ x ∈ f.names, x.id < b.supply.next ∧ ∃ a, σ.vars.find? x = some (.scalar a)) →
            f.eval σ.reading = some v) := by
  obtain ⟨computes, last⟩ := code_computes d.supply.next f
  have emitted : (Build.bindFormula ⟨⟨b.supply.next⟩, t⟩ aux f d).2.stms = b.stms ++
      (letStms d.supply.next (f.code d.supply.next).1 ++
        [⟨[⟨⟨b.supply.next⟩, t⟩], aux, (f.code d.supply.next).2⟩]) := by
    have whole : (Build.bindFormula ⟨⟨b.supply.next⟩, t⟩ aux f d).2.stms =
      (Build.expOf f d).2.stms ++ [⟨[⟨⟨b.supply.next⟩, t⟩], aux, (Build.expOf f d).1⟩] := rfl
    rw [whole, Build.lowers_expOf f d, Builder.stms_letAll, same, List.append_assoc]
  refine ⟨_, emitted, fun fuel σ τ ends => ?_⟩
  obtain ⟨_, lets, rest⟩ := (ends_stms_append ..).mp ends
  simp only [ends_stms_cons, ends_stms_nil, exists_eq_right, ends_stm] at rest
  obtain ⟨vs, υ, ran, -, rfl⟩ := rest
  obtain ⟨rfl, v, rfl⟩ := last composite _ _ _ _ _ ran
  have drawnAll : (Build.bindFormula ⟨⟨b.supply.next⟩, t⟩ aux f d).2.supply.next =
      d.supply.next + (f.code d.supply.next).1.length := by
    have whole : (Build.bindFormula ⟨⟨b.supply.next⟩, t⟩ aux f d).2.supply.next =
      (Build.expOf f d).2.supply.next := rfl
    rw [whole, Build.lowers_expOf f d, Builder.next_letAll]
  refine ⟨Store.Agree.trans ((letStms_ends computes lets).mono fun x outside => by omega)
    (.bound υ _ fun x mem outside => ?_), v, υ.find_bound_single .., fun readable => ?_⟩
  · obtain rfl : x = ⟨b.supply.next⟩ := by simpa using mem
    simp only at outside
    omega
  · have known (x : Name) (mem : x ∈ f.names) : x.id < b.supply.next ∧ ∃ a, σ.reading x = some a ∧
        σ.vars.find? x = some (.scalar a) := by
      obtain ⟨small, a, found⟩ := readable x mem
      exact ⟨small, a, Store.reading_of_find found, found⟩
    have readable' : Readable σ.reading b.supply.next f.names := fun x mem =>
      ⟨(known x mem).1, (known x mem).2.imp fun a found => found.1⟩
    obtain ⟨-, new, leads⟩ := drawn_leads f t aux same drawn readable' fun _ mem => mem
    obtain rfl := List.append_cancel_left (leads.emitted.symm.trans emitted)
    obtain ⟨-, w, came, stands⟩ := leads.holds fuel σ _ known ends
    have found := (υ.find_bound_single ⟨b.supply.next⟩ (.scalar v)).symm.trans stands
    obtain rfl : v = w := Value.scalar.inj (Option.some.inj found)
    exact came

/-! Views and the operators they follow. -/

namespace Tandem

section

variable {α : Type} [ScalarAlgebra α]

/-- A view that sees no tangents, and whose operators follow those on the primal parts. -/
structure Plain (f : Dual → α) : Prop where
  blind : Blind f
  unary : ∀ (op : UnaryOp) (a : Dual) (r t : Scalar), op.apply a.primal = .ok r →
    ScalarAlgebra.unary op (f a) = .ok (f ⟨r, t⟩)
  binary : ∀ (op : BinaryOp) (a b : Dual) (r t : Scalar), op.apply a.primal b.primal = .ok r →
    ScalarAlgebra.binary op (f a) (f b) = .ok (f ⟨r, t⟩)
  call : ∀ (func : String) (as : List Dual) (r t : Scalar),
    MathFunction.call func (as.map Dual.primal) = .ok r → ScalarAlgebra.call func (as.map f) = .ok (f ⟨r, t⟩)
  member : ∀ (w : IntWidth) (a b : Dual) (i : Nat) (t : Scalar),
    ScalarAlgebra.member w (f a) (f b) i = f ⟨ScalarAlgebra.member w a.primal b.primal i, t⟩

/-- A view that sees the tangents that the usual rules give. -/
structure Whole (rules : Rules) (f : Dual → α) : Prop where
  standard : rules = .standard
  unary : ∀ (op : UnaryOp) (a : Dual) (r t : Scalar), op.apply a.primal = .ok r →
    Dual.unaryTangent op a = some t → ScalarAlgebra.unary op (f a) = .ok (f ⟨r, t⟩)
  binary : ∀ (op : BinaryOp) (a b : Dual) (r t : Scalar), op.apply a.primal b.primal = .ok r →
    Dual.binaryTangent op a b = some t → ScalarAlgebra.binary op (f a) (f b) = .ok (f ⟨r, t⟩)
  member : ∀ (w : IntWidth) (a b : Dual) (i : Nat),
    ScalarAlgebra.member w (f a) (f b) i = f (ScalarAlgebra.member w a b i)

/-- The view follows the code: it sees no tangents, or the code is such that those it sees are right. -/
def Traces (rules : Rules) (f : Dual → α) (exact : Prop) : Prop := Plain f ∨ Whole rules f ∧ exact

end

end Tandem

/-- The operand is a name, or a constant of the type. -/
def Operand.Fits (t : ScalarType) : Operand → Prop
  | .const v => v.ty = t
  | .var _ => True

/-- Constants have the type of their operator, and counting does not move. -/
def BasicOp.Exact : BasicOp → Prop
  | .unary op x => x.Fits op.ty
  | .binary op x y => x.Fits op.ty ∧ y.Fits op.ty
  | .iota _ start step _ => start.names = [] ∧ step.names = []
  | _ => True

theorem Operand.Fits.ty {t : ScalarType} {x : Operand} (fits : x.Fits t) : (Formula.ofOperand t x).ty = t := by
  cases x with
  | const v => exact fits
  | var x => rfl

end Cotangent
