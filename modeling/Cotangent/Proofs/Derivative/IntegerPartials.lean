import Cotangent.Proofs.Evaluation.ExactIntegers
import Cotangent.Proofs.Evaluation.FormulaRuns
/-!
Integer operators of degree one: sums, differences, the greater and the lesser of two numbers, remainders
and absolute values. By Euler's identity such an operator is the sum of its operands, each times its
partial. The partials of an operator are formulas; they come to integers wherever the operator does, and
the identity holds modulo the width, ties and wrapped results included. The unsigned remainder is the
exception: its partials divide with a sign, so that the sum they give is the signed remainder.
-/
namespace Cotangent

variable {env : Name → Scalar} {w : IntWidth} {a b : Formula} {x y n z : Int}

/-! Formulas that come to integers. -/

namespace Formula

open Scalar (int)

/-- The formula has the kind of the integers of this width and comes to the integer. -/
structure Reads (env : Name → Scalar) (w : IntWidth) (f : Formula) (n : Int) : Prop where
  ty : f.ty = .int w
  value : f.evaluate env = .ok (.int w n)

theorem reads_leaf {v : Name} (given : env v = .int w n) : (leaf v (.int w)).Reads env w n where
  ty := rfl
  value := congrArg Except.ok given

theorem reads_zero : (zero (.int w)).Reads env w 0 := ⟨rfl, rfl⟩

theorem reads_one : (one (.int w)).Reads env w 1 := ⟨rfl, rfl⟩

theorem Reads.binary (op : IntBinary) (left : a.Reads env w x) (right : b.Reads env w y)
    (known : op.apply w x y = .ok n) : (Formula.binary (.int op w) a b).Reads env w (w.wrap n) where
  ty := rfl
  value := by
    simp only [evaluate, left.value, right.value]
    show (BinaryOp.int op w).apply (int w x) (int w y) = _
    rw [apply_intBinary, known]
    rfl

theorem Reads.sub (left : a.Reads env w x) (right : b.Reads env w y) :
    (a.sub b).Reads env w (w.wrap (x - y)) := by
  rw [Formula.sub, left.ty]
  exact left.binary .sub right rfl

theorem Reads.neg (inner : a.Reads env w x) : a.neg.Reads env w (w.wrap (0 - x)) := by
  rw [Formula.neg, inner.ty]
  exact reads_zero.sub inner

/-- Formulas divide with a sign, whatever operator they are the partials of. -/
theorem Reads.div (left : a.Reads env w x) (right : b.Reads env w y) (nonzero : y ≠ 0) :
    (a.div b).Reads env w (w.wrap (x.fdiv y)) := by
  rw [Formula.div, left.ty]
  exact left.binary .sdiv right (Word.divided_ok_iff.mpr ⟨nonzero, rfl⟩)

theorem Reads.compare (left : a.Reads env w x) (right : b.Reads env w y) (op : IntOrder) :
    (ofBool (.int w) (.compare (.int op w) a b)).Reads env w
      (if Comparison.orderInt w op x y then 1 else 0) where
  ty := rfl
  value := by
    simp only [ofBool, evaluate, left.value, right.value]
    rfl

theorem Reads.signum (inner : a.Reads env w x) :
    (Formula.unary (.int .signum w) a).Reads env w x.sign where
  ty := rfl
  value := by
    simp only [evaluate, inner.value]
    rfl

end Formula

/-! Euler's identity. -/

open Scalar (int)
open Formula (one selection reads_one)

/-- The two formulas come to integers, and `n` is the sum of `x` times the first and `y` times the second,
    modulo the width. -/
def EulerSum (env : Name → Scalar) (w : IntWidth) (x y n : Int) (partials : Formula × Formula) : Prop :=
  ∃ px py, partials.1.Reads env w px ∧ partials.2.Reads env w py ∧
    n ≡ x * px + y * py [ZMOD w.modulus]

theorem EulerSum.congr {partials : Formula × Formula} (sum : EulerSum env w x y n partials)
    (same : z ≡ n [ZMOD w.modulus]) : EulerSum env w x y z partials := by
  obtain ⟨px, py, first, second, holds⟩ := sum
  exact ⟨px, py, first, second, same.trans holds⟩

theorem eulerSum_add (w : IntWidth) (x y : Int) :
    EulerSum env w x y (x + y) (one (.int w), one (.int w)) :=
  ⟨1, 1, reads_one, reads_one, by rw [Int.mul_one, Int.mul_one]⟩

theorem eulerSum_sub (w : IntWidth) (x y : Int) :
    EulerSum env w x y (x - y) (one (.int w), (one (.int w)).neg) := by
  refine ⟨1, _, reads_one, reads_one.neg, ?_⟩
  calc x - y = x * 1 + y * (0 - 1) := by ring
    _ ≡ x * 1 + y * w.wrap (0 - 1) [ZMOD w.modulus] :=
      ((w.wrap_modEq _).symm.mul_left y).add_left _

/-- One of two numbers is taken, and two opposite truth values say which. -/
theorem eulerSum_choice (x y : Int) {this that : Bool} (first : a.Reads env w (if this then 1 else 0))
    (second : b.Reads env w (if that then 1 else 0)) (opposite : that = !this) :
    EulerSum env w x y (if this then x else y) (a, b) := by
  refine ⟨_, _, first, second, ?_⟩
  cases this <;> simp [opposite]

/-- What is left of the first number when the second is taken off as often as the quotient says. -/
theorem eulerSum_remainder (left : a.Reads env w x) (right : b.Reads env w y) (nonzero : y ≠ 0) :
    EulerSum env w x y (x.fmod y) (remainderPartials (.int w) a b) := by
  refine ⟨1, _, reads_one, (left.div right nonzero).neg, ?_⟩
  calc x.fmod y = x * 1 + y * (0 - x.fdiv y) := by rw [Int.fmod_def]; ring
    _ ≡ x * 1 + y * (0 - w.wrap (x.fdiv y)) [ZMOD w.modulus] :=
      (((w.wrap_modEq _).symm.sub_left 0).mul_left y).add_left _
    _ ≡ x * 1 + y * w.wrap (0 - w.wrap (x.fdiv y)) [ZMOD w.modulus] :=
      ((w.wrap_modEq _).symm.mul_left y).add_left _

theorem strictOrder_eq (w : IntWidth) (x y : Int) :
    Comparison.orderInt w .slt x y = !Comparison.orderInt w .sle y x ∧
      Comparison.orderInt w .ult x y = !Comparison.orderInt w .ule y x := by
  simp only [Comparison.orderInt, ← decide_not, Int.not_le, and_self]

/-- The greater of two numbers in some order, and the first on a tie. -/
theorem eulerSum_greater (left : a.Reads env w x) (right : b.Reads env w y) {le lt : IntOrder}
    (opposite : Comparison.orderInt w lt x y = !Comparison.orderInt w le y x) :
    EulerSum env w x y (if Comparison.orderInt w le y x then x else y)
      (selection (.int le w) (.int lt w) (.int w) a b) :=
  eulerSum_choice x y (right.compare left le) (left.compare right lt) opposite

/-- The lesser of two numbers; the partials are those of the greater, with the operands exchanged. -/
theorem eulerSum_lesser (left : a.Reads env w x) (right : b.Reads env w y) {le lt : IntOrder}
    (opposite : Comparison.orderInt w lt y x = !Comparison.orderInt w le x y) :
    EulerSum env w x y (if Comparison.orderInt w le x y then x else y)
      (selection (.int le w) (.int lt w) (.int w) b a) :=
  eulerSum_choice x y (left.compare right le) (right.compare left lt) opposite

/-- The operators for which doubling both operands doubles the result, where nothing is wrapped. -/
def IntBinary.degreeOne : List IntBinary := [.add, .sub, .smax, .umax, .smin, .umin, .smod, .umod]

theorem eulerSum_partials (left : a.Reads env w x) (right : b.Reads env w y) {op : IntBinary}
    (degreeOne : op ∈ IntBinary.degreeOne) (signed : op ≠ .umod) (known : op.apply w x y = .ok n) :
    EulerSum env w x y n (op.partials w a b) := by
  cases op with
  | add =>
    obtain rfl := Except.ok.inj known
    exact eulerSum_add w x y
  | sub =>
    obtain rfl := Except.ok.inj known
    exact eulerSum_sub w x y
  | smax =>
    obtain rfl := Except.ok.inj known
    have taken : max x y = if Comparison.orderInt w .sle y x then x else y := by
      simp only [Comparison.orderInt, decide_eq_true_eq]
      omega
    rw [taken]
    exact eulerSum_greater left right (strictOrder_eq w x y).1
  | umax =>
    obtain rfl := Except.ok.inj known
    have sum := eulerSum_greater left right (strictOrder_eq w x y).2
    simp only [Comparison.orderInt, decide_eq_true_eq] at sum
    exact sum
  | smin =>
    obtain rfl := Except.ok.inj known
    have taken : min x y = if Comparison.orderInt w .sle x y then x else y := by
      simp only [Comparison.orderInt, decide_eq_true_eq]
      omega
    rw [taken]
    exact eulerSum_lesser left right (strictOrder_eq w y x).1
  | umin =>
    obtain rfl := Except.ok.inj known
    have sum := eulerSum_lesser left right (strictOrder_eq w y x).2
    simp only [Comparison.orderInt, decide_eq_true_eq] at sum
    exact sum
  | smod =>
    obtain ⟨nonzero, rfl⟩ := Word.divided_ok_iff.mp known
    exact eulerSum_remainder left right nonzero
  | umod => exact absurd rfl signed
  | _ => simp [IntBinary.degreeOne] at degreeOne

/-- The partials of the unsigned remainder are those of the signed one. -/
theorem eulerSum_umod (left : a.Reads env w x) (right : b.Reads env w y)
    (known : IntBinary.umod.apply w x y = .ok n) :
    EulerSum env w x y (x.fmod y) (IntBinary.umod.partials w a b) := by
  obtain ⟨apart, -⟩ := Word.divided_ok_iff.mp known
  refine eulerSum_remainder left right ?_
  rintro rfl
  exact apart (Int.zero_emod _)

/-- The sign of a number is how often it goes into its absolute value. -/
theorem wrap_natAbs_modEq (w : IntWidth) (x : Int) :
    w.wrap x.natAbs ≡ x * x.sign [ZMOD w.modulus] := by
  rw [Int.mul_sign_self]
  exact w.wrap_modEq _

theorem fmod_eq_unsigned (dividend : (int w x).Canonical) (divisor : (int w y).Canonical)
    (nonneg : 0 ≤ x) (nonneg' : 0 ≤ y) : x.fmod y = w.unsigned x % w.unsigned y := by
  have rangeX := dividend.range
  have rangeY := divisor.range
  have modulus := w.modulus_eq
  rw [IntWidth.unsigned_eq_self nonneg (by omega), IntWidth.unsigned_eq_self nonneg' (by omega),
    Int.fmod_eq_emod_of_nonneg _ nonneg']

/-- Where an operator of degree one has a result, its partials come to integers, and the result is Euler's
    sum of them, modulo the width; so is an absolute value. For the unsigned remainder the sum is the signed
    remainder, which is the result where neither operand has a sign. -/
theorem partials_satisfy_euler (left : a.Reads env w x) (right : b.Reads env w y) :
    (∀ op ∈ IntBinary.degreeOne, ∀ z, (BinaryOp.int op w).apply (int w x) (int w y) = .ok (int w z) →
      (op ≠ .umod → EulerSum env w x y z (Rules.standard.binary (.int op w) a b)) ∧
      (op = .umod → EulerSum env w x y (x.fmod y) (Rules.standard.binary (.int op w) a b) ∧
        ((int w x).Canonical → (int w y).Canonical → 0 ≤ x → 0 ≤ y →
          EulerSum env w x y z (Rules.standard.binary (.int op w) a b)))) ∧
    ∃ z p, (UnaryOp.int .abs w).apply (int w x) = .ok (int w z) ∧
      (Rules.standard.unary (.int .abs w) a).Reads env w p ∧ z ≡ x * p [ZMOD w.modulus] := by
  refine ⟨fun op degreeOne z result => ?_, w.wrap x.natAbs, x.sign, rfl, left.signum,
    wrap_natAbs_modEq w x⟩
  rw [apply_intBinary] at result
  obtain ⟨n, known, same⟩ := (except_map_ok ..).mp result
  obtain ⟨-, rfl⟩ := Scalar.int.inj same
  refine ⟨fun signed => ?_, ?_⟩
  · exact (eulerSum_partials left right degreeOne signed known).congr (w.wrap_modEq n)
  · rintro rfl
    have sum := eulerSum_umod left right known
    refine ⟨sum, fun dividend divisor nonneg nonneg' => ?_⟩
    obtain ⟨-, rfl⟩ := Word.divided_ok_iff.mp known
    rw [fmod_eq_unsigned dividend divisor nonneg nonneg'] at sum
    exact sum.congr (w.wrap_modEq _)

/-- The least integer and minus one: their sum is wrapped, and so is the absolute value of the first. -/
theorem partials_atLeast :
    let env : Name → Scalar := fun v => if v = ⟨0⟩ then int .i8 (-128) else int .i8 (-1)
    let x : Formula := .leaf ⟨0⟩ (.int .i8)
    let y : Formula := .leaf ⟨1⟩ (.int .i8)
    x.Reads env .i8 (-128) ∧ y.Reads env .i8 (-1) ∧
      EulerSum env .i8 (-128) (-1) 127 (Rules.standard.binary (.int .add .i8) x y) ∧
      EulerSum env .i8 (-128) (-1) (-1) (Rules.standard.binary (.int .umax .i8) x y) ∧
      EulerSum env .i8 (-128) (-1) 0 (Rules.standard.binary (.int .umod .i8) x y) ∧
      ∃ p, (Rules.standard.unary (.int .abs .i8) x).Reads env .i8 p ∧ -128 ≡ -128 * p [ZMOD 256] := by
  intro env x y
  have left : x.Reads env .i8 (-128) := Formula.reads_leaf rfl
  have right : y.Reads env .i8 (-1) := Formula.reads_leaf rfl
  obtain ⟨each, z, p, applied, reads, same⟩ := partials_satisfy_euler left right
  obtain rfl : -128 = z := (Scalar.int.inj (Except.ok.inj applied)).2
  exact ⟨left, right, (each .add (by decide) _ rfl).1 (by decide),
    (each .umax (by decide) _ rfl).1 (by decide), ((each .umod (by decide) _ rfl).2 rfl).1,
    p, reads, same⟩

/-- As an unsigned number 255 is divisible by three, and its signed reading minus one is not. -/
example : (BinaryOp.int .umod .i8).apply (int .i8 (-1)) (int .i8 3) = .ok (int .i8 0) ∧
    (-1 : Int).fmod 3 = 2 := ⟨rfl, rfl⟩

end Cotangent
