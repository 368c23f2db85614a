import Mathlib.Data.Int.ModEq
import Mathlib.Data.Rat.Floor
import Cotangent.Proofs.Evaluation.CanonicalIntegers
import Cotangent.Proofs.Evaluation.Words
/-!
Division and powers of canonical integers, at every width and up to the ends of its range. Signed division is
the floor of the quotient, and its remainder has the sign of the divisor; unsigned division and remainder are
those of the unsigned readings; and a power is right modulo the width. Words of 64 bits suffice to compute
them.
-/
namespace Cotangent

open Scalar

variable {w : IntWidth} {x y n : Int}

/-! Ranges. -/

namespace IntWidth

theorem modulus_eq (w : IntWidth) : (w.modulus : Int) = 2 * w.limit := by
  cases w <;> rfl

theorem limit_bounds (w : IntWidth) : 0 < w.limit ∧ w.limit ≤ 2 ^ 63 := by
  cases w <;> decide

theorem unsigned_wrap (w : IntWidth) (n : Int) : w.unsigned (w.wrap n) = w.unsigned n := Int.bmod_emod

theorem unsigned_eq_self (nonneg : 0 ≤ n) (below : n < w.modulus) : w.unsigned n = n :=
  Int.emod_eq_of_lt nonneg below

theorem wrap_modEq (w : IntWidth) (n : Int) : w.wrap n ≡ n [ZMOD w.modulus] := Int.bmod_emod

end IntWidth

namespace Scalar

theorem Canonical.range (canonical : (int w n).Canonical) : -w.limit ≤ n ∧ n < w.limit :=
  (w.wrap_eq_self_iff n).mp canonical

/-- A word holds every canonical integer. -/
theorem Canonical.toInt_ofInt (canonical : (int w n).Canonical) : (Int64.ofInt n).toInt = n := by
  have range := canonical.range
  have room := w.limit_bounds
  rw [Int64.toInt_ofInt]
  exact Int.bmod_eq_of_le_mul_two (by simp only [Int64.size]; omega) (by simp only [Int64.size]; omega)

theorem Canonical.unsigned_eq_zero_iff (canonical : (int w n).Canonical) : w.unsigned n = 0 ↔ n = 0 := by
  have range := canonical.range
  have modulus := w.modulus_eq
  unfold IntWidth.unsigned
  constructor
  · intro zero
    have divides := Int.dvd_of_emod_eq_zero zero
    exact Int.eq_zero_of_abs_lt_dvd divides (abs_lt.mpr ⟨by omega, by omega⟩)
  · rintro rfl
    exact Int.zero_emod _

end Scalar

/-! Floors. -/

theorem floor_div_eq (x y : Int) : ⌊(x / y : ℚ)⌋ = x.fdiv y := by
  have onPositive (x : Int) {y : Int} (positive : 0 ≤ y) : ⌊(x / y : ℚ)⌋ = x.fdiv y := by
    obtain ⟨d, rfl⟩ := Int.eq_ofNat_of_zero_le positive
    rw [Int.fdiv_eq_ediv_of_nonneg _ positive]
    exact Rat.floor_intCast_div_natCast x d
  by_cases positive : 0 ≤ y
  · exact onPositive x positive
  · have opposite := onPositive (-x) (y := -y) (by omega)
    rw [Int.neg_fdiv_neg, Int.cast_neg, Int.cast_neg, neg_div_neg_eq] at opposite
    exact opposite

theorem fmod_bounds (x : Int) (nonzero : y ≠ 0) :
    |x.fmod y| < |y| ∧ (x.fmod y = 0 ∨ (x.fmod y).sign = y.sign) := by
  rcases Int.lt_or_gt_of_ne nonzero with negative | positive
  · have lower := Int.fmod_nonneg_of_pos (-x) (b := -y) (by omega)
    have upper := Int.fmod_lt_of_pos (-x) (b := -y) (by omega)
    rw [Int.neg_fmod_neg] at lower upper
    constructor
    · rw [abs_of_neg negative, abs_lt]
      omega
    · by_cases zero : x.fmod y = 0
      · exact .inl zero
      · rw [Int.sign_eq_neg_one_of_neg negative, Int.sign_eq_neg_one_of_neg (by omega)]
        exact .inr rfl
  · have lower := Int.fmod_nonneg_of_pos x positive
    have upper := Int.fmod_lt_of_pos x positive
    constructor
    · rw [abs_of_pos positive, abs_lt]
      omega
    · by_cases zero : x.fmod y = 0
      · exact .inl zero
      · rw [Int.sign_eq_one_of_pos positive, Int.sign_eq_one_of_pos (by omega)]
        exact .inr rfl

theorem fdiv_range (dividend : (int w x).Canonical) (nonzero : y ≠ 0) :
    -w.limit ≤ x.fdiv y ∧ (x.fdiv y < w.limit ∨ x = -w.limit ∧ y = -1) := by
  have range := dividend.range
  have room := w.limit_bounds
  rcases Int.lt_or_gt_of_ne nonzero with negative | positive
  · have quotient : x.fdiv y = -x / -y := by
      rw [← Int.neg_fdiv_neg, Int.fdiv_eq_ediv_of_nonneg _ (by omega)]
    have size := Int.natAbs_ediv_le_natAbs (-x) (-y)
    rw [quotient]
    refine ⟨by omega, ?_⟩
    by_cases least : x = -w.limit
    · by_cases unit : y = -1
      · exact .inr ⟨least, unit⟩
      · rw [least, Int.neg_neg]
        exact .inl (Int.ediv_lt_of_lt_mul (by omega) (lt_mul_of_one_lt_right room.1 (by omega)))
    · exact .inl (by omega)
  · have size := Int.natAbs_ediv_le_natAbs x y
    rw [Int.fdiv_eq_ediv_of_nonneg _ (by omega)]
    refine ⟨by omega, .inl ?_⟩
    rcases Int.lt_or_le x 0 with below | nonneg
    · have sign := Int.ediv_neg_of_neg_of_pos below positive
      omega
    · omega

/-- Only the quotient of the least integer by minus one lies outside the range. -/
theorem wrap_fdiv_ne_iff (dividend : (int w x).Canonical) (nonzero : y ≠ 0) :
    w.wrap (x.fdiv y) ≠ x.fdiv y ↔ x = -w.limit ∧ y = -1 := by
  rw [ne_eq, w.wrap_eq_self_iff]
  constructor
  · intro outside
    obtain ⟨lower, upper | least⟩ := fdiv_range dividend nonzero
    · exact absurd ⟨lower, upper⟩ outside
    · exact least
  · rintro ⟨rfl, rfl⟩ ⟨-, upper⟩
    rw [Int.neg_fdiv_neg, Int.fdiv_one] at upper
    omega

theorem wrap_fmod (x : Int) (divisor : (int w y).Canonical) (nonzero : y ≠ 0) :
    w.wrap (x.fmod y) = x.fmod y := by
  have range := divisor.range
  have size : |y| ≤ w.limit := abs_le.mpr ⟨range.1, by omega⟩
  have small := abs_lt.mp (fmod_bounds x nonzero).1
  rw [w.wrap_eq_self_iff]
  omega

/-- Wrapping moves a quotient by a multiple of the modulus. -/
theorem fdiv_fmod_modEq (w : IntWidth) (x y : Int) :
    w.wrap (x.fdiv y) * y + x.fmod y ≡ x [ZMOD w.modulus] := by
  have whole : x.fdiv y * y + x.fmod y = x := by
    rw [Int.mul_comm, Int.mul_fdiv_add_fmod]
  calc w.wrap (x.fdiv y) * y + x.fmod y
      ≡ x.fdiv y * y + x.fmod y [ZMOD w.modulus] := ((w.wrap_modEq _).mul_right y).add_right _
    _ = x := whole

theorem unsigned_wrap_ediv (w : IntWidth) (x y : Int) :
    w.unsigned (w.wrap (w.unsigned x / w.unsigned y)) = w.unsigned x / w.unsigned y := by
  have nonneg := w.unsigned_nonneg x
  have below := w.unsigned_lt x
  rw [w.unsigned_wrap]
  refine IntWidth.unsigned_eq_self (Int.ediv_nonneg nonneg (w.unsigned_nonneg y)) ?_
  exact Int.lt_of_le_of_lt (Int.ediv_le_self _ nonneg) below

theorem unsigned_wrap_emod (w : IntWidth) (x y : Int) (apart : w.unsigned y ≠ 0) :
    w.unsigned (w.wrap (w.unsigned x % w.unsigned y)) = w.unsigned x % w.unsigned y := by
  have positive : 0 < w.unsigned y := lt_of_le_of_ne (w.unsigned_nonneg y) apart.symm
  have below := Int.emod_lt_of_pos (w.unsigned x) positive
  rw [w.unsigned_wrap]
  exact IntWidth.unsigned_eq_self (Int.emod_nonneg _ apart) (Int.lt_trans below (w.unsigned_lt y))

/-! Operators. -/

theorem apply_intBinary (op : IntBinary) (w : IntWidth) (x y : Int) :
    (BinaryOp.int op w).apply (int w x) (int w y) = (op.apply w x y).map fun n => int w (w.wrap n) := by
  cases known : op.apply w x y <;>
    simp [BinaryOp.apply, asInt, known, bind, Except.bind, pure, Except.pure, Except.map]

theorem division_of_zero {op : IntBinary} (division : op ∈ Word.divisions) (w : IntWidth) (x : Int) :
    op.apply w x 0 = .error .divisionByZero := by
  have zero : w.unsigned 0 = 0 := Int.zero_emod _
  cases op with
  | sdiv => rfl
  | smod => rfl
  | udiv => rw [IntBinary.apply, zero]; rfl
  | umod => rw [IntBinary.apply, zero]; rfl
  | _ => simp [Word.divisions] at division

theorem exists_division {op : IntBinary} (division : op ∈ Word.divisions) (x : Int)
    (divisor : (int w y).Canonical) (nonzero : y ≠ 0) : ∃ n, op.apply w x y = .ok n := by
  have apart : w.unsigned y ≠ 0 := divisor.unsigned_eq_zero_iff.not.mpr nonzero
  cases op with
  | sdiv => exact ⟨_, Word.divided_ok_iff.mpr ⟨nonzero, rfl⟩⟩
  | smod => exact ⟨_, Word.divided_ok_iff.mpr ⟨nonzero, rfl⟩⟩
  | udiv => exact ⟨_, Word.divided_ok_iff.mpr ⟨apart, rfl⟩⟩
  | umod => exact ⟨_, Word.divided_ok_iff.mpr ⟨apart, rfl⟩⟩
  | _ => simp [Word.divisions] at division

/-- Division by zero fails. Any other division succeeds within the range of its width: signed division is the
    floor of the quotient, wrapped in one case only, its remainder has the sign of the divisor, and both
    make up the dividend again; so do the unsigned ones in the unsigned readings. Words of 64 bits come to
    the same without a sum or difference that they have no room for. -/
theorem divisions_exact (dividend : (int w x).Canonical) (divisor : (int w y).Canonical) :
    (y = 0 → ∀ op ∈ Word.divisions,
      (BinaryOp.int op w).apply (int w x) (int w y) = .error .divisionByZero) ∧
    (y ≠ 0 → ∃ z : IntBinary → Int,
      (∀ op ∈ Word.divisions, (BinaryOp.int op w).apply (int w x) (int w y) = .ok (int w (z op)) ∧
        (int w (z op)).Canonical ∧
        Word.divide w (Int64.ofInt x) (Int64.ofInt y) op = some (Int64.ofInt (z op))) ∧
      z .sdiv = w.wrap ⌊(x / y : ℚ)⌋ ∧ (z .sdiv ≠ ⌊(x / y : ℚ)⌋ ↔ x = -w.limit ∧ y = -1) ∧
      |z .smod| < |y| ∧ (z .smod = 0 ∨ (z .smod).sign = y.sign) ∧
      z .sdiv * y + z .smod ≡ x [ZMOD w.modulus] ∧
      w.unsigned x = w.unsigned (z .udiv) * w.unsigned y + w.unsigned (z .umod) ∧
      0 ≤ w.unsigned (z .umod) ∧ w.unsigned (z .umod) < w.unsigned y) := by
  constructor
  · rintro rfl op division
    rw [apply_intBinary, division_of_zero division]
    rfl
  · intro nonzero
    have each (op : IntBinary) : ∃ n, op ∈ Word.divisions → op.apply w x y = .ok n := by
      by_cases division : op ∈ Word.divisions
      · obtain ⟨n, known⟩ := exists_division division x divisor nonzero
        exact ⟨n, fun _ => known⟩
      · exact ⟨0, fun isIn => absurd isIn division⟩
    choose n known using each
    obtain ⟨-, quotient⟩ := Word.divided_ok_iff.mp (known .sdiv (by decide))
    obtain ⟨-, remainder⟩ := Word.divided_ok_iff.mp (known .smod (by decide))
    obtain ⟨apart, unsignedQuotient⟩ := Word.divided_ok_iff.mp (known .udiv (by decide))
    obtain ⟨-, unsignedRemainder⟩ := Word.divided_ok_iff.mp (known .umod (by decide))
    have positive : 0 < w.unsigned y := lt_of_le_of_ne (w.unsigned_nonneg y) apart.symm
    refine ⟨fun op => w.wrap (n op), ?_, ?_⟩
    · intro op division
      refine ⟨by rw [apply_intBinary, known op division]; rfl, canonical_wrap w _, ?_⟩
      have inWords := known op division
      rw [← dividend.toInt_ofInt, ← divisor.toInt_ofInt] at inWords
      obtain ⟨z, taken, value⟩ := Word.divide_ok division inWords
      dsimp only
      rw [taken, ← value, Int64.ofInt_toInt]
    · dsimp only
      rw [floor_div_eq, ← quotient, ← remainder, ← unsignedQuotient, ← unsignedRemainder,
        wrap_fmod x divisor nonzero, unsigned_wrap_ediv, unsigned_wrap_emod w x y apart]
      obtain ⟨small, sign⟩ := fmod_bounds x nonzero
      refine ⟨rfl, wrap_fdiv_ne_iff dividend nonzero, small, sign, fdiv_fmod_modEq w x y, ?_,
        Int.emod_nonneg _ apart, Int.emod_lt_of_pos _ positive⟩
      rw [Int.mul_comm, Int.mul_ediv_add_emod]

/-- The one quotient that is wrapped. -/
theorem divisions_leastByMinusOne : (int .i8 (-128)).Canonical ∧ (int .i8 (-1)).Canonical ∧
    ∃ z : IntBinary → Int,
      (∀ op ∈ Word.divisions, (BinaryOp.int op .i8).apply (int .i8 (-128)) (int .i8 (-1)) =
        .ok (int .i8 (z op)) ∧ (int .i8 (z op)).Canonical) ∧
      z .sdiv ≠ ⌊((-128 : Int) / (-1 : Int) : ℚ)⌋ ∧ z .sdiv * -1 + z .smod ≡ -128 [ZMOD 256] ∧
      128 = IntWidth.i8.unsigned (z .udiv) * 255 + IntWidth.i8.unsigned (z .umod) := by
  have least : (int .i8 (-128)).Canonical := by decide
  have minusOne : (int .i8 (-1)).Canonical := by decide
  obtain ⟨z, each, -, wrapped, -, -, signed, unsigned, -⟩ :=
    (divisions_exact least minusOne).2 (by decide)
  refine ⟨least, minusOne, z, fun op division => ?_, wrapped.mpr ⟨rfl, rfl⟩, signed, unsigned⟩
  obtain ⟨applied, canonical, -⟩ := each op division
  exact ⟨applied, canonical⟩

/-- A power is right modulo the width for every exponent that is not negative and below 2^32. Any other exponent is
    refused as negative, also one that is too large, which no width but the greatest has. -/
theorem powers_exact (base : (int w x).Canonical) (exponent : (int w y).Canonical) :
    (0 ≤ y → y < 2 ^ 32 → ∃ z,
      (BinaryOp.int .pow w).apply (int w x) (int w y) = .ok (int w z) ∧ (int w z).Canonical ∧
      z ≡ x ^ y.toNat [ZMOD w.modulus] ∧
      w.wrapWord (Word.power 32 (Int64.ofInt x) y.toNat) = Int64.ofInt z) ∧
    ((BinaryOp.int .pow w).apply (int w x) (int w y) = .error (.negativeExponent y) ↔
      y < 0 ∨ 2 ^ 32 ≤ y) ∧
    (2 ^ 32 ≤ y → w = .i64) := by
  have range := exponent.range
  refine ⟨?_, ?_, ?_⟩
  · intro nonneg below
    have short : y.toNat < 2 ^ 32 := by omega
    have power : IntBinary.pow.apply w x y = .ok (x ^ y.toNat % w.modulus) := by
      rw [IntBinary.apply, if_pos ⟨nonneg, below⟩, powModulo_eq _ _ _ _ short]
    have wrapped : w.wrap (x ^ y.toNat % w.modulus) = w.wrap (x ^ y.toNat) := Int.emod_bmod ..
    refine ⟨w.wrap (x ^ y.toNat), ?_, canonical_wrap w _, w.wrap_modEq _, ?_⟩
    · rw [apply_intBinary, power]
      exact congrArg (fun n => Except.ok (int w n)) wrapped
    · have inWords := Word.toInt_power w (Int64.ofInt x) short
      rw [base.toInt_ofInt] at inWords
      rw [← inWords, Int64.ofInt_toInt]
  · rw [apply_intBinary, IntBinary.apply]
    by_cases inside : 0 ≤ y ∧ y < Int.pow 2 32
    · rw [if_pos inside]
      have bounds : 0 ≤ y ∧ y < 2 ^ 32 := inside
      simp only [Except.map, reduceCtorEq, false_iff]
      omega
    · rw [if_neg inside]
      have bounds : ¬(0 ≤ y ∧ y < 2 ^ 32) := inside
      simp only [Except.map, true_iff]
      omega
  · intro large
    by_contra narrow
    have room : w.limit ≤ 2 ^ 31 := by
      cases w with
      | i64 => exact absurd rfl narrow
      | _ => decide
    omega

/-- A power outside the range of its width, and an exponent below zero. -/
theorem powers_ofMinusThree : (int .i8 (-3)).Canonical ∧ (int .i8 5).Canonical ∧
    (int .i8 (-2)).Canonical ∧
    (∃ z, (BinaryOp.int .pow .i8).apply (int .i8 (-3)) (int .i8 5) = .ok (int .i8 z) ∧
      z ≡ (-3) ^ 5 [ZMOD 256]) ∧
    (BinaryOp.int .pow .i8).apply (int .i8 (-3)) (int .i8 (-2)) = .error (.negativeExponent (-2)) := by
  have base : (int .i8 (-3)).Canonical := by decide
  have exponent : (int .i8 5).Canonical := by decide
  have below : (int .i8 (-2)).Canonical := by decide
  obtain ⟨z, applied, -, residue, -⟩ := (powers_exact base exponent).1 (by decide) (by decide)
  have refused := (powers_exact base below).2.1.mpr (.inl (by decide))
  exact ⟨base, exponent, below, ⟨z, applied, residue⟩, refused⟩

/-- One to any power is one, but this exponent is refused. -/
example : (BinaryOp.int .pow .i64).apply (int .i64 1) (int .i64 (2 ^ 32)) =
    .error (.negativeExponent (2 ^ 32)) := rfl

end Cotangent
