import Cotangent.Proofs.Evaluation.Arithmetic
import Cotangent.Proofs.Evaluation.DirectArrays
import Cotangent.Proofs.Outcome
/-!
Division and powers in words of 64 bits. The operators on integers say what comes out; here the same is computed
in words, where division rounds towards zero, a narrow integer is cut out by shifts or a mask, and a product
wraps round. A sum or difference is taken only where a word has room for it, and otherwise there is none.
-/
namespace Cotangent

namespace IntWidth

/-- Sign extension of the low bits: up to the top of the word, and back. -/
def wrapWord (w : IntWidth) (n : Int64) : Int64 :=
  let unused := Int64.ofNat (64 - w.bits)
  (n <<< unused) >>> unused

/-- The low bits, with the others masked out. -/
def unsignedWord (w : IntWidth) (n : Int64) : UInt64 :=
  if w.bits = 64 then n.toUInt64 else n.toUInt64 &&& ((1 <<< UInt64.ofNat w.bits) - 1)

theorem modulus_dvd (w : IntWidth) : w.modulus ∣ 2 ^ 64 := by
  cases w <;> decide

/-- Nothing is lost by wrapping to a word first. -/
theorem wrap_bmod (w : IntWidth) (n : Int) : w.wrap (n.bmod (2 ^ 64)) = w.wrap n :=
  Int.bmod_bmod_of_dvd w.modulus_dvd

theorem mul_bmod_mul (k : Int) (half c : Nat) (positive : 0 < c) :
    (k * c).bmod (2 * half * c) = k.bmod (2 * half) * c := by
  have remainder : k * c % ((2 * half * c : Nat) : Int) = k % (2 * half : Nat) * c := by
    rw [Int.natCast_mul, Int.mul_comm k, Int.mul_comm _ (c : Int), Int.mul_emod_mul_of_pos _ _ (by omega),
      Int.mul_comm]
  have below : k % (2 * half : Nat) * c < half * c ↔ k % (2 * half : Nat) < half :=
    Int.mul_lt_mul_right (by omega)
  have middle : (((2 * half * c : Nat) : Int) + 1) / 2 = half * c := by
    push_cast
    rw [Int.mul_assoc]
    omega
  have middle' : (((2 * half : Nat) : Int) + 1) / 2 = half := by omega
  rw [Int.bmod_def, Int.bmod_def, remainder, middle, middle']
  by_cases small : k % (2 * half : Nat) < half
  · rw [if_pos (below.mpr small), if_pos small]
  · rw [if_neg (below.not.mpr small), if_neg small, Int.sub_mul]
    rfl

/-- What is moved up and back down again has lost its upper bits. -/
theorem toInt_shifted (n s : Int64) (k : Nat) (amount : (s.toBitVec.smod 64).toNat = k) :
    ((n <<< s) >>> s).toInt = (n.toInt * 2 ^ k).bmod (2 ^ 64) / 2 ^ k := by
  have unsigned : n.toInt = (n.toBitVec.toNat : Int).bmod (2 ^ 64) := BitVec.toInt_eq_toNat_bmod _
  rw [← Int64.toInt_toBitVec, Int64.toBitVec_shiftRight, Int64.toBitVec_shiftLeft,
    BitVec.sshiftRight', BitVec.shiftLeft_eq', amount, BitVec.toInt_sshiftRight,
    BitVec.toInt_shiftLeft, Int.shiftRight_eq_div_pow, Nat.shiftLeft_eq, unsigned, Int.bmod_mul_bmod]
  push_cast
  rfl

theorem toInt_wrapWord (w : IntWidth) (n : Int64) : (w.wrapWord n).toInt = w.wrap n.toInt := by
  have amount : ((Int64.ofNat (64 - w.bits)).toBitVec.smod 64).toNat = 64 - w.bits := by
    cases w <;> decide
  have whole : 2 ^ 64 = 2 * 2 ^ (w.bits - 1) * 2 ^ (64 - w.bits) := by cases w <;> decide
  have modulus : w.modulus = 2 * 2 ^ (w.bits - 1) := by cases w <;> decide
  have positive : 0 < 2 ^ (64 - w.bits) := Nat.two_pow_pos _
  have scaled := mul_bmod_mul n.toInt (2 ^ (w.bits - 1)) (2 ^ (64 - w.bits)) positive
  rw [← whole, ← modulus] at scaled
  simp only [Int.natCast_pow, Nat.cast_ofNat] at scaled
  rw [wrapWord, toInt_shifted n _ _ amount, scaled, Int.mul_ediv_cancel _ (Int.pow_ne_zero (by decide))]
  rfl

theorem toNat_toUInt64 (n : Int64) : (n.toUInt64.toNat : Int) = n.toInt % (2 ^ 64 : Nat) := by
  have signed : n.toInt = (n.toUInt64.toNat : Int).bmod (2 ^ 64) := BitVec.toInt_eq_toNat_bmod _
  have small : n.toUInt64.toNat < 2 ^ 64 := n.toUInt64.toNat_lt
  rw [signed, Int.bmod_emod, Int.emod_eq_of_lt (by omega) (by omega)]

theorem toNat_masked (n mask : UInt64) (bits : Nat) (ones : mask.toNat = 2 ^ bits - 1) :
    (n &&& mask).toNat = n.toNat % 2 ^ bits := by
  rw [UInt64.toNat_and, ones, Nat.and_two_pow_sub_one_eq_mod]

theorem toNat_unsignedWord (w : IntWidth) (n : Int64) :
    ((w.unsignedWord n).toNat : Int) = w.unsigned n.toInt := by
  have whole := toNat_toUInt64 n
  unfold unsignedWord
  split
  · rename_i wide
    have modulus : w.modulus = 2 ^ 64 := by rw [IntWidth.modulus, wide]; rfl
    rw [unsigned, modulus, whole]
  · rename_i narrow
    have ones : ((1 <<< UInt64.ofNat w.bits) - 1 : UInt64).toNat = 2 ^ w.bits - 1 := by
      cases w with
      | i64 => exact absurd rfl narrow
      | _ => decide
    have divides : (w.modulus : Int) ∣ (2 ^ 64 : Nat) := Int.natCast_dvd_natCast.mpr w.modulus_dvd
    rw [toNat_masked _ _ _ ones, Int.natCast_emod, whole]
    exact Int.emod_emod_of_dvd _ divides

end IntWidth

namespace Word

/-- The sum, if a word has room for it. -/
def sum? (x y : Int64) : Option Int64 :=
  if (x + y).toInt = x.toInt + y.toInt then some (x + y) else none

/-- The difference, if a word has room for it. -/
def difference? (x y : Int64) : Option Int64 :=
  if (x - y).toInt = x.toInt - y.toInt then some (x - y) else none

/-- The quotient rounded towards negative infinity, by a correction of the one that is rounded towards zero. -/
def floorQuotient (x y : Int64) : Option Int64 :=
  let q := x / y
  if x % y ≠ 0 ∧ ¬(x < 0 ↔ y < 0) then difference? q 1 else some q

/-- The remainder with the sign of the divisor, by a correction of the one with the sign of the dividend. -/
def floorRemainder (x y : Int64) : Option Int64 :=
  let r := x % y
  if r ≠ 0 ∧ ¬(r < 0 ↔ y < 0) then sum? r y else some r

/-- The operators that refuse a divisor of zero. -/
def divisions : List IntBinary := [.sdiv, .smod, .udiv, .umod]

/-- The divisions by something other than zero. -/
def divide (w : IntWidth) (x y : Int64) : IntBinary → Option Int64
  | .sdiv => (floorQuotient x y).map w.wrapWord
  | .smod => (floorRemainder x y).map w.wrapWord
  | .udiv => some (w.wrapWord (w.unsignedWord x / w.unsignedWord y).toInt64)
  | .umod => some (w.wrapWord (w.unsignedWord x % w.unsignedWord y).toInt64)
  | _ => none

/-- The power for an exponent of at most `bits` binary digits, by squaring. -/
def power : Nat → Int64 → Nat → Int64
  | 0, _, _ => 1
  | bits + 1, x, e =>
    let half := power bits (x * x) (e / 2)
    if e % 2 = 1 then half * x else half

variable {x y : Int64}

theorem toInt_bounds (x : Int64) : -2 ^ 63 ≤ x.toInt ∧ x.toInt < 2 ^ 63 := ⟨x.le_toInt, x.toInt_lt⟩

theorem sum?_of_fits (lower : -2 ^ 63 ≤ x.toInt + y.toInt) (upper : x.toInt + y.toInt < 2 ^ 63) :
    ∃ z, sum? x y = some z ∧ z.toInt = x.toInt + y.toInt := by
  have exact : (x + y).toInt = x.toInt + y.toInt := by
    rw [Int64.toInt_add]
    exact Int.bmod_eq_of_le_mul_two (by omega) (by omega)
  exact ⟨x + y, if_pos exact, exact⟩

theorem difference?_of_fits (lower : -2 ^ 63 ≤ x.toInt - y.toInt) (upper : x.toInt - y.toInt < 2 ^ 63) :
    ∃ z, difference? x y = some z ∧ z.toInt = x.toInt - y.toInt := by
  have exact : (x - y).toInt = x.toInt - y.toInt := by
    rw [Int64.toInt_sub]
    exact Int.bmod_eq_of_le_mul_two (by omega) (by omega)
  exact ⟨x - y, if_pos exact, exact⟩

theorem ne_zero_iff : x ≠ 0 ↔ x.toInt ≠ 0 := by
  rw [ne_eq, ← Int64.toInt_inj, Int64.toInt_zero]

theorem neg_iff : x < 0 ↔ x.toInt < 0 := by
  rw [Int64.lt_iff_toInt_lt, Int64.toInt_zero]

/-! Rounding towards negative infinity. -/

theorem fdiv_eq {x y : Int} (nonzero : y ≠ 0) :
    x.fdiv y = if x.tmod y ≠ 0 ∧ ¬(x < 0 ↔ y < 0) then x.tdiv y - 1 else x.tdiv y := by
  have known : Direct.floorQuotient .divisionByZero x y = .ok (x.fdiv y) :=
    Direct.floorQuotient_eq nonzero
  simp only [Direct.floorQuotient, Direct.quotient_of_ne nonzero, Direct.remainder_of_ne nonzero] at known
  exact (Except.ok.inj known).symm

theorem fmod_eq {x y : Int} (nonzero : y ≠ 0) :
    x.fmod y = if x.tmod y ≠ 0 ∧ ¬(x.tmod y < 0 ↔ y < 0) then x.tmod y + y else x.tmod y := by
  have known : Direct.floorRemainder .divisionByZero x y = .ok (x.fmod y) :=
    Direct.floorRemainder_eq nonzero
  simp only [Direct.floorRemainder, Direct.remainder_of_ne nonzero] at known
  exact (Except.ok.inj known).symm

/-- A division that leaves something has halved the dividend at least. -/
theorem natAbs_tdiv_le {x y : Int} (nonzero : y ≠ 0) (left : x.tmod y ≠ 0) : (x.tdiv y).natAbs ≤ x.natAbs / 2 := by
  have large : 2 ≤ y.natAbs := by
    by_contra small
    obtain rfl | rfl : y = 1 ∨ y = -1 := by omega
    · exact left (Int.tmod_one x)
    · rw [Int.tmod_neg, Int.tmod_one] at left
      exact left rfl
  rw [Int.natAbs_tdiv]
  exact Nat.div_le_div_left large (by decide)

theorem floorQuotient_ok (nonzero : y ≠ 0) :
    ∃ q, floorQuotient x y = some q ∧ q.toInt = (x.toInt.fdiv y.toInt).bmod (2 ^ 64) := by
  have quotient := Int64.toInt_div x y
  have dividend := toInt_bounds x
  have sameTest : (x % y ≠ 0 ∧ ¬(x < 0 ↔ y < 0)) ↔
      x.toInt.tmod y.toInt ≠ 0 ∧ ¬(x.toInt < 0 ↔ y.toInt < 0) := by
    rw [ne_zero_iff, Int64.toInt_mod, neg_iff, neg_iff]
  rw [fdiv_eq (ne_zero_iff.mp nonzero)]
  by_cases corrected : x.toInt.tmod y.toInt ≠ 0 ∧ ¬(x.toInt < 0 ↔ y.toInt < 0)
  · -- the divisor is neither one nor minus one, so that there is room for one less
    have halved := natAbs_tdiv_le (ne_zero_iff.mp nonzero) corrected.1
    have same : (x / y).toInt = x.toInt.tdiv y.toInt := by
      rw [quotient]
      exact Int.bmod_eq_of_le_mul_two (by omega) (by omega)
    rw [if_pos corrected, ← same]
    rw [← same] at halved
    have fits := difference?_of_fits (x := x / y) (y := 1)
    rw [Int64.toInt_one] at fits
    obtain ⟨q, taken, value⟩ := fits (by omega) (by omega)
    refine ⟨q, (if_pos (sameTest.mpr corrected)).trans taken, ?_⟩
    rw [value]
    exact (Int.bmod_eq_of_le_mul_two (by omega) (by omega)).symm
  · rw [if_neg corrected]
    exact ⟨x / y, if_neg (sameTest.not.mpr corrected), quotient⟩

/-- Divisor and remainder have opposite signs where they are added. -/
theorem floorRemainder_ok (nonzero : y ≠ 0) :
    ∃ r, floorRemainder x y = some r ∧ r.toInt = x.toInt.fmod y.toInt := by
  have bounds := toInt_bounds (x % y)
  have divisor := toInt_bounds y
  have sameTest : (x % y ≠ 0 ∧ ¬(x % y < 0 ↔ y < 0)) ↔
      (x % y).toInt ≠ 0 ∧ ¬((x % y).toInt < 0 ↔ y.toInt < 0) := by
    rw [ne_zero_iff, neg_iff, neg_iff]
  rw [fmod_eq (ne_zero_iff.mp nonzero), ← Int64.toInt_mod]
  by_cases corrected : (x % y).toInt ≠ 0 ∧ ¬((x % y).toInt < 0 ↔ y.toInt < 0)
  · obtain ⟨r, taken, value⟩ := sum?_of_fits (x := x % y) (y := y) (by omega) (by omega)
    rw [if_pos corrected]
    exact ⟨r, (if_pos (sameTest.mpr corrected)).trans taken, value⟩
  · rw [if_neg corrected]
    exact ⟨x % y, if_neg (sameTest.not.mpr corrected), rfl⟩

theorem toInt_toInt64 (n : UInt64) : n.toInt64.toInt = (n.toNat : Int).bmod (2 ^ 64) :=
  BitVec.toInt_eq_toNat_bmod _

theorem divided_ok_iff {f : Int → Int} {d n : Int} :
    (do return f (← nonzero d)) = (.ok n : Except Fault Int) ↔ d ≠ 0 ∧ f d = n := by
  unfold nonzero
  by_cases zero : d = 0
  · simp [zero, bind, Except.bind]
  · simp [zero]

/-- Where an operator has a result, the words have it too, and no sum or difference is missing. -/
theorem divide_ok {w : IntWidth} {op : IntBinary} {n : Int} (division : op ∈ divisions)
    (known : op.apply w x.toInt y.toInt = .ok n) :
    ∃ z, divide w x y op = some z ∧ z.toInt = w.wrap n := by
  cases op with
  | sdiv =>
    obtain ⟨apart, rfl⟩ := divided_ok_iff.mp known
    obtain ⟨q, taken, value⟩ := floorQuotient_ok (x := x) (ne_zero_iff.mpr apart)
    refine ⟨w.wrapWord q, by rw [divide, taken, Option.map_some], ?_⟩
    rw [w.toInt_wrapWord, value, w.wrap_bmod]
  | smod =>
    obtain ⟨apart, rfl⟩ := divided_ok_iff.mp known
    obtain ⟨r, taken, value⟩ := floorRemainder_ok (x := x) (ne_zero_iff.mpr apart)
    refine ⟨w.wrapWord r, by rw [divide, taken, Option.map_some], ?_⟩
    rw [w.toInt_wrapWord, value]
  | udiv =>
    obtain ⟨-, rfl⟩ := divided_ok_iff.mp known
    refine ⟨_, rfl, ?_⟩
    rw [w.toInt_wrapWord, toInt_toInt64, w.wrap_bmod, UInt64.toNat_div, Int.natCast_ediv,
      w.toNat_unsignedWord, w.toNat_unsignedWord]
  | umod =>
    obtain ⟨-, rfl⟩ := divided_ok_iff.mp known
    refine ⟨_, rfl, ?_⟩
    rw [w.toInt_wrapWord, toInt_toInt64, w.wrap_bmod, UInt64.toNat_mod, Int.natCast_emod,
      w.toNat_unsignedWord, w.toNat_unsignedWord]
  | _ => simp [divisions] at division

/-! Powers. -/

theorem cast_mul (x y : Int64) :
    (((x * y).toInt : Int) : ZMod IntWidth.i64.modulus) = x.toInt * y.toInt := by
  have wrapped : (x * y).toInt = IntWidth.i64.wrap (x.toInt * y.toInt) := Int64.toInt_mul x y
  rw [wrapped, IntWidth.cast_wrap, Int.cast_mul]

/-- A word stands for its residue, and squaring multiplies residues. -/
theorem cast_power (bits : Nat) (x : Int64) (e : Nat) (short : e < 2 ^ bits) :
    ((power bits x e).toInt : ZMod IntWidth.i64.modulus) = (x.toInt : ZMod IntWidth.i64.modulus) ^ e := by
  induction bits generalizing x e with
  | zero =>
    obtain rfl : e = 0 := by omega
    simp [power]
  | succ bits ih =>
    have half := ih (x * x) (e / 2) (by omega)
    rw [cast_mul, ← pow_two, ← pow_mul] at half
    simp only [power]
    split
    · rename_i odd
      rw [cast_mul, half, ← pow_succ]
      congr 1
      omega
    · rename_i even
      rw [half]
      congr 1
      omega

/-- It makes no difference whether a power is wrapped to a word on the way to a narrower width. -/
theorem toInt_power (w : IntWidth) {bits e : Nat} (x : Int64) (short : e < 2 ^ bits) :
    (w.wrapWord (power bits x e)).toInt = w.wrap (x.toInt ^ e) := by
  have residues : ((power bits x e).toInt : ZMod IntWidth.i64.modulus) =
      ((x.toInt ^ e : Int) : ZMod IntWidth.i64.modulus) := by
    rw [cast_power bits x e short, Int.cast_pow]
  have wrapped : (power bits x e).toInt.bmod (2 ^ 64) = (x.toInt ^ e).bmod (2 ^ 64) :=
    (IntWidth.i64.wrap_eq_wrap_iff _ _).mpr residues
  rw [w.toInt_wrapWord, ← w.wrap_bmod, wrapped, w.wrap_bmod]

end Word

end Cotangent
