import Mathlib.Data.ZMod.Basic
import Cotangent.Evaluation.Scalar
/-!
What the integer operators compute modulo their width. A wrapped integer stands for its residue.
-/
namespace Cotangent

namespace IntWidth

theorem cast_wrap (w : IntWidth) (n : Int) : ((w.wrap n : Int) : ZMod w.modulus) = n := by
  have split : (w.modulus : Int) * n.bdiv w.modulus + w.wrap n = n := Int.bdiv_add_bmod n _
  have residues := congrArg (fun k : Int => (k : ZMod w.modulus)) split
  simpa using residues

theorem wrap_eq_wrap_iff (w : IntWidth) (m n : Int) :
    w.wrap m = w.wrap n ↔ (m : ZMod w.modulus) = n := by
  constructor
  · intro same
    rw [← w.cast_wrap m, same, w.cast_wrap]
  · intro same
    have remainders : m % w.modulus = n % w.modulus :=
      (ZMod.intCast_eq_intCast_iff' m n w.modulus).mp same
    unfold wrap
    rw [← Int.emod_bmod m, remainders, Int.emod_bmod]

end IntWidth

theorem pow_emod_emod (m x : Int) (e : Nat) : (x % m) ^ e % m = x ^ e % m := by
  induction e with
  | zero => simp
  | succ e ih => rw [Int.pow_succ, Int.pow_succ, Int.mul_emod, ih, Int.emod_emod, ← Int.mul_emod]

theorem powModulo_eq (m bits : Nat) (x : Int) (e : Nat) (short : e < 2 ^ bits) :
    powModulo m bits x e = x ^ e % m := by
  induction bits generalizing x e with
  | zero =>
    have none_left : e = 0 := by omega
    simp [powModulo, none_left]
  | succ bits ih =>
    have half_short : e / 2 < 2 ^ bits := by omega
    have half : powModulo m bits (x * x % m) (e / 2) = (x * x) ^ (e / 2) % m := by
      rw [ih _ _ half_short, pow_emod_emod]
    have square : (x * x) ^ (e / 2) = x ^ (2 * (e / 2)) := by
      rw [Int.pow_mul, Int.pow_succ, Int.pow_succ, Int.pow_zero, Int.one_mul]
    simp only [powModulo, half, square]
    split
    · rename_i odd
      have whole : x ^ e = x ^ (2 * (e / 2)) * x := by rw [← Int.pow_succ]; congr 1; omega
      rw [whole, Int.mul_emod, Int.emod_emod, ← Int.mul_emod]
    · rename_i even
      have whole : 2 * (e / 2) = e := by omega
      rw [whole]

end Cotangent
