/-!
Scalar kinds and scalar values. An integer value stands beside its width as an unbounded `Int`;
it is canonical when `wrap` leaves it as it is, and nothing here demands that. Signedness belongs
to the operations, not to the kinds.
-/
namespace Cotangent

inductive IntWidth where
  | i8 | i16 | i32 | i64
  deriving DecidableEq, Repr

inductive FloatWidth where
  | f32 | f64
  deriving DecidableEq, Repr

/-- `cert` is the kind of a proof that a run-time check passed; it has no numeric content. -/
inductive ScalarType where
  | int (w : IntWidth)
  | float (w : FloatWidth)
  | bool
  | cert
  deriving DecidableEq, Repr

/-- Both float widths are held in 64-bit precision; `FloatWidth.round` narrows where it is due. -/
inductive Scalar where
  | int (w : IntWidth) (n : Int)
  | float (w : FloatWidth) (x : Float)
  | bool (b : Bool)
  | cert
  deriving DecidableEq, Repr

namespace IntWidth

def bits : IntWidth → Nat
  | .i8 => 8
  | .i16 => 16
  | .i32 => 32
  | .i64 => 64

def modulus (w : IntWidth) : Nat := Nat.pow 2 w.bits

/-- The two's complement reading of the low bits of `n`. -/
def wrap (w : IntWidth) (n : Int) : Int := n.bmod w.modulus

/-- The low bits of `n` read without a sign. -/
def unsigned (w : IntWidth) (n : Int) : Int := n % w.modulus

theorem modulus_pos (w : IntWidth) : 0 < w.modulus := by cases w <;> decide

theorem unsigned_nonneg (w : IntWidth) (n : Int) : 0 ≤ w.unsigned n :=
  Int.emod_nonneg _ (by have := w.modulus_pos; omega)

theorem unsigned_lt (w : IntWidth) (n : Int) : w.unsigned n < w.modulus :=
  Int.emod_lt_of_pos _ (by have := w.modulus_pos; omega)

theorem wrap_wrap (w : IntWidth) (n : Int) : w.wrap (w.wrap n) = w.wrap n := by
  simp [wrap]

end IntWidth

/-- The value of `x` in the precision of the width. -/
def FloatWidth.round : FloatWidth → Float → Float
  | .f32, x => x.toFloat32.toFloat
  | .f64, x => x

namespace Scalar

def ty : Scalar → ScalarType
  | .int w _ => .int w
  | .float w _ => .float w
  | .bool _ => .bool
  | .cert => .cert

/-- The additive identity of a kind, which also seeds every tangent and adjoint left implicit. -/
def zero : ScalarType → Scalar
  | .int w => .int w 0
  | .float w => .float w 0.0
  | .bool => .bool false
  | .cert => .cert

def one : ScalarType → Scalar
  | .int w => .int w 1
  | .float w => .float w 1.0
  | .bool => .bool true
  | .cert => .cert

/-- `x` rounded towards zero and clamped to the signed 64-bit range; NaN gives zero. -/
def truncate (x : Float) : Int := x.toInt64.toInt

/-- `x` rounded towards zero and clamped to the unsigned 64-bit range; NaN gives zero. -/
def truncateUnsigned (x : Float) : Int := x.toUInt64.toNat

/-- `x` as a scalar of the given kind. A bool asks only whether it is nonzero. -/
def ofFloat (t : ScalarType) (x : Float) : Scalar :=
  match t with
  | .int w => .int w (w.wrap (truncate x))
  | .float w => .float w (w.round x)
  | .bool => .bool (x != 0.0)
  | .cert => .cert

theorem ty_zero (t : ScalarType) : (zero t).ty = t := by cases t <;> rfl
theorem ty_one (t : ScalarType) : (one t).ty = t := by cases t <;> rfl
theorem ty_ofFloat (t : ScalarType) (x : Float) : (ofFloat t x).ty = t := by cases t <;> rfl

end Scalar

end Cotangent
