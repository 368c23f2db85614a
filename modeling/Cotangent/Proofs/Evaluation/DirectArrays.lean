import Cotangent.Evaluation.Algebra
import Cotangent.Value.Array
import Mathlib.Tactic.Common
/-!
Arrays and integers with accesses that nothing guards: an entry is taken where it should be, a list is
cut where it should be long enough, a division is carried out on what should not be zero. Where that
makes no sense the outcome is `abort`, whatever this may be. Every operation comes out the same as the
one whose accesses are guarded, for each `abort`; so the checks in front of the accesses suffice.
-/
namespace Cotangent

namespace Direct

section

variable {ε β : Type} (abort : ε)

def entry (xs : List β) (i : Nat) : Except ε β := (xs[i]?).elim (.error abort) .ok

/-- The first `n` entries and the others. -/
def cut (xs : List β) (n : Nat) : Except ε (List β × List β) :=
  if n ≤ xs.length then .ok (xs.take n, xs.drop n) else .error abort

/-- `count` entries from position `first` on. -/
def segment (xs : List β) (first count : Nat) : Except ε (List β) :=
  if first + count ≤ xs.length then .ok ((xs.drop first).take count) else .error abort

def quotient (x y : Int) : Except ε Int := if y = 0 then .error abort else .ok (x.tdiv y)

def remainder (x y : Int) : Except ε Int := if y = 0 then .error abort else .ok (x.tmod y)

/-- `x` counted round `n` positions. -/
def around (x n : Int) : Except ε Int := if n = 0 then .error abort else .ok (x % n)

variable {abort}

theorem entry_of_lt {xs : List β} {i : Nat} (inside : i < xs.length) :
    entry abort xs i = .ok xs[i] := by
  simp [entry, inside]

theorem cut_of_le {xs : List β} {n : Nat} (inside : n ≤ xs.length) :
    cut abort xs n = .ok (xs.take n, xs.drop n) := if_pos inside

/-- Cutting at the end at the latest needs no check. -/
theorem cut_min (xs : List β) (n : Nat) :
    cut abort xs (min n xs.length) = .ok (xs.take n, xs.drop n) := by
  rw [cut_of_le (Nat.min_le_right _ _)]
  rcases Nat.le_total n xs.length with le | le
  · rw [Nat.min_eq_left le]
  · rw [Nat.min_eq_right le, List.take_of_length_le le, List.drop_of_length_le le, List.take_length,
      List.drop_length]

theorem segment_append {before xs : List β} {count : Nat} (inside : count ≤ xs.length) :
    segment abort (before ++ xs) before.length count = .ok (xs.take count) := by
  simp [segment, inside]

theorem quotient_of_ne {x y : Int} (nonzero : y ≠ 0) : quotient abort x y = .ok (x.tdiv y) :=
  if_neg nonzero

theorem remainder_of_ne {x y : Int} (nonzero : y ≠ 0) : remainder abort x y = .ok (x.tmod y) :=
  if_neg nonzero

theorem around_of_ne {x n : Int} (nonzero : n ≠ 0) : around abort x n = .ok (x % n) :=
  if_neg nonzero

end

section

variable {ε β γ : Type}

@[simp] theorem ok_bind (a : β) (f : β → Except ε γ) : (.ok a >>= f) = f a := rfl

@[simp] theorem error_bind (e : ε) (f : β → Except ε γ) : (.error e >>= f) = .error e := rfl

end

/-! Integer division. -/

section

variable (abort : Fault)

/-- Division rounding towards negative infinity, from one that rounds towards zero. -/
def floorQuotient (x y : Int) : Except Fault Int := do
  let q ← quotient abort x y
  let r ← remainder abort x y
  return if r ≠ 0 ∧ ¬(x < 0 ↔ y < 0) then q - 1 else q

/-- The remainder with the sign of the divisor. -/
def floorRemainder (x y : Int) : Except Fault Int := do
  let r ← remainder abort x y
  return if r ≠ 0 ∧ ¬(r < 0 ↔ y < 0) then r + y else r

def intBinary (w : IntWidth) : IntBinary → Int → Int → Except Fault Int
  | .sdiv, x, y => do floorQuotient abort x (← nonzero y)
  | .udiv, x, y => do quotient abort (w.unsigned x) (← nonzero (w.unsigned y))
  | .smod, x, y => do floorRemainder abort x (← nonzero y)
  | .umod, x, y => do remainder abort (w.unsigned x) (← nonzero (w.unsigned y))
  | op, x, y => op.apply w x y

def binary : BinaryOp → Scalar → Scalar → Except Fault Scalar
  | .int op w, a, b => do
    let x ← a.asInt
    let y ← b.asInt
    return .int w (w.wrap (← intBinary abort w op x y))
  | op, a, b => op.apply a b

variable {abort}

theorem floorQuotient_eq {x y : Int} (nonzero : y ≠ 0) :
    floorQuotient abort x y = .ok (x.fdiv y) := by
  simp only [floorQuotient, quotient_of_ne nonzero, remainder_of_ne nonzero]
  refine congrArg Except.ok ?_
  rw [Int.fdiv_eq_tdiv]
  by_cases divides : y ∣ x
  · simp [divides, Int.tmod_eq_zero_of_dvd divides]
  · have left : x.tmod y ≠ 0 := fun none => divides (Int.dvd_of_tmod_eq_zero none)
    rcases Int.lt_or_gt_of_ne nonzero with negative | positive
    · have sign := Int.sign_eq_neg_one_of_neg negative
      simp only [ne_eq, left, not_false_eq_true, true_and, divides, sign, if_false]
      grind
    · have sign := Int.sign_eq_one_of_pos positive
      simp only [ne_eq, left, not_false_eq_true, true_and, divides, sign, if_false]
      grind

theorem floorRemainder_eq {x y : Int} (nonzero : y ≠ 0) :
    floorRemainder abort x y = .ok (x.fmod y) := by
  simp only [floorRemainder, remainder_of_ne nonzero]
  refine congrArg Except.ok ?_
  rw [Int.fmod_eq_tmod]
  by_cases divides : y ∣ x
  · simp [divides, Int.tmod_eq_zero_of_dvd divides]
  · have left : x.tmod y ≠ 0 := fun none => divides (Int.dvd_of_tmod_eq_zero none)
    have sign : x.tmod y < 0 ↔ x < 0 := by
      rcases Int.lt_or_le x 0 with negative | nonneg
      · have opposite := Int.tmod_nonneg (a := -x) y (by omega)
        rw [Int.neg_tmod] at opposite
        omega
      · have same := Int.tmod_nonneg y nonneg
        omega
    simp only [ne_eq, left, not_false_eq_true, true_and, divides, sign, if_false]
    grind

theorem nonzero_bind {f g : Int → Except Fault Int} {y : Int} (agree : y ≠ 0 → f y = g y) :
    (nonzero y >>= f) = (nonzero y >>= g) := by
  by_cases zero : y = 0
  · simp [nonzero, zero, bind, Except.bind]
  · simpa [nonzero, zero, bind, Except.bind] using agree zero

theorem intBinary_eq (w : IntWidth) (op : IntBinary) (x y : Int) :
    intBinary abort w op x y = op.apply w x y := by
  cases op with
  | sdiv => exact nonzero_bind floorQuotient_eq
  | smod => exact nonzero_bind floorRemainder_eq
  | udiv =>
    refine nonzero_bind fun divisor => ?_
    rw [quotient_of_ne divisor, Int.tdiv_eq_ediv_of_nonneg (w.unsigned_nonneg x)]
    rfl
  | umod =>
    refine nonzero_bind fun divisor => ?_
    rw [remainder_of_ne divisor, Int.tmod_eq_emod_of_nonneg (w.unsigned_nonneg x)]
    rfl
  | _ => rfl

theorem binary_eq (op : BinaryOp) (a b : Scalar) : binary abort op a b = op.apply a b := by
  cases op with
  | int op w => simp only [binary, BinaryOp.apply, intBinary_eq]
  | _ => rfl

end

/-! Arrays. -/

section

variable {α : Type} (abort : Fault α)

/-- A position within a length. -/
def bounds (i : Int) (len : Nat) : Except (Fault α) Nat :=
  if 0 ≤ i ∧ i < len then .ok i.toNat else .error (.outOfBounds i len)

def row (v : Value α) (i : Int) : Except (Fault α) (Value α) := do
  let rows ← v.rows
  entry abort rows (← bounds i rows.length)

def index : List Dim → Value α → Except (Fault α) (Value α)
  | [], v => .ok v
  | .fix i :: dims, v => do index dims (← row abort v i)
  | .slice start len stride :: dims, v => do
    let rows ← tabulate (fun k => do index dims (← row abort v (start + k * stride))) len.toNat
    return .array rows

/-- Replaces `n` rows, each by what `f` makes of it and of one of `xs`, the next of them being
    number `k`. -/
def writeRows (f : Value α → Value α → Except (Fault α) (Value α)) (start stride : Int)
    (xs : List (Value α)) : Nat → Nat → List (Value α) → Except (Fault α) (List (Value α))
  | 0, _, rows => .ok rows
  | n + 1, k, rows => do
    let j ← bounds (start + k * stride) rows.length
    match xs[k]? with
    | none => .error .shape
    | some x =>
      let row ← f (← entry abort rows j) x
      writeRows f start stride xs n (k + 1) (rows.set j row)

def update : List Dim → Value α → Value α → Except (Fault α) (Value α)
  | [], _, x => .ok x
  | .fix i :: dims, v, x => do
    let rows ← v.rows
    let j ← bounds i rows.length
    let row ← update dims (← entry abort rows j) x
    return .array (rows.set j row)
  | .slice start len stride :: dims, v, x => do
    let rows ← v.rows
    let xs ← x.rows
    return .array (← writeRows abort (update dims) start stride xs len.toNat 0 rows)

/-- The elements of a rearranged value whose first indices are `idx`. -/
def rearrangeFrom (v : Value α) (perm shape idx : List Nat) : Except (Fault α) (Value α) :=
  if idx.length = shape.length then do
    let source ← Value.sourceIndex idx perm (List.replicate idx.length 0)
    index abort (source.map fun i : Nat => .fix i) v
  else if inside : idx.length < shape.length then do
    let rows ← tabulate (fun k => rearrangeFrom v perm shape (idx ++ [k])) shape[idx.length]
    return .array rows
  else .error abort
termination_by shape.length - idx.length
decreasing_by
  rw [List.length_append]
  have one : [k].length = 1 := rfl
  omega

def rearrange (v : Value α) (perm : List Nat) : Except (Fault α) (Value α) := do
  let source := v.extents
  let shape ← perm.mapM fun p =>
    match source[p]? with
    | some n => .ok n
    | none => .error .shape
  rearrangeFrom abort v perm shape []

def rotate : List Int → Value α → Except (Fault α) (Value α)
  | [], v => .ok v
  | offset :: offsets, v => do
    let n := (← v.rows).length
    let rows ← tabulate (fun i => do
      let j ← around abort (i + offset) n
      rotate offsets (← row abort v j)) n
    return .array rows

def concat : Nat → List (Value α) → Except (Fault α) (Value α)
  | 0, arrays => do
    let rows ← arrays.mapM Value.rows
    return .array rows.flatten
  | _ + 1, [] => .error .shape
  | dim + 1, a :: arrays => do
    let n := (← a.rows).length
    let rows ← tabulate (fun i => do concat dim (← (a :: arrays).mapM fun a => row abort a i)) n
    return .array rows

variable {abort}

/-- A position is either within the rows, or rejected with the same fault. -/
theorem pickRow_cases (rows : List (Value α)) (i : Int) :
    (∃ inside : i.toNat < rows.length,
      bounds (α := α) i rows.length = .ok i.toNat ∧ pickRow rows i = .ok rows[i.toNat]) ∨
    ∃ e : Fault α, bounds i rows.length = .error e ∧ pickRow rows i = .error e := by
  by_cases inside : 0 ≤ i ∧ i < rows.length
  · have lt : i.toNat < rows.length := by omega
    refine .inl ⟨lt, if_pos inside, ?_⟩
    rw [pickRow, if_neg (by omega), List.getElem?_eq_getElem lt]
  · refine .inr ⟨_, if_neg inside, ?_⟩
    rw [pickRow]
    by_cases negative : i < 0
    · exact if_pos negative
    · rw [if_neg negative, List.getElem?_eq_none (by omega)]

theorem row_eq (v : Value α) (i : Int) : row abort v i = v.row i := by
  cases v with
  | array rows =>
    show (bounds i rows.length >>= entry abort rows) = pickRow rows i
    obtain ⟨inside, checked, picked⟩ | ⟨e, checked, picked⟩ := pickRow_cases rows i
    · rw [checked, picked]
      exact entry_of_lt inside
    · rw [checked, picked]
      rfl
  | _ => rfl

theorem pick_table (v : Value α) (i : Int) : (do pick (← v.table) i) = v.row i := by
  cases v with
  | array rows => exact pick_toArray rows i
  | _ => rfl

theorem mapM_congr {ε β γ : Type} {f g : β → Except ε γ} {xs : List β}
    (agree : ∀ x ∈ xs, f x = g x) : xs.mapM f = xs.mapM g := by
  induction xs with
  | nil => rfl
  | cons x xs ih =>
    rw [List.mapM_cons, List.mapM_cons, agree x (by simp), ih fun y mem => agree y (by simp [mem])]

theorem tabulate_congr {β : Type} {f g : Nat → Except (Fault α) β} {n : Nat}
    (agree : ∀ i < n, f i = g i) : tabulate f n = tabulate g n :=
  mapM_congr fun i mem => agree i (List.mem_range.mp mem)

theorem table_bind_row {β : Type} (v : Value α) (i : Int) (f : Value α → Except (Fault α) β) :
    (do f (← pick (← v.table) i)) = v.row i >>= f := by
  rw [← pick_table, bind_assoc]

theorem index_eq (dims : List Dim) (v : Value α) : index abort dims v = v.index dims := by
  induction dims generalizing v with
  | nil => rfl
  | cons dim dims ih =>
    cases dim with
    | fix i => simp only [index, Value.index, row_eq, ih]
    | slice start len stride => simp only [index, Value.index, row_eq, ih, table_bind_row]

theorem writeRows_eq (abort : Fault α) (f : Value α → Value α → Except (Fault α) (Value α))
    (start stride : Int) (xs : List (Value α)) (n k : Nat) (rows : List (Value α)) :
    Value.writeRows f stride n (start + k * stride) (xs.drop k) rows.toArray =
      List.toArray <$> writeRows abort f start stride xs n k rows := by
  induction n generalizing k rows with
  | zero => rfl
  | succ n ih =>
    have next : start + k * stride + stride = start + (k + 1 : Nat) * stride := by grind
    rw [Value.writeRows, writeRows, pick_toArray]
    obtain ⟨inside, checked, picked⟩ | ⟨e, checked, picked⟩ :=
      pickRow_cases rows (start + k * stride)
    · rw [checked, picked]
      cases here : xs[k]? with
      | none =>
        rw [List.drop_of_length_le (List.getElem?_eq_none_iff.mp here)]
        rfl
      | some x =>
        obtain ⟨within, rfl⟩ := List.getElem?_eq_some_iff.mp here
        rw [List.drop_eq_getElem_cons within, next]
        simp only [ok_bind, entry_of_lt inside]
        cases f rows[(start + k * stride).toNat] xs[k] with
        | error e => rfl
        | ok row =>
          have written := ih (k + 1) (rows.set (start + k * stride).toNat row)
          rw [← List.setIfInBounds_toArray] at written
          exact written
    · rw [checked, picked]
      rfl

theorem update_eq (dims : List Dim) (v x : Value α) : update abort dims v x = v.update dims x := by
  induction dims generalizing v x with
  | nil => rfl
  | cons dim dims ih =>
    cases v with
    | array rows =>
      cases dim with
      | fix i =>
        show (bounds i rows.length >>= _) = (pickRow rows i >>= _)
        obtain ⟨inside, checked, picked⟩ | ⟨e, checked, picked⟩ := pickRow_cases rows i
        · simp only [checked, picked, ok_bind, entry_of_lt inside, ih]
        · simp only [checked, picked, error_bind]
      | slice start len stride =>
        cases x with
        | array xs =>
          have written := writeRows_eq abort (update abort dims) start stride xs len.toNat 0 rows
          have agree : update abort dims = Value.update dims := funext fun v => funext (ih v)
          rw [agree, Int.natCast_zero, Int.zero_mul, Int.add_zero, List.drop_zero] at written
          show (writeRows abort (update abort dims) start stride xs len.toNat 0 rows >>= _) =
            (Value.writeRows (Value.update dims) stride len.toNat start xs rows.toArray >>= _)
          rw [written, agree]
          cases writeRows abort (Value.update dims) start stride xs len.toNat 0 rows <;> rfl
        | _ => rfl
    | _ => cases dim <;> rfl

/-- As long as there are extents left, the one that is asked for exists. -/
theorem rearrangeFrom_eq (v : Value α) (perm shape : List Nat) (idx rest : List Nat)
    (inside : idx.length ≤ shape.length) (left : shape.drop idx.length = rest) :
    rearrangeFrom abort v perm shape idx = Value.gather (v.element v.table) perm idx rest := by
  induction rest generalizing idx with
  | nil =>
    have full : shape.length ≤ idx.length := List.drop_eq_nil_iff.mp left
    rw [rearrangeFrom, if_pos (Nat.le_antisymm inside full), Value.gather]
    simp only [index_eq, Value.element_table]
  | cons n rest ih =>
    have lt : idx.length < shape.length := by
      refine Nat.lt_of_not_le fun full => ?_
      rw [List.drop_of_length_le full] at left
      cases left
    rw [List.drop_eq_getElem_cons lt] at left
    obtain ⟨rfl, deeper⟩ := List.cons.inj left
    rw [rearrangeFrom, if_neg (Nat.ne_of_lt lt), dif_pos lt, Value.gather]
    have agree : (fun k => rearrangeFrom abort v perm shape (idx ++ [k])) =
        fun k => Value.gather (v.element v.table) perm (idx ++ [k]) rest :=
      funext fun k => ih (idx ++ [k]) (by rw [List.length_append]; exact lt)
        (by rw [List.length_append]; exact deeper)
    rw [agree]

theorem rearrange_eq (v : Value α) (perm : List Nat) : rearrange abort v perm = v.rearrange perm := by
  simp only [rearrange, Value.rearrange]
  refine congrArg (_ >>= ·) (funext fun shape => ?_)
  exact rearrangeFrom_eq v perm shape [] shape (Nat.zero_le _) rfl

theorem rotate_eq (offsets : List Int) (v : Value α) : rotate abort offsets v = v.rotate offsets := by
  induction offsets generalizing v with
  | nil => rfl
  | cons offset offsets ih =>
    cases v with
    | array rows =>
      have rounded (i : Nat) (inside : i < rows.length) :
          (do
            let j ← around abort (i + offset) rows.length
            rotate abort offsets (← row abort (.array rows) j)) =
          (do Value.rotate offsets (← pick rows.toArray ((i + offset) % rows.length))) := by
        have divisor : (rows.length : Int) ≠ 0 := by omega
        simp only [around_of_ne divisor, ok_bind, row_eq, ih, pick_toArray]
        rfl
      exact congrArg (· >>= fun rows => pure (Value.array rows)) (tabulate_congr rounded)
    | _ => rfl

theorem concat_eq (dim : Nat) (arrays : List (Value α)) :
    concat abort dim arrays = Value.concat dim arrays := by
  induction dim generalizing arrays with
  | zero => rfl
  | succ dim ih =>
    cases arrays with
    | nil => rfl
    | cons a arrays =>
      have inner (i : Nat) : ((a :: arrays).map Value.table).mapM (fun t => do pick (← t) i) =
          (a :: arrays).mapM fun a => a.row i := by
        rw [List.mapM_map]
        exact mapM_congr fun a _ => pick_table a i
      simp only [concat, Value.concat, row_eq, ih, inner]

end

end Direct

end Cotangent
