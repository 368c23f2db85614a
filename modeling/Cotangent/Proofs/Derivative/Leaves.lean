import Mathlib.Tactic.Common
import Cotangent.Derivative.Partials
/-!
The names that a formula reads. The partials of an operator or function read nothing but what the
operands read.
-/
namespace Cotangent

mutual

/-- The names at the leaves. -/
def Formula.names : Formula → List Name
  | .leaf x _ => [x]
  | .lit _ => []
  | .unary _ a => a.names
  | .binary _ a b => a.names ++ b.names
  | .compare _ a b => a.names ++ b.names
  | .convert _ a => a.names
  | .call _ args _ => formulaNames args

def formulaNames : List Formula → List Name
  | [] => []
  | f :: fs => f.names ++ formulaNames fs

end

/-- Partials speak of nothing but the operands. -/
structure Rules.Local (rules : Rules) : Prop where
  unary : ∀ op f, ∀ x ∈ (rules.unary op f).names, x ∈ f.names
  binary : ∀ op f g, ∀ x ∈ (rules.binary op f g).1.names ++ (rules.binary op f g).2.names,
    x ∈ f.names ++ g.names
  builtin : ∀ func fs ds, rules.builtin func fs = some ds →
    ∀ x ∈ formulaNames ds, x ∈ formulaNames fs

/-- A function with a signature has partials at as many operands as the signature has. -/
def Rules.Complete (rules : Rules) : Prop :=
  ∀ func sig fs, rules.signature func = some sig → fs.length = sig.1.length →
    ∃ ds, rules.builtin func fs = some ds

theorem names_quotientPartials (t : ScalarType) (f g : Formula) (x : Name) :
    x ∈ (quotientPartials t f g).1.names ++ (quotientPartials t f g).2.names →
      x ∈ f.names ++ g.names := by
  simp [quotientPartials, Formula.names, Formula.div, Formula.mul, Formula.neg, Formula.sub,
    Formula.one, Formula.zero]
  grind

theorem names_remainderPartials (t : ScalarType) (f g : Formula) (x : Name) :
    x ∈ (remainderPartials t f g).1.names ++ (remainderPartials t f g).2.names →
      x ∈ f.names ++ g.names := by
  simp [remainderPartials, Formula.names, Formula.div, Formula.neg, Formula.sub, Formula.one,
    Formula.zero]

theorem names_ofBool (t : ScalarType) (f : Formula) : (Formula.ofBool t f).names = f.names := by
  cases t <;> rfl

theorem names_selection (le lt : Comparison) (t : ScalarType) (f g : Formula) (x : Name) :
    x ∈ (Formula.selection le lt t f g).1.names ++ (Formula.selection le lt t f g).2.names →
      x ∈ f.names ++ g.names := by
  simp [Formula.selection, names_ofBool, Formula.names]
  grind

theorem names_intPartials (op : IntBinary) (w : IntWidth) (f g : Formula) (x : Name) :
    x ∈ (op.partials w f g).1.names ++ (op.partials w f g).2.names → x ∈ f.names ++ g.names := by
  cases op with
  | sdiv => exact names_quotientPartials _ f g x
  | udiv => exact names_quotientPartials _ f g x
  | smod => exact names_remainderPartials _ f g x
  | umod => exact names_remainderPartials _ f g x
  | smax => exact names_selection _ _ _ f g x
  | umax => exact names_selection _ _ _ f g x
  | smin =>
    intro mem
    exact List.mem_append.mpr (List.mem_append.mp (names_selection _ _ _ g f x mem)).symm
  | umin =>
    intro mem
    exact List.mem_append.mpr (List.mem_append.mp (names_selection _ _ _ g f x mem)).symm
  | _ =>
    simp [IntBinary.partials, Formula.names, Formula.mul, Formula.neg, Formula.sub, Formula.one,
      Formula.zero]
    try grind

theorem names_floatPartials (op : FloatBinary) (w : FloatWidth) (f g : Formula) (x : Name) :
    x ∈ (op.partials w f g).1.names ++ (op.partials w f g).2.names → x ∈ f.names ++ g.names := by
  cases op with
  | div => exact names_quotientPartials _ f g x
  | max => exact names_selection _ _ _ f g x
  | min =>
    intro mem
    exact List.mem_append.mpr (List.mem_append.mp (names_selection _ _ _ g f x mem)).symm
  | _ =>
    simp [FloatBinary.partials, Formula.names, formulaNames, Formula.mul, Formula.neg, Formula.sub,
      Formula.one, Formula.zero]
    try grind

theorem names_builtinPartials {f : MathFunction} {w : FloatWidth} {args ds : List Formula}
    (known : f.partials? w args = some ds) :
    ∀ x ∈ formulaNames ds, x ∈ formulaNames args := by
  intro x
  unfold MathFunction.partials? at known
  split at known <;> first
    | (obtain rfl := Option.some.inj known
       simp [formulaNames, Formula.names, Formula.add, Formula.mul, Formula.div, Formula.neg,
         Formula.sub, Formula.one, Formula.zero]
       try grind)
    | simp at known

theorem local_standard : Rules.standard.Local where
  unary op f x mem := by
    cases op with
    | not => simp [Rules.standard, UnaryOp.derivative, Formula.zero, Formula.names] at mem
    | int op w =>
      cases op <;> simp_all [Rules.standard, UnaryOp.derivative, Formula.zero, Formula.names]
    | float op w =>
      cases op <;> simp_all [Rules.standard, UnaryOp.derivative, Formula.zero, Formula.names]
  binary op f g x mem := by
    cases op with
    | int op w => exact names_intPartials op w f g x mem
    | float op w => exact names_floatPartials op w f g x mem
    | and => simp [Rules.standard, BinaryOp.partials, Formula.zero, Formula.names] at mem
    | or => simp [Rules.standard, BinaryOp.partials, Formula.zero, Formula.names] at mem
  builtin func fs ds known := by
    obtain ⟨⟨f, w⟩, -, known⟩ := Option.bind_eq_some_iff.mp known
    exact names_builtinPartials known

theorem complete_standard : Rules.standard.Complete := by
  intro func sig fs known length
  obtain ⟨⟨f, w⟩, found, same⟩ := Option.bind_eq_some_iff.mp known
  obtain rfl : (List.replicate f.arity (.float w), .float w) = sig := Option.some.inj same
  have arity : fs.length = f.arity := by simpa using length
  have partials : ∃ ds, f.partials? w fs = some ds := by
    match fs with
    | [] => cases f <;> simp [MathFunction.arity] at arity
    | [x] => cases f <;> simp_all [MathFunction.arity, MathFunction.partials?]
    | [x, y] => cases f <;> simp_all [MathFunction.arity, MathFunction.partials?]
    | x :: y :: z :: rest => cases f <;> simp [MathFunction.arity] at arity
  obtain ⟨ds, here⟩ := partials
  exact ⟨ds, Option.bind_eq_some_iff.mpr ⟨(f, w), found, here⟩⟩

/-- The sum of some formulas reads what they read. -/
theorem names_foldl_add (f : Formula) (fs : List Formula) :
    (fs.foldl Formula.add f).names = f.names ++ formulaNames fs := by
  induction fs generalizing f with
  | nil => simp [formulaNames]
  | cons g fs ih => simp [ih, Formula.add, Formula.names, formulaNames]

end Cotangent
