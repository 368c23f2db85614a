import Cotangent.Proofs.Program.TypedCode
/-!
Formulas whose operators get operands of the kinds that they declare. The partials of the standard table
are such formulas, of the kind that the operator works at, and a builder makes well-typed statements of
them.
-/
namespace Cotangent

open NameTable

mutual

/-- The formula is of the kind, if its leaves have the types that the table gives. -/
def Formula.HasKind (types : NameTable Ty) (k : ScalarType) : Formula → Prop
  | .leaf x t => t = k ∧ types.find? x = some (.scalar k)
  | .lit v => v.ty = k
  | .unary op a => op.ty = k ∧ a.HasKind types op.ty
  | .binary op a b => op.ty = k ∧ a.HasKind types op.ty ∧ b.HasKind types op.ty
  | .compare op a b => k = .bool ∧ a.HasKind types op.ty ∧ b.HasKind types op.ty
  | .convert op a => op.target = k ∧ a.HasKind types op.source
  | .call func args t =>
    t = k ∧ ∃ kinds, Rules.standard.signature func = some (kinds, t) ∧
      FormulasHaveKinds types args kinds

def FormulasHaveKinds (types : NameTable Ty) : List Formula → List ScalarType → Prop
  | [], kinds => kinds = []
  | f :: fs, kinds => ∃ k rest, kinds = k :: rest ∧ f.HasKind types k ∧ FormulasHaveKinds types fs rest

end

variable {types later : NameTable Ty} {k : ScalarType}

mutual

theorem Formula.HasKind.mono {f : Formula} {k : ScalarType} (typed : f.HasKind types k)
    (le : types ≤ later) : f.HasKind later k := by
  cases f with
  | leaf x t => exact ⟨typed.1, le _ _ typed.2⟩
  | lit v => exact typed
  | unary op a => exact ⟨typed.1, typed.2.mono le⟩
  | binary op a b => exact ⟨typed.1, typed.2.1.mono le, typed.2.2.mono le⟩
  | compare op a b => exact ⟨typed.1, typed.2.1.mono le, typed.2.2.mono le⟩
  | convert op a => exact ⟨typed.1, typed.2.mono le⟩
  | call func args t =>
    obtain ⟨same, kinds, found, inArgs⟩ := typed
    exact ⟨same, kinds, found, formulasHaveKinds_mono inArgs le⟩

theorem formulasHaveKinds_mono {fs : List Formula} {kinds : List ScalarType}
    (typed : FormulasHaveKinds types fs kinds) (le : types ≤ later) :
    FormulasHaveKinds later fs kinds := by
  cases fs with
  | nil => exact typed
  | cons f fs =>
    obtain ⟨k, rest, rfl, here, more⟩ := typed
    exact ⟨k, rest, rfl, here.mono le, formulasHaveKinds_mono more le⟩

end

theorem UnaryOp.ty_ne_cert (op : UnaryOp) : op.ty ≠ .cert := by
  cases op <;> simp [UnaryOp.ty]

theorem BinaryOp.ty_ne_cert (op : BinaryOp) : op.ty ≠ .cert := by
  cases op <;> simp [BinaryOp.ty]

theorem Conversion.source_ne_cert (op : Conversion) : op.source ≠ .cert := by
  cases op <;> simp [Conversion.source]

theorem Conversion.target_ne_cert (op : Conversion) : op.target ≠ .cert := by
  cases op <;> simp [Conversion.target]

theorem signature_name (f : MathFunction) (w : FloatWidth) :
    Rules.standard.signature (f.name w) = some (List.replicate f.arity (.float w), .float w) := by
  simp [Rules.standard, ofName_name]

/-- A builtin function takes and returns floats of one width. -/
theorem floats_of_signature {func : String} {kinds : List ScalarType}
    (found : Rules.standard.signature func = some (kinds, k)) :
    (∃ w, k = .float w) ∧ ∀ kind ∈ kinds, kind = k := by
  obtain ⟨⟨f, w⟩, -, same⟩ := Option.bind_eq_some_iff.mp found
  obtain ⟨rfl, rfl⟩ := Prod.mk.inj (Option.some.inj same)
  exact ⟨⟨w, rfl⟩, fun kind mem => List.eq_of_mem_replicate mem⟩

namespace Formula

variable {f g : Formula}

theorem HasKind.ty (typed : f.HasKind types k) : f.ty = k := by
  cases f with
  | compare op a b => exact typed.1.symm
  | lit v => exact typed
  | _ => exact typed.1

theorem hasKind_ofOperand {x : Operand} (typed : x.HasType types (.scalar k)) :
    (ofOperand k x).HasKind types k := by
  cases x with
  | const v =>
    obtain rfl := Ty.scalar.inj typed
    exact rfl
  | var x => exact ⟨rfl, typed⟩

theorem hasKind_zero (k : ScalarType) : (zero k).HasKind types k := Scalar.ty_zero k

theorem hasKind_one (k : ScalarType) : (one k).HasKind types k := Scalar.ty_one k

theorem hasKind_family (i : IntBinary) (fl : FloatBinary) (numeric : k ≠ .cert)
    (left : f.HasKind types k) (right : g.HasKind types k) :
    (binary (BinaryOp.ofFamily i fl f.ty) f g).HasKind types k := by
  have same := BinaryOp.ty_ofFamily i fl k numeric
  rw [left.ty]
  exact ⟨same, same.symm ▸ left, same.symm ▸ right⟩

theorem HasKind.add (numeric : k ≠ .cert) (left : f.HasKind types k) (right : g.HasKind types k) :
    (f.add g).HasKind types k :=
  hasKind_family .add .add numeric left right

theorem HasKind.sub (numeric : k ≠ .cert) (left : f.HasKind types k) (right : g.HasKind types k) :
    (f.sub g).HasKind types k :=
  hasKind_family .sub .sub numeric left right

theorem HasKind.mul (numeric : k ≠ .cert) (left : f.HasKind types k) (right : g.HasKind types k) :
    (f.mul g).HasKind types k :=
  hasKind_family .mul .mul numeric left right

theorem HasKind.div (numeric : k ≠ .cert) (left : f.HasKind types k) (right : g.HasKind types k) :
    (f.div g).HasKind types k :=
  hasKind_family .sdiv .div numeric left right

theorem HasKind.neg (numeric : k ≠ .cert) (typed : f.HasKind types k) : f.neg.HasKind types k := by
  rw [Formula.neg, typed.ty]
  exact (hasKind_zero k).sub numeric typed

theorem HasKind.sum (numeric : k ≠ .cert) {fs : List Formula} (first : f.HasKind types k)
    (rest : ∀ g ∈ fs, g.HasKind types k) : (fs.foldl Formula.add f).HasKind types k := by
  induction fs generalizing f with
  | nil => exact first
  | cons g fs ih =>
    obtain ⟨here, rest⟩ := List.forall_mem_cons.mp rest
    exact ih (first.add numeric here) rest

theorem HasKind.ofBool (numeric : k ≠ .cert) (typed : f.HasKind types .bool) :
    (ofBool k f).HasKind types k := by
  cases k with
  | int w => exact ⟨rfl, typed⟩
  | float w => exact ⟨rfl, rfl, typed⟩
  | bool => exact typed
  | cert => exact absurd rfl numeric

/-- A call of a function with one argument. -/
theorem HasKind.call {m : MathFunction} {w : FloatWidth} (alone : m.arity = 1)
    (typed : f.HasKind types (.float w)) :
    (Formula.call (m.name w) [f] (.float w)).HasKind types (.float w) := by
  refine ⟨rfl, _, signature_name m w, ?_⟩
  rw [alone]
  exact ⟨_, [], rfl, typed, rfl⟩

/-- A call of a function with two arguments. -/
theorem HasKind.callBoth {m : MathFunction} {w : FloatWidth} (both : m.arity = 2)
    (left : f.HasKind types (.float w)) (right : g.HasKind types (.float w)) :
    (Formula.call (m.name w) [f, g] (.float w)).HasKind types (.float w) := by
  refine ⟨rfl, _, signature_name m w, ?_⟩
  rw [both]
  exact ⟨_, _, rfl, left, _, [], rfl, right, rfl⟩

end Formula

open Formula

/-! The partials in the standard table. -/

section

variable {f g : Formula}

theorem hasKind_quotientPartials (numeric : k ≠ .cert) (left : f.HasKind types k)
    (right : g.HasKind types k) :
    (quotientPartials k f g).1.HasKind types k ∧ (quotientPartials k f g).2.HasKind types k :=
  ⟨(hasKind_one k).div numeric right, (left.div numeric (right.mul numeric right)).neg numeric⟩

theorem hasKind_remainderPartials (numeric : k ≠ .cert) (left : f.HasKind types k)
    (right : g.HasKind types k) :
    (remainderPartials k f g).1.HasKind types k ∧ (remainderPartials k f g).2.HasKind types k :=
  ⟨hasKind_one k, (left.div numeric right).neg numeric⟩

theorem hasKind_selection {le lt : Comparison} (numeric : k ≠ .cert) (onLe : le.ty = k)
    (onLt : lt.ty = k) (left : f.HasKind types k) (right : g.HasKind types k) :
    (selection le lt k f g).1.HasKind types k ∧ (selection le lt k f g).2.HasKind types k := by
  have both {op : Comparison} (on : op.ty = k) {a b : Formula} (first : a.HasKind types k)
      (second : b.HasKind types k) : (compare op a b).HasKind types .bool :=
    ⟨rfl, on.symm ▸ first, on.symm ▸ second⟩
  exact ⟨(both onLe right left).ofBool numeric, (both onLt left right).ofBool numeric⟩

theorem hasKind_unary (op : UnaryOp) (typed : f.HasKind types op.ty) :
    (Rules.standard.unary op f).HasKind types op.ty := by
  cases op with
  | not => exact hasKind_zero _
  | int op w =>
    cases op with
    | abs => exact ⟨rfl, typed⟩
    | _ => exact hasKind_zero _
  | float op w =>
    cases op with
    | abs => exact ⟨rfl, typed⟩
    | signum => exact hasKind_zero _
    | neg => exact rfl

theorem hasKind_intPartials (op : IntBinary) {w : IntWidth} (left : f.HasKind types (.int w))
    (right : g.HasKind types (.int w)) :
    (op.partials w f g).1.HasKind types (.int w) ∧ (op.partials w f g).2.HasKind types (.int w) := by
  have numeric : ScalarType.int w ≠ .cert := by simp
  have one : (one (.int w)).HasKind types (.int w) := hasKind_one _
  cases op with
  | add => exact ⟨one, one⟩
  | sub => exact ⟨one, one.neg numeric⟩
  | mul => exact ⟨right, left⟩
  | sdiv => exact hasKind_quotientPartials numeric left right
  | udiv => exact hasKind_quotientPartials numeric left right
  | smod => exact hasKind_remainderPartials numeric left right
  | umod => exact hasKind_remainderPartials numeric left right
  | pow =>
    have power : (binary (.int .pow w) f (g.sub (Formula.one (.int w)))).HasKind types (.int w) :=
      ⟨rfl, left, right.sub numeric one⟩
    exact ⟨right.mul numeric power, hasKind_zero _⟩
  | smax => exact hasKind_selection numeric rfl rfl left right
  | umax => exact hasKind_selection numeric rfl rfl left right
  | smin => exact hasKind_selection numeric rfl rfl right left
  | umin => exact hasKind_selection numeric rfl rfl right left
  | _ => exact ⟨hasKind_zero _, hasKind_zero _⟩

theorem hasKind_floatPartials (op : FloatBinary) {w : FloatWidth}
    (left : f.HasKind types (.float w)) (right : g.HasKind types (.float w)) :
    (op.partials w f g).1.HasKind types (.float w) ∧
      (op.partials w f g).2.HasKind types (.float w) := by
  have numeric : ScalarType.float w ≠ .cert := by simp
  have one : (one (.float w)).HasKind types (.float w) := hasKind_one _
  cases op with
  | add => exact ⟨one, one⟩
  | sub => exact ⟨one, one.neg numeric⟩
  | mul => exact ⟨right, left⟩
  | div => exact hasKind_quotientPartials numeric left right
  | pow =>
    have power {e : Formula} (exponent : e.HasKind types (.float w)) :
        (binary (.float .pow w) f e).HasKind types (.float w) := ⟨rfl, left, exponent⟩
    exact ⟨right.mul numeric (power (right.sub numeric one)),
      (power right).mul numeric (left.call rfl)⟩
  | max => exact hasKind_selection numeric rfl rfl left right
  | min => exact hasKind_selection numeric rfl rfl right left

theorem hasKind_binary (op : BinaryOp) (left : f.HasKind types op.ty)
    (right : g.HasKind types op.ty) :
    (Rules.standard.binary op f g).1.HasKind types op.ty ∧
      (Rules.standard.binary op f g).2.HasKind types op.ty := by
  cases op with
  | int op w => exact hasKind_intPartials op left right
  | float op w => exact hasKind_floatPartials op left right
  | and => exact ⟨hasKind_zero _, hasKind_zero _⟩
  | or => exact ⟨hasKind_zero _, hasKind_zero _⟩

theorem hasKind_mathPartials {m : MathFunction} {w : FloatWidth} {fs ds : List Formula}
    (found : m.partials? w fs = some ds) (typed : ∀ a ∈ fs, a.HasKind types (.float w)) :
    ∀ d ∈ ds, d.HasKind types (.float w) := by
  have numeric : ScalarType.float w ≠ .cert := by simp
  have one : (one (.float w)).HasKind types (.float w) := hasKind_one _
  have two : (lit (.float w 2.0)).HasKind types (.float w) := rfl
  unfold MathFunction.partials? at found
  split at found
  case h_10 => simp at found
  all_goals
    obtain rfl := Option.some.inj found
    simp only [List.forall_mem_cons, List.not_mem_nil, false_implies, implies_true, and_true]
      at typed ⊢
  case h_1 x => exact one.div numeric (two.mul numeric (typed.call rfl))
  case h_2 x => exact typed.call rfl
  case h_3 x => exact one.div numeric typed
  case h_4 x => exact typed.call rfl
  case h_5 x => exact (typed.call rfl).neg numeric
  case h_6 x => exact one.div numeric ((typed.call rfl).mul numeric (typed.call rfl))
  case h_7 x => exact one.sub numeric ((typed.call rfl).mul numeric (typed.call rfl))
  case h_8 x y =>
    obtain ⟨left, right⟩ := typed
    exact ⟨right.mul numeric (left.callBoth rfl (right.sub numeric one)),
      (left.callBoth rfl right).mul numeric (left.call rfl)⟩
  case h_9 y x =>
    obtain ⟨up, along⟩ := typed
    have norm := (along.mul numeric along).add numeric (up.mul numeric up)
    exact ⟨along.div numeric norm, (up.div numeric norm).neg numeric⟩

theorem hasKind_builtin {func : String} {kinds : List ScalarType} {fs ds : List Formula}
    (signature : Rules.standard.signature func = some (kinds, k))
    (found : Rules.standard.builtin func fs = some ds) (typed : ∀ a ∈ fs, a.HasKind types k) :
    ∀ d ∈ ds, d.HasKind types k := by
  obtain ⟨⟨m, w⟩, known, found⟩ := Option.bind_eq_some_iff.mp found
  obtain ⟨⟨m', w'⟩, known', same⟩ := Option.bind_eq_some_iff.mp signature
  obtain ⟨rfl, rfl⟩ := Prod.mk.inj (Option.some.inj (known.symm.trans known'))
  obtain ⟨-, rfl⟩ := Prod.mk.inj (Option.some.inj same)
  exact hasKind_mathPartials found typed

end

/-! Statements for formulas. -/

namespace Builder

/-- The builder knows the types of the table, which are types of values. Its names are among the allowed
    ones, and so is every name that may still be drawn. -/
structure Knows (allowed : Name → Prop) (types : NameTable Ty) (b : Builder) : Prop where
  typed : types ≤ b.types
  value : ∀ x t, types.find? x = some t → t.IsValue
  drawn : ∀ x t, types.find? x = some t → x.id < b.supply.next
  named : ∀ x t, types.find? x = some t → allowed x
  free : ∀ x : Name, b.supply.next ≤ x.id → allowed x

/-- Well-typed statements were added, which make the later table of the first. -/
structure Adds (b : Builder) (types : NameTable Ty) (c : Builder) (later : NameTable Ty) : Prop where
  emitted : ∃ new, c.stms = b.stms ++ new ∧ StmsWellTyped types new ∧
    later = types.declare (new.flatMap (·.pat))
  le : types ≤ later
  next_le : b.supply.next ≤ c.supply.next

variable {b c d : Builder} {middle : NameTable Ty} {allowed : Name → Prop}

theorem Adds.aside (stms : c.stms = b.stms) (next_le : b.supply.next ≤ c.supply.next) :
    b.Adds types c types :=
  ⟨⟨[], by simp [stms], trivial, rfl⟩, le_refl _, next_le⟩

theorem Adds.refl (b : Builder) (types : NameTable Ty) : b.Adds types b types :=
  .aside rfl (Nat.le_refl _)

theorem Adds.trans (first : b.Adds types c middle) (second : c.Adds middle d later) :
    b.Adds types d later where
  emitted := by
    obtain ⟨new, stms, typed, rfl⟩ := first.emitted
    obtain ⟨more, stms', typed', rfl⟩ := second.emitted
    refine ⟨new ++ more, by rw [stms', stms, List.append_assoc], ?_, ?_⟩
    · exact (stmsWellTyped_append new more).mpr ⟨typed, typed'⟩
    · rw [List.flatMap_append, declare_append]
  le := le_trans first.le second.le
  next_le := Nat.le_trans first.next_le second.next_le

/-- Names that the statement binds are new to the table. -/
structure New (allowed : Name → Prop) (types : NameTable Ty) (b : Builder) (ps : List Param) :
    Prop where
  absent : ∀ p ∈ ps, types.find? p.name = none
  drawn : ∀ p ∈ ps, p.name.id < b.supply.next
  named : ∀ p ∈ ps, allowed p.name
  value : ∀ p ∈ ps, p.ty.IsValue

theorem knows_empty (free : ∀ x : Name, b.supply.next ≤ x.id → allowed x) :
    b.Knows allowed .empty where
  typed := empty_le _
  value x t found := by simp [find_empty] at found
  drawn x t found := by simp [find_empty] at found
  named x t found := by simp [find_empty] at found
  free := free

theorem Knows.absent (knows : b.Knows allowed types) {x : Name} (undrawn : b.supply.next ≤ x.id) :
    types.find? x = none := by
  cases found : types.find? x with
  | none => rfl
  | some t => exact absurd (knows.drawn x t found) (Nat.not_lt.mpr undrawn)

/-- A builder whose supply has gone on knows the table as well. -/
theorem Knows.draw (knows : b.Knows allowed types) (typed : types ≤ c.types)
    (next_le : b.supply.next ≤ c.supply.next) : c.Knows allowed types where
  typed := typed
  value := knows.value
  drawn x t found := Nat.lt_of_lt_of_le (knows.drawn x t found) next_le
  named := knows.named
  free x le := knows.free x (Nat.le_trans next_le le)

/-- Parameters that are drawn next are new. -/
theorem Knows.new_paramsFrom (knows : b.Knows allowed types) {ts : List Ty}
    (values : ∀ t ∈ ts, t.IsValue) (room : b.supply.next + ts.length ≤ c.supply.next) :
    New allowed types c (paramsFrom b.supply.next ts) where
  absent _ mem := knows.absent (bounds_paramsFrom mem).1
  drawn _ mem := Nat.lt_of_lt_of_le (bounds_paramsFrom mem).2 room
  named p mem := knows.free p.name (bounds_paramsFrom mem).1
  value p mem := by
    have inTypes := List.mem_map_of_mem (f := (·.ty)) mem
    rw [types_paramsFrom] at inTypes
    exact values p.ty inTypes

/-- More names are allowed, and those of new parameters are declared. -/
theorem Knows.declare {wider : Name → Prop} (knows : b.Knows allowed types)
    (wide : ∀ x, allowed x → wider x) {ps : List Param} (new : New wider types b ps)
    (typed : types.declare ps ≤ c.types) (same : c.supply = b.supply) :
    c.Knows wider (types.declare ps) := by
  have declared : ∀ x t, (types.declare ps).find? x = some t →
      ⟨x, t⟩ ∈ ps ∨ types.find? x = some t := fun x t found =>
    (find_declared found).imp_right And.right
  exact {
    typed := typed
    value := fun x t found => (declared x t found).elim (new.value _) (knows.value x t)
    drawn := fun x t found => same ▸ (declared x t found).elim (new.drawn _) (knows.drawn x t)
    named := fun x t found => (declared x t found).elim (new.named _) fun old =>
      wide x (knows.named x t old)
    free := fun x le => wide x (knows.free x (same ▸ le)) }

theorem Knows.add {wider : Name → Prop} (knows : b.Knows allowed types)
    (wide : ∀ x, allowed x → wider x) {s : Stm} (typed : s.WellTyped types)
    (new : New wider types b s.pat) :
    b.Adds types (Build.add s b).2 (types.declare s.pat) ∧
      (Build.add s b).2.Knows wider (types.declare s.pat) := by
  rw [Build.add_apply]
  refine ⟨⟨⟨[s], rfl, ⟨typed, trivial⟩, by simp⟩, le_declare new.absent, Nat.le_refl _⟩, ?_⟩
  exact knows.declare wide new (declare_mono knows.typed s.pat) rfl

/-- Wherever the table is known, the action adds what an expression of the kind needs. -/
def Yields (act : Build Exp) (types : NameTable Ty) (k : ScalarType) : Prop :=
  ∀ (allowed : Name → Prop) (b : Builder), b.Knows allowed types →
    ∃ later, b.Adds types (act b).2 later ∧ (act b).2.Knows allowed later ∧
      (act b).1.HasTypes later [.scalar k]

theorem yields_pure {e : Exp} (typed : e.HasTypes types [.scalar k]) : Yields (pure e) types k :=
  fun _ b knows => ⟨types, .refl b types, knows, typed⟩

/-- The statements for an expression are followed by one that binds it to a name drawn before. -/
theorem Yields.bound {act : Build Exp} (yields : Yields act types k) (numeric : k ≠ .cert)
    (knows : b.Knows allowed types) (stms : c.stms = b.stms)
    (next : c.supply.next = b.supply.next + 1) (typed : types ≤ c.types) (aux : Annotations) :
    ∃ later,
      b.Adds types (Build.add ⟨[⟨⟨b.supply.next⟩, .scalar k⟩], aux, (act c).1⟩ (act c).2).2 later ∧
        (Build.add ⟨[⟨⟨b.supply.next⟩, .scalar k⟩], aux, (act c).1⟩ (act c).2).2.Knows allowed later ∧
        later.find? ⟨b.supply.next⟩ = some (.scalar k) := by
  -- nothing that the action draws is the name in question
  have apart : c.Knows (fun x => allowed x ∧ x ≠ ⟨b.supply.next⟩) types := {
    typed := typed
    value := knows.value
    drawn := fun x t found => by have := knows.drawn x t found; omega
    named := fun x t found => ⟨knows.named x t found, fun same => by
      have lt := knows.drawn x t found
      simp [same] at lt⟩
    free := fun x le => ⟨knows.free x (by omega), fun same => by
      simp only [same] at le
      omega⟩ }
  obtain ⟨middle, adds, inside, last⟩ := yields _ c apart
  have before : b.Adds types c types := .aside stms (by omega)
  have absent : middle.find? ⟨b.supply.next⟩ = none := by
    cases found : middle.find? ⟨b.supply.next⟩ with
    | none => rfl
    | some t => exact absurd rfl (inside.named _ t found).2
  have next_le := adds.next_le
  have new : New allowed middle (act c).2 [⟨⟨b.supply.next⟩, .scalar k⟩] := {
    absent := by simpa using absent
    drawn := by simp only [List.forall_mem_singleton]; omega
    named := by simpa using knows.free ⟨b.supply.next⟩ (Nat.le_refl _)
    value := by simpa using isValue_scalar.mpr numeric }
  have value : ∀ p ∈ [Param.mk ⟨b.supply.next⟩ (.scalar k)], p.ty.IsValue := new.value
  obtain ⟨added, known⟩ := inside.add (fun x both => both.1)
    (s := ⟨[⟨⟨b.supply.next⟩, .scalar k⟩], aux, (act c).1⟩) ⟨value, last⟩ new
  have distinct : ([Param.mk ⟨b.supply.next⟩ (.scalar k)].map (·.name)).Nodup := by simp
  have bound : (middle.declare [⟨⟨b.supply.next⟩, .scalar k⟩]).find? ⟨b.supply.next⟩ = _ :=
    find_declare_of_mem distinct List.mem_cons_self
  exact ⟨_, before.trans (adds.trans added), known, bound⟩

theorem letExp_adds {e : Exp} (knows : b.Knows allowed types) (numeric : k ≠ .cert)
    (typed : e.HasTypes types [.scalar k]) :
    ∃ later, b.Adds types (Build.letExp (.scalar k) e b).2 later ∧
      (Build.letExp (.scalar k) e b).2.Knows allowed later ∧
      later.find? (Build.letExp (.scalar k) e b).1 = some (.scalar k) :=
  (yields_pure typed).bound (c := { b with supply := ⟨b.supply.next + 1⟩ }) numeric knows rfl rfl
    knows.typed .none

/-- The statements for a formula, and the operand that holds its value. -/
theorem lower_adds {f : Formula} (typed : f.HasKind types k) (yields : Yields (Build.expOf f) types k)
    (knows : b.Knows allowed types) :
    ∃ later, b.Adds types (Build.lower f b).2 later ∧ (Build.lower f b).2.Knows allowed later ∧
      (Build.lower f b).1.HasType later (.scalar k) := by
  have composite (numeric : k ≠ .cert) (e : Build.lower f b = (do
      let e ← Build.expOf f
      let x ← Build.letExp (.scalar f.ty) e
      return .var x : Build Operand) b) :
      ∃ later, b.Adds types (Build.lower f b).2 later ∧ (Build.lower f b).2.Knows allowed later ∧
        (Build.lower f b).1.HasType later (.scalar k) := by
    obtain ⟨middle, first, known, last⟩ := yields allowed b knows
    obtain ⟨later, second, known', here⟩ := letExp_adds known numeric last
    rw [e, typed.ty]
    exact ⟨later, first.trans second, known', here⟩
  cases f with
  | leaf x t => exact ⟨types, .refl b types, knows, typed.2⟩
  | lit v => exact ⟨types, .refl b types, knows, congrArg Ty.scalar typed.symm⟩
  | unary op a => exact composite (typed.1 ▸ op.ty_ne_cert) rfl
  | binary op a b => exact composite (typed.1 ▸ op.ty_ne_cert) rfl
  | compare op a b => exact composite (by simp [typed.1]) rfl
  | convert op a => exact composite (typed.1 ▸ op.target_ne_cert) rfl
  | call func args t =>
    obtain ⟨rfl, kinds, found, -⟩ := typed
    obtain ⟨⟨w, rfl⟩, -⟩ := floats_of_signature found
    exact composite (by simp) rfl

mutual

theorem expOf_yields (f : Formula) {types : NameTable Ty} {k : ScalarType}
    (typed : f.HasKind types k) : Yields (Build.expOf f) types k := by
  intro allowed b knows
  -- both operands of an operation, the second after the first
  have both {a c : Formula} {kind : ScalarType} (left : a.HasKind types kind)
      (right : c.HasKind types kind) (yieldsLeft : Yields (Build.expOf a) types kind)
      (yieldsRight : ∀ types, c.HasKind types kind → Yields (Build.expOf c) types kind) :
      ∃ later, b.Adds types (Build.lower c (Build.lower a b).2).2 later ∧
        (Build.lower c (Build.lower a b).2).2.Knows allowed later ∧
        (Build.lower a b).1.HasType later (.scalar kind) ∧
        (Build.lower c (Build.lower a b).2).1.HasType later (.scalar kind) := by
    obtain ⟨middle, first, known, here⟩ := lower_adds left yieldsLeft knows
    have right := right.mono first.le
    obtain ⟨later, second, known', there⟩ := lower_adds right (yieldsRight middle right) known
    exact ⟨later, first.trans second, known', here.mono second.le, there⟩
  cases f with
  | leaf x t => exact ⟨types, .refl b types, knows, _, rfl, typed.2⟩
  | lit v => exact ⟨types, .refl b types, knows, _, rfl, congrArg Ty.scalar typed.symm⟩
  | unary op a =>
    obtain ⟨rfl, typed⟩ := typed
    obtain ⟨later, adds, known, here⟩ := lower_adds typed (expOf_yields a typed) knows
    exact ⟨later, adds, known, _, rfl, rfl, here⟩
  | binary op x y =>
    obtain ⟨rfl, left, right⟩ := typed
    obtain ⟨later, adds, known, here, there⟩ := both left right (expOf_yields x left)
      fun _ typed => expOf_yields y typed
    exact ⟨later, adds, known, _, rfl, rfl, here, there⟩
  | compare op x y =>
    obtain ⟨rfl, left, right⟩ := typed
    obtain ⟨later, adds, known, here, there⟩ := both left right (expOf_yields x left)
      fun _ typed => expOf_yields y typed
    exact ⟨later, adds, known, _, rfl, rfl, here, there⟩
  | convert op a =>
    obtain ⟨rfl, typed⟩ := typed
    obtain ⟨later, adds, known, here⟩ := lower_adds typed (expOf_yields a typed) knows
    exact ⟨later, adds, known, _, rfl, rfl, here⟩
  | call func args t =>
    obtain ⟨rfl, kinds, found, inArgs⟩ := typed
    obtain ⟨later, adds, known, here⟩ := operandsOf_adds args inArgs knows
    exact ⟨later, adds, known, kinds, t, found, here, rfl, rfl⟩

theorem operandsOf_adds (fs : List Formula) {types : NameTable Ty} {kinds : List ScalarType}
    {b : Builder} {allowed : Name → Prop} (typed : FormulasHaveKinds types fs kinds)
    (knows : b.Knows allowed types) :
    ∃ later, b.Adds types (Build.operandsOf fs b).2 later ∧
      (Build.operandsOf fs b).2.Knows allowed later ∧
      List.Forall₂ (fun kind x => x.HasType later (.scalar kind)) kinds (Build.operandsOf fs b).1 := by
  cases fs with
  | nil =>
    obtain rfl : kinds = [] := typed
    exact ⟨types, .refl b types, knows, .nil⟩
  | cons f fs =>
    obtain ⟨k, rest, rfl, here, typed⟩ := typed
    obtain ⟨middle, first, known, operand⟩ := lower_adds here (expOf_yields f here) knows
    obtain ⟨later, second, known', operands⟩ :=
      operandsOf_adds fs (formulasHaveKinds_mono typed first.le) known
    exact ⟨later, first.trans second, known', .cons (operand.mono second.le) operands⟩

end

theorem letFormula_adds {f : Formula} (typed : f.HasKind types k) (numeric : k ≠ .cert)
    (knows : b.Knows allowed types) :
    ∃ later, b.Adds types (Build.letFormula f b).2 later ∧
      (Build.letFormula f b).2.Knows allowed later ∧
      later.find? (Build.letFormula f b).1 = some (.scalar k) := by
  obtain rfl := typed.ty
  exact (expOf_yields f typed).bound (c := { b with supply := ⟨b.supply.next + 1⟩ }) numeric knows rfl
    rfl knows.typed .none

/-- Statements that are emitted as they are. -/
theorem Knows.emit {wider : Name → Prop} (knows : b.Knows allowed types)
    (wide : ∀ x, allowed x → wider x) {ss : List Stm} (typed : StmsWellTyped types ss)
    (new : New wider types b (ss.flatMap (·.pat))) :
    b.Adds types (b.emit ss) (types.declare (ss.flatMap (·.pat))) ∧
      (b.emit ss).Knows wider (types.declare (ss.flatMap (·.pat))) :=
  ⟨⟨⟨ss, rfl, typed, rfl⟩, le_declare new.absent, Nat.le_refl _⟩,
    knows.declare wide new (declare_mono knows.typed _) rfl⟩

end Builder

end Cotangent
