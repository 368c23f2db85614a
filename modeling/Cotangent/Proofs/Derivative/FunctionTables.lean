import Cotangent.Evaluation.Scalar
import Cotangent.Proofs.Derivative.Leaves
import Cotangent.Proofs.Outcome
import Cotangent.Proofs.Program.ScalarCode
/-!
The builtin functions in three tables: the signatures, the partials and the values. Each reads the name
of a function and the number of its arguments on its own. All of them know the same names with the same
numbers, which are those of the functions at either width, and no partial calls anything else.
-/
namespace Cotangent

open MathFunction

/-! Names. -/

namespace MathFunction

theorem splitWidth_eq_some (func base : String) (w : FloatWidth) :
    splitWidth func = some (base, w) ↔ func = base ++ widthSuffix w := by
  have whole {front : List Char} {suffix : String}
      (ends : func.toList.reverse = suffix.toList.reverse ++ front) :
      func = String.ofList front.reverse ++ suffix := by
    have same : func.toList = front.reverse ++ suffix.toList := by
      rw [← List.reverse_reverse func.toList, ends, List.reverse_append, List.reverse_reverse]
    rw [← String.toList_inj, same, String.toList_append, String.toList_ofList]
  constructor
  · intro known
    unfold splitWidth at known
    split at known
    · rename_i front ends
      obtain ⟨rfl, rfl⟩ := Prod.mk.inj (Option.some.inj known)
      exact whole ends
    · rename_i front ends
      obtain ⟨rfl, rfl⟩ := Prod.mk.inj (Option.some.inj known)
      exact whole ends
    · cases known
  · rintro rfl
    cases w <;> simp [splitWidth, widthSuffix]

theorem ofBase_eq_some (base : String) (f : MathFunction) : ofBase? base = some f ↔ base = f.base := by
  constructor
  · intro found
    have same := List.find?_some found
    exact (beq_iff_eq.mp same).symm
  · rintro rfl
    cases f <;> rfl

/-- The names that are found are those that the functions are called by. -/
theorem ofName_eq_some (func : String) (f : MathFunction) (w : FloatWidth) :
    ofName? func = some (f, w) ↔ func = f.name w := by
  constructor
  · intro found
    obtain ⟨⟨base, v⟩, split, found⟩ := Option.bind_eq_some_iff.mp found
    obtain ⟨g, known, same⟩ := Option.bind_eq_some_iff.mp found
    obtain ⟨rfl, rfl⟩ := Prod.mk.inj (Option.some.inj same)
    rw [(splitWidth_eq_some ..).mp split, (ofBase_eq_some ..).mp known, name]
  · rintro rfl
    exact ofName_name f w

/-- The value at floats, under the name that the function is called by. -/
def value? (func : String) (xs : List Float) : Option Scalar := do
  let (f, w) ← ofName? func
  let y ← f.eval? xs
  return .float w (w.round y)

end MathFunction

/-- The signatures know the functions by their names, with as many arguments as they take. -/
theorem knownCall_iff_name (func : String) (count : Nat) :
    KnownCall func count ↔ ∃ f w, func = name f w ∧ count = f.arity := by
  constructor
  · rintro ⟨sig, known, rfl⟩
    obtain ⟨⟨f, w⟩, found, same⟩ := Option.bind_eq_some_iff.mp known
    obtain rfl := Option.some.inj same
    exact ⟨f, w, (ofName_eq_some ..).mp found, by simp⟩
  · rintro ⟨f, w, rfl, arity⟩
    exact (knownCall_iff f w count).mpr arity

/-! The partials. -/

/-- There is one partial for each argument of the function. -/
theorem partials_length {f : MathFunction} {w : FloatWidth} {fs ds : List Formula}
    (found : f.partials? w fs = some ds) : fs.length = f.arity ∧ ds.length = f.arity := by
  unfold partials? at found
  split at found <;> first
    | obtain rfl := Option.some.inj found
      exact ⟨rfl, rfl⟩
    | cases found

theorem builtin_length {func : String} {fs ds : List Formula}
    (found : Rules.standard.builtin func fs = some ds) :
    KnownCall func fs.length ∧ ds.length = fs.length := by
  obtain ⟨⟨f, w⟩, named, found⟩ := Option.bind_eq_some_iff.mp found
  obtain ⟨taken, given⟩ := partials_length found
  exact ⟨(knownCall_iff_name ..).mpr ⟨f, w, (ofName_eq_some ..).mp named, taken⟩, given.trans taken.symm⟩

theorem isSome_builtin_iff (func : String) (fs : List Formula) :
    (Rules.standard.builtin func fs).isSome ↔ KnownCall func fs.length := by
  rw [Option.isSome_iff_exists]
  constructor
  · rintro ⟨ds, found⟩
    exact (builtin_length found).1
  · rintro ⟨sig, known, length⟩
    exact complete_standard func sig fs known length

/-! The values. -/

theorem isSome_value_iff (func : String) (xs : List Float) :
    (value? func xs).isSome ↔ KnownCall func xs.length := by
  rw [knownCall_iff_name, Option.isSome_iff_exists]
  constructor
  · rintro ⟨v, known⟩
    obtain ⟨⟨f, w⟩, named, known⟩ := Option.bind_eq_some_iff.mp known
    obtain ⟨y, evaluated, -⟩ := Option.bind_eq_some_iff.mp known
    exact ⟨f, w, (ofName_eq_some ..).mp named, (isSome_eval f xs).mp (by simp [evaluated])⟩
  · rintro ⟨f, w, rfl, arity⟩
    obtain ⟨y, evaluated⟩ := Option.isSome_iff_exists.mp ((isSome_eval f xs).mpr arity)
    exact ⟨.float w (w.round y), by simp [value?, ofName_name, evaluated]⟩

/-- Floats, each of a width of its own. -/
def floats (args : List (FloatWidth × Float)) : List Scalar := args.map fun a => .float a.1 a.2

theorem asFloat_floats (args : List (FloatWidth × Float)) :
    (floats args).mapM Scalar.asFloat = .ok (args.map (·.2)) := by
  induction args with
  | nil => rfl
  | cons a args ih =>
    rw [floats] at ih ⊢
    rw [List.map_cons, List.mapM_cons, ih]
    rfl

/-- At floats, a call fails only for a function that is not known. -/
theorem call_floats (func : String) (args : List (FloatWidth × Float)) :
    call func (floats args) = match value? func (args.map (·.2)) with
      | some v => .ok v
      | none => .error (.unknownFunction func) := by
  have numbers := asFloat_floats args
  unfold call value? ofName?
  cases splitWidth func with
  | none => rfl
  | some p =>
    obtain ⟨base, w⟩ := p
    cases found : ofBase? base with
    | none => simp [numbers, found, bind, Except.bind]
    | some f =>
      cases evaluated : f.eval? (args.map (·.2)) with
      | none => simp [numbers, found, evaluated, bind, Except.bind]
      | some y => simp [numbers, found, evaluated, bind, Except.bind, pure, Except.pure]

/-- The value of a known function is of the kind that its signature declares. -/
theorem call_of_known {func : String} {args : List (FloatWidth × Float)}
    (known : KnownCall func args.length) :
    ∃ kinds w y, Rules.standard.signature func = some (kinds, .float w) ∧
      call func (floats args) = .ok (.float w y) := by
  have isSome := (isSome_value_iff func (args.map (·.2))).mpr (by simpa using known)
  obtain ⟨v, valued⟩ := Option.isSome_iff_exists.mp isSome
  have called : call func (floats args) = .ok v := by rw [call_floats, valued]
  obtain ⟨⟨f, w⟩, named, valued⟩ := Option.bind_eq_some_iff.mp valued
  obtain ⟨y, -, made⟩ := Option.bind_eq_some_iff.mp valued
  refine ⟨List.replicate f.arity (.float w), w, w.round y, ?_, ?_⟩
  · simp [Rules.standard, named]
  · exact called.trans (congrArg Except.ok (Option.some.inj made).symm)

theorem call_ne_unknown_iff (func : String) (args : List (FloatWidth × Float)) :
    (∀ other, call func (floats args) ≠ .error (.unknownFunction other)) ↔
      KnownCall func args.length := by
  have known := isSome_value_iff func (args.map (·.2))
  rw [List.length_map] at known
  rw [← known, call_floats]
  cases value? func (args.map (·.2)) <;> simp

/-! Calls in formulas. -/

mutual

/-- The calls in a formula, each with the number of its arguments. -/
def Formula.calls : Formula → List (String × Nat)
  | .leaf _ _ => []
  | .lit _ => []
  | .unary _ a => a.calls
  | .binary _ a b => a.calls ++ b.calls
  | .compare _ a b => a.calls ++ b.calls
  | .convert _ a => a.calls
  | .call func args _ => (func, args.length) :: formulaCalls args

def formulaCalls : List Formula → List (String × Nat)
  | [] => []
  | f :: fs => f.calls ++ formulaCalls fs

end

mutual

theorem known_iff_calls (f : Formula) : f.Known ↔ ∀ c ∈ f.calls, KnownCall c.1 c.2 := by
  cases f with
  | leaf x t => simp [Formula.Known, Formula.calls]
  | lit v => simp [Formula.Known, Formula.calls]
  | unary op a => exact known_iff_calls a
  | binary op a b =>
    simp only [Formula.Known, Formula.calls, List.forall_mem_append, known_iff_calls a,
      known_iff_calls b]
  | compare op a b =>
    simp only [Formula.Known, Formula.calls, List.forall_mem_append, known_iff_calls a,
      known_iff_calls b]
  | convert op a => exact known_iff_calls a
  | call func args t =>
    simp only [Formula.Known, Formula.calls, List.forall_mem_cons, formulasKnown_iff_calls args]

theorem formulasKnown_iff_calls (fs : List Formula) :
    FormulasKnown fs ↔ ∀ c ∈ formulaCalls fs, KnownCall c.1 c.2 := by
  cases fs with
  | nil => simp [FormulasKnown, formulaCalls]
  | cons f fs =>
    simp only [FormulasKnown, formulaCalls, List.forall_mem_append, known_iff_calls f,
      formulasKnown_iff_calls fs]

end

/-- All three tables have the function, with that number of arguments. -/
structure InEveryTable (func : String) (count : Nat) : Prop where
  signature : ∃ sig, Rules.standard.signature func = some sig ∧ sig.1.length = count
  partials : ∀ fs : List Formula, fs.length = count → (Rules.standard.builtin func fs).isSome
  value : ∀ args : List (FloatWidth × Float), args.length = count →
    ∃ v, call func (floats args) = .ok v

theorem KnownCall.inEveryTable {func : String} {count : Nat} (known : KnownCall func count) :
    InEveryTable func count where
  signature := known.imp fun _ found => ⟨found.1, found.2.symm⟩
  partials fs length := (isSome_builtin_iff func fs).mpr (length ▸ known)
  value args length := by
    have known : KnownCall func args.length := length ▸ known
    obtain ⟨kinds, w, y, -, called⟩ := call_of_known known
    exact ⟨.float w y, called⟩

/-- Partials call known functions only. -/
theorem calls_of_builtin {func : String} {operands : List (ScalarType × Operand)} {ds : List Formula}
    (found : Rules.standard.builtin func (operands.map fun o => Formula.ofOperand o.1 o.2) = some ds) :
    ∀ c ∈ formulaCalls ds, InEveryTable c.1 c.2 := by
  have known := known_builtin found (List.forall_mem_map.mpr fun o _ => Formula.known_ofOperand o.1 o.2)
  intro c mem
  exact ((formulasKnown_iff_calls ds).mp ((formulasKnown_iff ds).mpr known) c mem).inEveryTable

/-- A function has a signature for as many arguments as there are operands just if it has partials
    there, and just if it is known at as many floats. Then there are as many partials, the value is of
    the declared kind, and all that the partials call is in every table. -/
theorem function_tables_agree (func : String) (operands : List (ScalarType × Operand))
    (args : List (FloatWidth × Float)) (same : args.length = operands.length) :
    let partials := Rules.standard.builtin func (operands.map fun o => Formula.ofOperand o.1 o.2)
    let value := call func (floats args)
    ((∃ sig, Rules.standard.signature func = some sig ∧ sig.1.length = operands.length) ↔
        partials.isSome) ∧
      (partials.isSome ↔ ∀ other, value ≠ .error (.unknownFunction other)) ∧
      ∀ ds, partials = some ds → ds.length = operands.length ∧
        (∃ kinds w y, Rules.standard.signature func = some (kinds, .float w) ∧
          value = .ok (.float w y)) ∧
        ∀ c ∈ formulaCalls ds, InEveryTable c.1 c.2 := by
  intro partials value
  have isSome : partials.isSome ↔ KnownCall func operands.length := by
    simpa using isSome_builtin_iff func (operands.map fun o => Formula.ofOperand o.1 o.2)
  have valued := call_ne_unknown_iff func args
  rw [same] at valued
  refine ⟨?_, isSome.trans valued.symm, fun ds found => ⟨?_, ?_, calls_of_builtin found⟩⟩
  · simp only [isSome, KnownCall, eq_comm]
  · simpa using (builtin_length found).2
  · exact call_of_known (same ▸ isSome.mp (by simp [found]))

/-- The partials of a power call the power itself and the logarithm. -/
theorem power_in_every_table : InEveryTable "pow64" 2 ∧ InEveryTable "log64" 1 := by
  have agree := function_tables_agree "pow64" [(.float .f64, .var ⟨0⟩), (.float .f64, .var ⟨1⟩)]
    [(.f64, 2.0), (.f32, 0.5)] rfl
  have calls := (agree.2.2 _ rfl).2.2
  exact ⟨calls ("pow64", 2) (by decide), calls ("log64", 1) (by decide)⟩

end Cotangent
