import Cotangent.Derivative.Forward
import Cotangent.Proofs.Derivative.Provenance
/-!
Forward differentiation draws every new name from the supply. There is one lemma for each construct,
over parts that do so, and the recursion over programs at the end puts them together.
-/
namespace Cotangent

open Occurrences

variable {on : Name → Prop} {K : Origin} {n : Nat}

mutual

theorem seen_tangent (t : Ty) (seen : Seen on t.occurrences) : Seen on t.tangent.occurrences := by
  cases t with
  | scalar t => exact seen
  | array elem shape unique => exact seen
  | acc token shape elems unique =>
    simp only [Ty.occurrences, seen_cons, seen_append] at seen
    have doubled := seen_tangentTypes elems seen.2.2
    simp only [Ty.tangent, Ty.occurrences, seen_cons, seen_append]
    rw [seen_types] at doubled ⊢
    exact ⟨seen.1, seen.2.1, List.forall_mem_append.mpr ⟨doubled, doubled⟩⟩

theorem seen_tangentTypes (ts : List Ty) (seen : Seen on (typeOccurrences ts)) :
    Seen on (typeOccurrences (tangentTypes ts)) := by
  cases ts with
  | nil => exact seen
  | cons t ts =>
    obtain ⟨first, rest⟩ := (seen_append ..).mp seen
    exact (seen_append ..).mpr ⟨seen_tangent t first, seen_tangentTypes ts rest⟩

end

theorem seen_bundledTypes {ts : List Ty} (seen : Seen on (typeOccurrences ts)) :
    Seen on (typeOccurrences (bundledTypes ts)) := by
  rw [seen_types] at seen ⊢
  intro u mem
  obtain ⟨t, inTypes, isPart⟩ := List.mem_flatMap.mp mem
  have tangent := seen_tangent t (seen t inTypes)
  split at isPart
  · obtain rfl := List.mem_singleton.mp isPart
    exact tangent
  · rcases List.mem_cons.mp isPart with rfl | isPart
    · exact seen u inTypes
    · obtain rfl := List.mem_singleton.mp isPart
      exact tangent

namespace Forward

open Diff

variable {α β : Type}

/-! Tangents of binders, operands and names. -/

theorem traced_newTangent {p : Param} (seen : Seen (K.upTo n) p.occurrences) :
    Traced K n (newTangent p) Param.occurrences := by
  obtain ⟨binder, typed⟩ := (seen_cons ..).mp seen
  have type := seen_tangent p.ty typed
  have record (m : Nat) (le : n ≤ m) (x : Name) (known : K.upTo m x) : Traced K m (do
      setCompanion p.name x
      build (Build.declare x p.ty.tangent)
      return ⟨x, p.ty.tangent⟩ : Diff Param) Param.occurrences := by
    refine (keeps_setCompanion p.name known).bind fun k _ le' _ => ?_
    have type := type.later (Nat.le_trans le le')
    refine (draws_build (Build.draws_declare type x)).bind fun j _ le'' _ => draws_pure ?_
    exact (seen_cons ..).mpr ⟨K.upTo_later known (by omega), type.later le''⟩
  unfold newTangent
  by_cases acc : p.ty.isAcc = true
  · simp only [acc, if_true]
    exact (draws_pure binder).bind fun m x le known => record m le x known
  · simp only [acc, if_false, Bool.false_eq_true]
    exact (draws_build Build.traced_fresh).bind fun m x le drawn =>
      record m le x ((seen_cons ..).mp drawn).1

theorem traced_bundled {f : α → Diff (List β)} {xs : List α} {names : β → Occurrences}
    (each : ∀ x ∈ xs, ∀ m, n ≤ m → Traced K m (f x) fun ys => ys.flatMap names) :
    Traced K n (bundled f xs) fun ys => ys.flatMap names := by
  refine (traced_mapM each).bind fun m yss le seen => draws_pure ?_
  simp only [seen_flatMap, List.mem_flatten] at seen ⊢
  exact fun y ⟨ys, isGroup, mem⟩ => seen ys isGroup y mem

theorem traced_bundleBinders {ps : List Param} (seen : Seen (K.upTo n) (paramOccurrences ps)) :
    Traced K n (bundleBinders ps) paramOccurrences := by
  rw [seen_params] at seen
  refine traced_bundled fun p mem m le => ?_
  have here := (seen p mem).later le
  refine (traced_newTangent here).bind fun k tan le' drawn => draws_pure ?_
  have here := here.later le'
  split <;> simp [here, drawn]

theorem traced_tangent (x : Operand) : Traced K n (tangent x) Operand.occurrences := by
  cases x with
  | const v => exact draws_pure seen_nil
  | var x => exact (traced_companion x).bind fun m c le drawn => draws_pure drawn

theorem traced_tangents (xs : List Operand) : Traced K n (tangents xs) operandOccurrences :=
  traced_mapM fun x _ _ _ => traced_tangent x

theorem keeps_isAccName (x : Name) : Keeps K n (isAccName x) :=
  (traced_typeOf x).bind fun _ _ _ _ => draws_pure trivial

theorem keeps_isAccOperand (x : Operand) : Keeps K n (isAccOperand x) := by
  cases x with
  | const v => exact draws_pure trivial
  | var x => exact keeps_isAccName x

theorem traced_bundleOperands {xs : List Operand} (seen : Seen (K.upTo n) (operandOccurrences xs)) :
    Traced K n (bundleOperands xs) operandOccurrences := by
  rw [seen_operands] at seen
  refine traced_bundled fun x mem m le => ?_
  refine (keeps_isAccOperand x).bind fun k acc le' _ => ?_
  have here := (seen x mem).later (Nat.le_trans le le')
  cases acc with
  | true => exact draws_pure (by simpa using here)
  | false =>
    refine (traced_tangent x).bind fun j y le'' drawn => draws_pure ?_
    simpa using ⟨here.later le'', drawn⟩

theorem traced_companions (xs : List Name) : Traced K n (xs.mapM companion) nameOccurrences :=
  (traced_mapM fun x _ _ _ => traced_companion x).mono fun m ys _ seen => by
    simpa [seen_flatMap] using seen

theorem traced_bundleNames {xs : List Name} (known : ∀ x ∈ xs, K.upTo n x) :
    Traced K n (bundleNames xs) nameOccurrences := by
  have bundle : Traced K n (bundleNames xs) fun ys => ys.flatMap fun y => [.reads y] := by
    refine traced_bundled fun x mem m le => (keeps_isAccName x).bind fun k acc le' _ => ?_
    have here := K.upTo_later (known x mem) (Nat.le_trans le le')
    cases acc with
    | true => exact draws_pure (by simpa using here)
    | false =>
      refine (traced_companion x).bind fun j c le'' drawn => draws_pure ?_
      have drawn := ((seen_cons ..).mp drawn).1
      simpa using ⟨K.upTo_later here le'', drawn⟩
  exact bundle.mono fun m ys _ seen => by simpa [seen_flatMap] using seen

theorem traced_bundleNeutral {xs : List Operand} (seen : Seen (K.upTo n) (operandOccurrences xs)) :
    Traced K n (bundleNeutral xs) operandOccurrences := by
  refine (traced_mapM fun x _ _ _ => traced_zeroOperand x).bind fun m zeros le drawn => ?_
  refine draws_pure ((seen_operands _).mpr fun y mem => ?_)
  obtain ⟨⟨x, zero⟩, paired, isPart⟩ := List.mem_flatMap.mp mem
  obtain ⟨inXs, inZeros⟩ := List.of_mem_zip paired
  rcases List.mem_cons.mp isPart with rfl | isPart
  · exact ((seen_operands xs).mp seen y inXs).later le
  · obtain rfl := List.mem_singleton.mp isPart
    exact (seen_flatMap ..).mp drawn y inZeros

/-- The occurrences of loop parameters with their initial values. -/
def mergeNames (merge : List (Param × Operand)) : Occurrences :=
  merge.flatMap fun m => m.1.occurrences ++ m.2.occurrences

/-- The occurrences of loop arrays with the names of their rows. -/
def rowNames (rows : List (Param × Name)) : Occurrences :=
  rows.flatMap fun a => a.1.occurrences ++ [.reads a.2]

theorem traced_bundleMerge {merge : List (Param × Operand)}
    (seen : Seen (K.upTo n) (mergeNames merge)) :
    Traced K n (bundleMerge merge) mergeNames := by
  refine traced_bundled fun p mem m le => ?_
  obtain ⟨binder, init⟩ := (seen_append ..).mp (((seen_flatMap ..).mp seen p mem).later le)
  have typed := ((seen_cons ..).mp binder).2
  refine (draws_build (Build.draws_declare typed _)).bind fun k _ le' _ => ?_
  have binder := binder.later le'
  have init := init.later le'
  by_cases acc : p.1.ty.isAcc = true
  · simp only [acc, if_true]
    refine (traced_newTangent binder).bind fun j tan le'' drawn => draws_pure ?_
    simpa using ⟨drawn, init.later le''⟩
  · simp only [acc, if_false, Bool.false_eq_true]
    refine (traced_tangent p.2).bind fun j start le'' drawn => ?_
    refine (traced_newTangent (binder.later le'')).bind fun i tan le₃ tanSeen => draws_pure ?_
    have start := drawn.later le₃
    have binder := binder.later (Nat.le_trans le'' le₃)
    have init := init.later (Nat.le_trans le'' le₃)
    simp [start, binder, init, tanSeen]

theorem traced_bundleRows {rows : List (Param × Name)} (seen : Seen (K.upTo n) (rowNames rows)) :
    Traced K n (bundleRows rows) rowNames := by
  refine traced_bundled fun a mem m le => ?_
  obtain ⟨binder, source⟩ := (seen_append ..).mp (((seen_flatMap ..).mp seen a mem).later le)
  have typed := ((seen_cons ..).mp binder).2
  refine (draws_build (Build.draws_declare typed _)).bind fun k _ le' _ => ?_
  refine (traced_companion a.2).bind fun j c le'' drawn => ?_
  have binder := binder.later (Nat.le_trans le' le'')
  refine (traced_newTangent binder).bind fun i tan le₃ tanSeen => draws_pure ?_
  have source := source.later (Nat.le_trans le' (Nat.le_trans le'' le₃))
  have binder := binder.later le₃
  have drawn := drawn.later le₃
  simp only [List.flatMap_cons, List.flatMap_nil, List.append_nil, seen_append]
  exact ⟨⟨binder, source⟩, tanSeen, drawn⟩

/-! Statements without bodies. -/

/-- The expression may be computed at any time from `n` on. -/
def Deferred (K : Origin) (n : Nat) (e : Build Exp) : Prop :=
  ∀ m, n ≤ m → Build.Traced K m e Exp.occurrences

theorem deferred_pure {e : Exp} (seen : Seen (K.upTo n) e.occurrences) : Deferred K n (pure e) :=
  fun _ le => Build.draws_pure (seen.later le)

theorem deferred_expOf {f : Formula} (known : ∀ x ∈ f.names, K.upTo n x) :
    Deferred K n (Build.expOf f) :=
  fun _ le => Build.traced_expOf f fun x mem => K.upTo_later (known x mem) le

theorem draws_tangentExp {rules : Rules} (localRules : rules.Local) (s : Stm) {op : BasicOp}
    (seen : Seen (K.upTo n) op.occurrences) :
    Draws K n (tangentExp rules s op) fun m e => Deferred K m e := by
  -- most operations are applied to the tangent of the one array that they read
  have onArray {array : Name} (op : Name → BasicOp)
      (reads : ∀ m c, n ≤ m → K.upTo m c → Seen (K.upTo m) (op c).occurrences) :
      Draws K n (do return pure (.basic (op (← companion array))) : Diff (Build Exp))
        fun m e => Deferred K m e :=
    (traced_companion array).bind fun m c le drawn =>
      draws_pure (deferred_pure (reads m c le ((seen_cons ..).mp drawn).1))
  cases op with
  | operand x =>
    exact (traced_tangent x).bind fun m y le drawn => draws_pure (deferred_pure drawn)
  | arrayLit elems ty =>
    obtain ⟨-, typed⟩ := (seen_append ..).mp seen
    refine (traced_tangents elems).bind fun m ys le drawn => draws_pure (deferred_pure ?_)
    exact (seen_append ..).mpr ⟨drawn, typed.later le⟩
  | unary op x =>
    refine (traced_tangent x).bind fun m dx le drawn => draws_pure (deferred_expOf ?_)
    rw [names_mul, List.forall_mem_append]
    refine ⟨names_of_seen drawn op.ty, fun y mem => ?_⟩
    exact names_of_seen (seen.later le) op.ty y (localRules.unary op _ y mem)
  | binary op x y =>
    obtain ⟨left, right⟩ := (seen_append ..).mp seen
    refine (traced_tangent x).bind fun m dx le drawnLeft => ?_
    refine (traced_tangent y).bind fun k dy le' drawnRight => draws_pure (deferred_expOf ?_)
    have known := List.forall_mem_append.mpr
      ⟨names_of_seen (left.later (Nat.le_trans le le')) op.ty,
        names_of_seen (right.later (Nat.le_trans le le')) op.ty⟩
    obtain ⟨inLeft, inRight⟩ := List.forall_mem_append.mp fun z mem =>
      known z (localRules.binary op _ _ z mem)
    simp only [Formula.add, Formula.names, names_mul, List.forall_mem_append]
    exact ⟨⟨names_of_seen (drawnLeft.later le') op.ty, inLeft⟩, names_of_seen drawnRight op.ty, inRight⟩
  | convert op x =>
    exact (traced_tangent x).bind fun m y le drawn => draws_pure (deferred_pure drawn)
  | index array slice =>
    obtain ⟨-, positions⟩ := (seen_cons ..).mp seen
    exact onArray (.index · slice) fun m c le known => (seen_cons ..).mpr ⟨known, positions.later le⟩
  | update array slice value =>
    obtain ⟨-, rest⟩ := (seen_cons ..).mp seen
    obtain ⟨positions, -⟩ := (seen_append ..).mp rest
    refine (traced_companion array).bind fun m c le drawn => ?_
    refine (traced_tangent value).bind fun k v le' drawnValue => draws_pure (deferred_pure ?_)
    have known := ((seen_cons ..).mp drawn).1
    exact (seen_cons ..).mpr ⟨K.upTo_later known le',
      (seen_append ..).mpr ⟨positions.later (Nat.le_trans le le'), drawnValue⟩⟩
  | concat dim first rest width =>
    obtain ⟨-, width⟩ := (seen_append ..).mp seen
    refine (traced_companion first).bind fun m c le drawn => ?_
    refine (traced_companions rest).bind fun k cs le' drawnRest => draws_pure (deferred_pure ?_)
    have known := ((seen_cons ..).mp drawn).1
    exact (seen_append ..).mpr ⟨(seen_cons ..).mpr ⟨K.upTo_later known le', drawnRest⟩,
      width.later (Nat.le_trans le le')⟩
  | copy array => exact onArray .copy fun m c le known => (seen_cons ..).mpr ⟨known, seen_nil⟩
  | manifest perm array =>
    exact onArray (.manifest perm) fun m c le known => (seen_cons ..).mpr ⟨known, seen_nil⟩
  | reshape shape array =>
    obtain ⟨shape', -⟩ := (seen_append ..).mp seen
    exact onArray (.reshape shape) fun m c le known =>
      (seen_append ..).mpr ⟨shape'.later le, (seen_cons ..).mpr ⟨known, seen_nil⟩⟩
  | rearrange perm array =>
    exact onArray (.rearrange perm) fun m c le known => (seen_cons ..).mpr ⟨known, seen_nil⟩
  | rotate offsets array =>
    obtain ⟨offsets', -⟩ := (seen_append ..).mp seen
    exact onArray (.rotate offsets) fun m c le known =>
      (seen_append ..).mpr ⟨offsets'.later le, (seen_cons ..).mpr ⟨known, seen_nil⟩⟩
  | iota count start step w =>
    obtain ⟨counted, -⟩ := (seen_append ..).mp seen
    refine draws_pure (deferred_pure ((seen_append ..).mpr ⟨?_, seen_nil⟩))
    exact (seen_append ..).mpr ⟨counted, seen_nil⟩
  | replicate shape value =>
    obtain ⟨shape', -⟩ := (seen_append ..).mp seen
    refine (traced_tangent value).bind fun m v le drawn => draws_pure (deferred_pure ?_)
    exact (seen_append ..).mpr ⟨shape'.later le, drawn⟩
  | compare op x y => exact draws_throw _
  | scratch elem shape => exact draws_throw _
  | assert cond message => exact draws_throw _
  | updateAcc acc position values => exact draws_throw _

/-- A statement is emitted whose parts are all known by then. -/
theorem keeps_emit {s : Stm} {pat : List Param} {e : Exp} (source : Seen K.old s.occurrences)
    (pattern : Seen (K.upTo n) (paramOccurrences pat)) (seen : Seen (K.upTo n) e.occurrences) :
    Keeps K n (build (Build.add ⟨pat, s.aux, e⟩)) := by
  have certs : ∀ x ∈ s.aux.certs, K.upTo n x := fun x mem => Or.inl (((seen_stm s).mp source).1 x mem)
  exact draws_build (Build.draws_add ((seen_stm _).mpr ⟨certs, seen, pattern⟩))

theorem traced_newTangentOf {s : Stm} (source : Seen K.old s.occurrences) {p : Param}
    (mem : p ∈ s.pat) : Traced K n (newTangent p) Param.occurrences := by
  obtain ⟨-, -, pattern⟩ := (seen_stm s).mp source
  exact traced_newTangent (((seen_params _).mp pattern p mem).ofSource n)

theorem keeps_basicOp {rules : Rules} (localRules : rules.Local) {s : Stm} {op : BasicOp}
    (source : Seen K.old s.occurrences) (seen : Seen K.old op.occurrences) :
    Keeps K n (basicOp rules s op) := by
  refine (draws_build (Build.draws_add (source.ofSource n))).bind fun m _ le _ => ?_
  by_cases constant : isConstant op = true
  · simp only [constant, Bool.not_true, Bool.false_eq_true, if_false]
    exact draws_pure trivial
  · simp only [constant, Bool.not_false, if_true]
    refine (draws_single .forward s).bind fun k p le' mem => ?_
    refine (draws_tangentExp localRules s (seen.ofSource k)).bind fun j e le'' deferred => ?_
    refine (traced_newTangentOf source mem).bind fun i tan le₃ drawn => draws_build ?_
    refine (deferred i le₃).bind fun h e le₄ inside => Build.draws_add ((seen_stm _).mpr ?_)
    have pattern : Seen (K.upTo h) (paramOccurrences [tan]) := by
      simpa [seen_params] using drawn.later le₄
    exact ⟨fun x mem => Or.inl (((seen_stm s).mp source).1 x mem), inside, pattern⟩

theorem keeps_updateAcc {s : Stm} {acc : Name} {position values : List Operand}
    (source : Seen K.old s.occurrences)
    (seen : Seen K.old (BasicOp.updateAcc acc position values).occurrences) :
    Keeps K n (updateAcc s acc position values) := by
  obtain ⟨-, operands⟩ := (seen_cons ..).mp seen
  obtain ⟨position', values'⟩ := (seen_append ..).mp operands
  obtain ⟨-, -, pattern⟩ := (seen_stm s).mp source
  refine (traced_bundleBinders (pattern.ofSource n)).bind fun m pat le drawnPat => ?_
  refine (traced_tangents values).bind fun k tans le' drawnTans => ?_
  refine (traced_companion acc).bind fun j c le'' drawn => ?_
  refine keeps_emit source (drawnPat.later (Nat.le_trans le' le'')) ?_
  have written : Seen (K.upTo j) (operandOccurrences (values ++ tans)) := by
    rw [seen_operands, List.forall_mem_append, ← seen_operands, ← seen_operands]
    exact ⟨values'.ofSource j, drawnTans.later le''⟩
  exact (seen_cons ..).mpr ⟨((seen_cons ..).mp drawn).1,
    (seen_append ..).mpr ⟨position'.ofSource j, written⟩⟩

theorem keeps_apply {rules : Rules} (localRules : rules.Local) {s : Stm} {func : String}
    {args : List Operand} (source : Seen K.old s.occurrences)
    (seen : Seen K.old (operandOccurrences args)) : Keeps K n (apply rules s func args) := by
  refine (keeps_signature rules func).bind fun m sig le _ => ?_
  refine (draws_single .forward s).bind fun k p le' mem => ?_
  refine (draws_build (Build.draws_add (source.ofSource k))).bind fun j _ le'' _ => ?_
  refine (draws_partials localRules func sig.1 (seen.ofSource j)).bind fun i ds le₃ known => ?_
  have term (a : (ScalarType × Operand) × Formula) (inZip : a ∈ (sig.1.zip args).zip ds) (h : Nat)
      (le₄ : i ≤ h) : Traced K h (do
        return (Formula.ofOperand a.1.1 (← tangent a.1.2)).mul a.2 : Diff Formula)
        fun f => nameOccurrences f.names := by
    refine (traced_tangent a.1.2).bind fun g y le₅ drawn => draws_pure ?_
    have inPartials := (List.of_mem_zip (show (a.1, a.2) ∈ _ from inZip)).2
    rw [seen_names, names_mul, List.forall_mem_append]
    refine ⟨names_of_seen drawn _, fun x inF => ?_⟩
    exact K.upTo_later (known x ((mem_formulaNames ..).mpr ⟨a.2, inPartials, inF⟩)) (by omega)
  refine (traced_mapM term).bind fun h fs le₄ terms => ?_
  have known : ∀ x ∈ formulaNames fs, K.upTo h x := by
    intro x mem
    obtain ⟨f, isTerm, inF⟩ := (mem_formulaNames ..).mp mem
    exact (seen_names _).mp ((seen_flatMap ..).mp terms f isTerm) x inF
  refine (traced_newTangentOf source mem).bind fun g tan le₅ drawn => draws_build ?_
  refine Build.draws_bindFormula drawn (fun x mem => Or.inl (((seen_stm s).mp source).1 x mem)) ?_
  intro x mem
  cases fs with
  | nil => simp [Formula.zero, Formula.names] at mem
  | cons f fs =>
    rw [names_foldl_add] at mem
    exact K.upTo_later (known x mem) le₅

/-! Lambdas, over a transformation of their statements. -/

/-- The parameters are declared in a scope of their own. -/
theorem traced_scoped {params : List Param} {act : Diff Lambda}
    (binders : Seen K.old (paramOccurrences params))
    (rest : ∀ m, n ≤ m → Traced K m act Lambda.occurrences) :
    Traced K n (within do
      build (Build.declareParams params)
      act) Lambda.occurrences :=
  Draws.within ((draws_build (Build.draws_declareParams (binders.ofSource n))).bind
    fun m _ le _ => rest m le)

theorem traced_lambdaOf {params : List Param} {ret : List Ty} {body : Diff Body}
    (binders : Seen K.old (paramOccurrences params)) (types : Seen K.old (typeOccurrences ret))
    (inside : ∀ m, Traced K m body Body.occurrences) :
    Traced K n (lambdaOf params ret body) Lambda.occurrences := by
  refine traced_scoped binders fun m le => ?_
  refine (traced_bundleBinders (binders.ofSource m)).bind fun k ps le' drawn => ?_
  refine (inside k).bind fun j b le'' seen => draws_pure ?_
  exact (seen_lambda _).mpr ⟨drawn.later le'', seen, seen_bundledTypes (types.ofSource j)⟩

theorem traced_streamLambda {s : Stm} {params : List Param} {ret : List Ty} {body : Diff Body}
    (binders : Seen K.old (paramOccurrences params)) (types : Seen K.old (typeOccurrences ret))
    (inside : ∀ m, Traced K m body Body.occurrences) :
    Traced K n (streamLambda s params ret body) Lambda.occurrences := by
  cases params with
  | nil => exact draws_throw _
  | cons chunk rest =>
    obtain ⟨first, others⟩ := (seen_append ..).mp binders
    rw [streamLambda]
    refine traced_scoped binders fun m le => ?_
    refine (traced_bundleBinders (others.ofSource m)).bind fun k ps le' drawn => ?_
    refine (inside k).bind fun j b le'' seen => draws_pure ?_
    exact (seen_lambda _).mpr ⟨(seen_append ..).mpr ⟨first.ofSource j, drawn.later le''⟩, seen,
      seen_bundledTypes (types.ofSource j)⟩

theorem seen_take_drop {xs : List Operand} (seen : Seen on (operandOccurrences xs)) (k : Nat) :
    Seen on (operandOccurrences (xs.take k)) ∧ Seen on (operandOccurrences (xs.drop k)) := by
  rw [← seen_append, operandOccurrences, operandOccurrences, ← List.flatMap_append,
    List.take_append_drop]
  exact seen

theorem seen_types_take_drop {ts : List Ty} (seen : Seen on (typeOccurrences ts)) (k : Nat) :
    Seen on (typeOccurrences (ts.take k)) ∧ Seen on (typeOccurrences (ts.drop k)) := by
  simp only [seen_types, ← List.forall_mem_append, List.take_append_drop] at seen ⊢
  exact seen

theorem traced_bucketLambda {indices : Nat} {params : List Param} {stms : Diff Unit}
    {result : List Operand} {ret : List Ty} (binders : Seen K.old (paramOccurrences params))
    (results : Seen K.old (operandOccurrences result)) (types : Seen K.old (typeOccurrences ret))
    (inside : ∀ m, Keeps K m stms) :
    Traced K n (bucketLambda indices params stms result ret) Lambda.occurrences := by
  obtain ⟨first, values⟩ := seen_take_drop results indices
  obtain ⟨firstTypes, valueTypes⟩ := seen_types_take_drop types indices
  refine traced_scoped binders fun m le => ?_
  refine (traced_bundleBinders (binders.ofSource m)).bind fun k ps le' drawn => ?_
  refine (traced_bodyOf (inside k) fun i _ => ?_).bind fun j b le'' seen => draws_pure ?_
  · refine (traced_bundleOperands (values.ofSource i)).bind fun h xs le₃ bundled => draws_pure ?_
    rw [operandOccurrences, List.flatMap_append]
    exact (seen_append ..).mpr ⟨first.ofSource h, bundled⟩
  · refine (seen_lambda _).mpr ⟨drawn.later le'', seen, ?_⟩
    rw [seen_types, List.forall_mem_append, ← seen_types, ← seen_types]
    exact ⟨firstTypes.ofSource j, seen_bundledTypes (valueTypes.ofSource j)⟩

theorem traced_scatterLambda {indices : Nat} {params : List Param} {stms : Diff Unit}
    {result : List Operand} {ret : List Ty} (binders : Seen K.old (paramOccurrences params))
    (results : Seen K.old (operandOccurrences result)) (types : Seen K.old (typeOccurrences ret))
    (inside : ∀ m, Keeps K m stms) :
    Traced K n (scatterLambda indices params stms result ret) Lambda.occurrences := by
  obtain ⟨first, values⟩ := seen_take_drop results indices
  obtain ⟨firstTypes, valueTypes⟩ := seen_types_take_drop types indices
  refine traced_scoped binders fun m le => ?_
  refine (traced_bundleBinders (binders.ofSource m)).bind fun k ps le' drawn => ?_
  refine (traced_bodyOf (inside k) fun i _ => ?_).bind fun j b le'' seen => draws_pure ?_
  · refine (traced_tangents _).bind fun h tans le₃ tangents => draws_pure ?_
    simp only [operandOccurrences, List.flatMap_append, seen_append]
    exact ⟨⟨⟨first.ofSource h, first.ofSource h⟩, values.ofSource h⟩, tangents⟩
  · refine (seen_lambda _).mpr ⟨drawn.later le'', seen, ?_⟩
    simp only [seen_types, List.forall_mem_append] at firstTypes valueTypes ⊢
    have early (t) (mem) := (firstTypes t mem).ofSource (K := K) j
    have late (t) (mem) := (valueTypes t mem).ofSource (K := K) j
    exact ⟨⟨⟨early, early⟩, late⟩, late⟩

theorem traced_newTangents {ps : List Param} (seen : Seen (K.upTo n) (paramOccurrences ps)) :
    Traced K n (ps.mapM newTangent) paramOccurrences :=
  traced_mapM fun p mem _ le => traced_newTangent (((seen_params ps).mp seen p mem).later le)

theorem traced_accOperator {s : Stm} {rank : Nat} {params : List Param} {stms : Diff Unit}
    {result : List Operand} {ret : List Ty} (binders : Seen K.old (paramOccurrences params))
    (results : Seen K.old (operandOccurrences result)) (types : Seen K.old (typeOccurrences ret))
    (inside : ∀ m, Keeps K m stms) :
    Traced K n (accOperator s rank params stms result ret) Lambda.occurrences := by
  unfold accOperator
  split
  · exact draws_throw _
  · refine traced_scoped binders fun m le => ?_
    have part {ps : List Param} (sub : ps ⊆ params) : Seen K.old (paramOccurrences ps) :=
      (seen_params ps).mpr fun p mem => (seen_params params).mp binders p (sub mem)
    have positions := part (List.take_subset rank params)
    let half := (params.drop rank).length / 2
    have olds := part (List.Subset.trans (List.take_subset half _) (List.drop_subset rank params))
    have news := part (List.Subset.trans (List.drop_subset half _) (List.drop_subset rank params))
    refine (traced_newTangents (olds.ofSource m)).bind fun k oldTans le' drawnOld => ?_
    refine (traced_newTangents (news.ofSource k)).bind fun j newTans le'' drawnNew => ?_
    refine (traced_bodyOf (inside j) fun i _ => ?_).bind fun h b le₃ seen => draws_pure ?_
    · refine (traced_tangents _).bind fun g tans le₄ tangents => draws_pure ?_
      rw [operandOccurrences, List.flatMap_append]
      exact (seen_append ..).mpr ⟨results.ofSource g, tangents⟩
    · have doubled := seen_tangentTypes ret (types.ofSource h)
      refine (seen_lambda _).mpr ⟨?_, seen, ?_⟩
      · simp only [paramOccurrences, List.flatMap_append, seen_append]
        exact ⟨⟨⟨⟨positions.ofSource h, olds.ofSource h⟩, drawnOld.later (Nat.le_trans le'' le₃)⟩,
          news.ofSource h⟩, drawnNew.later le₃⟩
      · rw [seen_types, List.forall_mem_append, ← seen_types]
        exact ⟨doubled, doubled⟩

/-! Statements with bodies. -/

theorem keeps_branch {s : Stm} {cond : Operand} {yes no : Diff Body} {ret : List Ty}
    {sort : BranchSort} (source : Seen K.old s.occurrences) (condition : Seen K.old cond.occurrences)
    (types : Seen K.old (typeOccurrences ret)) (insideYes : ∀ m, Traced K m yes Body.occurrences)
    (insideNo : ∀ m, Traced K m no Body.occurrences) :
    Keeps K n (branch s cond yes no ret sort) := by
  obtain ⟨-, -, pattern⟩ := (seen_stm s).mp source
  refine (Draws.within (insideYes n)).bind fun m yes le seenYes => ?_
  refine (Draws.within (insideNo m)).bind fun k no le' seenNo => ?_
  refine (traced_bundleBinders (pattern.ofSource k)).bind fun j pat le'' drawn => ?_
  refine keeps_emit source drawn ?_
  simp only [Exp.occurrences, seen_append]
  exact ⟨⟨⟨condition.ofSource j, seenYes.later (Nat.le_trans le' le'')⟩, seenNo.later le''⟩,
    seen_bundledTypes (types.ofSource j)⟩

/-- The occurrences of a loop form. -/
def formNames : LoopForm → Occurrences
  | .whileHolds cond => [.reads cond]
  | .forBelow counter _ bound rows => .binds counter :: (bound.occurrences ++ rowNames rows)

theorem seen_merge (merge : List (Param × Operand)) : Seen on (mergeNames merge) ↔
    Seen on (operandOccurrences (merge.map (·.2))) ∧
      Seen on (paramOccurrences (merge.map (·.1))) := by
  simp only [mergeNames, seen_operands, seen_params, List.forall_mem_map, seen_flatMap, seen_append]
  constructor
  · exact fun all => ⟨fun m mem => (all m mem).2, fun m mem => (all m mem).1⟩
  · exact fun both m mem => ⟨both.2 m mem, both.1 m mem⟩

theorem seen_rows (rows : List (Param × Name)) : Seen on (rowNames rows) ↔
    Seen on (nameOccurrences (rows.map (·.2))) ∧ Seen on (paramOccurrences (rows.map (·.1))) := by
  simp only [rowNames, seen_names, seen_params, List.forall_mem_map, seen_flatMap, seen_append,
    seen_cons, seen_nil, and_true]
  constructor
  · exact fun all => ⟨fun a mem => (all a mem).2, fun a mem => (all a mem).1⟩
  · exact fun both a mem => ⟨both.2 a mem, both.1 a mem⟩

theorem seen_loop (merge : List (Param × Operand)) (form : LoopForm) (os : Occurrences) :
    Seen on (loopOccurrences merge form os) ↔
      Seen on (mergeNames merge) ∧ Seen on (formNames form) ∧ Seen on os := by
  cases form with
  | whileHolds cond =>
    simp only [loopOccurrences, formNames, seen_merge, seen_append, seen_cons, seen_nil, and_true]
    grind
  | forBelow counter w bound rows =>
    simp only [loopOccurrences, formNames, seen_merge, seen_rows, seen_append, seen_cons]
    grind

theorem keeps_loop {s : Stm} {merge : List (Param × Operand)} {form : LoopForm} {body : Diff Body}
    {os : Occurrences} (source : Seen K.old s.occurrences)
    (seen : Seen K.old (loopOccurrences merge form os))
    (inside : ∀ m, Traced K m body Body.occurrences) : Keeps K n (loop s merge form body) := by
  obtain ⟨seenMerge, seenForm, -⟩ := (seen_loop ..).mp seen
  obtain ⟨-, -, pattern⟩ := (seen_stm s).mp source
  refine (traced_bundleMerge (seenMerge.ofSource n)).bind fun m merge le drawnMerge => ?_
  -- what follows once the form is bundled
  have emit (k : Nat) (le' : m ≤ k) (form : LoopForm) (drawn : Seen (K.upTo k) (formNames form)) :
      Keeps K k (do
        let pat ← bundleBinders s.pat
        let body ← within body
        build (Build.add ⟨pat, s.aux, .loop merge form body⟩)) := by
    refine (traced_bundleBinders (pattern.ofSource k)).bind fun j pat le'' drawnPat => ?_
    refine (Draws.within (inside j)).bind fun i b le₃ seenBody => ?_
    refine keeps_emit source (drawnPat.later le₃) ((seen_loop ..).mpr ⟨?_, ?_, seenBody⟩)
    · exact drawnMerge.later (by omega)
    · exact drawn.later (by omega)
  cases form with
  | whileHolds cond => exact emit m (Nat.le_refl m) _ (seenForm.ofSource m)
  | forBelow counter w bound rows =>
    obtain ⟨binder, rest⟩ := (seen_cons ..).mp seenForm
    obtain ⟨limit, rowsSeen⟩ := (seen_append ..).mp rest
    refine (traced_bundleRows (rowsSeen.ofSource m)).bind fun k rows le' drawn => ?_
    refine (draws_build (Build.draws_declare (by simp [Ty.occurrences]) counter)).bind
      fun j _ le'' _ => emit j (Nat.le_trans le' le'') _ ?_
    exact (seen_cons ..).mpr ⟨Or.inl binder,
      (seen_append ..).mpr ⟨limit.ofSource j, drawn.later le''⟩⟩

theorem traced_regionPattern (inputs : List AccInput) {pat : List Param} {n : Nat}
    (seen : Seen (K.upTo n) (paramOccurrences pat)) :
    Traced K n (regionPattern inputs pat) paramOccurrences := by
  induction inputs generalizing pat n with
  | nil => exact traced_bundleBinders seen
  | cons input inputs ih =>
    simp only [seen_params] at seen
    have group : Seen (K.upTo n) (paramOccurrences (pat.take input.arrays.length)) :=
      (seen_params _).mpr fun p mem => seen p (List.mem_of_mem_take mem)
    have others : Seen (K.upTo n) (paramOccurrences (pat.drop input.arrays.length)) :=
      (seen_params _).mpr fun p mem => seen p (List.mem_of_mem_drop mem)
    refine (traced_newTangents group).bind fun m tans le drawn => ?_
    refine (ih (others.later le)).bind fun k rest le' seenRest => draws_pure ?_
    simp only [paramOccurrences, List.flatMap_append, seen_append]
    exact ⟨⟨group.later (Nat.le_trans le le'), drawn.later le'⟩, seenRest⟩

theorem traced_accArrays {arrays : List Name} (known : ∀ x ∈ arrays, K.upTo n x) :
    Traced K n (accArrays arrays) nameOccurrences := by
  refine (traced_companions arrays).bind fun m tans le drawn => draws_pure ?_
  rw [seen_names] at drawn ⊢
  exact List.forall_mem_append.mpr ⟨fun x mem => K.upTo_later (known x mem) le, drawn⟩

theorem keeps_withAcc {s : Stm} {inputs : List AccInput} {bundledInputs : Diff (List AccInput)}
    {lam : Diff Lambda} (source : Seen K.old s.occurrences)
    (insideInputs : ∀ m, Traced K m bundledInputs accInputOccurrences)
    (inside : ∀ m, Traced K m lam Lambda.occurrences) :
    Keeps K n (withAcc s inputs bundledInputs lam) := by
  obtain ⟨-, -, pattern⟩ := (seen_stm s).mp source
  by_cases short : s.pat.length < total (inputs.map (·.arrays.length))
  · simp only [withAcc, short, if_true]
    exact draws_throw _
  · simp only [withAcc, short, if_false]
    refine (insideInputs n).bind fun m inputs' le seenInputs => ?_
    refine (traced_regionPattern inputs (pattern.ofSource m)).bind fun k pat le' drawn => ?_
    refine (inside k).bind fun j lam le'' seen => keeps_emit source (drawn.later le'') ?_
    exact (seen_append ..).mpr ⟨seenInputs.later (Nat.le_trans le' le''), seen⟩

theorem keeps_screma {s : Stm} {width : Operand} {arrays : List Name} {scans : Diff (List Combiner)}
    {reduces : Diff (List Reduction)} {map : Diff Lambda} (source : Seen K.old s.occurrences)
    (seenWidth : Seen K.old width.occurrences) (known : ∀ x ∈ arrays, K.old x)
    (insideScans : ∀ m, Traced K m scans combinerOccurrences)
    (insideReduces : ∀ m, Traced K m reduces reductionOccurrences)
    (inside : ∀ m, Traced K m map Lambda.occurrences) :
    Keeps K n (screma s width arrays scans reduces map) := by
  obtain ⟨-, -, pattern⟩ := (seen_stm s).mp source
  refine (traced_bundleBinders (pattern.ofSource n)).bind fun m pat le drawn => ?_
  refine (traced_bundleNames fun x mem => Or.inl (known x mem)).bind fun k xs le' seenArrays => ?_
  refine (insideScans k).bind fun j scans le'' seenScans => ?_
  refine (insideReduces j).bind fun i reduces le₃ seenReduces => ?_
  refine (inside i).bind fun h lam le₄ seen => keeps_emit source (drawn.later (by omega)) ?_
  simp only [Exp.occurrences, seen_append]
  exact ⟨⟨⟨⟨seenWidth.ofSource h, seenArrays.later (by omega)⟩, seenScans.later (by omega)⟩,
    seenReduces.later le₄⟩, seen⟩

theorem keeps_stream {s : Stm} {width : Operand} {arrays : List Name} {form : Diff StreamForm}
    {inits : List Operand} {lam : Diff Lambda} (source : Seen K.old s.occurrences)
    (seenWidth : Seen K.old width.occurrences) (known : ∀ x ∈ arrays, K.old x)
    (seenInits : Seen K.old (operandOccurrences inits))
    (insideForm : ∀ m, Traced K m form StreamForm.occurrences)
    (inside : ∀ m, Traced K m lam Lambda.occurrences) :
    Keeps K n (stream s width arrays form inits lam) := by
  obtain ⟨-, -, pattern⟩ := (seen_stm s).mp source
  refine (traced_bundleBinders (pattern.ofSource n)).bind fun m pat le drawn => ?_
  refine (inside m).bind fun k lam le' seen => ?_
  refine (traced_bundleNames fun x mem => Or.inl (known x mem)).bind fun j xs le'' seenArrays => ?_
  refine (traced_bundleNeutral (seenInits.ofSource j)).bind fun i zeros le₃ seenZeros => ?_
  refine (insideForm i).bind fun h form le₄ seenForm => keeps_emit source (drawn.later (by omega)) ?_
  simp only [Exp.occurrences, seen_append]
  exact ⟨⟨⟨⟨seenWidth.ofSource h, seenArrays.later (by omega)⟩, seenZeros.later le₄⟩, seenForm⟩,
    seen.later (by omega)⟩

theorem keeps_hist {s : Stm} {width : Operand} {ops : Diff (List Histogram)} {bucket : Diff Lambda}
    {arrays : List Name} (source : Seen K.old s.occurrences)
    (seenWidth : Seen K.old width.occurrences) (known : ∀ x ∈ arrays, K.old x)
    (insideOps : ∀ m, Traced K m ops histogramOccurrences)
    (inside : ∀ m, Traced K m bucket Lambda.occurrences) :
    Keeps K n (hist s width ops bucket arrays) := by
  obtain ⟨-, -, pattern⟩ := (seen_stm s).mp source
  refine (traced_bundleBinders (pattern.ofSource n)).bind fun m pat le drawn => ?_
  refine (insideOps m).bind fun k ops le' seenOps => ?_
  refine (inside k).bind fun j lam le'' seen => ?_
  refine (traced_bundleNames fun x mem => Or.inl (known x mem)).bind fun i xs le₃ seenArrays => ?_
  refine keeps_emit source (drawn.later (by omega)) ?_
  simp only [Exp.occurrences, seen_append]
  exact ⟨⟨⟨seenWidth.ofSource i, seenOps.later (by omega)⟩, seen.later le₃⟩, seenArrays⟩

theorem keeps_scatter {s : Stm} {width : Operand} {lam : Diff Lambda} {arrays : List Name}
    {dests : List ScatterDest} (source : Seen K.old s.occurrences)
    (seenWidth : Seen K.old width.occurrences) (known : ∀ x ∈ arrays, K.old x)
    (seenDests : Seen K.old (dests.flatMap ScatterDest.occurrences))
    (inside : ∀ m, Traced K m lam Lambda.occurrences) :
    Keeps K n (scatter s width lam arrays dests) := by
  obtain ⟨-, -, pattern⟩ := (seen_stm s).mp source
  have tangentDest (d : ScatterDest) (mem : d ∈ dests) (m : Nat) (le : n ≤ m) : Traced K m (do
      return { d with array := ← companion d.array } : Diff ScatterDest) ScatterDest.occurrences := by
    refine (traced_companion d.array).bind fun k c le' drawn => draws_pure ?_
    obtain ⟨shape, -⟩ := (seen_append ..).mp ((seen_flatMap ..).mp seenDests d mem)
    exact (seen_append ..).mpr ⟨shape.ofSource k, drawn⟩
  refine (traced_mapM tangentDest).bind fun m destTans le drawnDests => ?_
  refine (traced_newTangents (pattern.ofSource m)).bind fun k tans le' drawn => ?_
  refine (traced_bundleNames fun x mem => Or.inl (known x mem)).bind fun j xs le'' seenArrays => ?_
  refine (inside j).bind fun i lam le₃ seen => keeps_emit source ?_ ?_
  · rw [paramOccurrences, List.flatMap_append]
    exact (seen_append ..).mpr ⟨pattern.ofSource i, drawn.later (by omega)⟩
  · simp only [Exp.occurrences, List.flatMap_append, seen_append]
    exact ⟨⟨⟨seenWidth.ofSource i, seen⟩, seenArrays.later le₃⟩, seenDests.ofSource i,
      drawnDests.later (by omega)⟩

/-! Programs. -/

variable {rules : Rules}

mutual

theorem keeps_stm (localRules : rules.Local) (s : Stm) (n : Nat) (source : Seen K.old s.occurrences) :
    Keeps K n (stm rules s) := by
  obtain ⟨pat, aux, e⟩ := s
  obtain ⟨-, seen, -⟩ := (seen_stm _).mp source
  cases e with
  | basic op =>
    cases op with
    | updateAcc acc position values => exact keeps_updateAcc source seen
    | _ => exact keeps_basicOp localRules source seen
  | apply func args ret => exact keeps_apply localRules source ((seen_append ..).mp seen).1
  | branch cond yes no ret sort =>
    simp only [Exp.occurrences, seen_append] at seen
    obtain ⟨⟨⟨condition, inYes⟩, inNo⟩, types⟩ := seen
    exact keeps_branch source condition types (fun m => traced_body localRules yes m inYes)
      fun m => traced_body localRules no m inNo
  | loop merge form b =>
    exact keeps_loop source seen fun m => traced_body localRules b m ((seen_loop ..).mp seen).2.2
  | withAcc inputs lam =>
    obtain ⟨inInputs, inLam⟩ := (seen_append ..).mp seen
    exact keeps_withAcc source (fun m => traced_accInputs localRules _ inputs m inInputs)
      fun m => traced_lambda localRules lam m inLam
  | screma width arrays scans reduces map =>
    simp only [Exp.occurrences, seen_append, seen_names] at seen
    obtain ⟨⟨⟨⟨inWidth, inArrays⟩, inScans⟩, inReduces⟩, inMap⟩ := seen
    exact keeps_screma source inWidth inArrays (fun m => traced_combiners localRules scans m inScans)
      (fun m => traced_reductions localRules reduces m inReduces)
      fun m => traced_lambda localRules map m inMap
  | stream width arrays form inits lam =>
    obtain ⟨ps, b, ret⟩ := lam
    simp only [Exp.occurrences, Lambda.occurrences, seen_append, seen_names] at seen
    obtain ⟨⟨⟨⟨inWidth, inArrays⟩, inInits⟩, inForm⟩, ⟨binders, inBody⟩, types⟩ := seen
    exact keeps_stream source inWidth inArrays inInits
      (fun m => traced_streamForm localRules form m inForm)
      fun m => traced_streamLambda binders types fun k => traced_body localRules b k inBody
  | hist width ops bucket arrays =>
    obtain ⟨ps, ⟨ss, result⟩, ret⟩ := bucket
    simp only [Exp.occurrences, Lambda.occurrences, Body.occurrences, seen_append, seen_names]
      at seen
    obtain ⟨⟨⟨inWidth, inOps⟩, ⟨binders, inStms, inResult⟩, types⟩, inArrays⟩ := seen
    exact keeps_hist source inWidth inArrays (fun m => traced_histograms localRules ops m inOps)
      fun m => traced_bucketLambda binders inResult types fun k => keeps_stms localRules ss k inStms
  | scatter width lam arrays dests =>
    obtain ⟨ps, ⟨ss, result⟩, ret⟩ := lam
    simp only [Exp.occurrences, Lambda.occurrences, Body.occurrences, seen_append, seen_names]
      at seen
    obtain ⟨⟨⟨inWidth, ⟨binders, inStms, inResult⟩, types⟩, inArrays⟩, inDests⟩ := seen
    exact keeps_scatter source inWidth inArrays inDests fun m =>
      traced_scatterLambda binders inResult types fun k => keeps_stms localRules ss k inStms

theorem keeps_stms (localRules : rules.Local) (ss : List Stm) (n : Nat)
    (source : Seen K.old (stmOccurrences ss)) :
    Keeps K n (stms rules ss) := by
  cases ss with
  | nil => exact draws_pure trivial
  | cons s ss =>
    obtain ⟨first, rest⟩ := (seen_append ..).mp source
    exact (keeps_stm localRules s n first).bind fun m _ le _ => keeps_stms localRules ss m rest

theorem traced_body (localRules : rules.Local) (b : Body) (n : Nat)
    (source : Seen K.old b.occurrences) :
    Traced K n (body rules b) Body.occurrences := by
  obtain ⟨ss, result⟩ := b
  obtain ⟨inStms, inResult⟩ := (seen_append ..).mp source
  exact traced_bodyOf (keeps_stms localRules ss n inStms) fun m le =>
    traced_bundleOperands (inResult.ofSource m)

theorem traced_lambda (localRules : rules.Local) (l : Lambda) (n : Nat)
    (source : Seen K.old l.occurrences) :
    Traced K n (lambda rules l) Lambda.occurrences := by
  obtain ⟨ps, b, ret⟩ := l
  obtain ⟨binders, inBody, types⟩ := (seen_lambda _).mp source
  exact traced_lambdaOf binders types fun m => traced_body localRules b m inBody

theorem traced_combiner (localRules : rules.Local) (c : Combiner) (n : Nat)
    (source : Seen K.old c.occurrences) :
    Traced K n (combiner rules c) Combiner.occurrences := by
  obtain ⟨op, neutral⟩ := c
  obtain ⟨inNeutral, inOp⟩ := (seen_append ..).mp source
  refine (traced_lambda localRules op n inOp).bind fun m op le seenOp => ?_
  refine (traced_bundleNeutral (inNeutral.ofSource m)).bind fun k zeros le' drawn => draws_pure ?_
  exact (seen_append ..).mpr ⟨drawn, seenOp.later le'⟩

theorem traced_combiners (localRules : rules.Local) (cs : List Combiner) (n : Nat)
    (source : Seen K.old (combinerOccurrences cs)) :
    Traced K n (combiners rules cs) combinerOccurrences := by
  cases cs with
  | nil => exact draws_pure seen_nil
  | cons c cs =>
    obtain ⟨first, rest⟩ := (seen_append ..).mp source
    refine (traced_combiner localRules c n first).bind fun m c le seen => ?_
    refine (traced_combiners localRules cs m rest).bind fun k cs le' seenRest => draws_pure ?_
    exact (seen_append ..).mpr ⟨seen.later le', seenRest⟩

theorem traced_reductions (localRules : rules.Local) (rs : List Reduction) (n : Nat)
    (source : Seen K.old (reductionOccurrences rs)) :
    Traced K n (reductions rules rs) reductionOccurrences := by
  cases rs with
  | nil => exact draws_pure seen_nil
  | cons r rs =>
    obtain ⟨commutative, c⟩ := r
    obtain ⟨first, rest⟩ := (seen_append ..).mp source
    refine (traced_combiner localRules c n first).bind fun m c le seen => ?_
    refine (traced_reductions localRules rs m rest).bind fun k rs le' seenRest => draws_pure ?_
    exact (seen_append ..).mpr ⟨seen.later le', seenRest⟩

theorem traced_streamForm (localRules : rules.Local) (form : StreamForm) (n : Nat)
    (source : Seen K.old form.occurrences) :
    Traced K n (streamForm rules form) StreamForm.occurrences := by
  cases form with
  | sequential => exact draws_pure seen_nil
  | parallel order commutative op =>
    exact (traced_lambda localRules op n source).bind fun m op le seen => draws_pure seen

theorem traced_histograms (localRules : rules.Local) (hs : List Histogram) (n : Nat)
    (source : Seen K.old (histogramOccurrences hs)) :
    Traced K n (histograms rules hs) histogramOccurrences := by
  cases hs with
  | nil => exact draws_pure seen_nil
  | cons h hs =>
    obtain ⟨shape, race, dests, ⟨op, neutral⟩⟩ := h
    simp only [histogramOccurrences, Combiner.occurrences, seen_append, seen_names] at source
    obtain ⟨⟨⟨⟨inShape, inRace⟩, inDests⟩, inNeutral, inOp⟩, rest⟩ := source
    refine (traced_bundleNames fun x mem => Or.inl (inDests x mem)).bind fun m ds le seenDests => ?_
    refine (traced_bundleNeutral (inNeutral.ofSource m)).bind fun k zeros le' seenNeutral => ?_
    refine (traced_lambda localRules op k inOp).bind fun j op le'' seenOp => ?_
    refine (traced_histograms localRules hs j rest).bind fun i hs le₃ seenRest => draws_pure ?_
    simp only [histogramOccurrences, Combiner.occurrences, seen_append]
    exact ⟨⟨⟨⟨inShape.ofSource i, inRace.ofSource i⟩, seenDests.later (by omega)⟩,
      seenNeutral.later (by omega), seenOp.later le₃⟩, seenRest⟩

theorem traced_accInputs (localRules : rules.Local) (s : Stm) (inputs : List AccInput) (n : Nat)
    (source : Seen K.old (accInputOccurrences inputs)) :
    Traced K n (accInputs rules s inputs) accInputOccurrences := by
  cases inputs with
  | nil => exact draws_pure seen_nil
  | cons input rest =>
    obtain ⟨shape, arrays, combine⟩ := input
    cases combine with
    | none =>
      simp only [accInputOccurrences, seen_append, seen_names] at source
      obtain ⟨⟨inShape, inArrays⟩, later⟩ := source
      refine (traced_accArrays fun x mem => Or.inl (inArrays x mem)).bind fun m xs le seenXs => ?_
      refine (traced_accInputs localRules s rest m later).bind fun k rest le' seenRest => draws_pure ?_
      simp only [accInputOccurrences, seen_append]
      exact ⟨⟨inShape.ofSource k, seenXs.later le'⟩, seenRest⟩
    | some c =>
      obtain ⟨⟨ps, ⟨ss, result⟩, ret⟩, neutral⟩ := c
      simp only [accInputOccurrences, Combiner.occurrences, Lambda.occurrences, Body.occurrences,
        seen_append, seen_names] at source
      obtain ⟨⟨⟨inShape, inArrays⟩, inNeutral, ⟨binders, inStms, inResult⟩, types⟩, later⟩ := source
      refine (traced_accArrays fun x mem => Or.inl (inArrays x mem)).bind fun m xs le seenXs => ?_
      refine (traced_accOperator binders inResult types fun k => keeps_stms localRules ss k inStms).bind
        fun k op le' seenOp => ?_
      refine (traced_mapM fun x _ _ _ => traced_zeroOperand x).bind fun j zeros le'' drawn => ?_
      refine (traced_accInputs localRules s rest j later).bind fun i rest le₃ seenRest => draws_pure ?_
      simp only [accInputOccurrences, Combiner.occurrences, operandOccurrences, List.flatMap_append,
        seen_append]
      exact ⟨⟨⟨inShape.ofSource i, seenXs.later (by omega)⟩,
        ⟨inNeutral.ofSource i, drawn.later le₃⟩, seenOp.later (by omega)⟩, seenRest⟩

end

/-- Whatever the results are made of, the transformed lambda is of known origin. -/
theorem traced_top (localRules : rules.Local) (l : Lambda) {ret : List Ty}
    {result : Diff (List Operand)}
    (source : Seen K.old l.occurrences) (types : Seen K.old (typeOccurrences ret))
    (results : ∀ m, Traced K m result operandOccurrences) :
    Traced K n (top rules l ret result) Lambda.occurrences := by
  obtain ⟨binders, inBody, -⟩ := (seen_lambda _).mp source
  obtain ⟨inStms, -⟩ := (seen_body _).mp inBody
  refine (draws_build (Build.draws_declareParams (binders.ofSource n))).bind fun m _ le _ => ?_
  refine (traced_bundleBinders (binders.ofSource m)).bind fun k ps le' drawn => ?_
  refine (traced_bodyOf (keeps_stms localRules _ k inStms) fun i _ => results i).bind
    fun j b le'' seen => draws_pure ?_
  exact (seen_lambda _).mpr ⟨drawn.later le'', seen, types.ofSource j⟩

end Forward

end Cotangent
