import Cotangent.Derivative.Reverse
import Cotangent.Proofs.Derivative.Provenance
/-!
Reverse differentiation draws every new name from the supply. The statements of a renamed branch hold
drawn names themselves, so what is followed backwards is of known origin, and not always of the source.
-/
namespace Cotangent

open Occurrences

namespace Reverse

open Diff

variable {K : Origin} {n : Nat}

/-! Contributions. -/

theorem traced_addValues {t : Ty} {x y : Name} (typed : Seen (K.upTo n) t.occurrences)
    (left : K.upTo n x) (right : K.upTo n y) :
    Traced K n (addValues t x y) fun z => [.reads z] := by
  cases t with
  | scalar t => exact draws_build (Build.traced_sum t false seen_nil left right)
  | array elem shape unique =>
    cases shape with
    | nil => exact draws_throw _
    | cons width shape => exact draws_build (Build.traced_sum elem unique typed left right)
  | acc token shape elems unique => exact draws_throw _

theorem keeps_contribute (x : Name) {d : Name} (known : K.upTo n d) : Keeps K n (contribute x d) := by
  refine (draws_companion? x).bind fun m found le before => ?_
  cases found with
  | none => exact keeps_setCompanion x (K.upTo_later known le)
  | some old =>
    have old' := before old rfl
    refine (traced_typeOf x).bind fun k t le' typed => ?_
    refine (traced_addValues typed (K.upTo_later old' le')
      (K.upTo_later known (Nat.le_trans le le'))).bind fun j z le'' drawn => ?_
    exact keeps_setCompanion x ((seen_cons ..).mp drawn).1

theorem keeps_contributeTo (x : Operand) {d : Name} (known : K.upTo n d) :
    Keeps K n (contributeTo x d) := by
  cases x with
  | const v => exact draws_pure trivial
  | var x => exact keeps_contribute x known

theorem keeps_contributeFormula (x : Operand) {f : Formula} (known : ∀ y ∈ f.names, K.upTo n y) :
    Keeps K n (contributeFormula x f) := by
  cases x with
  | const v => exact draws_pure trivial
  | var x =>
    exact (draws_build (Build.traced_letFormula known)).bind fun m d le drawn =>
      keeps_contribute x ((seen_cons ..).mp drawn).1

theorem keeps_seed (results : List Operand) {seeds : List Name} (known : ∀ d ∈ seeds, K.upTo n d) :
    Keeps K n (seed results seeds) := by
  refine keeps_forM fun r mem m le => keeps_contributeTo r.1 ?_
  exact K.upTo_later (known r.2 (List.of_mem_zip (show (r.1, r.2) ∈ _ from mem)).2) le

theorem traced_adjoints (xs : List Name) : Traced K n (adjoints xs) operandOccurrences :=
  traced_mapM fun x _ _ _ => (traced_companion x).bind fun _ _ _ drawn => draws_pure drawn

theorem keeps_sweep {back : Stm → Diff Unit} {stms : List Stm} {seed : Diff Unit}
    (seen : Seen (K.upTo n) (stmOccurrences stms))
    (step : ∀ s m, Seen (K.upTo m) s.occurrences → Keeps K m (back s))
    (start : ∀ m, n ≤ m → Keeps K m seed) : Keeps K n (sweep back stms seed) := by
  rw [seen_stms] at seen
  refine Draws.bind (keeps_forM fun s mem m le => ?_) fun m _ le _ => ?_
  · exact draws_build (Build.draws_add ((seen s mem).later le))
  · refine (start m le).bind fun k _ le' _ => keeps_forM fun s mem j le'' => ?_
    exact step s j ((seen s (List.mem_reverse.mp mem)).later (by omega))

/-! Statements. -/

theorem keeps_comparison (t : ScalarType) {b : Name} (x y : Operand) (known : K.upTo n b) :
    Keeps K n (comparison t b x y) := by
  have numbered (e : Exp) (seen : Seen (K.upTo n) e.occurrences) :
      Draws K n (some <$> build (Build.letExp (.scalar t) e)) fun m d? =>
        ∃ d, d? = some d ∧ K.upTo m d := by
    refine (draws_build (Build.traced_letExp (by simp [Ty.occurrences]) seen)).map ?_
    exact fun m z drawn => ⟨z, rfl, ((seen_cons ..).mp drawn).1⟩
  have both {m : Nat} {d : Name} (drawn : K.upTo m d) :
      Keeps K m (do contributeTo x d; contributeTo y d) :=
    (keeps_contributeTo x drawn).bind fun k _ le _ => keeps_contributeTo y (K.upTo_later drawn le)
  cases t with
  | float w =>
    refine (numbered _ ?_).bind ?_
    · simpa [Exp.occurrences, Body.occurrences, stmOccurrences, typeOccurrences, Ty.occurrences,
        Operand.occurrences] using known
    · rintro m _ - ⟨d, rfl, drawn⟩
      exact both drawn
  | int w =>
    refine (numbered _ ((seen_cons ..).mpr ⟨known, seen_nil⟩)).bind ?_
    rintro m _ - ⟨d, rfl, drawn⟩
    exact both drawn
  | bool => exact both known
  | cert => exact draws_pure trivial

/-- A product with an adjoint reads the adjoint and the names of the other factor. -/
theorem names_product {adjoint : Name} {t : ScalarType} {f : Formula}
    (drawn : Seen (K.upTo n) [.reads adjoint]) (known : ∀ x ∈ f.names, K.upTo n x) :
    ∀ x ∈ ((Formula.leaf adjoint t).mul f).names, K.upTo n x := by
  rw [names_mul, List.forall_mem_append]
  exact ⟨by simpa [Formula.names] using drawn, known⟩

theorem keeps_basicOp {rules : Rules} (localRules : rules.Local) (s : Stm) {op : BasicOp}
    (seen : Seen (K.upTo n) op.occurrences) (pattern : Seen (K.upTo n) (paramOccurrences s.pat)) :
    Keeps K n (basicOp rules s op) := by
  -- every case but three starts from the adjoint of what the statement binds
  have started {next : Name → Diff Unit}
      (rest : ∀ m adjoint, n ≤ m → Seen (K.upTo m) [.reads adjoint] → Keeps K m (next adjoint)) :
      Keeps K n (do next (← companion (← single .reverse s).name)) :=
    (draws_single .reverse s).bind fun m p le _ => (traced_companion p.name).bind
      fun k adjoint le' drawn => rest k adjoint (Nat.le_trans le le') drawn
  cases op with
  | operand x =>
    cases x with
    | const v => exact draws_pure trivial
    | var x => exact started fun m adjoint le drawn => keeps_contribute x ((seen_cons ..).mp drawn).1
  | assert cond message => exact draws_pure trivial
  | compare op x y =>
    refine (draws_single .reverse s).bind fun m p le mem => keeps_comparison op.ty x y ?_
    exact K.upTo_later (pattern.params p.name (List.mem_map_of_mem mem)) le
  | convert op x =>
    refine started fun m adjoint le drawn => ?_
    cases op with
    | floatToFloat source target =>
      exact keeps_contributeFormula x (by simpa [Formula.names] using drawn)
    | _ => exact draws_pure trivial
  | unary op x =>
    refine started fun m adjoint le drawn => ?_
    refine keeps_contributeFormula x (names_product drawn fun y mem => ?_)
    exact names_of_seen (seen.later le) op.ty y (localRules.unary op _ y mem)
  | binary op x y =>
    obtain ⟨left, right⟩ := (seen_append ..).mp seen
    refine started fun m adjoint le drawn => ?_
    have known := List.forall_mem_append.mpr
      ⟨names_of_seen (left.later le) op.ty, names_of_seen (right.later le) op.ty⟩
    obtain ⟨inLeft, inRight⟩ := List.forall_mem_append.mp fun z mem =>
      known z (localRules.binary op _ _ z mem)
    refine (keeps_contributeFormula x (names_product drawn inLeft)).bind fun k _ le' _ => ?_
    exact keeps_contributeFormula y (names_product (drawn.later le') fun z mem =>
      K.upTo_later (inRight z mem) le')
  | _ => exact started fun _ _ _ _ => draws_throw _

theorem keeps_apply {rules : Rules} (localRules : rules.Local) (s : Stm) {func : String}
    {args : List Operand} (seen : Seen (K.upTo n) (operandOccurrences args)) :
    Keeps K n (apply rules s func args) := by
  refine (keeps_signature rules func).bind fun m sig le _ => ?_
  refine (draws_partials localRules func sig.1 (seen.later le)).bind fun k ds le' partials => ?_
  refine (draws_single .reverse s).bind fun j p le'' _ => ?_
  refine (traced_companion p.name).bind fun i adjoint le₃ drawn => keeps_forM fun a mem h le₄ => ?_
  refine keeps_contributeFormula a.1 (names_product (drawn.later le₄) fun x inF => ?_)
  have isPartial := (List.of_mem_zip (show (a.1, a.2) ∈ _ from mem)).2
  exact K.upTo_later (partials x ((mem_formulaNames ..).mpr ⟨a.2, isPartial, inF⟩)) (by omega)

/-! Branches. -/

theorem traced_branchBody {back : Stm → Diff Unit} {seeds free : List Name} {b : Body}
    (seen : Seen (K.upTo n) b.occurrences) (known : ∀ d ∈ seeds, K.upTo n d)
    (step : ∀ s m, Seen (K.upTo m) s.occurrences → Keeps K m (back s)) :
    Traced K n (branchBody back seeds free b) Body.occurrences := by
  refine (draws_build (Build.traced_renamed seen)).bind fun m b le renamed => ?_
  obtain ⟨inStms, -⟩ := (seen_body b).mp renamed
  refine Draws.isolated (traced_bodyOf (keeps_sweep inStms step fun k le' => ?_) fun k _ =>
    traced_adjoints free)
  exact keeps_seed b.result fun d mem => K.upTo_later (known d mem) (Nat.le_trans le le')

theorem known_freeNames {b : Body} (seen : Seen (K.upTo n) b.occurrences) :
    ∀ x ∈ b.freeNames, K.upTo n x := by
  intro x mem
  obtain ⟨before, later, at_x, -, -⟩ := Occurrences.read_of_mem_freeFrom mem
  exact seen (.reads x) (by simp [at_x])

theorem keeps_branch {back : Stm → Diff Unit} {s : Stm} {cond : Operand} {yes no : Body}
    {sort : BranchSort} (certs : ∀ x ∈ s.aux.certs, K.upTo n x)
    (condition : Seen (K.upTo n) cond.occurrences) (seenYes : Seen (K.upTo n) yes.occurrences)
    (seenNo : Seen (K.upTo n) no.occurrences)
    (step : ∀ s m, Seen (K.upTo m) s.occurrences → Keeps K m (back s)) :
    Keeps K n (branch back s cond yes no sort) := by
  have free : ∀ x ∈ freeNames yes no, K.upTo n x := by
    intro x mem
    rcases List.mem_append.mp mem with inYes | inNo
    · exact known_freeNames seenYes x inYes
    · exact known_freeNames seenNo x (List.mem_of_mem_filter inNo)
  refine (traced_mapM fun p _ m _ => traced_companion p.name).bind fun m seeds le drawn => ?_
  have known : ∀ d ∈ seeds, K.upTo m d := by
    simpa [seen_flatMap] using drawn
  have typedParam (x : Name) (mem : x ∈ freeNames yes no) (k : Nat) (le' : m ≤ k) : Traced K k (do
      return Param.mk x (← typeOf x) : Diff Param) Param.occurrences := by
    refine (traced_typeOf x).bind fun j t le'' typed => draws_pure ?_
    exact (seen_cons ..).mpr ⟨K.upTo_later (free x mem) (by omega), typed⟩
  refine (traced_mapM typedParam).bind fun k typed le' seenTyped => ?_
  by_cases nothing : (typed.filter fun p => !p.ty.isAcc).isEmpty = true
  · simp only [nothing, Bool.not_true, Bool.false_eq_true, if_false]
    exact draws_pure trivial
  · simp only [nothing, Bool.not_false, if_true]
    refine (traced_branchBody (seenYes.later (by omega))
      (fun d mem => K.upTo_later (known d mem) le') step).bind fun j yes le'' inYes => ?_
    refine (traced_branchBody (seenNo.later (by omega))
      (fun d mem => K.upTo_later (known d mem) (by omega)) step).bind fun i no le₃ inNo => ?_
    have types (p : Param) (mem : p ∈ typed.filter fun p => !p.ty.isAcc) :
        Seen (K.upTo k) p.ty.occurrences :=
      ((seen_cons ..).mp ((seen_flatMap ..).mp seenTyped p (List.mem_of_mem_filter mem))).2
    have freshParam (p : Param) (mem : p ∈ typed.filter fun p => !p.ty.isAcc) (m : Nat) (le₄ : i ≤ m) :
        Traced K m (do return { p with name := ← build Build.fresh } : Diff Param)
          Param.occurrences := by
      refine (draws_build Build.traced_fresh).bind fun h x le₅ drawn => draws_pure ?_
      exact (seen_cons ..).mpr ⟨((seen_cons ..).mp drawn).1, (types p mem).later (by omega)⟩
    refine (traced_mapM freshParam).bind fun h pat le₄ drawnPat => ?_
    refine (draws_build (Build.draws_add ((seen_stm _).mpr ⟨?_, ?_, drawnPat⟩))).bind
      fun g _ le₅ _ => keeps_forM fun p mem f le₆ => keeps_contribute p.1.name ?_
    · exact fun x mem => K.upTo_later (certs x mem) (by omega)
    · simp only [Exp.occurrences, seen_append, seen_types, List.forall_mem_map]
      exact ⟨⟨⟨condition.later (by omega), inYes.later (by omega)⟩, inNo.later (by omega)⟩,
        fun p mem => (types p mem).later (by omega)⟩
    · have inPat := (List.of_mem_zip (show (p.1, p.2) ∈ _ from mem)).2
      exact K.upTo_later (Seen.params drawnPat p.2.name (List.mem_map_of_mem inPat)) (by omega)

/-! Programs. -/

theorem keeps_stm {rules : Rules} (localRules : rules.Local) (depth : Nat) (s : Stm) (n : Nat)
    (seen : Seen (K.upTo n) s.occurrences) : Keeps K n (stm rules depth s) := by
  induction depth generalizing s n with
  | zero =>
    obtain ⟨pat, aux, e⟩ := s
    obtain ⟨-, seen, pattern⟩ := (seen_stm _).mp seen
    cases e with
    | basic op => exact keeps_basicOp localRules _ seen pattern
    | apply func args ret => exact keeps_apply localRules _ ((seen_append ..).mp seen).1
    | _ => exact draws_throw _
  | succ depth ih =>
    obtain ⟨pat, aux, e⟩ := s
    obtain ⟨certs, seen, pattern⟩ := (seen_stm _).mp seen
    cases e with
    | basic op => exact keeps_basicOp localRules _ seen pattern
    | apply func args ret => exact keeps_apply localRules _ ((seen_append ..).mp seen).1
    | branch cond yes no ret sort =>
      simp only [Exp.occurrences, seen_append] at seen
      obtain ⟨⟨⟨condition, inYes⟩, inNo⟩, -⟩ := seen
      exact keeps_branch certs condition inYes inNo ih
    | _ => exact draws_throw _

theorem traced_top {rules : Rules} (localRules : rules.Local) (l : Lambda)
    (source : Seen (K.upTo n) l.occurrences) : Traced K n (top rules l) Lambda.occurrences := by
  obtain ⟨binders, inBody, types⟩ := (seen_lambda _).mp source
  obtain ⟨inStms, -⟩ := (seen_body _).mp inBody
  refine (draws_build (Build.draws_declareParams binders)).bind fun m _ le _ => ?_
  refine (draws_build (Build.traced_mapM fun t mem k le' => Build.traced_param
    (((seen_types _).mp types t mem).later (Nat.le_trans le le')))).bind fun k seeds le' drawn => ?_
  have known : ∀ d ∈ seeds.map (·.name), K.upTo k d := Seen.params drawn
  refine (traced_bodyOf (keeps_sweep (inStms.later (Nat.le_trans le le')) (keeps_stm localRules _)
    fun j le'' => keeps_seed _ fun d mem => K.upTo_later (known d mem) le'') fun j _ =>
      traced_adjoints _).bind fun j b le'' seen => draws_pure ?_
  have params := binders.later (Nat.le_trans (Nat.le_trans le le') le'')
  refine (seen_lambda _).mpr ⟨?_, seen, ?_⟩
  · simp only [paramOccurrences, List.flatMap_append, seen_append]
    exact ⟨params, drawn.later le''⟩
  · rw [seen_types, List.forall_mem_map]
    intro p mem
    exact ((seen_cons ..).mp ((seen_params _).mp params p mem)).2

end Reverse

end Cotangent
