import Cotangent.Derivative.Forward
import Cotangent.Proofs.Derivative.ScalarPasses
import Cotangent.Proofs.Derivative.TypeLookups
/-!
Forward differentiation asks for the types of names in scope only, and each of them was declared where
it was bound. There is one lemma for each construct, over parts that do so, and the recursion over
programs at the end puts them together. Accumulators and unsupported statements are no exception.
-/
namespace Cotangent

open Outline Diff

variable {s t : DiffState} {source : Scope}

theorem Typed.later (typed : Typed s source) (later : s.builder.Later t.builder) : Typed t source :=
  fun x known => later.typed x (typed x known)

theorem Typed.sub {part : Scope} (typed : Typed s source) (sub : ∀ x ∈ part, x ∈ source) :
    Typed s part :=
  fun x known => typed x (sub x known)

theorem Typed.operand {xs : List Operand} {x : Operand} (typed : Typed s (operandNames xs))
    (mem : x ∈ xs) : Typed s x.names :=
  typed.sub fun _ inX => List.mem_flatMap.mpr ⟨x, mem, inX⟩

/-- A scope and the parameters that are bound in it. -/
theorem Typed.after_params (typed : Typed s source) {ps : List Param}
    (binders : ∀ p ∈ ps, s.builder.Typed p.name) : Typed s ((paramOutline ps).after source) := by
  intro x known
  rcases (mem_after_paramOutline ..).mp known with known | ⟨p, mem, rfl⟩
  · exact typed x known
  · exact binders p mem

namespace Forward

variable {α β : Type}

/-! Tangents of binders, operands and names. -/

theorem resolves_newTangent (p : Param) :
    Resolves (newTangent p) s fun q _ => p.ty.isAcc = true → q.name = p.name := by
  have record (x : Name) (t : DiffState) (same : p.ty.isAcc = true → x = p.name) : Resolves (do
      setCompanion p.name x
      build (Build.declare x p.ty.tangent)
      return ⟨x, p.ty.tangent⟩ : Diff Param) t fun q _ => p.ty.isAcc = true → q.name = p.name :=
    (resolved_setCompanion p.name x).bind fun _ _ _ _ =>
      (resolved_build (Build.retains_declare x p.ty.tangent)).bind fun _ _ _ _ => resolves_pure same
  unfold newTangent
  cases acc : p.ty.isAcc with
  | true =>
    simp only [if_true]
    refine (resolves_pure (P := fun x _ => x = p.name) rfl).bind fun x t _ same => ?_
    exact (record x t fun _ => same).mono fun _ _ _ holds _ => holds acc
  | false =>
    simp only [Bool.false_eq_true, if_false]
    refine (resolved_build Build.retains_fresh).bind fun x t _ _ => ?_
    exact (record x t fun isAcc => by simp [acc] at isAcc).mono fun _ _ _ _ isAcc => by cases isAcc

/-- What holds of the group that each entry turns into. -/
theorem resolves_bundled {f : α → Diff (List β)} {xs : List α} {R : α → List β → DiffState → Prop}
    (keeps : ∀ a ys t u, t.builder.Later u.builder → R a ys t → R a ys u)
    (each : ∀ a ∈ xs, ∀ t, s.builder.Later t.builder → Resolves (f a) t (R a)) :
    Resolves (bundled f xs) s fun ys t => ∀ a ∈ xs, ∃ group, (∀ y ∈ group, y ∈ ys) ∧ R a group t := by
  refine (resolves_mapM keeps each).bind fun groups t _ paired => resolves_pure fun a mem => ?_
  obtain ⟨i, here, rfl⟩ := List.getElem_of_mem mem
  have inside : i < groups.length := paired.length_eq ▸ here
  refine ⟨groups[i], fun y inGroup => ?_, paired.get here inside⟩
  exact List.mem_flatten.mpr ⟨_, List.getElem_mem inside, inGroup⟩

theorem resolved_bundled {f : α → Diff (List β)} {xs : List α}
    (each : ∀ a ∈ xs, ∀ t, s.builder.Later t.builder → Resolved (f a) t) :
    Resolved (bundled f xs) s :=
  (resolved_mapM each).bind fun _ _ _ _ => resolves_pure trivial

/-- Every binder is bound again under its own name, with or without a tangent beside it. -/
theorem resolves_bundleBinders (ps : List Param) :
    Resolves (bundleBinders ps) s fun qs _ => ∀ p ∈ ps, ∃ q ∈ qs, q.name = p.name := by
  refine Resolves.mono (resolves_bundled (R := fun (p : Param) (qs : List Param) _ => ∃ q ∈ qs, q.name = p.name)
    (fun _ _ _ _ _ holds => holds) fun p _ t _ => ?_) fun qs t _ grouped p mem => ?_
  · refine (resolves_newTangent p).bind fun tan u _ alone => resolves_pure ?_
    cases acc : p.ty.isAcc with
    | true => exact ⟨tan, by simp, alone acc⟩
    | false => exact ⟨p, by simp, rfl⟩
  · obtain ⟨group, sub, q, mem, same⟩ := grouped p mem
    exact ⟨q, sub q mem, same⟩

theorem resolved_tangent {x : Operand} (typed : Typed s x.names) : Resolved (tangent x) s := by
  cases x with
  | const v => exact resolves_pure trivial
  | var x =>
    exact (resolved_companion (typed x (by simp [Operand.names]))).bind fun _ _ _ _ =>
      resolves_pure trivial

theorem resolved_tangents {xs : List Operand} (typed : Typed s (operandNames xs)) :
    Resolved (tangents xs) s :=
  resolved_mapM fun _ mem _ later => resolved_tangent ((typed.later later).operand mem)

theorem resolved_companions {xs : List Name} (typed : Typed s xs) :
    Resolved (xs.mapM companion) s :=
  resolved_mapM fun x mem _ later => resolved_companion (later.typed x (typed x mem))

theorem resolved_zeroOperands {xs : List Operand} (typed : Typed s (operandNames xs)) :
    Resolved (xs.mapM zeroOperand) s :=
  resolved_mapM fun _ mem _ later => resolved_zeroOperand ((typed.later later).operand mem)

theorem resolved_isAccName {x : Name} (typed : s.builder.Typed x) : Resolved (isAccName x) s :=
  (resolves_typeOf typed).bind fun _ _ _ _ => resolves_pure trivial

theorem resolved_isAccOperand {x : Operand} (typed : Typed s x.names) :
    Resolved (isAccOperand x) s := by
  cases x with
  | const v => exact resolves_pure trivial
  | var x => exact resolved_isAccName (typed x (by simp [Operand.names]))

theorem resolved_bundleOperands {xs : List Operand} (typed : Typed s (operandNames xs)) :
    Resolved (bundleOperands xs) s := by
  refine resolved_bundled fun x mem t later => ?_
  have typed := (typed.later later).operand mem
  refine (resolved_isAccOperand typed).bind fun acc u further _ => ?_
  cases acc with
  | true => exact resolves_pure trivial
  | false =>
    exact (resolved_tangent (typed.later further)).bind fun _ _ _ _ => resolves_pure trivial

theorem resolved_bundleNames {xs : List Name} (typed : Typed s xs) : Resolved (bundleNames xs) s := by
  refine resolved_bundled fun x mem t later => ?_
  have typed := later.typed x (typed x mem)
  refine (resolved_isAccName typed).bind fun acc u further _ => ?_
  cases acc with
  | true => exact resolves_pure trivial
  | false =>
    exact (resolved_companion (further.typed x typed)).bind fun _ _ _ _ => resolves_pure trivial

theorem resolved_bundleNeutral {xs : List Operand} (typed : Typed s (operandNames xs)) :
    Resolved (bundleNeutral xs) s :=
  (resolved_zeroOperands typed).bind fun _ _ _ _ => resolves_pure trivial

/-- The loop parameters are declared on the way. -/
theorem resolves_bundleMerge {merge : List (Param × Operand)}
    (typed : Typed s (operandNames (merge.map (·.2)))) :
    Resolves (bundleMerge merge) s fun _ t => ∀ m ∈ merge, t.builder.Typed m.1.name := by
  refine Resolves.mono (resolves_bundled (R := fun (m : Param × Operand) _ t => t.builder.Typed m.1.name)
    (fun _ _ _ _ further known => further.typed _ known) fun m mem t later => ?_)
      fun _ _ _ grouped m mem => (grouped m mem).elim fun _ here => here.2
  have typed := (typed.later later).operand (List.mem_map_of_mem (f := (·.2)) mem)
  refine (resolves_build (Build.retains_declare m.1.name m.1.ty)).bind fun _ u further declared => ?_
  have known : u.builder.Typed m.1.name := by
    rw [declared.2]
    exact Build.typed_declare ..
  cases acc : m.1.ty.isAcc with
  | true =>
    exact (resolves_newTangent m.1).bind fun _ v last _ => resolves_pure (last.typed _ known)
  | false =>
    refine (resolved_tangent (typed.later further)).bind fun _ v next _ => ?_
    exact (resolves_newTangent m.1).bind fun _ w last _ =>
      resolves_pure (last.typed _ (next.typed _ known))

/-- The rows are declared on the way. -/
theorem resolves_bundleRows {rows : List (Param × Name)} (typed : Typed s (rows.map (·.2))) :
    Resolves (bundleRows rows) s fun _ t => ∀ r ∈ rows, t.builder.Typed r.1.name := by
  refine Resolves.mono (resolves_bundled (R := fun (r : Param × Name) _ t => t.builder.Typed r.1.name)
    (fun _ _ _ _ further known => further.typed _ known) fun r mem t later => ?_)
      fun _ _ _ grouped r mem => (grouped r mem).elim fun _ here => here.2
  have typed := later.typed _ (typed r.2 (List.mem_map_of_mem mem))
  refine (resolves_build (Build.retains_declare r.1.name r.1.ty)).bind fun _ u further declared => ?_
  have known : u.builder.Typed r.1.name := by
    rw [declared.2]
    exact Build.typed_declare ..
  refine (resolved_companion (further.typed _ typed)).bind fun _ v next _ => ?_
  exact (resolves_newTangent r.1).bind fun _ w last _ =>
    resolves_pure (last.typed _ (next.typed _ known))

/-! Statements without bodies. -/

/-- A statement is emitted whose pattern binds the names of another one. -/
theorem resolves_emit {ps : List Param} (stm : Stm)
    (bound : ∀ p ∈ ps, ∃ q ∈ stm.pat, q.name = p.name) :
    Resolves (build (Build.add stm)) s fun _ t => ∀ p ∈ ps, t.builder.Typed p.name := by
  refine (resolves_build (Build.retains_add stm)).mono fun _ t _ added p mem => ?_
  obtain ⟨q, inPat, same⟩ := bound p mem
  rw [added.2, ← same]
  exact Builder.typed_add stm s.builder q inPat

theorem resolves_tangentExp (rules : Rules) (stm : Stm) {op : BasicOp} (typed : Typed s op.names) :
    Resolves (tangentExp rules stm op) s fun act _ => Build.Retains act := by
  -- most operations are applied to the tangent of the one array that they read
  have onArray {array : Name} (known : array ∈ op.names) (op : Name → BasicOp) :
      Resolves (do return pure (.basic (op (← companion array))) : Diff (Build Exp)) s
        fun act _ => Build.Retains act :=
    (resolved_companion (typed array known)).bind fun _ _ _ _ =>
      resolves_pure (Build.retains_pure _)
  cases op with
  | operand x =>
    exact (resolved_tangent typed).bind fun _ _ _ _ => resolves_pure (Build.retains_pure _)
  | arrayLit elems ty =>
    exact (resolved_tangents typed).bind fun _ _ _ _ => resolves_pure (Build.retains_pure _)
  | unary op x =>
    exact (resolved_tangent typed).bind fun _ _ _ _ => resolves_pure (Build.retains_expOf _)
  | binary op x y =>
    have both : Typed s (operandNames [x, y]) := typed
    have inLeft : Typed s x.names := both.operand (by simp)
    have inRight : Typed s y.names := both.operand (by simp)
    refine (resolved_tangent inLeft).bind fun _ t later _ => ?_
    exact (resolved_tangent (inRight.later later)).bind fun _ _ _ _ =>
      resolves_pure (Build.retains_expOf _)
  | convert op x =>
    exact (resolved_tangent typed).bind fun _ _ _ _ => resolves_pure (Build.retains_pure _)
  | index array slice => exact onArray (by simp [BasicOp.names]) (.index · slice)
  | update array slice value =>
    have inValue : Typed s value.names := typed.sub fun x mem => by simp [BasicOp.names, mem]
    refine (resolved_companion (typed array (by simp [BasicOp.names]))).bind fun _ t later _ => ?_
    exact (resolved_tangent (inValue.later later)).bind fun _ _ _ _ =>
      resolves_pure (Build.retains_pure _)
  | concat dim first rest width =>
    have inRest : Typed s rest := typed.sub fun x mem => by simp [BasicOp.names, mem]
    refine (resolved_companion (typed first (by simp [BasicOp.names]))).bind fun _ t later _ => ?_
    exact (resolved_companions (inRest.later later)).bind fun _ _ _ _ =>
      resolves_pure (Build.retains_pure _)
  | copy array => exact onArray (by simp [BasicOp.names]) .copy
  | manifest perm array => exact onArray (by simp [BasicOp.names]) (.manifest perm)
  | reshape shape array => exact onArray (by simp [BasicOp.names]) (.reshape shape)
  | rearrange perm array => exact onArray (by simp [BasicOp.names]) (.rearrange perm)
  | rotate offsets array => exact onArray (by simp [BasicOp.names]) (.rotate offsets)
  | iota count first step w => exact resolves_pure (Build.retains_pure _)
  | replicate shape value =>
    have inValue : Typed s value.names := typed.sub fun x mem => by simp [BasicOp.names, mem]
    exact (resolved_tangent inValue).bind fun _ _ _ _ => resolves_pure (Build.retains_pure _)
  | compare op x y => exact resolves_throw (by simp)
  | scratch elem shape => exact resolves_throw (by simp)
  | assert cond msg => exact resolves_throw (by simp)
  | updateAcc acc position values => exact resolves_throw (by simp)

/-- The names of a pattern have types. -/
abbrev Declared (ps : List Param) (t : DiffState) : Prop := ∀ p ∈ ps, t.builder.Typed p.name

theorem resolves_basicOp (rules : Rules) (stm : Stm) {op : BasicOp} (typed : Typed s op.names) :
    Resolves (basicOp rules stm op) s fun _ t => Declared stm.pat t := by
  have own : ∀ p ∈ stm.pat, ∃ q ∈ stm.pat, q.name = p.name := fun p mem => ⟨p, mem, rfl⟩
  refine (resolves_emit stm own).bind fun _ t later declared => ?_
  cases isConstant op with
  | true => exact resolves_pure declared
  | false =>
    refine (resolves_single .forward stm).bind ?_
    rintro p _ - ⟨-, rfl⟩
    refine (resolves_tangentExp rules stm (typed.later later)).bind fun act u second retains => ?_
    refine (resolves_newTangent p).bind fun tan v third _ => ?_
    refine (resolved_build (retains.bind fun e => Build.retains_add ⟨[tan], stm.aux, e⟩)).mono
      fun _ w fourth _ q mem => ?_
    exact (second.trans (third.trans fourth)).typed _ (declared q mem)

theorem resolves_updateAcc (stm : Stm) {acc : Name} {position values : List Operand}
    (typed : Typed s (BasicOp.updateAcc acc position values).names) :
    Resolves (updateAcc stm acc position values) s fun _ t => Declared stm.pat t := by
  have inValues : Typed s (operandNames values) := typed.sub fun x mem => by simp [BasicOp.names, mem]
  refine (resolves_bundleBinders stm.pat).bind fun pat t first bound => ?_
  refine (resolved_tangents (inValues.later first)).bind fun tans u second _ => ?_
  have known : u.builder.Typed acc :=
    (first.trans second).typed acc (typed acc (by simp [BasicOp.names]))
  exact (resolved_companion known).bind fun acc' v _ _ => resolves_emit _ bound

theorem resolves_apply (rules : Rules) (stm : Stm) {func : String} {args : List Operand}
    (typed : Typed s (operandNames args)) :
    Resolves (apply rules stm func args) s fun _ t => Declared stm.pat t := by
  refine (resolved_signature rules func).bind fun sig t first _ => ?_
  refine (resolves_single .forward stm).bind ?_
  rintro p _ - ⟨-, rfl⟩
  have own : ∀ p ∈ stm.pat, ∃ q ∈ stm.pat, q.name = p.name := fun p mem => ⟨p, mem, rfl⟩
  refine (resolves_emit stm own).bind fun _ u second declared => ?_
  refine (resolved_partials rules func sig.1 args).bind fun ds v third _ => ?_
  refine (resolved_mapM fun a mem w fourth => ?_).bind fun terms w fourth _ => ?_
  · have inArgs := (List.of_mem_zip (List.of_mem_zip (show (a.1, a.2) ∈ _ from mem)).1).2
    have later := first.trans (second.trans (third.trans fourth))
    exact (resolved_tangent ((typed.later later).operand inArgs)).bind fun _ _ _ _ =>
      resolves_pure trivial
  · refine (resolves_newTangent p).bind fun tan x fifth _ => ?_
    refine (resolved_build (Build.retains_bindFormula tan stm.aux _)).mono fun _ y sixth _ q mem => ?_
    exact (third.trans (fourth.trans (fifth.trans sixth))).typed _ (declared q mem)

/-! Bodies and lambdas, given the transformation of their statements. -/

/-- The transformation of statements that are bound in a scope, to be run wherever the names of the
    scope have types. -/
def ResolvedIn (act : Diff α) (scope : Scope) : Prop := ∀ t, Typed t scope → Resolved act t

/-- Like `ResolvedIn`, for statements that open a further scope. -/
def Opens (stms : Diff Unit) (scope inner : Scope) : Prop :=
  ∀ t, Typed t scope → Resolves stms t fun _ u => Typed u inner

theorem resolved_bundledBody {stms : Diff Unit} {result : List Operand} {scope inner : Scope}
    (opens : Opens stms scope inner) (known : ∀ x ∈ operandNames result, x ∈ inner) :
    ResolvedIn (bundledBody stms result) scope := by
  intro t typed
  refine resolved_bodyOf fun u later => ?_
  exact (opens u (typed.later later)).bind fun _ v _ inside =>
    resolved_bundleOperands (inside.sub known)

/-- The parameters of a lambda are declared before anything else, in a scope of its own. -/
theorem resolved_opened {ps : List Param} {act : Diff α} (typed : Typed s source)
    (inside : ResolvedIn act ((paramOutline ps).after source)) :
    Resolved (within do
      build (Build.declareParams ps)
      act) s := by
  refine resolved_within ?_
  refine (resolves_build (Build.retains_declareParams ps)).bind fun _ t later declared => ?_
  refine inside t ((typed.later later).after_params fun p mem => ?_)
  rw [declared.2]
  exact Build.typed_declareParams ps s.builder p mem

theorem resolved_lambdaOf {ps : List Param} {ret : List Ty} {body : Diff Body}
    (typed : Typed s source) (inside : ResolvedIn body ((paramOutline ps).after source)) :
    Resolved (lambdaOf ps ret body) s :=
  resolved_opened typed fun _ typed => (resolves_bundleBinders ps).bind fun _ u later _ =>
    (inside u (typed.later later)).bind fun _ _ _ _ => resolves_pure trivial

theorem resolved_streamLambda (stm : Stm) {ps : List Param} {ret : List Ty} {body : Diff Body}
    (typed : Typed s source) (inside : ResolvedIn body ((paramOutline ps).after source)) :
    Resolved (streamLambda stm ps ret body) s := by
  cases ps with
  | nil => exact resolves_throw (by simp)
  | cons chunk rest =>
    exact resolved_opened typed fun _ typed => (resolves_bundleBinders rest).bind fun _ u later _ =>
      (inside u (typed.later later)).bind fun _ _ _ _ => resolves_pure trivial

theorem operandNames_drop {n : Nat} {xs : List Operand} :
    ∀ x ∈ operandNames (xs.drop n), x ∈ operandNames xs := by
  intro x mem
  obtain ⟨y, inDrop, inY⟩ := List.mem_flatMap.mp mem
  exact List.mem_flatMap.mpr ⟨y, List.mem_of_mem_drop inDrop, inY⟩

theorem resolved_bucketLambda {n : Nat} {ps : List Param} {stms : Diff Unit}
    {result : List Operand} {ret : List Ty} {inner : Scope} (typed : Typed s source)
    (opens : Opens stms ((paramOutline ps).after source) inner)
    (known : ∀ x ∈ operandNames result, x ∈ inner) :
    Resolved (bucketLambda n ps stms result ret) s := by
  refine resolved_opened typed fun _ typed => (resolves_bundleBinders ps).bind fun _ u later _ => ?_
  refine (resolved_bodyOf fun v further => ?_).bind fun _ _ _ _ => resolves_pure trivial
  refine (opens v (typed.later (later.trans further))).bind fun _ w _ inside => ?_
  exact (resolved_bundleOperands (inside.sub fun x mem => known x (operandNames_drop x mem))).bind
    fun _ _ _ _ => resolves_pure trivial

theorem resolved_scatterLambda {n : Nat} {ps : List Param} {stms : Diff Unit}
    {result : List Operand} {ret : List Ty} {inner : Scope} (typed : Typed s source)
    (opens : Opens stms ((paramOutline ps).after source) inner)
    (known : ∀ x ∈ operandNames result, x ∈ inner) :
    Resolved (scatterLambda n ps stms result ret) s := by
  refine resolved_opened typed fun _ typed => (resolves_bundleBinders ps).bind fun _ u later _ => ?_
  refine (resolved_bodyOf fun v further => ?_).bind fun _ _ _ _ => resolves_pure trivial
  refine (opens v (typed.later (later.trans further))).bind fun _ w _ inside => ?_
  exact (resolved_tangents (inside.sub fun x mem => known x (operandNames_drop x mem))).bind
    fun _ _ _ _ => resolves_pure trivial

theorem resolved_newTangents (ps : List Param) : Resolved (ps.mapM newTangent) s :=
  resolved_mapM fun p _ _ _ => (resolves_newTangent p).mono fun _ _ _ _ => trivial

theorem resolved_accOperator (stm : Stm) {rank : Nat} {ps : List Param} {stms : Diff Unit}
    {result : List Operand} {ret : List Ty} {inner : Scope} (typed : Typed s source)
    (opens : Opens stms ((paramOutline ps).after source) inner)
    (known : ∀ x ∈ operandNames result, x ∈ inner) :
    Resolved (accOperator stm rank ps stms result ret) s := by
  unfold accOperator
  split
  · exact resolves_throw (by simp)
  · refine resolved_opened typed fun _ typed => ?_
    refine (resolved_newTangents _).bind fun _ u first _ => ?_
    refine (resolved_newTangents _).bind fun _ v second _ => ?_
    refine (resolved_bodyOf fun w third => ?_).bind fun _ _ _ _ => resolves_pure trivial
    refine (opens w (typed.later (first.trans (second.trans third)))).bind fun _ x _ inside => ?_
    exact (resolved_tangents (inside.sub known)).bind fun _ _ _ _ => resolves_pure trivial

/-! Statements with bodies. -/

theorem resolves_branch (stm : Stm) {cond : Operand} {yes no : Diff Body} {ret : List Ty}
    {sort : BranchSort} (typed : Typed s source) (inYes : ResolvedIn yes source)
    (inNo : ResolvedIn no source) :
    Resolves (branch stm cond yes no ret sort) s fun _ t => Declared stm.pat t := by
  refine (resolved_within (inYes s typed)).bind fun _ t first _ => ?_
  refine (resolved_within (inNo t (typed.later first))).bind fun _ u _ _ => ?_
  exact (resolves_bundleBinders stm.pat).bind fun _ v _ bound => resolves_emit _ bound

/-- A loop declares its parameters, its rows and its counter before it goes into the body. -/
theorem resolves_loop (stm : Stm) {merge : List (Param × Operand)} {form : LoopForm}
    {body : Diff Body} {o : Outline} (typed : Typed s source)
    (accepted : (loopOutline merge form o).Accepted source)
    (inside : ∀ scope, o.Accepted scope → ResolvedIn body scope) :
    Resolves (loop stm merge form body) s fun _ t => Declared stm.pat t := by
  have finish (merge : List (Param × Operand)) (form : LoopForm) {scope : Scope} (t : DiffState)
      (accepted : o.Accepted scope) (typed : Typed t scope) : Resolves (do
        let pat ← bundleBinders stm.pat
        let body ← within body
        build (Build.add ⟨pat, stm.aux, .loop merge form body⟩)) t fun _ t => Declared stm.pat t :=
    (resolves_bundleBinders stm.pat).bind fun pat u later bound =>
      (resolved_within (inside scope accepted u (typed.later later))).bind fun _ v _ _ =>
        resolves_emit _ bound
  have params {t : DiffState} (typed : Typed t source)
      (declared : ∀ m ∈ merge, t.builder.Typed m.1.name) :
      Typed t ((paramOutline (merge.map (·.1))).after source) :=
    typed.after_params fun p mem => by
      obtain ⟨m, inMerge, rfl⟩ := List.mem_map.mp mem
      exact declared m inMerge
  cases form with
  | whileHolds cond =>
    simp only [loopOutline, accepted_append, accepted_readsAll, after_readsAll, Accepted] at accepted
    obtain ⟨inits, ⟨-, insideAccepted, -⟩, -⟩ := accepted
    refine (resolves_bundleMerge (typed.sub inits)).bind fun merge' t first declared => ?_
    exact finish merge' _ t insideAccepted (params (typed.later first) declared)
  | forBelow counter w bound arrays =>
    simp only [loopOutline, accepted_append, accepted_readsAll, after_readsAll, Accepted,
      after_append, after] at accepted
    obtain ⟨⟨inits, sources⟩, ⟨⟨-, -, -⟩, insideAccepted, -⟩, -⟩ := accepted
    refine (resolves_bundleMerge (typed.sub inits)).bind fun merge' t first declared => ?_
    have rowsKnown : Typed t (arrays.map (·.2)) :=
      (typed.later first).sub fun x mem => sources x (List.mem_append_right _ mem)
    refine (resolves_bundleRows rowsKnown).bind fun rows u second rowsDeclared => ?_
    refine (resolves_build (Build.retains_declare counter (.scalar (.int w)))).bind
      fun _ v third counterDeclared => ?_
    refine finish merge' _ v insideAccepted (Typed.after_params ?_ fun p mem => ?_)
    · intro x known
      rcases List.mem_cons.mp known with rfl | known
      · rw [counterDeclared.2]
        exact Build.typed_declare ..
      · exact (second.trans third).typed x (params (typed.later first) declared x known)
    · obtain ⟨r, inRows, rfl⟩ := List.mem_map.mp mem
      exact third.typed _ (rowsDeclared r inRows)

/-- The names of the pattern stay among those that the region binds. -/
theorem resolves_regionPattern (inputs : List AccInput) (pat : List Param) :
    Resolves (regionPattern inputs pat) s fun qs _ => ∀ p ∈ pat, ∃ q ∈ qs, q.name = p.name := by
  induction inputs generalizing pat s with
  | nil => exact resolves_bundleBinders pat
  | cons input inputs ih =>
    refine (resolved_newTangents _).bind fun tans t first _ => ?_
    refine (ih (pat.drop input.arrays.length)).bind fun qs u _ bound => resolves_pure fun p mem => ?_
    rw [← List.take_append_drop input.arrays.length pat] at mem
    rcases List.mem_append.mp mem with inGroup | inRest
    · exact ⟨p, by simp [inGroup], rfl⟩
    · obtain ⟨q, inRest, same⟩ := bound p inRest
      exact ⟨q, by simp [inRest], same⟩

theorem resolved_accArrays {arrays : List Name} (typed : Typed s arrays) :
    Resolved (accArrays arrays) s :=
  (resolved_companions typed).bind fun _ _ _ _ => resolves_pure trivial

theorem resolves_withAcc (stm : Stm) {inputs : List AccInput} {bundledInputs : Diff (List AccInput)}
    {lam : Diff Lambda} (typed : Typed s source) (inInputs : ResolvedIn bundledInputs source)
    (inside : ResolvedIn lam source) :
    Resolves (withAcc stm inputs bundledInputs lam) s fun _ t => Declared stm.pat t := by
  by_cases short : stm.pat.length < total (inputs.map (·.arrays.length))
  · simp only [withAcc, short, if_true]
    exact resolves_throw (by simp)
  · simp only [withAcc, short, if_false]
    refine (inInputs s typed).bind fun _ t first _ => ?_
    refine (resolves_regionPattern inputs stm.pat).bind fun _ u second bound => ?_
    exact (inside u (typed.later (first.trans second))).bind fun _ v _ _ => resolves_emit _ bound

theorem resolves_screma (stm : Stm) {width : Operand} {arrays : List Name}
    {scans : Diff (List Combiner)} {reduces : Diff (List Reduction)} {map : Diff Lambda}
    (typed : Typed s source) (known : ∀ x ∈ arrays, x ∈ source) (inScans : ResolvedIn scans source)
    (inReduces : ResolvedIn reduces source) (inside : ResolvedIn map source) :
    Resolves (screma stm width arrays scans reduces map) s fun _ t => Declared stm.pat t := by
  refine (resolves_bundleBinders stm.pat).bind fun pat t first bound => ?_
  have typed := typed.later first
  refine (resolved_bundleNames (typed.sub known)).bind fun _ u second _ => ?_
  have typed := typed.later second
  refine (inScans u typed).bind fun _ v third _ => ?_
  have typed := typed.later third
  refine (inReduces v typed).bind fun _ w fourth _ => ?_
  exact (inside w (typed.later fourth)).bind fun _ x _ _ => resolves_emit _ bound

theorem resolves_stream (stm : Stm) {width : Operand} {arrays : List Name} {form : Diff StreamForm}
    {inits : List Operand} {lam : Diff Lambda} (typed : Typed s source)
    (known : ∀ x ∈ arrays, x ∈ source) (knownInits : ∀ x ∈ operandNames inits, x ∈ source)
    (inForm : ResolvedIn form source) (inside : ResolvedIn lam source) :
    Resolves (stream stm width arrays form inits lam) s fun _ t => Declared stm.pat t := by
  refine (resolves_bundleBinders stm.pat).bind fun pat t first bound => ?_
  have typed := typed.later first
  refine (inside t typed).bind fun _ u second _ => ?_
  have typed := typed.later second
  refine (resolved_bundleNames (typed.sub known)).bind fun _ v third _ => ?_
  have typed := typed.later third
  refine (resolved_bundleNeutral (typed.sub knownInits)).bind fun _ w fourth _ => ?_
  exact (inForm w (typed.later fourth)).bind fun _ x _ _ => resolves_emit _ bound

theorem resolves_hist (stm : Stm) {width : Operand} {ops : Diff (List Histogram)}
    {bucket : Diff Lambda} {arrays : List Name} (typed : Typed s source)
    (known : ∀ x ∈ arrays, x ∈ source) (inOps : ResolvedIn ops source)
    (inside : ResolvedIn bucket source) :
    Resolves (hist stm width ops bucket arrays) s fun _ t => Declared stm.pat t := by
  refine (resolves_bundleBinders stm.pat).bind fun pat t first bound => ?_
  have typed := typed.later first
  refine (inOps t typed).bind fun _ u second _ => ?_
  have typed := typed.later second
  refine (inside u typed).bind fun _ v third _ => ?_
  exact (resolved_bundleNames ((typed.later third).sub known)).bind fun _ w _ _ =>
    resolves_emit _ bound

theorem resolves_scatter (stm : Stm) {width : Operand} {lam : Diff Lambda} {arrays : List Name}
    {dests : List ScatterDest} (typed : Typed s source) (known : ∀ x ∈ arrays, x ∈ source)
    (knownDests : ∀ d ∈ dests, d.array ∈ source) (inside : ResolvedIn lam source) :
    Resolves (scatter stm width lam arrays dests) s fun _ t => Declared stm.pat t := by
  refine (resolved_mapM fun d mem t first => ?_).bind fun _ t first _ => ?_
  · exact (resolved_companion (first.typed _ (typed _ (knownDests d mem)))).bind fun _ _ _ _ =>
      resolves_pure trivial
  · have typed := typed.later first
    refine (resolved_newTangents stm.pat).bind fun tans u second _ => ?_
    have typed := typed.later second
    refine (resolved_bundleNames (typed.sub known)).bind fun _ v third _ => ?_
    refine (inside v (typed.later third)).bind fun _ w _ _ => resolves_emit _ fun p mem => ?_
    exact ⟨p, List.mem_append_left _ mem, rfl⟩

/-! Programs. -/

variable {rules : Rules}

mutual

theorem resolves_stm {s : DiffState} {source : Scope} (stm : Stm) (typed : Typed s source) (accepted : stm.outline.Accepted source) :
    Resolves (Forward.stm rules stm) s fun _ t => Declared stm.pat t := by
  obtain ⟨pat, aux, e⟩ := stm
  simp only [Stm.outline, accepted_append, accepted_readsAll, after_readsAll] at accepted
  obtain ⟨⟨-, accepted⟩, -⟩ := accepted
  cases e with
  | basic op =>
    simp only [Exp.outline, BasicOp.outline, accepted_append, accepted_readsAll] at accepted
    have typed : Typed s op.names := typed.sub accepted.1.1
    cases op with
    | updateAcc acc position values => exact resolves_updateAcc _ typed
    | _ => exact resolves_basicOp rules _ typed
  | apply func args ret =>
    simp only [Exp.outline, accepted_append, accepted_readsAll] at accepted
    exact resolves_apply rules _ (typed.sub accepted.1.1)
  | branch cond yes no ret sort =>
    simp only [Exp.outline, accepted_append, accepted_readsAll, after_append, after_readsAll,
      after, Accepted] at accepted
    obtain ⟨⟨⟨⟨-, inYes, -⟩, inNo, -⟩, -⟩, -⟩ := accepted
    exact resolves_branch _ typed (resolved_body yes inYes) (resolved_body no inNo)
  | loop merge form b =>
    simp only [Exp.outline, accepted_append] at accepted
    exact resolves_loop _ typed accepted.1.1 fun _ inside => resolved_body b inside
  | withAcc inputs lam =>
    simp only [Exp.outline, accepted_append, Accepted] at accepted
    obtain ⟨inInputs, inLam, -⟩ := accepted
    refine resolves_withAcc _ typed (resolved_accInputs _ inputs inInputs)
      (resolved_lambda lam ?_)
    rwa [Scope.after_accInputOutline] at inLam
  | screma width arrays scans reduces map =>
    simp only [Exp.outline, accepted_append, accepted_readsAll, after_append, after_readsAll,
      Scope.after_combinerOutline, Scope.after_reductionOutline, Accepted] at accepted
    obtain ⟨⟨⟨reads, inScans⟩, inReduces⟩, inMap, -⟩ := accepted
    exact resolves_screma _ typed (fun x mem => reads x (List.mem_append_right _ mem))
      (resolved_combiners scans inScans) (resolved_reductions reduces inReduces)
      (resolved_lambda map inMap)
  | stream width arrays form inits lam =>
    obtain ⟨ps, b, ret⟩ := lam
    simp only [Exp.outline, accepted_append, accepted_readsAll, after_append, after_readsAll,
      Scope.after_streamForm, Accepted] at accepted
    obtain ⟨⟨reads, inForm⟩, inLam, -⟩ := accepted
    have inBody := ((accepted_lambda _ _).mp inLam).2.1
    exact resolves_stream _ typed (fun x mem => reads x (by simp [mem]))
      (fun x mem => reads x (by simp [mem])) (resolved_streamForm form inForm)
      fun _ typed => resolved_streamLambda _ typed (resolved_body b inBody)
  | hist width ops bucket arrays =>
    obtain ⟨ps, ⟨ss, result⟩, ret⟩ := bucket
    simp only [Exp.outline, accepted_append, accepted_readsAll, after_append, after_readsAll,
      Scope.after_histogramOutline, Accepted] at accepted
    obtain ⟨⟨-, inOps⟩, inBucket, reads⟩ := accepted
    have inBody := ((accepted_lambda _ _).mp inBucket).2.1
    simp only [Body.outline, accepted_append, accepted_readsAll] at inBody
    exact resolves_hist _ typed reads (resolved_histograms ops inOps) fun _ typed =>
      resolved_bucketLambda typed (opens_stms ss inBody.1) inBody.2
  | scatter width lam arrays dests =>
    obtain ⟨ps, ⟨ss, result⟩, ret⟩ := lam
    simp only [Exp.outline, accepted_append, accepted_readsAll, after_readsAll, Accepted] at accepted
    obtain ⟨-, inLam, reads⟩ := accepted
    have inBody := ((accepted_lambda _ _).mp inLam).2.1
    simp only [Body.outline, accepted_append, accepted_readsAll] at inBody
    refine resolves_scatter _ typed (fun x mem => reads x (List.mem_append_left _ mem)) ?_
      fun _ typed => resolved_scatterLambda typed (opens_stms ss inBody.1) inBody.2
    intro d mem
    exact reads _ (List.mem_append_right _
      (List.mem_flatMap.mpr ⟨d, mem, by simp [ScatterDest.names]⟩))

theorem opens_stms {source : Scope} (ss : List Stm) (accepted : (stmOutline ss).Accepted source) :
    Opens (stms rules ss) source ((stmOutline ss).after source) := by
  intro t typed
  cases ss with
  | nil => exact resolves_pure typed
  | cons stm ss =>
    simp only [stmOutline, accepted_append, after_append] at accepted ⊢
    refine (resolves_stm stm typed accepted.1).bind fun _ u later bound => ?_
    refine opens_stms ss accepted.2 u ?_
    rw [after_stm]
    exact (typed.later later).after_params bound

theorem resolved_body {source : Scope} (b : Body) (accepted : b.outline.Accepted source) :
    ResolvedIn (body rules b) source := by
  obtain ⟨ss, result⟩ := b
  simp only [Body.outline, accepted_append, accepted_readsAll] at accepted
  exact resolved_bundledBody (opens_stms ss accepted.1) accepted.2

theorem resolved_lambda {source : Scope} (l : Lambda) (accepted : l.outline.Accepted source) :
    ResolvedIn (lambda rules l) source := by
  obtain ⟨ps, b, ret⟩ := l
  exact fun _ typed => resolved_lambdaOf typed
    (resolved_body b ((accepted_lambda _ _).mp accepted).2.1)

theorem resolved_combiner {source : Scope} (c : Combiner) (accepted : c.outline.Accepted source) :
    ResolvedIn (combiner rules c) source := by
  obtain ⟨op, neutral⟩ := c
  simp only [Combiner.outline, accepted_append, accepted_readsAll, after_readsAll, Accepted]
    at accepted
  intro t typed
  refine (resolved_lambda op accepted.2.1 t typed).bind fun _ u later _ => ?_
  exact (resolved_bundleNeutral ((typed.later later).sub accepted.1)).bind fun _ _ _ _ =>
    resolves_pure trivial

theorem resolved_combiners {source : Scope} (cs : List Combiner) (accepted : (combinerOutline cs).Accepted source) :
    ResolvedIn (combiners rules cs) source := by
  intro t typed
  cases cs with
  | nil => exact resolves_pure trivial
  | cons c cs =>
    simp only [combinerOutline, accepted_append, Scope.after_combiner] at accepted
    refine (resolved_combiner c accepted.1 t typed).bind fun _ u later _ => ?_
    exact (resolved_combiners cs accepted.2 u (typed.later later)).bind fun _ _ _ _ =>
      resolves_pure trivial

theorem resolved_reductions {source : Scope} (rs : List Reduction)
    (accepted : (reductionOutline rs).Accepted source) :
    ResolvedIn (reductions rules rs) source := by
  intro t typed
  cases rs with
  | nil => exact resolves_pure trivial
  | cons r rs =>
    obtain ⟨commutative, c⟩ := r
    simp only [reductionOutline, accepted_append, Scope.after_combiner] at accepted
    refine (resolved_combiner c accepted.1 t typed).bind fun _ u later _ => ?_
    exact (resolved_reductions rs accepted.2 u (typed.later later)).bind fun _ _ _ _ =>
      resolves_pure trivial

theorem resolved_streamForm {source : Scope} (form : StreamForm) (accepted : form.outline.Accepted source) :
    ResolvedIn (streamForm rules form) source := by
  intro t typed
  cases form with
  | sequential => exact resolves_pure trivial
  | parallel order commutative op =>
    exact (resolved_lambda op accepted.1 t typed).bind fun _ _ _ _ => resolves_pure trivial

theorem resolved_histograms {source : Scope} (hs : List Histogram) (accepted : (histogramOutline hs).Accepted source) :
    ResolvedIn (histograms rules hs) source := by
  intro t typed
  cases hs with
  | nil => exact resolves_pure trivial
  | cons h hs =>
    obtain ⟨shape, race, dests, ⟨op, neutral⟩⟩ := h
    simp only [histogramOutline, Combiner.outline, accepted_append, accepted_readsAll,
      after_append, after_readsAll, after, Accepted] at accepted
    obtain ⟨⟨reads, inNeutral, inOp, -⟩, inRest⟩ := accepted
    have knownDests : ∀ x ∈ dests, x ∈ source := fun x mem => reads x (List.mem_append_right _ mem)
    refine (resolved_bundleNames (typed.sub knownDests)).bind fun _ u first _ => ?_
    have typed := typed.later first
    refine (resolved_bundleNeutral (typed.sub inNeutral)).bind fun _ v second _ => ?_
    have typed := typed.later second
    refine (resolved_lambda op inOp v typed).bind fun _ w third _ => ?_
    exact (resolved_histograms hs inRest w (typed.later third)).bind fun _ _ _ _ =>
      resolves_pure trivial

theorem resolved_accInputs {source : Scope} (stm : Stm) (inputs : List AccInput)
    (accepted : (accInputOutline inputs).Accepted source) :
    ResolvedIn (accInputs rules stm inputs) source := by
  intro t typed
  cases inputs with
  | nil => exact resolves_pure trivial
  | cons input rest =>
    obtain ⟨shape, arrays, combine⟩ := input
    cases combine with
    | none =>
      simp only [accInputOutline, accepted_append, accepted_readsAll, after_readsAll] at accepted
      have known : ∀ x ∈ arrays, x ∈ source := fun x mem =>
        accepted.1 x (List.mem_append_right _ mem)
      refine (resolved_accArrays (typed.sub known)).bind fun _ u first _ => ?_
      exact (resolved_accInputs stm rest accepted.2 u (typed.later first)).bind fun _ _ _ _ =>
        resolves_pure trivial
    | some c =>
      obtain ⟨⟨ps, ⟨ss, result⟩, ret⟩, neutral⟩ := c
      simp only [accInputOutline, Combiner.outline, accepted_append, accepted_readsAll,
        after_append, after_readsAll, after, Accepted] at accepted
      obtain ⟨⟨reads, inNeutral, inOp, -⟩, inRest⟩ := accepted
      have known : ∀ x ∈ arrays, x ∈ source := fun x mem => reads x (List.mem_append_right _ mem)
      have inBody := ((accepted_lambda _ _).mp inOp).2.1
      simp only [Body.outline, accepted_append, accepted_readsAll] at inBody
      refine (resolved_accArrays (typed.sub known)).bind fun _ u first _ => ?_
      have typed := typed.later first
      refine (resolved_accOperator stm typed (opens_stms ss inBody.1) inBody.2).bind
        fun _ v second _ => ?_
      have typed := typed.later second
      refine (resolved_zeroOperands (typed.sub inNeutral)).bind fun _ w third _ => ?_
      exact (resolved_accInputs stm rest inRest w (typed.later third)).bind fun _ _ _ _ =>
        resolves_pure trivial

end

/-- The results are computed where all names of the body have types. -/
theorem resolved_top {l : Lambda} (accepted : l.outline.Accepted []) (ret : List Ty)
    {result : Diff (List Operand)}
    (results : ∀ t, Typed t (operandNames l.body.result) → Resolved result t) (s : DiffState) :
    Resolved (top rules l ret result) s := by
  obtain ⟨ps, ⟨ss, xs⟩, _⟩ := l
  obtain ⟨-, inBody, -⟩ := (accepted_lambda _ _).mp accepted
  simp only [Body.outline, accepted_append, accepted_readsAll] at inBody
  refine (resolves_build (Build.retains_declareParams ps)).bind fun _ t first declared => ?_
  have typed : Typed t ((paramOutline ps).after []) := by
    refine Typed.after_params (show Typed t [] by simp [Typed]) fun p mem => ?_
    rw [declared.2]
    exact Build.typed_declareParams ps s.builder p mem
  refine (resolves_bundleBinders ps).bind fun _ u second _ => ?_
  refine (resolved_bodyOf fun v third => ?_).bind fun _ _ _ _ => resolves_pure trivial
  exact (opens_stms ss inBody.1 v (typed.later (second.trans third))).bind fun _ w _ inside =>
    results w (inside.sub inBody.2)

end Forward

end Cotangent
