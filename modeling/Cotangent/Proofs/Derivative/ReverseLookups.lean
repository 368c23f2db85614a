import Cotangent.Proofs.Derivative.ForwardLookups
/-!
Reverse differentiation asks for the types of names in scope as well, for which branches need more: a
branch hands on the adjoints of whatever its bodies mention, in a type or elsewhere. With the names in
types in scope too, no mode of differentiation ever misses a type.
-/
namespace Cotangent

open Outline Diff

variable {s : DiffState} {scope : Scope}

namespace Build

theorem retains_renamed {body : Body} {b : Builder}
    (next_le : b.supply.next ≤ (body.rename b.supply).2.next) :
    b.Later (renamed body b).2 :=
  ⟨fun _ known => known, next_le⟩

end Build

namespace Builder

theorem later_emit (ss : List Stm) (b : Builder) : b.Later (b.emit ss) where
  typed _ known := typed_of_declared (.inr known)
  next_le := Nat.le_refl _

end Builder

namespace Reverse

/-! Contributions. -/

theorem resolved_addValues (ty : Ty) (x y : Name) : Resolved (addValues ty x y) s := by
  unfold addValues
  split
  · exact resolved_build (Build.retains_sum _ _ _ _ _)
  · exact resolved_build (Build.retains_sum _ _ _ _ _)
  · exact resolves_throw (by simp)
  · exact resolves_throw (by simp)

theorem resolved_contribute {x : Name} (typed : s.builder.Typed x) (d : Name) :
    Resolved (contribute x d) s := by
  refine (resolves_companion? x).bind ?_
  rintro found _ - ⟨-, rfl⟩
  cases found with
  | none => exact resolved_setCompanion x d
  | some old =>
    refine (resolves_typeOf typed).bind fun ty t _ _ => ?_
    exact (resolved_addValues ty old d).bind fun _ _ _ _ => resolved_setCompanion _ _

theorem resolved_contributeTo {x : Operand} (typed : Typed s x.names) (d : Name) :
    Resolved (contributeTo x d) s := by
  cases x with
  | const v => exact resolves_pure trivial
  | var x => exact resolved_contribute (typed x (by simp [Operand.names])) d

theorem resolved_contributeFormula {x : Operand} (typed : Typed s x.names) (f : Formula) :
    Resolved (contributeFormula x f) s := by
  cases x with
  | const v => exact resolves_pure trivial
  | var x =>
    refine (resolved_build (Build.retains_letFormula f)).bind fun d t later _ => ?_
    exact resolved_contribute (later.typed x (typed x (by simp [Operand.names]))) d

theorem resolved_seed {results : List Operand} (typed : Typed s (operandNames results))
    (adjoints : List Name) : Resolved (seed results adjoints) s :=
  resolved_forM fun _ mem _ later =>
    resolved_contributeTo ((typed.later later).operand (List.of_mem_zip mem).1) _

theorem resolved_adjoints {xs : List Name} (typed : Typed s xs) : Resolved (adjoints xs) s :=
  resolved_mapM fun x mem _ later =>
    (resolved_companion (later.typed x (typed x mem))).bind fun _ _ _ _ => resolves_pure trivial

/-! Statements without bodies. -/

theorem resolved_comparison (k : ScalarType) (b : Name) {x y : Operand} (left : Typed s x.names)
    (right : Typed s y.names) : Resolved (comparison k b x y) s := by
  have both (d : Name) (t : DiffState) (later : s.builder.Later t.builder) :
      Resolved (do contributeTo x d; contributeTo y d) t :=
    (resolved_contributeTo (left.later later) d).bind fun _ u further _ =>
      resolved_contributeTo ((right.later later).later further) d
  have bound (ty : Ty) (e : Exp) : Resolved (do
      let d ← build (Build.letExp ty e)
      contributeTo x d
      contributeTo y d) s :=
    (resolved_build (Build.retains_letExp ty e)).bind fun d t later _ => both d t later
  cases k with
  | float w => exact bound _ _
  | int w => exact bound _ _
  | bool => exact both b s (.refl _)
  | cert => exact resolves_pure trivial

/-- The adjoint of what a statement binds, and what is done with it. -/
theorem resolved_adjoint {stm : Stm} (pattern : ∀ p ∈ stm.pat, s.builder.Typed p.name)
    {next : Name → Diff Unit}
    (rest : ∀ adjoint t, s.builder.Later t.builder → Resolved (next adjoint) t) :
    Resolved (do next (← companion (← single .reverse stm).name)) s := by
  refine (resolves_single .reverse stm).bind ?_
  rintro p _ - ⟨mem, rfl⟩
  exact (resolved_companion (pattern p mem)).bind fun adjoint t later _ => rest adjoint t later

theorem resolved_basicOp (rules : Rules) {stm : Stm} {op : BasicOp}
    (pattern : ∀ p ∈ stm.pat, s.builder.Typed p.name) (typed : Typed s op.names) :
    Resolved (basicOp rules stm op) s := by
  cases op with
  | operand x =>
    cases x with
    | const v => exact resolves_pure trivial
    | var x =>
      exact resolved_adjoint pattern fun adjoint t later =>
        resolved_contributeTo (x := .var x) (typed.later later) adjoint
  | assert cond msg => exact resolves_pure trivial
  | compare op x y =>
    have both : Typed s (operandNames [x, y]) := typed
    refine (resolves_single .reverse stm).bind ?_
    rintro p _ - ⟨-, rfl⟩
    exact resolved_comparison op.ty p.name (both.operand (by simp)) (both.operand (by simp))
  | convert op x =>
    refine resolved_adjoint pattern fun adjoint t later => ?_
    cases op with
    | floatToFloat source target => exact resolved_contributeFormula (typed.later later) _
    | _ => exact resolves_pure trivial
  | unary op x =>
    exact resolved_adjoint pattern fun adjoint t later =>
      resolved_contributeFormula (typed.later later) _
  | binary op x y =>
    have both : Typed s (operandNames [x, y]) := typed
    have left : Typed s x.names := both.operand (by simp)
    have right : Typed s y.names := both.operand (by simp)
    refine resolved_adjoint pattern fun adjoint t later => ?_
    refine (resolved_contributeFormula (left.later later) _).bind fun _ u further _ => ?_
    exact resolved_contributeFormula ((right.later later).later further) _
  | _ => exact resolved_adjoint pattern fun _ _ _ => resolves_throw (by simp)

theorem resolved_apply (rules : Rules) {stm : Stm} {func : String} {args : List Operand}
    (pattern : ∀ p ∈ stm.pat, s.builder.Typed p.name) (typed : Typed s (operandNames args)) :
    Resolved (apply rules stm func args) s := by
  refine (resolved_signature rules func).bind ?_
  rintro ⟨kinds, ret⟩ t first -
  refine (resolved_partials rules func kinds args).bind fun ds u second _ => ?_
  have later := first.trans second
  refine resolved_adjoint (fun p mem => later.typed _ (pattern p mem)) fun adjoint v further => ?_
  exact resolved_forM fun a mem w last => resolved_contributeFormula
    ((((typed.later later).later further).later last).operand (List.of_mem_zip mem).1) _

/-! Branches. -/

/-- Going back over a statement asks for the types of what is in scope where it is bound. -/
def Asks (back : Stm → Diff Unit) : Prop :=
  ∀ (stm : Stm) (s : DiffState) (scope : Scope), Bound stm scope →
    scope.Below s.builder.supply.next → Typed s scope → Resolved (back stm) s

theorem resolves_emit (ss : List Stm) :
    Resolves (ss.forM fun stm => build (Build.add stm)) s
      fun _ t => t = { s with builder := s.builder.emit ss } := by
  have gives : outcome (ss.forM fun stm => build (Build.add stm)) s =
      (.ok (), { s with builder := s.builder.emit ss }) := (gives_emit ss s _ ()).mpr rfl
  refine ⟨gives ▸ s.builder.later_emit ss, fun _ _ => ?_, fun x => ?_⟩
  · rw [gives]
  · rw [gives]
    rintro ⟨⟩

/-- A body that is emitted as it is, followed by the sweep over it. -/
theorem resolved_sweepBody {back : Stm → Diff Unit} (asks : Asks back) {ss : List Stm}
    {result : List Operand} {seeds xs : List Name} (closed : (stmOutline ss).Closed scope)
    (below : Scope.Below ((stmOutline ss).after scope) s.builder.supply.next)
    (reads : ∀ y ∈ operandNames result, y ∈ (stmOutline ss).after scope)
    (known : ∀ x ∈ xs, x ∈ (stmOutline ss).after scope) (typed : Typed s scope) :
    Resolved (bodyOf (sweep back ss (seed result seeds)) (adjoints xs)) s := by
  refine resolved_bodyOf fun u start => ?_
  have bound : ∀ stm ∈ ss, Bound stm ((stmOutline ss).after scope) := fun stm mem =>
    ⟨closed_of_mem closed mem, fun p inPat => (mem_after_stmOutline ss scope _).mpr
      (.inr ⟨p, List.mem_flatMap.mpr ⟨stm, mem, inPat⟩, rfl⟩)⟩
  refine Resolves.bind (P := fun _ v => Typed v ((stmOutline ss).after scope)) ?_
    fun _ v _ inside => resolved_adjoints (inside.sub known)
  refine (resolves_emit ss).bind ?_
  rintro _ _ emitted rfl
  have here : Typed { u with builder := u.builder.emit ss } ((stmOutline ss).after scope) := by
    intro x inAfter
    refine Builder.typed_of_declared ?_
    rcases (mem_after_stmOutline ss scope x).mp inAfter with outer | inPattern
    · exact .inr (start.typed x (typed x outer))
    · exact .inl inPattern
  refine (resolved_seed (here.sub reads) seeds).bind fun _ v seeded _ => ?_
  refine Resolves.mono (resolved_forM fun stm mem w further => ?_) fun _ w further _ =>
    here.later (seeded.trans further)
  exact asks stm w _ (bound stm (List.mem_reverse.mp mem))
    (below.mono (start.trans (emitted.trans (seeded.trans further))).next_le)
    (here.later (seeded.trans further))

theorem resolved_branchBody {back : Stm → Diff Unit} (asks : Asks back) {body : Body}
    {inner : Scope} (closed : body.outline.Closed inner) (inScope : ∀ x ∈ inner, x ∈ scope)
    (below : scope.Below s.builder.supply.next) (typed : Typed s scope) (seeds : List Name)
    {free : List Name} (known : ∀ x ∈ free, x ∈ scope) :
    Resolved (branchBody back seeds free body) s := by
  obtain ⟨renamedClosed, bound, -, next_le⟩ :=
    Body.closed_rename (s := s.builder.supply) closed inScope below
  rw [body_outline, closed_append, closed_readsAll] at renamedClosed
  rw [body_outline, after_append, after_readsAll] at bound
  refine Resolves.bind (P := fun b u => b = (body.rename s.builder.supply).1 ∧
      u = { s with builder := { s.builder with supply := (body.rename s.builder.supply).2 } })
    ⟨Build.retains_renamed next_le, ?_, fun _ => ?_⟩ ?_
  · rintro _ ⟨⟩
    exact ⟨rfl, rfl⟩
  · rintro ⟨⟩
  rintro _ _ - ⟨rfl, rfl⟩
  exact resolved_isolated (resolved_sweepBody asks renamedClosed.1 bound renamedClosed.2
    (fun x mem => mem_after _ (known x mem)) typed)

theorem resolves_typed {xs : List Name} (typed : Typed s xs) :
    Resolves (xs.mapM fun x => return Param.mk x (← typeOf x)) s
      fun ps _ => ∀ p ∈ ps, p.name ∈ xs := by
  refine (resolves_mapM (R := fun (x : Name) (p : Param) _ => p.name = x) (fun _ _ _ _ _ same => same)
    fun x mem t later => ?_).mono fun ps t _ paired p mem => ?_
  · exact (resolves_typeOf (later.typed x (typed x mem))).bind fun _ _ _ _ => resolves_pure rfl
  · obtain ⟨i, here, rfl⟩ := List.getElem_of_mem mem
    have inside : i < xs.length := paired.length_eq.symm ▸ here
    exact paired.get inside here ▸ List.getElem_mem inside

theorem resolved_branch {back : Stm → Diff Unit} (asks : Asks back) {pat : List Param}
    {aux : Annotations} {cond : Operand} {yes no : Body} {ret : List Ty} {sort sort' : BranchSort}
    (bound : Bound ⟨pat, aux, .branch cond yes no ret sort⟩ scope)
    (below : scope.Below s.builder.supply.next) (typed : Typed s scope) :
    Resolved (branch back ⟨pat, aux, .branch cond yes no ret sort⟩ cond yes no sort') s := by
  obtain ⟨inner, inScope, closed⟩ := bound.closed
  obtain ⟨-, closedExp, -⟩ := (closed_stm _ _).mp closed
  simp only [Exp.outline, closed_append, after_append, closed_readsAll, after_readsAll,
    closed_block, closed_mentionsAll, after_mentionsAll, closed_count, closed_done, after]
    at closedExp
  obtain ⟨⟨⟨⟨-, closedYes, -⟩, closedNo, -⟩, -⟩, -⟩ := closedExp
  have freeInScope : ∀ x ∈ freeNames yes no, x ∈ scope := fun x mem =>
    inScope x (mem_freeNames closedYes closedNo x mem)
  refine (resolved_mapM fun p mem t later =>
    resolved_companion (later.typed _ (typed _ (bound.pattern p mem)))).bind fun seeds t first _ => ?_
  refine (resolves_typed ((typed.later first).sub freeInScope)).bind fun params u second inFree => ?_
  have known : ∀ p ∈ params.filter fun p => !p.ty.isAcc, p.name ∈ scope := fun p mem =>
    freeInScope _ (inFree p (List.mem_filter.mp mem).1)
  dsimp only
  generalize (params.filter fun p => !p.ty.isAcc) = free at known
  cases isEmpty : free.isEmpty with
  | true => exact resolves_pure trivial
  | false =>
    have names : ∀ x ∈ free.map (·.name), x ∈ scope := by simpa using known
    have reached := first.trans second
    refine (resolved_branchBody asks closedYes inScope (below.mono reached.next_le)
      (typed.later reached) seeds names).bind fun b v third _ => ?_
    have reached := reached.trans third
    refine (resolved_branchBody asks closedNo inScope (below.mono reached.next_le)
      (typed.later reached) seeds names).bind fun c w fourth _ => ?_
    have reached := reached.trans fourth
    refine (resolved_mapM fun p _ _ _ => (resolved_build Build.retains_fresh).bind
      fun _ _ _ _ => resolves_pure trivial).bind fun pat' x fifth _ => ?_
    refine (resolved_build (Build.retains_add _)).bind fun _ y sixth _ => ?_
    have reached := (reached.trans fifth).trans sixth
    refine resolved_forM fun r mem z last => resolved_contribute ?_ r.2.name
    exact (reached.trans last).typed _ (typed _ (known _ (List.of_mem_zip mem).1))

theorem asks_stm (rules : Rules) (depth : Nat) : Asks (stm rules depth) := by
  induction depth with
  | zero =>
    rintro ⟨pat, aux, e⟩ s scope bound below typed
    have pattern : ∀ p ∈ pat, s.builder.Typed p.name := fun p mem => typed _ (bound.pattern p mem)
    cases e with
    | basic op => exact resolved_basicOp rules pattern (typed.sub bound.basic)
    | apply func args ret => exact resolved_apply rules pattern (typed.sub bound.apply)
    | _ => exact resolves_throw (by simp)
  | succ depth ih =>
    rintro ⟨pat, aux, e⟩ s scope bound below typed
    have pattern : ∀ p ∈ pat, s.builder.Typed p.name := fun p mem => typed _ (bound.pattern p mem)
    cases e with
    | basic op => exact resolved_basicOp rules pattern (typed.sub bound.basic)
    | apply func args ret => exact resolved_apply rules pattern (typed.sub bound.apply)
    | branch cond yes no ret sort => exact resolved_branch ih bound below typed
    | _ => exact resolves_throw (by simp)

/-- The parameters and the seeds have types before the sweep begins. -/
theorem resolved_top (rules : Rules) {l : Lambda} (closed : l.outline.Closed []) {s : DiffState}
    (below : Scope.Below l.outline.binders s.builder.supply.next) : Resolved (top rules l) s := by
  obtain ⟨-, body, -, -⟩ := (closed_lambda l []).mp closed
  rw [body_outline, closed_append, closed_readsAll] at body
  refine (resolves_build (Build.retains_declareParams l.params)).bind fun _ t first declared => ?_
  have typed : Typed t ((paramOutline l.params).after []) := by
    refine Typed.after_params (show Typed t [] by simp [Typed]) fun p mem => ?_
    rw [declared.2]
    exact Build.typed_declareParams l.params s.builder p mem
  refine (resolved_build (Build.retains_mapM Build.retains_param l.ret)).bind
    fun seeds u second _ => ?_
  refine (resolved_sweepBody (asks_stm rules l.body.branchDepth) body.1 ?_ body.2 ?_
    (typed.later second)).bind fun _ _ _ _ => resolves_pure trivial
  · intro x known
    refine Nat.lt_of_lt_of_le (below x ?_) (first.trans second).next_le
    rw [lambda_binders, body_outline, binders_append]
    rcases (mem_after_stmOutline ..).mp known with known | ⟨p, mem, rfl⟩
    · rcases (mem_after_paramOutline ..).mp known with known | ⟨p, mem, rfl⟩
      · simp at known
      · simp [(mem_binders_paramOutline l.params _).mpr ⟨p, mem, rfl⟩]
    · simp [pattern_binder p mem]
  · exact fun x mem => mem_after _ ((mem_after_paramOutline ..).mpr (.inr (List.mem_map.mp mem)))

end Reverse

/-! Whole lambdas. -/

theorem Diff.Resolved.start {α : Type} {act : Diff α} {s : Supply}
    (resolved : Resolved act ⟨.ofSupply s, .empty⟩) (x : UnknownName) :
    (act.start s).1 ≠ .error (.build x) :=
  resolved.resolved x

/-- Whatever a checked program consists of, neither forward mode misses a type; nor does reverse mode
    if the names in types are in scope. They may fail, but for other reasons. -/
theorem differentiation_finds_types (l : Lambda) (s : Supply) (valid : l.validate = .ok ()) :
    (∀ x, (l.forward .standard s).1 ≠ .error (.build x)) ∧
      (∀ x, (l.forwardBundled .standard s).1 ≠ .error (.build x)) ∧
      (l.TypesInScope → ∀ x, (l.reverse .standard s).1 ≠ .error (.build x)) := by
  have accepted := (validate_iff l).mp valid
  refine ⟨?_, ?_, fun typesInScope => ?_⟩
  · exact Resolved.start <| Forward.resolved_top accepted _
      (fun _ typed => Forward.resolved_tangents typed) _
  · exact Resolved.start <| Forward.resolved_top accepted _
      (fun _ typed => Forward.resolved_bundleOperands typed) _
  · exact Resolved.start <| Reverse.resolved_top _ ⟨accepted, typesInScope⟩
      fun _ binder => binder_lt s l binder

/-- Copies rows under a condition. Nothing but the type of the copy speaks of their number, and the
    accumulator region after the branch cannot be differentiated backwards. -/
def copyAndCount : Lambda :=
  let number : Ty := .scalar (.int .i64)
  let rows : Ty := .array (.float .f64) [.var ⟨0⟩] false
  let counts : Ty := .array (.int .i64) [.var ⟨0⟩] false
  let handle (x : Nat) : Param := ⟨⟨x⟩, .acc ⟨x⟩ [.var ⟨0⟩] [number] false⟩
  let region : Lambda := ⟨[handle 6],
    ⟨[⟨[handle 7], .none, .basic (.updateAcc ⟨6⟩ [.const (.int .i64 0)] [.var ⟨0⟩])⟩], [.var ⟨7⟩]⟩,
    [(handle 7).ty]⟩
  ⟨[⟨⟨0⟩, number⟩, ⟨⟨1⟩, rows⟩, ⟨⟨2⟩, counts⟩, ⟨⟨3⟩, .scalar .bool⟩],
    ⟨[⟨[⟨⟨5⟩, rows⟩], .none, .branch (.var ⟨3⟩)
        ⟨[⟨[⟨⟨4⟩, rows⟩], .none, .basic (.operand (.var ⟨1⟩))⟩], [.var ⟨4⟩]⟩ ⟨[], [.var ⟨1⟩]⟩
        [rows] .normal⟩,
      ⟨[⟨⟨8⟩, counts⟩], .none, .withAcc [⟨[.var ⟨0⟩], [⟨2⟩], none⟩] region⟩],
      [.var ⟨5⟩, .var ⟨8⟩]⟩, [rows, counts]⟩

theorem differentiation_of_copyAndCount :
    (∀ x, (copyAndCount.forward .standard ⟨0⟩).1 ≠ .error (.build x)) ∧
      (∀ x, (copyAndCount.forwardBundled .standard ⟨0⟩).1 ≠ .error (.build x)) ∧
      ∀ x, (copyAndCount.reverse .standard ⟨0⟩).1 ≠ .error (.build x) := by
  have typesInScope : copyAndCount.TypesInScope := by decide
  obtain ⟨forward, bundled, reverse⟩ := differentiation_finds_types copyAndCount ⟨0⟩ (by decide)
  exact ⟨forward, bundled, reverse typesInScope⟩

end Cotangent
