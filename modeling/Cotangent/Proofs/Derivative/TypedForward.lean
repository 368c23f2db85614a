import Cotangent.Proofs.Derivative.ScalarPasses
import Cotangent.Proofs.Derivative.TypedSteps
/-!
Forward differentiation of well-typed code. The source is typed under the table of everything emitted so
far, tangents included, and each statement leads to a table that has its pattern as well. A tangent has
the type of its name.
-/
namespace Cotangent

open Outline NameTable Diff

namespace Forward

variable {s t : DiffState} {types later : NameTable Ty} {k : ScalarType} {allowed : Name → Prop}
  {bound : Nat} {scope : Scope}

/-! Tangents of operands. -/

/-- The operand has the type, which is one of values. -/
abbrev HasValue (types : NameTable Ty) (t : Ty) (x : Operand) : Prop := t.IsValue ∧ x.HasType types t

theorem hasValue_of_typed {ts : List Ty} {xs : List Operand} (values : ∀ t ∈ ts, t.IsValue)
    (typed : List.Forall₂ (Operand.HasType types) ts xs) : List.Forall₂ (HasValue types) ts xs :=
  (List.forall₂_and_left ts xs).mpr ⟨values, typed⟩

theorem HasValue.mono {t : Ty} {x : Operand} (le : types ≤ later) (typed : HasValue types t x) :
    HasValue later t x :=
  ⟨typed.1, typed.2.mono le⟩

theorem delivers_tangent (consistent : Consistent allowed types s) {t : Ty} {x : Operand}
    (typed : HasValue types t x) :
    Delivers allowed (tangent x) s types fun y later => y.HasType later t := by
  obtain ⟨⟨k, rfl, -⟩, typed⟩ := typed
  cases x with
  | const v =>
    obtain rfl := Ty.scalar.inj typed
    exact delivers_pure consistent (congrArg Ty.scalar (Scalar.ty_zero v.ty).symm)
  | var x =>
    refine (delivers_companion consistent typed).bind fun c t later _ consistent bound => ?_
    exact delivers_pure consistent bound

theorem delivers_tangents (consistent : Consistent allowed types s) {ts : List Ty} {xs : List Operand}
    (values : ∀ t ∈ ts, t.IsValue) (typed : List.Forall₂ (Operand.HasType types) ts xs) :
    Delivers allowed (tangents xs) s types fun ys later =>
      List.Forall₂ (Operand.HasType later) ts ys :=
  delivers_mapM HasValue Operand.HasType (fun _ _ _ _ => HasValue.mono)
    (fun _ _ _ _ le typed => typed.mono le)
    (fun _ _ _ _ consistent typed => delivers_tangent consistent typed) consistent
    (hasValue_of_typed values typed)

theorem gives_isAccOperand_typed (consistent : Consistent allowed types s) {t : Ty} {x : Operand}
    (typed : HasValue types t x) : Gives (isAccOperand x) s false s := by
  cases x with
  | const v => exact .pure false s
  | var x =>
    have isScalar := typed.1.isScalar.isAcc
    exact (consistent.gives_typeOf typed.2).bind (isScalar ▸ .pure _ s)

theorem typed_pairs {ts : List Ty} {groups : List (List Operand)}
    (each : List.Forall₂ (fun t group => List.Forall₂ (Operand.HasType types) [t, t] group) ts groups) :
    List.Forall₂ (Operand.HasType types) (interleave ts ts) groups.flatten := by
  induction each with
  | nil => exact .nil
  | cons here _ ih =>
    obtain ⟨x, _, first, rest, rfl⟩ := List.forall₂_cons_left_iff.mp here
    obtain ⟨y, _, second, last, rfl⟩ := List.forall₂_cons_left_iff.mp rest
    obtain rfl := List.forall₂_nil_left_iff.mp last
    exact .cons first (.cons second ih)

theorem delivers_bundleOperands (consistent : Consistent allowed types s) {ts : List Ty}
    {xs : List Operand} (values : ∀ t ∈ ts, t.IsValue)
    (typed : List.Forall₂ (Operand.HasType types) ts xs) :
    Delivers allowed (bundleOperands xs) s types fun ys later =>
      List.Forall₂ (Operand.HasType later) (interleave ts ts) ys := by
  have pair (t : Ty) (x : Operand) (s : DiffState) (later : NameTable Ty)
      (consistent : Consistent allowed later s) (typed : HasValue later t x) :
      Delivers allowed (do if ← isAccOperand x then return [x] else return [x, ← tangent x]) s later
        fun group wider => List.Forall₂ (Operand.HasType wider) [t, t] group := by
    refine .after (gives_isAccOperand_typed consistent typed) ?_
    refine (delivers_tangent consistent typed).bind fun y u wider adds consistent here => ?_
    exact delivers_pure consistent (.cons (typed.2.mono adds.le) (.cons here .nil))
  have groups := delivers_mapM HasValue
    (fun later t group => List.Forall₂ (Operand.HasType later) [t, t] group)
    (fun _ _ _ _ => HasValue.mono) (fun _ _ _ _ le has => operands_mono has le) pair consistent
    (hasValue_of_typed values typed)
  exact groups.bind fun _ _ _ _ consistent each => delivers_pure consistent (typed_pairs each)

/-! Statements. -/

/-- A name of the source scope, or one that the source does not use. -/
abbrev Emitted (bound : Nat) (scope : Scope) (x : Name) : Prop := x ∈ scope ∨ bound ≤ x.id

theorem emitted_after {x : Name} (ps : List Param) (emitted : Emitted bound scope x) :
    Emitted bound ((paramOutline ps).after scope) x :=
  emitted.imp_left fun known => mem_after _ known

/-- What a pattern of the source has to satisfy so that it may be bound next. -/
structure Bindable (bound : Nat) (scope : Scope) (s : DiffState) (ps : List Param) : Prop where
  accepted : (paramOutline ps).Accepted scope
  small : ∀ p ∈ ps, p.name.id < bound
  value : ∀ p ∈ ps, p.ty.IsValue
  reserved : bound ≤ s.builder.supply.next

theorem Bindable.mono {ps : List Param} (bindable : Bindable bound scope s ps)
    (next_le : s.builder.supply.next ≤ t.builder.supply.next) : Bindable bound scope t ps :=
  { bindable with reserved := Nat.le_trans bindable.reserved next_le }

/-- The names of a source pattern are new to the table. -/
theorem Bindable.new {ps : List Param} (bindable : Bindable bound scope s ps)
    (knows : s.builder.Knows (Emitted bound scope) types) :
    s.builder.New (Emitted bound ((paramOutline ps).after scope)) types ps where
  absent p mem := by
    cases found : types.find? p.name with
    | none => rfl
    | some t =>
      rcases knows.named p.name t found with known | large
      · exact absurd known (Builder.not_mem_of_params bindable.accepted mem)
      · exact absurd (bindable.small p mem) (Nat.not_lt.mpr large)
  drawn p mem := Nat.lt_of_lt_of_le (bindable.small p mem) bindable.reserved
  named p mem := .inl ((mem_after_paramOutline ..).mpr (.inr ⟨p, mem, rfl⟩))
  value := bindable.value

/-- A source statement is emitted as it is. -/
theorem delivers_source {ps : List Param} {aux : Annotations} {e : Exp}
    (bindable : Bindable bound scope s ps) (consistent : Consistent (Emitted bound scope) types s)
    (typed : (Stm.mk ps aux e).WellTyped types) :
    Delivers (Emitted bound ((paramOutline ps).after scope)) (build (Build.add ⟨ps, aux, e⟩)) s types
      fun _ later => later = types.declare ps := by
  obtain ⟨adds, knows⟩ := consistent.knows.add (fun _ => emitted_after ps) typed
    (bindable.new consistent.knows)
  exact delivers_build consistent adds knows rfl

/-! Tangents of binders. -/

/-- Drawing tangents keeps the table known. -/
theorem knows_withTangents (knows : s.builder.Knows allowed types) (ps : List Param) :
    (withTangents s ps).builder.Knows allowed types :=
  knows.draw (le_trans (le_declare fun _ mem => knows.absent (bounds_paramsFrom mem).1)
    (declare_mono knows.typed _)) (Nat.le_add_right _ _)

/-- The companions that were recorded with the tangents have the types of their names as soon as both
    are bound. -/
theorem paired_withTangents (consistent : Consistent allowed types s) {ps : List Param}
    (le : types ≤ later) (sources : ∀ p ∈ ps, later.find? p.name = some p.ty)
    (tangents : ∀ q ∈ tangentsOf s ps, later.find? q.name = some q.ty) :
    ∀ x c, (withTangents s ps).companions.find? x = some c →
      ∃ t, later.find? x = some t ∧ later.find? c = some t := by
  intro x c found
  let pairs := (ps.zip (tangentsOf s ps)).map fun p => (p.1.name, p.2.name)
  have found : (s.companions.insertAll pairs).find? x = some c := found
  by_cases bound : x ∈ pairs.map (·.1)
  · obtain ⟨d, mem, here⟩ := find_insertAll_of_mem s.companions pairs x bound
    obtain rfl := Option.some.inj (here.symm.trans found)
    obtain ⟨r, inZip, same⟩ := List.mem_map.mp mem
    obtain ⟨rfl, rfl⟩ := Prod.mk.inj same
    obtain ⟨source, tangent⟩ := List.of_mem_zip (show (r.1, r.2) ∈ _ from inZip)
    have sameType : r.2.ty = r.1.ty := ty_of_mem_zip (types_paramsFrom _ _) inZip
    exact ⟨r.1.ty, sources r.1 source, sameType ▸ tangents r.2 tangent⟩
  · have absent : ∀ p ∈ pairs, p.1 ≠ x := fun p mem same => bound (same ▸ List.mem_map_of_mem mem)
    rw [find_insertAll_of_not_mem _ _ _ absent] at found
    obtain ⟨t, name, companion⟩ := consistent.paired x c found
    exact ⟨t, le x t name, le c t companion⟩

/-- The tangent of a name is bound after whatever its expression needs. -/
theorem delivers_bindTangent (consistent : Consistent allowed types s) {p : Param}
    (isScalar : p.ty = .scalar k) (known : types.find? p.name = some (.scalar k)) {act : Build Exp}
    (yields : Builder.Yields act types k) (aux : Annotations) :
    Delivers allowed (do
      let tan ← newTangent p
      build do Build.add ⟨[tan], aux, ← act⟩) s types fun _ _ => True := by
  obtain ⟨x, t⟩ := p
  obtain rfl : t = .scalar k := isScalar
  let p : Param := ⟨x, .scalar k⟩
  obtain ⟨later, adds, knows, bound⟩ := yields.bound (c := (withTangents s [p]).builder)
    (consistent.numeric known) consistent.knows rfl rfl (knows_withTangents consistent.knows [p]).typed aux
  refine ⟨(), _, later, (gives_newTangent (p := p) rfl s).bind (.build _ _), adds, ⟨knows, ?_⟩, trivial⟩
  refine paired_withTangents consistent adds.le ?_ ?_
  · simpa [p] using adds.le x _ known
  · simpa [p, tangentsOf, paramsFrom] using bound

/-! Basic operations and calls. -/

theorem delivers_tangentExp (consistent : Consistent allowed types s) (stm : Stm) {op : BasicOp}
    (typed : op.HasType types (.scalar k)) (varies : isConstant op = false) (numeric : k ≠ .cert) :
    Delivers allowed (tangentExp .standard stm op) s types fun act later =>
      Builder.Yields act later k := by
  have value {k : ScalarType} (numeric : k ≠ .cert) {x : Operand}
      (typed : x.HasType types (.scalar k)) : HasValue types (.scalar k) x :=
    ⟨isValue_scalar.mpr numeric, typed⟩
  cases op with
  | operand x =>
    refine (delivers_tangent consistent (value numeric typed)).bind fun y t later _ consistent here => ?_
    exact delivers_pure consistent (Builder.yields_pure ⟨_, rfl, here⟩)
  | unary op x =>
    obtain ⟨same, typed⟩ := typed
    obtain rfl := Ty.scalar.inj same
    refine (delivers_tangent consistent (value numeric typed)).bind
      fun dx t later adds consistent tangent => delivers_pure consistent ?_
    have partialOf := hasKind_unary op (Formula.hasKind_ofOperand (typed.mono adds.le))
    exact Builder.expOf_yields _ ((Formula.hasKind_ofOperand tangent).mul numeric partialOf)
  | binary op x y =>
    obtain ⟨same, left, right⟩ := typed
    obtain rfl := Ty.scalar.inj same
    refine (delivers_tangent consistent (value numeric left)).bind
      fun dx t middle first consistent tangentLeft => ?_
    refine (delivers_tangent consistent ((value numeric right).mono first.le)).bind
      fun dy u later second consistent tangentRight => delivers_pure consistent ?_
    have le := le_trans first.le second.le
    obtain ⟨px, py⟩ := hasKind_binary op (Formula.hasKind_ofOperand (left.mono le))
      (Formula.hasKind_ofOperand (right.mono le))
    have first := (Formula.hasKind_ofOperand (tangentLeft.mono second.le)).mul numeric px
    exact Builder.expOf_yields _ (first.add numeric ((Formula.hasKind_ofOperand tangentRight).mul numeric py))
  | convert op x =>
    obtain ⟨same, typed⟩ := typed
    obtain rfl := Ty.scalar.inj same
    refine (delivers_tangent consistent (value op.source_ne_cert typed)).bind
      fun y t later _ consistent here => ?_
    exact delivers_pure consistent (Builder.yields_pure ⟨_, rfl, rfl, here⟩)
  | compare op x y => simp [isConstant] at varies
  | _ => exact absurd typed (by simp [BasicOp.HasType])

theorem delivers_basicOp {p : Param} {op : BasicOp} (bindable : Bindable bound scope s [p])
    (consistent : Consistent (Emitted bound scope) types s) (typed : op.HasType types p.ty)
    (aux : Annotations) :
    Delivers (Emitted bound ((paramOutline [p]).after scope))
      (basicOp .standard ⟨[p], aux, .basic op⟩ op) s types
      fun _ later => types.declare [p] ≤ later := by
  obtain ⟨k, isScalar, numeric⟩ := bindable.value p (by simp)
  have whole : (Stm.mk [p] aux (.basic op)).WellTyped types := ⟨bindable.value, p.ty, rfl, typed⟩
  have le := le_declare (bindable.new consistent.knows).absent
  refine (delivers_source bindable consistent whole).bind ?_
  rintro _ t _ - consistent rfl
  cases varies : isConstant op with
  | true => exact delivers_pure consistent (le_refl _)
  | false =>
    refine .after ((gives_single ..).mpr ⟨rfl, rfl⟩) ?_
    rw [isScalar] at typed
    refine (delivers_tangentExp consistent _ (typed.mono le) varies numeric).bind
      fun act u later adds consistent yields => ?_
    have known : (types.declare [p]).find? p.name = some (.scalar k) :=
      (find_declare_of_mem (by simp) List.mem_cons_self).trans (congrArg some isScalar)
    exact (delivers_bindTangent consistent isScalar (adds.le _ _ known) yields aux).mono
      fun _ _ further _ => le_trans adds.le further

theorem delivers_apply {p : Param} {aux : Annotations} {func : String} {args : List Operand}
    {ret : List Ty} (bindable : Bindable bound scope s [p])
    (consistent : Consistent (Emitted bound scope) types s)
    (typed : (Exp.apply func args ret).HasTypes types [p.ty]) :
    Delivers (Emitted bound ((paramOutline [p]).after scope))
      (apply .standard ⟨[p], aux, .apply func args ret⟩ func args) s types
      fun _ later => types.declare [p] ≤ later := by
  have whole : (Stm.mk [p] aux (.apply func args ret)).WellTyped types := ⟨bindable.value, typed⟩
  obtain ⟨kinds, k, found, inArgs, rfl, returns⟩ := typed
  obtain ⟨isScalar, -⟩ := List.cons.inj returns
  obtain ⟨⟨w, rfl⟩, uniform⟩ := floats_of_signature found
  have le := le_declare (bindable.new consistent.knows).absent
  refine .after ((gives_signature ..).mpr ⟨found, rfl⟩) ?_
  refine .after ((gives_single ..).mpr ⟨rfl, rfl⟩) ?_
  refine (delivers_source bindable consistent whole).bind ?_
  rintro _ t _ - consistent rfl
  have inArgs : List.Forall₂ (fun kind x => x.HasType (types.declare [p]) (.scalar kind)) kinds args :=
    inArgs.imp fun _ _ here => here.mono le
  obtain ⟨ds, gives, inPartials⟩ := partials_typed found inArgs t
  refine .after gives ?_
  refine (delivers_collect (P := fun types f => f.HasKind types (.float w)) consistent
    (fun _ _ _ le typed => typed.mono le) fun a mem u later le consistent => ?_).bind
    fun terms u later adds consistent inTerms => ?_
  · obtain ⟨inZip, inDs⟩ := List.of_mem_zip (show (a.1, a.2) ∈ _ from mem)
    obtain ⟨inKinds, inList⟩ := List.of_mem_zip (show (a.1.1, a.1.2) ∈ _ from inZip)
    have typed := typed_args found inArgs a.1.2 inList
    refine (delivers_tangent consistent ⟨isValue_scalar.mpr (by simp), typed.mono le⟩).bind
      fun dx v wider adds consistent tangent => delivers_pure consistent ?_
    rw [uniform a.1.1 inKinds]
    exact (Formula.hasKind_ofOperand tangent).mul (by simp)
      ((inPartials a.2 inDs).mono (le_trans le adds.le))
  · have known : (types.declare [p]).find? p.name = some (.scalar (.float w)) :=
      (find_declare_of_mem (by simp) List.mem_cons_self).trans (congrArg some isScalar.symm)
    refine (delivers_bindTangent consistent isScalar.symm (adds.le _ _ known)
      (Builder.expOf_yields _ ?_) aux).mono fun _ _ further _ => le_trans adds.le further
    cases terms with
    | nil => exact Formula.hasKind_zero _
    | cons d ds =>
      obtain ⟨head, tail⟩ := List.forall_mem_cons.mp inTerms
      exact head.sum (by simp) tail

/-! Patterns with tangents. -/

theorem Bindable.nodup {ps : List Param} (bindable : Bindable bound scope s ps) :
    ((interleave ps (tangentsOf s ps)).map (·.name)).Nodup := by
  rw [map_interleave]
  refine nodup_interleave (nodup_of_accepted bindable.accepted) (nodup_paramsFrom _ _) ?_
  intro x left right
  obtain ⟨p, inPat, rfl⟩ := List.mem_map.mp left
  obtain ⟨q, inTangents, same⟩ := List.mem_map.mp right
  have small := bindable.small p inPat
  have reserved := bindable.reserved
  have drawn := (bounds_paramsFrom inTangents).1
  rw [same] at drawn
  omega

/-- The names of a source pattern and their tangents are new to the table. -/
theorem Bindable.new_bundled {ps : List Param} (bindable : Bindable bound scope s ps)
    (knows : s.builder.Knows (Emitted bound scope) types) :
    (withTangents s ps).builder.New (Emitted bound ((paramOutline ps).after scope)) types
      (interleave ps (tangentsOf s ps)) := by
  have new := bindable.new knows
  have tangents : (withTangents s ps).builder.New (Emitted bound scope) types (tangentsOf s ps) :=
    knows.new_paramsFrom (by simpa using bindable.value) (by simp [withTangents])
  exact {
    absent := forall_mem_interleave new.absent tangents.absent
    drawn := forall_mem_interleave
      (fun p mem => Nat.lt_of_lt_of_le (new.drawn p mem) (Nat.le_add_right _ _)) tangents.drawn
    named := forall_mem_interleave new.named fun q mem => emitted_after ps (tangents.named q mem)
    value := forall_mem_interleave new.value tangents.value }

/-- With a pattern and its tangents bound, every companion has the type of its name. -/
theorem Bindable.paired {ps : List Param} (bindable : Bindable bound scope s ps)
    (consistent : Consistent (Emitted bound scope) types s) :
    ∀ x c, (withTangents s ps).companions.find? x = some c →
      ∃ t, (types.declare (interleave ps (tangentsOf s ps))).find? x = some t ∧
        (types.declare (interleave ps (tangentsOf s ps))).find? c = some t := by
  have length := length_tangentsOf s ps
  refine paired_withTangents consistent (le_declare (bindable.new_bundled consistent.knows).absent) ?_ ?_
  · exact fun p mem => find_declare_of_mem bindable.nodup (mem_interleave_left length mem)
  · exact fun q mem => find_declare_of_mem bindable.nodup (mem_interleave_right length mem)

theorem types_bundled (s : DiffState) (ps : List Param) :
    (interleave ps (tangentsOf s ps)).map (·.ty) = interleave (ps.map (·.ty)) (ps.map (·.ty)) := by
  rw [map_interleave, tangentsOf, types_paramsFrom]

/-- A statement that binds each name of a source pattern and then its tangent. -/
theorem delivers_bundledStm {ps : List Param} {e : Exp} (bindable : Bindable bound scope s ps)
    (consistent : Consistent (Emitted bound scope) types s)
    (typed : e.HasTypes types (interleave (ps.map (·.ty)) (ps.map (·.ty)))) (aux : Annotations) :
    Delivers (Emitted bound ((paramOutline ps).after scope)) (do
      let pat ← bundleBinders ps
      build (Build.add ⟨pat, aux, e⟩)) s types fun _ later => types.declare ps ≤ later := by
  have new := bindable.new_bundled consistent.knows
  have whole : (Stm.mk (interleave ps (tangentsOf s ps)) aux e).WellTyped types :=
    ⟨new.value, types_bundled s ps ▸ typed⟩
  obtain ⟨adds, knows⟩ := (knows_withTangents consistent.knows ps).add
    (fun _ => emitted_after ps) whole new
  have gives := gives_bundleBinders (fun p mem => (bindable.value p mem).isScalar.isAcc) s
  have drawn : s.builder.Adds types (withTangents s ps).builder types :=
    .aside rfl (Nat.le_add_right _ _)
  refine ⟨(), _, _, gives.bind (.build _ _), drawn.trans adds, ⟨knows, bindable.paired consistent⟩, ?_⟩
  exact declare_le (le_declare new.absent) fun p mem =>
    find_declare_of_mem bindable.nodup (mem_interleave_left (length_tangentsOf s ps) mem)

/-! Programs. -/

/-- The action makes a body of it that yields each result and then its tangent. -/
def DeliversBody (bound : Nat) (act : Diff Body) (b : Body) : Prop :=
  ∀ (scope : Scope) (s : DiffState) (types : NameTable Ty) (ts : List Ty), b.outline.Closed scope →
    Scope.Below b.outline.binders bound → bound ≤ s.builder.supply.next →
    Consistent (Emitted bound scope) types s → b.HasTypes types ts → (∀ t ∈ ts, t.IsValue) →
    Delivers (Emitted bound scope) (within act) s types fun b later =>
      b.HasTypes types (interleave ts ts) ∧ types = later

theorem delivers_branch {ps : List Param} {aux : Annotations} {cond : Operand} {yes no : Body}
    {ret : List Ty} {sort : BranchSort} {yesAct noAct : Diff Body}
    (bindable : Bindable bound scope s ps) (consistent : Consistent (Emitted bound scope) types s)
    (typed : (Exp.branch cond yes no ret sort).HasTypes types (ps.map (·.ty)))
    (closed : ((Exp.branch cond yes no ret sort).outline ps.length).Closed scope)
    (small : Scope.Below ((Exp.branch cond yes no ret sort).outline ps.length).binders bound)
    (inYes : DeliversBody bound yesAct yes) (inNo : DeliversBody bound noAct no) :
    Delivers (Emitted bound ((paramOutline ps).after scope))
      (branch ⟨ps, aux, .branch cond yes no ret sort⟩ cond yesAct noAct ret sort) s types
      fun _ later => types.declare ps ≤ later := by
  obtain ⟨isBool, rfl, yesTyped, noTyped⟩ := typed
  have values : ∀ t ∈ ps.map (·.ty), t.IsValue := by simpa using bindable.value
  simp only [Exp.outline, closed_append, after_append, closed_readsAll, after_readsAll, closed_block,
    closed_mentionsAll, after_mentionsAll, closed_count, closed_done, after] at closed
  obtain ⟨⟨⟨⟨-, closedYes, -⟩, closedNo, -⟩, -⟩, -⟩ := closed
  simp only [Exp.outline, binders_append, binders_readsAll, binders, binders_mentionsAll,
    List.nil_append, List.append_nil, Scope.Below, List.forall_mem_append] at small
  refine (inYes scope s types _ closedYes small.1 bindable.reserved consistent yesTyped values).bind ?_
  rintro b t _ adds consistent ⟨bundledYes, rfl⟩
  have bindable := bindable.mono adds.next_le
  refine (inNo scope t _ _ closedNo small.2 bindable.reserved consistent noTyped values).bind ?_
  rintro c u _ adds consistent ⟨bundledNo, rfl⟩
  have bindable := bindable.mono adds.next_le
  have plain : ∀ t ∈ ps.map (·.ty), t.isAcc = false := fun t mem => (values t mem).isScalar.isAcc
  rw [← bundledTypes_eq plain] at bundledYes bundledNo
  refine delivers_bundledStm bindable consistent ?_ aux
  rw [← bundledTypes_eq plain]
  exact ⟨isBool, rfl, bundledYes, bundledNo⟩

mutual

/-- One case for each kind of statement of well-typed code. -/
theorem delivers_stm (stm : Stm) {s : DiffState} {types : NameTable Ty} {scope : Scope}
    (closed : stm.outline.Closed scope) (small : Scope.Below stm.outline.binders bound)
    (reserved : bound ≤ s.builder.supply.next)
    (consistent : Consistent (Emitted bound scope) types s) (typed : stm.WellTyped types) :
    Delivers (Emitted bound (stm.outline.after scope)) (Forward.stm .standard stm) s types
      fun _ later => types.declare stm.pat ≤ later := by
  obtain ⟨pat, aux, e⟩ := stm
  obtain ⟨values, typed⟩ := typed
  obtain ⟨-, closedExp, closedPat⟩ := (closed_stm _ _).mp closed
  rw [after_stm]
  rw [binders_stm] at small
  obtain ⟨smallExp, smallPat⟩ := List.forall_mem_append.mp small
  have bindable : Bindable bound scope s pat :=
    ⟨closedPat.1, fun p mem => smallPat _ ((mem_binders_paramOutline ..).mpr ⟨p, mem, rfl⟩), values,
      reserved⟩
  cases e with
  | basic op =>
    obtain ⟨t, returns, typed⟩ := typed
    obtain ⟨p, rfl, rfl⟩ := List.map_eq_singleton_iff.mp returns
    have delivers := delivers_basicOp bindable consistent typed aux
    cases op with
    | updateAcc acc position vs => exact absurd typed (by simp [BasicOp.HasType])
    | _ => exact delivers
  | apply func args ret =>
    obtain ⟨kinds, k, found, inArgs, rfl, returns⟩ := typed
    obtain ⟨p, rfl, -⟩ := List.map_eq_singleton_iff.mp returns.symm
    exact delivers_apply bindable consistent ⟨kinds, k, found, inArgs, rfl, returns⟩
  | branch cond yes no ret sort =>
    exact delivers_branch bindable consistent typed closedExp smallExp (delivers_body yes)
      (delivers_body no)
  | _ => exact absurd typed (by simp [Exp.HasTypes])

theorem delivers_stms (ss : List Stm) {s : DiffState} {types : NameTable Ty} {scope : Scope}
    (closed : (stmOutline ss).Closed scope) (small : Scope.Below (stmOutline ss).binders bound)
    (reserved : bound ≤ s.builder.supply.next)
    (consistent : Consistent (Emitted bound scope) types s) (typed : StmsWellTyped types ss) :
    Delivers (Emitted bound ((stmOutline ss).after scope)) (stms .standard ss) s types
      fun _ later => types.declare (ss.flatMap (·.pat)) ≤ later := by
  cases ss with
  | nil => exact delivers_pure consistent (le_refl _)
  | cons stm ss =>
    rw [stmOutline, closed_append] at closed
    rw [stmOutline, binders_append] at small
    obtain ⟨smallHere, smallRest⟩ := List.forall_mem_append.mp small
    rw [stmOutline, after_append]
    refine (delivers_stm stm closed.1 smallHere reserved consistent typed.1).bind
      fun _ t middle adds consistent le => ?_
    refine (delivers_stms ss closed.2 smallRest (Nat.le_trans reserved adds.next_le) consistent
      (stmsWellTyped_mono ss typed.2 le)).mono fun _ later _ further => ?_
    rw [List.flatMap_cons, declare_append]
    exact le_trans (declare_mono le _) further

theorem delivers_body (b : Body) : DeliversBody bound (body .standard b) b := by
  intro scope s types ts closed small reserved consistent typed values
  obtain ⟨ss, result⟩ := b
  simp only [Body.outline, closed_append] at closed
  simp only [Body.outline, binders_append, binders_readsAll, List.append_nil] at small
  have inner : Delivers (Emitted bound ((stmOutline ss).after scope))
      (do stms .standard ss; bundleOperands result) ⟨{ s.builder with stms := [] }, s.companions⟩ types
      fun xs later => List.Forall₂ (Operand.HasType later) (interleave ts ts) xs :=
    (delivers_stms ss closed.1 small (by exact reserved) consistent.cleared typed.1).bind
      fun _ t later adds consistent le =>
        delivers_bundleOperands consistent values (operands_mono typed.2 le)
  exact delivers_within consistent inner

end

/-! Whole lambdas. -/

/-- The parameters of a lambda and their tangents make the first table. -/
theorem consistent_opened {ps : List Param} (bindable : Bindable bound [] s ps)
    (declared : s.builder.types = .declare .empty ps) (companions : s.companions = .empty) :
    Consistent (Emitted bound ((paramOutline ps).after []))
      (.declare .empty (interleave ps (tangentsOf s ps))) (withTangents s ps) := by
  have knows : s.builder.Knows (Emitted bound []) .empty :=
    Builder.knows_empty fun x le => .inr (Nat.le_trans bindable.reserved le)
  have consistent : Consistent (Emitted bound []) .empty s :=
    ⟨knows, fun x c found => by simp [companions, find_empty] at found⟩
  have sources := knows.declare (c := s.builder) (fun _ => emitted_after ps) (bindable.new knows)
    (declared ▸ le_refl _) rfl
  have typed : NameTable.declare .empty (interleave ps (tangentsOf s ps)) ≤
      (withTangents s ps).builder.types := by
    refine declare_le (empty_le _) (forall_mem_interleave (fun p mem => ?_) fun q mem => ?_)
    · exact (knows_withTangents sources ps).typed _ _
        (find_declare_of_mem (nodup_of_accepted bindable.accepted) mem)
    · exact find_declare_of_mem (nodup_paramsFrom _ _) mem
  exact ⟨(knows_withTangents knows ps).declare (fun _ => emitted_after ps)
    (bindable.new_bundled knows) typed rfl, bindable.paired consistent⟩

theorem delivers_top {l : Lambda} {ret : List Ty} {result : Diff (List Operand)}
    (elementary : l.Elementary) (typed : l.WellTyped) (values : ∀ t ∈ ret, t.IsValue)
    (results : ∀ (allowed : Name → Prop) (t : DiffState) (later : NameTable Ty),
      Consistent allowed later t → List.Forall₂ (Operand.HasType later) l.ret l.body.result →
      Delivers allowed result t later fun xs wider => List.Forall₂ (Operand.HasType wider) ret xs)
    (s : Supply) :
    ∃ out, ((top .standard l ret result).start (s.reserve l)).1 = .ok out ∧ out.WellTyped := by
  obtain ⟨closedParams, closedBody, -⟩ := (closed_lambda l []).mp elementary.closed
  rw [body_outline, closed_append] at closedBody
  have small : Scope.Below l.outline.binders (s.reserve l).next := fun x => binder_lt s l
  rw [Reverse.lambda_binders, body_outline, binders_append] at small
  obtain ⟨smallParams, smallBody⟩ := List.forall_mem_append.mp small
  let opened : DiffState := ⟨⟨s.reserve l, .declare .empty l.params, []⟩, .empty⟩
  have bindable : Bindable (s.reserve l).next [] opened l.params :=
    ⟨closedParams.1, fun p mem => smallParams _ ((mem_binders_paramOutline ..).mpr ⟨p, mem, rfl⟩),
      typed.params, Nat.le_refl _⟩
  have consistent := consistent_opened bindable rfl rfl
  obtain ⟨wellTyped, inResult⟩ := (body_hasTypes _ _).mp typed.body
  have le : NameTable.declare .empty l.params ≤
      .declare .empty (interleave l.params (tangentsOf opened l.params)) :=
    declare_le (empty_le _) fun p mem =>
      find_declare_of_mem bindable.nodup (mem_interleave_left (length_tangentsOf opened l.params) mem)
  have inner := (delivers_stms l.body.stms closedBody.1
    (List.forall_mem_append.mp smallBody).1 (Nat.le_add_right _ _) consistent.cleared
    (stmsWellTyped_mono _ wellTyped le)).bind fun _ t later adds consistent further =>
      results _ t later consistent (operands_mono inResult (le_trans (declare_mono le _) further))
  obtain ⟨b, t, gives, bodyTyped, -⟩ := gives_typedBody consistent inner
  have declare : Gives (build (Build.declareParams l.params)) ⟨.ofSupply (s.reserve l), .empty⟩ ()
      opened := by
    rw [gives_build, Build.declareParams_apply]
    exact ⟨rfl, rfl⟩
  have binders := gives_bundleBinders (fun p mem => (typed.params p mem).isScalar.isAcc) opened
  have knows : opened.builder.Knows (Emitted (s.reserve l).next []) .empty :=
    Builder.knows_empty fun x le => .inr le
  exact ⟨_, (gives_start _ _ _).mpr ⟨t, declare.bind (binders.bind (gives.bind (.pure _ _)))⟩,
    (bindable.new_bundled knows).value, values, bodyTyped⟩

end Forward

namespace Lambda.WellTyped

open Forward

variable {l : Lambda}

theorem forward (typed : l.WellTyped) (valid : l.validate = .ok ()) (s : Supply) :
    ∃ out, (l.forward .standard s).1 = .ok out ∧ out.WellTyped := by
  have plain : ∀ t ∈ l.ret, t.isAcc = false := fun t mem => (typed.ret t mem).isScalar.isAcc
  have same := tangentTypes_eq plain
  exact delivers_top ⟨valid, typed.scalarCode⟩ typed (same.symm ▸ typed.ret)
    (fun _ _ _ consistent inResult => same.symm ▸ delivers_tangents consistent typed.ret inResult) s

theorem forwardBundled (typed : l.WellTyped) (valid : l.validate = .ok ()) (s : Supply) :
    ∃ out, (l.forwardBundled .standard s).1 = .ok out ∧ out.WellTyped := by
  have plain : ∀ t ∈ l.ret, t.isAcc = false := fun t mem => (typed.ret t mem).isScalar.isAcc
  have same := bundledTypes_eq plain
  exact delivers_top ⟨valid, typed.scalarCode⟩ typed
    (same.symm ▸ forall_mem_interleave typed.ret typed.ret)
    (fun _ _ _ consistent inResult => same.symm ▸ delivers_bundleOperands consistent typed.ret inResult) s

end Lambda.WellTyped

end Cotangent
