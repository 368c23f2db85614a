import Cotangent.Derivative.Forward
import Cotangent.Proofs.Derivative.DeclaredTypes
import Cotangent.Proofs.Scope.Validity
import Mathlib.Data.List.Forall2
/-!
Forward differentiation gives types to fresh names and to the binders of what it transforms. There is
one lemma for each construct, over parts that do so, and the recursion over programs at the end puts
them together. A statement records its own pattern last, so that a name bound there as a value is known
as one, whatever nested scopes have called by that name before.
-/
namespace Cotangent

open Outline Diff

variable {α β : Type} {on : Name → Prop} {n : Nat}

/-! Patterns. -/

/-- The type that is recorded for the name is not that of an accumulator. -/
def HasValueType (types : NameTable Ty) (x : Name) : Prop :=
  ∃ t, types.find? x = some t ∧ t.isAcc = false

/-- The name is among the binders, and none of them makes it an accumulator. -/
def BindsValue (ps : List Param) (x : Name) : Prop :=
  (∃ p ∈ ps, p.name = x) ∧ ∀ p ∈ ps, p.name = x → p.ty.isAcc = false

/-- The names that the pattern binds to values are recorded so, as far as they were drawn before `n`. -/
def Records (n : Nat) (pat : List Param) (types : NameTable Ty) : Prop :=
  ∀ x, x.id < n → BindsValue pat x → HasValueType types x

/-- The pattern makes the name an accumulator. -/
def BindsAcc (pat : List Param) (x : Name) : Prop := ∃ p ∈ pat, p.name = x ∧ p.ty.isAcc = true

theorem Records.kept {pat : List Param} {types types' : NameTable Ty} (records : Records n pat types)
    (kept : ∀ x, x.id < n → ¬ BindsAcc pat x → types'.find? x = types.find? x) :
    Records n pat types' := by
  rintro x below ⟨bound, values⟩
  obtain ⟨t, found, value⟩ := records x below ⟨bound, values⟩
  have other : ¬ BindsAcc pat x := fun ⟨p, mem, same, acc⟩ => by
    rw [values p mem same] at acc
    cases acc
  exact ⟨t, (kept x below other).trans found, value⟩

/-- The binder is fresh, or one of the given binders with the same kind of type. -/
def Renews (n : Nat) (ps : List Param) (q : Param) : Prop :=
  n ≤ q.name.id ∨ ∃ p ∈ ps, q.name = p.name ∧ q.ty.isAcc = p.ty.isAcc

/-- A pattern with tangents beside its names: every name is kept, and what is added is fresh. -/
structure Widens (n : Nat) (pat wide : List Param) : Prop where
  complete : ∀ p ∈ pat, ∃ q ∈ wide, q.name = p.name
  origin : ∀ q ∈ wide, Renews n pat q

theorem Renews.mono {ps qs : List Param} {q : Param} (renews : Renews n ps q)
    (sub : ∀ p ∈ ps, p ∈ qs) : Renews n qs q :=
  renews.imp_right fun ⟨p, mem, known⟩ => ⟨p, sub p mem, known⟩

theorem Renews.free {ps : List Param} {q : Param} (renews : Renews n ps q)
    (bound : ∀ p ∈ ps, on p.name) : on q.name ∨ n ≤ q.name.id := by
  rcases renews with fresh | ⟨p, mem, same, -⟩
  · exact .inr fresh
  · exact .inl (same ▸ bound p mem)

/-- A pattern, and tangents of its names after it. -/
theorem widens_beside {pat tans : List Param} (renewed : ∀ q ∈ tans, Renews n pat q) :
    Widens n pat (pat ++ tans) where
  complete p mem := ⟨p, List.mem_append_left _ mem, rfl⟩
  origin q mem := (List.mem_append.mp mem).elim (fun mem => .inr ⟨q, mem, rfl, rfl⟩) (renewed q)

theorem Widens.append {pat wide pat' wide' : List Param} (first : Widens n pat wide)
    (second : Widens n pat' wide') : Widens n (pat ++ pat') (wide ++ wide') where
  complete p mem := by
    rcases List.mem_append.mp mem with mem | mem
    · obtain ⟨q, inWide, same⟩ := first.complete p mem
      exact ⟨q, List.mem_append_left _ inWide, same⟩
    · obtain ⟨q, inWide, same⟩ := second.complete p mem
      exact ⟨q, List.mem_append_right _ inWide, same⟩
  origin q mem := by
    rcases List.mem_append.mp mem with mem | mem
    · exact (first.origin q mem).mono fun p inPat => List.mem_append_left _ inPat
    · exact (second.origin q mem).mono fun p inPat => List.mem_append_right _ inPat

theorem widens_flatten {pat : List Param} {groups : List (List Param)}
    (each : List.Forall₂ (fun p group => Widens n [p] group) pat groups) :
    Widens n pat groups.flatten := by
  induction each with
  | nil => exact ⟨by simp, by simp⟩
  | cons here rest ih => exact here.append ih

/-- Whatever was recorded before, a pattern that is widened and declared is recorded. -/
theorem Widens.records {pat wide : List Param} (widens : Widens n pat wide) (types : NameTable Ty) :
    Records n pat (types.insertAll (wide.map fun q => (q.name, q.ty))) := by
  rintro x below ⟨⟨p, inPat, rfl⟩, values⟩
  obtain ⟨q, inWide, same⟩ := widens.complete p inPat
  have present : p.name ∈ (wide.map fun q => (q.name, q.ty)).map (·.1) := by
    simp only [List.map_map, List.mem_map]
    exact ⟨q, inWide, same⟩
  obtain ⟨t, entry, found⟩ := NameTable.find_insertAll_of_mem types _ _ present
  obtain ⟨r, inWide, equal⟩ := List.mem_map.mp entry
  obtain ⟨name, rfl⟩ := Prod.mk.inj equal
  refine ⟨r.ty, found, ?_⟩
  rcases widens.origin r inWide with fresh | ⟨p', inPat', same', kind⟩
  · exact absurd (name ▸ below) (Nat.not_lt.mpr fresh)
  · rw [kind]
    exact values p' inPat' (same'.symm.trans name)

@[simp] theorem isAcc_tangent (t : Ty) : t.tangent.isAcc = t.isAcc := by
  cases t <;> rfl

namespace Forward

/-! Tangents of binders, operands and names. -/

/-- A tangent is fresh, or it stands for the accumulator that it belongs to. -/
theorem declares_newTangent {p : Param} (bound : p.ty.isAcc = true → on p.name) :
    Declares on n (newTangent p) fun q _ =>
      if p.ty.isAcc then q.name = p.name ∧ q.ty.isAcc = true else n ≤ q.name.id := by
  have record (x : Name) (free : on x ∨ n ≤ x.id) : Declares on n (do
      setCompanion p.name x
      build (Build.declare x p.ty.tangent)
      return ⟨x, p.ty.tangent⟩ : Diff Param) fun q _ => q = ⟨x, p.ty.tangent⟩ :=
    (declaresOnly_setCompanion p.name x).bind fun _ _ _ =>
      (declares_build (Build.declares_declare free)).bind fun _ _ _ => declares_pure fun _ => rfl
  unfold newTangent
  cases acc : p.ty.isAcc with
  | true =>
    simp only [if_true]
    refine (declares_pure (P := fun x _ => x = p.name) fun _ => rfl).bind fun x _ same => ?_
    refine (record x (.inl (same ▸ bound acc))).mono ?_
    rintro q _ rfl
    exact ⟨same, by simpa using acc⟩
  | false =>
    simp only [Bool.false_eq_true, if_false]
    refine (declares_build Build.declares_fresh).bind fun x _ fresh => ?_
    refine (record x (.inr fresh)).mono ?_
    rintro q _ rfl
    exact fresh

theorem declares_renewal {p : Param} (bound : on p.name) :
    Declares on n (newTangent p) fun q _ => Renews n [p] q := by
  refine (declares_newTangent fun _ => bound).mono fun q _ drawn => ?_
  split at drawn
  · rename_i acc
    exact .inr ⟨p, by simp, drawn.1, drawn.2.trans acc.symm⟩
  · exact .inl drawn

theorem declares_newTangents {ps : List Param} (bound : ∀ p ∈ ps, on p.name) :
    Declares on n (ps.mapM newTangent) fun qs _ => ∀ q ∈ qs, Renews n ps q := by
  refine (declares_mapM fun p mem => declares_renewal (bound p mem)).mono fun qs _ drawn q mem => ?_
  obtain ⟨i, here, rfl⟩ := List.getElem_of_mem mem
  have inside : i < ps.length := drawn.length_eq ▸ here
  exact (drawn.get inside here).mono fun p alone => by
    obtain rfl := List.mem_singleton.mp alone
    exact List.getElem_mem inside

theorem declares_bundled {f : α → Diff (List β)} {xs : List α} {R : α → List β → Prop}
    (each : ∀ x ∈ xs, Declares on n (f x) fun ys _ => R x ys) :
    Declares on n (bundled f xs) fun ys _ =>
      ∃ groups, List.Forall₂ R xs groups ∧ ys = groups.flatten :=
  (declares_mapM each).bind fun groups _ paired => declares_pure fun _ => ⟨groups, paired, rfl⟩

theorem declaresOnly_bundled {f : α → Diff (List β)} {xs : List α}
    (each : ∀ x ∈ xs, DeclaresOnly on n (f x)) : DeclaresOnly on n (bundled f xs) :=
  (declaresOnly_mapM each).bind fun _ _ _ => declaresOnly_pure

/-- Of the binders themselves only accumulators are declared. -/
theorem declares_widened {ps : List Param} (bound : ∀ p ∈ ps, p.ty.isAcc = true → on p.name) :
    Declares on n (bundleBinders ps) fun qs _ => Widens n ps qs := by
  refine (declares_bundled fun p mem => ?_).mono fun qs _ ⟨groups, each, same⟩ =>
    same ▸ widens_flatten each
  refine (declares_newTangent (bound p mem)).bind fun tan _ drawn => declares_pure fun _ => ?_
  split at drawn
  · rename_i acc
    simp only [acc, if_true]
    refine ⟨fun q alone => ⟨tan, by simp, ?_⟩, fun q alone => .inr ⟨p, by simp, ?_⟩⟩
    · obtain rfl := List.mem_singleton.mp alone
      exact drawn.1
    · obtain rfl := List.mem_singleton.mp alone
      exact ⟨drawn.1, drawn.2.trans acc.symm⟩
  · rename_i value
    simp only [value, if_false, Bool.false_eq_true]
    refine widens_beside fun q alone => .inl ?_
    obtain rfl := List.mem_singleton.mp alone
    exact drawn

theorem declares_bundleBinders {ps : List Param} (bound : ∀ p ∈ ps, on p.name) :
    Declares on n (bundleBinders ps) fun qs _ => Widens n ps qs :=
  declares_widened fun p mem _ => bound p mem

theorem declaresOnly_tangent (x : Operand) : DeclaresOnly on n (tangent x) := by
  cases x with
  | const v => exact declaresOnly_pure
  | var x => exact (declaresOnly_companion x).bind fun _ _ _ => declaresOnly_pure

theorem declaresOnly_tangents (xs : List Operand) : DeclaresOnly on n (tangents xs) :=
  declaresOnly_mapM fun x _ => declaresOnly_tangent x

theorem declaresOnly_companions (xs : List Name) : DeclaresOnly on n (xs.mapM companion) :=
  declaresOnly_mapM fun x _ => declaresOnly_companion x

theorem declaresOnly_zeroOperands (xs : List Operand) : DeclaresOnly on n (xs.mapM zeroOperand) :=
  declaresOnly_mapM fun x _ => declaresOnly_zeroOperand x

theorem declaresOnly_isAccName (x : Name) : DeclaresOnly on n (isAccName x) :=
  (declaresOnly_typeOf x).bind fun _ _ _ => declaresOnly_pure

theorem declaresOnly_isAccOperand (x : Operand) : DeclaresOnly on n (isAccOperand x) := by
  cases x with
  | const v => exact declaresOnly_pure
  | var x => exact declaresOnly_isAccName x

theorem declaresOnly_bundleOperands (xs : List Operand) : DeclaresOnly on n (bundleOperands xs) := by
  refine declaresOnly_bundled fun x _ => (declaresOnly_isAccOperand x).bind fun acc _ _ => ?_
  cases acc with
  | true => exact declaresOnly_pure
  | false => exact (declaresOnly_tangent x).bind fun _ _ _ => declaresOnly_pure

theorem declaresOnly_bundleNames (xs : List Name) : DeclaresOnly on n (bundleNames xs) := by
  refine declaresOnly_bundled fun x _ => (declaresOnly_isAccName x).bind fun acc _ _ => ?_
  cases acc with
  | true => exact declaresOnly_pure
  | false => exact (declaresOnly_companion x).bind fun _ _ _ => declaresOnly_pure

theorem declaresOnly_bundleNeutral (xs : List Operand) : DeclaresOnly on n (bundleNeutral xs) :=
  (declaresOnly_zeroOperands xs).bind fun _ _ _ => declaresOnly_pure

theorem declaresOnly_bundleMerge {merge : List (Param × Operand)}
    (bound : ∀ m ∈ merge, on m.1.name) : DeclaresOnly on n (bundleMerge merge) := by
  refine declaresOnly_bundled fun m mem => ?_
  have tan : DeclaresOnly on n (newTangent m.1) :=
    (declares_renewal (bound m mem)).mono fun _ _ _ => trivial
  refine (declares_build (Build.declares_declare (.inl (bound m mem)))).bind fun _ _ _ => ?_
  cases acc : m.1.ty.isAcc with
  | true => exact tan.bind fun _ _ _ => declaresOnly_pure
  | false =>
    exact (declaresOnly_tangent m.2).bind fun _ _ _ => tan.bind fun _ _ _ => declaresOnly_pure

theorem declaresOnly_bundleRows {rows : List (Param × Name)} (bound : ∀ r ∈ rows, on r.1.name) :
    DeclaresOnly on n (bundleRows rows) := by
  refine declaresOnly_bundled fun r mem => ?_
  refine (declares_build (Build.declares_declare (.inl (bound r mem)))).bind fun _ _ _ => ?_
  refine (declaresOnly_companion r.2).bind fun _ _ _ => ?_
  exact (declares_renewal (bound r mem)).bind fun _ _ _ => declaresOnly_pure

/-! Statements without bodies. -/

/-- A statement is emitted whose pattern widens another one. -/
theorem declares_emit {pat : List Param} {stm : Stm} (widens : Widens n pat stm.pat)
    (bound : ∀ p ∈ pat, on p.name) :
    Declares on n (build (Build.add stm)) fun _ types => Records n pat types := by
  intro s past
  have added : Build.Declares on n (Build.add stm) fun _ => True :=
    Build.declares_add fun q mem => (widens.origin q mem).free bound
  obtain ⟨frame, -⟩ := added s.builder past
  refine ⟨frame, fun _ _ => ?_⟩
  have types : (outcome (build (Build.add stm)) s).2.builder.types =
      s.builder.types.insertAll (stm.pat.map fun p => (p.name, p.ty)) := by
    show (Build.add stm s.builder).2.types = _
    rw [Build.add_apply]
  rw [types]
  exact widens.records _

/-- The expression may be computed at any time. -/
theorem declares_tangentExp (rules : Rules) (stm : Stm) (op : BasicOp) :
    Declares on n (tangentExp rules stm op) fun act _ => Build.Declares on n act fun _ => True := by
  have formula (f : Formula) : ∀ types : NameTable Ty,
      Build.Declares on n (Build.expOf f) fun _ => True := fun _ => Build.declares_expOf f
  have operation (e : Exp) : ∀ types : NameTable Ty,
      Build.Declares on n (pure e) fun _ => True := fun _ => Build.declares_pure trivial
  cases op with
  | operand x => exact (declaresOnly_tangent x).bind fun _ _ _ => declares_pure (operation _)
  | arrayLit elems ty =>
    exact (declaresOnly_tangents elems).bind fun _ _ _ => declares_pure (operation _)
  | unary op x => exact (declaresOnly_tangent x).bind fun _ _ _ => declares_pure (formula _)
  | binary op x y =>
    exact (declaresOnly_tangent x).bind fun _ _ _ =>
      (declaresOnly_tangent y).bind fun _ _ _ => declares_pure (formula _)
  | convert op x => exact (declaresOnly_tangent x).bind fun _ _ _ => declares_pure (operation _)
  | update array slice value =>
    exact (declaresOnly_companion array).bind fun _ _ _ =>
      (declaresOnly_tangent value).bind fun _ _ _ => declares_pure (operation _)
  | concat dim first rest width =>
    exact (declaresOnly_companion first).bind fun _ _ _ =>
      (declaresOnly_companions rest).bind fun _ _ _ => declares_pure (operation _)
  | iota count first step w => exact declares_pure (operation _)
  | replicate shape value =>
    exact (declaresOnly_tangent value).bind fun _ _ _ => declares_pure (operation _)
  | index array slice =>
    exact (declaresOnly_companion array).bind fun _ _ _ => declares_pure (operation _)
  | copy array => exact (declaresOnly_companion array).bind fun _ _ _ => declares_pure (operation _)
  | manifest perm array =>
    exact (declaresOnly_companion array).bind fun _ _ _ => declares_pure (operation _)
  | reshape shape array =>
    exact (declaresOnly_companion array).bind fun _ _ _ => declares_pure (operation _)
  | rearrange perm array =>
    exact (declaresOnly_companion array).bind fun _ _ _ => declares_pure (operation _)
  | rotate offsets array =>
    exact (declaresOnly_companion array).bind fun _ _ _ => declares_pure (operation _)
  | _ => exact declares_throw _

theorem widens_self (n : Nat) (pat : List Param) : Widens n pat pat :=
  ⟨fun p mem => ⟨p, mem, rfl⟩, fun q mem => .inr ⟨q, mem, rfl, rfl⟩⟩

/-- A statement stands as it is, and what comes after it declares again at most the accumulators that
    it binds. -/
theorem declares_kept {stm : Stm} {rest : Diff Unit} (bound : ∀ p ∈ stm.pat, on p.name)
    (after : DeclaresOnly (BindsAcc stm.pat) n rest) :
    Declares on n (do build (Build.add stm); rest) fun _ types => Records n stm.pat types := by
  refine (declares_emit (widens_self n stm.pat) bound).sequence (fun _ => after) ?_ ?_
  · rintro x ⟨p, mem, rfl, -⟩
    exact bound p mem
  · exact fun _ _ _ _ records _ kept => records.kept kept

/-- The tangent of a name of the pattern, and a statement for it. -/
theorem declaresOnly_bindTangent {stm : Stm} {p : Param} (mem : p ∈ stm.pat)
    {emit : Param → Build Unit}
    (binds : ∀ q : Param, BindsAcc stm.pat q.name ∨ n ≤ q.name.id →
      Build.Declares (BindsAcc stm.pat) n (emit q) fun _ => True) :
    DeclaresOnly (BindsAcc stm.pat) n (do
      let tan ← newTangent p
      build (emit tan)) := by
  refine (declares_newTangent fun acc => ⟨p, mem, rfl, acc⟩).bind fun tan _ drawn => ?_
  refine (declares_build (binds tan ?_)).mono fun _ _ _ => trivial
  split at drawn
  · rename_i acc
    exact .inl ⟨p, mem, drawn.1.symm, acc⟩
  · exact .inr drawn

theorem declares_basicOp (rules : Rules) (stm : Stm) {op : BasicOp}
    (bound : ∀ p ∈ stm.pat, on p.name) :
    Declares on n (basicOp rules stm op) fun _ types => Records n stm.pat types := by
  refine declares_kept bound ?_
  cases isConstant op with
  | true => exact declaresOnly_pure
  | false =>
    refine (declares_single .forward stm).bind fun p _ mem => ?_
    refine (declares_tangentExp rules stm op).bind fun act _ inside => ?_
    exact declaresOnly_bindTangent mem fun tan free =>
      inside.bind fun e _ => Build.declares_add (by simpa using free)

theorem declares_updateAcc (stm : Stm) {acc : Name} {position values : List Operand}
    (bound : ∀ p ∈ stm.pat, on p.name) :
    Declares on n (updateAcc stm acc position values) fun _ types => Records n stm.pat types :=
  (declares_bundleBinders bound).bind fun _ _ widens =>
    (declaresOnly_tangents values).bind fun _ _ _ =>
      (declaresOnly_companion acc).bind fun _ _ _ => declares_emit widens bound

theorem declares_apply (rules : Rules) (stm : Stm) {func : String} {args : List Operand}
    (bound : ∀ p ∈ stm.pat, on p.name) :
    Declares on n (apply rules stm func args) fun _ types => Records n stm.pat types := by
  refine (declaresOnly_signature rules func).bind fun sig _ _ => ?_
  refine (declares_single .forward stm).bind fun p _ mem => declares_kept bound ?_
  refine (declaresOnly_partials rules func sig.1 args).bind fun ds _ _ => ?_
  refine (declaresOnly_mapM fun a _ => ?_).bind fun terms _ _ => ?_
  · exact (declaresOnly_tangent a.1.2).bind fun _ _ _ => declaresOnly_pure
  · exact declaresOnly_bindTangent mem fun tan free => Build.declares_bindFormula free stm.aux _

/-! Bodies and lambdas, given the transformation of their statements. -/

theorem declaresOnly_bundledBody {stms : Diff Unit} (result : List Operand)
    (inside : DeclaresOnly on n stms) : DeclaresOnly on n (bundledBody stms result) :=
  declaresOnly_bodyOf inside (declaresOnly_bundleOperands result)

section

variable {ps : List Param} {ret : List Ty} {stms : Diff Unit} {result : List Operand}

/-- The parameters of a scope are declared before anything else in it. -/
theorem declaresOnly_opened {act : Diff α} (bound : ∀ p ∈ ps, on p.name)
    (inside : DeclaresOnly on n act) :
    DeclaresOnly on n (within do
      build (Build.declareParams ps)
      act) :=
  Declares.within ((declares_build (Build.declares_declareParams fun p mem =>
    .inl (bound p mem))).bind fun _ _ _ => inside)

theorem declaresOnly_lambdaOf {body : Diff Body} (bound : ∀ p ∈ ps, on p.name)
    (inside : DeclaresOnly on n body) : DeclaresOnly on n (lambdaOf ps ret body) :=
  declaresOnly_opened bound ((declares_bundleBinders bound).bind fun _ _ _ =>
    inside.bind fun _ _ _ => declaresOnly_pure)

theorem declaresOnly_streamLambda (stm : Stm) {body : Diff Body} (bound : ∀ p ∈ ps, on p.name)
    (inside : DeclaresOnly on n body) : DeclaresOnly on n (streamLambda stm ps ret body) := by
  cases ps with
  | nil => exact declares_throw _
  | cons chunk rest =>
    have boundRest : ∀ p ∈ rest, on p.name := fun p mem => bound p (List.mem_cons_of_mem _ mem)
    exact declaresOnly_opened bound ((declares_bundleBinders boundRest).bind fun _ _ _ =>
      inside.bind fun _ _ _ => declaresOnly_pure)

theorem declaresOnly_bucketLambda (k : Nat) (bound : ∀ p ∈ ps, on p.name)
    (inside : DeclaresOnly on n stms) :
    DeclaresOnly on n (bucketLambda k ps stms result ret) :=
  declaresOnly_opened bound ((declares_bundleBinders bound).bind fun _ _ _ =>
    (declaresOnly_bodyOf inside ((declaresOnly_bundleOperands _).bind fun _ _ _ =>
      declaresOnly_pure)).bind fun _ _ _ => declaresOnly_pure)

theorem declaresOnly_scatterLambda (k : Nat) (bound : ∀ p ∈ ps, on p.name)
    (inside : DeclaresOnly on n stms) :
    DeclaresOnly on n (scatterLambda k ps stms result ret) :=
  declaresOnly_opened bound ((declares_bundleBinders bound).bind fun _ _ _ =>
    (declaresOnly_bodyOf inside ((declaresOnly_tangents _).bind fun _ _ _ =>
      declaresOnly_pure)).bind fun _ _ _ => declaresOnly_pure)

theorem declaresOnly_accOperator (stm : Stm) (rank : Nat) (bound : ∀ p ∈ ps, on p.name)
    (inside : DeclaresOnly on n stms) :
    DeclaresOnly on n (accOperator stm rank ps stms result ret) := by
  have values : ∀ p ∈ ps.drop rank, on p.name := fun p mem => bound p (List.mem_of_mem_drop mem)
  have oldValues : ∀ p ∈ (ps.drop rank).take ((ps.drop rank).length / 2), on p.name :=
    fun p mem => values p (List.mem_of_mem_take mem)
  have newValues : ∀ p ∈ (ps.drop rank).drop ((ps.drop rank).length / 2), on p.name :=
    fun p mem => values p (List.mem_of_mem_drop mem)
  unfold accOperator
  split
  · exact declares_throw _
  · exact declaresOnly_opened bound ((declares_newTangents oldValues).bind fun _ _ _ =>
      (declares_newTangents newValues).bind fun _ _ _ =>
        (declaresOnly_bodyOf inside ((declaresOnly_tangents _).bind fun _ _ _ =>
          declaresOnly_pure)).bind fun _ _ _ => declaresOnly_pure)

end

/-! Statements with bodies. -/

/-- Every name that the outline binds, at any depth, may be declared. -/
abbrev Covered (on : Name → Prop) (o : Outline) : Prop := ∀ x ∈ o.binders, on x

@[simp] theorem covered_append (o p : Outline) :
    Covered on (o ++ p) ↔ Covered on o ∧ Covered on p := by
  simp only [Covered, binders_append, List.forall_mem_append]

@[simp] theorem covered_block (inside rest : Outline) :
    Covered on (block inside rest) ↔ Covered on inside ∧ Covered on rest := by
  simp only [Covered, binders, List.forall_mem_append]

@[simp] theorem covered_binds (x : Name) (rest : Outline) :
    Covered on (binds x rest) ↔ on x ∧ Covered on rest := by
  simp only [Covered, binders, List.forall_mem_cons]

@[simp] theorem covered_params (ps : List Param) :
    Covered on (paramOutline ps) ↔ ∀ p ∈ ps, on p.name := by
  simp [Covered, mem_binders_paramOutline]

theorem declares_branch (stm : Stm) {cond : Operand} {yes no : Diff Body} {ret : List Ty}
    {sort : BranchSort}
    (bound : ∀ p ∈ stm.pat, on p.name) (inYes : DeclaresOnly on n yes)
    (inNo : DeclaresOnly on n no) :
    Declares on n (branch stm cond yes no ret sort) fun _ types => Records n stm.pat types :=
  inYes.within.bind fun _ _ _ => inNo.within.bind fun _ _ _ =>
    (declares_bundleBinders bound).bind fun _ _ widens => declares_emit widens bound

theorem declares_loop (stm : Stm) {merge : List (Param × Operand)} {form : LoopForm}
    {body : Diff Body} {o : Outline} (covered : Covered on (loopOutline merge form o))
    (bound : ∀ p ∈ stm.pat, on p.name) (inside : Covered on o → DeclaresOnly on n body) :
    Declares on n (loop stm merge form body) fun _ types => Records n stm.pat types := by
  have finish (merge : List (Param × Operand)) (form : LoopForm) (inside : DeclaresOnly on n body) :
      Declares on n (do
        let pat ← bundleBinders stm.pat
        let body ← within body
        build (Build.add ⟨pat, stm.aux, .loop merge form body⟩))
        fun _ types => Records n stm.pat types :=
    (declares_bundleBinders bound).bind fun _ _ widens =>
      inside.within.bind fun _ _ _ => declares_emit widens bound
  cases form with
  | whileHolds cond =>
    simp only [loopOutline, covered_append, covered_block, covered_params,
      List.forall_mem_map] at covered
    obtain ⟨-, ⟨params, inBody, -⟩, -⟩ := covered
    exact (declaresOnly_bundleMerge params).bind fun merge' _ _ => finish merge' _ (inside inBody)
  | forBelow counter w upper rows =>
    simp only [loopOutline, covered_append, covered_block, covered_binds, covered_params,
      List.forall_mem_map] at covered
    obtain ⟨-, ⟨⟨params, inCounter, inRows⟩, inBody, -⟩, -⟩ := covered
    exact (declaresOnly_bundleMerge params).bind fun merge' _ _ =>
      (declaresOnly_bundleRows inRows).bind fun rows' _ _ =>
        (declares_build (Build.declares_declare (.inl inCounter))).bind fun _ _ _ =>
          finish merge' _ (inside inBody)

theorem declares_regionPattern (inputs : List AccInput) {pat : List Param}
    (bound : ∀ p ∈ pat, on p.name) :
    Declares on n (regionPattern inputs pat) fun qs _ => Widens n pat qs := by
  induction inputs generalizing pat with
  | nil => exact declares_bundleBinders bound
  | cons input inputs ih =>
    have first : ∀ p ∈ pat.take input.arrays.length, on p.name :=
      fun p mem => bound p (List.mem_of_mem_take mem)
    have rest : ∀ p ∈ pat.drop input.arrays.length, on p.name :=
      fun p mem => bound p (List.mem_of_mem_drop mem)
    refine (declares_newTangents first).bind fun tans _ renewed => ?_
    refine (ih rest).bind fun qs _ widens => declares_pure fun _ => ?_
    have both := (widens_beside renewed).append widens
    rwa [List.take_append_drop] at both

theorem declaresOnly_accArrays (arrays : List Name) : DeclaresOnly on n (accArrays arrays) :=
  (declaresOnly_companions arrays).bind fun _ _ _ => declaresOnly_pure

theorem declares_withAcc (stm : Stm) {inputs : List AccInput} {bundledInputs : Diff (List AccInput)}
    {lam : Diff Lambda} (bound : ∀ p ∈ stm.pat, on p.name)
    (inInputs : DeclaresOnly on n bundledInputs) (inside : DeclaresOnly on n lam) :
    Declares on n (withAcc stm inputs bundledInputs lam) fun _ types => Records n stm.pat types := by
  by_cases short : stm.pat.length < total (inputs.map (·.arrays.length))
  · simp only [withAcc, short, if_true]
    exact declares_throw _
  · simp only [withAcc, short, if_false]
    exact inInputs.bind fun _ _ _ => (declares_regionPattern inputs bound).bind fun _ _ widens =>
      inside.bind fun _ _ _ => declares_emit widens bound

theorem declares_screma (stm : Stm) {width : Operand} (arrays : List Name)
    {scans : Diff (List Combiner)} {reduces : Diff (List Reduction)} {map : Diff Lambda}
    (bound : ∀ p ∈ stm.pat, on p.name) (inScans : DeclaresOnly on n scans)
    (inReduces : DeclaresOnly on n reduces) (inside : DeclaresOnly on n map) :
    Declares on n (screma stm width arrays scans reduces map)
      fun _ types => Records n stm.pat types :=
  (declares_bundleBinders bound).bind fun _ _ widens =>
    (declaresOnly_bundleNames arrays).bind fun _ _ _ => inScans.bind fun _ _ _ =>
      inReduces.bind fun _ _ _ => inside.bind fun _ _ _ => declares_emit widens bound

theorem declares_stream (stm : Stm) {width : Operand} (arrays : List Name) {form : Diff StreamForm}
    (inits : List Operand) {lam : Diff Lambda} (bound : ∀ p ∈ stm.pat, on p.name)
    (inForm : DeclaresOnly on n form) (inside : DeclaresOnly on n lam) :
    Declares on n (stream stm width arrays form inits lam)
      fun _ types => Records n stm.pat types :=
  (declares_bundleBinders bound).bind fun _ _ widens => inside.bind fun _ _ _ =>
    (declaresOnly_bundleNames arrays).bind fun _ _ _ =>
      (declaresOnly_bundleNeutral inits).bind fun _ _ _ => inForm.bind fun _ _ _ =>
        declares_emit widens bound

theorem declares_hist (stm : Stm) {width : Operand} {ops : Diff (List Histogram)}
    {bucket : Diff Lambda} (arrays : List Name) (bound : ∀ p ∈ stm.pat, on p.name)
    (inOps : DeclaresOnly on n ops) (inside : DeclaresOnly on n bucket) :
    Declares on n (hist stm width ops bucket arrays) fun _ types => Records n stm.pat types :=
  (declares_bundleBinders bound).bind fun _ _ widens => inOps.bind fun _ _ _ =>
    inside.bind fun _ _ _ => (declaresOnly_bundleNames arrays).bind fun _ _ _ =>
      declares_emit widens bound

theorem declares_scatter (stm : Stm) {width : Operand} {lam : Diff Lambda} (arrays : List Name)
    (dests : List ScatterDest) (bound : ∀ p ∈ stm.pat, on p.name)
    (inside : DeclaresOnly on n lam) :
    Declares on n (scatter stm width lam arrays dests) fun _ types => Records n stm.pat types := by
  refine (declaresOnly_mapM fun d _ => ?_).bind fun destTans _ _ => ?_
  · exact (declaresOnly_companion d.array).bind fun _ _ _ => declaresOnly_pure
  · exact (declares_newTangents bound).bind fun tans _ renewed =>
      (declaresOnly_bundleNames arrays).bind fun _ _ _ => inside.bind fun _ _ _ =>
        declares_emit (widens_beside renewed) bound

/-! Programs. -/

theorem covered_lambda {l : Lambda} (covered : Covered on l.outline) :
    (∀ p ∈ l.params, on p.name) ∧ Covered on (stmOutline l.body.stms) := by
  obtain ⟨ps, ⟨ss, result⟩, ret⟩ := l
  simp only [Lambda.outline, Body.outline, covered_append, covered_params] at covered
  exact ⟨covered.1.1.1, covered.1.1.2.1⟩

variable {rules : Rules}

mutual

theorem declares_stm (stm : Stm) (covered : Covered on stm.outline) :
    Declares on n (Forward.stm rules stm) fun _ types => Records n stm.pat types := by
  obtain ⟨pat, aux, e⟩ := stm
  simp only [Stm.outline, covered_append, covered_params] at covered
  obtain ⟨⟨-, covered⟩, bound⟩ := covered
  cases e with
  | basic op =>
    cases op with
    | updateAcc acc position values => exact declares_updateAcc _ bound
    | _ => exact declares_basicOp rules _ bound
  | apply func args ret => exact declares_apply rules _ bound
  | branch cond yes no ret sort =>
    simp only [Exp.outline, covered_append, covered_block] at covered
    obtain ⟨⟨⟨⟨-, inYes, -⟩, inNo, -⟩, -⟩, -⟩ := covered
    exact declares_branch _ bound (declaresOnly_body yes inYes) (declaresOnly_body no inNo)
  | loop merge form b =>
    simp only [Exp.outline, covered_append] at covered
    exact declares_loop _ covered.1.1 bound fun inBody => declaresOnly_body b inBody
  | withAcc inputs lam =>
    simp only [Exp.outline, covered_append, covered_block] at covered
    exact declares_withAcc _ bound (declaresOnly_accInputs _ inputs covered.1)
      (declaresOnly_lambda lam covered.2.1)
  | screma width arrays scans reduces map =>
    simp only [Exp.outline, covered_append, covered_block] at covered
    obtain ⟨⟨⟨-, inScans⟩, inReduces⟩, inMap, -⟩ := covered
    exact declares_screma _ arrays bound (declaresOnly_combiners scans inScans)
      (declaresOnly_reductions reduces inReduces) (declaresOnly_lambda map inMap)
  | stream width arrays form inits lam =>
    obtain ⟨ps, b, ret⟩ := lam
    simp only [Exp.outline, covered_append, covered_block] at covered
    obtain ⟨⟨-, inForm⟩, inLam, -⟩ := covered
    simp only [Lambda.outline, covered_append, covered_params] at inLam
    exact declares_stream _ arrays inits bound (declaresOnly_streamForm form inForm)
      (declaresOnly_streamLambda _ inLam.1.1.1 (declaresOnly_body b inLam.1.1.2))
  | hist width ops bucket arrays =>
    obtain ⟨ps, ⟨ss, result⟩, ret⟩ := bucket
    simp only [Exp.outline, covered_append, covered_block] at covered
    obtain ⟨⟨-, inOps⟩, inBucket, -⟩ := covered
    obtain ⟨params, inBody⟩ := covered_lambda inBucket
    exact declares_hist _ arrays bound (declaresOnly_histograms ops inOps)
      (declaresOnly_bucketLambda _ params (declaresOnly_stms ss inBody))
  | scatter width lam arrays dests =>
    obtain ⟨ps, ⟨ss, result⟩, ret⟩ := lam
    simp only [Exp.outline, covered_append, covered_block] at covered
    obtain ⟨params, inBody⟩ := covered_lambda covered.2.1
    exact declares_scatter _ arrays dests bound
      (declaresOnly_scatterLambda _ params (declaresOnly_stms ss inBody))

theorem declaresOnly_stms (ss : List Stm) (covered : Covered on (stmOutline ss)) :
    DeclaresOnly on n (stms rules ss) := by
  cases ss with
  | nil => exact declaresOnly_pure
  | cons stm ss =>
    simp only [stmOutline, covered_append] at covered
    exact (declares_stm stm covered.1).bind fun _ _ _ => declaresOnly_stms ss covered.2

theorem declaresOnly_body (b : Body) (covered : Covered on b.outline) :
    DeclaresOnly on n (body rules b) := by
  obtain ⟨ss, result⟩ := b
  simp only [Body.outline, covered_append] at covered
  exact declaresOnly_bundledBody result (declaresOnly_stms ss covered.1)

theorem declaresOnly_lambda (l : Lambda) (covered : Covered on l.outline) :
    DeclaresOnly on n (lambda rules l) := by
  obtain ⟨ps, b, ret⟩ := l
  simp only [Lambda.outline, covered_append, covered_params] at covered
  exact declaresOnly_lambdaOf covered.1.1.1 (declaresOnly_body b covered.1.1.2)

theorem declaresOnly_combiner (c : Combiner) (covered : Covered on c.outline) :
    DeclaresOnly on n (combiner rules c) := by
  obtain ⟨op, neutral⟩ := c
  simp only [Combiner.outline, covered_append, covered_block] at covered
  exact (declaresOnly_lambda op covered.2.1).bind fun _ _ _ =>
    (declaresOnly_bundleNeutral neutral).bind fun _ _ _ => declaresOnly_pure

theorem declaresOnly_combiners (cs : List Combiner) (covered : Covered on (combinerOutline cs)) :
    DeclaresOnly on n (combiners rules cs) := by
  cases cs with
  | nil => exact declaresOnly_pure
  | cons c cs =>
    simp only [combinerOutline, covered_append] at covered
    exact (declaresOnly_combiner c covered.1).bind fun _ _ _ =>
      (declaresOnly_combiners cs covered.2).bind fun _ _ _ => declaresOnly_pure

theorem declaresOnly_reductions (rs : List Reduction)
    (covered : Covered on (reductionOutline rs)) : DeclaresOnly on n (reductions rules rs) := by
  cases rs with
  | nil => exact declaresOnly_pure
  | cons r rs =>
    obtain ⟨commutative, c⟩ := r
    simp only [reductionOutline, covered_append] at covered
    exact (declaresOnly_combiner c covered.1).bind fun _ _ _ =>
      (declaresOnly_reductions rs covered.2).bind fun _ _ _ => declaresOnly_pure

theorem declaresOnly_streamForm (form : StreamForm) (covered : Covered on form.outline) :
    DeclaresOnly on n (streamForm rules form) := by
  cases form with
  | sequential => exact declaresOnly_pure
  | parallel order commutative op =>
    simp only [StreamForm.outline, covered_block] at covered
    exact (declaresOnly_lambda op covered.1).bind fun _ _ _ => declaresOnly_pure

theorem declaresOnly_histograms (hs : List Histogram) (covered : Covered on (histogramOutline hs)) :
    DeclaresOnly on n (histograms rules hs) := by
  cases hs with
  | nil => exact declaresOnly_pure
  | cons h hs =>
    obtain ⟨shape, race, dests, ⟨op, neutral⟩⟩ := h
    simp only [histogramOutline, Combiner.outline, covered_append, covered_block] at covered
    exact (declaresOnly_bundleNames dests).bind fun _ _ _ =>
      (declaresOnly_bundleNeutral neutral).bind fun _ _ _ =>
        (declaresOnly_lambda op covered.1.2.2.1).bind fun _ _ _ =>
          (declaresOnly_histograms hs covered.2).bind fun _ _ _ => declaresOnly_pure

theorem declaresOnly_accInputs (stm : Stm) (inputs : List AccInput)
    (covered : Covered on (accInputOutline inputs)) :
    DeclaresOnly on n (accInputs rules stm inputs) := by
  cases inputs with
  | nil => exact declaresOnly_pure
  | cons input rest =>
    obtain ⟨shape, arrays, combine⟩ := input
    cases combine with
    | none =>
      simp only [accInputOutline, covered_append] at covered
      exact (declaresOnly_accArrays arrays).bind fun _ _ _ =>
        (declaresOnly_accInputs stm rest covered.2).bind fun _ _ _ => declaresOnly_pure
    | some c =>
      obtain ⟨⟨ps, ⟨ss, result⟩, ret⟩, neutral⟩ := c
      simp only [accInputOutline, Combiner.outline, covered_append, covered_block] at covered
      obtain ⟨params, inBody⟩ := covered_lambda covered.1.2.2.1
      exact (declaresOnly_accArrays arrays).bind fun _ _ _ =>
        (declaresOnly_accOperator stm _ params (declaresOnly_stms ss inBody)).bind fun _ _ _ =>
          (declaresOnly_zeroOperands neutral).bind fun _ _ _ =>
            (declaresOnly_accInputs stm rest covered.2).bind fun _ _ _ => declaresOnly_pure

end

end Forward

end Cotangent
