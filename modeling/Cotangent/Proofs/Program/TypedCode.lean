import Mathlib.Order.Defs.PartialOrder
import Cotangent.Proofs.Derivative.Steps
import Cotangent.Proofs.Program.IntegerCode
/-!
Typing of scalar code: copies, operations, comparisons, conversions, calls and conditionals over numbers
and bools. Every operand has the type that its operator declares, a call fits the signature of its
function, and a pattern, the results of a body and the bodies of a conditional have the types that are
declared for them. Typing survives a larger table of types and fresh binders.
-/
namespace Cotangent

open Outline

/-- The type of the numbers of some kind, or that of the bools. -/
def Ty.IsValue (t : Ty) : Prop := ∃ k, t = .scalar k ∧ k ≠ .cert

def BasicOp.HasType (types : NameTable Ty) (t : Ty) : BasicOp → Prop
  | .operand x => x.HasType types t
  | .unary op x => t = .scalar op.ty ∧ x.HasType types (.scalar op.ty)
  | .binary op x y =>
    t = .scalar op.ty ∧ x.HasType types (.scalar op.ty) ∧ y.HasType types (.scalar op.ty)
  | .compare op x y =>
    t = .scalar .bool ∧ x.HasType types (.scalar op.ty) ∧ y.HasType types (.scalar op.ty)
  | .convert op x => t = .scalar op.target ∧ x.HasType types (.scalar op.source)
  | _ => False

mutual

/-- The expression is well-typed scalar code and yields values of the types. -/
def Exp.HasTypes (types : NameTable Ty) (ts : List Ty) : Exp → Prop
  | .basic op => ∃ t, ts = [t] ∧ op.HasType types t
  | .apply func args ret =>
    ∃ kinds k, Rules.standard.signature func = some (kinds, k) ∧
      List.Forall₂ (fun kind x => x.HasType types (.scalar kind)) kinds args ∧
      ret = [.scalar k] ∧ ret = ts
  | .branch cond yes no ret _ =>
    cond.HasType types (.scalar .bool) ∧ ret = ts ∧ yes.HasTypes types ts ∧ no.HasTypes types ts
  | .loop .. => False
  | .withAcc .. => False
  | .screma .. => False
  | .stream .. => False
  | .hist .. => False
  | .scatter .. => False

def Stm.WellTyped (types : NameTable Ty) : Stm → Prop
  | ⟨pat, _, e⟩ => (∀ p ∈ pat, p.ty.IsValue) ∧ e.HasTypes types (pat.map (·.ty))

/-- Each statement is typed under the patterns of those before it. -/
def StmsWellTyped (types : NameTable Ty) : List Stm → Prop
  | [] => True
  | s :: ss => s.WellTyped types ∧ StmsWellTyped (types.declare s.pat) ss

def Body.HasTypes (types : NameTable Ty) (ts : List Ty) : Body → Prop
  | ⟨ss, result⟩ =>
    StmsWellTyped types ss ∧
      List.Forall₂ (Operand.HasType (types.declare (ss.flatMap (·.pat)))) ts result

end

structure Lambda.WellTyped (l : Lambda) : Prop where
  params : ∀ p ∈ l.params, p.ty.IsValue
  ret : ∀ t ∈ l.ret, t.IsValue
  body : l.body.HasTypes (.declare .empty l.params) l.ret

theorem Ty.IsValue.isScalar {t : Ty} (value : t.IsValue) : t.IsScalar := by
  obtain ⟨k, rfl, -⟩ := value
  exact ⟨k, rfl⟩

theorem isValue_scalar {k : ScalarType} : (Ty.scalar k).IsValue ↔ k ≠ .cert := by
  simp [Ty.IsValue]

/-! Tables of types. -/

namespace NameTable

/-- A larger table has every entry of a smaller one. -/
instance {α : Type} : Preorder (NameTable α) where
  le s t := ∀ x v, s.find? x = some v → t.find? x = some v
  le_refl _ _ _ found := found
  le_trans _ _ _ first second x v found := second x v (first x v found)

variable {types later : NameTable Ty} {ps qs : List Param}

theorem empty_le {α : Type} (t : NameTable α) : .empty ≤ t := by
  intro x v found
  simp [find_empty] at found

theorem insert_mono (le : types ≤ later) (x : Name) (t : Ty) :
    types.insert x t ≤ later.insert x t := by
  intro y u found
  rw [find_insert] at found ⊢
  split
  · rename_i same
    rwa [if_pos same] at found
  · rename_i other
    rw [if_neg other] at found
    exact le y u found

theorem declare_mono (le : types ≤ later) (ps : List Param) : types.declare ps ≤ later.declare ps := by
  induction ps generalizing types later with
  | nil => exact le
  | cons p ps ih => exact ih (insert_mono le p.name p.ty)

/-- Names that the table knows nothing of can be declared. -/
theorem le_declare (absent : ∀ p ∈ ps, types.find? p.name = none) : types ≤ types.declare ps := by
  intro x t found
  refine (find_insertAll_of_not_mem _ _ _ fun q mem same => ?_).trans found
  obtain ⟨p, inList, rfl⟩ := List.mem_map.mp mem
  have unknown : types.find? x = none := same ▸ absent p inList
  simp [unknown] at found

theorem declare_le (le : types ≤ later) (known : ∀ p ∈ ps, later.find? p.name = some p.ty) :
    types.declare ps ≤ later := by
  induction ps generalizing types with
  | nil => exact le
  | cons p ps ih =>
    refine ih (fun y t found => ?_) fun q mem => known q (by simp [mem])
    rw [find_insert] at found
    split at found
    · rename_i same
      rw [same, known p (by simp)]
      exact found
    · exact le y t found

theorem declare_append (types : NameTable Ty) (ps qs : List Param) :
    types.declare (ps ++ qs) = (types.declare ps).declare qs := by
  simp [declare, insertAll]

theorem find_declare_of_mem (distinct : (ps.map (·.name)).Nodup) {p : Param} (mem : p ∈ ps) :
    (types.declare ps).find? p.name = some p.ty := by
  induction ps generalizing types with
  | nil => simp at mem
  | cons q ps ih =>
    obtain ⟨absent, distinct⟩ := List.nodup_cons.mp distinct
    rcases List.mem_cons.mp mem with rfl | mem
    · have kept : ((types.insert p.name p.ty).declare ps).find? p.name = _ :=
        find_insertAll_of_not_mem _ _ _ fun r inPairs same => absent (by
          obtain ⟨s, inList, rfl⟩ := List.mem_map.mp inPairs
          exact List.mem_map.mpr ⟨s, inList, same⟩)
      exact kept.trans (by rw [find_insert, if_pos rfl])
    · exact ih distinct mem

end NameTable

open NameTable

variable {types later : NameTable Ty}

/-! A larger table. -/

theorem Operand.HasType.mono {x : Operand} {t : Ty} (typed : x.HasType types t)
    (le : types ≤ later) : x.HasType later t := by
  cases x with
  | const v => exact typed
  | var x => exact le x t typed

theorem operands_mono {ts : List Ty} {xs : List Operand}
    (typed : List.Forall₂ (Operand.HasType types) ts xs) (le : types ≤ later) :
    List.Forall₂ (Operand.HasType later) ts xs :=
  typed.imp fun _ _ here => here.mono le

theorem BasicOp.HasType.mono {op : BasicOp} {t : Ty} (typed : op.HasType types t)
    (le : types ≤ later) : op.HasType later t := by
  cases op with
  | operand x => exact Operand.HasType.mono typed le
  | unary op x => exact ⟨typed.1, typed.2.mono le⟩
  | binary op x y => exact ⟨typed.1, typed.2.1.mono le, typed.2.2.mono le⟩
  | compare op x y => exact ⟨typed.1, typed.2.1.mono le, typed.2.2.mono le⟩
  | convert op x => exact ⟨typed.1, typed.2.mono le⟩
  | _ => exact absurd typed (by simp [BasicOp.HasType])

mutual

theorem expHasTypes_mono (e : Exp) {types later : NameTable Ty} {ts : List Ty}
    (typed : e.HasTypes types ts) (le : types ≤ later) : e.HasTypes later ts := by
  cases e with
  | basic op =>
    obtain ⟨t, rfl, typed⟩ := typed
    exact ⟨t, rfl, typed.mono le⟩
  | apply func args ret =>
    obtain ⟨kinds, k, found, inArgs, returns⟩ := typed
    exact ⟨kinds, k, found, inArgs.imp fun _ _ here => here.mono le, returns⟩
  | branch cond yes no ret sort =>
    obtain ⟨isBool, returns, inYes, inNo⟩ := typed
    exact ⟨isBool.mono le, returns, bodyHasTypes_mono yes inYes le, bodyHasTypes_mono no inNo le⟩
  | _ => exact absurd typed (by simp [Exp.HasTypes])

theorem stmsWellTyped_mono (ss : List Stm) {types later : NameTable Ty}
    (typed : StmsWellTyped types ss) (le : types ≤ later) : StmsWellTyped later ss := by
  cases ss with
  | nil => trivial
  | cons s ss =>
    obtain ⟨pat, aux, e⟩ := s
    obtain ⟨⟨values, here⟩, rest⟩ := typed
    exact ⟨⟨values, expHasTypes_mono e here le⟩, stmsWellTyped_mono ss rest (declare_mono le pat)⟩

theorem bodyHasTypes_mono (b : Body) {types later : NameTable Ty} {ts : List Ty}
    (typed : b.HasTypes types ts) (le : types ≤ later) : b.HasTypes later ts := by
  obtain ⟨ss, result⟩ := b
  exact ⟨stmsWellTyped_mono ss typed.1 le, operands_mono typed.2 (declare_mono le _)⟩

end

theorem stmsWellTyped_append (ss ts : List Stm) :
    StmsWellTyped types (ss ++ ts) ↔
      StmsWellTyped types ss ∧ StmsWellTyped (types.declare (ss.flatMap (·.pat))) ts := by
  induction ss generalizing types with
  | nil => exact ⟨fun typed => ⟨trivial, typed⟩, And.right⟩
  | cons s ss ih =>
    rw [List.cons_append, StmsWellTyped, StmsWellTyped, ih, List.flatMap_cons, declare_append, and_assoc]

theorem value_of_wellTyped {ss : List Stm} (typed : StmsWellTyped types ss) :
    ∀ p ∈ ss.flatMap (·.pat), p.ty.IsValue := by
  induction ss generalizing types with
  | nil => simp
  | cons s ss ih =>
    obtain ⟨pat, aux, e⟩ := s
    rw [List.flatMap_cons, List.forall_mem_append]
    exact ⟨typed.1.1, ih typed.2⟩

theorem body_hasTypes (b : Body) (ts : List Ty) : b.HasTypes types ts ↔
    StmsWellTyped types b.stms ∧
      List.Forall₂ (Operand.HasType (types.declare (b.stms.flatMap (·.pat)))) ts b.result := by
  obtain ⟨ss, result⟩ := b
  rfl

/-! Well-typed code is scalar code. -/

mutual

theorem scalarCode_of_typedExp (e : Exp) {types : NameTable Ty} {ts : List Ty}
    (typed : e.HasTypes types ts) (scalar : ∀ t ∈ ts, t.IsScalar) : e.ScalarCode ts.length := by
  cases e with
  | basic op =>
    obtain ⟨t, -, typed⟩ := typed
    cases op <;> trivial
  | apply func args ret =>
    obtain ⟨kinds, k, found, inArgs, rfl, rfl⟩ := typed
    exact ⟨rfl, ⟨_, found, inArgs.length_eq.symm⟩, k, rfl⟩
  | branch cond yes no ret sort =>
    obtain ⟨-, rfl, inYes, inNo⟩ := typed
    exact ⟨scalarCode_of_typedBody yes inYes, scalarCode_of_typedBody no inNo, scalar⟩
  | _ => exact absurd typed (by simp [Exp.HasTypes])

theorem scalarCode_of_typedStms (ss : List Stm) {types : NameTable Ty}
    (typed : StmsWellTyped types ss) : StmsScalarCode ss := by
  cases ss with
  | nil => trivial
  | cons s ss =>
    obtain ⟨pat, aux, e⟩ := s
    obtain ⟨⟨values, here⟩, rest⟩ := typed
    have scalar : ∀ p ∈ pat, p.ty.IsScalar := fun p mem => (values p mem).isScalar
    have code := scalarCode_of_typedExp e here (by simpa using scalar)
    rw [List.length_map] at code
    exact ⟨⟨scalar, code⟩, scalarCode_of_typedStms ss rest⟩

theorem scalarCode_of_typedBody (b : Body) {types : NameTable Ty} {ts : List Ty}
    (typed : b.HasTypes types ts) : b.ScalarCode := by
  obtain ⟨ss, result⟩ := b
  exact scalarCode_of_typedStms ss typed.1

end

theorem Lambda.WellTyped.scalarCode {l : Lambda} (typed : l.WellTyped) : l.ScalarCode where
  params p mem := (typed.params p mem).isScalar
  body := scalarCode_of_typedBody l.body typed.body
  ret t mem := (typed.ret t mem).isScalar

/-! Fresh binders. -/

/-- The table knows names of the scope only, and their new names have the same types in the other. -/
structure Renaming.Types (r : Renaming) (scope : Scope) (types later : NameTable Ty) : Prop where
  inside : ∀ x t, types.find? x = some t → x ∈ scope
  kept : ∀ x t, types.find? x = some t → later.find? (r.look x) = some t

section

variable {r : Renaming} {scope target : Scope}

theorem Renaming.Types.operand (keeps : r.Types scope types later) {x : Operand} {t : Ty}
    (typed : x.HasType types t) : (x.renamed r).HasType later t := by
  cases x with
  | const v => exact typed
  | var x => exact keeps.kept x t typed

theorem Renaming.Types.binder (keeps : r.Types scope types later) (into : r.Into scope target)
    (x : Name) (t : Ty) :
    (Rename.binder x r).2.Types (x :: scope) (types.insert x t)
      (later.insert ⟨r.supply.next⟩ t) where
  inside y u found := by
    rw [find_insert] at found
    split at found
    · rename_i same
      exact same ▸ List.mem_cons_self
    · exact List.mem_cons_of_mem _ (keeps.inside y u found)
  kept y u found := by
    rw [find_insert] at found
    rw [Renaming.look_binder, find_insert]
    split
    · rename_i same
      rw [if_pos same] at found
      rw [if_pos rfl]
      exact found
    · rename_i other
      rw [if_neg other] at found
      have old : r.look y ≠ ⟨r.supply.next⟩ := fun new =>
        into.below.fresh (new ▸ into.look_mem y (keeps.inside y u found))
      rw [if_neg old]
      exact keeps.kept y u found

theorem Renaming.Types.params {ps : List Param} (keeps : r.Types scope types later)
    (into : r.Into scope target) (scalar : ∀ p ∈ ps, p.ty.IsScalar) :
    (Rename.params ps r).2.Types ((paramOutline ps).after scope) (types.declare ps)
      (later.declare (Rename.params ps r).1) ∧
      (Rename.params ps r).1.map (·.ty) = ps.map (·.ty) := by
  induction ps generalizing r scope target types later with
  | nil => exact ⟨keeps, rfl⟩
  | cons p ps ih =>
    obtain ⟨x, t⟩ := p
    obtain ⟨k, rfl⟩ : t.IsScalar := scalar ⟨x, t⟩ (by simp)
    have renamed : Rename.param ⟨x, .scalar k⟩ r =
        (⟨⟨r.supply.next⟩, .scalar k⟩, (Rename.binder x r).2) := by
      simp [Rename.param, Rename.ty, Rename.binder, Supply.fresh]
    obtain ⟨rest, same⟩ := ih (keeps.binder into x (.scalar k)) (into.binder x)
      fun q mem => scalar q (by simp [mem])
    have walk : Rename.params (⟨x, .scalar k⟩ :: ps) r =
        (⟨⟨r.supply.next⟩, .scalar k⟩ :: (Rename.params ps (Rename.binder x r).2).1,
          (Rename.params ps (Rename.binder x r).2).2) := by
      simp [Rename.params, List.mapM_cons, renamed]
    rw [walk]
    exact ⟨rest, by simp [same]⟩

theorem Renaming.Types.basic {op : BasicOp} {t : Ty} (keeps : r.Types scope types later)
    (typed : op.HasType types t) : (Rename.basicOp op r).1.HasType later t := by
  cases op with
  | operand x => simpa [Rename.basicOp, Rename.operand_apply, BasicOp.HasType] using keeps.operand typed
  | unary op x =>
    have both := And.intro typed.1 (keeps.operand typed.2)
    simpa [Rename.basicOp, Rename.operand_apply, BasicOp.HasType] using both
  | binary op x y =>
    have both := And.intro (keeps.operand typed.2.1) (keeps.operand typed.2.2)
    simpa [Rename.basicOp, Rename.operand_apply, BasicOp.HasType] using And.intro typed.1 both
  | compare op x y =>
    have both := And.intro (keeps.operand typed.2.1) (keeps.operand typed.2.2)
    simpa [Rename.basicOp, Rename.operand_apply, BasicOp.HasType] using And.intro typed.1 both
  | convert op x =>
    have both := And.intro typed.1 (keeps.operand typed.2)
    simpa [Rename.basicOp, Rename.operand_apply, BasicOp.HasType] using both
  | _ => exact absurd typed (by simp [BasicOp.HasType])

end

mutual

theorem typed_renamedExp (e : Exp) {arity : Nat} {scope target : Scope}
    {types later : NameTable Ty} {r : Renaming} {ts : List Ty}
    (closed : (e.outline arity).Closed scope) (into : r.Into scope target)
    (keeps : r.Types scope types later) (scalar : ∀ t ∈ ts, t.IsScalar)
    (typed : e.HasTypes types ts) : (Rename.exp e r).1.HasTypes later ts := by
  cases e with
  | basic op =>
    obtain ⟨t, rfl, typed⟩ := typed
    exact ⟨t, rfl, keeps.basic typed⟩
  | apply func args ret =>
    obtain ⟨kinds, k, found, inArgs, rfl, rfl⟩ := typed
    simp only [Rename.exp, state_bind_apply, state_pure_apply, Rename.operands_apply,
      Rename.types_scalar scalar]
    refine ⟨kinds, k, found, List.forall₂_map_right_iff.mpr (inArgs.imp ?_), rfl, rfl⟩
    exact fun kind x here => keeps.operand here
  | branch cond yes no ret sort =>
    obtain ⟨isBool, rfl, inYes, inNo⟩ := typed
    simp only [Exp.outline, closed_append, closed_readsAll, after_append, after_readsAll, after,
      closed_block] at closed
    obtain ⟨⟨⟨⟨-, closedYes, -⟩, closedNo, -⟩, -⟩, -⟩ := closed
    obtain ⟨intoNo, same⟩ := closedYes.1.into_block into
    rw [Rename.outline_body] at intoNo same
    have keepsNo : (Rename.body yes r).2.Types scope types later :=
      ⟨keeps.inside, fun x t found =>
        (congrArg later.find? (same x (keeps.inside x t found))).trans (keeps.kept x t found)⟩
    simp only [Rename.exp, state_bind_apply, state_pure_apply, Rename.operand_apply,
      Rename.types_scalar scalar]
    exact ⟨keeps.operand isBool, rfl, typed_renamedBody yes closedYes into keeps inYes,
      typed_renamedBody no closedNo intoNo keepsNo inNo⟩
  | _ => exact absurd typed (by simp [Exp.HasTypes])

theorem typed_renamedStms (ss : List Stm) {scope target : Scope} {types later : NameTable Ty}
    {r : Renaming} (closed : (stmOutline ss).Closed scope) (into : r.Into scope target)
    (keeps : r.Types scope types later) (typed : StmsWellTyped types ss) :
    StmsWellTyped later (Rename.stms ss r).1 ∧
      (Rename.stms ss r).2.Types ((stmOutline ss).after scope)
        (types.declare (ss.flatMap (·.pat)))
        (later.declare ((Rename.stms ss r).1.flatMap (·.pat))) := by
  cases ss with
  | nil => exact ⟨trivial, keeps⟩
  | cons s ss =>
    obtain ⟨pat, aux, e⟩ := s
    obtain ⟨⟨values, here⟩, rest⟩ := typed
    rw [stmOutline, closed_append] at closed
    obtain ⟨-, inExp, -⟩ := (closed_stm _ _).mp closed.1
    have scalar : ∀ p ∈ pat, p.ty.IsScalar := fun p mem => (values p mem).isScalar
    obtain ⟨intoPattern, same⟩ := inExp.1.into_block into
    rw [Rename.outline_exp] at intoPattern same
    have keepsPattern : (Rename.exp e r).2.Types scope types later :=
      ⟨keeps.inside, fun x t found =>
        (congrArg later.find? (same x (keeps.inside x t found))).trans (keeps.kept x t found)⟩
    obtain ⟨bound, sameTypes⟩ := keepsPattern.params intoPattern scalar
    have walk : Rename.stm ⟨pat, aux, e⟩ r =
        (⟨(Rename.params pat (Rename.exp e r).2).1, ⟨aux.certs.map r.look, aux.attrs⟩,
          (Rename.exp e r).1⟩, (Rename.params pat (Rename.exp e r).2).2) := by
      simp [Rename.stm, Rename.names_apply]
    have intoRest := (closed.1.rename into).2
    rw [Rename.outline_stm, after_stm] at intoRest
    rw [after_stm] at closed
    simp only [walk] at intoRest
    obtain ⟨inside, afterwards⟩ := typed_renamedStms ss closed.2 intoRest bound rest
    rw [stmOutline, after_append, after_stm]
    simp only [Rename.stms, state_bind_apply, state_pure_apply, walk, List.flatMap_cons,
      declare_append]
    refine ⟨⟨⟨fun q mem => ?_, ?_⟩, inside⟩, afterwards⟩
    · have inTypes := List.mem_map_of_mem (f := (·.ty)) mem
      rw [sameTypes] at inTypes
      obtain ⟨p, inPat, sameType⟩ := List.mem_map.mp inTypes
      exact sameType ▸ values p inPat
    · rw [sameTypes]
      exact typed_renamedExp e inExp into keeps (by simpa using scalar) here

theorem typed_renamedBody (b : Body) {scope target : Scope} {types later : NameTable Ty}
    {r : Renaming} {ts : List Ty} (closed : b.outline.Closed scope) (into : r.Into scope target)
    (keeps : r.Types scope types later) (typed : b.HasTypes types ts) :
    (Rename.body b r).1.HasTypes later ts := by
  obtain ⟨ss, result⟩ := b
  simp only [Body.outline, closed_append] at closed
  obtain ⟨inside, afterwards⟩ := typed_renamedStms ss closed.1 into keeps typed.1
  simp only [Rename.body, state_bind_apply, state_pure_apply, Rename.operands_apply]
  exact ⟨inside, List.forall₂_map_right_iff.mpr (typed.2.imp fun t x here => afterwards.operand here)⟩

end

theorem Body.HasTypes.rename {b : Body} {scope : Scope} {s : Supply} {ts : List Ty}
    (typed : b.HasTypes types ts) (closed : b.outline.Closed scope)
    (inside : ∀ x t, types.find? x = some t → x ∈ scope) (below : scope.Below s.next) :
    (b.rename s).1.HasTypes types ts :=
  typed_renamedBody b closed ⟨fun _ known => known, below⟩ ⟨inside, fun _ _ found => found⟩ typed

end Cotangent
