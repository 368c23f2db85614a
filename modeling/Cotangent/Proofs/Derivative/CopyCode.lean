import Mathlib.Data.List.Forall2
import Cotangent.Derivative.Reverse
import Cotangent.Proofs.Derivative.Steps
import Cotangent.Proofs.Evaluation.Layouts
import Cotangent.Proofs.Program.IntegerCode
/-!
Copy code: statements that copy an operand, and conditionals over copy code. Whatever it binds is a copy
of a parameter or of a constant, and once the conditions are known so is which of them it copies.
-/
namespace Cotangent

open Outline

/-- An exact kind, or arrays of an exact kind whose dimensions are constants or among the names. -/
def Ty.Sized (sizes : List Name) : Ty → Prop
  | .scalar k => k.Exact
  | .array k shape _ => k.Exact ∧ shape ≠ [] ∧ ∀ x ∈ operandNames shape, x ∈ sizes
  | .acc .. => False

def BasicOp.CopyCode : BasicOp → Prop
  | .operand _ => True
  | _ => False

mutual

/-- Copy code whose types are sized by the names. -/
def Exp.CopyCode (sizes : List Name) : Exp → Prop
  | .basic op => op.CopyCode
  | .branch _ yes no ret _ =>
    yes.CopyCode sizes ∧ no.CopyCode sizes ∧ ∀ t ∈ ret, t.Sized sizes
  | .apply .. => False
  | .loop .. => False
  | .withAcc .. => False
  | .screma .. => False
  | .stream .. => False
  | .hist .. => False
  | .scatter .. => False

def Stm.CopyCode (sizes : List Name) : Stm → Prop
  | ⟨pat, _, e⟩ => (∀ p ∈ pat, p.ty.Sized sizes) ∧ e.CopyCode sizes

def StmsCopyCode (sizes : List Name) : List Stm → Prop
  | [] => True
  | s :: ss => s.CopyCode sizes ∧ StmsCopyCode sizes ss

def Body.CopyCode (sizes : List Name) : Body → Prop
  | ⟨ss, _⟩ => StmsCopyCode sizes ss

end

/-! Types of copies. -/

/-- The same kind and the same shape, whether or not the values are unique. -/
def Ty.Alike : Ty → Ty → Prop
  | .scalar k, .scalar j => k = j
  | .array k shape _, .array j dims _ => k = j ∧ shape = dims
  | _, _ => False

/-- A copy of the operand can be declared at the type. -/
def Operand.CopiesAt (types : NameTable Ty) (t : Ty) : Operand → Prop
  | .const v => (Ty.scalar v.ty).Alike t
  | .var x => ∃ u, types.find? x = some u ∧ u.Alike t

def BasicOp.CopiesAt (types : NameTable Ty) (ts : List Ty) : BasicOp → Prop
  | .operand x => ∃ t, ts = [t] ∧ x.CopiesAt types t
  | _ => False

mutual

/-- Whichever operands the expression copies, copies of them can be declared at the types. -/
def Exp.CopiesAt (types : NameTable Ty) (ts : List Ty) : Exp → Prop
  | .basic op => op.CopiesAt types ts
  | .branch cond yes no _ _ =>
    cond.CopiesAt types (.scalar .bool) ∧ yes.CopiesAt types ts ∧ no.CopiesAt types ts
  | .apply .. => False
  | .loop .. => False
  | .withAcc .. => False
  | .screma .. => False
  | .stream .. => False
  | .hist .. => False
  | .scatter .. => False

/-- The pattern is declared at the types of what it copies. -/
def Stm.Declares (types : NameTable Ty) : Stm → Prop
  | ⟨pat, _, e⟩ => e.CopiesAt types (pat.map (·.ty))

def StmsDeclare (types : NameTable Ty) : List Stm → Prop
  | [] => True
  | s :: ss => s.Declares types ∧ StmsDeclare (types.declare s.pat) ss

def Body.CopiesAt (types : NameTable Ty) (ts : List Ty) : Body → Prop
  | ⟨ss, result⟩ =>
    StmsDeclare types ss ∧
      List.Forall₂ (Operand.CopiesAt (types.declare (ss.flatMap (·.pat)))) ts result

end

/-- The parameters of a lambda size all types in it, each parameter those that come after it, and copies
    are declared at the types of what they copy. -/
structure Lambda.CopyCode (l : Lambda) : Prop where
  params : ∀ p ∈ l.params, p.ty.Sized (l.params.map (·.name))
  earlier : (paramOutline l.params).TypesIn []
  body : l.body.CopyCode (l.params.map (·.name))
  ret : ∀ t ∈ l.ret, t.Sized (l.params.map (·.name))
  typed : l.body.CopiesAt (.declare .empty l.params) l.ret

/-! What is copied. -/

/-- The number of rows that an operand stands for. -/
def Store.extent? (σ : Store Scalar) (x : Operand) : Option Nat :=
  match σ.value x with
  | some (.scalar (.int _ n)) => if 0 ≤ n then some n.toNat else none
  | _ => none

/-- The layout of the values of a type. -/
def Ty.layout? (σ : Store Scalar) : Ty → Option Layout
  | .scalar k => some ⟨k, []⟩
  | .array k shape _ => (shape.mapM σ.extent?).map (⟨k, ·⟩)
  | .acc .. => none

/-- The types and the values of the parameters. -/
structure Inputs where
  types : NameTable Ty
  store : Store Scalar

namespace Inputs

/-- The layout of a constant, or the one that a parameter is declared at. -/
def layout? (I : Inputs) : Operand → Option Layout
  | .const v => some ⟨v.ty, []⟩
  | .var x => (I.types.find? x).bind (·.layout? I.store)

def truth? (I : Inputs) (x : Operand) : Option Bool :=
  match I.store.value x with
  | some (.scalar (.bool b)) => some b
  | _ => none

end Inputs

/-- The constant or the parameter that each name is a copy of. -/
abbrev Origins := NameTable Operand

def Operand.origin? (o : Origins) : Operand → Option Operand
  | .const v => some (.const v)
  | .var x => o.find? x

def BasicOp.origins? (o : Origins) : BasicOp → Option (List Operand)
  | .operand x => (x.origin? o).map ([·])
  | _ => none

/-- The types are those that the operands are declared at. -/
def Inputs.declares (I : Inputs) (ts : List Ty) (xs : List Operand) : Bool :=
  match ts.mapM (·.layout? I.store) with
  | some layouts => xs.mapM I.layout? = some layouts
  | none => false

/-- A pattern binds copies of operands. It has to be declared at the layouts of what they copy. -/
def Origins.assign (I : Inputs) (o : Origins) (pat : List Param) (xs : List Operand) : Option Origins :=
  if I.declares (pat.map (·.ty)) xs then some (o.insertAll ((pat.map (·.name)).zip xs)) else none

mutual

/-- What the values of an expression are copies of, in the run on the inputs. -/
def Exp.origins? (I : Inputs) (o : Origins) : Exp → Option (List Operand)
  | .basic op => op.origins? o
  | .branch cond yes no _ _ =>
    match (cond.origin? o).bind I.truth? with
    | some true => yes.origins? I o
    | some false => no.origins? I o
    | none => none
  | .apply .. => none
  | .loop .. => none
  | .withAcc .. => none
  | .screma .. => none
  | .stream .. => none
  | .hist .. => none
  | .scatter .. => none

def Stm.origins? (I : Inputs) (o : Origins) : Stm → Option Origins
  | ⟨pat, _, e⟩ =>
    match e.origins? I o with
    | some xs => o.assign I pat xs
    | none => none

def stmsOrigins? (I : Inputs) (o : Origins) : List Stm → Option Origins
  | [] => some o
  | s :: ss =>
    match s.origins? I o with
    | some o => stmsOrigins? I o ss
    | none => none

def Body.origins? (I : Inputs) (o : Origins) : Body → Option (List Operand)
  | ⟨ss, result⟩ =>
    match stmsOrigins? I o ss with
    | some o => result.mapM (·.origin? o)
    | none => none

end

namespace Lambda

/-- The parameters bound to the arguments. -/
def inputs (l : Lambda) (args : List Value) : Inputs :=
  ⟨.declare .empty l.params, Store.initial.bound (l.params.map (·.name)) args⟩

/-- The arguments have the layouts that the parameters are declared at. -/
def Accepts (l : Lambda) (args : List Value) : Prop :=
  List.Forall₂ (fun p v => ∃ L, p.ty.layout? (l.inputs args).store = some L ∧ v.Fits L) l.params args

/-- The seeds have the layouts that the results are declared at. -/
def AcceptsSeeds (l : Lambda) (args seeds : List Value) : Prop :=
  List.Forall₂ (fun t v => ∃ L, t.layout? (l.inputs args).store = some L ∧ v.Fits L) l.ret seeds

/-- Each parameter is a copy of itself. -/
def ownOrigins (l : Lambda) : Origins :=
  NameTable.empty.insertAll (l.params.map fun p => (p.name, .var p.name))

/-- What the results are copies of, in the run on the arguments. -/
def origins? (l : Lambda) (args : List Value) : Option (List Operand) :=
  l.body.origins? (l.inputs args) l.ownOrigins

end Lambda

theorem stmsCopyCode_iff {sizes : List Name} (ss : List Stm) :
    StmsCopyCode sizes ss ↔ ∀ s ∈ ss, s.CopyCode sizes := by
  induction ss with
  | nil => simp [StmsCopyCode]
  | cons s ss ih => simp [StmsCopyCode, ih]

theorem body_copyCode {sizes : List Name} (b : Body) :
    b.CopyCode sizes ↔ ∀ s ∈ b.stms, s.CopyCode sizes := by
  obtain ⟨ss, result⟩ := b
  rw [Body.CopyCode, stmsCopyCode_iff]

theorem Stm.CopyCode.pattern {sizes : List Name} {s : Stm} (code : s.CopyCode sizes) :
    ∀ p ∈ s.pat, p.ty.Sized sizes := by
  cases s
  exact code.1

theorem Ty.Sized.names {sizes : List Name} {t : Ty} (sized : t.Sized sizes) :
    ∀ x ∈ t.names, x ∈ sizes := by
  cases t with
  | scalar k => simp [Ty.names]
  | array k shape unique => exact sized.2.2
  | acc token shape elems unique => exact sized.elim

theorem Ty.Sized.isAcc {sizes : List Name} {t : Ty} (sized : t.Sized sizes) : t.isAcc = false := by
  cases t with
  | acc token shape elems unique => exact sized.elim
  | _ => rfl

theorem option_mapM_congr {α β : Type} {f g : α → Option β} {xs : List α}
    (same : ∀ x ∈ xs, f x = g x) : xs.mapM f = xs.mapM g := by
  induction xs with
  | nil => rfl
  | cons x xs ih =>
    rw [List.mapM_cons, List.mapM_cons, same x (by simp), ih fun y mem => same y (by simp [mem])]

theorem forall₂_through {α β γ : Type} {P : α → γ → Prop} {Q : β → γ → Prop} {xs : List α}
    {ys : List β} : (∃ zs, List.Forall₂ P xs zs ∧ List.Forall₂ Q ys zs) ↔
      List.Forall₂ (fun x y => ∃ z, P x z ∧ Q y z) xs ys := by
  constructor
  · rintro ⟨zs, left, right⟩
    induction left generalizing ys with
    | nil =>
      obtain rfl := List.forall₂_nil_right_iff.mp right
      exact .nil
    | cons here rest ih =>
      obtain ⟨y, ys, there, tail, rfl⟩ := List.forall₂_cons_right_iff.mp right
      exact .cons ⟨_, here, there⟩ (ih tail)
  · intro all
    induction all with
    | nil => exact ⟨[], .nil, .nil⟩
    | cons here rest ih =>
      obtain ⟨z, left, right⟩ := here
      obtain ⟨zs, lefts, rights⟩ := ih
      exact ⟨z :: zs, .cons left lefts, .cons right rights⟩

theorem Inputs.declares_iff {I : Inputs} {ts : List Ty} {xs : List Operand} :
    I.declares ts xs ↔
      List.Forall₂ (fun t x => ∃ L, t.layout? I.store = some L ∧ I.layout? x = some L) ts xs := by
  rw [← forall₂_through]
  simp only [← option_mapM_iff, declares]
  cases ts.mapM (·.layout? I.store) <;> simp

/-- What a pattern is declared at, name by name. -/
theorem Origins.assign_iff {I : Inputs} {o o' : Origins} {pat : List Param} {xs : List Operand} :
    o.assign I pat xs = some o' ↔
      List.Forall₂ (fun p x => ∃ L, p.ty.layout? I.store = some L ∧ I.layout? x = some L) pat xs ∧
        o.insertAll ((pat.map (·.name)).zip xs) = o' := by
  have declared : I.declares (pat.map (·.ty)) xs ↔
      List.Forall₂ (fun p x => ∃ L, p.ty.layout? I.store = some L ∧ I.layout? x = some L) pat xs := by
    rw [Inputs.declares_iff, List.forall₂_map_left_iff]
  simp [Origins.assign, declared]

/-! Types. -/

theorem typeNames_of_sized {sizes : List Name} {ts : List Ty} (sized : ∀ t ∈ ts, t.Sized sizes) :
    ∀ x ∈ typeNames ts, x ∈ sizes := by
  intro x mem
  obtain ⟨t, inList, inType⟩ := (mem_typeNames _ _).mp mem
  exact (sized t inList).names x inType

/-! Fresh binders make copy code of copy code, with the same origins. -/

namespace Rename

variable {sizes : List Name} {r : Renaming}

theorem ty_sized {t : Ty} (sized : t.Sized sizes) (fixed : ∀ x ∈ sizes, r.look x = x) :
    ty t r = (t, r) := by
  cases t with
  | scalar k => rfl
  | array k shape unique =>
    have same : shape.map (Operand.renamed r) = shape := by
      refine (List.map_congr_left fun x mem => ?_).trans (List.map_id shape)
      cases x with
      | const v => rfl
      | var x => exact congrArg Operand.var (fixed x (sized.2.2 x (List.mem_flatMap.mpr
          ⟨.var x, mem, List.mem_singleton_self x⟩)))
    simp [ty, operands_apply, same]
  | acc token shape elems unique => exact sized.elim

theorem types_sized {ts : List Ty} (sized : ∀ t ∈ ts, t.Sized sizes)
    (fixed : ∀ x ∈ sizes, r.look x = x) : types ts r = (ts, r) := by
  induction ts with
  | nil => rfl
  | cons t ts ih =>
    simp [types, ty_sized (sized t (by simp)) fixed, ih fun u mem => sized u (by simp [mem])]

theorem param_apply (p : Param) (r : Renaming) :
    param p r = (⟨⟨r.supply.next⟩, (ty p.ty (binder p.name r).2).1⟩, (binder p.name r).2) := by
  have kept := (ty_apply p.ty (binder p.name r).2).1
  simp only [param, state_bind_apply, state_pure_apply, kept]
  rfl

theorem params_cons (p : Param) (ps : List Param) (r : Renaming) :
    params (p :: ps) r =
      (⟨⟨r.supply.next⟩, (ty p.ty (binder p.name r).2).1⟩ :: (params ps (binder p.name r).2).1,
        (params ps (binder p.name r).2).2) := by
  simp [params, List.mapM_cons, param_apply]

/-- Binders outside the sizes leave these alone. -/
theorem params_sized {ps : List Param} (sized : ∀ p ∈ ps, p.ty.Sized sizes)
    (fixed : ∀ x ∈ sizes, r.look x = x) (apart : ∀ p ∈ ps, p.name ∉ sizes) :
    (params ps r).1.map (·.ty) = ps.map (·.ty) ∧ ∀ x ∈ sizes, (params ps r).2.look x = x := by
  induction ps generalizing r with
  | nil => exact ⟨rfl, fixed⟩
  | cons p ps ih =>
    have kept : ∀ x ∈ sizes, (binder p.name r).2.look x = x := fun x mem => by
      have other : x ≠ p.name := fun same => apart p (by simp) (same ▸ mem)
      rw [Renaming.look_binder, if_neg other, fixed x mem]
    obtain ⟨types, later⟩ := ih (fun q mem => sized q (by simp [mem])) kept
      fun q mem => apart q (by simp [mem])
    rw [params_cons, ty_sized (sized p (by simp)) kept]
    exact ⟨by simp [types], later⟩

end Rename

/-- The new names of a scope are copies of what the old ones are copies of. -/
def Renaming.Follows (r : Renaming) (scope : Scope) (o o' : Origins) : Prop :=
  ∀ x ∈ scope, o'.find? (r.look x) = o.find? x

section

variable {r : Renaming} {scope target : Scope} {sizes : List Name} {o o' : Origins} {I : Inputs}

theorem Renaming.Follows.operand (follows : r.Follows scope o o') {x : Operand}
    (known : ∀ y ∈ x.names, y ∈ scope) : (x.renamed r).origin? o' = x.origin? o := by
  cases x with
  | const v => rfl
  | var x => exact follows x (known x (by simp [Operand.names]))

theorem Renaming.Follows.binder (follows : r.Follows scope o o') (into : r.Into scope target)
    (x : Name) (a : Operand) :
    (Rename.binder x r).2.Follows (x :: scope) (o.insert x a) (o'.insert ⟨r.supply.next⟩ a) := by
  intro y known
  rw [Renaming.look_binder, NameTable.find_insert, NameTable.find_insert]
  by_cases same : y = x
  · simp [same]
  · have known : y ∈ scope := (List.mem_cons.mp known).resolve_left same
    have old : r.look y ≠ ⟨r.supply.next⟩ := fun new => into.below.fresh (new ▸ into.look_mem y known)
    simp only [same, old, if_false]
    exact follows y known

theorem Renaming.Follows.params {ps : List Param} (follows : r.Follows scope o o')
    (into : r.Into scope target) {xs : List Operand} (length : xs.length = ps.length) :
    (Rename.params ps r).2.Follows ((paramOutline ps).after scope)
      (o.insertAll ((ps.map (·.name)).zip xs))
      (o'.insertAll (((Rename.params ps r).1.map (·.name)).zip xs)) := by
  induction ps generalizing r scope target o o' xs with
  | nil =>
    obtain rfl := List.length_eq_zero_iff.mp length
    exact follows
  | cons p ps ih =>
    obtain ⟨a, xs, rfl⟩ := List.exists_cons_of_length_eq_add_one length
    have rest := ih (follows.binder into p.name a) (into.binder p.name) (by simpa using length)
    rw [Rename.params_cons, paramOutline, Param.outline, after_append, after, after_mentionsAll]
    exact rest

/-- A pattern of the same types binds the same copies. -/
theorem Renaming.Follows.assign {pat : List Param} (follows : r.Follows scope o o')
    (into : r.Into scope target)
    (types : (Rename.params pat r).1.map (·.ty) = pat.map (·.ty)) (xs : List Operand) :
    Option.Rel ((Rename.params pat r).2.Follows ((paramOutline pat).after scope))
      (o.assign I pat xs) (o'.assign I (Rename.params pat r).1 xs) := by
  unfold Origins.assign
  rw [types]
  split
  · rename_i declared
    have length := (Inputs.declares_iff.mp declared).length_eq
    exact .some (follows.params into (by simpa using length.symm))
  · exact .none

end

mutual

theorem copies_renamedExp (e : Exp) {arity : Nat} {scope target : Scope} {sizes : List Name}
    {r : Renaming} (closed : (e.outline arity).Closed scope) (into : r.Into scope target)
    (known : ∀ x ∈ sizes, x ∈ scope) (fixed : ∀ x ∈ sizes, r.look x = x) (code : e.CopyCode sizes) :
    (Rename.exp e r).1.CopyCode sizes ∧ (Rename.exp e r).1.branchDepth = e.branchDepth ∧
      ∀ I o o', r.Follows scope o o' → (Rename.exp e r).1.origins? I o' = e.origins? I o := by
  cases e with
  | basic op =>
    cases op with
    | operand x =>
      simp only [Exp.outline, BasicOp.outline, closed_append, closed_readsAll] at closed
      refine ⟨trivial, rfl, fun I o o' follows => ?_⟩
      have same := follows.operand closed.1.1
      simp [Rename.exp, Rename.basicOp, Rename.operand_apply, Exp.origins?, BasicOp.origins?, same]
    | _ => exact code.elim
  | branch cond yes no ret sort =>
    obtain ⟨codeYes, codeNo, types⟩ := code
    simp only [Exp.outline, closed_append, closed_readsAll, after_append, after_readsAll, after,
      closed_block] at closed
    obtain ⟨⟨⟨⟨inScope, closedYes, -⟩, closedNo, -⟩, -⟩, -⟩ := closed
    obtain ⟨intoNo, keptYes⟩ := closedYes.1.into_block into
    obtain ⟨-, keptNo⟩ := closedNo.1.into_block intoNo
    rw [Rename.outline_body] at intoNo keptYes keptNo
    rw [Rename.outline_body] at keptNo
    have fixedNo : ∀ x ∈ sizes, (Rename.body yes r).2.look x = x := fun x mem =>
      (keptYes x (known x mem)).trans (fixed x mem)
    have fixedLast : ∀ x ∈ sizes, (Rename.body no (Rename.body yes r).2).2.look x = x :=
      fun x mem => (keptNo x (known x mem)).trans (fixedNo x mem)
    obtain ⟨renamedYes, depthYes, sameYes⟩ :=
      copies_renamedBody yes closedYes into known fixed codeYes
    obtain ⟨renamedNo, depthNo, sameNo⟩ :=
      copies_renamedBody no closedNo intoNo known fixedNo codeNo
    simp only [Rename.exp, state_bind_apply, state_pure_apply, Rename.operand_apply,
      Rename.types_sized types fixedLast, Exp.branchDepth, depthYes, depthNo]
    refine ⟨⟨renamedYes, renamedNo, types⟩, trivial, fun I o o' follows => ?_⟩
    have later : (Rename.body yes r).2.Follows scope o o' := fun x mem =>
      (congrArg o'.find? (keptYes x mem)).trans (follows x mem)
    simp only [Exp.origins?, follows.operand inScope, sameYes I o o' follows, sameNo I o o' later]
  | _ => exact code.elim

theorem copies_renamedStms (ss : List Stm) {scope target : Scope} {sizes : List Name}
    {r : Renaming} (closed : (stmOutline ss).Closed scope) (into : r.Into scope target)
    (known : ∀ x ∈ sizes, x ∈ scope) (fixed : ∀ x ∈ sizes, r.look x = x)
    (code : StmsCopyCode sizes ss) :
    StmsCopyCode sizes (Rename.stms ss r).1 ∧
      stmsBranchDepth (Rename.stms ss r).1 = stmsBranchDepth ss ∧
      ∀ I o o', r.Follows scope o o' →
        Option.Rel ((Rename.stms ss r).2.Follows ((stmOutline ss).after scope))
          (stmsOrigins? I o ss) (stmsOrigins? I o' (Rename.stms ss r).1) := by
  cases ss with
  | nil => exact ⟨trivial, rfl, fun I o o' follows => .some follows⟩
  | cons s ss =>
    obtain ⟨pat, aux, e⟩ := s
    obtain ⟨⟨sized, inExp⟩, rest⟩ := code
    rw [stmOutline, closed_append] at closed
    have inStm := (closed_stm _ _).mp closed.1
    obtain ⟨intoPattern, kept⟩ := inStm.2.1.1.into_block into
    rw [Rename.outline_exp] at intoPattern kept
    have fixedPattern : ∀ x ∈ sizes, (Rename.exp e r).2.look x = x := fun x mem =>
      (kept x (known x mem)).trans (fixed x mem)
    have apart : ∀ p ∈ pat, p.name ∉ sizes := fun p mem inSizes =>
      Builder.not_mem_of_params inStm.2.2.1 mem (known _ inSizes)
    obtain ⟨types, fixedRest⟩ := Rename.params_sized sized fixedPattern apart
    have walk : Rename.stm ⟨pat, aux, e⟩ r =
        (⟨(Rename.params pat (Rename.exp e r).2).1, ⟨aux.certs.map r.look, aux.attrs⟩,
          (Rename.exp e r).1⟩, (Rename.params pat (Rename.exp e r).2).2) := by
      simp [Rename.stm, Rename.names_apply]
    have intoRest := (closed.1.rename into).2
    rw [Rename.outline_stm, after_stm, walk] at intoRest
    rw [after_stm] at closed
    obtain ⟨renamedExp, depthExp, sameExp⟩ :=
      copies_renamedExp e inStm.2.1 into known fixed inExp
    obtain ⟨renamed, depth, same⟩ := copies_renamedStms ss closed.2 intoRest
      (fun x mem => mem_after _ (known x mem)) fixedRest rest
    have sizedPattern : ∀ p ∈ (Rename.params pat (Rename.exp e r).2).1, p.ty.Sized sizes := by
      intro p mem
      have inTypes := List.mem_map_of_mem (f := (·.ty)) mem
      rw [types] at inTypes
      obtain ⟨q, inPat, sameTy⟩ := List.mem_map.mp inTypes
      exact sameTy ▸ sized q inPat
    simp only [Rename.stms, state_bind_apply, state_pure_apply, walk, stmsBranchDepth, Stm.branchDepth,
      depthExp, depth]
    refine ⟨⟨⟨sizedPattern, renamedExp⟩, renamed⟩, trivial, fun I o o' follows => ?_⟩
    have carried : (Rename.exp e r).2.Follows scope o o' := fun x mem =>
      (congrArg o'.find? (kept x mem)).trans (follows x mem)
    rw [stmOutline, after_append, after_stm]
    simp only [stmsOrigins?, Stm.origins?, sameExp I o o' follows]
    cases e.origins? I o with
    | none => exact .none
    | some xs =>
      have assigned := carried.assign intoPattern types xs (I := I)
      revert assigned
      simp only
      generalize o.assign I pat xs = first
      generalize o'.assign I (Rename.params pat (Rename.exp e r).2).1 xs = second
      rintro (_ | _)
      · exact same I _ _ ‹_›
      · exact .none

theorem copies_renamedBody (b : Body) {scope target : Scope} {sizes : List Name}
    {r : Renaming} (closed : b.outline.Closed scope) (into : r.Into scope target)
    (known : ∀ x ∈ sizes, x ∈ scope) (fixed : ∀ x ∈ sizes, r.look x = x) (code : b.CopyCode sizes) :
    (Rename.body b r).1.CopyCode sizes ∧ (Rename.body b r).1.branchDepth = b.branchDepth ∧
      ∀ I o o', r.Follows scope o o' → (Rename.body b r).1.origins? I o' = b.origins? I o := by
  obtain ⟨ss, result⟩ := b
  simp only [Body.outline, closed_append, closed_readsAll] at closed
  obtain ⟨renamed, depth, same⟩ := copies_renamedStms ss closed.1 into known fixed code
  simp only [Rename.body, state_bind_apply, state_pure_apply, Rename.operands_apply]
  refine ⟨renamed, depth, fun I o o' follows => ?_⟩
  have inside := same I o o' follows
  revert inside
  simp only [Body.origins?]
  generalize stmsOrigins? I o ss = first
  generalize stmsOrigins? I o' (Rename.stms ss r).1 = second
  rintro (later | _)
  · have inScope : ∀ x ∈ result, ∀ y ∈ x.names, y ∈ (stmOutline ss).after scope :=
      fun x mem y inX => closed.2 y (List.mem_flatMap.mpr ⟨x, mem, inX⟩)
    exact List.mapM_map.trans (option_mapM_congr fun x mem => later.operand (inScope x mem))
  · rfl

end

theorem Body.CopyCode.rename {b : Body} {scope : Scope} {s : Supply} {sizes : List Name}
    (code : b.CopyCode sizes) (closed : b.outline.Closed scope) (below : scope.Below s.next)
    (known : ∀ x ∈ sizes, x ∈ scope) :
    (b.rename s).1.CopyCode sizes ∧ (b.rename s).1.branchDepth = b.branchDepth ∧
      ∀ I o, (b.rename s).1.origins? I o = b.origins? I o := by
  obtain ⟨renamed, depth, same⟩ := copies_renamedBody b closed
    (⟨fun _ known => known, below⟩ : (⟨s, .empty⟩ : Renaming).Into scope scope) known (fun _ _ => rfl) code
  exact ⟨renamed, depth, fun I o => same I o o fun _ _ => rfl⟩

theorem stmsOrigins?_append (I : Inputs) (o : Origins) (ss ts : List Stm) :
    stmsOrigins? I o (ss ++ ts) = (stmsOrigins? I o ss).bind (stmsOrigins? I · ts) := by
  induction ss generalizing o with
  | nil => rfl
  | cons s ss ih =>
    rw [List.cons_append, stmsOrigins?, stmsOrigins?]
    cases s.origins? I o with
    | none => rfl
    | some after => exact ih after

/-! Types speak of parameters only. -/

theorem typesIn_sizedParams {sizes : List Name} {ps : List Param}
    (sized : ∀ p ∈ ps, p.ty.Sized sizes) {scope : Scope} (known : ∀ x ∈ sizes, x ∈ scope) :
    (paramOutline ps).TypesIn scope := by
  induction ps generalizing scope with
  | nil => trivial
  | cons p ps ih =>
    simp only [paramOutline, Param.outline, typesIn_append, TypesIn, typesIn_mentionsAll, after,
      after_mentionsAll]
    exact ⟨fun x mem => List.mem_cons_of_mem _ (known x ((sized p (by simp)).names x mem)),
      ih (fun q mem => sized q (by simp [mem])) fun x mem => List.mem_cons_of_mem _ (known x mem)⟩

mutual

theorem typesIn_copyStms (ss : List Stm) {sizes : List Name} (code : StmsCopyCode sizes ss)
    {scope : Scope} (known : ∀ x ∈ sizes, x ∈ scope) : (stmOutline ss).TypesIn scope := by
  cases ss with
  | nil => trivial
  | cons s ss =>
    obtain ⟨pat, aux, e⟩ := s
    obtain ⟨⟨sized, inExp⟩, rest⟩ := code
    rw [stmOutline, typesIn_append, Stm.outline, typesIn_append, typesIn_append]
    refine ⟨⟨⟨typesIn_readsAll _ _, ?_⟩, typesIn_sizedParams sized fun x mem => mem_after _ (known x mem)⟩,
      typesIn_copyStms ss rest fun x mem => mem_after _ (known x mem)⟩
    cases e with
    | basic op => cases op <;> simp_all [Exp.outline, BasicOp.outline, BasicOp.typeNames, TypesIn,
        Exp.CopyCode, BasicOp.CopyCode]
    | branch cond yes no ret sort =>
      obtain ⟨inYes, inNo, types⟩ := inExp
      simp only [Exp.outline, typesIn_append, typesIn_readsAll, typesIn_mentionsAll, TypesIn,
        after_append, after_readsAll, after]
      exact ⟨⟨⟨⟨trivial, typesIn_copyBody yes inYes known, trivial⟩, typesIn_copyBody no inNo known,
        trivial⟩, fun x mem => known x (typeNames_of_sized types x mem)⟩, trivial⟩
    | _ => exact inExp.elim

theorem typesIn_copyBody (b : Body) {sizes : List Name} (code : b.CopyCode sizes) {scope : Scope}
    (known : ∀ x ∈ sizes, x ∈ scope) : b.outline.TypesIn scope := by
  obtain ⟨ss, result⟩ := b
  rw [Body.outline, typesIn_append]
  exact ⟨typesIn_copyStms ss code known, typesIn_readsAll _ _⟩

end

theorem Lambda.CopyCode.typesInScope {l : Lambda} (code : l.CopyCode) : l.TypesInScope := by
  obtain ⟨ps, b, ret⟩ := l
  have known : ∀ x ∈ ps.map (·.name), x ∈ (paramOutline ps).after [] := fun x mem =>
    (mem_after_paramOutline ..).mpr (.inr (List.mem_map.mp mem))
  simp only [Lambda.TypesInScope, Lambda.outline, typesIn_append, typesIn_mentionsAll, TypesIn,
    after_append]
  refine ⟨⟨⟨code.earlier, typesIn_copyBody b code.body known⟩, fun x mem => ?_⟩, trivial⟩
  exact mem_after _ (known x (typeNames_of_sized code.ret x mem))

end Cotangent
