import Cotangent.Proofs.Derivative.CopyRuns
import Cotangent.Proofs.Program.TypedCode
/-!
Copy code whose copies are declared at the types of what they copy. In a run on arguments of the declared
layouts it is always known what is copied.
-/
namespace Cotangent

open Outline

variable {I : Inputs} {types : NameTable Ty} {o : Origins}

theorem Ty.Alike.layout? {t u : Ty} (alike : u.Alike t) (σ : Store Scalar) : t.layout? σ = u.layout? σ := by
  cases u with
  | scalar k =>
    cases t with
    | scalar j =>
      obtain rfl := alike
      rfl
    | _ => exact alike.elim
  | array k shape unique =>
    cases t with
    | array j dims unique =>
      obtain ⟨rfl, rfl⟩ := alike
      rfl
    | _ => exact alike.elim
  | acc token shape elems unique => cases t <;> exact alike.elim

namespace Inputs

/-- The operand has the layout of the type. -/
def LaidOut (I : Inputs) (t : Ty) (src : Operand) : Prop :=
  ∃ L, t.layout? I.store = some L ∧ I.layout? src = some L

/-- Every name in the table is a copy of something of the layout of its type. -/
def Explains (I : Inputs) (types : NameTable Ty) (o : Origins) : Prop :=
  ∀ x t, types.find? x = some t → ∃ src, o.find? x = some src ∧ I.LaidOut t src

/-- What is laid out as a bool is one. -/
def Decided (I : Inputs) : Prop :=
  ∀ src, I.layout? src = some ⟨.bool, []⟩ → ∃ b, I.truth? src = some b

namespace Explains

theorem operand (explains : I.Explains types o) {x : Operand} {t : Ty} (copies : x.CopiesAt types t) :
    ∃ src, x.origin? o = some src ∧ I.LaidOut t src := by
  cases x with
  | const v => exact ⟨.const v, rfl, ⟨v.ty, []⟩, Ty.Alike.layout? copies I.store, rfl⟩
  | var x =>
    obtain ⟨u, declared, alike⟩ := copies
    obtain ⟨src, is, L, layout, layoutSrc⟩ := explains x u declared
    exact ⟨src, is, L, (alike.layout? I.store).trans layout, layoutSrc⟩

theorem operands (explains : I.Explains types o) {xs : List Operand} {ts : List Ty}
    (copies : List.Forall₂ (Operand.CopiesAt types) ts xs) :
    ∃ srcs, xs.mapM (·.origin? o) = some srcs ∧ List.Forall₂ I.LaidOut ts srcs := by
  simp only [option_mapM_iff]
  induction copies with
  | nil => exact ⟨[], .nil, .nil⟩
  | cons here rest ih =>
    obtain ⟨src, is, laid⟩ := explains.operand here
    obtain ⟨srcs, are, allLaid⟩ := ih
    exact ⟨src :: srcs, .cons is are, .cons laid allLaid⟩

theorem insert (explains : I.Explains types o) (x : Name) {t : Ty} {src : Operand}
    (laid : I.LaidOut t src) : I.Explains (types.insert x t) (o.insert x src) := by
  intro y u found
  rw [NameTable.find_insert] at found ⊢
  split at found
  · obtain rfl := Option.some.inj found
    exact ⟨src, by simp [*], laid⟩
  · rename_i other
    rw [if_neg other]
    exact explains y u found

theorem assign (explains : I.Explains types o) {pat : List Param} {srcs : List Operand}
    (laid : List.Forall₂ I.LaidOut (pat.map (·.ty)) srcs) :
    ∃ o', o.assign I pat srcs = some o' ∧ I.Explains (types.declare pat) o' := by
  rw [List.forall₂_map_left_iff] at laid
  refine ⟨_, Origins.assign_iff.mpr ⟨laid, rfl⟩, ?_⟩
  induction laid generalizing types o with
  | nil => exact explains
  | cons here rest ih => exact ih (explains.insert _ here)

end Explains

end Inputs

mutual

theorem copiesAt_exp (e : Exp) {types : NameTable Ty} {o : Origins} {ts : List Ty} (decided : I.Decided)
    (explains : I.Explains types o) (copies : e.CopiesAt types ts) :
    ∃ srcs, e.origins? I o = some srcs ∧ List.Forall₂ I.LaidOut ts srcs := by
  cases e with
  | basic op =>
    cases op with
    | operand x =>
      obtain ⟨t, rfl, copies⟩ := copies
      obtain ⟨src, is, laid⟩ := explains.operand copies
      exact ⟨[src], by simp [Exp.origins?, BasicOp.origins?, is], .cons laid .nil⟩
    | _ => exact copies.elim
  | branch cond yes no ret sort =>
    obtain ⟨isBool, inYes, inNo⟩ := copies
    obtain ⟨src, is, L, layout, layoutSrc⟩ := explains.operand isBool
    obtain rfl := Option.some.inj layout
    obtain ⟨b, truth⟩ := decided src layoutSrc
    rw [Exp.origins?, is, Option.bind_some, truth]
    cases b with
    | true => exact copiesAt_body yes decided explains inYes
    | false => exact copiesAt_body no decided explains inNo
  | _ => exact copies.elim

theorem declare_stms (ss : List Stm) {types : NameTable Ty} {o : Origins} (decided : I.Decided)
    (explains : I.Explains types o) (declare : StmsDeclare types ss) :
    ∃ o', stmsOrigins? I o ss = some o' ∧ I.Explains (types.declare (ss.flatMap (·.pat))) o' := by
  cases ss with
  | nil => exact ⟨o, rfl, explains⟩
  | cons s ss =>
    obtain ⟨pat, aux, e⟩ := s
    obtain ⟨here, rest⟩ := declare
    obtain ⟨srcs, are, laid⟩ := copiesAt_exp e decided explains here
    obtain ⟨mid, assigned, explains⟩ := explains.assign laid
    obtain ⟨o', known, explains⟩ := declare_stms ss decided explains rest
    refine ⟨o', ?_, ?_⟩
    · simp only [stmsOrigins?, Stm.origins?, are, assigned, known]
    · rw [List.flatMap_cons, NameTable.declare_append]
      exact explains

theorem copiesAt_body (b : Body) {types : NameTable Ty} {o : Origins} {ts : List Ty} (decided : I.Decided)
    (explains : I.Explains types o) (copies : b.CopiesAt types ts) :
    ∃ srcs, b.origins? I o = some srcs ∧ List.Forall₂ I.LaidOut ts srcs := by
  obtain ⟨ss, result⟩ := b
  obtain ⟨declare, results⟩ := copies
  obtain ⟨o', known, explains⟩ := declare_stms ss decided explains declare
  rw [Body.origins?, known]
  exact explains.operands results

end

section

variable {l : Lambda} {args : List Value}

theorem Lambda.Accepts.explains (accepts : l.Accepts args) (distinct : (l.params.map (·.name)).Nodup) :
    (l.inputs args).Explains (.declare .empty l.params) l.ownOrigins := by
  intro x t found
  rcases Builder.find_declared found with mem | ⟨-, found⟩
  · obtain ⟨v, L, -, layout, -⟩ := accepts.stands distinct _ mem
    refine ⟨.var x, find_ownOrigins distinct _ mem, L, layout, ?_⟩
    rw [Inputs.layout?, find_inputs args distinct _ mem]
    exact layout
  · simp [NameTable.find_empty] at found

theorem Lambda.Accepts.decided (accepts : l.Accepts args) (distinct : (l.params.map (·.name)).Nodup) :
    (l.inputs args).Decided := by
  have isBool {a : Scalar} (kind : a.ty = .bool) : ∃ b, a = .bool b := by
    cases a <;> simp_all [Scalar.ty]
  intro src layout
  cases src with
  | const v =>
    obtain ⟨b, rfl⟩ := isBool (congrArg Layout.elem (Option.some.inj layout))
    exact ⟨b, rfl⟩
  | var x =>
    obtain ⟨t, found, layout⟩ := Option.bind_eq_some_iff.mp layout
    rcases Builder.find_declared found with mem | ⟨-, found⟩
    · obtain ⟨v, L, stands, layout', fits⟩ := accepts.stands distinct _ mem
      obtain rfl := Option.some.inj (layout.symm.trans layout')
      obtain ⟨a, rfl, kind⟩ := fits.exists_scalar
      obtain ⟨b, rfl⟩ := isBool kind
      have value : (l.inputs args).store.value (.var x) = some (.scalar (.bool b)) := stands
      exact ⟨b, by rw [Inputs.truth?, value]⟩
    · simp [NameTable.find_empty] at found

/-- It is always known what copy code copies. -/
theorem Lambda.CopyCode.origins (code : l.CopyCode) (accepts : l.Accepts args)
    (distinct : (l.params.map (·.name)).Nodup) :
    ∃ srcs, l.origins? args = some srcs ∧ List.Forall₂ (l.inputs args).LaidOut l.ret srcs :=
  copiesAt_body l.body (accepts.decided distinct) (accepts.explains distinct) code.typed

end

end Cotangent
