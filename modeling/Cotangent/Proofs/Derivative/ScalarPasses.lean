import Cotangent.Proofs.Derivative.ForwardProgram
import Cotangent.Proofs.Derivative.ReverseProgram
import Cotangent.Proofs.Derivative.ScalarSteps
/-!
Repeated differentiation of scalar code. Either mode succeeds on checked scalar code and makes checked
scalar code of it, so any number of passes may follow one another.
-/
namespace Cotangent

open Outline Diff

variable {s : DiffState} {source : Scope}

/-- Every name of the scope has a type. -/
abbrev Typed (s : DiffState) (source : Scope) : Prop := ∀ x ∈ source, s.builder.Typed x

theorem Typed.reaches {t : DiffState} (typed : Typed s source)
    (reaches : s.builder.Reaches t.builder) : Typed t source :=
  fun x known => reaches.typed x (typed x known)

namespace Forward

theorem works_tangent (plain : s.builder.Plain) {x : Operand} (typed : Typed s x.names) :
    Passes (tangent x) s := by
  cases x with
  | const v => exact works_pure plain trivial
  | var x =>
    refine (works_companion plain (typed x (by simp [Operand.names]))).bind fun _ t reaches _ => ?_
    exact works_pure reaches.plain trivial

theorem works_newTangent (plain : s.builder.Plain) {p : Param} (scalar : p.ty.IsScalar) :
    Works (newTangent p) s fun q _ => q.ty.IsScalar := by
  refine ⟨_, _, gives_newTangent scalar.isAcc s, ?_, scalar⟩
  have drawn := plain.draw (n := s.builder.supply.next + 1) (Nat.le_succ _)
  have tangent : ∀ q ∈ [Param.mk ⟨s.builder.supply.next⟩ p.ty], q.ty.IsScalar := by simpa using scalar
  exact drawn.trans (drawn.plain.declare tangent)

theorem works_bundleBinders (plain : s.builder.Plain) {ps : List Param}
    (scalar : ∀ p ∈ ps, p.ty.IsScalar) :
    Works (bundleBinders ps) s fun qs _ => (∀ q ∈ qs, q.ty.IsScalar) ∧ ∀ p ∈ ps, p ∈ qs := by
  have scalarTangents : ∀ q ∈ tangentsOf s ps, q.ty.IsScalar := by
    intro q mem
    have inTypes := List.mem_map_of_mem (f := (·.ty)) mem
    rw [tangentsOf, types_paramsFrom] at inTypes
    obtain ⟨p, inList, same⟩ := List.mem_map.mp inTypes
    exact same ▸ scalar p inList
  refine ⟨_, _, gives_bundleBinders (fun p mem => (scalar p mem).isAcc) s, ?_, ?_⟩
  · have drawn := plain.draw (n := s.builder.supply.next + ps.length) (Nat.le_add_right _ _)
    exact drawn.trans (drawn.plain.declare scalarTangents)
  · refine ⟨forall_mem_interleave scalar scalarTangents, fun p mem => mem_interleave_left ?_ mem⟩
    simpa [tangentsOf] using congrArg List.length (types_paramsFrom _ (ps.map (·.ty)))

/-- The tangent of a scalar operation is scalar code, wherever it is put. -/
theorem works_tangentExp (plain : s.builder.Plain) {op : BasicOp} (code : op.ScalarCode)
    (varies : isConstant op = false) (typed : Typed s op.names) (stm : Stm) :
    Works (tangentExp .standard stm op) s fun act _ =>
      ∀ b : Builder, b.Plain → b.Reaches (act b).2 ∧ (act b).1.ScalarCode 1 := by
  cases op with
  | operand x =>
    refine (works_tangent plain typed).bind fun _ t reaches _ => works_pure reaches.plain ?_
    exact fun b plain => ⟨plain.refl, trivial⟩
  | unary op x =>
    refine (works_tangent plain typed).bind fun dx t reaches _ => works_pure reaches.plain ?_
    exact Builder.lowers _ ((Formula.known_ofOperand _ _).mul
      (known_unary op (Formula.known_ofOperand _ _)))
  | binary op x y =>
    have left : Typed s x.names := fun z mem => typed z (by simp [BasicOp.names, operandNames, mem])
    have right : Typed s y.names := fun z mem => typed z (by simp [BasicOp.names, operandNames, mem])
    refine (works_tangent plain left).bind fun dx t first _ => ?_
    refine (works_tangent first.plain (right.reaches first)).bind fun dy u second _ =>
      works_pure second.plain ?_
    obtain ⟨px, py⟩ := known_binary op (Formula.known_ofOperand op.ty x)
      (Formula.known_ofOperand op.ty y)
    exact Builder.lowers _ (((Formula.known_ofOperand _ _).mul px).add
      ((Formula.known_ofOperand _ _).mul py))
  | convert op x =>
    refine (works_tangent plain typed).bind fun _ t reaches _ => works_pure reaches.plain ?_
    exact fun b plain => ⟨plain.refl, trivial⟩
  | compare op x y => simp [isConstant] at varies
  | assert cond msg => simp [isConstant] at varies
  | _ => exact absurd code (by simp [BasicOp.ScalarCode])

theorem works_basicOp (plain : s.builder.Plain) {stm : Stm} {op : BasicOp} {p : Param}
    (code : op.ScalarCode) (whole : stm.ScalarCode) (alone : stm.pat = [p])
    (scalar : p.ty.IsScalar) (typed : Typed s op.names) :
    Works (basicOp .standard stm op) s fun _ t => ∀ q ∈ stm.pat, t.builder.Typed q.name := by
  refine (works_build (plain.add whole)).bind fun _ t first added => ?_
  have bound : ∀ q ∈ stm.pat, t.builder.Typed q.name := by
    rw [added.2]
    exact Builder.typed_add stm s.builder
  cases varies : isConstant op with
  | true => exact works_pure first.plain bound
  | false =>
    refine (works_single first.plain alone).bind ?_
    rintro _ _ - ⟨rfl, rfl⟩
    refine (works_tangentExp first.plain code varies (typed.reaches first) stm).bind
      fun act u second lowered => ?_
    refine (works_newTangent second.plain scalar).bind fun tan v third isScalar => ?_
    obtain ⟨reaches, last⟩ := lowered v.builder third.plain
    have emitted := reaches.plain.add (s := ⟨[tan], stm.aux, (act v.builder).1⟩)
      ⟨by simpa using isScalar, last⟩
    refine (works_build (m := do Build.add ⟨[tan], stm.aux, ← act⟩) (reaches.trans emitted)).mono
      fun _ w fourth _ q mem => ?_
    exact fourth.typed _ (third.typed _ (second.typed _ (bound q mem)))

theorem works_apply (plain : s.builder.Plain) {stm : Stm} {func : String} {args : List Operand}
    {p : Param} (known : KnownCall func args.length) (whole : stm.ScalarCode)
    (alone : stm.pat = [p]) (scalar : p.ty.IsScalar) (typed : Typed s (operandNames args)) :
    Works (apply .standard stm func args) s fun _ t => ∀ q ∈ stm.pat, t.builder.Typed q.name := by
  refine (works_signature plain known).bind ?_
  rintro ⟨kinds, ret⟩ _ - ⟨found, length, rfl⟩
  refine (works_single plain alone).bind ?_
  rintro _ _ - ⟨rfl, rfl⟩
  refine (works_build (plain.add whole)).bind fun _ t first added => ?_
  have bound : ∀ q ∈ stm.pat, t.builder.Typed q.name := by
    rw [added.2]
    exact Builder.typed_add stm s.builder
  refine (works_partials first.plain found length).bind ?_
  rintro ds _ - ⟨partials, rfl⟩
  refine (works_mapM (P := Formula.Known) first.plain fun a mem u second => ?_).bind
    fun terms u second inTerms => ?_
  · obtain ⟨inArgs, inPartials⟩ := List.of_mem_zip mem
    have inList := (List.of_mem_zip inArgs).2
    refine (works_tangent second.plain fun x inArg => ?_).bind fun dx v third _ =>
      works_pure third.plain ((Formula.known_ofOperand _ dx).mul (partials _ inPartials))
    exact (typed.reaches (first.trans second)) x (List.mem_flatMap.mpr ⟨_, inList, inArg⟩)
  · refine (works_newTangent second.plain scalar).bind fun tan v third isScalar => ?_
    refine (works_build (third.plain.bindFormula isScalar stm.aux ?_)).mono
      fun _ w fourth _ q mem => ?_
    · cases terms with
      | nil => exact Formula.known_zero ret
      | cons d ds =>
        obtain ⟨head, tail⟩ := List.forall_mem_cons.mp inTerms.2
        exact head.sum tail
    · exact fourth.typed _ (third.typed _ (second.typed _ (bound q mem)))

theorem works_bundleOperands (plain : s.builder.Plain) {xs : List Operand}
    (typed : Typed s (operandNames xs)) : Passes (bundleOperands xs) s := by
  refine (works_mapM (P := fun _ => True) plain fun x mem t reaches => ?_).bind
    fun xss t reaches _ => works_pure reaches.plain trivial
  have here : Typed t x.names := fun y inX =>
    typed.reaches reaches y (List.mem_flatMap.mpr ⟨x, mem, inX⟩)
  have test : Works (isAccOperand x) t fun acc u => acc = false ∧ t = u := by
    cases x with
    | const v => exact works_pure reaches.plain ⟨rfl, rfl⟩
    | var y =>
      refine (works_typeOf reaches.plain (here y (by simp [Operand.names]))).bind ?_
      rintro ty _ - ⟨isScalar, rfl⟩
      exact works_pure reaches.plain ⟨isScalar.isAcc, rfl⟩
  refine test.bind ?_
  rintro _ _ - ⟨rfl, rfl⟩
  exact (works_tangent reaches.plain here).bind fun _ u further _ => works_pure further.plain trivial

theorem works_branch {stm : Stm} {cond : Operand} {yes no : Diff Body}
    {ret : List Ty} {sort : BranchSort} (types : ∀ t ∈ ret, t.IsScalar)
    (pattern : ∀ p ∈ stm.pat, p.ty.IsScalar)
    (inYes : Works yes s fun b _ => b.ScalarCode)
    (inNo : ∀ t, s.builder.Reaches t.builder → Works no t fun b _ => b.ScalarCode) :
    Works (branch stm cond yes no ret sort) s fun _ t => ∀ q ∈ stm.pat, t.builder.Typed q.name := by
  refine (works_within inYes).bind fun b t first yesCode => ?_
  refine (works_within (inNo t first)).bind fun c u second noCode => ?_
  refine (works_bundleBinders second.plain pattern).bind fun pat v third bundled => ?_
  have retTypes : ∀ t ∈ bundledTypes ret, t.IsScalar := by
    rw [bundledTypes_eq fun t mem => (types t mem).isAcc]
    exact forall_mem_interleave types types
  have emitted := third.plain.add
    (s := ⟨pat, stm.aux, .branch cond b c (bundledTypes ret) sort⟩)
    ⟨bundled.1, yesCode, noCode, retTypes⟩
  refine (works_build emitted).mono fun _ w _ added q mem => ?_
  rw [added.2]
  exact Builder.typed_add _ v.builder q (bundled.2 q mem)

theorem works_bundledBody (plain : s.builder.Plain) {stms : Diff Unit} {result : List Operand}
    {inner : Scope}
    (works : ∀ t, s.builder.Reaches t.builder → Works stms t fun _ u => Typed u inner)
    (known : ∀ x ∈ operandNames result, x ∈ inner) :
    Works (bundledBody stms result) s fun b _ => b.ScalarCode := by
  refine works_bodyOf plain fun u _ start => ?_
  refine (works u start).bind fun _ v reaches typed => ?_
  exact works_bundleOperands reaches.plain fun x mem => typed x (known x mem)

mutual

/-- One case for each kind of statement of scalar code. -/
theorem works_stm (stm : Stm) (code : stm.ScalarCode) {s : DiffState} {source : Scope}
    (plain : s.builder.Plain) (typed : Typed s source) (accepted : stm.outline.Accepted source) :
    Works (Forward.stm .standard stm) s fun _ t => ∀ q ∈ stm.pat, t.builder.Typed q.name := by
  obtain ⟨pat, aux, e⟩ := stm
  have whole := code
  obtain ⟨pattern, inExp⟩ := code
  simp only [Stm.outline, accepted_append, accepted_readsAll, after_readsAll] at accepted
  cases e with
  | basic op =>
    simp only [Exp.outline, BasicOp.outline, accepted_append, accepted_readsAll, Accepted]
      at accepted
    obtain ⟨⟨-, ⟨reads, -⟩, arity, -⟩, -⟩ := accepted
    obtain ⟨p, rfl⟩ := List.length_eq_one_iff.mp arity
    have works : Works (basicOp .standard ⟨[p], aux, .basic op⟩ op) s fun _ t =>
        ∀ q ∈ [p], t.builder.Typed q.name :=
      works_basicOp plain inExp whole rfl (pattern p (by simp)) fun x mem => typed x (reads x mem)
    cases op with
    | updateAcc acc position values => exact absurd inExp (by simp [Exp.ScalarCode, BasicOp.ScalarCode])
    | _ => exact works
  | apply func args ret =>
    obtain ⟨arity, known, -⟩ := inExp
    simp only [Exp.outline, accepted_append, accepted_readsAll] at accepted
    obtain ⟨p, rfl⟩ := List.length_eq_one_iff.mp arity
    exact works_apply plain known whole rfl (pattern p (by simp)) fun x mem =>
      typed x (accepted.1.2.1.1 x mem)
  | branch cond yes no ret sort =>
    obtain ⟨inYes, inNo, types⟩ := inExp
    simp only [Exp.outline, accepted_append, accepted_readsAll, after_append, after_readsAll,
      after, Accepted] at accepted
    obtain ⟨⟨-, ⟨⟨⟨-, closedYes, -⟩, closedNo, -⟩, -⟩, -⟩, -⟩ := accepted
    exact works_branch types pattern (works_body yes inYes plain typed closedYes)
      fun t reaches => works_body no inNo reaches.plain (typed.reaches reaches) closedNo
  | _ => exact absurd inExp (by simp [Exp.ScalarCode])

theorem works_stms (ss : List Stm) (code : StmsScalarCode ss) {s : DiffState} {source : Scope}
    (plain : s.builder.Plain) (typed : Typed s source) (accepted : (stmOutline ss).Accepted source) :
    Works (stms .standard ss) s fun _ t => Typed t ((stmOutline ss).after source) := by
  cases ss with
  | nil => exact works_pure plain typed
  | cons stm ss =>
    obtain ⟨here, rest⟩ := code
    simp only [stmOutline, accepted_append, after_append] at accepted ⊢
    refine (works_stm stm here plain typed accepted.1).bind fun _ t reaches bound => ?_
    refine works_stms ss rest reaches.plain (fun x known => ?_) accepted.2
    rw [after_stm, mem_after_paramOutline] at known
    rcases known with known | ⟨p, mem, rfl⟩
    · exact typed.reaches reaches x known
    · exact bound p mem

theorem works_body (b : Body) (code : b.ScalarCode) {s : DiffState} {source : Scope}
    (plain : s.builder.Plain) (typed : Typed s source) (accepted : b.outline.Accepted source) :
    Works (body .standard b) s fun b _ => b.ScalarCode := by
  obtain ⟨ss, result⟩ := b
  simp only [Body.outline, accepted_append, accepted_readsAll] at accepted
  exact works_bundledBody plain
    (fun t reaches => works_stms ss code reaches.plain (typed.reaches reaches) accepted.1) accepted.2

end

mutual

/-- Scalar code has no binders that interfere. -/
theorem fine_of_scalarStms (ss : List Stm) (code : StmsScalarCode ss) :
    (∀ part ∈ stmParts ss, part.Fine) ∧ ∀ stm ∈ ss, stm.leaks = [] := by
  cases ss with
  | nil => simp [stmParts]
  | cons stm ss =>
    obtain ⟨pat, aux, e⟩ := stm
    obtain ⟨⟨pattern, inExp⟩, rest⟩ := code
    obtain ⟨tail, plain⟩ := fine_of_scalarStms ss rest
    have types {ts : List Ty} (scalar : ∀ t ∈ ts, t.IsScalar) : ∀ part ∈ ts.map Part.ty, part.Fine := by
      simpa [Part.Fine] using fun t mem => (scalar t mem).isAcc
    have patTypes : ∀ part ∈ pat.map fun p => Part.ty p.ty, part.Fine := by
      simpa [Part.Fine] using fun p mem => (pattern p mem).isAcc
    simp only [stmParts, Stm.parts, List.forall_mem_append, List.forall_mem_cons]
    cases e with
    | basic op =>
      have apart : (Stm.mk pat aux (.basic op)).Apart := by
        simp [Stm.Apart, Exp.outline, BasicOp.outline]
      have noTypes : ∀ part ∈ (Exp.basic op).parts, part.Fine := by
        cases op <;> simp_all [Exp.parts, BasicOp.types, Exp.ScalarCode, BasicOp.ScalarCode]
      have supported : (Stm.mk pat aux (.basic op)).Supported := by
        cases op <;> simp_all [Stm.Supported, Exp.ScalarCode, BasicOp.ScalarCode]
      exact ⟨⟨⟨⟨supported, apart⟩, patTypes, noTypes⟩, tail⟩, rfl, plain⟩
    | apply func args ret =>
      obtain ⟨arity, known, k, rfl⟩ := inExp
      have apart : (Stm.mk pat aux (.apply func args [.scalar k])).Apart := by
        simp [Stm.Apart, Exp.outline]
      exact ⟨⟨⟨⟨⟨arity, known⟩, apart⟩, patTypes, types (by simp [Ty.IsScalar])⟩, tail⟩, rfl, plain⟩
    | branch cond yes no ret sort =>
      obtain ⟨inYes, inNo, kinds⟩ := inExp
      refine ⟨⟨⟨⟨trivial, trivial⟩, patTypes, ?_⟩, tail⟩, rfl, plain⟩
      simp only [Exp.parts, List.forall_mem_append]
      exact ⟨⟨fine_of_scalarBody yes inYes, fine_of_scalarBody no inNo⟩, types kinds⟩
    | _ => exact absurd inExp (by simp [Exp.ScalarCode])

theorem fine_of_scalarBody (b : Body) (code : b.ScalarCode) : ∀ part ∈ b.parts, part.Fine := by
  obtain ⟨ss, result⟩ := b
  obtain ⟨inside, plain⟩ := fine_of_scalarStms ss code
  rw [Body.parts, List.forall_mem_cons]
  refine ⟨List.pairwise_of_forall_mem_list fun first mem later _ x leaked => ?_, inside⟩
  simp [plain first mem] at leaked

end

theorem fine_of_scalarCode {l : Lambda} (code : l.ScalarCode) : ∀ part ∈ l.parts, part.Fine := by
  obtain ⟨ps, b, ret⟩ := l
  simp only [Lambda.parts, List.forall_mem_append]
  refine ⟨⟨?_, fine_of_scalarBody b code.body⟩, ?_⟩
  · simpa [Part.Fine] using fun p mem => (code.params p mem).isAcc
  · simpa [Part.Fine] using fun t mem => (code.ret t mem).isAcc

/-- The transformation of a whole lambda, with either kind of results. -/
theorem works_top {l : Lambda} {ret : List Ty} {result : Diff (List Operand)} (code : l.ScalarCode)
    (accepted : l.outline.Accepted []) (types : ∀ t ∈ ret, t.IsScalar)
    (results : ∀ t : DiffState, t.builder.Plain → Typed t (operandNames l.body.result) →
      Passes result t) (plain : s.builder.Plain) :
    Works (top .standard l ret result) s fun out _ => out.ScalarCode := by
  obtain ⟨params, body, -⟩ := (accepted_lambda l []).mp accepted
  rw [body_outline, accepted_append, accepted_readsAll] at body
  have declared := plain.declare code.params
  refine Works.bind (P := fun _ t => Typed t ((paramOutline l.params).after [])) ?_
    fun _ t first typed => ?_
  · refine (works_build (m := Build.declareParams l.params)
      (Build.declareParams_apply l.params _ ▸ declared)).mono fun _ u _ built x known => ?_
    rw [built.2, Build.declareParams_apply]
    rcases (mem_after_paramOutline ..).mp known with known | bound
    · simp at known
    · exact Builder.typed_of_declared (.inl bound)
  refine (works_bundleBinders first.plain code.params).bind fun ps u second bundled => ?_
  have stms : StmsScalarCode l.body.stms :=
    (stmsScalarCode_iff _).mpr ((body_scalarCode _).mp code.body)
  refine (works_bodyOf second.plain fun v _ start => ?_).bind fun b v third bodyCode =>
    works_pure third.plain ⟨bundled.1, bodyCode, types⟩
  have here : Typed v ((paramOutline l.params).after []) := typed.reaches (second.trans start)
  refine (works_stms l.body.stms stms start.plain here body.1).bind fun _ w fourth inside => ?_
  exact results w fourth.plain fun x mem => inside x (body.2 x mem)

end Forward

namespace Reverse

theorem works_contribute (plain : s.builder.Plain) {x : Name} (typed : s.builder.Typed x) (d : Name) :
    Passes (contribute x d) s := by
  have found : Works (companion? x) s fun a u => a = s.companions.find? x ∧ s = u :=
    ⟨_, s, (gives_companion? ..).mpr ⟨rfl, rfl⟩, plain.refl, rfl, rfl⟩
  refine found.bind ?_
  rintro a _ - ⟨rfl, rfl⟩
  cases s.companions.find? x with
  | none =>
    refine (works_pure plain (P := fun _ _ => True) trivial).bind fun a t reaches _ => ?_
    exact works_setCompanion reaches.plain x a
  | some old =>
    refine (works_typeOf plain typed).bind ?_
    rintro _ _ - ⟨⟨k, rfl⟩, rfl⟩
    have sum : ((Formula.leaf old k).add (.leaf d k)).Known := Formula.Known.add trivial trivial
    refine (works_build (m := Build.sum k false [] old d) (plain.letFormula sum)).bind
      fun a t reaches _ => works_setCompanion reaches.plain x a

theorem works_contributeTo (plain : s.builder.Plain) {x : Operand} (typed : Typed s x.names)
    (d : Name) : Passes (contributeTo x d) s := by
  cases x with
  | const v => exact works_pure plain trivial
  | var x => exact works_contribute plain (typed x (by simp [Operand.names])) d

theorem works_contributeFormula (plain : s.builder.Plain) {x : Operand} (typed : Typed s x.names)
    {f : Formula} (known : f.Known) : Passes (contributeFormula x f) s := by
  cases x with
  | const v => exact works_pure plain trivial
  | var x =>
    refine (works_build (m := Build.letFormula f) (plain.letFormula known)).bind
      fun d t reaches _ => ?_
    exact works_contribute reaches.plain (reaches.typed x (typed x (by simp [Operand.names]))) d

theorem works_seed (plain : s.builder.Plain) {results : List Operand}
    (typed : Typed s (operandNames results)) (seeds : List Name) : Passes (seed results seeds) s := by
  refine works_forM plain fun r mem t reaches => works_contributeTo reaches.plain (fun x inR => ?_) r.2
  have inResults := (List.of_mem_zip mem).1
  exact typed.reaches reaches x (List.mem_flatMap.mpr ⟨r.1, inResults, inR⟩)

theorem works_adjoints (plain : s.builder.Plain) {xs : List Name} (typed : Typed s xs) :
    Passes (adjoints xs) s := by
  refine (works_mapM (P := fun _ => True) plain fun x mem t reaches => ?_).mono
    fun _ _ _ _ => trivial
  refine (works_companion reaches.plain (typed.reaches reaches x mem)).bind fun _ u further _ => ?_
  exact works_pure further.plain trivial

/-- The adjoint of the one name that a statement binds. -/
theorem works_adjoint (plain : s.builder.Plain) {stm : Stm} {p : Param} (alone : stm.pat = [p])
    (typed : s.builder.Typed p.name) {next : Name → Diff Unit}
    (rest : ∀ adjoint t, s.builder.Reaches t.builder → Passes (next adjoint) t) :
    Passes (do next (← companion (← single .reverse stm).name)) s := by
  refine (works_single plain alone).bind ?_
  rintro _ _ - ⟨rfl, rfl⟩
  exact (works_companion plain typed).bind fun adjoint t reaches _ => rest adjoint t reaches

theorem works_comparison (plain : s.builder.Plain) (k : ScalarType) (b : Name) {x y : Operand}
    (left : Typed s x.names) (right : Typed s y.names) : Passes (comparison k b x y) s := by
  have both (d : Name) {t : DiffState} (reaches : s.builder.Reaches t.builder) :
      Passes (do contributeTo x d; contributeTo y d) t := by
    refine (works_contributeTo reaches.plain (left.reaches reaches) d).bind fun _ u further _ => ?_
    exact works_contributeTo further.plain (right.reaches (reaches.trans further)) d
  have bound {e : Exp} (code : e.ScalarCode 1) :
      Works (build (Build.letExp (.scalar k) e)) s fun _ _ => True :=
    (works_build (plain.letExp code)).mono fun _ _ _ _ => trivial
  cases k with
  | float w =>
    refine Works.bind (P := fun d _ => ∃ c, d = some c) ?_ fun d t reaches isSome => ?_
    · obtain ⟨c, t, gives, reaches, -⟩ := bound (e := .branch (.var b) ⟨[], [.const (.float w 1.0)]⟩
        ⟨[], [.const (.float w 0.0)]⟩ [.scalar (.float w)] .normal)
        ⟨trivial, trivial, by simp [Ty.IsScalar]⟩
      exact ⟨some c, t, (gives_map ..).mpr ⟨c, gives, rfl⟩, reaches, c, rfl⟩
    · obtain ⟨c, rfl⟩ := isSome
      exact both c reaches
  | int w =>
    refine Works.bind (P := fun d _ => ∃ c, d = some c) ?_ fun d t reaches isSome => ?_
    · obtain ⟨c, t, gives, reaches, -⟩ :=
        bound (e := .basic (.convert (.boolToInt w) (.var b))) trivial
      exact ⟨some c, t, (gives_map ..).mpr ⟨c, gives, rfl⟩, reaches, c, rfl⟩
    · obtain ⟨c, rfl⟩ := isSome
      exact both c reaches
  | bool => exact (works_pure plain (P := fun d u => d = some b ∧ s = u) ⟨rfl, rfl⟩).bind (by
      rintro _ _ - ⟨rfl, rfl⟩
      exact both b plain.refl)
  | cert => exact (works_pure plain (P := fun d u => d = none ∧ s = u) ⟨rfl, rfl⟩).bind (by
      rintro _ _ - ⟨rfl, rfl⟩
      exact works_pure plain trivial)

theorem works_basicOp (plain : s.builder.Plain) {stm : Stm} {op : BasicOp} {p : Param}
    (code : op.ScalarCode) (alone : stm.pat = [p]) (bound : s.builder.Typed p.name)
    (typed : Typed s op.names) : Passes (basicOp .standard stm op) s := by
  have product (t : DiffState) (reaches : s.builder.Reaches t.builder) {x : Operand}
      (reads : Typed s x.names) (adjoint : Name) (k : ScalarType) {f : Formula} (known : f.Known) :
      Passes (contributeFormula x ((Formula.leaf adjoint k).mul f)) t :=
    works_contributeFormula reaches.plain (reads.reaches reaches) (Formula.Known.mul trivial known)
  cases op with
  | operand x =>
    cases x with
    | const v => exact works_pure plain trivial
    | var x =>
      exact works_adjoint plain alone bound fun adjoint t reaches =>
        works_contributeTo reaches.plain (x := .var x) (typed.reaches reaches) adjoint
  | unary op x =>
    exact works_adjoint plain alone bound fun adjoint t reaches =>
      product t reaches typed adjoint op.ty (known_unary op (Formula.known_ofOperand _ _))
  | binary op x y =>
    have left : Typed s x.names := fun z mem => typed z (by simp [BasicOp.names, operandNames, mem])
    have right : Typed s y.names := fun z mem => typed z (by simp [BasicOp.names, operandNames, mem])
    obtain ⟨px, py⟩ := known_binary op (Formula.known_ofOperand op.ty x)
      (Formula.known_ofOperand op.ty y)
    refine works_adjoint plain alone bound fun adjoint t reaches => ?_
    refine (product t reaches left adjoint op.ty px).bind fun _ u further _ => ?_
    exact product u (reaches.trans further) right adjoint op.ty py
  | compare op x y =>
    have left : Typed s x.names := fun z mem => typed z (by simp [BasicOp.names, operandNames, mem])
    have right : Typed s y.names := fun z mem => typed z (by simp [BasicOp.names, operandNames, mem])
    refine (works_single plain alone).bind ?_
    rintro q _ - ⟨rfl, rfl⟩
    exact works_comparison plain op.ty q.name left right
  | convert op x =>
    refine works_adjoint plain alone bound fun adjoint t reaches => ?_
    cases op with
    | floatToFloat source target =>
      exact works_contributeFormula reaches.plain (typed.reaches reaches) trivial
    | _ => exact works_pure reaches.plain trivial
  | assert cond msg => exact works_pure plain trivial
  | _ => exact absurd code (by simp [BasicOp.ScalarCode])

theorem works_apply (plain : s.builder.Plain) {stm : Stm} {func : String} {args : List Operand}
    {p : Param} (known : KnownCall func args.length) (alone : stm.pat = [p])
    (bound : s.builder.Typed p.name) (typed : Typed s (operandNames args)) :
    Passes (apply .standard stm func args) s := by
  refine (works_signature plain known).bind ?_
  rintro ⟨kinds, ret⟩ _ - ⟨found, length, rfl⟩
  refine (works_partials plain found length).bind ?_
  rintro ds _ - ⟨partials, rfl⟩
  refine works_adjoint plain alone bound fun adjoint t reaches => ?_
  refine works_forM reaches.plain fun a mem u further => ?_
  obtain ⟨inArgs, inPartials⟩ := List.of_mem_zip mem
  refine works_contributeFormula further.plain (fun x inArg => ?_)
    (Formula.Known.mul trivial (partials _ inPartials))
  exact typed.reaches (reaches.trans further) x (List.mem_flatMap.mpr ⟨_, inArgs, inArg⟩)

/-- Going back over statements of scalar code succeeds wherever they are bound. -/
def Distributes (back : Stm → Diff Unit) (depth : Nat) : Prop :=
  ∀ (stm : Stm) (s : DiffState) (scope : Scope), stm.ScalarCode → stm.branchDepth ≤ depth →
    Bound stm scope → scope.Below s.builder.supply.next → s.builder.Plain → Typed s scope →
    Passes (back stm) s

theorem branchDepth_le {ss : List Stm} {stm : Stm} (mem : stm ∈ ss) :
    stm.branchDepth ≤ stmsBranchDepth ss := by
  induction ss with
  | nil => simp at mem
  | cons first ss ih =>
    rw [stmsBranchDepth]
    rcases List.mem_cons.mp mem with rfl | mem
    · exact Nat.le_max_left _ _
    · exact Nat.le_trans (ih mem) (Nat.le_max_right _ _)

theorem branchDepth_body (b : Body) : b.branchDepth = stmsBranchDepth b.stms := by
  cases b
  rfl

/-- A body that is emitted as it is, followed by the sweep over it. -/
theorem works_sweepBody {back : Stm → Diff Unit} {depth : Nat} (distributes : Distributes back depth)
    {ss : List Stm} {result : List Operand} {seeds xs : List Name} {scope : Scope}
    (code : ∀ stm ∈ ss, stm.ScalarCode) (nested : stmsBranchDepth ss ≤ depth)
    (closed : (stmOutline ss).Closed scope)
    (below : Scope.Below ((stmOutline ss).after scope) s.builder.supply.next)
    (reads : ∀ y ∈ operandNames result, y ∈ (stmOutline ss).after scope)
    (known : ∀ x ∈ xs, x ∈ (stmOutline ss).after scope) (plain : s.builder.Plain)
    (typed : Typed s scope) :
    Works (bodyOf (sweep back ss (seed result seeds)) (adjoints xs)) s fun b _ => b.ScalarCode := by
  refine works_bodyOf plain fun u _ start => ?_
  have emitted := Builder.emit_reaches start.plain code
  have here : Typed { u with builder := u.builder.emit ss } ((stmOutline ss).after scope) := by
    intro x inAfter
    refine Builder.typed_of_declared ?_
    rcases (mem_after_stmOutline ss scope x).mp inAfter with outer | bound
    · exact .inr (start.typed x (typed x outer))
    · exact .inl bound
  refine Works.bind (P := fun _ v => Typed v ((stmOutline ss).after scope)) ?_
    fun _ v swept inside => ?_
  · refine Works.bind (P := fun _ v => v = { u with builder := u.builder.emit ss })
      ⟨(), _, (gives_emit ..).mpr rfl, emitted, rfl⟩ ?_
    rintro _ _ - rfl
    refine (works_seed emitted.plain (fun x mem => here x (reads x mem)) seeds).bind
      fun _ v seeded _ => ?_
    refine Works.mono (P := fun _ _ => True) ?_ fun _ w further _ =>
      here.reaches (seeded.trans further)
    refine works_forM seeded.plain fun stm mem w further => ?_
    have mem : stm ∈ ss := List.mem_reverse.mp mem
    have reached := (start.trans emitted).trans (seeded.trans further)
    refine distributes stm w ((stmOutline ss).after scope) (code stm mem)
      (Nat.le_trans (branchDepth_le mem) nested) ⟨closed_of_mem closed mem, fun p inPat => ?_⟩
      (below.mono reached.next_le) further.plain (here.reaches (seeded.trans further))
    exact (mem_after_stmOutline ss scope _).mpr (.inr ⟨p, List.mem_flatMap.mpr ⟨stm, mem, inPat⟩, rfl⟩)
  · exact works_adjoints swept.plain fun x mem => inside x (known x mem)

theorem works_branchBody {back : Stm → Diff Unit} {depth : Nat}
    (distributes : Distributes back depth) {body : Body} {inner scope : Scope}
    (code : body.ScalarCode) (nested : body.branchDepth ≤ depth)
    (closed : body.outline.Closed inner) (inScope : ∀ x ∈ inner, x ∈ scope)
    (below : scope.Below s.builder.supply.next) (plain : s.builder.Plain) (typed : Typed s scope)
    (seeds : List Name) {free : List Name} (known : ∀ x ∈ free, x ∈ scope) :
    Works (branchBody back seeds free body) s fun b _ => b.ScalarCode := by
  obtain ⟨renamedClosed, bound, -, next_le⟩ :=
    Body.closed_rename (s := s.builder.supply) closed inScope below
  obtain ⟨renamedCode, sameDepth⟩ := code.rename s.builder.supply
  rw [body_outline, closed_append, closed_readsAll] at renamedClosed
  rw [body_outline, after_append, after_readsAll] at bound
  refine Works.bind (P := fun b u => b = (body.rename s.builder.supply).1 ∧
      u = { s with builder := { s.builder with supply := (body.rename s.builder.supply).2 } }) ?_ ?_
  · exact ⟨_, _, .build (Build.renamed body) s, plain.draw next_le, rfl, rfl⟩
  rintro _ _ reaches ⟨rfl, rfl⟩
  refine works_isolated (works_sweepBody distributes ((body_scalarCode _).mp renamedCode) ?_
    renamedClosed.1 bound renamedClosed.2 (fun x mem => mem_after _ (known x mem)) reaches.plain
    (typed.reaches reaches))
  rw [← branchDepth_body]
  omega

theorem works_branch {back : Stm → Diff Unit} {depth : Nat} (distributes : Distributes back depth)
    {pat : List Param} {aux : Annotations} {cond : Operand} {yes no : Body} {ret : List Ty}
    {sort sort' : BranchSort} {scope : Scope} (inYes : yes.ScalarCode) (inNo : no.ScalarCode)
    (nestedYes : yes.branchDepth ≤ depth) (nestedNo : no.branchDepth ≤ depth)
    (bound : Bound ⟨pat, aux, .branch cond yes no ret sort⟩ scope)
    (below : scope.Below s.builder.supply.next) (plain : s.builder.Plain) (typed : Typed s scope) :
    Passes (branch back ⟨pat, aux, .branch cond yes no ret sort⟩ cond yes no sort') s := by
  obtain ⟨inner, inScope, closed⟩ := bound.closed
  obtain ⟨-, closedExp, -⟩ := (closed_stm _ _).mp closed
  simp only [Exp.outline, closed_append, after_append, closed_readsAll, after_readsAll,
    closed_block, closed_mentionsAll, after_mentionsAll, closed_count, closed_done, after]
    at closedExp
  obtain ⟨⟨⟨⟨-, closedYes, -⟩, closedNo, -⟩, -⟩, -⟩ := closedExp
  refine (works_mapM (P := fun _ => True) plain fun p mem t reaches =>
    works_companion reaches.plain (typed.reaches reaches _ (bound.pattern p mem))).bind
    fun seeds t first _ => ?_
  have typedFree : ∀ x ∈ freeNames yes no, t.builder.Typed x := fun x mem =>
    typed.reaches first x (inScope x (mem_freeNames closedYes closedNo x mem))
  refine (works_mapM (P := fun p => p.ty.IsScalar ∧ p.name ∈ freeNames yes no) first.plain
    fun x mem u reaches => ?_).bind fun params u second collected => ?_
  · refine (works_typeOf reaches.plain (reaches.typed x (typedFree x mem))).bind ?_
    rintro k _ - ⟨isScalar, rfl⟩
    exact works_pure reaches.plain ⟨isScalar, mem⟩
  have inFree : ∀ p ∈ params.filter fun p => !p.ty.isAcc,
      p.ty.IsScalar ∧ p.name ∈ freeNames yes no := fun p mem =>
    collected.2 p (List.mem_filter.mp mem).1
  dsimp only
  generalize (params.filter fun p => !p.ty.isAcc) = free at inFree
  cases isEmpty : free.isEmpty with
  | true => exact works_pure second.plain trivial
  | false =>
    have names : ∀ x ∈ free.map (·.name), x ∈ scope := by
      intro x mem
      obtain ⟨p, inList, rfl⟩ := List.mem_map.mp mem
      exact inScope _ (mem_freeNames closedYes closedNo _ (inFree p inList).2)
    have reached := first.trans second
    refine (works_branchBody distributes inYes nestedYes closedYes inScope
      (below.mono reached.next_le) second.plain (typed.reaches reached) seeds names).bind
      fun b v third yesCode => ?_
    have reached := reached.trans third
    refine (works_branchBody distributes inNo nestedNo closedNo inScope
      (below.mono reached.next_le) third.plain (typed.reaches reached) seeds names).bind
      fun c w fourth noCode => ?_
    have reached := reached.trans fourth
    refine (works_mapM (P := fun p => p.ty.IsScalar) fourth.plain fun p mem x further => ?_).bind
      fun pat' x fifth drawn => ?_
    · refine (works_build (m := Build.fresh) (further.plain.draw (Nat.le_succ _))).bind
        fun y z last _ => works_pure last.plain (inFree p mem).1
    have reached := reached.trans fifth
    have emitted := fifth.plain.add
      (s := ⟨pat', aux, .branch cond b c (free.map (·.ty)) sort'⟩)
      ⟨drawn.2, yesCode, noCode, fun t mem => by
        obtain ⟨p, inList, rfl⟩ := List.mem_map.mp mem
        exact (inFree p inList).1⟩
    refine (works_build emitted).bind fun _ y sixth _ => ?_
    refine works_forM sixth.plain fun r mem z further => works_contribute further.plain ?_ r.2.name
    have inList := (List.of_mem_zip mem).1
    exact typed.reaches (reached.trans (sixth.trans further)) _
      (names _ (List.mem_map_of_mem inList))

theorem distributes_stm (depth : Nat) : Distributes (stm .standard depth) depth := by
  -- basic operations and calls need no depth
  have flat (depth : Nat) (e : Exp) (notBranch : ∀ cond yes no ret sort, e ≠ .branch cond yes no ret sort)
      (pat : List Param) (aux : Annotations) (s : DiffState) (scope : Scope)
      (code : (Stm.mk pat aux e).ScalarCode) (bound : Bound ⟨pat, aux, e⟩ scope)
      (plain : s.builder.Plain) (typed : Typed s scope) :
      Passes (stm .standard depth ⟨pat, aux, e⟩) s := by
    obtain ⟨pattern, inExp⟩ := code
    cases e with
    | basic op =>
      obtain ⟨inner, inScope, closed⟩ := bound.closed
      have closedExp := ((closed_stm _ _).mp closed).2.1
      simp only [Exp.outline, closed_append, closed_count, closed_done] at closedExp
      obtain ⟨p, rfl⟩ := List.length_eq_one_iff.mp closedExp.2.1
      have works : Passes (basicOp .standard ⟨[p], aux, .basic op⟩ op) s :=
        works_basicOp plain inExp rfl (typed _ (bound.pattern p (by simp)))
          fun x mem => typed x (bound.basic x mem)
      rw [stm]
      exact works
    | apply func args ret =>
      obtain ⟨arity, known, -⟩ := inExp
      obtain ⟨p, rfl⟩ := List.length_eq_one_iff.mp arity
      have works : Passes (apply .standard ⟨[p], aux, .apply func args ret⟩ func args) s :=
        works_apply plain known rfl (typed _ (bound.pattern p (by simp)))
          fun x mem => typed x (bound.apply x mem)
      rw [stm]
      exact works
    | branch cond yes no ret sort => exact absurd rfl (notBranch cond yes no ret sort)
    | _ => exact absurd inExp (by simp [Exp.ScalarCode])
  induction depth with
  | zero =>
    rintro ⟨pat, aux, e⟩ s scope code nested bound below plain typed
    refine flat 0 e ?_ pat aux s scope code bound plain typed
    rintro cond yes no ret sort rfl
    simp [Stm.branchDepth, Exp.branchDepth] at nested
  | succ depth ih =>
    rintro ⟨pat, aux, e⟩ s scope code nested bound below plain typed
    cases e with
    | branch cond yes no ret sort =>
      obtain ⟨-, inYes, inNo, -⟩ := code
      simp only [Stm.branchDepth, Exp.branchDepth] at nested
      exact works_branch ih inYes inNo (by omega) (by omega) bound below plain typed
    | _ => exact flat (depth + 1) _ (by simp) pat aux s scope code bound plain typed

end Reverse

/-! Whole lambdas. -/

/-- Scalar code that passes the scope check. -/
structure Lambda.Elementary (l : Lambda) : Prop where
  valid : l.validate = .ok ()
  code : l.ScalarCode

theorem plain_start (l : Lambda) (s : Supply) : (Forward.start l s).builder.Plain where
  types x t found := by simp [Forward.start, Builder.ofSupply, NameTable.find_empty] at found
  stms stm mem := by simp [Forward.start, Builder.ofSupply] at mem

namespace Lambda.Elementary

variable {l : Lambda}

theorem closed (elementary : l.Elementary) : l.outline.Closed [] :=
  ⟨(validate_iff l).mp elementary.valid, elementary.code.typesInScope⟩

theorem forward_top (elementary : l.Elementary) (s : Supply) (ret : List Ty)
    (types : ∀ t ∈ ret, t.IsScalar) (result : Diff (List Operand))
    (results : ∀ t : DiffState, t.builder.Plain → Typed t (operandNames l.body.result) →
      Passes result t) :
    ∃ out, ((Forward.top .standard l ret result).start (s.reserve l)).1 = .ok out ∧
      out.ScalarCode := by
  obtain ⟨out, t, gives, -, code⟩ := Forward.works_top elementary.code elementary.closed.1 types
    results (plain_start l s)
  exact ⟨out, (gives_start _ _ _).mpr ⟨t, gives⟩, code⟩

theorem forward_differentiated (elementary : l.Elementary) (s : Supply) :
    ∃ tans dys out bundled, Forward.Differentiated l s tans dys out bundled :=
  Forward.differentiated_of_fine l s elementary.valid elementary.code.typesInScope
    (Forward.fine_of_scalarCode elementary.code)

theorem forward (elementary : l.Elementary) (s : Supply) :
    ∃ out, (l.forward .standard s).1 = .ok out ∧ out.Elementary := by
  have plain : ∀ t ∈ l.ret, t.isAcc = false := fun t mem => (elementary.code.ret t mem).isAcc
  obtain ⟨out, gives, code⟩ := elementary.forward_top s (tangentTypes l.ret)
    (by simpa [Forward.tangentTypes_eq plain] using elementary.code.ret)
    (Forward.tangents l.body.result) fun t plain typed => by
      refine (works_mapM (P := fun _ => True) plain fun x mem u reaches => ?_).mono
        fun _ _ _ _ => trivial
      exact Forward.works_tangent reaches.plain fun y inX =>
        typed.reaches reaches y (List.mem_flatMap.mpr ⟨x, mem, inX⟩)
  obtain ⟨_, _, _, _, differentiated⟩ := elementary.forward_differentiated s
  obtain rfl := Except.ok.inj (gives.symm.trans differentiated.forward)
  exact ⟨out, gives, differentiated.valid, code⟩

theorem forwardBundled (elementary : l.Elementary) (s : Supply) :
    ∃ out, (l.forwardBundled .standard s).1 = .ok out ∧ out.Elementary := by
  have plain : ∀ t ∈ l.ret, t.isAcc = false := fun t mem => (elementary.code.ret t mem).isAcc
  obtain ⟨out, gives, code⟩ := elementary.forward_top s (bundledTypes l.ret)
    (by
      rw [Forward.bundledTypes_eq plain]
      exact forall_mem_interleave elementary.code.ret elementary.code.ret)
    (Forward.bundleOperands l.body.result)
    fun t plain typed => Forward.works_bundleOperands plain typed
  obtain ⟨_, _, _, _, differentiated⟩ := elementary.forward_differentiated s
  obtain rfl := Except.ok.inj (gives.symm.trans differentiated.forwardBundled)
  exact ⟨out, gives, differentiated.bundled_valid, code⟩

theorem plain_opened (elementary : l.Elementary) (s : Supply) :
    (Reverse.opened l s).builder.Plain where
  types x t found := by
    rcases Builder.find_declared found with mem | ⟨-, found⟩
    · have inTypes := List.mem_map_of_mem (f := (·.ty)) mem
      rw [types_paramsFrom] at inTypes
      exact elementary.code.ret t inTypes
    · rcases Builder.find_declared found with mem | ⟨-, found⟩
      · exact elementary.code.params _ mem
      · simp [NameTable.find_empty] at found
  stms stm mem := by simp [Reverse.opened] at mem

theorem reverse (elementary : l.Elementary) (s : Supply) :
    ∃ out, (l.reverse .standard s).1 = .ok out ∧ out.Elementary := by
  obtain ⟨-, body, -, -⟩ := (closed_lambda l []).mp elementary.closed
  rw [body_outline, closed_append, closed_readsAll] at body
  have under : Reverse.UnderSeeds l s ((paramOutline l.params).after []) :=
    ⟨fun _ known => known, fun _ known => .inl known⟩
  have below : Scope.Below ((stmOutline l.body.stms).after ((paramOutline l.params).after []))
      (Reverse.opened l s).builder.supply.next := by
    intro x known
    rcases (mem_after_stmOutline ..).mp known with known | ⟨p, mem, rfl⟩
    · exact under.below x known
    · have binder : p.name ∈ l.outline.binders := by
        rw [Reverse.lambda_binders, body_outline, binders_append]
        simp [Reverse.pattern_binder p mem]
      exact Nat.lt_of_lt_of_le (binder_lt s l binder) (Nat.le_add_right _ _)
  have typed : Typed (Reverse.opened l s) ((paramOutline l.params).after []) := by
    intro x known
    refine Builder.typed_of_declared (.inr (Builder.typed_of_declared (.inl ?_)))
    simpa using (mem_after_paramOutline ..).mp known
  have depth : stmsBranchDepth l.body.stms ≤ l.body.branchDepth := by
    obtain ⟨ps, ⟨ss, result⟩, ret⟩ := l
    exact Nat.le_refl _
  have known : ∀ x ∈ l.params.map (·.name),
      x ∈ (stmOutline l.body.stms).after ((paramOutline l.params).after []) := fun x mem =>
    mem_after _ ((mem_after_paramOutline ..).mpr (.inr (List.mem_map.mp mem)))
  obtain ⟨b, t, gives, -, code⟩ := Reverse.works_sweepBody (Reverse.distributes_stm l.body.branchDepth)
    ((body_scalarCode _).mp elementary.code.body) depth body.1 below body.2 known
    (elementary.plain_opened s) typed
  have succeeded : (l.reverse .standard s).1 =
      .ok ⟨l.params ++ paramsFrom (s.reserve l).next l.ret, b, l.params.map (·.ty)⟩ :=
    (gives_start _ _ _).mpr ⟨t, (Reverse.gives_top ..).mpr ⟨b, gives, rfl⟩⟩
  obtain ⟨_, reversed⟩ := Reverse.reversed_of_ok l s _ elementary.valid
    elementary.code.typesInScope succeeded
  refine ⟨_, succeeded, reversed.valid, ?_, code, ?_⟩
  · refine List.forall_mem_append.mpr ⟨elementary.code.params, fun p mem => ?_⟩
    have inTypes := List.mem_map_of_mem (f := (·.ty)) mem
    rw [types_paramsFrom] at inTypes
    exact elementary.code.ret _ inTypes
  · simpa using elementary.code.params

end Lambda.Elementary

/-- One pass of differentiation. -/
inductive Pass where
  | forward | forwardBundled | reverse
  deriving DecidableEq, Repr

def Pass.run : Pass → Lambda → Supply → Except DiffError Lambda × Supply
  | .forward, l, s => l.forward .standard s
  | .forwardBundled, l, s => l.forwardBundled .standard s
  | .reverse, l, s => l.reverse .standard s

theorem Pass.run_elementary (p : Pass) {l : Lambda} (elementary : l.Elementary) (s : Supply) :
    ∃ out, (p.run l s).1 = .ok out ∧ out.Elementary := by
  cases p with
  | forward => exact elementary.forward s
  | forwardBundled => exact elementary.forwardBundled s
  | reverse => exact elementary.reverse s

/-- Passes one after the other, with one supply for all of them: what each of them makes of the
    result before, up to the first that fails. -/
def runPasses : List Pass → Lambda → Supply → List (Except DiffError Lambda)
  | [], _, _ => []
  | p :: ps, l, s =>
    match p.run l s with
    | (.ok out, s) => .ok out :: runPasses ps out s
    | (.error e, _) => [.error e]

/-- Differentiation never gets stuck on scalar code, however often it is repeated. -/
theorem runPasses_elementary (ps : List Pass) (l : Lambda) (s : Supply) (elementary : l.Elementary) :
    ∃ outs : List Lambda, runPasses ps l s = outs.map .ok ∧ outs.length = ps.length ∧
      ∀ out ∈ outs, out.Elementary := by
  induction ps generalizing l s with
  | nil => exact ⟨[], rfl, rfl, by simp⟩
  | cons p ps ih =>
    obtain ⟨out, gives, here⟩ := p.run_elementary elementary s
    obtain ⟨outs, rest, count, every⟩ := ih out (p.run l s).2 here
    refine ⟨out :: outs, ?_, by simp [count], List.forall_mem_cons.mpr ⟨here, every⟩⟩
    have first : p.run l s = (.ok out, (p.run l s).2) := Prod.ext gives rfl
    rw [runPasses, first]
    exact congrArg (_ :: ·) rest

/-- A power under a condition, and the root of what comes of it. -/
def guardedRoot : Lambda :=
  let t : Ty := .scalar (.float .f64)
  let bool : Ty := .scalar .bool
  ⟨[⟨⟨0⟩, t⟩, ⟨⟨1⟩, t⟩],
    ⟨[⟨[⟨⟨2⟩, bool⟩], .none, .basic (.compare (.float .lt .f64) (.var ⟨0⟩) (.var ⟨1⟩))⟩,
      ⟨[⟨⟨3⟩, t⟩], .none, .branch (.var ⟨2⟩)
        ⟨[⟨[⟨⟨4⟩, t⟩], .none, .basic (.binary (.float .pow .f64) (.var ⟨0⟩) (.var ⟨1⟩))⟩], [.var ⟨4⟩]⟩
        ⟨[], [.var ⟨1⟩]⟩ [t] .normal⟩,
      ⟨[⟨⟨5⟩, t⟩], .none, .apply "sqrt64" [.var ⟨3⟩] [t]⟩],
      [.var ⟨5⟩]⟩, [t]⟩

theorem runPasses_guardedRoot : guardedRoot.Elementary ∧
    ∃ outs : List Lambda, runPasses [.reverse, .forward, .reverse] guardedRoot ⟨0⟩ = outs.map .ok ∧
      outs.length = 3 ∧ ∀ out ∈ outs, out.Elementary := by
  have elementary : guardedRoot.Elementary := by
    refine ⟨by decide, ?_, ?_, ?_⟩
    · simp [guardedRoot, Ty.IsScalar]
    · simp only [guardedRoot, Body.ScalarCode, StmsScalarCode, Stm.ScalarCode, Exp.ScalarCode,
        BasicOp.ScalarCode]
      have root : KnownCall "sqrt64" 1 := (knownCall_iff .sqrt .f64 1).mpr rfl
      simp [Ty.IsScalar, root]
    · simp [guardedRoot, Ty.IsScalar]
  exact ⟨elementary, runPasses_elementary _ guardedRoot ⟨0⟩ elementary⟩

end Cotangent
