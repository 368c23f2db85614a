import Cotangent.Proofs.Derivative.ForwardLoops
import Cotangent.Proofs.Scope.Reserve
/-!
Forward differentiation of programs: the recursion over statements, bodies and lambdas, and what it
comes to for a closed lambda.
-/
namespace Cotangent

open Outline

namespace Forward

open Diff

variable {s t u : DiffState} {source scope middle later : Scope} {bound : Nat}

theorem plain_types {ts : List Ty} (fine : ∀ part ∈ ts.map Part.ty, part.Fine) :
    ∀ t ∈ ts, t.isAcc = false :=
  fun t mem => fine (.ty t) (List.mem_map_of_mem mem)

theorem plain_params {ps : List Param} (fine : ∀ part ∈ ps.map fun p => Part.ty p.ty, part.Fine) :
    ∀ p ∈ ps, p.ty.isAcc = false :=
  fun p mem => fine (.ty p.ty) (List.mem_map.mpr ⟨p, mem, rfl⟩)

theorem mem_binders_stmOutline (ss : List Stm) (x : Name) :
    x ∈ (stmOutline ss).binders ↔ ∃ s ∈ ss, x ∈ s.outline.binders := by
  induction ss with
  | nil => simp [stmOutline]
  | cons s ss ih => simp [stmOutline, ih]

theorem runs_cons {s : Stm} {ss : List Stm} {first rest : Diff Unit}
    (here : Runs bound first s.outline s.leaks)
    (there : Runs bound rest (stmOutline ss) (ss.flatMap Stm.leaks))
    (apart : ∀ later ∈ ss, ∀ x ∈ s.leaks, x ∉ later.outline.binders) :
    Runs bound (do
      first
      rest) (stmOutline (s :: ss)) ((s :: ss).flatMap Stm.leaks) := by
  intro source scope st serves pending
  rw [stmOutline, pending_append] at pending
  obtain ⟨t, middle, gives, emits, kept⟩ := here source scope st serves pending.1
  have next := pending.2.next (t := t) fun x binder => by
    refine kept x (not_mem_of_binder pending.2.closed.1 binder) fun leaked => ?_
    obtain ⟨later, mem, inLater⟩ := (mem_binders_stmOutline ..).mp binder
    exact apart later mem x leaked inLater
  obtain ⟨u, later, gives', emits', kept'⟩ := there _ _ t emits.serves next
  rw [stmOutline, after_append]
  refine ⟨u, later, gives.bind gives', emits.trans emits', fun x outside unleaked => ?_⟩
  rw [List.flatMap_cons, List.mem_append, not_or] at unleaked
  rw [kept' x outside unleaked.2, kept x (fun known => outside (mem_after _ known)) unleaked.1]

theorem transforms_pure {α : Type} {a : α} {o : Outline} {outline : α → Outline}
    (empty : outline a = done) : Transforms bound (pure a) o outline := by
  intro source scope s serves pending
  exact ⟨a, s, scope, .pure a s, .refl serves, by simp [empty]⟩

/-- A list of parts is transformed from left to right. -/
theorem transforms_cons {α β : Type} {one : Diff α} {more : Diff (List β)} {f : α → β}
    {o os : Outline} {outline : α → Outline} {outlines : List β → Outline}
    (flat : ∀ scope, o.after scope = scope) (flatOut : ∀ a scope, (outline a).after scope = scope)
    (cons : ∀ a bs, outlines (f a :: bs) = outline a ++ outlines bs)
    (first : Transforms bound one o outline) (rest : Transforms bound more os outlines) :
    Transforms bound (do
      let a ← one
      return f a :: (← more)) (o ++ os) outlines := by
  intro source scope s serves pending
  rw [pending_append, flat] at pending
  obtain ⟨a, t, middle, gives, goes, sealed⟩ := first source scope s serves pending.1
  obtain ⟨bs, u, later, gives', goes', sealed'⟩ := rest _ _ t goes.serves (pending.2.goes goes)
  refine ⟨_, u, later, gives.bind (gives'.bind (.pure _ _)), goes.trans goes', ?_⟩
  rw [cons, sealed_append, flatOut]
  exact ⟨sealed.grows goes'.grows, sealed'⟩

theorem combiner_seals {op : Lambda} {neutral : List Operand} {act : Diff Lambda}
    (combined : Transforms bound act op.outline Lambda.outline) :
    Transforms bound (do
      let op ← act
      return ⟨op, ← bundleNeutral neutral⟩) (Combiner.outline ⟨op, neutral⟩) Combiner.outline := by
  intro source scope s serves pending
  simp only [Combiner.outline, pending_append, pending_readsAll, pending_block,
    after_readsAll] at pending
  obtain ⟨known, op, -⟩ := pending
  obtain ⟨op', t, middle, gives, goes, sealed⟩ := combined source scope s serves op
  obtain ⟨zeros, u, later, gives', asks, -, inside⟩ := bundleNeutral_asks goes.serves known
  refine ⟨_, u, later, gives.bind (gives'.bind (.pure _ _)), goes.trans asks.toGoes, ?_⟩
  simp only [Combiner.outline, sealed_append, sealed_readsAll, sealed_block, sealed_done,
    after_readsAll]
  exact ⟨names_interleave (fun x mem => asks.serves.sub x (known x mem)) inside,
    sealed.grows asks.grows, trivial⟩

theorem histogram_cons {shape : List Operand} {race : Operand} {dests : List Name} {op : Lambda}
    {neutral : List Operand} {hs : List Histogram} {act : Diff Lambda}
    {more : Diff (List Histogram)} (combined : Transforms bound act op.outline Lambda.outline)
    (rest : Transforms bound more (histogramOutline hs) histogramOutline) :
    Transforms bound (do
      let dests ← bundleNames dests
      let neutral ← bundleNeutral neutral
      let op ← act
      return ⟨shape, race, dests, ⟨op, neutral⟩⟩ :: (← more))
      (histogramOutline (⟨shape, race, dests, ⟨op, neutral⟩⟩ :: hs)) histogramOutline := by
  intro source scope s serves pending
  simp only [histogramOutline, Combiner.outline, pending_append, pending_readsAll, pending_block,
    after_append, after_readsAll, after, List.forall_mem_append] at pending
  obtain ⟨⟨⟨⟨knownShape, knownRace⟩, knownDests⟩, knownNeutral, op, -⟩, hs⟩ := pending
  obtain ⟨cs, t₁, l₁, gives₁, asks₁, -, known₁⟩ := bundleNames_asks serves knownDests
  obtain ⟨zeros, t₂, l₂, gives₂, asks₂, -, known₂⟩ := bundleNeutral_asks asks₁.serves knownNeutral
  have asks := asks₁.trans asks₂
  obtain ⟨op', t₃, l₃, gives₃, goes₃, sealed₃⟩ := combined _ _ _ asks.serves (op.goes asks.toGoes)
  have goes := asks.toGoes.trans goes₃
  obtain ⟨hs', t₄, l₄, gives₄, goes₄, sealed₄⟩ := rest _ _ _ goes.serves (hs.goes goes)
  have later := goes₃.trans goes₄
  refine ⟨_, t₄, l₄, gives₁.bind (gives₂.bind (gives₃.bind (gives₄.bind (.pure _ _)))),
    goes.trans goes₄, ?_⟩
  simp only [histogramOutline, Combiner.outline, sealed_append, sealed_readsAll, sealed_block,
    sealed_done, after_append, after_readsAll, after, List.forall_mem_append]
  refine ⟨⟨⟨⟨?_, ?_⟩, ?_⟩, ?_, sealed₃.grows goes₄.grows, trivial⟩, sealed₄⟩
  · exact fun x mem => goes₄.serves.sub x (knownShape x mem)
  · exact fun x mem => goes₄.serves.sub x (knownRace x mem)
  · exact forall_mem_interleave (fun x mem => goes₄.serves.sub x (knownDests x mem))
      fun x mem => (asks₂.toGoes.trans later).sub (known₁ x mem)
  · exact names_interleave (fun x mem => goes₄.serves.sub x (knownNeutral x mem))
      fun x mem => later.sub (known₂ x mem)

theorem bucket_transforms (n : Nat) {ps : List Param} {ss : List Stm} {result : List Operand}
    {ret : List Ty} {act : Diff Unit} {leaks : List Name} (plain : ∀ p ∈ ps, p.ty.isAcc = false)
    (plainRet : ∀ t ∈ ret, t.isAcc = false) (runs : Runs bound act (stmOutline ss) leaks) :
    Transforms bound (bucketLambda n ps act result ret) (Lambda.outline ⟨ps, ⟨ss, result⟩, ret⟩)
      Lambda.outline := by
  have plainValues : ∀ t ∈ ret.drop n, t.isAcc = false := fun t mem =>
    plainRet t (List.mem_of_mem_drop mem)
  refine lambda_seals [] plain runs ?_ ?_
  · intro source length known
    rw [← List.take_append_drop n result, operandNames_append, List.forall_mem_append] at known
    have count : (ret.take n ++ bundledTypes (ret.drop n)).length =
        (result.take n).length + 2 * (result.drop n).length := by
      simp [length_bundledTypes plainValues, length]
    rw [count]
    exact (answers_bundleOperands known.2).after known.1
  · intro x mem
    rw [typeNames_append, List.mem_append] at mem
    rw [← List.take_append_drop n ret, typeNames_append, List.mem_append]
    exact mem.imp_right (names_bundledTypes plainValues x)

theorem scatterLambda_transforms (n : Nat) {ps : List Param} {ss : List Stm}
    {result : List Operand} {ret : List Ty} {act : Diff Unit} {leaks : List Name}
    (plain : ∀ p ∈ ps, p.ty.isAcc = false) (runs : Runs bound act (stmOutline ss) leaks) :
    Transforms bound (scatterLambda n ps act result ret) (Lambda.outline ⟨ps, ⟨ss, result⟩, ret⟩)
      Lambda.outline := by
  refine lambda_seals [] plain runs ?_ ?_
  · intro source length known
    rw [← List.take_append_drop n result, operandNames_append, List.forall_mem_append] at known
    have front : ∀ x ∈ operandNames (result.take n ++ result.take n ++ result.drop n),
        x ∈ source := by
      simp only [operandNames_append, List.forall_mem_append]
      exact ⟨⟨known.1, known.1⟩, known.2⟩
    have count : (ret.take n ++ ret.take n ++ ret.drop n ++ ret.drop n).length =
        (result.take n ++ result.take n ++ result.drop n).length + (result.drop n).length := by
      simp [length, Nat.add_assoc]
    rw [count]
    exact (answers_tangents known.2).after front
  · intro x mem
    simp only [typeNames_append, List.mem_append] at mem
    rw [← List.take_append_drop n ret, typeNames_append, List.mem_append]
    tauto

mutual

theorem stm_runs (s : Stm) (fine : ∀ part ∈ s.parts, part.Fine) :
    Runs bound (stm .standard s) s.outline s.leaks := by
  obtain ⟨pat, aux, e⟩ := s
  simp only [Stm.parts, List.forall_mem_cons, List.forall_mem_append] at fine
  obtain ⟨⟨supported, here⟩, pattern, inside⟩ := fine
  have plain := plain_params pattern
  cases e with
  | basic op =>
    have ordinary (value : ∀ acc position values, op ≠ .updateAcc acc position values) :
        Runs bound (basicOp .standard ⟨pat, aux, .basic op⟩ op)
          (Stm.outline ⟨pat, aux, .basic op⟩) [] :=
      basicOp_runs local_standard plain value
    cases op with
    | updateAcc acc position values => exact supported.elim
    | _ => exact ordinary (by simp)
  | apply func args ret =>
    obtain ⟨arity, sig, known, length⟩ := supported
    exact apply_runs local_standard complete_standard plain arity known length
  | branch cond yes no ret sort =>
    simp only [Exp.parts, List.forall_mem_append] at inside
    exact branch_runs plain (plain_types inside.2) (body_transforms yes inside.1.1)
      (body_transforms no inside.1.2)
  | loop merge form b =>
    cases form with
    | whileHolds cond =>
      simp only [Exp.parts, loopParams, List.map_map, List.forall_mem_append,
        List.forall_mem_map] at inside
      exact while_runs plain inside.1 here (body_transforms b inside.2)
    | forBelow counter w limit arrays =>
      simp only [Exp.parts, loopParams, List.map_append, List.map_map, List.forall_mem_append,
        List.forall_mem_map] at inside
      exact for_runs plain inside.1.1 inside.1.2 here (body_transforms b inside.2)
  | withAcc inputs lam => exact supported.elim
  | screma width arrays scans reduces map =>
    simp only [Exp.parts, List.forall_mem_append] at inside
    exact screma_runs plain here (combiners_transform scans inside.1.1)
      (reductions_transform reduces inside.1.2) (lambda_transforms map inside.2)
  | stream width arrays form inits lam =>
    obtain ⟨ps, ⟨ss, result⟩, ret⟩ := lam
    simp only [Exp.parts, Lambda.parts, Body.parts, List.forall_mem_append,
      List.forall_mem_cons] at inside
    obtain ⟨form', ⟨params, whole, stms⟩, types⟩ := inside
    have plainRet := plain_types types
    cases ps with
    | nil => exact absurd rfl supported
    | cons chunk ps =>
      refine stream_runs plain here (streamForm_transforms form form') ?_
      refine lambda_seals [chunk] (plain_params params) (stms_run ss stms whole) ?_
        (names_bundledTypes plainRet)
      intro source length known
      rw [length_bundledTypes plainRet, ← length]
      exact answers_bundleOperands known
  | hist width ops bucket arrays =>
    obtain ⟨ps, ⟨ss, result⟩, ret⟩ := bucket
    simp only [Exp.parts, Lambda.parts, Body.parts, List.forall_mem_append,
      List.forall_mem_cons] at inside
    obtain ⟨ops', ⟨params, whole, stms⟩, types⟩ := inside
    exact hist_runs plain here (histograms_transform ops ops')
      (bucket_transforms _ (plain_params params) (plain_types types) (stms_run ss stms whole))
  | scatter width lam arrays dests =>
    obtain ⟨ps, ⟨ss, result⟩, ret⟩ := lam
    simp only [Exp.parts, Lambda.parts, Body.parts, List.forall_mem_append,
      List.forall_mem_cons] at inside
    obtain ⟨⟨params, whole, stms⟩, types⟩ := inside
    exact scatter_runs plain here
      (scatterLambda_transforms _ (plain_params params) (stms_run ss stms whole))

theorem stms_run (ss : List Stm) (fine : ∀ part ∈ stmParts ss, part.Fine)
    (apart : ss.Pairwise fun first later => ∀ x ∈ first.leaks, x ∉ later.outline.binders) :
    Runs bound (stms .standard ss) (stmOutline ss) (ss.flatMap Stm.leaks) := by
  cases ss with
  | nil =>
    intro source scope s serves pending
    exact ⟨s, scope, .pure () s, (Goes.refl serves).emits, fun _ _ _ => rfl⟩
  | cons s ss =>
    simp only [stmParts, List.forall_mem_append] at fine
    obtain ⟨first, rest⟩ := List.pairwise_cons.mp apart
    exact runs_cons (stm_runs s fine.1) (stms_run ss fine.2 rest) first

theorem body_transforms (b : Body) (fine : ∀ part ∈ b.parts, part.Fine) :
    TransformsBody bound (body .standard b) b := by
  obtain ⟨ss, result⟩ := b
  simp only [Body.parts, List.forall_mem_cons] at fine
  intro source scope s serves pending
  simp only [Body.outline, pending_append, pending_readsAll] at pending
  obtain ⟨b', t, gives, aside, sealed, length, -⟩ := bodyOf_seals (stms_run ss fine.2 fine.1)
    (answers_bundleOperands pending.2) serves pending.1
  exact ⟨b', t, gives, aside, sealed, length⟩

theorem lambda_transforms (l : Lambda) (fine : ∀ part ∈ l.parts, part.Fine) :
    Transforms bound (lambda .standard l) l.outline Lambda.outline := by
  obtain ⟨ps, ⟨ss, result⟩, ret⟩ := l
  simp only [Lambda.parts, Body.parts, List.forall_mem_append, List.forall_mem_cons] at fine
  obtain ⟨⟨params, whole, stms⟩, types⟩ := fine
  have plainRet := plain_types types
  refine lambda_seals [] (plain_params params) (stms_run ss stms whole) ?_
    (names_bundledTypes plainRet)
  intro source length known
  rw [length_bundledTypes plainRet, ← length]
  exact answers_bundleOperands known

theorem combiner_transforms (c : Combiner) (fine : ∀ part ∈ c.parts, part.Fine) :
    Transforms bound (combiner .standard c) c.outline Combiner.outline := by
  obtain ⟨op, neutral⟩ := c
  exact combiner_seals (lambda_transforms op fine)

theorem combiners_transform (cs : List Combiner) (fine : ∀ part ∈ combinerParts cs, part.Fine) :
    Transforms bound (combiners .standard cs) (combinerOutline cs) combinerOutline := by
  cases cs with
  | nil => exact transforms_pure rfl
  | cons c cs =>
    simp only [combinerParts, List.forall_mem_append] at fine
    exact transforms_cons (f := id) (Scope.after_combiner c) Scope.after_combiner (fun _ _ => rfl)
      (combiner_transforms c fine.1) (combiners_transform cs fine.2)

theorem reductions_transform (rs : List Reduction) (fine : ∀ part ∈ reductionParts rs, part.Fine) :
    Transforms bound (reductions .standard rs) (reductionOutline rs) reductionOutline := by
  cases rs with
  | nil => exact transforms_pure rfl
  | cons r rs =>
    obtain ⟨commutative, c⟩ := r
    simp only [reductionParts, List.forall_mem_append] at fine
    exact transforms_cons (f := Reduction.mk commutative) (Scope.after_combiner c)
      Scope.after_combiner (fun _ _ => rfl) (combiner_transforms c fine.1)
      (reductions_transform rs fine.2)

theorem streamForm_transforms (form : StreamForm) (fine : ∀ part ∈ form.parts, part.Fine) :
    Transforms bound (streamForm .standard form) form.outline StreamForm.outline := by
  cases form with
  | sequential => exact transforms_pure rfl
  | parallel order commutative op =>
    intro source scope s serves pending
    obtain ⟨op', t, later, gives, goes, sealed⟩ :=
      lambda_transforms op fine source scope s serves (pending_block.mp pending).1
    exact ⟨_, t, later, gives.bind (.pure _ _), goes, sealed_block.mpr ⟨sealed, sealed_done⟩⟩

theorem histograms_transform (hs : List Histogram) (fine : ∀ part ∈ histogramParts hs, part.Fine) :
    Transforms bound (histograms .standard hs) (histogramOutline hs) histogramOutline := by
  cases hs with
  | nil => exact transforms_pure rfl
  | cons h hs =>
    obtain ⟨shape, race, dests, ⟨op, neutral⟩⟩ := h
    simp only [histogramParts, List.forall_mem_append] at fine
    exact histogram_cons (lambda_transforms op fine.1) (histograms_transform hs fine.2)

end

/-! Programs in which every name is bound once. -/

theorem leaks_among (s : Stm) : ∀ x ∈ s.leaks, x ∈ s.outline.binders := by
  obtain ⟨pat, aux, e⟩ := s
  cases e with
  | loop merge form b =>
    intro x mem
    obtain ⟨p, inParams, rfl⟩ := List.mem_map.mp mem
    have bound : p.name ∈ (paramOutline (loopParams merge form)).binders :=
      (mem_binders_paramOutline ..).mpr ⟨p, inParams, rfl⟩
    cases form with
    | whileHolds cond =>
      simp only [loopParams] at bound
      simp [Stm.outline, Exp.outline, loopOutline, bound]
    | forBelow counter w limit arrays =>
      simp only [loopParams, paramOutline_append, binders_append, List.mem_append] at bound
      rcases bound with bound | bound <;>
        simp [Stm.outline, Exp.outline, loopOutline, bound]
  | _ => simp [Stm.leaks]

theorem apart_of_nodup {s : Stm} (unique : s.outline.binders.Nodup) : s.Apart := by
  intro p mem inside
  rw [binders_stm] at unique
  have apart := (List.nodup_append.mp unique).2.2
  exact apart p.name inside p.name ((mem_binders_paramOutline ..).mpr ⟨p, mem, rfl⟩) rfl

theorem pairwise_of_nodup {ss : List Stm} (unique : (stmOutline ss).binders.Nodup) :
    ss.Pairwise fun first later => ∀ x ∈ first.leaks, x ∉ later.outline.binders := by
  induction ss with
  | nil => exact List.Pairwise.nil
  | cons s ss ih =>
    rw [stmOutline, binders_append, List.nodup_append] at unique
    refine List.pairwise_cons.mpr ⟨fun later mem x leaked binder => ?_, ih unique.2.1⟩
    have inRest := (mem_binders_stmOutline ..).mpr ⟨later, mem, binder⟩
    exact unique.2.2 x (leaks_among s x leaked) x inRest rfl

theorem fine_of_unique {l : Lambda} (unique : l.outline.binders.Nodup)
    (supported : ∀ part ∈ l.parts, part.Supported) : ∀ part ∈ l.parts, part.Fine := by
  intro part mem
  have inside := (among_lambda l part mem).nodup unique
  have here := supported part mem
  cases part with
  | ty t => exact here
  | stm s =>
    refine ⟨here, ?_⟩
    have apart := apart_of_nodup inside
    unfold Stm.Shielded
    split
    · trivial
    · exact apart
  | body b =>
    refine pairwise_of_nodup ?_
    simpa [Part.binders, body_outline] using inside

/-! The transformation of a closed lambda. -/

/-- What the two forms of forward differentiation make of a lambda: parameters and tangents take turns,
    one form returns the tangents of the results, and the other the results as well. -/
structure Differentiated (l : Lambda) (s : Supply) (tans : List Param) (dys : List Operand)
    (out bundled : Lambda) : Prop where
  forward : (l.forward .standard s).1 = .ok out
  forwardBundled : (l.forwardBundled .standard s).1 = .ok bundled
  valid : out.validate = .ok ()
  bundled_valid : bundled.validate = .ok ()
  params : out.params = interleave l.params tans
  bundled_params : bundled.params = interleave l.params tans
  tangent_types : tans.map (·.ty) = l.params.map (·.ty)
  result_count : dys.length = l.ret.length
  result : out.body.result = dys
  bundled_result : bundled.body.result = interleave l.body.result dys
  ret : out.ret = l.ret
  bundled_ret : bundled.ret = interleave l.ret l.ret

/-- The state before anything of a lambda was transformed. -/
def start (l : Lambda) (s : Supply) : DiffState := ⟨.ofSupply (s.reserve l), .empty⟩

theorem serves_start (l : Lambda) (s : Supply) :
    Serves (s.reserve l).next [] [] (start l s) where
  sub := by simp
  ready := ⟨by simp [Scope.Below], by simp⟩
  reserved := Nat.le_refl _
  below := by simp [Scope.Below]
  old := by simp
  typed := by simp
  companion_mem := by simp

theorem pending_start (l : Lambda) (s : Supply) (closed : l.outline.Closed []) :
    Pending (s.reserve l).next [] (start l s) l.outline :=
  ⟨closed, fun _ => binder_lt s l, fun x _ => NameTable.find_empty x⟩

theorem gives_top (l : Lambda) (ret : List Ty) {result : Diff (List Operand)} {xs : List Operand}
    {source' : Scope} (plain : ∀ p ∈ l.params, p.ty.isAcc = false)
    (params : Pending bound source s (paramOutline l.params))
    (serves : Serves bound source scope s)
    (first : Gives (stms .standard l.body.stms) (cleared (opened s [] l.params)) () t)
    (emits : Emits bound ((paramOutline l.params).after source)
      ((paramOutline (interleave l.params (tangentsOf s l.params))).after scope)
      (cleared (opened s [] l.params)) source' middle t)
    (second : Gives result t xs u) (goes : Goes bound source' t middle u later)
    (known : ∀ x ∈ operandNames xs, x ∈ later) (count : xs.length = ret.length) :
    ∃ b v, Gives (top .standard l ret result) s
        ⟨interleave l.params (tangentsOf s l.params), b, ret⟩ v ∧
      b.result = xs ∧
      Outline.Accepted (Lambda.outline
        ⟨interleave l.params (tangentsOf s l.params), b, ret⟩) scope := by
  obtain ⟨-, header, -⟩ := serves.opened [] params plain
  obtain ⟨v, gives, -, body, -⟩ := sealed_bodyOf first emits second goes known
  have declare : Gives (build (Build.declareParams l.params)) s () (declared s l.params) := by
    simp [gives_build, Build.declareParams_apply, declared]
  refine ⟨_, v, declare.bind ((gives_bundleBinders plain _).bind (gives.bind (.pure _ _))), rfl, ?_⟩
  rw [accepted_lambda]
  exact ⟨header.closed.1, body.closed.1, count⟩

/-- Forward differentiation of parts that it can follow one by one. -/
theorem differentiated_of_fine (l : Lambda) (s : Supply) (valid : l.validate = .ok ())
    (typesInScope : l.TypesInScope) (fine : ∀ part ∈ l.parts, part.Fine) :
    ∃ tans dys out bundled, Differentiated l s tans dys out bundled := by
  have closed : l.outline.Closed [] := ⟨(validate_iff l).mp valid, typesInScope⟩
  have serves := serves_start l s
  have pending := pending_start l s closed
  obtain ⟨ps, ⟨ss, result⟩, ret⟩ := l
  simp only [Lambda.parts, Body.parts, List.forall_mem_append, List.forall_mem_cons] at fine
  obtain ⟨⟨params, whole, inside⟩, types⟩ := fine
  have plain := plain_params params
  have plainRet := plain_types types
  simp only [Lambda.outline, Body.outline, pending_append, pending_readsAll, pending_mentionsAll,
    pending_count, after_append, after_readsAll] at pending
  obtain ⟨⟨⟨header, stms, known⟩, -⟩, count, -⟩ := pending
  obtain ⟨entered, -, -⟩ := serves.opened [] header plain
  obtain ⟨t, middle, first, emits, -⟩ := stms_run ss inside whole _ _ _ entered.cleared
    (stms.opened.next fun _ _ => rfl)
  obtain ⟨dys, u, later, second, asks, length, bound⟩ := tangents_asks emits.serves known
  have twinTypes := types_paramsFrom (s.reserve ⟨ps, ⟨ss, result⟩, ret⟩).next (ps.map (·.ty))
  obtain ⟨b, v, gives, here, accepted⟩ := gives_top ⟨ps, ⟨ss, result⟩, ret⟩
    (tangentTypes ret) plain header serves
    first emits second asks.toGoes bound (by rw [tangentTypes_eq plainRet, length, count])
  obtain ⟨c, w, gives', here', accepted'⟩ := gives_top ⟨ps, ⟨ss, result⟩, ret⟩
    (bundledTypes ret) plain header serves
    first emits (gives_bundleOperands emits.serves known second) asks.toGoes
    (names_interleave (fun x mem => asks.serves.sub x (known x mem)) bound)
    (by rw [length_bundledTypes plainRet, length_interleave length, count])
  refine ⟨tangentsOf (start _ s) ps, dys, _, _, {
    forward := (gives_start _ _ _).mpr ⟨v, gives⟩
    forwardBundled := (gives_start _ _ _).mpr ⟨w, gives'⟩
    valid := (validate_iff _).mpr accepted
    bundled_valid := (validate_iff _).mpr accepted'
    params := rfl
    bundled_params := rfl
    tangent_types := twinTypes
    result_count := by rw [length, count]
    result := here
    bundled_result := here'
    ret := tangentTypes_eq plainRet
    bundled_ret := bundledTypes_eq plainRet }⟩

/-- Forward differentiation succeeds on whatever it supports, and keeps single assignment and
    scoping. -/
theorem differentiated_of_supported (l : Lambda) (s : Supply) (valid : l.validate = .ok ())
    (typesInScope : l.TypesInScope) (unique : l.occurrences.binders.Nodup)
    (supported : ∀ part ∈ l.parts, part.Supported) :
    ∃ tans dys out bundled, Differentiated l s tans dys out bundled := by
  have bound : l.outline.binders.Nodup := by
    rwa [← binders_occurrences, occurrences_lambda]
  exact differentiated_of_fine l s valid typesInScope (fine_of_unique bound supported)

/-- A power by repeated multiplication. -/
def powerLoop : Lambda :=
  let t : Ty := .scalar (.int .i64)
  ⟨[⟨⟨0⟩, t⟩, ⟨⟨1⟩, t⟩],
    ⟨[⟨[⟨⟨2⟩, t⟩], .none, .loop [(⟨⟨3⟩, t⟩, .const (.int .i64 1))] (.forBelow ⟨4⟩ .i64 (.var ⟨1⟩) [])
        ⟨[⟨[⟨⟨5⟩, t⟩], .none, .basic (.binary (.int .mul .i64) (.var ⟨3⟩) (.var ⟨0⟩))⟩],
          [.var ⟨5⟩]⟩⟩],
      [.var ⟨2⟩]⟩, [t]⟩

theorem differentiated_powerLoop : ∃ tans dys out bundled,
    Differentiated powerLoop ⟨0⟩ tans dys out bundled := by
  refine differentiated_of_supported powerLoop ⟨0⟩ (by decide) (by decide) (by decide) ?_
  simp [powerLoop, Lambda.parts, Body.parts, stmParts, Stm.parts, Exp.parts, loopParams,
    BasicOp.types, Part.Supported, Stm.Supported, Ty.isAcc]

end Forward

end Cotangent
