import Cotangent.Program.Renaming
import Cotangent.Proofs.Scope.Validity
/-!
Renaming on outlines. Renaming a program renames its outline token by token, so that an outline that
is closed in one scope is closed, once it is renamed, in every scope that holds the new names of the
old one and stays below the supply.
-/
namespace Cotangent

/-- The new name of a name; names without a record stay as they are. -/
def Renaming.look (r : Renaming) (x : Name) : Name := (r.fresh.find? x).getD x

namespace Rename

@[simp] theorem read_apply (x : Name) (r : Renaming) : read x r = (r.look x, r) := rfl

/-! What reads without binding: the state stays, and the names are those looked up. -/

theorem names_apply (xs : List Name) (r : Renaming) : names xs r = (xs.map r.look, r) :=
  state_mapM_apply read (fun r x => r.look x) (fun _ _ => rfl) xs r

end Rename

/-- The operand with its name looked up. -/
def Operand.renamed (r : Renaming) : Operand → Operand
  | .const v => .const v
  | .var x => .var (r.look x)

namespace Rename

theorem operand_apply (x : Operand) (r : Renaming) : operand x r = (x.renamed r, r) := by
  cases x <;> rfl

theorem operands_apply (xs : List Operand) (r : Renaming) :
    operands xs r = (xs.map (Operand.renamed r), r) :=
  state_mapM_apply operand Operand.renamed operand_apply xs r

theorem names_renamed (r : Renaming) (x : Operand) :
    (x.renamed r).names = x.names.map r.look := by
  cases x <;> rfl

theorem operandNames_renamed (r : Renaming) (xs : List Operand) :
    operandNames (xs.map (Operand.renamed r)) = (operandNames xs).map r.look := by
  simp [operandNames, List.flatMap_map, List.map_flatMap, names_renamed]

mutual

theorem ty_apply (t : Ty) (r : Renaming) :
    (ty t r).2 = r ∧ (ty t r).1.names = t.names.map r.look := by
  cases t with
  | scalar t => exact ⟨rfl, rfl⟩
  | array elem shape unique =>
    simp [ty, operands_apply, Ty.names, operandNames_renamed]
  | acc token shape elems unique =>
    obtain ⟨kept, renamed⟩ := types_apply elems r
    simp [ty, operands_apply, Ty.names, operandNames_renamed, kept, renamed]

theorem types_apply (ts : List Ty) (r : Renaming) :
    (types ts r).2 = r ∧ typeNames (types ts r).1 = (typeNames ts).map r.look := by
  cases ts with
  | nil => exact ⟨rfl, rfl⟩
  | cons t ts =>
    obtain ⟨keptFirst, first⟩ := ty_apply t r
    obtain ⟨kept, rest⟩ := types_apply ts r
    simp [types, typeNames, keptFirst, first, kept, rest]

end

theorem types_length (ts : List Ty) (r : Renaming) : (types ts r).1.length = ts.length := by
  induction ts with
  | nil => rfl
  | cons t ts ih =>
    obtain ⟨kept, _⟩ := ty_apply t r
    simp [types, kept, ih]

theorem dimIndex_apply (d : DimIndex) (r : Renaming) :
    (dimIndex d r).2 = r ∧ (dimIndex d r).1.names = d.names.map r.look := by
  cases d <;>
    simp [dimIndex, operand_apply, DimIndex.names, operandNames, names_renamed]

theorem slice_apply (ds : List DimIndex) (r : Renaming) :
    (slice ds r).2 = r ∧
      (slice ds r).1.flatMap DimIndex.names = (ds.flatMap DimIndex.names).map r.look := by
  have step : ∀ d r, dimIndex d r = ((dimIndex d r).1, r) :=
    fun d r => Prod.ext rfl (dimIndex_apply d r).1
  have renamed : ∀ d : DimIndex, (dimIndex d r).1.names = d.names.map r.look :=
    fun d => (dimIndex_apply d r).2
  simp only [slice, state_mapM_apply dimIndex (fun r d => (dimIndex d r).1) step, true_and]
  simp [List.flatMap_map, List.map_flatMap, renamed]

theorem basicOp_apply (op : BasicOp) (r : Renaming) :
    (basicOp op r).2 = r ∧ (basicOp op r).1.names = op.names.map r.look ∧
      (basicOp op r).1.typeNames = op.typeNames.map r.look := by
  cases op <;>
    simp [basicOp, operand_apply, operands_apply, names_apply, slice_apply, ty_apply,
      BasicOp.names, BasicOp.typeNames, operandNames, names_renamed, List.flatMap_map,
      List.map_flatMap]

theorem dest_apply (d : ScatterDest) (r : Renaming) :
    (dest d r).2 = r ∧ (dest d r).1.names = d.names.map r.look := by
  simp [dest, operands_apply, ScatterDest.names, operandNames_renamed]

theorem dests_apply (ds : List ScatterDest) (r : Renaming) :
    (ds.mapM dest r).2 = r ∧
      (ds.mapM dest r).1.flatMap ScatterDest.names =
        (ds.flatMap ScatterDest.names).map r.look := by
  have step : ∀ d r, dest d r = ((dest d r).1, r) := fun d r => Prod.ext rfl (dest_apply d r).1
  have renamed : ∀ d : ScatterDest, (dest d r).1.names = d.names.map r.look :=
    fun d => (dest_apply d r).2
  simp only [state_mapM_apply dest (fun r d => (dest d r).1) step, true_and]
  simp [List.flatMap_map, List.map_flatMap, renamed]

end Rename

/-! The renamed outline. -/

namespace Outline

def rename : Outline → Renaming → Outline × Renaming
  | done, r => (done, r)
  | binds x rest, r =>
    let bound := Rename.binder x r
    (binds bound.1 (rest.rename bound.2).1, (rest.rename bound.2).2)
  | reads x rest, r => (reads (r.look x) (rest.rename r).1, (rest.rename r).2)
  | mentions x rest, r => (mentions (r.look x) (rest.rename r).1, (rest.rename r).2)
  | count m n rest, r => (count m n (rest.rename r).1, (rest.rename r).2)
  | block inside rest, r =>
    let opened := inside.rename r
    (block opened.1 (rest.rename opened.2).1, (rest.rename opened.2).2)

theorem rename_append (o p : Outline) (r : Renaming) :
    (o ++ p).rename r =
      ((o.rename r).1 ++ (p.rename (o.rename r).2).1, (p.rename (o.rename r).2).2) := by
  induction o generalizing r <;> simp_all [rename]

theorem rename_readsAll (xs : List Name) (r : Renaming) :
    (readsAll xs).rename r = (readsAll (xs.map r.look), r) := by
  induction xs <;> simp_all [rename]

theorem rename_mentionsAll (xs : List Name) (r : Renaming) :
    (mentionsAll xs).rename r = (mentionsAll (xs.map r.look), r) := by
  induction xs <;> simp_all [rename]

end Outline

namespace Rename

open Outline

theorem outline_param (p : Param) (r : Renaming) :
    p.outline.rename r = ((param p r).1.outline, (param p r).2) := by
  obtain ⟨kept, renamed⟩ := ty_apply p.ty (binder p.name r).2
  simp [Param.outline, param, rename, rename_mentionsAll, kept, renamed]

theorem outline_params (ps : List Param) (r : Renaming) :
    (paramOutline ps).rename r = (paramOutline (params ps r).1, (params ps r).2) := by
  induction ps generalizing r with
  | nil => rfl
  | cons p ps ih =>
    simp only [params] at ih
    simp [params, List.mapM_cons, paramOutline, rename_append, outline_param, ih]

theorem params_length (ps : List Param) (r : Renaming) : (params ps r).1.length = ps.length := by
  induction ps generalizing r with
  | nil => rfl
  | cons p ps ih =>
    simp only [params] at ih
    simp [params, List.mapM_cons, ih]

theorem body_result_length (b : Body) (r : Renaming) :
    (body b r).1.result.length = b.result.length := by
  obtain ⟨ss, result⟩ := b
  simp [body, operands_apply]

theorem outline_basicOp (op : BasicOp) (r : Renaming) :
    op.outline.rename r = ((basicOp op r).1.outline, (basicOp op r).2) := by
  obtain ⟨kept, names, typeNames⟩ := basicOp_apply op r
  simp [BasicOp.outline, rename_append, rename_readsAll, rename_mentionsAll, kept, names,
    typeNames]

theorem outline_loop (merge : List (Param × Operand)) (form : LoopForm) (b : Rename Body)
    (o : Outline) (body : ∀ r, o.rename r = ((b r).1.outline, (b r).2))
    (length : Nat) (resultLength : ∀ r, (b r).1.result.length = length) (arity : Nat)
    (r : Renaming) :
    (loopOutline merge form o ++ count merge.length length done ++
        count merge.length arity done).rename r =
      ((loop merge form b r).1.outline arity, (loop merge form b r).2) := by
  have split {γ : Type} (xs : List (Param × γ)) (ys : List γ) (same : ys.length = xs.length)
      (r : Renaming) : ((params (xs.map (·.1)) r).1.zip ys).map (·.1) = (params (xs.map (·.1)) r).1 ∧
        ((params (xs.map (·.1)) r).1.zip ys).map (·.2) = ys :=
    ⟨List.map_fst_zip (by simp [params_length, same]),
      List.map_snd_zip (by simp [params_length, same])⟩
  obtain ⟨mergeParams, mergeInits⟩ :=
    split merge ((merge.map (·.2)).map (Operand.renamed r)) (by simp) r
  cases form with
  | whileHolds cond =>
    simp [-List.map_map, loop, loopOutline, Exp.outline, rename_append, rename_readsAll, rename,
      operands_apply, outline_params, body, resultLength, params_length, ← operandNames_renamed,
      mergeParams, mergeInits]
  | forBelow counter w bound arrays =>
    obtain ⟨rows, sources⟩ := split arrays ((arrays.map (·.2)).map r.look) (by simp)
      (binder counter (params (merge.map (·.1)) r).2).2
    simp [-List.map_map, loop, loopOutline, Exp.outline, rename_append, rename_readsAll, rename,
      operand_apply, operands_apply, names_apply, outline_params, body, resultLength,
      params_length, ← operandNames_renamed, names_renamed, mergeParams, mergeInits, rows, sources]

mutual

theorem outline_exp (arity : Nat) (e : Exp) (r : Renaming) :
    (e.outline arity).rename r = ((exp e r).1.outline arity, (exp e r).2) := by
  cases e with
  | basic op => simp [exp, Exp.outline, rename_append, outline_basicOp, rename]
  | apply func args ret =>
    obtain ⟨kept, renamed⟩ := types_apply ret r
    simp [exp, Exp.outline, rename_append, rename_readsAll, rename_mentionsAll, rename,
      operands_apply, operandNames_renamed, kept, renamed, types_length]
  | branch cond yes no ret sort =>
    obtain ⟨kept, renamed⟩ := types_apply ret (body no (body yes r).2).2
    simp [exp, Exp.outline, rename_append, rename_readsAll, rename_mentionsAll, rename,
      operand_apply, names_renamed, outline_body yes, outline_body no, body_result_length,
      kept, renamed, types_length]
  | loop merge form b =>
    simpa [exp, Exp.outline] using
      outline_loop merge form (body b) b.outline (outline_body b) b.result.length
        (body_result_length b) arity r
  | withAcc inputs lam =>
    simp [exp, Exp.outline, rename_append, rename, outline_accInputs inputs, outline_lambda lam]
  | screma width arrays scans reduces map =>
    simp [exp, Exp.outline, rename_append, rename, rename_readsAll, operand_apply, names_apply,
      names_renamed, outline_combiners scans, outline_reductions reduces, outline_lambda map]
  | stream width arrays form inits lam =>
    simp [exp, Exp.outline, rename_append, rename, rename_readsAll, operand_apply, names_apply,
      operands_apply, operandNames_renamed, names_renamed, outline_streamForm form,
      outline_lambda lam]
  | hist width ops bucket arrays =>
    simp [exp, Exp.outline, rename_append, rename, rename_readsAll, operand_apply, names_apply,
      names_renamed, outline_histograms ops, outline_lambda bucket]
  | scatter width lam arrays dests =>
    obtain ⟨kept, renamed⟩ := dests_apply dests (lambda lam r).2
    simp [exp, Exp.outline, rename_append, rename, rename_readsAll, operand_apply, names_apply,
      names_renamed, outline_lambda lam, kept, renamed]

theorem outline_stm (s : Stm) (r : Renaming) :
    s.outline.rename r = ((stm s r).1.outline, (stm s r).2) := by
  obtain ⟨pat, aux, e⟩ := s
  simp [stm, Stm.outline, rename_append, rename_readsAll, names_apply, outline_exp pat.length e,
    outline_params, params_length]

theorem outline_stms (ss : List Stm) (r : Renaming) :
    (stmOutline ss).rename r = (stmOutline (stms ss r).1, (stms ss r).2) := by
  cases ss with
  | nil => rfl
  | cons s ss => simp [stms, stmOutline, rename_append, outline_stm s, outline_stms ss]

theorem outline_body (b : Body) (r : Renaming) :
    b.outline.rename r = ((body b r).1.outline, (body b r).2) := by
  obtain ⟨ss, result⟩ := b
  simp [body, Body.outline, rename_append, rename_readsAll, outline_stms ss, operands_apply,
    operandNames_renamed]

theorem outline_lambda (l : Lambda) (r : Renaming) :
    l.outline.rename r = ((lambda l r).1.outline, (lambda l r).2) := by
  obtain ⟨ps, b, ret⟩ := l
  obtain ⟨kept, renamed⟩ := types_apply ret (body b (params ps r).2).2
  simp [lambda, Lambda.outline, rename_append, rename_mentionsAll, rename, outline_params,
    outline_body b, body_result_length, kept, renamed, types_length]

theorem outline_combiner (c : Combiner) (r : Renaming) :
    c.outline.rename r = ((combiner c r).1.outline, (combiner c r).2) := by
  obtain ⟨op, neutral⟩ := c
  simp [combiner, Combiner.outline, rename_append, rename_readsAll, rename, operands_apply,
    operandNames_renamed, outline_lambda op]

theorem outline_combiners (cs : List Combiner) (r : Renaming) :
    (combinerOutline cs).rename r = (combinerOutline (combiners cs r).1, (combiners cs r).2) := by
  cases cs with
  | nil => rfl
  | cons c cs =>
    simp [combiners, combinerOutline, rename_append, outline_combiner c, outline_combiners cs]

theorem outline_reductions (rs : List Reduction) (r : Renaming) :
    (reductionOutline rs).rename r =
      (reductionOutline (reductions rs r).1, (reductions rs r).2) := by
  cases rs with
  | nil => rfl
  | cons first rs =>
    obtain ⟨commutative, c⟩ := first
    simp [reductions, reductionOutline, rename_append, outline_combiner c, outline_reductions rs]

theorem outline_streamForm (form : StreamForm) (r : Renaming) :
    form.outline.rename r = ((streamForm form r).1.outline, (streamForm form r).2) := by
  cases form with
  | sequential => rfl
  | parallel order commutative op =>
    simp [streamForm, StreamForm.outline, rename, outline_lambda op]

theorem outline_accInputs (inputs : List AccInput) (r : Renaming) :
    (accInputOutline inputs).rename r =
      (accInputOutline (accInputs inputs r).1, (accInputs inputs r).2) := by
  cases inputs with
  | nil => rfl
  | cons input rest =>
    obtain ⟨shape, arrays, combine⟩ := input
    cases combine with
    | none =>
      simp [accInputs, accInputOutline, rename_append, rename_readsAll, operands_apply,
        names_apply, operandNames_renamed, outline_accInputs rest]
    | some c =>
      simp [accInputs, accInputOutline, rename_append, rename_readsAll, operands_apply,
        names_apply, operandNames_renamed, outline_combiner c, outline_accInputs rest]

theorem outline_histograms (hs : List Histogram) (r : Renaming) :
    (histogramOutline hs).rename r =
      (histogramOutline (histograms hs r).1, (histograms hs r).2) := by
  cases hs with
  | nil => rfl
  | cons h rest =>
    obtain ⟨shape, race, dests, c⟩ := h
    simp [histograms, histogramOutline, rename_append, rename_readsAll, operands_apply,
      operand_apply, names_apply, names_renamed, operandNames_renamed, outline_combiner c,
      outline_histograms rest]

end

end Rename

/-! Scoping of renamed outlines. -/

/-- Every name of the scope lies below the number. -/
def Scope.Below (scope : Scope) (n : Nat) : Prop := ∀ x ∈ scope, x.id < n

namespace Scope

theorem Below.mono {scope : Scope} {m n : Nat} (below : scope.Below m) (le : m ≤ n) :
    scope.Below n :=
  fun x known => Nat.lt_of_lt_of_le (below x known) le

theorem Below.cons {scope : Scope} {n : Nat} (below : scope.Below n) {x : Name} (lt : x.id < n) :
    Scope.Below (x :: scope) n := by
  intro y known
  rcases List.mem_cons.mp known with rfl | known
  · exact lt
  · exact below y known

theorem Below.append {scope names : Scope} {n : Nat} (below : scope.Below n)
    (more : names.Below n) : Scope.Below (scope ++ names) n := by
  intro x known
  rcases List.mem_append.mp known with known | known
  · exact below x known
  · exact more x known

theorem Below.fresh {scope : Scope} {n : Nat} (below : scope.Below n) : (⟨n⟩ : Name) ∉ scope :=
  fun known => Nat.lt_irrefl n (below _ known)

end Scope

namespace Renaming

theorem look_binder (r : Renaming) (x y : Name) :
    (Rename.binder x r).2.look y = if y = x then ⟨r.supply.next⟩ else r.look y := by
  simp only [look, Rename.binder, Supply.fresh, NameTable.find_insert]
  split <;> rfl

theorem next_binder (r : Renaming) (x : Name) :
    (Rename.binder x r).2.supply.next = r.supply.next + 1 := rfl

/-- The new names of a scope stand in another scope, which lies below the supply. -/
structure Into (r : Renaming) (scope target : Scope) : Prop where
  look_mem : ∀ x ∈ scope, r.look x ∈ target
  below : target.Below r.supply.next

theorem Into.binder {r : Renaming} {scope target : Scope} (into : r.Into scope target) (x : Name) :
    (Rename.binder x r).2.Into (x :: scope) (⟨r.supply.next⟩ :: target) where
  look_mem y known := by
    rw [look_binder]
    split
    · exact List.mem_cons_self
    · rename_i other
      have known : y ∈ scope := (List.mem_cons.mp known).resolve_left other
      exact List.mem_cons_of_mem _ (into.look_mem y known)
  below := (into.below.mono (Nat.le_succ _)).cons (Nat.lt_succ_self _)

end Renaming

namespace Outline

theorem next_le_rename (o : Outline) (r : Renaming) :
    r.supply.next ≤ (o.rename r).2.supply.next := by
  induction o generalizing r with
  | done => exact Nat.le_refl _
  | binds x rest ih =>
    have stepped := ih (Rename.binder x r).2
    rw [Renaming.next_binder] at stepped
    exact Nat.le_trans (Nat.le_succ _) stepped
  | reads x rest ih => exact ih r
  | mentions x rest ih => exact ih r
  | count m n rest ih => exact ih r
  | block inside rest insideIH ih => exact Nat.le_trans (insideIH r) (ih _)

theorem look_rename (o : Outline) (r : Renaming) {x : Name} (unbound : x ∉ o.binders) :
    (o.rename r).2.look x = r.look x := by
  induction o generalizing r with
  | done => rfl
  | binds y rest ih =>
    rw [binders, List.mem_cons, not_or] at unbound
    rw [rename, ih _ unbound.2, Renaming.look_binder, if_neg unbound.1]
  | reads y rest ih => exact ih r unbound
  | mentions y rest ih => exact ih r unbound
  | count m n rest ih => exact ih r unbound
  | block inside rest insideIH ih =>
    rw [binders, List.mem_append, not_or] at unbound
    rw [rename, ih _ unbound.2, insideIH _ unbound.1]

/-- The new binders are drawn from the supply. -/
theorem binders_rename (o : Outline) (r : Renaming) {y : Name}
    (binder : y ∈ (o.rename r).1.binders) :
    r.supply.next ≤ y.id ∧ y.id < (o.rename r).2.supply.next := by
  induction o generalizing r with
  | done => simp [rename] at binder
  | binds x rest ih =>
    have le := next_le_rename rest (Rename.binder x r).2
    rw [Renaming.next_binder] at le
    rcases List.mem_cons.mp binder with rfl | binder
    · exact ⟨Nat.le_refl _, le⟩
    · obtain ⟨lower, upper⟩ := ih _ binder
      rw [Renaming.next_binder] at lower
      exact ⟨Nat.le_of_succ_le lower, upper⟩
  | reads x rest ih => exact ih r binder
  | mentions x rest ih => exact ih r binder
  | count m n rest ih => exact ih r binder
  | block inside rest insideIH ih =>
    have leInside := next_le_rename inside r
    have leRest := next_le_rename rest (inside.rename r).2
    rcases List.mem_append.mp binder with binder | binder
    · obtain ⟨lower, upper⟩ := insideIH _ binder
      exact ⟨lower, Nat.lt_of_lt_of_le upper leRest⟩
    · obtain ⟨lower, upper⟩ := ih _ binder
      exact ⟨Nat.le_trans leInside lower, upper⟩

/-- The binders of a block are not in scope around it, so the names around it keep their record. -/
theorem Accepted.into_block {inside : Outline} {scope target : Scope} {r : Renaming}
    (accepted : inside.Accepted scope) (into : r.Into scope target) :
    (inside.rename r).2.Into scope target ∧ ∀ x ∈ scope, (inside.rename r).2.look x = r.look x := by
  have kept : ∀ x ∈ scope, (inside.rename r).2.look x = r.look x := fun x known =>
    look_rename inside r fun binder => not_mem_of_binder accepted binder known
  exact ⟨⟨fun x known => kept x known ▸ into.look_mem x known,
    into.below.mono (next_le_rename inside r)⟩, kept⟩

theorem Closed.rename {o : Outline} {scope target : Scope} {r : Renaming}
    (closed : o.Closed scope) (into : r.Into scope target) :
    (o.rename r).1.Closed target ∧
      (o.rename r).2.Into (o.after scope) ((o.rename r).1.after target) := by
  induction o generalizing scope target r with
  | done => exact ⟨closed_done target, into⟩
  | binds x rest ih =>
    obtain ⟨restClosed, restInto⟩ := ih ((closed_binds ..).mp closed).2 (into.binder x)
    exact ⟨(closed_binds ..).mpr ⟨into.below.fresh, restClosed⟩, restInto⟩
  | reads x rest ih =>
    obtain ⟨known, closed⟩ := (closed_reads ..).mp closed
    obtain ⟨restClosed, restInto⟩ := ih closed into
    exact ⟨(closed_reads ..).mpr ⟨into.look_mem x known, restClosed⟩, restInto⟩
  | mentions x rest ih =>
    obtain ⟨known, closed⟩ := (closed_mentions ..).mp closed
    obtain ⟨restClosed, restInto⟩ := ih closed into
    exact ⟨(closed_mentions ..).mpr ⟨into.look_mem x known, restClosed⟩, restInto⟩
  | count m n rest ih =>
    obtain ⟨agree, closed⟩ := (closed_count ..).mp closed
    obtain ⟨restClosed, restInto⟩ := ih closed into
    exact ⟨(closed_count ..).mpr ⟨agree, restClosed⟩, restInto⟩
  | block inside rest insideIH ih =>
    obtain ⟨insideClosed, closed⟩ := (closed_block ..).mp closed
    obtain ⟨restClosed, restInto⟩ := ih closed (insideClosed.1.into_block into).1
    exact ⟨(closed_block ..).mpr ⟨(insideIH insideClosed into).1, restClosed⟩, restInto⟩

end Outline

/-- A body with fresh binders is closed wherever the body was, and in every wider scope. -/
theorem Body.closed_rename {b : Body} {s : Supply} {scope target : Scope}
    (closed : b.outline.Closed scope) (sub : ∀ x ∈ scope, x ∈ target)
    (below : target.Below s.next) :
    (b.rename s).1.outline.Closed target ∧
      ((b.rename s).1.outline.after target).Below (b.rename s).2.next ∧
      (∀ y ∈ (b.rename s).1.outline.binders, s.next ≤ y.id ∧ y.id < (b.rename s).2.next) ∧
      s.next ≤ (b.rename s).2.next := by
  have renamed := Rename.outline_body b ⟨s, .empty⟩
  have into : (⟨s, .empty⟩ : Renaming).Into scope target := ⟨fun x known => sub x known, below⟩
  obtain ⟨targetClosed, afterInto⟩ := closed.rename into
  have binders := fun y => b.outline.binders_rename ⟨s, .empty⟩ (y := y)
  have next := b.outline.next_le_rename ⟨s, .empty⟩
  rw [renamed] at targetClosed afterInto binders next
  exact ⟨targetClosed, afterInto.below, binders, next⟩

end Cotangent
