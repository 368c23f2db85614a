import Cotangent.Proofs.Derivative.ForwardDeclarations
import Cotangent.Proofs.Interleave
import Cotangent.Proofs.Scope.Reserve
import Cotangent.Proofs.Scope.Seen
/-!
The two entry points of forward differentiation. They transform the parameters and the statements alike
and part ways at the results, where one asks for tangents and the other also for the recorded types. The
types that are on record by then are those of the binders in scope, so both ask for the same zeros.
-/
namespace Cotangent

open Outline Diff

/-- Wherever the parameters or the statements of the body bind a name that is returned, it is not an
    accumulator. -/
def Lambda.ReturnsValues (l : Lambda) : Prop :=
  ∀ p ∈ l.params ++ l.body.stms.flatMap (·.pat),
    .var p.name ∈ l.body.result → p.ty.isAcc = false

instance (l : Lambda) : Decidable l.ReturnsValues :=
  inferInstanceAs (Decidable (∀ p ∈ l.params ++ l.body.stms.flatMap (·.pat),
    .var p.name ∈ l.body.result → p.ty.isAcc = false))

/-! Two actions side by side. -/

namespace Diff

variable {α α' β β' : Type} {s : DiffState}

/-- Both actions leave the same state, and either fail of the same error or succeed with results that
    are related. -/
def Twin (act : Diff α) (act' : Diff α') (s : DiffState) (R : α → α' → Prop) : Prop :=
  (outcome act s).2 = (outcome act' s).2 ∧
    ((∃ e, (outcome act s).1 = .error e ∧ (outcome act' s).1 = .error e) ∨
      ∃ a a', (outcome act s).1 = .ok a ∧ (outcome act' s).1 = .ok a' ∧ R a a')

variable {R : α → α' → Prop} {Q : β → β' → Prop}

theorem twin_self (act : Diff α) (s : DiffState) :
    Twin act act s fun a a' => a = a' ∧ Gives act s a (outcome act s).2 := by
  refine ⟨rfl, ?_⟩
  cases came : (outcome act s).1 with
  | error e => exact .inl ⟨e, rfl, rfl⟩
  | ok a => exact .inr ⟨a, a, rfl, rfl, rfl, Prod.ext came rfl⟩

theorem twin_pure {a : α} {a' : α'} (related : R a a') : Twin (pure a) (pure a') s R :=
  ⟨rfl, .inr ⟨a, a', rfl, rfl, related⟩⟩

theorem twin_of_gives {act : Diff α} {act' : Diff α'} {a : α} {a' : α'} {t : DiffState}
    (gives : Gives act s a t) (gives' : Gives act' s a' t) (related : R a a') :
    Twin act act' s R := by
  rw [Gives] at gives gives'
  rw [Twin, gives, gives']
  exact ⟨rfl, .inr ⟨a, a', rfl, rfl, related⟩⟩

theorem Twin.bind {act : Diff α} {act' : Diff α'} {f : α → Diff β} {f' : α' → Diff β'}
    (first : Twin act act' s R)
    (rest : ∀ a a', R a a' → Twin (f a) (f' a') (outcome act s).2 Q) :
    Twin (act >>= f) (act' >>= f') s Q := by
  obtain ⟨same, failed | ⟨a, a', ok, ok', related⟩⟩ := first
  · obtain ⟨e, error, error'⟩ := failed
    have ran : outcome act s = (.error e, (outcome act s).2) := Prod.ext error rfl
    have ran' : outcome act' s = (.error e, (outcome act s).2) := Prod.ext error' same.symm
    rw [Twin, outcome_bind, outcome_bind, ran, ran']
    exact ⟨rfl, .inl ⟨e, rfl, rfl⟩⟩
  · have ran : outcome act s = (.ok a, (outcome act s).2) := Prod.ext ok rfl
    have ran' : outcome act' s = (.ok a', (outcome act s).2) := Prod.ext ok' same.symm
    have next := rest a a' related
    rw [Twin, outcome_bind, outcome_bind, ran, ran']
    exact next

/-- The statements that were collected are the same. -/
theorem Twin.collect {act : Diff α} {act' : Diff α'}
    (inside : Twin act act' { s with builder := { s.builder with stms := [] } } R) :
    Twin (collect act) (collect act') s fun r r' => R r.1 r'.1 ∧ r.2 = r'.2 := by
  let start : DiffState := { s with builder := { s.builder with stms := [] } }
  have unfolded {γ : Type} (act : Diff γ) : outcome (Diff.collect act) s =
      ((outcome act start).1.map fun x => (x, (outcome act start).2.builder.stms),
        { (outcome act start).2 with
          builder := { (outcome act start).2.builder with stms := s.builder.stms } }) := rfl
  obtain ⟨same, came⟩ := inside
  rw [Twin, unfolded act, unfolded act', ← same]
  refine ⟨rfl, ?_⟩
  rcases came with ⟨e, error, error'⟩ | ⟨a, a', ok, ok', related⟩
  · rw [error, error']
    exact .inl ⟨e, rfl, rfl⟩
  · rw [ok, ok']
    exact .inr ⟨_, _, rfl, rfl, related, rfl⟩

theorem Twin.bodyOf {stms : Diff Unit} {result result' : Diff (List Operand)}
    {R : List Operand → List Operand → Prop}
    (inside : Twin (do stms; result) (do stms; result')
      { s with builder := { s.builder with stms := [] } } R) :
    Twin (bodyOf stms result) (bodyOf stms result') s
      fun b b' => b.stms = b'.stms ∧ R b.result b'.result :=
  inside.collect.bind fun _ _ related => twin_pure ⟨related.2, related.1⟩

end Diff

namespace Forward

variable {rules : Rules} {n : Nat} {s : DiffState}

/-! The types on record at the results. -/

/-- A name in scope keeps the type of its binder, whatever happens in scopes that have ended. -/
theorem hasValueType_stms {ss : List Stm} {source : Scope} {x : Name} {t : DiffState}
    (accepted : (stmOutline ss).Accepted source) (below : x.id < n)
    (values : ∀ p ∈ ss.flatMap (·.pat), p.name = x → p.ty.isAcc = false)
    (past : n ≤ s.builder.supply.next)
    (known : x ∈ source → HasValueType s.builder.types x)
    (mem : x ∈ (stmOutline ss).after source) (ran : Gives (stms rules ss) s () t) :
    HasValueType t.builder.types x := by
  induction ss generalizing source s with
  | nil =>
    obtain ⟨-, rfl⟩ := (gives_pure ..).mp ran
    exact known mem
  | cons stm ss ih =>
    simp only [stmOutline, accepted_append, after_append] at accepted mem
    obtain ⟨inStm, inRest⟩ := accepted
    rw [after_stm] at inRest mem
    obtain ⟨⟨⟩, u, first, rest⟩ := (gives_bind ..).mp ran
    have declares : Declares (· ∈ stm.outline.binders) n (Forward.stm rules stm)
        fun _ types => Records n stm.pat types := declares_stm stm fun _ binder => binder
    obtain ⟨frame, records⟩ := declares s past
    rw [Gives] at first
    rw [first] at frame records
    have inPat : ∀ p ∈ stm.pat, p.name = x → p.ty.isAcc = false := fun p mem =>
      values p (List.mem_flatMap.mpr ⟨stm, by simp, mem⟩)
    refine ih inRest (fun p mem => values p ?_) frame.next_le (fun inScope => ?_) mem rest
    · obtain ⟨stm', later, mem⟩ := List.mem_flatMap.mp mem
      exact List.mem_flatMap.mpr ⟨stm', List.mem_cons_of_mem _ later, mem⟩
    · rcases (mem_after_paramOutline ..).mp inScope with outer | bound
      · obtain ⟨ty, found, value⟩ := known outer
        have unbound : x ∉ stm.outline.binders := fun binder => not_mem_of_binder inStm binder outer
        exact ⟨ty, (frame.kept x below unbound).trans found, value⟩
      · exact records () rfl x below ⟨bound, inPat⟩

/-! Results that are values. -/

theorem var_mem_of_name {xs : List Operand} {x : Name} (mem : x ∈ operandNames xs) :
    .var x ∈ xs := by
  obtain ⟨operand, inXs, here⟩ := List.mem_flatMap.mp mem
  cases operand with
  | const v => simp [Operand.names] at here
  | var y =>
    obtain rfl : x = y := by simpa [Operand.names] using here
    exact inXs

/-- The names of the operands were drawn before `n` and are recorded as values. -/
def Valued (n : Nat) (s : DiffState) (xs : List Operand) : Prop :=
  ∀ x ∈ operandNames xs, x.id < n ∧ HasValueType s.builder.types x

theorem gives_zeroOf_value {x : Name} (value : HasValueType s.builder.types x) :
    ∃ c t, Gives (zeroOf x) s c t := by
  obtain ⟨ty, found, value⟩ := value
  have asks : Gives (typeOf x) s ty s := (gives_typeOf ..).mpr ⟨found, rfl⟩
  cases zero : zeroExp ty with
  | none => cases ty <;> simp [zeroExp, Ty.isAcc] at zero value
  | some e =>
    let emit := Build.letExp ty e
    refine ⟨(emit s.builder).1, { s with builder := (emit s.builder).2 }, asks.bind ?_⟩
    rw [zero]
    exact .build emit s

theorem gives_companion_value {x : Name} (value : HasValueType s.builder.types x) :
    ∃ c t, Gives (companion x) s c t := by
  have asks := (gives_companion? x s s _).mpr ⟨rfl, rfl⟩
  cases found : s.companions.find? x with
  | some c =>
    refine ⟨c, s, asks.bind ?_⟩
    rw [found]
    exact .pure c s
  | none =>
    obtain ⟨c, t, zero⟩ := gives_zeroOf_value value
    let recorded : DiffState := { t with companions := t.companions.insert x c }
    have record := (gives_setCompanion x c t recorded ()).mpr rfl
    refine ⟨c, recorded, asks.bind ?_⟩
    rw [found]
    exact zero.bind (record.bind (.pure c _))

/-- A tangent of a value can always be had. -/
theorem gives_tangent_value {x : Operand} (valued : Valued n s [x]) :
    ∃ y t, Gives (tangent x) s y t := by
  cases x with
  | const v => exact ⟨_, s, .pure _ s⟩
  | var x =>
    obtain ⟨-, value⟩ := valued x (by simp [operandNames, Operand.names])
    obtain ⟨c, t, here⟩ := gives_companion_value value
    exact ⟨.var c, t, here.bind (.pure _ t)⟩

theorem gives_isAccOperand_value {x : Operand} (valued : Valued n s [x]) :
    Gives (isAccOperand x) s false s := by
  cases x with
  | const v => exact .pure _ s
  | var x =>
    obtain ⟨-, ty, found, value⟩ := valued x (by simp [operandNames, Operand.names])
    have asks : Gives (typeOf x) s ty s := (gives_typeOf ..).mpr ⟨found, rfl⟩
    exact asks.bind ((gives_pure ..).mpr ⟨value, rfl⟩)

theorem Valued.after {xs : List Operand} {x y : Operand} {t : DiffState} (valued : Valued n s xs)
    (past : n ≤ s.builder.supply.next) (ran : Gives (tangent x) s y t) :
    n ≤ t.builder.supply.next ∧ Valued n t xs := by
  have declares : DeclaresOnly (fun _ => False) n (tangent x) := declaresOnly_tangent x
  obtain ⟨frame, -⟩ := declares s past
  rw [Gives] at ran
  rw [ran] at frame
  refine ⟨frame.next_le, fun z mem => ?_⟩
  obtain ⟨below, ty, found, value⟩ := valued z mem
  exact ⟨below, ty, (frame.kept z below id).trans found, value⟩

/-- Results that are values get the same tangents from both walks, with the primal results between
    them in the second. -/
theorem gives_results {xs : List Operand} (valued : Valued n s xs)
    (past : n ≤ s.builder.supply.next) : ∃ ys t, ys.length = xs.length ∧
      Gives (tangents xs) s ys t ∧ Gives (bundleOperands xs) s (interleave xs ys) t := by
  -- the second walk flattens its groups once, at the end
  suffices both : ∃ ys t, ys.length = xs.length ∧ Gives (xs.mapM tangent) s ys t ∧
      Gives (xs.mapM fun x => do
        if ← isAccOperand x then return [x] else return [x, ← tangent x]) s
        ((xs.zip ys).map fun p => [p.1, p.2]) t by
    obtain ⟨ys, t, same, plain, grouped⟩ := both
    refine ⟨ys, t, same, plain, Gives.bind grouped ((gives_pure ..).mpr ⟨?_, rfl⟩)⟩
    rw [interleave, List.flatMap_def]
  induction xs generalizing s with
  | nil => exact ⟨[], s, rfl, .pure [] s, .pure [] s⟩
  | cons x xs ih =>
    have head : Valued n s [x] := fun y mem => valued y (by
      simp only [operandNames, List.flatMap_cons, List.flatMap_nil, List.append_nil] at mem ⊢
      exact List.mem_append_left _ mem)
    have tail : Valued n s xs := fun y mem => valued y (by
      simp only [operandNames, List.flatMap_cons] at mem ⊢
      exact List.mem_append_right _ mem)
    obtain ⟨y, t, here⟩ := gives_tangent_value head
    obtain ⟨past, tail⟩ := tail.after past here
    obtain ⟨ys, u, same, plain, grouped⟩ := ih tail past
    refine ⟨y :: ys, u, by simp [same], ?_, ?_⟩
    · rw [List.mapM_cons]
      exact here.bind (plain.bind (.pure _ u))
    · rw [List.mapM_cons]
      refine Gives.bind ((gives_isAccOperand_value head).bind ?_) (grouped.bind (.pure _ u))
      exact here.bind (.pure _ t)

/-! The two transformations. -/

/-- The parameters are on record, also after their tangents were made. -/
theorem records_params (ps : List Param) (past : n ≤ s.builder.supply.next) :
    let t := (outcome (build (Build.declareParams ps)) s).2
    let u := (outcome (bundleBinders ps) t).2
    n ≤ u.builder.supply.next ∧ Records n ps u.builder.types := by
  intro t u
  have declared : t.builder = (Build.declareParams ps s.builder).2 := rfl
  rw [Build.declareParams_apply] at declared
  have records : Records n ps t.builder.types := by
    rw [declared]
    exact (widens_self n ps).records _
  have past : n ≤ t.builder.supply.next := by
    rw [declared]
    exact past
  have declares : Declares (BindsAcc ps) n (bundleBinders ps) fun qs _ => Widens n ps qs :=
    declares_widened fun p mem acc => ⟨p, mem, rfl, acc⟩
  obtain ⟨frame, -⟩ := declares t past
  exact ⟨frame.next_le, records.kept frame.kept⟩

/-- What comes out is the same up to the results, which the second transformation keeps beside their
    tangents. -/
structure KeepsPrimals (results : List Operand) (plain bundled : Lambda) : Prop where
  params : plain.params = bundled.params
  stms : plain.body.stms = bundled.body.stms
  results : ∀ i, bundled.body.result[2 * i]? = results[i]? ∧
    bundled.body.result[2 * i + 1]? = plain.body.result[i]?

/-- The results are computed where all names of the body have the types of their binders. -/
theorem twin_results {ss : List Stm} {xs : List Operand} {source : Scope}
    (accepted : (stmOutline ss).Accepted source)
    (known : ∀ x ∈ operandNames xs, x ∈ (stmOutline ss).after source)
    (below : ∀ x ∈ operandNames xs, x.id < n) (past : n ≤ s.builder.supply.next)
    (recorded : ∀ x ∈ operandNames xs, x ∈ source → HasValueType s.builder.types x)
    (values : ∀ p ∈ ss.flatMap (·.pat), p.name ∈ operandNames xs → p.ty.isAcc = false) :
    Twin (do stms rules ss; tangents xs) (do stms rules ss; bundleOperands xs) s
      fun ys zs => ∀ i, zs[2 * i]? = xs[i]? ∧ zs[2 * i + 1]? = ys[i]? := by
  refine (twin_self (stms rules ss) s).bind fun _ _ ⟨_, ran⟩ => ?_
  have declares : DeclaresOnly (fun _ => True) n (stms rules ss) :=
    declaresOnly_stms ss fun _ _ => trivial
  obtain ⟨frame, -⟩ := declares s past
  have valued : Valued n (outcome (stms rules ss) s).2 xs := by
    intro x mem
    refine ⟨below x mem, hasValueType_stms accepted (below x mem) ?_ past (recorded x mem)
      (known x mem) ran⟩
    rintro p inSs rfl
    exact values p inSs mem
  obtain ⟨ys, u, length, plain, bundled⟩ := gives_results valued frame.next_le
  exact twin_of_gives plain bundled fun i => getElem?_interleave length i

theorem twin_top {l : Lambda} (accepted : l.outline.Accepted []) (values : l.ReturnsValues)
    (below : ∀ x ∈ operandNames l.body.result, x.id < n) (past : n ≤ s.builder.supply.next)
    (ret ret' : List Ty) :
    Twin (top rules l ret (tangents l.body.result)) (top rules l ret' (bundleOperands l.body.result))
      s (KeepsPrimals l.body.result) := by
  obtain ⟨ps, ⟨ss, xs⟩, retTypes⟩ := l
  obtain ⟨-, inBody, -⟩ := (accepted_lambda _ _).mp accepted
  simp only [Body.outline, accepted_append, accepted_readsAll] at inBody below
  have values : ∀ p ∈ ps ++ ss.flatMap (·.pat), p.name ∈ operandNames xs → p.ty.isAcc = false :=
    fun p bound mem => values p bound (var_mem_of_name mem)
  refine (twin_self _ s).bind fun _ _ _ => ?_
  refine (twin_self _ _).bind fun ps' _ same => ?_
  obtain ⟨rfl, -⟩ := same
  obtain ⟨past, records⟩ := records_params ps past
  generalize (outcome (bundleBinders ps) (outcome (build (Build.declareParams ps)) s).2).2 = t
    at past records
  refine (Twin.bodyOf (twin_results inBody.1 inBody.2 below past (fun x mem inScope => ?_)
    fun p inSs => values p (List.mem_append_right _ inSs))).bind
      fun b b' related => twin_pure ⟨rfl, related.1, related.2⟩
  obtain ⟨p, inPs, rfl⟩ := ((mem_after_paramOutline ..).mp inScope).resolve_left (by simp)
  refine records p.name (below _ mem) ⟨⟨p, inPs, rfl⟩, fun q inPs same => ?_⟩
  exact values q (List.mem_append_left _ inPs) (same ▸ mem)

end Forward

/-- Forward differentiation with the primal results kept is forward differentiation: whatever stops
    one stops the other, and otherwise both make the same statements from the same fresh names. Only
    the results differ, and those of the source stand between the tangents. -/
theorem Lambda.forward_twin (l : Lambda) (valid : l.validate = .ok ()) (values : l.ReturnsValues)
    (rules : Rules) (s : Supply) :
    (l.forward rules s).2 = (l.forwardBundled rules s).2 ∧
      ((∃ e, (l.forward rules s).1 = .error e ∧ (l.forwardBundled rules s).1 = .error e) ∨
        ∃ plain bundled, (l.forward rules s).1 = .ok plain ∧
          (l.forwardBundled rules s).1 = .ok bundled ∧
          plain.params = bundled.params ∧ plain.body.stms = bundled.body.stms ∧
          ∀ i, bundled.body.result[2 * i]? = l.body.result[i]? ∧
            bundled.body.result[2 * i + 1]? = plain.body.result[i]?) := by
  have accepted := (validate_iff l).mp valid
  have below : ∀ x ∈ operandNames l.body.result, x.id < (s.reserve l).next := by
    have seen : Occurrences.Seen (fun x => x.id < (s.reserve l).next) l.occurrences :=
      fun o mem => lt_reserve s l mem
    have inResult := ((Occurrences.seen_body _).mp ((Occurrences.seen_lambda l).mp seen).2.1).2
    rw [operandOccurrences_eq] at inResult
    exact fun x mem => inResult _ (List.mem_map_of_mem mem)
  have twin : Twin (Forward.top rules l (tangentTypes l.ret) (Forward.tangents l.body.result))
      (Forward.top rules l (bundledTypes l.ret) (Forward.bundleOperands l.body.result))
      ⟨.ofSupply (s.reserve l), .empty⟩ (Forward.KeepsPrimals l.body.result) :=
    Forward.twin_top accepted values below (Nat.le_refl _) _ _
  obtain ⟨state, came⟩ := twin
  refine ⟨congrArg (·.builder.supply) state, came.imp_right ?_⟩
  rintro ⟨plain, bundled, ok, ok', params, stms, results⟩
  exact ⟨plain, bundled, ok, ok', params, stms, results⟩

/-- An accumulator and the array that its region returns share a name, and the test that is returned
    beside it gets its zero tangent at the end only. -/
def sharedName : Lambda :=
  let row : Ty := .array (.int .i64) [.const (.int .i64 2)] false
  let handle : Ty := .acc ⟨3⟩ [.const (.int .i64 2)] [.scalar (.int .i64)] false
  ⟨[⟨⟨0⟩, .scalar (.int .i64)⟩, ⟨⟨1⟩, row⟩],
    ⟨[⟨[⟨⟨2⟩, .scalar .bool⟩], .none,
        .basic (.compare (.int .slt .i64) (.var ⟨0⟩) (.const (.int .i64 0)))⟩,
      ⟨[⟨⟨3⟩, row⟩], .none, .withAcc [⟨[.const (.int .i64 2)], [⟨1⟩], none⟩]
        ⟨[⟨⟨3⟩, handle⟩], ⟨[], [.var ⟨3⟩]⟩, [handle]⟩⟩],
      [.var ⟨2⟩, .var ⟨3⟩]⟩, [.scalar .bool, row]⟩

theorem forward_twin_sharedName : (sharedName.validate = .ok () ∧ sharedName.ReturnsValues) ∧
    (sharedName.forward .standard ⟨0⟩).2 = (sharedName.forwardBundled .standard ⟨0⟩).2 ∧
      ((∃ e, (sharedName.forward .standard ⟨0⟩).1 = .error e ∧
          (sharedName.forwardBundled .standard ⟨0⟩).1 = .error e) ∨
        ∃ plain bundled, (sharedName.forward .standard ⟨0⟩).1 = .ok plain ∧
          (sharedName.forwardBundled .standard ⟨0⟩).1 = .ok bundled ∧
          plain.params = bundled.params ∧ plain.body.stms = bundled.body.stms ∧
          ∀ i, bundled.body.result[2 * i]? = sharedName.body.result[i]? ∧
            bundled.body.result[2 * i + 1]? = plain.body.result[i]?) :=
  ⟨⟨by decide, by decide⟩,
    sharedName.forward_twin (by decide) (by decide) .standard ⟨0⟩⟩

end Cotangent
