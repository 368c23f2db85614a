import Mathlib.Data.ZMod.Basic
import Cotangent.Proofs.Derivative.AdjointSweep
import Cotangent.Proofs.Derivative.ForwardRuns
import Cotangent.Proofs.Derivative.ReverseProgram
/-!
Reverse differentiation is the transpose of forward differentiation. On integer code the seeds, paired
with the tangents of the results, come to the adjoints of the parameters, paired with their tangents.
-/
namespace Cotangent

open Outline Run

variable {w : IntWidth} {l out : Lambda} {s : Supply} {fuel : Nat} {vs : List Value}

/-- Scalars of as many types. -/
def Scalar.Typed (ts : List Ty) (vs : List Scalar) : Prop :=
  List.Forall₂ (fun t v => t = .scalar v.ty) ts vs

/-! Forward. -/

theorem small_params (l : Lambda) (s : Supply) : ∀ p ∈ l.params, p.name.id < (s.reserve l).next :=
  fun p mem => binder_lt s l (by
    simp [Reverse.lambda_binders, (mem_binders_paramOutline l.params _).mpr ⟨p, mem, rfl⟩])

theorem small_body (l : Lambda) (s : Supply) :
    Scope.Below (stmOutline l.body.stms).binders (s.reserve l).next := fun x mem =>
  binder_lt s l (by simp [Reverse.lambda_binders, body_outline, mem])

/-- A run of the forward pass comes to the tangents of what the lambda means. -/
theorem forward_means (valid : l.validate = .ok ()) (code : l.IntegerCode w)
    (made : (l.forward .standard s).1 = .ok out) {ds : List Dual}
    (fits : List.Forall₂ (Dual.Fits w) (l.params.map (·.ty)) ds)
    (ran : out.interp ((Forward.bundledParts ds).map .scalar) fuel = some (.ok vs)) :
    ∃ es, l.body.Means w (NameTable.empty.assign l.params ds) es ∧
      List.Forall₂ (Dual.Fits w) l.ret es ∧ vs = (es.map (·.tangent)).map .scalar := by
  obtain ⟨header, body, -⟩ := (accepted_lambda l []).mp ((validate_iff l).mp valid)
  rw [body_outline, accepted_append, accepted_readsAll] at body
  have scalar : ∀ p ∈ l.params, p.ty.IsScalar := fun p mem => (code.params p mem).isScalar
  have below := small_params l s
  have inside := small_body l s
  have startsPlain := plain_start l s
  obtain ⟨t, gives⟩ := (Diff.gives_start ..).mp made
  simp only [Forward.top, Diff.gives_bind, Diff.gives_build, Diff.gives_pure,
    Build.declareParams_apply] at gives
  obtain ⟨_, _, ⟨-, rfl⟩, _, _, drawn, b, v, emits, rfl, rfl⟩ := gives
  let start := Forward.declared (Forward.start l s) l.params
  have plain : start.builder.Plain := (startsPlain.declare scalar).plain
  obtain ⟨rfl, rfl⟩ := (Forward.gives_bundleBinders (fun p mem => (scalar p mem).isAcc) start).unique
    drawn
  obtain ⟨_, _, bundled, reaches, -⟩ := Forward.works_bundleBinders plain scalar
  obtain ⟨-, rfl⟩ := drawn.unique bundled
  have paired : Forward.Paired (s.reserve l).next [] start :=
    ⟨Nat.le_refl _, by simp [Scope.Below], by simp⟩
  have doubled : Forward.Doubled (s.reserve l).next ((paramOutline l.params).after [])
      (Forward.withTangents start l.params) := {
    paired.binders below with
    plain := reaches.plain
    typed := fun x known => by
      refine reaches.typed x (Builder.typed_of_declared (.inl ?_))
      simpa using (mem_after_paramOutline ..).mp known }
  have mirrors : Forward.Mirrors w .empty start Store.initial .empty [] := ⟨by simp [Tracks], by simp⟩
  obtain ⟨ps, ⟨ss, result⟩, ret⟩ := l
  obtain ⟨stms, has⟩ := code.body
  have follows := Forward.bodyOf_follows doubled (fun u swept =>
      Forward.stms_follow ss stms body.1 inside (doubled.build ⟨⟨doubled.plain.types, by simp⟩,
        fun _ known => known, Nat.le_refl _⟩) swept)
    body.2 code.ret has (Forward.shows_tangents body.2) emits
  obtain ⟨τ, ran⟩ := (interp_ok ..).mp ran
  simp only [applyLambda, ends_bind, ends_bindNames] at ran
  obtain ⟨_, _, ⟨-, rfl⟩, ran⟩ := ran
  obtain ⟨es, means, typed, rfl, -⟩ := follows.run fuel _ τ _ vs ran
    (mirrors.binders paired header below fits)
  exact ⟨es, means, typed, rfl⟩

/-! Reverse. -/

/-- Seeds count as the numbers that they stand for. -/
theorem debits_of_stands {σ : Store Scalar} {xs : List Name} {seeds : List Scalar} {ds : List Dual}
    (stands : List.Forall₂ (fun x v => σ.vars.find? x = some (.scalar v)) xs seeds) :
    Reverse.debits w σ xs ds =
      ((seeds.zip ds).map fun r => (r.1.number : ZMod w.modulus) * r.2.slope w).sum := by
  rw [Reverse.debits]
  induction stands generalizing ds with
  | nil => simp
  | cons here rest ih =>
    cases ds with
    | nil => simp
    | cons d ds => simp [ih, Store.amount_of_find here]

/-- Seeds of the types of the results have the kinds of their tangents. -/
theorem kinds_of_stands {σ : Store Scalar} {xs : List Name} {seeds : List Scalar} {ds : List Dual}
    {ts : List Ty} (stands : List.Forall₂ (fun x v => σ.vars.find? x = some (.scalar v)) xs seeds)
    (typed : Scalar.Typed ts seeds) (fits : List.Forall₂ (Dual.Fits w) ts ds) :
    ∀ r ∈ xs.zip ds, σ.HasKind r.1 r.2.tangent.ty := by
  induction stands generalizing ts ds with
  | nil => simp
  | @cons x v xs seeds here rest ih =>
    obtain ⟨t, ts, first, tail, rfl⟩ := List.forall₂_cons_right_iff.mp typed
    obtain ⟨d, ds, fit, fitRest, rfl⟩ := List.forall₂_cons_left_iff.mp fits
    rw [List.zip_cons_cons, List.forall_mem_cons]
    exact ⟨⟨v, here, by simpa using first.symm.trans fit.tangent⟩, ih tail fitRest⟩

/-- Adjoints of the kinds of the parameters are of their types. -/
theorem typed_of_kinds {δ : NameTable Dual} {xs : List Name} {ds : List Dual} {ts : List Ty}
    {gs : List Scalar} (stands : List.Forall₂ (fun x d => δ.find? x = some d) xs ds)
    (fits : List.Forall₂ (Dual.Fits w) ts ds) (kinds : List.Forall₂ (Reverse.OfKind δ) xs gs) :
    Scalar.Typed ts gs := by
  induction stands generalizing ts gs with
  | nil =>
    obtain rfl := List.forall₂_nil_left_iff.mp kinds
    obtain rfl := List.forall₂_nil_right_iff.mp fits
    exact .nil
  | cons here rest ih =>
    obtain ⟨t, ts, fit, fitRest, rfl⟩ := List.forall₂_cons_right_iff.mp fits
    obtain ⟨g, gs, kind, tail, rfl⟩ := List.forall₂_cons_left_iff.mp kinds
    exact .cons (fit.tangent.trans (by rw [kind _ here])) (ih fitRest tail)

/-- A run of the reverse pass comes to adjoints that balance the seeds. -/
theorem reverse_balances (valid : l.validate = .ok ()) (code : l.IntegerCode w)
    (made : (l.reverse .standard s).1 = .ok out) {ds es : List Dual}
    (fits : List.Forall₂ (Dual.Fits w) (l.params.map (·.ty)) ds)
    (means : l.body.Means w (NameTable.empty.assign l.params ds) es)
    (results : List.Forall₂ (Dual.Fits w) l.ret es) {seeds : List Scalar}
    (seeded : Scalar.Typed l.ret seeds)
    (ran : out.interp ((ds.map (·.primal) ++ seeds).map .scalar) fuel = some (.ok vs)) :
    ∃ gs : List Scalar, vs = gs.map .scalar ∧ Scalar.Typed (l.params.map (·.ty)) gs ∧
      Reverse.credits w (NameTable.empty.assign l.params ds) (l.params.map (·.name)) gs =
        ((seeds.zip es).map fun r => (r.1.number : ZMod w.modulus) * r.2.slope w).sum := by
  have elementary : l.Elementary := ⟨valid, code.scalarCode⟩
  have closed := elementary.closed
  obtain ⟨header, body, -⟩ := (closed_lambda l []).mp closed
  let drawn := paramsFrom (s.reserve l).next l.ret
  let opened := Reverse.opened l s
  let params := (paramOutline l.params).after []
  let scope := (paramOutline drawn).after params
  have under : Reverse.UnderSeeds l s scope :=
    ⟨fun x known => mem_after _ known, fun x known => (mem_after_paramOutline ..).mp known⟩
  have inParams : ∀ x, x ∈ params ↔ x ∈ l.params.map (·.name) := fun x => by
    simp [params, mem_after_paramOutline]
  have plain := elementary.plain_opened s
  have typed : Typed opened (l.params.map (·.name)) := by
    intro x known
    refine Builder.typed_of_declared (.inr (Builder.typed_of_declared (.inl ?_)))
    simpa using known
  have ready : opened.builder.Ready scope :=
    ⟨under.below, fun x _ t found y inType => by simp [(plain.types x t found).names] at inType⟩
  obtain ⟨t, gives⟩ := (Diff.gives_start ..).mp made
  obtain ⟨b, emits, rfl⟩ := (Reverse.gives_top ..).mp gives
  obtain ⟨τ, ran⟩ := (interp_ok ..).mp ran
  simp only [applyLambda, ends_bind, ends_bindNames] at ran
  obtain ⟨_, _, ⟨-, rfl⟩, ran⟩ := ran
  obtain ⟨ε, inside, returned⟩ := (Reverse.body_means _).mp means
  have wide := under.closed closed
  have narrow : l.body.outline.Closed (l.params.map (·.name)) :=
    body.mono (fun x known => (inParams x).mp known) fun x _ known => (inParams x).mpr known
  rw [body_outline, closed_append, closed_readsAll] at wide narrow
  have below : Scope.Below ((stmOutline l.body.stms).after scope) opened.builder.supply.next := by
    intro x known
    rcases (mem_after_stmOutline ..).mp known with known | ⟨p, mem, rfl⟩
    · exact under.below x known
    · exact Nat.lt_of_lt_of_le (small_body l s _ (Reverse.pattern_binder p mem)) (Nat.le_add_right _ _)
  have apart : ∀ p ∈ drawn, p.name ∉ params := fun p mem known => by
    obtain ⟨q, inList, same⟩ := List.mem_map.mp ((inParams _).mp known)
    have small := small_params l s q inList
    have large := (bounds_paramsFrom mem).1
    rw [same] at small
    omega
  have start : Tracks w (NameTable.empty.declare l.params)
      (Store.initial.bound (l.params.map (·.name)) (ds.map fun d => .scalar d.primal))
      (NameTable.empty.assign l.params ds) params := Tracks.bound (by simp [Tracks]) fits
  have length : (ds.map fun d => Value.scalar d.primal).length = (l.params.map (·.name)).length := by
    simpa using fits.length_eq.symm
  have split : (Store.initial.bound ((l.params ++ drawn).map (·.name))
        ((ds.map (·.primal) ++ seeds).map .scalar) : Store Scalar) =
      (Store.initial.bound (l.params.map (·.name)) (ds.map fun d => .scalar d.primal)).bound
        (drawn.map (·.name)) (seeds.map .scalar) := by
    simpa [Function.comp_def] using
      Store.bound_append Store.initial (drawn.map (·.name)) (seeds.map .scalar) length
  rw [split] at ran
  have tracks : Tracks w opened.builder.types
      ((Store.initial.bound (l.params.map (·.name)) (ds.map fun d => .scalar d.primal)).bound
        (drawn.map (·.name)) (seeds.map .scalar))
      (NameTable.empty.assign l.params ds) (l.params.map (·.name)) := by
    intro x known
    have known := (inParams x).mpr known
    obtain ⟨d, stands, primal, ty, declared, fits⟩ := start x known
    refine ⟨d, stands, ?_, ty, ?_, fits⟩
    · refine (NameTable.find_insertAll_of_not_mem _ _ _ fun r mem same => ?_).trans primal
      obtain ⟨p, inDrawn, here⟩ := List.mem_map.mp (List.of_mem_zip mem).1
      exact apart p inDrawn (here.trans same ▸ known)
    · exact (Builder.find_declared_of_not_mem _ fun p mem same => apart p mem (same ▸ known)).trans
        declared
  have stands := NameTable.find_insertAll_zip
    (Store.initial.bound (l.params.map (·.name)) (ds.map fun d => Value.scalar d.primal)).vars
    (seeds.map Value.scalar) (nodup_paramsFrom (s.reserve l).next l.ret)
    (by simpa [seeded.length_eq] using
      congrArg List.length (types_paramsFrom (s.reserve l).next l.ret).symm)
  rw [List.forall₂_map_right_iff] at stands
  obtain ⟨gs, rfl, kinds, balance⟩ := Reverse.sweepBody_transposes
    (Reverse.transposes_stm l.body.branchDepth)
    ((body_scalarCode _).mp code.scalarCode.body)
    (Nat.le_of_eq (Reverse.branchDepth_body _).symm) (nodup_of_accepted header.1)
    (fun x mem => mem_after _ ((inParams x).mpr mem)) wide.1 narrow.1 below narrow.2
    (fun x mem => (mem_after_paramOutline ..).mpr (.inr (List.mem_map.mp mem))) ready plain rfl typed
    inside returned emits tracks (kinds_of_stands stands seeded results) ran
  have assigned := NameTable.find_insertAll_zip NameTable.empty ds
    (nodup_of_accepted header.1) (by simpa using fits.length_eq.symm)
  exact ⟨gs, rfl, typed_of_kinds assigned fits kinds, balance.trans (debits_of_stands stands)⟩

/-! Both. -/

/-- The sum of the products of two rows of numbers, at the types that are integers. -/
def dot : List Ty → List Scalar → List Scalar → Int
  | .scalar (.int _) :: ts, x :: xs, y :: ys => x.number * y.number + dot ts xs ys
  | _ :: ts, _ :: xs, _ :: ys => dot ts xs ys
  | _, _, _ => 0

/-- Values with their tangents. -/
theorem fits_zipWith {ts : List Ty} {xs dxs : List Scalar} (within : ∀ t ∈ ts, t.Within w)
    (primal : Scalar.Typed ts xs) (tangent : Scalar.Typed ts dxs) :
    List.Forall₂ (Dual.Fits w) ts (List.zipWith Dual.mk xs dxs) := by
  induction primal generalizing dxs with
  | nil => exact .nil
  | cons here rest ih =>
    obtain ⟨dx, dxs, first, tail, rfl⟩ := List.forall₂_cons_left_iff.mp tangent
    obtain ⟨inFirst, inRest⟩ := List.forall_mem_cons.mp within
    exact .cons ⟨inFirst, here, first⟩ (ih inRest tail)

theorem primals_zipWith {xs dxs : List Scalar} (length : dxs.length = xs.length) :
    (List.zipWith Dual.mk xs dxs).map (·.primal) = xs ∧
      (List.zipWith Dual.mk xs dxs).map (·.tangent) = dxs := by
  induction xs generalizing dxs with
  | nil =>
    obtain rfl := List.length_eq_zero_iff.mp length
    exact ⟨rfl, rfl⟩
  | cons x xs ih =>
    obtain ⟨dx, dxs, rfl⟩ := List.exists_cons_of_length_eq_add_one length
    obtain ⟨primal, tangent⟩ := ih (by simpa using length)
    simp [primal, tangent]

/-- What is paired with slopes is a sum over the integers only, since bools have no slope. -/
theorem cast_dot {ts : List Ty} {ds : List Dual} (fits : List.Forall₂ (Dual.Fits w) ts ds)
    (vs : List Scalar) : ((dot ts vs (ds.map (·.tangent)) : Int) : ZMod w.modulus) =
      ((vs.zip ds).map fun r => (r.1.number : ZMod w.modulus) * r.2.slope w).sum := by
  induction fits generalizing vs with
  | nil => cases vs <;> simp [dot]
  | @cons t d ts ds here rest ih =>
    cases vs with
    | nil => simp [dot]
    | cons v vs =>
      rcases here.within with rfl | rfl
      · simp [dot, ih, Dual.slope]
      · simp [dot, ih, here.slope_of_bool]

/-- What adjoints are paired with are the tangents of the parameters. -/
theorem credits_params {ps : List Param} {ds : List Dual} {δ : NameTable Dual}
    (distinct : (ps.map (·.name)).Nodup) (length : ds.length = ps.length) (gs : List Scalar) :
    Reverse.credits w (δ.assign ps ds) (ps.map (·.name)) gs =
      ((gs.zip ds).map fun r => (r.1.number : ZMod w.modulus) * r.2.slope w).sum := by
  have stands := NameTable.find_insertAll_zip δ ds distinct (by simpa using length)
  have slopes : List.Forall₂ (fun x d => (Operand.var x).slope w (δ.assign ps ds) = d.slope w)
      (ps.map (·.name)) ds := stands.imp fun x d found => Operand.slope_of_dual found
  rw [Reverse.credits]
  generalize δ.assign ps ds = ε at slopes
  generalize ps.map (·.name) = xs at slopes
  clear stands distinct length
  induction slopes generalizing gs with
  | nil => simp
  | cons here rest ih =>
    cases gs with
    | nil => simp
    | cons g gs => simp [ih, here]

/-- Reverse differentiation is the transpose of forward differentiation. -/
theorem reverse_transposes_forward (l : Lambda) (w : IntWidth) (valid : l.validate = .ok ())
    (code : l.IntegerCode w) (s s' : Supply) :
    ∃ forward reverse, (l.forward .standard s).1 = .ok forward ∧
      (l.reverse .standard s').1 = .ok reverse ∧
      ∀ args tangents seeds : List Scalar, Scalar.Typed (l.params.map (·.ty)) args →
        Scalar.Typed (l.params.map (·.ty)) tangents → Scalar.Typed l.ret seeds →
        ∀ fuel fuel' us vs,
          forward.interp ((interleave args tangents).map .scalar) fuel = some (.ok us) →
          reverse.interp ((args ++ seeds).map .scalar) fuel' = some (.ok vs) →
          ∃ results adjoints : List Scalar, us = results.map .scalar ∧ vs = adjoints.map .scalar ∧
            Scalar.Typed l.ret results ∧ Scalar.Typed (l.params.map (·.ty)) adjoints ∧
            dot l.ret seeds results ≡ dot (l.params.map (·.ty)) adjoints tangents
              [ZMOD (2 ^ w.bits : Nat)] := by
  have elementary : l.Elementary := ⟨valid, code.scalarCode⟩
  obtain ⟨forward, isForward, -⟩ := elementary.forward s
  obtain ⟨reverse, isReverse, -⟩ := elementary.reverse s'
  refine ⟨forward, reverse, isForward, isReverse, ?_⟩
  intro args tangents seeds typedArgs typedTangents typedSeeds fuel fuel' us vs ran ran'
  have within : ∀ t ∈ l.params.map (·.ty), t.Within w := by simpa using code.params
  have fits := fits_zipWith within typedArgs typedTangents
  obtain ⟨primals, tangentsOf⟩ := primals_zipWith
    (typedTangents.length_eq.symm.trans typedArgs.length_eq)
  obtain ⟨es, means, typed, rfl⟩ := forward_means valid code isForward fits (by
    rwa [Forward.bundledParts, primals, tangentsOf])
  obtain ⟨gs, rfl, typedAdjoints, balance⟩ := reverse_balances valid code isReverse fits means typed
    typedSeeds (by rwa [primals])
  refine ⟨es.map (·.tangent), gs, rfl, rfl, ?_, typedAdjoints, ?_⟩
  · exact List.forall₂_map_right_iff.mpr (typed.imp fun _ _ here => here.tangent)
  · have header := ((accepted_lambda l []).mp ((validate_iff l).mp valid)).1
    rw [credits_params (nodup_of_accepted header) (by simpa using fits.length_eq.symm),
      ← cast_dot fits, ← cast_dot typed, tangentsOf] at balance
    exact (ZMod.intCast_eq_intCast_iff _ _ _).mp balance.symm

/-- What is made of a lambda runs to the end on the arguments. -/
def runsOn (args : List Value) (fuel : Nat) : Except DiffError Lambda → Bool
  | .ok out => match out.interp args fuel with
    | some (.ok _) => true
    | _ => false
  | .error _ => false

theorem interp_of_runsOn {made : Except DiffError Lambda} (args : List Value) (fuel : Nat)
    (runs : runsOn args fuel made = true) (isMade : made = .ok out) :
    ∃ vs, out.interp args fuel = some (.ok vs) := by
  rw [isMade, runsOn] at runs
  split at runs
  · exact ⟨_, ‹_›⟩
  · exact absurd runs (by simp)

theorem transposed_squareOrDouble :
    Reverse.squareOrDouble.validate = .ok () ∧ Reverse.squareOrDouble.IntegerCode .i64 ∧
      ∃ forward reverse us vs,
        (Reverse.squareOrDouble.forward .standard ⟨0⟩).1 = .ok forward ∧
        (Reverse.squareOrDouble.reverse .standard ⟨0⟩).1 = .ok reverse ∧
        forward.interp ((interleave [Scalar.bool true, .int .i64 3]
          [Scalar.bool false, .int .i64 5]).map .scalar) 5 = some (.ok us) ∧
        reverse.interp (([Scalar.bool true, .int .i64 3] ++ [Scalar.int .i64 7]).map .scalar) 5 =
          some (.ok vs) ∧
        ∃ results adjoints : List Scalar, us = results.map .scalar ∧ vs = adjoints.map .scalar ∧
          dot [.scalar (.int .i64)] [.int .i64 7] results ≡
            dot [.scalar .bool, .scalar (.int .i64)] adjoints [.bool false, .int .i64 5]
              [ZMOD (2 ^ 64 : Nat)] := by
  have valid : Reverse.squareOrDouble.validate = .ok () := by decide
  have code : Reverse.squareOrDouble.IntegerCode .i64 := by
    constructor
    · simp [Reverse.squareOrDouble, Ty.Within]
    · simp [Reverse.squareOrDouble, Ty.Within]
    · simp [Reverse.squareOrDouble, Ty.Within, Body.Returns, StmsIntegerCode, Stm.IntegerCode,
        Exp.Returns, BasicOp.Returns, Operand.HasType, NameTable.declare, NameTable.insertAll,
        NameTable.find_insert, BinaryOp.ty]
  obtain ⟨forward, reverse, isForward, isReverse, transposes⟩ :=
    reverse_transposes_forward Reverse.squareOrDouble .i64 valid code ⟨0⟩ ⟨0⟩
  obtain ⟨us, ran⟩ := interp_of_runsOn ((interleave [Scalar.bool true, .int .i64 3]
    [Scalar.bool false, .int .i64 5]).map .scalar) 5 (by decide +kernel) isForward
  obtain ⟨vs, ran'⟩ := interp_of_runsOn (([Scalar.bool true, .int .i64 3] ++
    [Scalar.int .i64 7]).map .scalar) 5 (by decide +kernel) isReverse
  obtain ⟨results, adjoints, isResults, isAdjoints, -, -, same⟩ := transposes _ _ _
    (.cons rfl (.cons rfl .nil)) (.cons rfl (.cons rfl .nil)) (.cons rfl .nil) 5 5 us vs ran ran'
  exact ⟨valid, code, forward, reverse, us, vs, isForward, isReverse, ran, ran', results, adjoints,
    isResults, isAdjoints, same⟩

end Cotangent
