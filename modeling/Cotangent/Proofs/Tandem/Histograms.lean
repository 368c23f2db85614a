import Cotangent.Proofs.Regions.Updates
import Cotangent.Proofs.Tandem.Combinators
/-!
Histograms. The destinations of each stand next to their tangents, and so do the values that a bucket
returns, while its positions have none. A position is inside a destination and inside its tangent, or
outside both, so both are written or both are skipped.
-/
namespace Cotangent

open Run ScalarAlgebra Diff Outline

namespace Tandem

/-- The emitted histogram is that of the source, with the tangents of its destinations and an operator that
    shadows its own. -/
structure Tallies {α : Type} [ScalarAlgebra α] (f : Dual → α) (bound : Nat) (decl : Name → Ty)
    (scope still bs : List Name) (m : Nat) (t : DiffState) (h h' : Histogram) : Prop where
  shape : h'.shape = h.shape
  applies : Applies f bound decl scope still bs m t 0 doubled h.combiner.op h'.combiner.op
  known : ∀ x ∈ h.dests, x ∈ scope
  dests : ∃ cs, h'.dests = interleave h.dests cs ∧
    List.Forall₂ (fun x c => t.companions.find? x = some c) h.dests cs

/-- The action transforms the histograms. -/
def Counts {α : Type} [ScalarAlgebra α] (f : Dual → α) (bound : Nat) (decl : Name → Ty)
    (act : Diff (List Histogram)) (hs : List Histogram) : Prop :=
  ∀ scope still names s hs' t, Serves bound decl scope still s → Awaits bound scope s (histogramOutline hs) →
    (∀ x ∈ (histogramOutline hs).uses, x ∈ scope → x ∈ names) → Gives act s hs' t →
      Asks f bound decl scope still (histogramOutline hs).binders names s t (fun _ _ => True) ∧
        List.Forall₂ (Tallies f bound decl scope still (histogramOutline hs).binders s.builder.supply.next t) hs hs'

section

variable {α : Type} [ScalarAlgebra α] {f : Dual → α} {bound m m' n : Nat} {decl : Name → Ty}
  {scope still bs bs' names : List Name} {s t u : DiffState} {σ₀ σ σ' : Store Scalar} {τ₀ τ τ' : Store α}
  {stop : Fault α} {fuel : Nat} {h h' : Histogram} {hs hs' : List Histogram}

/-! Transforming histograms. -/

theorem Tallies.mono (tallies : Tallies f bound decl scope still bs m t h h') (le : m' ≤ m)
    (sub : ∀ x ∈ bs, x ∈ bs') (onward : Onward scope t u) : Tallies f bound decl scope still bs' m' u h h' where
  shape := tallies.shape
  applies := tallies.applies.mono le sub onward
  known := tallies.known
  dests := by
    obtain ⟨cs, same, found⟩ := tallies.dests
    exact ⟨cs, same, forall₂_imp_mem found fun x mem => onward.later.kept x (tallies.known x mem)⟩

theorem counts_nil : Counts f bound decl (pure []) [] := by
  intro scope still names s hs' t serves _ _ gives
  obtain ⟨rfl, rfl⟩ := (gives_pure ..).mp gives
  exact ⟨.refl serves fun _ _ _ _ _ _ => trivial, .nil⟩

theorem counts_cons (view : View f) {shape : List Operand} {race : Operand} {dests : List Name} {op : Lambda}
    {neutral : List Operand} {opAct : Diff Lambda} {more : Diff (List Histogram)}
    (onOp : Transforms f bound decl opAct 0 doubled op) (rest : Counts f bound decl more hs) :
    Counts f bound decl (do
      let dests ← Forward.bundleNames dests
      let neutral ← Forward.bundleNeutral neutral
      let op ← opAct
      return ⟨shape, race, dests, ⟨op, neutral⟩⟩ :: (← more)) (⟨shape, race, dests, ⟨op, neutral⟩⟩ :: hs) := by
  intro scope still names s hs' t serves awaits read gives
  simp only [gives_bind, gives_pure] at gives
  obtain ⟨dests', u₁, asked, neutral', u₂, zeros, op', u₃, made, rest', u₄, others, rfl, rfl⟩ := gives
  simp only [histogramOutline, Combiner.outline] at awaits read
  have knownDests := (Awaits.first (Awaits.first awaits)).reads
  have second := Awaits.second (Awaits.first awaits)
  rw [after_readsAll] at second
  have knownNeutral := (Awaits.first second).reads
  have inside := Awaits.second second
  rw [after_readsAll] at inside
  obtain ⟨asks₁, cs, rfl, found⟩ := bundleNames_asks (f := f) [] serves
    (fun x mem => knownDests x (by simp [mem]))
    (fun x mem => read x (by simp [mem]) (knownDests x (by simp [mem]))) asked
  obtain ⟨inits, rfl, asks₂⟩ := bundleNeutral_asks (f := f) [] view asks₁.serves knownNeutral
    (fun x mem => read x (by simp [mem]) (knownNeutral x mem)) zeros
  have asks := asks₁.bind asks₂
  obtain ⟨new, passes, -⟩ := asks.emits
  obtain ⟨asks₃, onOp⟩ := onOp scope still names u₂ op' u₃ asks.serves
    (inside.block.1.passes passes fun x mem => ⟨inside.block.1.fresh x mem, by simp⟩) made
  have here : Asks f bound decl scope still op.outline.binders names s u₃ _ := (asks.widen (by simp)).bind asks₃
  obtain ⟨asks₄, tallies⟩ := rest scope still names u₃ rest' _ here.serves
    (awaits.carry (by simp) here (by simp +contextual)) (fun x mem => read x (by simp [mem])) others
  have binders : (histogramOutline (⟨shape, race, dests, ⟨op, neutral⟩⟩ :: hs)).binders =
      op.outline.binders ++ (histogramOutline hs).binders := by simp [histogramOutline, Combiner.outline]
  have inOp : ∀ x ∈ op.outline.binders, x ∈ op.outline.binders ++ (histogramOutline hs).binders :=
    fun _ => List.mem_append_left _
  have inRest : ∀ x ∈ (histogramOutline hs).binders, x ∈ op.outline.binders ++ (histogramOutline hs).binders :=
    fun _ => List.mem_append_right _
  rw [binders]
  refine ⟨((here.widen inOp).bind (asks₄.widen inRest)).mono fun _ _ _ => trivial, .cons ?_ ?_⟩
  · have first : Tallies f bound decl scope still op.outline.binders u₂.builder.supply.next u₃
        ⟨shape, race, dests, ⟨op, neutral⟩⟩ ⟨shape, race, interleave dests cs, ⟨op', interleave neutral inits⟩⟩ := {
      shape := rfl
      applies := onOp
      known := fun x mem => knownDests x (by simp [mem])
      dests := ⟨cs, rfl, forall₂_imp_mem found fun x mem c =>
        (asks₂.onward.trans asks₃.onward).later.kept x (knownDests x (by simp [mem])) c⟩ }
    exact first.mono asks.next_le inOp asks₄.onward
  · exact tallies.imp fun _ _ tallies => tallies.mono here.next_le inRest (.refl ..)

/-! Rows. -/

theorem fixedDims_seen (view : View f) {is : List (Value Dual)} {dims : List Dim}
    (fixed : fixedDims (primals is) = .ok dims) : fixedDims (is.map (Value.map f)) = .ok dims := by
  unfold fixedDims at fixed ⊢
  induction is generalizing dims with
  | nil => exact congrArg Except.ok (Except.ok.inj fixed)
  | cons i is ih =>
    simp only [primals, List.map_cons, List.mapM_cons, except_bind_ok, except_pure_ok] at fixed ⊢
    obtain ⟨_, ⟨a, isScalar, k, isInt, rfl⟩, rest, others, rfl⟩ := fixed
    obtain ⟨d, rfl, rfl⟩ := Value.map_eq_scalar ((asScalar_eq_ok ..).mp isScalar)
    exact ⟨_, ⟨f d, rfl, k, view.asInt isInt, rfl⟩, rest, ih others, rfl⟩

omit [ScalarAlgebra α] in
/-- Destinations and their tangents are read at the same positions. -/
theorem inBounds_doubled {ds : List (Value Dual)} {dims : List Dim} {r : Option (List Value)}
    (known : inBounds ((doubled ds).mapM (Value.index dims)) = .ok r) :
    ∃ olds : Option (List (Value Dual)), r = olds.map doubled ∧
      inBounds ((ds.map (Value.map f)).mapM (Value.index dims)) = .ok (olds.map (List.map (Value.map f))) := by
  rw [mapM_doubled fun g d => Value.index_map g dims d, inBounds_carry] at known
  obtain ⟨olds, here, rfl⟩ := (carry_eq_ok ..).mp known
  exact ⟨olds, rfl, inBounds_seen here⟩

omit [ScalarAlgebra α] in
/-- Both are written with values and their tangents. -/
theorem updates_doubled {ds news : List (Value Dual)} {dims : List Dim} {us : List Value}
    (known : List.Forall₂ (fun p v => Value.update dims p.1 p.2 = .ok v) ((doubled ds).zip (doubled news)) us) :
    ∃ outs : List (Value Dual), us = doubled outs ∧
      List.Forall₂ (fun p v => Value.update dims p.1 p.2 = .ok v)
        ((ds.map (Value.map f)).zip (news.map (Value.map f))) (outs.map (Value.map f)) := by
  have pairs : (doubled ds).zip (doubled news) = (ds.zip news).flatMap fun p =>
      [(p.1.map Dual.primal, p.2.map Dual.primal), (p.1.map Dual.tangent, p.2.map Dual.tangent)] := by
    clear known
    induction ds generalizing news with
    | nil => rfl
    | cons d ds ih =>
      cases news with
      | nil => simp [doubled]
      | cons new news => simp [ih]
  rw [pairs, ← except_mapM_iff, mapM_pairs (h := fun p => Value.update dims p.1 p.2)
    (fun p => Value.update_map Dual.primal dims p.1 p.2) fun p => Value.update_map Dual.tangent dims p.1 p.2] at known
  obtain ⟨outs, here, rfl⟩ := (carry_eq_ok ..).mp known
  exact ⟨outs, rfl, updates_seen (except_mapM_iff.mp here)⟩

/-- Each histogram takes its part of the positions and of the values. -/
theorem histRow_shadows (view : View f)
    (tallies : List.Forall₂ (Tallies f bound decl scope still bs m t) hs hs') (dss : List (List (Value Dual)))
    (is es : List (Value Dual))
    (steady : Steady f bound scope still bs t.companions m t.builder.supply.next σ₀ τ₀ σ τ) :
    Shadows stop (histRow (runBody fuel) hs' (dss.map doubled) (primals is) (doubled es)) σ
      (histRow (guardedBody (keepTypes decl stop) fuel) hs (dss.map (List.map (Value.map f)))
        (is.map (Value.map f)) (es.map (Value.map f))) τ
      (Holds f bound scope still bs t.companions m t.builder.supply.next (List.map doubled)
        (List.map (List.map (Value.map f))) σ₀ τ₀) := by
  induction tallies generalizing dss is es σ τ with
  | nil =>
    simp only [histRow]
    exact shadows_pure ⟨dss, rfl, rfl, steady⟩
  | @cons h h' hs hs' here rest ih =>
    cases dss with
    | nil => exact shadows_pure ⟨[], rfl, rfl, steady⟩
    | cons ds dss =>
      simp only [List.map_cons, histRow, here.shape, length_doubled, doubled_take, doubled_drop, List.length_map,
        primals, ← List.map_take, ← List.map_drop]
      refine .lift (· = ·) (fun dims fixed => ⟨dims, fixedDims_seen view fixed, rfl⟩) fun dims _ same => ?_
      subst same
      have others (news : List (Value Dual)) {σ : Store Scalar} {τ : Store α}
          (steady : Steady f bound scope still bs t.companions m t.builder.supply.next σ₀ τ₀ σ τ) :=
        group_shadows news (ih dss (is.drop h.shape.length) (es.drop ds.length) steady)
      refine .lift (fun r r' => ∃ olds : Option (List (Value Dual)), r = olds.map doubled ∧
        r' = olds.map (List.map (Value.map f))) (fun r read => ?_) ?_
      · obtain ⟨olds, rfl, seen⟩ := inBounds_doubled read
        exact ⟨_, seen, olds, rfl, rfl⟩
      rintro _ _ ⟨olds, rfl, rfl⟩
      cases olds with
      | none => exact others ds steady
      | some olds =>
        refine (combine_shadows here.applies olds _ steady).bind ?_
        rintro _ σ₁ _ τ₁ ⟨news, rfl, rfl, steady₁⟩
        refine .reads (fun us ws => ∃ outs : List (Value Dual), us = doubled outs ∧ ws = outs.map (Value.map f))
          (fun us σ' ends => ?_) ?_
        · obtain ⟨each, rfl⟩ := (ends_reads fun _ _ _ _ => ends_lift ..).mp ends
          obtain ⟨outs, rfl, seen⟩ := updates_doubled each
          exact ⟨rfl, _, (ends_reads fun _ _ _ _ => ends_lift ..).mpr ⟨seen, rfl⟩, outs, rfl, rfl⟩
        rintro _ _ ⟨outs, rfl, rfl⟩
        exact others outs steady₁

omit [ScalarAlgebra α] in
/-- Positions are taken off the values that follow them. -/
theorem splitValues_partly {es : List (Value Dual)} {k : Nat} {p : List Value × List Value}
    (split : splitValues (partly k es) k = .ok p) : p = (primals (es.take k), doubled (es.drop k)) ∧
      splitValues (es.map (Value.map f)) k = .ok ((es.take k).map (Value.map f), (es.drop k).map (Value.map f)) := by
  obtain ⟨enough, rfl⟩ := (splitValues_iff ..).mp split
  rw [length_partly] at enough
  have count : (primals (es.take k)).length = k := by
    rw [primals, List.length_map, List.length_take]
    omega
  refine ⟨?_, (splitValues_iff ..).mpr ⟨by rw [List.length_map]; omega, ?_⟩⟩
  · rw [partly, List.take_left' count, List.drop_left' count]
  · rw [List.map_take, List.map_drop]

theorem bucketIndices_eq (tallies : List.Forall₂ (Tallies f bound decl scope still bs m t) hs hs') :
    bucketIndices hs' = bucketIndices hs := by
  induction tallies with
  | nil => rfl
  | cons here rest ih =>
    simp only [bucketIndices, total, List.map_cons, List.foldr_cons] at ih ⊢
    rw [here.shape, ih]

/-- The destinations that are read at the beginning. -/
theorem dests_shadows (view : View f) (tallies : List.Forall₂ (Tallies f bound decl scope still bs m t) hs hs')
    (accord : Accord f scope still t.companions σ τ) {δ ε : Type} {g' : List (List Value) → Run Scalar δ}
    {g : List (List (Value α)) → Run α ε} {last : δ → Store Scalar → ε → Store α → Prop}
    (rest : ∀ dss : List (List (Value Dual)), Shadows stop (g' (dss.map doubled)) σ
      (g (dss.map (List.map (Value.map f)))) τ last) :
    Shadows stop ((hs'.mapM fun h => lookups h.dests) >>= g') σ ((hs.mapM fun h => lookups h.dests) >>= g) τ last := by
  have walk : ∀ {uss : List (List Value)} {σ' : Store Scalar}, Ends (hs'.mapM fun h => lookups h.dests) σ uss σ' →
      σ' = σ ∧ ∃ dss : List (List (Value Dual)), uss = dss.map doubled ∧
        Ends (hs.mapM fun h => lookups h.dests) τ (dss.map (List.map (Value.map f))) τ := by
    clear rest
    induction tallies with
    | nil =>
      intro uss σ' ends
      obtain ⟨rfl, rfl⟩ := (ends_pure ..).mp ends
      exact ⟨rfl, [], rfl, (ends_pure ..).mpr ⟨rfl, rfl⟩⟩
    | cons here _ ih =>
      intro uss σ' ends
      obtain ⟨cs, same, found⟩ := here.dests
      simp only [List.mapM_cons, ends_bind, ends_pure, same] at ends ⊢
      obtain ⟨us, _, first, uss, _, others, rfl, rfl⟩ := ends
      obtain ⟨rfl, ds, rfl, seen⟩ := accord.lookups view here.known found first
      obtain ⟨rfl, dss, rfl, seen'⟩ := ih others
      exact ⟨rfl, ds :: dss, rfl, _, τ, seen, _, τ, seen', rfl, rfl⟩
  refine .reads (fun uss wss => ∃ dss : List (List (Value Dual)), uss = dss.map doubled ∧
    wss = dss.map (List.map (Value.map f))) (fun uss σ' ends => ?_) ?_
  · obtain ⟨rfl, dss, rfl, seen⟩ := walk ends
    exact ⟨rfl, _, seen, dss, rfl, rfl⟩
  · rintro _ _ ⟨dss, rfl, rfl⟩
    exact rest dss

theorem histRound_shadows (view : View f) {bucket bucket' : Lambda}
    (tallies : List.Forall₂ (Tallies f bound decl scope still bs m t) hs hs') {k : Nat}
    (onBucket : Applies f bound decl scope still bs m t 0 (partly k) bucket bucket') (ds : List (Value Dual)) (i : Nat)
    {b : List (List Value)} {c : List (List (Value α))} (holds : Holds f bound scope still bs t.companions m
      t.builder.supply.next (List.map doubled) (List.map (List.map (Value.map f))) σ₀ τ₀ b σ c τ) :
    Shadows stop (histRound (runBody fuel) hs' bucket' ((doubled ds).map Value.table) k i b) σ
      (histRound (guardedBody (keepTypes decl stop) fuel) hs bucket ((ds.map (Value.map f)).map Value.table) k i c) τ
      (Holds f bound scope still bs t.companions m t.builder.supply.next (List.map doubled)
        (List.map (List.map (Value.map f))) σ₀ τ₀) := by
  obtain ⟨dss, rfl, rfl, steady⟩ := holds
  refine rowsAt_shadows ds i fun rs => (onBucket.call_all rs steady).bind ?_
  rintro _ σ₁ _ τ₁ ⟨es, rfl, rfl, steady₁⟩
  refine .lift (fun p q => p = (primals (es.take k), doubled (es.drop k)) ∧
    q = ((es.take k).map (Value.map f), (es.drop k).map (Value.map f))) (fun p split => ?_) ?_
  · obtain ⟨rfl, seen⟩ := splitValues_partly split
    exact ⟨_, seen, rfl, rfl⟩
  · rintro _ _ ⟨rfl, rfl⟩
    exact histRow_shadows view tallies dss (es.take k) (es.drop k) steady₁

theorem hist_shadows (view : View f) {width : Operand} {arrays cs : List Name} {bucket bucket' : Lambda}
    (known : ∀ x ∈ width.names ++ arrays, x ∈ scope)
    (found : List.Forall₂ (fun x c => t.companions.find? x = some c) arrays cs)
    (tallies : List.Forall₂ (Tallies f bound decl scope still bs m t) hs hs')
    (onBucket : Applies f bound decl scope still bs m t 0 (partly (bucketIndices hs)) bucket bucket')
    (steady : Steady f bound scope still bs t.companions m t.builder.supply.next σ₀ τ₀ σ τ) :
    Shadows stop (hist (runBody fuel) width hs' bucket' (interleave arrays cs)) σ
      (hist (guardedBody (keepTypes decl stop) fuel) width hs bucket arrays) τ
      (Comes f bound scope still bs t.companions m t.builder.supply.next doubled σ₀ τ₀) := by
  refine arrays_shadows view steady.accord known found fun k ds => ?_
  refine dests_shadows view tallies steady.accord fun dss => ?_
  rw [bucketIndices_eq tallies]
  refine (shadows_rounds (fun i _ _ _ _ => histRound_shadows view tallies onBucket ds i) k 0
    ⟨dss, rfl, rfl, steady⟩).bind ?_
  rintro _ σ' _ τ' ⟨dss, rfl, rfl, after⟩
  exact shadows_pure ⟨dss.flatten, (doubled_flatten dss).symm, List.map_flatten.symm, after⟩

/-! Results. -/

theorem Known.reads (view : View f) {xs : List Operand} (known : Known f σ τ (operandNames xs)) :
    ∃ ds : List (Value Dual), List.Forall₂ (Reads f σ τ) xs ds := by
  induction xs with
  | nil => exact ⟨[], .nil⟩
  | cons x xs ih =>
    obtain ⟨ds, rest⟩ := ih (known.mono fun y mem => List.mem_append_right _ mem)
    cases x with
    | const v => exact ⟨_, .cons (reads_const view σ τ v) rest⟩
    | var x =>
      obtain ⟨d, here⟩ := known x (by simp [operandNames, Operand.names])
      exact ⟨d :: ds, .cons here rest⟩

/-- What is read of operands that get no tangents. -/
theorem reads_parts {xs : List Operand} {ds : List (Value Dual)} (reads : List.Forall₂ (Reads f σ τ) xs ds) :
    List.Forall₂ (fun x u => σ.value x = some u) xs (primals ds) ∧
      List.Forall₂ (fun x (d : Value Dual) => τ.value x = some (d.map f)) xs ds :=
  ⟨List.forall₂_map_right_iff.mpr (reads.imp fun _ _ here => here.primal), reads.imp fun _ _ here => here.seen⟩

/-- Operands of which the first get no tangents. -/
theorem Accord.positions {tans : NameTable Name} (accord : Accord f scope still tans σ τ) (view : View f) (k : Nat)
    {xs dxs : List Operand} (known : ∀ y ∈ operandNames xs, y ∈ scope)
    (tangents : List.Forall₂ (Tangent tans) (xs.drop k) dxs) :
    ∃ es : List (Value Dual),
      List.Forall₂ (fun x u => σ.value x = some u) (xs.take k) (primals (es.take k)) ∧
        AllPairs f σ τ (xs.drop k) dxs (es.drop k) ∧
        List.Forall₂ (fun x (d : Value Dual) => τ.value x = some (d.map f)) xs es := by
  rw [← List.take_append_drop k xs, Forward.operandNames_append, List.forall_mem_append] at known
  obtain ⟨is, positions⟩ := (accord.known known.1).reads view
  obtain ⟨ds, pairs⟩ := accord.allPairs view known.2 tangents
  have count := positions.length_eq
  have count' := pairs.seen.length_eq
  rw [List.length_take] at count
  rw [List.length_drop] at count'
  have cut : (is ++ ds).take k = is ∧ (is ++ ds).drop k = ds := by
    by_cases le : k ≤ xs.length
    · exact ⟨List.take_left' (by omega), List.drop_left' (by omega)⟩
    · obtain rfl : ds = [] := List.length_eq_zero_iff.mp (by omega)
      rw [List.append_nil]
      exact ⟨List.take_of_length_le (by omega), List.drop_of_length_le (by omega)⟩
  refine ⟨is ++ ds, cut.1.symm ▸ (reads_parts positions).1, cut.2.symm ▸ pairs, ?_⟩
  rw [← List.take_append_drop k xs]
  exact List.rel_append (reads_parts positions).2 pairs.seen

theorem names_drop (k : Nat) (xs : List Operand) : ∀ y ∈ operandNames (xs.drop k), y ∈ operandNames xs := by
  intro y mem
  rw [← List.take_append_drop k xs, Forward.operandNames_append]
  exact List.mem_append_right _ mem

/-- The positions of a bucket get no tangents. -/
theorem answers_partly (view : View f) (k : Nat) (xs : List Operand) :
    Answers f bound decl xs (do return xs.take k ++ (← Forward.bundleOperands (xs.drop k))) (partly k) := by
  intro scope still s ys t serves known gives
  simp only [gives_bind, gives_pure] at gives
  obtain ⟨zs, _, asked, rfl, rfl⟩ := gives
  obtain ⟨asks, dxs, rfl, tangents⟩ :=
    bundleOperands_asks (f := f) [] serves (fun y mem => known y (names_drop k xs y mem)) (names_drop k xs) asked
  refine asks.strengthen fun σ τ accord _ us σ' ends => ?_
  obtain ⟨es, positions, pairs, seen⟩ := accord.positions view k known tangents
  obtain ⟨rfl, rfl, seen⟩ := shadows_operands (List.rel_append positions pairs.doubled) seen ends
  exact ⟨rfl, es, rfl, seen⟩

/-! Statements. -/

theorem hist_stands (view : View f) {pat : List Param} {aux : Annotations} {width : Operand} {arrays : List Name}
    {bucket : Lambda} {opsAct : Diff (List Histogram)} {bucketAct : Diff Lambda} (declared : Declared decl pat)
    (onOps : Counts f bound decl opsAct hs)
    (onBucket : Transforms f bound decl bucketAct 0 (partly (bucketIndices hs)) bucket) :
    Stands f bound decl (Forward.hist ⟨pat, aux, .hist width hs bucket arrays⟩ width opsAct bucketAct arrays)
      ⟨pat, aux, .hist width hs bucket arrays⟩ := by
  intro scope still s t serves awaits gives
  obtain ⟨inside, pattern, apart, -⟩ := awaits.stm
  simp only [Forward.hist, gives_bind] at gives
  obtain ⟨qs, u₁, bundled, hs', u₂, madeOps, bucket', u₃, madeBucket, arrays', u₄, asked, added⟩ := gives
  obtain ⟨rfl, rfl⟩ := (gives_of_outcome (Forward.gives_bundleBinders declared.plain s) ..).mp bundled
  obtain rfl := ((gives_build ..).mp added).2
  let e : Exp := .hist width hs bucket arrays
  let uses := Stm.uses ⟨pat, aux, e⟩
  have read (x : Name) (mem : x ∈ (e.outline pat.length).uses) (known : x ∈ scope) : x ∈ uses :=
    awaits.looked mem known
  have drawn : Asks f bound decl scope still _ uses s _ _ := withTangents_asks serves pattern.params.2.1
  have whole : Awaits bound scope (Forward.withTangents s pat) (e.outline pat.length) := inside.drawn drawn apart
  simp only [e, Exp.outline] at whole read
  have knownWidth := (Awaits.first (Awaits.first whole)).reads
  have opsAwaits := Awaits.second (Awaits.first whole)
  rw [after_readsAll] at opsAwaits
  have knownArrays : ∀ x ∈ arrays, x ∈ scope := by
    have last := (Awaits.second whole).block.2.reads
    simpa [Scope.after_histogramOutline] using last
  obtain ⟨asks₂, tallies⟩ := onOps scope still uses _ hs' u₂ drawn.serves opsAwaits
    (fun x mem => read x (by simp [mem])) madeOps
  obtain ⟨asks₃, onBucket⟩ := onBucket scope still uses u₂ bucket' u₃ asks₂.serves
    (whole.carry (by simp [Scope.after_histogramOutline]) asks₂ (by simp)).block.1 madeBucket
  obtain ⟨asks₄, cs, rfl, found⟩ := bundleNames_asks (f := f) bucket.outline.binders asks₃.serves knownArrays
    (fun x mem => read x (by simp [Outline.uses, mem]) (knownArrays x mem)) asked
  let inner := (histogramOutline hs).binders ++ bucket.outline.binders
  have binders : (e.outline pat.length).binders = inner := by simp [e, Exp.outline, inner]
  have inOps : ∀ x ∈ (histogramOutline hs).binders, x ∈ inner := by simp +contextual [inner]
  have inBucket : ∀ x ∈ bucket.outline.binders, x ∈ inner := by simp +contextual [inner]
  have asks : Asks f bound decl scope still inner uses _ u₄ fun _ _ => True :=
    ((asks₂.widen inOps).bind ((asks₃.bind asks₄).widen inBucket)).mono fun _ _ _ => trivial
  have le : s.builder.supply.next ≤ (Forward.withTangents s pat).builder.supply.next := Nat.le_add_right _ _
  refine ⟨still, emits_bundled view serves declared awaits binders (.refl serves fun _ _ _ _ _ _ => trivial) asks
    fun stop fuel σ₀ τ₀ σ τ steady _ => ?_⟩
  exact hist_shadows view (List.forall_mem_append.mpr ⟨knownWidth, knownArrays⟩) found
    (tallies.imp fun _ _ tallies => tallies.mono le inOps (asks₃.onward.trans asks₄.onward))
    (onBucket.mono (Nat.le_trans le asks₂.next_le) inBucket asks₄.onward) steady

end

end Tandem

end Cotangent
