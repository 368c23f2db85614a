import Cotangent.Proofs.Regions.Updates
/-!
Regions, statements and bodies of the emitted code beside those of the source, and from these, by
induction on the fuel, whole runs.
-/
namespace Cotangent

open Run ScalarAlgebra

variable {α : Type} [ScalarAlgebra α] {f : Dual → α} {place : Value α → Value α} {ρ : Roles}
  {σ σ' : Store Scalar} {τ τ' : Store α} {fuel : Nat}

/-! Regions. -/

theorem Roles.Tangents.length {ts : List ScalarType} {xs dxs : List Operand}
    (paired : ρ.Tangents ts xs dxs) : xs.length = ts.length := by
  induction paired with
  | nil => rfl
  | cons here rest ih => simp [ih]

omit [ScalarAlgebra α] in
/-- More accumulators, and the same values of names. -/
theorem Accord.grow (accord : Accord ρ f σ τ) (same : σ'.vars = σ.vars) (same' : τ'.vars = τ.vars)
    (more : σ.combiners <+: σ'.combiners) (more' : τ.combiners <+: τ'.combiners)
    (counts : σ'.combiners.length = τ'.combiners.length) : Persists ρ f σ τ σ' τ' where
  accord := {
    held := fun x k holds v found => by
      rw [same] at found
      obtain ⟨us, w, mirrors, shown, here⟩ := accord.held x k holds v found
      refine ⟨us, w, mirrors.mono fun _ _ served => served.grows more more', ?_, ?_⟩
      · rw [same]
        exact shown
      · rw [same']
        exact here
    still := fun x t role v found => by
      rw [same] at found
      rw [same']
      exact accord.still x t role v found
    zero := fun z t role v found => accord.zero z t role v (same ▸ found)
    counts }
  more
  more'

/-- The arrays of an input are those of its echo and their tangents. -/
theorem Accord.openAcc (accord : Accord ρ f σ τ) (coherent : ρ.Coherent) (seen : Dual.Seen f place)
    {ts : List ScalarType} (shape : List Operand) {shape' : List Operand} {arrays tans : List Name}
    {combine combine' : Option Combiner} (paired : ρ.Tangents ts (arrays.map .var) (tans.map .var))
    (combined : CombineEchoes ρ ts (combine.map (·.op)) (combine'.map (·.op))) {u : Value}
    (ends : Ends (Run.openAcc ⟨shape', arrays ++ tans, combine'⟩) σ u σ') :
    ∃ w τ', Ends (Run.openAcc ⟨shape, arrays, combine⟩) τ w τ' ∧ Persists ρ f σ τ σ' τ' ∧
      Mirrors f (Serves ρ σ' τ') (.handle ts) [u] w := by
  have reads {β : Type} {xs : List Name} {vs : List (Value β)} {σ υ : Store β} :
      Ends (Run.lookups xs) σ vs υ ↔ List.Forall₂ (fun x v => σ.vars.find? x = some v) xs vs ∧ σ = υ :=
    ends_reads fun _ _ _ _ => ends_lookup ..
  simp only [Run.openAcc, ends_bind, exists_unit, reads, ends_get, ends_modify, ends_pure] at ends ⊢
  obtain ⟨us, _, ⟨found, rfl⟩, _, _, ⟨rfl, rfl⟩, _, rfl, rfl, rfl⟩ := ends
  have found' : List.Forall₂ (fun x v => σ.value x = some v) (arrays.map .var ++ tans.map .var) us := by
    rw [← List.map_append, List.forall₂_map_left_iff]
    exact found
  obtain ⟨ds, fits, rfl, here⟩ := accord.tangents coherent seen paired found'
  rw [List.forall₂_map_left_iff] at here
  have persists : Persists ρ f σ τ ⟨σ.vars, σ.combiners ++ [combine'.map (·.op)]⟩
      ⟨τ.vars, τ.combiners ++ [combine.map (·.op)]⟩ :=
    accord.grow rfl rfl (List.prefix_append ..) (List.prefix_append ..) (by simp [accord.counts])
  refine ⟨_, _, ⟨_, τ, ⟨here, rfl⟩, τ, τ, ⟨rfl, rfl⟩, _, rfl, rfl, rfl⟩, persists, ?_⟩
  rw [← accord.counts]
  refine .handle fits ⟨_, _, ?_, ?_, combined⟩
  · simp [accord.counts]
  · simp

theorem Accord.openAccs (accord : Accord ρ f σ τ) (coherent : ρ.Coherent) (seen : Dual.Seen f place)
    {tss : List (List ScalarType)} {inputs inputs' : List AccInput}
    (opened : AccInputsEcho ρ tss inputs inputs') {us : List Value}
    (ends : Ends (inputs'.mapM Run.openAcc) σ us σ') :
    ∃ ws τ', Ends (inputs.mapM Run.openAcc) τ ws τ' ∧ Persists ρ f σ τ σ' τ' ∧
      Bundled f (Serves ρ σ' τ') (tss.map .handle) us ws := by
  induction inputs generalizing σ τ tss inputs' us with
  | nil =>
    cases opened
    obtain ⟨rfl, rfl⟩ := (ends_pure ..).mp ends
    exact ⟨[], τ, (ends_pure ..).mpr ⟨rfl, rfl⟩, .refl accord, .nil⟩
  | cons input inputs ih =>
    cases opened with
    | @cons ts tss shape shape' arrays tans combine combine' _ inputs' paired combined rest =>
      simp only [List.mapM_cons, ends_bind, ends_pure] at ends ⊢
      obtain ⟨u, υ, first, us, _, others, rfl, rfl⟩ := ends
      obtain ⟨w, τ₁, ran, once, mirrors⟩ :=
        accord.openAcc coherent seen shape paired combined first
      obtain ⟨ws, τ₂, ran', rest', bundled⟩ := ih once.accord rest others
      refine ⟨w :: ws, τ₂, ⟨w, τ₁, ran, ws, τ₂, ran', rfl, rfl⟩, once.trans rest', ?_⟩
      exact Bundled.cons (mirrors.mono fun _ _ => rest'.serves) bundled

omit [ScalarAlgebra α] in
theorem Bundled.split {serves : Nat → List ScalarType → Prop} {ks ks' : List Kind} {us : List Value}
    {ws : List (Value α)} (bundled : Bundled f serves (ks ++ ks') us ws) :
    ∃ us₁ us₂ ws₁ ws₂, us = us₁ ++ us₂ ∧ ws = ws₁ ++ ws₂ ∧ Bundled f serves ks us₁ ws₁ ∧
      Bundled f serves ks' us₂ ws₂ := by
  induction ks generalizing us ws with
  | nil => exact ⟨[], us, [], ws, rfl, rfl, .nil, bundled⟩
  | cons k ks ih =>
    cases bundled with
    | @cons _ _ us vs w ws here rest =>
      obtain ⟨us₁, us₂, ws₁, ws₂, rfl, rfl, first, second⟩ := ih rest
      exact ⟨us ++ us₁, us₂, w :: ws₁, ws₂, (List.append_assoc ..).symm, rfl, .cons here first, second⟩

omit [ScalarAlgebra α] in
/-- Accumulators are closed into the halves of their arrays. -/
theorem Bundled.close {serves : Nat → List ScalarType → Prop} {tss : List (List ScalarType)}
    {us : List Value} {ws : List (Value α)} (bundled : Bundled f serves (tss.map .handle) us ws) :
    us.length = tss.length ∧ ∃ dss, List.Forall₂ FitAll tss dss ∧
      List.Forall₂ (fun u vs => closeAcc u = .ok vs) us (dss.map fun ds => primals ds ++ changes ds) ∧
      List.Forall₂ (fun w vs => closeAcc w = .ok vs) ws (dss.map fun ds => ds.map (Value.map f)) := by
  induction tss generalizing us ws with
  | nil =>
    cases bundled
    exact ⟨rfl, [], .nil, .nil, .nil⟩
  | cons ts tss ih =>
    cases bundled with
    | cons here rest =>
      cases here with
      | @handle _ id ds fits served =>
        obtain ⟨count, dss, fit, closed, closed'⟩ := ih rest
        exact ⟨by simpa using count, ds :: dss, .cons fits fit, .cons rfl closed, .cons rfl closed'⟩

omit [ScalarAlgebra α] in
/-- The pattern of a region: the arrays of each input and their tangents, and the other results. -/
theorem Accord.region (accord : Accord ρ f σ τ) (coherent : ρ.Coherent) {tss : List (List ScalarType)}
    {inputs inputs' : List AccInput} (opened : AccInputsEcho ρ tss inputs inputs') {rest : List Kind}
    {names : List Name} (binds : ρ.Binds names (tss.flatten.map .leaves ++ rest))
    {dss : List (List (Value Dual))} (fits : List.Forall₂ FitAll tss dss) {us : List Value}
    {ws : List (Value α)} (bundled : Bundled f (Serves ρ σ τ) rest us ws) :
    Accord ρ f
      (σ.bound (ρ.regionNames inputs names)
        ((dss.map fun ds => primals ds ++ changes ds).flatten ++ us))
      (τ.bound names ((dss.map fun ds => ds.map (Value.map f)).flatten ++ ws)) ∧
      ((dss.map fun ds => ds.map (Value.map f)).flatten ++ ws).length = names.length := by
  induction inputs generalizing σ τ tss inputs' names dss with
  | nil =>
    cases opened
    cases fits
    obtain ⟨after, -, count⟩ := accord.binds coherent binds bundled
    exact ⟨after, count⟩
  | cons input inputs ih =>
    cases opened with
    | @cons ts tss shape shape' arrays tans combine combine' _ inputs' paired combined others =>
      cases fits with
      | @cons _ ds _ dss fit fits =>
        rw [List.flatten_cons, List.map_append, List.append_assoc] at binds
        obtain ⟨group, names, rfl, here, there⟩ := forall₂_append_left binds.flip
        have inGroup : ts.length = group.length := by simpa using here.length_eq
        have count : arrays.length = group.length := by simpa using paired.length.trans inGroup
        have count' : ds.length = group.length := fit.length_eq.symm.trans inGroup
        have first := accord.group coherent here.flip fit
        obtain ⟨after, longer⟩ := ih first others there.flip fits bundled
        have taken : ρ.regionNames (⟨shape, arrays, combine⟩ :: inputs) (group ++ names) =
            (group ++ group.map ρ.tan) ++ ρ.regionNames inputs names := by
          simp [Roles.regionNames, count]
        refine ⟨?_, by simp [← longer, count']⟩
        rw [taken, List.map_cons, List.map_cons, List.flatten_cons, List.flatten_cons,
          List.append_assoc (primals ds ++ changes ds), List.append_assoc (ds.map (Value.map f)),
          Store.bound_append σ, Store.bound_append τ]
        · exact after
        all_goals simp [count']


theorem AccInputsEcho.length {tss : List (List ScalarType)} {inputs inputs' : List AccInput}
    (opened : AccInputsEcho ρ tss inputs inputs') :
    inputs.length = tss.length ∧ inputs'.length = tss.length := by
  induction inputs generalizing tss inputs' with
  | nil =>
    cases opened
    exact ⟨rfl, rfl⟩
  | cons input inputs ih =>
    cases opened with
    | cons paired combined rest => simp [ih rest]

theorem Accord.withAcc (accord : Accord ρ f σ τ) (coherent : ρ.Coherent) (seen : Dual.Seen f place)
    (simulates : Simulates ρ f place fuel) {inputs inputs' : List AccInput} {ps ps' : List Param}
    {b b' : Body} {ret ret' : List Ty} {tss : List (List ScalarType)} {rest : List Kind}
    {names : List Name} (opened : AccInputsEcho ρ tss inputs inputs')
    (params : ρ.Binds (ps.map (·.name)) (tss.map .handle)) (params' : ps'.map (·.name) = ps.map (·.name))
    (inside : b.Echoes ρ .bundled (tss.map .handle ++ rest) b')
    (binds : ρ.Binds names (tss.flatten.map .leaves ++ rest)) {us : List Value}
    (ends : Ends (exp (runBody fuel) fuel (.withAcc inputs' ⟨ps', b', ret'⟩)) σ us σ') :
    BindsTo ρ f σ τ names (ρ.regionNames inputs names) us σ'
      (Placed.exp place (Placed.runBody place fuel) fuel (.withAcc inputs ⟨ps, b, ret⟩)) := by
  have handles : (ps.map (·.name)).flatMap ρ.echo = ps.map (·.name) := by
    have each : ∀ x ∈ ps.map (·.name), ρ.echo x = [x] := by
      intro x mem
      obtain ⟨k, isHandle, holds⟩ := exists_of_forall₂ params.flip mem
      obtain ⟨ts, -, rfl⟩ := List.mem_map.mp isHandle
      cases holds with
      | handle role => exact Roles.echo_handle role
    rw [List.flatMap_congr each, List.flatMap_singleton']
  have closes {β : Type} {vs : List (Value β)} {parts : List (List (Value β))} {σ υ : Store β} :
      Ends (vs.mapM fun v => liftM (closeAcc v) : Run β (List (List (Value β)))) σ parts υ ↔
        List.Forall₂ (fun v part => closeAcc v = .ok part) vs parts ∧ σ = υ :=
    ends_reads fun _ _ _ _ => ends_lift ..
  simp only [exp, Run.withAcc, applyLambda, params', ends_bind, exists_unit, ends_bindNames, ends_lift,
    ends_pure, closes] at ends
  obtain ⟨accs, υ, opens, results, υ', ⟨_, ⟨-, rfl⟩, ran⟩, _, _, ⟨divided, rfl⟩, arrays, _,
    ⟨closed, rfl⟩, rfl, rfl⟩ := ends
  obtain ⟨ws, τ₁, opens', first, handed⟩ := accord.openAccs coherent seen opened opens
  obtain ⟨started, -, count⟩ := first.accord.binds coherent params handed
  rw [handles] at started
  obtain ⟨results', τ₂, ran', second, bundled⟩ := simulates .bundled _ b b' inside _ _ results υ' started ran
  obtain ⟨handles, others, handles', others', rfl, rfl, ofHandles, ofOthers⟩ :=
    Bundled.split (show Bundled f _ _ _ _ from bundled)
  obtain ⟨handleCount, dss, fits, close, close'⟩ := ofHandles.close
  obtain ⟨-, rfl⟩ := splitValues_ok divided
  rw [opened.length.2, ← handleCount, List.take_left] at closed
  rw [opened.length.2, ← handleCount, List.drop_left]
  obtain rfl := Except.ok.inj ((except_mapM_iff.mpr closed).symm.trans (except_mapM_iff.mpr close))
  have persists : Persists ρ f σ τ υ' τ₂ :=
    ⟨second.accord, first.more.trans second.more, first.more'.trans second.more'⟩
  obtain ⟨after, total⟩ := persists.accord.region coherent opened binds fits ofOthers
  refine ⟨_, τ₂, ?_, total, after, persists.more, persists.more'⟩
  have count' : handles'.length = inputs.length := by
    simpa [opened.length.1] using ofHandles.length
  simp only [Placed.exp, exp, Run.withAcc, applyLambda, ends_bind, exists_unit, ends_bindNames,
    ends_lift, ends_pure, closes]
  refine ⟨ws, τ₁, opens', _, τ₂, ⟨_, ⟨count, rfl⟩, ran'⟩, (handles', others'), τ₂, ⟨?_, rfl⟩, _, τ₂,
    ⟨close', rfl⟩, rfl, rfl⟩
  simp [splitValues, ← count']

/-! Statements and bodies. -/

theorem Accord.exp (accord : Accord ρ f σ τ) (coherent : ρ.Coherent) (seen : Dual.Seen f place)
    (simulates : Simulates ρ f place fuel) {e e' : Exp} {names names' : List Name}
    (echoes : e.Echoes ρ names e' names') {us : List Value}
    (ends : Ends (Run.exp (runBody fuel) fuel e') σ us σ') :
    BindsTo ρ f σ τ names names' us σ' (Placed.exp place (Placed.runBody place fuel) fuel e) := by
  cases echoes with
  | updateAcc role bound positions written =>
    exact accord.updateAcc coherent seen simulates role bound positions written ends
  | branch known bound named onYes onNo =>
    rw [named]
    exact accord.branch coherent seen simulates known bound onYes onNo ends
  | loop known bound named params inits params' counts rowed inside =>
    rw [named]
    exact accord.loop coherent seen simulates known bound params inits params' counts rowed inside ends
  | withAcc opened params params' inside bound named =>
    rw [named]
    exact accord.withAcc coherent seen simulates opened params params' inside bound ends

theorem Accord.stm (accord : Accord ρ f σ τ) (coherent : ρ.Coherent) (seen : Dual.Seen f place)
    (simulates : Simulates ρ f place fuel) {s : Stm} {new : List Stm} (echoes : s.Echoes ρ new)
    (ends : Ends (stms fuel new) σ () σ') :
    ∃ τ', Ends (Placed.stm place (Placed.runBody place fuel) fuel s) τ () τ' ∧
      Persists ρ f σ τ σ' τ' := by
  cases echoes with
  | copied copies => exact accord.copies coherent seen copies ends _
  | @doubled pat pat' aux aux' e e' pads padded echoes =>
    obtain ⟨υ, paddedEnds, last⟩ := (ends_stms_append ..).mp ends
    simp only [ends_stms_cons, ends_stms_nil, exists_eq_right, Run.ends_stm] at last
    obtain ⟨us, υ', ran, -, rfl⟩ := last
    have aside := aside_pads padded [] paddedEnds
    have accord := accord.aside coherent aside
    obtain ⟨ws, τ', ran', count, persists⟩ := accord.exp coherent seen simulates echoes ran
    refine ⟨_, (Placed.ends_stm ..).mpr ⟨ws, τ', ran', by simpa using count, rfl⟩, persists.accord, ?_,
      persists.more'⟩
    rw [← aside.combiners]
    exact persists.more

theorem Accord.stms (accord : Accord ρ f σ τ) (coherent : ρ.Coherent) (seen : Dual.Seen f place)
    (simulates : Simulates ρ f place fuel) {ss new : List Stm} (echo : StmsEcho ρ ss new)
    (ends : Ends (Run.stms fuel new) σ () σ') :
    ∃ τ', Ends (Placed.stms place fuel ss) τ () τ' ∧ Persists ρ f σ τ σ' τ' := by
  induction ss generalizing σ τ new with
  | nil =>
    cases echo
    obtain rfl := (ends_stms_nil ..).mp ends
    exact ⟨τ, (Placed.ends_stms_nil ..).mpr rfl, .refl accord⟩
  | cons s ss ih =>
    cases echo with
    | cons first others =>
      obtain ⟨υ, here, there⟩ := (ends_stms_append ..).mp ends
      obtain ⟨τ₁, ran, once⟩ := accord.stm coherent seen simulates first here
      obtain ⟨τ₂, ran', rest⟩ := ih once.accord others there
      exact ⟨τ₂, (Placed.ends_stms_cons ..).mpr ⟨τ₁, ran, ran'⟩, once.trans rest⟩

/-- Wherever emitted bodies end, those of the source end as well. -/
theorem simulates (coherent : ρ.Coherent) (seen : Dual.Seen f place) (fuel : Nat) :
    Simulates ρ f place fuel := by
  -- The hypothesis is about all bodies, since an update in this one runs an operator from elsewhere.
  induction fuel with
  | zero =>
    intro layout ks b b' _ σ τ us σ' _ ends
    obtain ⟨below, -, impossible, -⟩ := (Run.ends_runBody ..).mp ends
    cases impossible
  | succ below ih =>
    intro layout ks b b' echoes σ τ us σ' accord ends
    cases echoes with
    | @mk _ _ ss new pads result result' inside padded results =>
      obtain ⟨_, υ, same, ran, read⟩ := (Run.ends_runBody ..).mp ends
      obtain rfl := Nat.succ.inj same
      obtain ⟨υ₁, first, second⟩ := (ends_stms_append ..).mp ran
      obtain ⟨found, rfl⟩ := ends_operands.mp read
      obtain ⟨τ', ran', persists⟩ := accord.stms coherent seen ih inside first
      have aside := aside_pads padded [] second
      have after := persists.accord.aside coherent aside
      obtain ⟨ws, here, values⟩ := after.results coherent seen results found
      refine ⟨ws, τ', (Placed.ends_runBody ..).mpr
        ⟨below, τ', rfl, ran', ends_operands.mpr ⟨here, rfl⟩⟩, ⟨after, ?_, persists.more'⟩, values⟩
      rw [aside.combiners]
      exact persists.more

end Cotangent
