import Cotangent.Proofs.Regions.Runs
/-!
Updates of accumulators in the emitted code beside those of the source. The arrays of an accumulator come
in two halves that are read and written alike, and its operator is run on the halves of the old values
and of the new ones.
-/
namespace Cotangent

open Run ScalarAlgebra

variable {α : Type} [ScalarAlgebra α] {f : Dual → α} {place : Value α → Value α} {ρ : Roles}
  {σ σ' : Store Scalar} {τ : Store α} {fuel : Nat}

/-! The halves of dual values. -/

/-- A step that is carried over to both parts is carried over in a walk through both halves. -/
theorem halves_mapM {γ δ : Type} {k : γ → Except (Fault Dual) (Value Dual)}
    {k' : δ → Except (Fault Scalar) Value} {first second : γ → δ}
    (onFirst : ∀ a, k' (first a) = carry Dual.primal (Value.map Dual.primal) (k a))
    (onSecond : ∀ a, k' (second a) = carry Dual.tangent (Value.map Dual.tangent) (k a))
    {xs : List γ} {us : List Value} (known : (xs.map first ++ xs.map second).mapM k' = .ok us) :
    ∃ ds, xs.mapM k = .ok ds ∧ us = primals ds ++ changes ds := by
  rw [List.mapM_append, carry_mapM _ first onFirst, carry_mapM _ second onSecond] at known
  cases walked : xs.mapM k with
  | error e => simp [walked] at known
  | ok ds =>
    simp only [walked, carry_ok, except_bind_ok, except_pure_ok, Except.ok.injEq, exists_eq_left'] at known
    exact ⟨ds, rfl, known.symm⟩

theorem inBounds_carry {β γ δ ε : Type} (g : β → γ) (h : δ → ε) (m : Except (Fault β) δ) :
    inBounds (carry g h m) = carry g (Option.map h) (inBounds m) := by
  cases m with
  | ok d => rfl
  | error e => cases e <;> rfl

/-- Reading the halves of dual values is reading the values. -/
theorem inBounds_halves {ds : List (Value Dual)} {dims : List Dim} {r : Option (List Value)}
    (known : inBounds ((primals ds ++ changes ds).mapM (Value.index dims)) = .ok r) :
    ∃ olds, inBounds (ds.mapM (Value.index dims)) = .ok olds ∧
      r = olds.map fun es => primals es ++ changes es := by
  have natural : (primals ds ++ changes ds).mapM (Value.index dims) =
      carry Dual.primal (fun es => primals es ++ changes es) (ds.mapM (Value.index dims)) := by
    rw [List.mapM_append, carry_mapM _ _ (Value.index_map Dual.primal dims),
      carry_mapM _ _ (Value.index_map Dual.tangent dims)]
    cases ds.mapM (Value.index dims) <;> rfl
  rw [natural, inBounds_carry] at known
  obtain ⟨olds, here, rfl⟩ := (carry_eq_ok ..).mp known
  exact ⟨olds, here, rfl⟩

omit [ScalarAlgebra α] in
theorem inBounds_seen {ds : List (Value Dual)} {dims : List Dim} {olds : Option (List (Value Dual))}
    (known : inBounds (ds.mapM (Value.index dims)) = .ok olds) :
    inBounds ((ds.map (Value.map f)).mapM (Value.index dims)) =
      .ok (olds.map fun es => es.map (Value.map f)) := by
  rw [carry_mapM f _ (Value.index_map f dims), inBounds_carry, known]
  rfl

/-- Writing the halves of dual values into those of others is writing the values. -/
theorem updates_halves {ds new : List (Value Dual)} {dims : List Dim} {us : List Value}
    (count : new.length = ds.length)
    (known : List.Forall₂ (fun p v => Value.update dims p.1 p.2 = .ok v)
      ((primals ds ++ changes ds).zip (primals new ++ changes new)) us) :
    ∃ outs, List.Forall₂ (fun p d => Value.update dims p.1 p.2 = .ok d) (ds.zip new) outs ∧
      us = primals outs ++ changes outs := by
  rw [List.zip_append (by simp [count]), List.zip_map, List.zip_map, ← except_mapM_iff] at known
  obtain ⟨outs, here, same⟩ := halves_mapM (k := fun p => Value.update dims p.1 p.2)
    (fun p => Value.update_map Dual.primal dims p.1 p.2)
    (fun p => Value.update_map Dual.tangent dims p.1 p.2) known
  exact ⟨outs, except_mapM_iff.mp here, same⟩

omit [ScalarAlgebra α] in
theorem updates_seen {ds new outs : List (Value Dual)} {dims : List Dim}
    (known : List.Forall₂ (fun p d => Value.update dims p.1 p.2 = .ok d) (ds.zip new) outs) :
    List.Forall₂ (fun p v => Value.update dims p.1 p.2 = .ok v)
      ((ds.map (Value.map f)).zip (new.map (Value.map f))) (outs.map (Value.map f)) := by
  rw [List.zip_map, ← except_mapM_iff,
    carry_mapM f (Prod.map (Value.map f) (Value.map f)) fun p => Value.update_map f dims p.1 p.2,
    except_mapM_iff.mpr known, carry_ok]

theorem fitAll_indexed {ts : List ScalarType} {ds olds : List (Value Dual)} {dims : List Dim}
    (fits : FitAll ts ds) (known : ds.mapM (Value.index dims) = .ok olds) : FitAll ts olds := by
  have each := except_mapM_iff.mp known
  clear known
  induction fits generalizing olds with
  | nil =>
    obtain rfl := List.forall₂_nil_left_iff.mp each
    exact .nil
  | cons fit fits ih =>
    obtain ⟨old, olds, read, others, rfl⟩ := List.forall₂_cons_left_iff.mp each
    exact .cons (Value.every_index fit read) (ih others)

theorem fitAll_updated {ts : List ScalarType} {ds new outs : List (Value Dual)} {dims : List Dim}
    (fits : FitAll ts ds) (written : FitAll ts new)
    (each : List.Forall₂ (fun p d => Value.update dims p.1 p.2 = .ok d) (ds.zip new) outs) :
    FitAll ts outs := by
  induction fits generalizing new outs with
  | nil =>
    obtain rfl := List.forall₂_nil_left_iff.mp each
    exact .nil
  | cons fit fits ih =>
    cases written with
    | cons fit' written =>
      obtain ⟨out, outs, made, others, rfl⟩ := List.forall₂_cons_left_iff.mp each
      exact .cons (Value.every_update fit fit' made) (ih written others)

/-! Positions. -/

theorem Accord.positions (accord : Accord ρ f σ τ) (seen : Dual.Seen f place)
    {position : List Operand} (leaves : ∀ x ∈ position, ρ.Leaf (.int .i64) x) {us : List Value}
    (found : List.Forall₂ (fun x v => σ.value x = some v) position us) {ds : List Dim}
    (fixed : fixedDims us = .ok ds) :
    ∃ is : List Dual, us = is.map (fun d => .scalar d.primal) ∧
      (∀ d ∈ is, d.primal.ty = .int .i64) ∧
      List.Forall₂ (fun x v => τ.value x = some v) position (is.map fun d => .scalar (f d)) ∧
      fixedDims (is.map fun d => .scalar (f d)) = .ok ds := by
  unfold fixedDims at *
  simp only [except_mapM_iff, except_bind_ok, except_pure_ok, asScalar_eq_ok] at *
  induction found generalizing ds with
  | nil =>
    obtain rfl := List.forall₂_nil_left_iff.mp fixed
    exact ⟨[], rfl, by simp, .nil, .nil⟩
  | @cons x u position us read found ih =>
    obtain ⟨leaf, leaves⟩ := List.forall_mem_cons.mp leaves
    obtain ⟨_, ds, ⟨s, rfl, n, isInt, rfl⟩, others, rfl⟩ := List.forall₂_cons_left_iff.mp fixed
    obtain ⟨is, rfl, typed, reads, dims⟩ := ih leaves others
    obtain ⟨v, fits, isPrimal, here⟩ := accord.leaf seen leaf read
    obtain ⟨d, rfl, rfl⟩ := Value.map_eq_scalar isPrimal.symm
    exact ⟨d :: is, rfl, List.forall_mem_cons.mpr ⟨fits.1, typed⟩, .cons here reads,
      .cons ⟨f d, rfl, n, seen.asInt isInt, rfl⟩ dims⟩

omit [ScalarAlgebra α] in
/-- The position is bound to what does not change. -/
theorem Accord.bindPositions (accord : Accord ρ f σ τ) (coherent : ρ.Coherent) {is : List Name}
    (roles : ∀ i ∈ is, ρ i = some (.still (.int .i64))) {ss : List Scalar}
    (typed : ∀ s ∈ ss, s.ty = .int .i64) :
    Accord ρ f (σ.bound is (ss.map .scalar)) (τ.bound is (ss.map fun s => .scalar (f (.constant s)))) := by
  induction is generalizing ss σ τ with
  | nil => exact accord
  | cons i is ih =>
    cases ss with
    | nil => exact accord
    | cons s ss =>
      obtain ⟨role, roles⟩ := List.forall_mem_cons.mp roles
      obtain ⟨ty, typed⟩ := List.forall_mem_cons.mp typed
      exact ih (accord.bindStill coherent (ty ▸ role)) roles typed

/-! Operators. -/

omit [ScalarAlgebra α] in
/-- The parameters of an operator, bound to a position and to the halves of old and new values. -/
theorem Accord.operator (accord : Accord ρ f σ τ) (coherent : ρ.Coherent) {ts : List ScalarType}
    {names names' : List Name} (params : ρ.OperatorNames ts names names') {ss : List Scalar}
    (typed : ∀ s ∈ ss, s.ty = .int .i64) {olds news : List (Value Dual)} (old : FitAll ts olds)
    (new : FitAll ts news)
    (count : (ss.map Value.scalar ++ (primals olds ++ changes olds) ++
      (primals news ++ changes news)).length = names'.length) :
    Accord ρ f
      (σ.bound names' (ss.map Value.scalar ++ (primals olds ++ changes olds) ++
        (primals news ++ changes news)))
      (τ.bound names (ss.map (fun s => Value.scalar (f (.constant s))) ++ olds.map (Value.map f) ++
        news.map (Value.map f))) ∧
      (ss.length + olds.length + news.length = names.length) := by
  cases params with
  | @mk is xs ys positions ofOlds ofNews =>
    have countXs : olds.length = xs.length := by
      simpa [← old.length_eq] using ofOlds.length_eq.symm
    have countYs : news.length = ys.length := by
      simpa [← new.length_eq] using ofNews.length_eq.symm
    have countIs : ss.length = is.length := by
      simp only [List.length_append, List.length_map] at count
      omega
    refine ⟨?_, by simp [countIs, countXs, countYs, Nat.add_assoc]⟩
    have first := accord.bindPositions coherent positions typed
    have second := first.group coherent ofOlds old
    have third := second.group coherent ofNews new
    rw [List.append_assoc (is ++ xs ++ xs.map ρ.tan), List.append_assoc is, Store.bound_append σ,
      Store.bound_append σ, Store.bound_append τ, Store.bound_append τ]
    · exact third
    all_goals simp [countIs, countXs]


theorem placed_positions (seen : Dual.Seen f place) (is : List Dual) :
    (is.map fun d => (Value.scalar (f d) : Value α)).map place =
      (is.map Dual.primal).map fun s => .scalar (f (.constant s)) := by
  simp [seen.place]

/-- What the operator makes of dual values, from what that of the emitted code makes of their halves. -/
theorem Accord.combined (accord : Accord ρ f σ τ) (coherent : ρ.Coherent) (seen : Dual.Seen f place)
    (simulates : Simulates ρ f place fuel) {op op' : Option Lambda} {ts : List ScalarType}
    (echoes : CombineEchoes ρ ts op op') {is : List Dual} (typed : ∀ d ∈ is, d.primal.ty = .int .i64)
    {olds news : List (Value Dual)} (old : FitAll ts olds) (new : FitAll ts news) {us : List Value}
    (ends : Ends (Placed.combined id (runBody fuel) op' (is.map fun d => .scalar d.primal)
      (primals olds ++ changes olds) (primals news ++ changes news)) σ us σ') :
    ∃ outs τ', us = primals outs ++ changes outs ∧ FitAll ts outs ∧ Persists ρ f σ τ σ' τ' ∧
      Ends (Placed.combined place (Placed.runBody place fuel) op (is.map fun d => .scalar (f d))
        (olds.map (Value.map f)) (news.map (Value.map f))) τ (outs.map (Value.map f)) τ' := by
  cases echoes with
  | none =>
    obtain ⟨rfl, rfl⟩ := (ends_pure ..).mp ends
    exact ⟨news, τ, rfl, new, .refl accord, (ends_pure ..).mpr ⟨rfl, rfl⟩⟩
  | @some _ ps ps' b b' ret ret' params inside =>
    simp only [Placed.combined, applyLambda, ends_bind, exists_unit, ends_bindNames, List.map_id]
      at ends ⊢
    obtain ⟨_, ⟨count, rfl⟩, ran⟩ := ends
    have positions : is.map (fun d => Value.scalar d.primal) =
        (is.map Dual.primal).map Value.scalar := by simp
    rw [positions] at count ran
    have ofPositions : ∀ s ∈ is.map Dual.primal, s.ty = .int .i64 := by simpa using typed
    obtain ⟨opened, count'⟩ := accord.operator coherent params ofPositions old new count
    obtain ⟨ws, τ', ran', persists, ts', outs, same, fits, rfl, rfl⟩ :=
      simulates .grouped _ b b' inside _ _ us σ' opened ran
    obtain rfl : ts = ts' := List.map_injective_iff.mpr (fun _ _ => Kind.leaves.inj) same
    refine ⟨outs, τ', rfl, fits, ⟨persists.accord, persists.more, persists.more'⟩, ?_⟩
    rw [placed_positions seen]
    exact ⟨_, ⟨by simpa [Nat.add_assoc] using count', rfl⟩, ran'⟩

/-- An update of the halves is an update of dual values. -/
theorem Accord.updates (accord : Accord ρ f σ τ) (coherent : ρ.Coherent) (seen : Dual.Seen f place)
    (simulates : Simulates ρ f place fuel) {key : Nat} {ts : List ScalarType}
    (served : Serves ρ σ τ key ts) {is : List Dual} (typed : ∀ d ∈ is, d.primal.ty = .int .i64)
    {ds vs : List (Value Dual)} (fits : FitAll ts ds) (new : FitAll ts vs) {dims : List Dim}
    {us : List Value} (updates : Placed.Updates id (runBody fuel) σ key (primals ds ++ changes ds)
      (is.map fun d => .scalar d.primal) dims (primals vs ++ changes vs) us σ') :
    ∃ outs τ', us = primals outs ++ changes outs ∧ FitAll ts outs ∧ Persists ρ f σ τ σ' τ' ∧
      Placed.Updates place (Placed.runBody place fuel) τ key (ds.map (Value.map f))
        (is.map fun d => .scalar (f d)) dims (vs.map (Value.map f)) (outs.map (Value.map f)) τ' := by
  cases updates with
  | outside beyond =>
    obtain ⟨olds, isOld, isNone⟩ := inBounds_halves beyond
    obtain rfl : olds = none := by simpa using isNone.symm
    exact ⟨ds, τ, rfl, fits, .refl accord, .outside (inBounds_seen isOld)⟩
  | @inside old made outs _ read combines count written =>
    obtain ⟨olds, isOld, isSome⟩ := inBounds_halves read
    obtain ⟨olds, rfl, rfl⟩ := Option.map_eq_some_iff.mp isSome.symm
    obtain ⟨op, op', here, here', echoes⟩ := served
    rw [here', Option.join_some] at combines
    obtain ⟨made, τ', rfl, fitMade, persists, combines'⟩ := accord.combined coherent seen simulates
      echoes typed (fitAll_indexed fits (inBounds_some isOld)) new combines
    have count' : made.length = ds.length := by rw [← fitMade.length_eq, fits.length_eq]
    obtain ⟨outs, written', rfl⟩ := updates_halves count' written
    refine ⟨outs, τ', rfl, fitAll_updated fits fitMade written', persists,
      .inside (inBounds_seen isOld) ?_ (by simp [count']) (updates_seen written')⟩
    rw [here, Option.join_some]
    exact combines'

theorem Accord.updateAcc (accord : Accord ρ f σ τ) (coherent : ρ.Coherent) (seen : Dual.Seen f place)
    (simulates : Simulates ρ f place fuel) {acc h : Name} {ts : List ScalarType}
    {position values tans : List Operand} (role : ρ acc = some (.handle ts))
    (bound : ρ h = some (.handle ts)) (positions : ∀ x ∈ position, ρ.Leaf (.int .i64) x)
    (written : ρ.Tangents ts values tans) {us : List Value}
    (ends : Ends (exp (runBody fuel) fuel (.basic (.updateAcc acc position (values ++ tans)))) σ us σ') :
    BindsTo ρ f σ τ [h] [h] us σ'
      (Placed.exp place (Placed.runBody place fuel) fuel (.basic (.updateAcc acc position values))) := by
  obtain ⟨v, applied, rfl⟩ := (Run.ends_basic ..).mp ends
  rw [basicOp, ← Placed.updateAcc_id, Placed.ends_updateAcc] at applied
  obtain ⟨id, arrays, idx, dims, vs, outs, read, foundIdx, fixed, foundVs, updates, rfl⟩ := applied
  obtain ⟨_, ds, fits, served, same, here⟩ := accord.handle role read
  obtain ⟨rfl, rfl⟩ := Value.acc.inj same
  obtain ⟨is, rfl, typed, hereIdx, fixed'⟩ := accord.positions seen positions foundIdx fixed
  obtain ⟨vs, fitVs, rfl, hereVs⟩ := accord.tangents coherent seen written foundVs
  obtain ⟨outs, τ', rfl, fitOuts, persists, updates'⟩ :=
    accord.updates coherent seen simulates served typed fits fitVs updates
  have after := persists.accord.bindHeld coherent (.handle bound)
    (.handle fitOuts (persists.serves served))
  rw [Roles.echo_handle bound] at after
  refine ⟨_, τ', ?_, rfl, after, persists.more, persists.more'⟩
  simp only [Placed.exp, ends_bind, ends_pure]
  exact ⟨_, τ', (Placed.ends_updateAcc ..).mpr
    ⟨id, _, _, dims, _, _, here, hereIdx, fixed', hereVs, updates', rfl⟩, rfl, rfl⟩

end Cotangent
