import Cotangent.Proofs.Tandem.Histograms
/-!
Scatters. All destinations come before all of their tangents, and a lambda returns its positions twice, then
the values, then their tangents. A lambda that returns just as many values as the destinations take leaves
nothing over, so each tangent destination takes the tangents of what its destination takes.
-/
namespace Cotangent

open Run ScalarAlgebra Diff Outline

/-- The positions twice, then the values, then their tangents. -/
def dealt (k : Nat) (ds : List (Value Dual)) : List Value :=
  primals (ds.take k) ++ primals (ds.take k) ++ (primals (ds.drop k) ++ changes (ds.drop k))

/-- The number of values that the destinations take in a round. -/
def scatterValues (dests : List ScatterDest) : Nat := total (dests.map (·.count))

namespace Run

section

variable {α : Type} [ScalarAlgebra α]

/-! What a row of destinations takes. -/

theorem scatterInto_takes {rank count : Nat} {dest new : Value α} {idxs idxs' vs vs' : List (Value α)}
    (written : scatterInto rank count dest idxs vs = .ok (new, idxs', vs')) :
    count ≤ vs.length ∧ idxs' = idxs.drop (count * rank) ∧ vs' = vs.drop count := by
  induction count generalizing dest idxs vs with
  | zero =>
    obtain ⟨-, rfl, rfl⟩ : dest = new ∧ idxs = idxs' ∧ vs = vs' := by simpa [scatterInto] using written
    simp
  | succ count ih =>
    cases vs with
    | nil => simp [scatterInto] at written
    | cons v vs =>
      simp only [scatterInto, except_bind_ok] at written
      obtain ⟨dims, -, updated, -, rest⟩ := written
      obtain ⟨enough, rfl, rfl⟩ := ih rest
      refine ⟨Nat.succ_le_succ enough, ?_, rfl⟩
      rw [List.drop_drop, Nat.succ_mul, Nat.add_comm]

theorem scatterValues_cons (d : ScatterDest) (ds : List ScatterDest) :
    scatterValues (d :: ds) = d.count + scatterValues ds := rfl

theorem scatterIndices_cons (d : ScatterDest) (ds : List ScatterDest) :
    scatterIndices (d :: ds) = d.count * d.shape.length + scatterIndices ds := rfl

theorem scatterIndices_append (ds es : List ScatterDest) :
    scatterIndices (ds ++ es) = scatterIndices ds + scatterIndices es := by
  induction ds with
  | nil => simp [scatterIndices, total]
  | cons d ds ih => rw [List.cons_append, scatterIndices_cons, scatterIndices_cons, ih, Nat.add_assoc]

/-- The first destinations, and then the others with what is left. -/
theorem scatterRow_append {ds es : List ScatterDest} {outs more idxs vs ws : List (Value α)}
    (count : outs.length = ds.length) (written : scatterRow (ds ++ es) (outs ++ more) idxs vs = .ok ws) :
    scatterValues ds ≤ vs.length ∧ ∃ xs ys, ws = xs ++ ys ∧ scatterRow ds outs idxs vs = .ok xs ∧
      scatterRow es more (idxs.drop (scatterIndices ds)) (vs.drop (scatterValues ds)) = .ok ys := by
  induction ds generalizing outs idxs vs ws with
  | nil =>
    obtain rfl := List.length_eq_zero_iff.mp count
    exact ⟨Nat.zero_le _, [], ws, rfl, rfl, written⟩
  | cons d ds ih =>
    obtain ⟨out, outs, rfl⟩ := List.exists_cons_of_length_eq_add_one count
    simp only [List.cons_append, scatterRow, except_bind_ok, except_pure_ok] at written ⊢
    obtain ⟨⟨new, idxs', vs'⟩, here, news, rest, rfl⟩ := written
    obtain ⟨enough, rfl, rfl⟩ := scatterInto_takes here
    obtain ⟨enough', xs, ys, rfl, first, second⟩ := ih (by simpa using count) rest
    rw [List.length_drop] at enough'
    rw [List.drop_drop, List.drop_drop] at second
    exact ⟨by rw [scatterValues_cons]; omega, new :: xs, ys, rfl, ⟨_, here, xs, first, rfl⟩, second⟩

theorem scatterRow_takes {ds : List ScatterDest} {outs idxs vs ws : List (Value α)}
    (count : outs.length = ds.length) (written : scatterRow ds outs idxs vs = .ok ws) :
    scatterValues ds ≤ vs.length := by
  have alone : scatterRow (ds ++ []) (outs ++ []) idxs vs = .ok ws := by simpa using written
  exact (scatterRow_append count alone).1

theorem length_scatterRow {ds : List ScatterDest} {outs idxs vs ws : List (Value α)}
    (written : scatterRow ds outs idxs vs = .ok ws) : ws.length = outs.length := by
  induction ds generalizing outs idxs vs ws with
  | nil => rw [← Except.ok.inj written]
  | cons d ds ih =>
    cases outs with
    | nil => rw [← Except.ok.inj written]
    | cons out outs =>
      simp only [scatterRow, except_bind_ok, except_pure_ok] at written
      obtain ⟨⟨new, idxs', vs'⟩, -, news, rest, rfl⟩ := written
      simp [ih rest]

end

/-- The second run shadows the first and comes to its own end. -/
theorem Shadows.ends {α β γ : Type} {stop : Fault α} {m' : Run Scalar β} {m : Run α γ} {σ : Store Scalar}
    {τ : Store α} {post : β → Store Scalar → γ → Store α → Prop} (shadows : Shadows stop m' σ m τ post) :
    Shadows stop m' σ m τ fun b σ' c τ' => post b σ' c τ' ∧ Ends m τ c τ' := by
  intro b σ' ran
  exact (shadows b σ' ran).imp_right fun ⟨c, τ', ends, holds⟩ => ⟨c, τ', ends, holds, ends⟩

end Run

namespace Tandem

/-- The second destination is the tangent of the first. -/
structure TangentDest (tans : NameTable Name) (d d' : ScatterDest) : Prop where
  shape : d'.shape = d.shape
  count : d'.count = d.count
  array : tans.find? d.array = some d'.array

/-- One dual value for each destination. -/
abbrev Outs (n : Nat) : Type := {ds : List (Value Dual) // ds.length = n}

def Outs.grouped (n : Nat) (outs : Outs n) : List Value := Cotangent.grouped outs.1

def Outs.seen {α : Type} (f : Dual → α) {n : Nat} (outs : Outs n) : List (Value α) := outs.1.map (Value.map f)

section

variable {α : Type} [ScalarAlgebra α] {f : Dual → α} {bound m n : Nat} {decl : Name → Ty}
  {scope still bs names : List Name} {s t u : DiffState} {σ₀ σ σ' : Store Scalar} {τ₀ τ τ' : Store α}
  {stop : Fault α} {fuel : Nat}

/-! Rows. -/

/-- A destination and its tangent are written at the same positions, whatever comes after these. -/
theorem scatterInto_parts (view : View f) {rank count : Nat} {d : Value Dual} {is vs : List (Value Dual)}
    {more more' others others' : List Value} {x y : Value} {rest rest' : List Value × List Value}
    (positions : count * rank ≤ is.length) (values : count ≤ vs.length)
    (left : scatterInto rank count (d.map Dual.primal) (primals is ++ more) (primals vs ++ others) = .ok (x, rest))
    (right : scatterInto rank count (d.map Dual.tangent) (primals is ++ more') (changes vs ++ others') =
      .ok (y, rest')) :
    ∃ e : Value Dual, x = e.map Dual.primal ∧ y = e.map Dual.tangent ∧
      scatterInto rank count (d.map f) (is.map (Value.map f)) (vs.map (Value.map f)) =
        .ok (e.map f, (is.drop (count * rank)).map (Value.map f), (vs.drop count).map (Value.map f)) := by
  induction count generalizing d is vs with
  | zero =>
    simp only [scatterInto, Except.ok.injEq, Prod.mk.injEq] at left right
    exact ⟨d, left.1.symm, right.1.symm, by simp [scatterInto]⟩
  | succ count ih =>
    rw [Nat.succ_mul] at positions
    obtain ⟨v, vs, rfl⟩ := List.exists_cons_of_length_pos (Nat.lt_of_lt_of_le (Nat.succ_pos count) values)
    have front (zs : List Value) : (primals is ++ zs).take rank = primals (is.take rank) ∧
        (primals is ++ zs).drop rank = primals (is.drop rank) ++ zs := by
      have enough : rank ≤ (primals is).length := by
        rw [primals, List.length_map]
        omega
      rw [List.take_append_of_le_length enough, List.drop_append_of_le_length enough, primals, primals, primals,
        List.map_take, List.map_drop]
      exact ⟨rfl, rfl⟩
    simp only [primals, changes, List.map_cons, List.cons_append, scatterInto, except_bind_ok] at left right ⊢
    obtain ⟨dims, fixed, updated, wrote, left⟩ := left
    obtain ⟨dims', fixed', updated', wrote', right⟩ := right
    rw [← primals, (front _).1] at fixed fixed'
    obtain rfl := Except.ok.inj (fixed.symm.trans fixed')
    rw [Value.update_map, inBounds_carry] at wrote wrote'
    obtain ⟨o, here, rfl⟩ := (carry_eq_ok ..).mp wrote
    obtain ⟨o', here', rfl⟩ := (carry_eq_ok ..).mp wrote'
    obtain rfl := Except.ok.inj (here.symm.trans here')
    have kept {β : Type} (g : Dual → β) : (o.map (Value.map g)).getD (d.map g) = (o.getD d).map g := by
      cases o <;> rfl
    rw [kept, ← primals, (front _).2] at left right
    obtain ⟨e, rfl, rfl, seen⟩ := ih (by rw [List.length_drop]; omega) (Nat.le_of_succ_le_succ values) left right
    refine ⟨e, rfl, rfl, dims, ?_, o.map (Value.map f), ?_, ?_⟩
    · rw [← List.map_take]
      exact fixedDims_seen view fixed
    · rw [Value.update_map, inBounds_carry, here, carry_ok]
    · rw [kept, ← List.map_drop, seen, List.drop_drop, List.drop_succ_cons, Nat.succ_mul, Nat.add_comm]

/-- The same for all destinations, if there are enough positions and values. -/
theorem scatterRow_parts (view : View f) {dests dests' : List ScatterDest}
    (same : List.Forall₂ (fun d d' => d'.shape = d.shape ∧ d'.count = d.count) dests dests')
    {outs is vs : List (Value Dual)} {more more' others others' xs ys : List Value}
    (positions : scatterIndices dests ≤ is.length) (values : scatterValues dests ≤ vs.length)
    (left : scatterRow dests (primals outs) (primals is ++ more) (primals vs ++ others) = .ok xs)
    (right : scatterRow dests' (changes outs) (primals is ++ more') (changes vs ++ others') = .ok ys) :
    ∃ es : List (Value Dual), xs = primals es ∧ ys = changes es ∧
      scatterRow dests (outs.map (Value.map f)) (is.map (Value.map f)) (vs.map (Value.map f)) =
        .ok (es.map (Value.map f)) := by
  induction same generalizing outs is vs xs ys with
  | nil => exact ⟨outs, (Except.ok.inj left).symm, (Except.ok.inj right).symm, rfl⟩
  | @cons d d' dests dests' here _ ih =>
    cases outs with
    | nil => exact ⟨[], (Except.ok.inj left).symm, (Except.ok.inj right).symm, rfl⟩
    | cons out outs =>
      rw [scatterIndices_cons] at positions
      rw [scatterValues_cons] at values
      simp only [primals, changes, List.map_cons, scatterRow, here.1, here.2, except_bind_ok,
        except_pure_ok] at left right ⊢
      obtain ⟨⟨x, idxs, ps⟩, one, xs, rest, rfl⟩ := left
      obtain ⟨⟨y, idxs', qs⟩, one', ys, rest', rfl⟩ := right
      obtain ⟨e, rfl, rfl, seen⟩ := scatterInto_parts view (by omega) (by omega) one one'
      obtain ⟨-, rfl, rfl⟩ := scatterInto_takes one
      obtain ⟨-, rfl, rfl⟩ := scatterInto_takes one'
      rw [List.drop_append_of_le_length (by rw [List.length_map]; omega),
        List.drop_append_of_le_length (by rw [List.length_map]; omega), ← List.map_drop, ← List.map_drop] at rest rest'
      obtain ⟨es, rfl, rfl, seen'⟩ := ih (by rw [List.length_drop]; omega) (by rw [List.length_drop]; omega) rest rest'
      exact ⟨e :: es, rfl, rfl, _, seen, es.map (Value.map f), seen', rfl⟩

theorem scatterValues_same {dests dests' : List ScatterDest}
    (same : List.Forall₂ (fun d d' => d'.shape = d.shape ∧ d'.count = d.count) dests dests') :
    scatterValues dests' = scatterValues dests ∧ scatterIndices dests' = scatterIndices dests := by
  induction same with
  | nil => exact ⟨rfl, rfl⟩
  | cons here _ ih =>
    rw [scatterValues_cons, scatterValues_cons, scatterIndices_cons, scatterIndices_cons, here.1, here.2, ih.1, ih.2]
    exact ⟨rfl, rfl⟩

omit [ScalarAlgebra α] in
/-- The positions and the values of a row. -/
theorem splitValues_dealt {es : List (Value Dual)} {k : Nat} {p : List Value × List Value}
    (split : splitValues (dealt k es) (2 * k) = .ok p) : k ≤ es.length ∧
      p = (primals (es.take k) ++ primals (es.take k), primals (es.drop k) ++ changes (es.drop k)) ∧
      splitValues (es.map (Value.map f)) k = .ok ((es.take k).map (Value.map f), (es.drop k).map (Value.map f)) := by
  obtain ⟨enough, rfl⟩ := (splitValues_iff ..).mp split
  have long : k ≤ es.length := by
    simp only [dealt, primals, changes, List.length_append, List.length_map, List.length_take,
      List.length_drop] at enough
    omega
  have twice : (primals (es.take k) ++ primals (es.take k)).length = 2 * k := by
    simp only [primals, List.length_append, List.length_map, List.length_take]
    omega
  refine ⟨long, ?_, (splitValues_iff ..).mpr ⟨by rwa [List.length_map], ?_⟩⟩
  · rw [dealt, List.take_left' twice, List.drop_left' twice]
  · rw [List.map_take, List.map_drop]

/-- A lambda returns no value that is not taken. -/
theorem scatterRow_dealt (view : View f) {dests dests' : List ScatterDest}
    (same : List.Forall₂ (fun d d' => d'.shape = d.shape ∧ d'.count = d.count) dests dests')
    {outs is vs : List (Value Dual)} {us : List Value} (count : outs.length = dests.length)
    (positions : is.length = scatterIndices dests) (values : vs.length ≤ scatterValues dests)
    (written : scatterRow (dests ++ dests') (grouped outs) (primals is ++ primals is) (primals vs ++ changes vs) =
      .ok us) :
    ∃ news : List (Value Dual), us = grouped news ∧ news.length = dests.length ∧
      scatterRow dests (outs.map (Value.map f)) (is.map (Value.map f)) (vs.map (Value.map f)) =
        .ok (news.map (Value.map f)) := by
  obtain ⟨sameValues, -⟩ := scatterValues_same same
  rw [grouped] at written
  obtain ⟨_, xs, ys, rfl, first, second⟩ := scatterRow_append (by simpa [primals] using count) written
  -- both groups of destinations take as many values, which are all that there are
  have takes := scatterRow_takes (by simpa [changes, count] using same.length_eq) second
  simp only [sameValues, List.length_drop, List.length_append, primals, changes, List.length_map] at takes
  have all : (primals vs).length = scatterValues dests := by
    rw [primals, List.length_map]
    omega
  have once : (primals is).length = scatterIndices dests := by rw [primals, List.length_map, positions]
  rw [List.drop_left' once, List.drop_left' all] at second
  have right : scatterRow dests' (changes outs) (primals is ++ []) (changes vs ++ []) = .ok ys := by simpa using second
  obtain ⟨news, rfl, rfl, seen⟩ := scatterRow_parts (f := f) view same (Nat.le_of_eq positions.symm) (by omega) first
    right
  have kept := length_scatterRow first
  exact ⟨news, rfl, by simpa [primals, count] using kept, seen⟩

/-! Rounds. -/

/-- A lambda returns as many values as its body has results. -/
theorem length_guarded {guard : List Name → List Name → Run α Unit} {l : Lambda} {vs ws : List (Value α)}
    (ends : Ends (applyLambda (guardedBody guard fuel) l vs) τ ws τ') : ws.length = l.body.result.length := by
  obtain ⟨_, τ₁, -, ends⟩ := (ends_bind ..).mp ends
  cases fuel with
  | zero => exact absurd ends (ends_outOfFuel _ _ _)
  | succ fuel =>
    rw [guardedBody_succ] at ends
    simp only [ends_bind] at ends
    obtain ⟨_, τ₂, -, _, τ₃, -, read⟩ := ends
    exact ends_mapM_length read

theorem scatterRound_shadows (view : View f) {dests dests' : List ScatterDest} {l l' : Lambda}
    (same : List.Forall₂ (fun d d' => d'.shape = d.shape ∧ d'.count = d.count) dests dests')
    (exact : l.body.result.length ≤ scatterIndices dests + scatterValues dests)
    (applies : Applies f bound decl scope still bs m t 0 (dealt (scatterIndices dests)) l l') (ds : List (Value Dual))
    (i : Nat) {b : List Value} {c : List (Value α)} (holds : Holds f bound scope still bs t.companions m
      t.builder.supply.next (Outs.grouped dests.length) (Outs.seen f) σ₀ τ₀ b σ c τ) :
    Shadows stop
      (scatterRound (runBody fuel) (dests ++ dests') l' ((doubled ds).map Value.table) (2 * scatterIndices dests) i b) σ
      (scatterRound (guardedBody (keepTypes decl stop) fuel) dests l ((ds.map (Value.map f)).map Value.table)
        (scatterIndices dests) i c) τ
      (Holds f bound scope still bs t.companions m t.builder.supply.next (Outs.grouped dests.length) (Outs.seen f)
        σ₀ τ₀) := by
  obtain ⟨⟨outs, count⟩, rfl, rfl, steady⟩ := holds
  refine rowsAt_shadows ds i fun rs => (applies.call_all rs steady).ends.bind ?_
  rintro _ σ₁ _ τ₁ ⟨⟨es, rfl, rfl, steady₁⟩, ran⟩
  have few : es.length ≤ scatterIndices dests + scatterValues dests := by
    have length := length_guarded ran
    rw [List.length_map] at length
    omega
  let k := scatterIndices dests
  refine .lift (fun p q => k ≤ es.length ∧
      p = (primals (es.take k) ++ primals (es.take k), primals (es.drop k) ++ changes (es.drop k)) ∧
      q = ((es.take k).map (Value.map f), (es.drop k).map (Value.map f))) (fun p split => ?_) ?_
  · obtain ⟨long, rfl, seen⟩ := splitValues_dealt split
    exact ⟨_, seen, long, rfl, rfl⟩
  rintro _ _ ⟨long, rfl, rfl⟩
  refine shadows_of_ends fun us σ' ends => ?_
  obtain ⟨written, rfl⟩ := (ends_lift ..).mp ends
  obtain ⟨news, rfl, length, seen⟩ := scatterRow_dealt view same count (by rw [List.length_take]; omega)
    (by rw [List.length_drop]; omega) written
  exact ⟨_, τ₁, (ends_lift ..).mpr ⟨seen, rfl⟩, ⟨news, length⟩, rfl, rfl, steady₁⟩

/-- Names are read, and then their tangents. -/
theorem Accord.lookups_grouped {tans : NameTable Name} (accord : Accord f scope still tans σ τ) (view : View f)
    {xs cs : List Name} (known : ∀ x ∈ xs, x ∈ scope)
    (found : List.Forall₂ (fun x c => tans.find? x = some c) xs cs) {us : List Value}
    (ends : Ends (Run.lookups (xs ++ cs)) σ us σ') :
    σ' = σ ∧ ∃ ds : List (Value Dual), ds.length = xs.length ∧ us = grouped ds ∧
      Ends (Run.lookups xs) τ (ds.map (Value.map f)) τ := by
  rw [lookups_vars, List.map_append] at ends
  obtain ⟨ds, pairs⟩ := accord.allPairs view (by rwa [operandNames_vars]) (tangents_vars found)
  obtain ⟨rfl, rfl, seen⟩ := shadows_operands (List.rel_append pairs.primals pairs.changes) pairs.seen ends
  rw [← lookups_vars] at seen
  exact ⟨rfl, ds, by simpa using pairs.seen.length_eq.symm, rfl, seen⟩

theorem scatter_shadows (view : View f) {width : Operand} {arrays cs : List Name} {dests dests' : List ScatterDest}
    {l l' : Lambda} (known : ∀ x ∈ width.names ++ arrays, x ∈ scope) (knownDests : ∀ d ∈ dests, d.array ∈ scope)
    (found : List.Forall₂ (fun x c => t.companions.find? x = some c) arrays cs)
    (tangents : List.Forall₂ (TangentDest t.companions) dests dests')
    (exact : l.body.result.length ≤ scatterIndices dests + scatterValues dests)
    (applies : Applies f bound decl scope still bs m t 0 (dealt (scatterIndices dests)) l l')
    (steady : Steady f bound scope still bs t.companions m t.builder.supply.next σ₀ τ₀ σ τ) :
    Shadows stop (scatter (runBody fuel) width l' (interleave arrays cs) (dests ++ dests')) σ
      (scatter (guardedBody (keepTypes decl stop) fuel) width l arrays dests) τ
      (Comes f bound scope still bs t.companions m t.builder.supply.next grouped σ₀ τ₀) := by
  have same : List.Forall₂ (fun d d' => d'.shape = d.shape ∧ d'.count = d.count) dests dests' :=
    tangents.imp fun _ _ here => ⟨here.shape, here.count⟩
  refine arrays_shadows view steady.accord known found fun k ds => ?_
  refine .reads (fun us ws => ∃ outs : List (Value Dual), outs.length = dests.length ∧ us = grouped outs ∧
    ws = outs.map (Value.map f)) (fun us σ' ends => ?_) ?_
  · rw [List.map_append] at ends
    obtain ⟨rfl, outs, count, rfl, seen⟩ := steady.accord.lookups_grouped view
      (fun x mem => by
        obtain ⟨d, inDests, rfl⟩ := List.mem_map.mp mem
        exact knownDests d inDests)
      (List.forall₂_map_left_iff.mpr (List.forall₂_map_right_iff.mpr (tangents.imp fun _ _ here => here.array))) ends
    exact ⟨rfl, _, seen, outs, by simpa using count, rfl, rfl⟩
  rintro _ _ ⟨outs, count, rfl, rfl⟩
  have twice : scatterIndices (dests ++ dests') = 2 * scatterIndices dests := by
    rw [scatterIndices_append, (scatterValues_same same).2]
    omega
  rw [twice]
  have start : Holds f bound scope still bs t.companions m t.builder.supply.next (Outs.grouped dests.length)
      (Outs.seen f) σ₀ τ₀ (grouped outs) σ (outs.map (Value.map f)) τ := ⟨⟨outs, count⟩, rfl, rfl, steady⟩
  refine (shadows_rounds (fun i _ _ _ _ => scatterRound_shadows view same exact applies ds i) k 0 start).mono ?_
  rintro _ _ _ _ ⟨⟨outs, -⟩, rfl, rfl, after⟩
  exact ⟨outs, rfl, rfl, after⟩

/-! Results. -/

/-- The positions of a row come twice, and then the values and their tangents. -/
theorem answers_dealt (view : View f) (k : Nat) (xs : List Operand) :
    Answers f bound decl xs (do
      return xs.take k ++ xs.take k ++ xs.drop k ++ (← Forward.tangents (xs.drop k))) (dealt k) := by
  intro scope still s ys t serves known gives
  simp only [gives_bind, gives_pure] at gives
  obtain ⟨dxs, _, asked, rfl, rfl⟩ := gives
  obtain ⟨asks, tangents⟩ :=
    tangents_asks (f := f) [] serves (fun y mem => known y (names_drop k xs y mem)) (names_drop k xs) asked
  refine asks.strengthen fun σ τ accord _ us σ' ends => ?_
  obtain ⟨es, positions, pairs, seen⟩ := accord.positions view k known tangents
  rw [List.append_assoc] at ends
  obtain ⟨rfl, rfl, seen⟩ := shadows_operands (List.rel_append (List.rel_append positions positions)
    (List.rel_append pairs.primals pairs.changes)) seen ends
  exact ⟨rfl, es, rfl, seen⟩

/-! Statements. -/

theorem destTans_asks (bs : List Name) (serves : Serves bound decl scope still s) {dests dests' : List ScatterDest}
    (known : ∀ d ∈ dests, d.array ∈ scope) (read : ∀ d ∈ dests, d.array ∈ names)
    (gives : Gives (dests.mapM fun d => do return { d with array := ← companion d.array }) s dests' t) :
    Asks f bound decl scope still bs names s t (fun _ _ => True) ∧
      List.Forall₂ (TangentDest t.companions) dests dests' := by
  have keys {x : Name} (mem : x ∈ dests.flatMap fun d => [d.array]) : ∃ d ∈ dests, d.array = x := by
    obtain ⟨d, inDests, here⟩ := List.mem_flatMap.mp mem
    exact ⟨d, inDests, (List.mem_singleton.mp here).symm⟩
  refine mapM_asks bs (fun d => [d.array]) TangentDest
    (fun kept here => { here with array := kept _ (by simp) _ here.array }) (fun d d' s t serves known read gives => ?_)
    serves (fun x mem => ?_) (fun x mem => ?_) gives
  · obtain ⟨c, _, asked, last⟩ := (gives_bind ..).mp gives
    obtain ⟨rfl, rfl⟩ := (gives_pure ..).mp last
    obtain ⟨asks, found⟩ := companion_asks (f := f) bs serves (known _ (by simp)) (read _ (by simp)) asked
    exact ⟨asks, rfl, rfl, found⟩
  · obtain ⟨d, inDests, rfl⟩ := keys mem
    exact known d inDests
  · obtain ⟨d, inDests, rfl⟩ := keys mem
    exact read d inDests

theorem scatter_stands (view : View f) {pat : List Param} {aux : Annotations} {width : Operand} {lam : Lambda}
    {arrays : List Name} {dests : List ScatterDest} {lamAct : Diff Lambda} (declared : Declared decl pat)
    (exact : lam.body.result.length ≤ scatterIndices dests + scatterValues dests)
    (onLam : Transforms f bound decl lamAct 0 (dealt (scatterIndices dests)) lam) :
    Stands f bound decl (Forward.scatter ⟨pat, aux, .scatter width lam arrays dests⟩ width lamAct arrays dests)
      ⟨pat, aux, .scatter width lam arrays dests⟩ := by
  intro scope still s t serves awaits gives
  obtain ⟨inside, pattern, apart, -⟩ := awaits.stm
  simp only [Forward.scatter, gives_bind] at gives
  obtain ⟨dests', u₁, askedDests, qs, u₂, drew, arrays', u₃, asked, lam', u₄, madeLam, added⟩ := gives
  obtain ⟨rfl, rfl⟩ := (gives_of_outcome (Forward.gives_newTangents declared.plain u₁) ..).mp drew
  obtain rfl := ((gives_build ..).mp added).2
  let e : Exp := .scatter width lam arrays dests
  let uses := Stm.uses ⟨pat, aux, e⟩
  have read (x : Name) (mem : x ∈ (e.outline pat.length).uses) (known : x ∈ scope) : x ∈ uses :=
    awaits.looked mem known
  have outline : e.outline pat.length = readsAll width.names ++
      block lam.outline (readsAll (arrays ++ dests.flatMap ScatterDest.names)) := by rw [Exp.outline]
  have binders : (e.outline pat.length).binders = lam.outline.binders := by simp [outline]
  have inDests (d : ScatterDest) (mem : d ∈ dests) : d.array ∈ arrays ++ dests.flatMap ScatterDest.names :=
    List.mem_append_right _ (List.mem_flatMap.mpr ⟨d, mem, by simp [ScatterDest.names]⟩)
  have whole : Awaits bound scope s (readsAll width.names ++
      block lam.outline (readsAll (arrays ++ dests.flatMap ScatterDest.names))) := outline ▸ inside
  have knownWidth := (Awaits.first whole).reads
  have known : ∀ x ∈ arrays ++ dests.flatMap ScatterDest.names, x ∈ scope := by
    simpa using (Awaits.second whole).block.2.reads
  have looked (x : Name) (mem : x ∈ arrays ++ dests.flatMap ScatterDest.names) : x ∈ uses :=
    read x (by rw [outline]; simp [Outline.uses, mem]) (known x mem)
  obtain ⟨asks₁, tangents⟩ := destTans_asks (f := f) [] serves
    (fun d mem => known _ (inDests d mem)) (fun d mem => looked _ (inDests d mem)) askedDests
  have drawn : Asks f bound decl scope still _ uses u₁ _ _ := withTangents_asks asks₁.serves pattern.params.2.1
  obtain ⟨asks₃, cs, rfl, found⟩ := bundleNames_asks (f := f) [] drawn.serves
    (fun x mem => known x (by simp [mem])) (fun x mem => looked x (by simp [mem])) asked
  have sofar : Asks f bound decl scope still (pat.map (·.name)) uses s u₃ _ :=
    ((asks₁.widen (by simp)).bind drawn).bind (asks₃.widen (by simp))
  have lamAwaits : Awaits bound scope u₃ lam.outline :=
    (after_readsAll width.names scope ▸ (Awaits.second whole).block.1).drawn sofar fun p mem =>
      binders ▸ apart p mem
  obtain ⟨asks₄, onLam⟩ := onLam scope still uses u₃ lam' u₄ asks₃.serves lamAwaits madeLam
  have after : Asks f bound decl scope still (e.outline pat.length).binders uses _ u₄ fun _ _ => True :=
    binders ▸ ((asks₃.widen (by simp)).bind asks₄).mono fun _ _ _ => trivial
  have onward : Onward scope u₁ u₄ := drawn.onward.trans (asks₃.onward.trans asks₄.onward)
  refine ⟨still, emits_pattern view serves declared awaits (asks₁.widen (by simp)) after (fun q => List.mem_append)
    (lays_pattern pattern asks₁.serves.reserved).2 fun stop fuel σ₀ τ₀ σ τ steady _ => ?_⟩
  rw [binders] at steady ⊢
  exact scatter_shadows view (List.forall_mem_append.mpr ⟨knownWidth, fun x mem => known x (by simp [mem])⟩)
    (fun d mem => known _ (inDests d mem))
    (forall₂_imp_mem found fun x mem c => asks₄.onward.later.kept x (known x (by simp [mem])) c)
    (forall₂_imp_mem tangents fun d mem d' here =>
      { here with array := onward.later.kept _ (known _ (inDests d mem)) _ here.array })
    exact (onLam.mono (by have := asks₁.next_le; have := drawn.next_le; have := asks₃.next_le; omega)
      (fun _ mem => mem) (.refl ..)) steady

end

end Tandem

end Cotangent
