import Cotangent.Proofs.Evaluation.Contracts
/-!
What an expression owes to a contract: its constants have the property, the bodies it enters and the
operators it keeps meet the contract, it is no loop with a condition if runs have to come to an end, and
the counter of a for loop has the property in every round. An expression that owes nothing more meets the
contract, one case for each construct; a body meets it if its statements do.
-/
namespace Cotangent

open ScalarAlgebra Run

section

variable {α : Type} [ScalarAlgebra α]

/-- What a for loop does before its rounds: it binds the loop parameters and reads the arrays and the
    bound. -/
def Run.loopEntry (merge : List (Param × Operand)) (bound : Operand) (sources : List Name) :
    Run α (List (Value α) × Int) := do
  Run.bind (merge.map (·.1.name)) (← operands (merge.map (·.2)))
  let vs ← lookups sources
  return (vs, ← int bound)

theorem loop_forBelow_eq (run : Body → Run α (List (Value α))) (fuel : Nat)
    (merge : List (Param × Operand)) (counter : Name) (w : IntWidth) (bound : Operand)
    (arrays : List (Param × Name)) (b : Body) :
    loop run fuel merge (.forBelow counter w bound arrays) b = (do
      let entry ← loopEntry merge bound (arrays.map (·.2))
      let rows := (arrays.map (·.1.name)).zip (entry.1.map Value.table)
      rounds (round run (merge.map (·.1.name)) counter w rows b) entry.2.toNat 0 ()
      lookups (merge.map (·.1.name))) := by
  simp [loop, loopEntry]

/-- The width of the counter and the bound of the for loop that a run of the expression enters from the
    store, if it enters one. -/
def Exp.bound? (e : Exp) (σ : Store α) : Option (IntWidth × Int) :=
  match e with
  | .loop merge (.forBelow _ w bound arrays) _ =>
    match outcome (loopEntry merge bound (arrays.map (·.2))) σ with
    | some (.ok (entry, _)) => some (w, entry.2)
    | _ => none
  | _ => none

theorem bound_of_entry {merge : List (Param × Operand)} {counter : Name} {w : IntWidth}
    {bound : Operand} {arrays : List (Param × Name)} {b : Body} {σ τ : Store α}
    {entry : List (Value α) × Int}
    (ended : Ends (loopEntry merge bound (arrays.map (·.2))) σ entry τ) :
    (Exp.loop merge (.forBelow counter w bound arrays) b).bound? σ = some (w, entry.2) := by
  unfold Ends at ended
  simp [Exp.bound?, ended]

end

/-! Writes of a scatter. -/

section

variable {α : Type} [ScalarAlgebra α] {p : α → Prop}

theorem every_scatterInto {rank count : Nat} {dest new : Value α} {idxs idxs' vs vs' : List (Value α)}
    (every : dest.Every p) (written : ∀ v ∈ vs, v.Every p)
    (known : scatterInto rank count dest idxs vs = .ok (new, idxs', vs')) :
    new.Every p ∧ ∀ v ∈ vs', v.Every p := by
  induction count generalizing dest idxs vs with
  | zero =>
    obtain ⟨rfl, -, rfl⟩ : dest = new ∧ idxs = idxs' ∧ vs = vs' := by
      simpa [scatterInto] using known
    exact ⟨every, written⟩
  | succ count ih =>
    cases vs with
    | nil => simp [scatterInto] at known
    | cons v vs =>
      simp only [scatterInto, except_bind_ok] at known
      obtain ⟨ds, -, updated, known, rest⟩ := known
      obtain ⟨first, later⟩ := List.forall_mem_cons.mp written
      refine ih ?_ later rest
      cases updated with
      | none => exact every
      | some w => exact Value.every_update every first (inBounds_some known)

theorem every_scatterRow {ds : List ScatterDest} {dests news idxs vs : List (Value α)}
    (every : ∀ v ∈ dests, v.Every p) (written : ∀ v ∈ vs, v.Every p)
    (known : scatterRow ds dests idxs vs = .ok news) : ∀ v ∈ news, v.Every p := by
  induction ds generalizing dests idxs vs news with
  | nil =>
    obtain rfl := Except.ok.inj known
    exact every
  | cons d ds ih =>
    cases dests with
    | nil =>
      obtain rfl := Except.ok.inj known
      exact every
    | cons dest dests =>
      simp only [scatterRow, except_bind_ok, except_pure_ok] at known
      obtain ⟨⟨new, idxs', vs'⟩, here, rest, there, rfl⟩ := known
      obtain ⟨first, later⟩ := List.forall_mem_cons.mp every
      obtain ⟨made, left⟩ := every_scatterInto first written here
      exact List.forall_mem_cons.mpr ⟨made, ih later left there⟩

end

namespace Contract

variable {α : Type} {c : Contract α} {σ : Store α} {run : Body → Run α (List (Value α))}
  [ScalarAlgebra α]

/-- What an expression owes to a contract where it is run from the store. -/
structure Owes (c : Contract α) (run : Body → Run α (List (Value α))) (e : Exp) (σ : Store α) :
    Prop where
  grants : ∀ x ∈ e.operands, c.Grants x
  serves : ∀ b ∈ e.bodies, c.Serves run b
  keeps : ∀ op ∈ e.operators, c.operator op
  updates : e.updates → ∀ op, c.operator op → c.Serves run op.body
  repeats : e.repeats → ¬ c.halts
  counts : ∀ w n, e.bound? σ = some (w, n) → ∀ i : Nat, (i : Int) < n → c.leaf (ofScalar (.int w i))

omit [ScalarAlgebra α] in
theorem meets_setRows {rows : List (Name × Table α)} (laid : ∀ r ∈ rows, Laid c.leaf r.2) (i : Nat) :
    c.Meets (rows.forM fun r => do set r.1 (← pick (← r.2) i)) fun _ => True := by
  refine meets_forM fun r mem => ?_
  refine (meets_lift fun _ known => known).bind fun table same => ?_
  refine (meets_lift fun row picked => laid r mem table i row same picked).bind fun row on => ?_
  exact meets_set r.1 on

theorem meets_round {params : List Name} {counter : Name} {w : IntWidth}
    {rows : List (Name × Table α)} {b : Body} (serves : c.Serves run b)
    (laid : ∀ r ∈ rows, Laid c.leaf r.2) {i : Nat} (counts : c.leaf (ofScalar (.int w i))) :
    c.Meets (round run params counter w rows b i ()) fun _ => True := by
  refine (meets_set counter ((Value.every_scalar _).mpr counts)).bind fun _ _ => ?_
  exact (meets_setRows laid i).bind fun _ _ => meets_step params serves

theorem meets_loopEntry {merge : List (Param × Operand)} {bound : Operand} {sources : List Name}
    (inits : ∀ x ∈ merge.map (·.2), c.Grants x) (limit : c.Grants bound) :
    c.Meets (loopEntry merge bound sources) fun entry => c.OnAll entry.1 := by
  refine (meets_operands inits).bind fun vs on => (meets_bindNames _ on).bind fun _ _ => ?_
  refine (meets_lookups sources).bind fun rows onRows => ?_
  exact (meets_int limit).bind fun _ _ => meets_pure onRows

theorem met_loop {merge : List (Param × Operand)} {form : LoopForm} {b : Body} (fuel : Nat)
    (kept : c.Kept σ) (owes : c.Owes run (.loop merge form b) σ) :
    c.Met (loop run fuel merge form b) c.OnAll σ := by
  have serves : c.Serves run b := owes.serves b (by simp [Exp.bodies])
  obtain ⟨inits, further⟩ := List.forall_mem_append.mp owes.grants
  cases form with
  | whileHolds cond =>
    have loops : c.Meets (loop run fuel merge (.whileHolds cond) b) c.OnAll := by
      refine (meets_operands inits).bind fun vs on => (meets_bindNames _ on).bind fun _ _ => ?_
      refine (meets_repeatWhile (owes.repeats rfl) ?_ (meets_step _ serves) fuel).bind fun _ _ =>
        meets_lookups _
      exact (meets_lookup cond).bind fun v _ => (meets_check v.asScalar).bind fun a _ =>
        meets_check (asBool a)
    exact loops σ kept
  | forBelow counter w bound arrays =>
    rw [loop_forBelow_eq]
    have limit : c.Grants bound := further bound (by simp [LoopForm.operands])
    refine (meets_loopEntry inits limit σ kept).bind fun entry τ ended kept on => ?_
    have counts := owes.counts w entry.2 (bound_of_entry ended)
    have laid : ∀ r ∈ (arrays.map (·.1.name)).zip (entry.1.map Value.table), Laid c.leaf r.2 :=
      fun r mem => laid_tables on r.2 (List.of_mem_zip mem).2
    have round (i : Nat) (below : i < 0 + entry.2.toNat) : c.Meets
        (round run (merge.map (·.1.name)) counter w
          ((arrays.map (·.1.name)).zip (entry.1.map Value.table)) b i ()) fun _ => True :=
      meets_round serves laid (counts i (by omega))
    exact ((meets_rounds trivial fun i _ below _ => round i below).bind fun _ _ =>
      meets_lookups _) τ kept

theorem meets_screma {width : Operand} {arrays : List Name} {scans : List Combiner}
    {reduces : List Reduction} {map : Lambda} (size : c.Grants width)
    (scanned : ∀ comb ∈ scans, (∀ x ∈ comb.neutral, c.Grants x) ∧ c.Serves run comb.op.body)
    (reduced : ∀ r ∈ reduces,
      (∀ x ∈ r.combiner.neutral, c.Grants x) ∧ c.Serves run r.combiner.op.body)
    (mapped : c.Serves run map.body) :
    c.Meets (screma run width arrays scans reduces map) c.OnAll := by
  refine (meets_size size).bind fun n _ => (meets_lookups arrays).bind fun vs on => ?_
  refine (meets_mapM fun comb mem => meets_operands (scanned comb mem).1).bind
    fun scanAccs onScans => ?_
  refine (meets_mapM fun r mem => meets_operands (reduced r mem).1).bind
    fun reduceAccs onReduces => ?_
  have start : c.OnFused ⟨scanAccs, reduceAccs, [], []⟩ := ⟨onScans, onReduces, by simp, by simp⟩
  refine (meets_rounds start fun i s _ onS => ?_).bind fun s onS => meets_pure ?_
  · exact meets_fusedRow (fun comb mem => (scanned comb mem).2) (fun r mem => (reduced r mem).2)
      mapped (laid_tables on) _ i onS
  · simp only [OnAll, List.forall_mem_append]
    refine ⟨⟨every_columns _ ?_, onAll_flatten onS.reduces⟩, every_columns _ ?_⟩
    · exact fun row mem => onS.scanned row (List.mem_reverse.mp mem)
    · exact fun row mem => onS.mapped row (List.mem_reverse.mp mem)

theorem meets_stream (closed : Closed c.leaf) {width : Operand} {arrays : List Name}
    {inits : List Operand} {l : Lambda} (grants : ∀ x ∈ width :: inits, c.Grants x)
    (serves : c.Serves run l.body) : c.Meets (stream run width arrays inits l) c.OnAll := by
  obtain ⟨size, initials⟩ := List.forall_mem_cons.mp grants
  refine (meets_int size).bind fun n known => (meets_operands initials).bind fun vs on => ?_
  obtain ⟨a, onA, same⟩ := known
  refine (meets_lookups arrays).bind fun rows onRows => meets_applyLambda serves ?_
  simp only [OnAll, List.forall_mem_append, List.forall_mem_cons]
  exact ⟨⟨closed.chunk a n onA same, on⟩, onRows⟩

theorem meets_histRow {ops : List Histogram} (serves : ∀ h ∈ ops, c.Serves run h.combiner.op.body)
    {dests : List (List (Value α))} {idxs vs : List (Value α)} (on : ∀ ds ∈ dests, c.OnAll ds)
    (onVs : c.OnAll vs) :
    c.Meets (histRow run ops dests idxs vs) fun news => ∀ ds ∈ news, c.OnAll ds := by
  induction ops generalizing dests idxs vs with
  | nil => exact meets_pure on
  | cons h ops ih =>
    cases dests with
    | nil => exact meets_pure on
    | cons ds dests =>
      obtain ⟨first, later⟩ := List.forall_mem_cons.mp on
      refine (meets_check (fixedDims _)).bind fun at_ _ => ?_
      refine (meets_lift fun _ known => known).bind fun old known => ?_
      have rest (new : List (Value α)) (made : c.OnAll new) : c.Meets (do
          return new :: (← histRow run ops dests (idxs.drop h.shape.length) (vs.drop ds.length)))
          fun news => ∀ ds ∈ news, c.OnAll ds := by
        refine (ih (fun g mem => serves g (by simp [mem])) later fun v mem =>
          onVs v (List.mem_of_mem_drop mem)).bind fun news others => ?_
        exact meets_pure (List.forall_mem_cons.mpr ⟨made, others⟩)
      cases old with
      | none => exact (meets_pure first).bind rest
      | some old =>
        have onOld := every_indexed first (inBounds_some known)
        refine (meets_combine (serves h (by simp)) onOld fun v mem =>
          onVs v (List.mem_of_mem_take mem)).bind fun new made => ?_
        refine Meets.bind (meets_mapM fun q mem => meets_lift fun x updated => ?_) rest
        have sides := List.of_mem_zip mem
        exact Value.every_update (first _ sides.1) (made _ sides.2) updated

theorem meets_hist {width : Operand} {ops : List Histogram} {bucket : Lambda} {arrays : List Name}
    (size : c.Grants width) (combined : ∀ h ∈ ops, c.Serves run h.combiner.op.body)
    (serves : c.Serves run bucket.body) : c.Meets (hist run width ops bucket arrays) c.OnAll := by
  refine (meets_size size).bind fun n _ => (meets_lookups arrays).bind fun vs on => ?_
  refine (meets_mapM fun h _ => meets_lookups h.dests).bind fun dests onDests => ?_
  refine (meets_rounds onDests fun i dests _ onDests => ?_).bind fun dests onDests =>
    meets_pure (onAll_flatten onDests)
  refine (meets_lift fun _ known => every_rowsAt (laid_tables on) known).bind fun rows onRows => ?_
  refine (meets_applyLambda serves onRows).bind fun new made => ?_
  refine (meets_lift fun _ known => (splitValues_ok known).2).bind ?_
  rintro _ rfl
  exact meets_histRow combined onDests fun v mem => made v (List.mem_of_mem_drop mem)

theorem meets_scatter {width : Operand} {l : Lambda} {arrays : List Name} {dests : List ScatterDest}
    (size : c.Grants width) (serves : c.Serves run l.body) :
    c.Meets (scatter run width l arrays dests) c.OnAll := by
  refine (meets_size size).bind fun n _ => (meets_lookups arrays).bind fun vs on => ?_
  refine (meets_lookups _).bind fun outs onOuts => meets_rounds onOuts fun i outs _ onOuts => ?_
  refine (meets_lift fun _ known => every_rowsAt (laid_tables on) known).bind fun rows onRows => ?_
  refine (meets_applyLambda serves onRows).bind fun new made => ?_
  refine (meets_lift fun _ known => (splitValues_ok known).2).bind ?_
  rintro _ rfl
  refine meets_lift fun news known => every_scatterRow onOuts ?_ known
  exact fun v mem => made v (List.mem_of_mem_drop mem)

/-- One case for each construct. -/
theorem met_exp (closed : Closed c.leaf) (fuel : Nat) {e : Exp} (kept : c.Kept σ)
    (owes : c.Owes run e σ) : c.Met (exp run fuel e) c.OnAll σ := by
  have grants := owes.grants
  have serves := owes.serves
  cases e with
  | basic op =>
    exact ((meets_basicOp closed grants owes.updates).bind fun v on =>
      meets_pure (List.forall_mem_singleton.mpr on)) σ kept
  | apply func args ret =>
    refine Meets.bind (meets_mapM fun x mem => meets_scalar (grants x mem)) (fun vs _ => ?_) σ kept
    exact (meets_lift fun b known => closed.call func vs b known).bind fun b made =>
      meets_pure (List.forall_mem_singleton.mpr made)
  | branch cond yes no ret sort =>
    refine (meets_scalar (grants cond (by simp [Exp.operands]))).bind (fun a _ => ?_) σ kept
    refine (meets_check (asBool a)).bind fun b _ => ?_
    cases b with
    | false => exact serves no (by simp [Exp.bodies])
    | true => exact serves yes (by simp [Exp.bodies])
  | loop merge form b => exact met_loop fuel kept owes
  | withAcc inputs l =>
    refine meets_withAcc (fun input mem comb combines => ?_) (serves l.body (by simp [Exp.bodies]))
      σ kept
    exact owes.keeps comb.op (List.mem_filterMap.mpr ⟨input, mem, by simp [combines]⟩)
  | screma width arrays scans reduces map =>
    simp only [Exp.operands, List.forall_mem_cons, List.forall_mem_append, List.forall_mem_flatMap]
      at grants
    simp only [Exp.bodies, List.forall_mem_cons, List.forall_mem_append, List.forall_mem_map]
      at serves
    exact meets_screma grants.1 (fun comb mem => ⟨grants.2.1 comb mem, serves.2.1 comb mem⟩)
      (fun r mem => ⟨grants.2.2 r mem, serves.2.2 r mem⟩) serves.1 σ kept
  | stream width arrays form inits l =>
    exact meets_stream closed grants (serves l.body (by simp [Exp.bodies])) σ kept
  | hist width ops bucket arrays =>
    simp only [Exp.bodies, List.forall_mem_cons, List.forall_mem_map] at serves
    exact meets_hist (grants width (by simp [Exp.operands])) serves.2 serves.1 σ kept
  | scatter width l arrays dests =>
    exact meets_scatter (grants width (by simp [Exp.operands])) (serves l.body (by simp [Exp.bodies]))
      σ kept

theorem met_stm (closed : Closed c.leaf) (fuel : Nat) {s : Stm} (kept : c.Kept σ)
    (owes : c.Owes run s.exp σ) : c.Met (stm run fuel s) (fun _ => True) σ :=
  (met_exp closed fuel kept owes).bind fun _ τ _ kept on => meets_bindNames _ on τ kept

/-- The constants among the parts have the property. -/
abbrev GrantsAll (c : Contract α) (parts : List Part) : Prop :=
  ∀ x ∈ parts.flatMap Part.operands, c.Grants x

theorem GrantsAll.mono {parts inner : List Part} (all : c.GrantsAll parts)
    (part : inner.Sublist parts) : c.GrantsAll inner := by
  intro x mem
  obtain ⟨p, isIn, inPart⟩ := List.mem_flatMap.mp mem
  exact all x (List.mem_flatMap.mpr ⟨p, part.subset isIn, inPart⟩)

theorem GrantsAll.exp {b : Body} {s : Stm} (all : c.GrantsAll b.parts) (mem : s ∈ b.stms) :
    ∀ x ∈ s.exp.operands, c.Grants x :=
  fun x inExp => all x (List.mem_flatMap.mpr ⟨.stm s, Body.stm_mem mem, inExp⟩)

theorem GrantsAll.result {b : Body} (all : c.GrantsAll b.parts) : ∀ x ∈ b.result, c.Grants x :=
  fun x mem => all x (List.mem_flatMap.mpr ⟨.body b, by simp [Body.parts_eq], mem⟩)

/-- A body meets the contract if its statements owe it nothing more and its constants have the
    property. -/
theorem serves_runBody (closed : Closed c.leaf) {fuel : Nat} {b : Body}
    (owes : ∀ s ∈ b.stms, ∀ σ, c.Kept σ → c.Owes (runBody fuel) s.exp σ)
    (grants : ∀ x ∈ b.result, c.Grants x) : c.Serves (runBody (fuel + 1)) b := by
  refine (meets_forM fun s mem σ kept => ?_).bind fun _ _ => meets_operands grants
  exact met_stm closed fuel kept (owes s mem σ kept)

end Contract

end Cotangent
