import Cotangent.Proofs.Evaluation.DirectArrays
import Cotangent.Proofs.Evaluation.Ends
/-!
Runs whose accesses nothing guards, construct by construct. A fused loop takes the values of each
operator by their offset, and puts what it scans into columns by number; that these exist rests on an
invariant of the rounds, namely that no group of running values ever changes its length.
-/
namespace Cotangent

open ScalarAlgebra Run

namespace Direct

variable {α β γ : Type}

section

variable (abort : Fault α)

/-- The first `n` of the values and the others, once there are as many. -/
def split (vs : List (Value α)) (n : Nat) : Except (Fault α) (List (Value α) × List (Value α)) :=
  if vs.length < n then .error (.arity n vs.length) else cut abort vs n

def rowsAt (arrays : List (Value α)) (i : Nat) : Except (Fault α) (List (Value α)) :=
  arrays.mapM fun a => row abort a i

def push (columns : List (List β)) (j : Nat) (v : β) : Except (Fault α) (List (List β)) := do
  let column ← entry abort columns j
  return columns.set j (column ++ [v])

/-- Adds one value to each column from number `j` on. -/
def pushAll : Nat → List β → List (List β) → Except (Fault α) (List (List β))
  | _, [], columns => .ok columns
  | j, v :: vs, columns => do pushAll (j + 1) vs (← push abort columns j v)

/-- Writes up to `count` values into one destination. -/
def scatterInto [ScalarAlgebra α] (rank : Nat) :
    Nat → Value α → List (Value α) → List (Value α) →
      Except (Fault α) (Value α × List (Value α) × List (Value α))
  | 0, dest, idxs, vs => .ok (dest, idxs, vs)
  | count + 1, dest, idxs, vs => do
    let (idx, idxs) ← cut abort idxs (min rank idxs.length)
    match vs with
    | [] => .error .shape
    | v :: vs =>
      let ds ← fixedDims idx
      let new ← inBounds (update abort ds dest v)
      scatterInto rank count (new.getD dest) idxs vs

def scatterRow [ScalarAlgebra α] : List ScatterDest → List (Value α) → List (Value α) →
    List (Value α) → Except (Fault α) (List (Value α))
  | d :: ds, dest :: rest, idxs, vs => do
    let (new, idxs, vs) ← scatterInto abort d.shape.length d.count dest idxs vs
    return new :: (← scatterRow ds rest idxs vs)
  | _, dests, _, _ => .ok dests

end

section

variable [ScalarAlgebra α] (abort : Fault α) (run : Body → Run α (List (Value α)))

/-- The one size in a list of one. -/
def size (x : Operand) : Run α Nat := do entry abort (← sizes [x]) 0

def updateAcc (acc : Name) (position values : List Operand) : Run α (Value α) := do
  match ← lookup acc with
  | .acc id arrays =>
    let idx ← operands position
    let ds ← fixedDims idx
    let vs ← operands values
    match ← inBounds (arrays.mapM fun a => index abort ds a) with
    | none => return .acc id arrays
    | some old =>
      let new ← match ((← get).combiners[id]?).join with
        | some op => applyLambda run op (idx ++ old ++ vs)
        | none => pure vs
      checkArity (α := α) arrays.length new.length
      let arrays ← (arrays.zip new).mapM fun p => update (α := α) abort ds p.1 p.2
      return .acc id arrays
  | v => throw (.mismatch .accumulator v)

/-- The other operations access nothing. -/
def basicOp : BasicOp → Run α (Value α)
  | .index array slice => do
    let v ← lookup array
    index abort (← dims slice) v
  | .update array slice value => do
    let v ← lookup array
    let ds ← dims slice
    update abort ds v (← operand value)
  | .concat dim first rest _ => do concat abort dim (← lookups (first :: rest))
  | .rearrange perm array => do rearrange abort (← lookup array) perm
  | .rotate offsets array => do
    let offsets ← offsets.mapM int
    rotate abort offsets (← lookup array)
  | .updateAcc acc position values => updateAcc abort run acc position values
  | op => Run.basicOp run op

def withAcc (inputs : List AccInput) (l : Lambda) : Run α (List (Value α)) := do
  let accs ← inputs.mapM openAcc
  let (accs, rest) ← split abort (← applyLambda run l accs) inputs.length
  let arrays : List (List (Value α)) ← accs.mapM fun v => closeAcc (α := α) v
  return arrays.flatten ++ rest

def round (params : List Name) (counter : Name) (w : IntWidth) (rows : List (Name × Value α))
    (body : Body) (i : Nat) (_ : Unit) : Run α Unit := do
  set counter (.scalar (ofScalar (.int w i)))
  rows.forM fun r => do set r.1 (← row abort r.2 i)
  step run params body

def loop (fuel : Nat) (merge : List (Param × Operand)) (form : LoopForm) (body : Body) :
    Run α (List (Value α)) := do
  let params := merge.map (·.1.name)
  Run.bind params (← operands (merge.map (·.2)))
  match form with
  | .whileHolds cond =>
    repeatWhile (do asBool (← (← lookup cond).asScalar)) (step run params body) fuel
  | .forBelow counter w bound arrays =>
    let sources ← lookups (arrays.map (·.2))
    let n ← int bound
    rounds (round abort run params counter w ((arrays.map (·.1.name)).zip sources) body) n.toNat 0 ()
  lookups params

/-- What a fused loop has computed so far, with a column for each scanned and each mapped value. -/
structure Columns (α : Type) where
  scans : List (List (Value α))
  reduces : List (List (Value α))
  scanned : List (List (Value α))
  mapped : List (List (Value α))

/-- Combines each group of running values with its segment of the new ones. The groups before took
    `offset` of those, and `emit` gets what comes of each group with its offset. -/
def groups (emit : Nat → List (Value α) → β → Except (Fault α) β) (vs : List (Value α)) :
    List Lambda → List (List (Value α)) → Nat → β → Run α (List (List (Value α)) × β)
  | op :: ops, acc :: accs, offset, b => do
    let part ← segment abort vs offset acc.length
    let new ← combine run op acc part
    let b ← emit offset new b
    let (rest, b) ← groups emit vs ops accs (offset + new.length) b
    return (new :: rest, b)
  | _, accs, _, b => return (accs, b)

def fusedRow (arrays : List (Value α)) (scans : List Combiner) (reduces : List Reduction)
    (map : Lambda) (scanCount reduceCount mapCount : Nat) (i : Nat) (s : Columns α) :
    Run α (Columns α) := do
  let new ← applyLambda run map (← rowsAt abort arrays i)
  let (scanValues, rest) ← split abort new scanCount
  let (reduceValues, mapValues) ← split abort rest reduceCount
  let (scanAccs, scanned) ←
    groups abort run (pushAll abort) scanValues (scans.map (·.op)) s.scans 0 s.scanned
  let (reduceAccs, _) ←
    groups abort run (fun _ _ _ => .ok ()) reduceValues (reduces.map (·.combiner.op)) s.reduces 0 ()
  checkArity (α := α) mapCount mapValues.length
  return ⟨scanAccs, reduceAccs, scanned, s.mapped.zipWith (fun c v => c ++ [v]) mapValues⟩

def screma (width : Operand) (arrays : List Name) (scans : List Combiner)
    (reduces : List Reduction) (map : Lambda) : Run α (List (Value α)) := do
  let n ← size abort width
  let arrays ← lookups arrays
  let scanAccs ← scans.mapM fun c => operands c.neutral
  let reduceAccs ← reduces.mapM fun r => operands r.combiner.neutral
  let scanCount := scanAccs.flatten.length
  let reduceCount := reduceAccs.flatten.length
  let mapCount := map.ret.length - (scanCount + reduceCount)
  let s ← rounds (fusedRow abort run arrays scans reduces map scanCount reduceCount mapCount) n 0
    ⟨scanAccs, reduceAccs, List.replicate scanCount [], List.replicate mapCount []⟩
  return s.scanned.map .array ++ s.reduces.flatten ++ s.mapped.map .array

def histRow : List Histogram → List (List (Value α)) → List (Value α) → List (Value α) →
    Run α (List (List (Value α)))
  | h :: hs, dests :: rest, idxs, vs => do
    let (idx, idxs) ← cut abort idxs (min h.shape.length idxs.length)
    let (part, vs) ← cut abort vs (min dests.length vs.length)
    let ds ← fixedDims idx
    let new ← match ← inBounds (dests.mapM fun d => index abort ds d) with
      | none => pure dests
      | some old => do
        let new ← combine run h.combiner.op old part
        (dests.zip new).mapM fun p => update (α := α) abort ds p.1 p.2
    return new :: (← histRow hs rest idxs vs)
  | _, dests, _, _ => return dests

def histRound (ops : List Histogram) (bucket : Lambda) (arrays : List (Value α)) (indexCount : Nat)
    (i : Nat) (dests : List (List (Value α))) : Run α (List (List (Value α))) := do
  let (idxs, vs) ← split abort (← applyLambda run bucket (← rowsAt abort arrays i)) indexCount
  histRow abort run ops dests idxs vs

def hist (width : Operand) (ops : List Histogram) (bucket : Lambda) (arrays : List Name) :
    Run α (List (Value α)) := do
  let n ← size abort width
  let arrays ← lookups arrays
  let dests ← ops.mapM fun h => lookups h.dests
  return (← rounds (histRound abort run ops bucket arrays (bucketIndices ops)) n 0 dests).flatten

def scatterRound (dests : List ScatterDest) (l : Lambda) (arrays : List (Value α))
    (indexCount : Nat) (i : Nat) (outs : List (Value α)) : Run α (List (Value α)) := do
  let (idxs, vs) ← split abort (← applyLambda run l (← rowsAt abort arrays i)) indexCount
  scatterRow abort dests outs idxs vs

def scatter (width : Operand) (l : Lambda) (arrays : List Name) (dests : List ScatterDest) :
    Run α (List (Value α)) := do
  let n ← size abort width
  let arrays ← lookups arrays
  let outs ← lookups (dests.map (·.array))
  rounds (scatterRound abort run dests l arrays (scatterIndices dests)) n 0 outs

def exp (fuel : Nat) : Exp → Run α (List (Value α))
  | .basic op => do return [← basicOp abort run op]
  | .loop merge form body => loop abort run fuel merge form body
  | .withAcc inputs l => withAcc abort run inputs l
  | .screma width arrays scans reduces map => screma abort run width arrays scans reduces map
  | .hist width ops bucket arrays => hist abort run width ops bucket arrays
  | .scatter width l arrays dests => scatter abort run width l arrays dests
  | e => Run.exp run fuel e

def stm (fuel : Nat) (s : Stm) : Run α Unit := do
  Run.bind (s.pat.map (·.name)) (← exp abort run fuel s.exp)

end

def runBody [ScalarAlgebra α] (abort : Fault α) : Nat → Body → Run α (List (Value α))
  | 0, _ => outOfFuel
  | fuel + 1, b => do
    b.stms.forM (stm abort (runBody abort fuel) fuel)
    operands b.result

/-- Plain scalars, where division is not guarded either. -/
@[reducible] def algebra (abort : Fault) : ScalarAlgebra Scalar :=
  { (inferInstance : ScalarAlgebra Scalar) with binary := binary abort }

/-- The results of a lambda, of a run in which every unguarded access that makes no sense ends in
    `abort`. -/
def interp (abort : Fault) (l : Lambda) (args : List Value) (fuel : Nat) :
    Option (Except Fault (List Value)) :=
  letI := algebra abort
  (applyLambda (runBody abort fuel) l args).run' Store.initial

/-! Accesses that are in range on their own. -/

section

variable {abort : Fault α}

@[simp] theorem lift_ok (a : β) : (liftM (.ok a : Except (Fault α) β) : Run α β) = pure a := rfl

theorem lift_bind (x : Except (Fault α) β) (f : β → Except (Fault α) γ) :
    (liftM (x >>= f) : Run α γ) = liftM x >>= fun a => liftM (f a) := by
  cases x <;> rfl

/-- Only what a computation can end with matters to the rest. -/
theorem bind_congr_of_ends {m : Run α β} {f g : β → Run α γ}
    (agree : ∀ a σ τ, Ends m σ a τ → f a = g a) : (m >>= f) = (m >>= g) := by
  funext σ
  show outcome (m >>= f) σ = outcome (m >>= g) σ
  rw [outcome_bind, outcome_bind]
  cases ran : outcome m σ with
  | none => rfl
  | some r =>
    cases r with
    | error e => rfl
    | ok p => exact congrFun (agree p.1 σ p.2 ran) p.2

theorem bind_congr_of_ok {x : Except (Fault α) β} {f g : β → Run α γ}
    (agree : ∀ a, x = .ok a → f a = g a) : (liftM x >>= f) = (liftM x >>= g) :=
  bind_congr_of_ends fun a _ _ ends => agree a ((ends_lift ..).mp ends).1

theorem split_eq (vs : List (Value α)) (n : Nat) : split abort vs n = splitValues vs n := by
  unfold split splitValues
  by_cases short : vs.length < n
  · rw [if_pos short, if_pos short]
  · rw [if_neg short, if_neg short, cut_of_le (Nat.le_of_not_lt short)]

theorem rowsAt_eq (arrays : List (Value α)) (i : Nat) :
    rowsAt abort arrays i = Cotangent.rowsAt (arrays.map Value.table) i := by
  rw [rowsAt, Cotangent.rowsAt, List.mapM_map]
  exact mapM_congr fun a _ => (row_eq a i).trans (pick_table a i).symm

theorem withAcc_eq (run : Body → Run α (List (Value α))) (inputs : List AccInput) (l : Lambda) :
    withAcc abort run inputs l = Run.withAcc run inputs l := by
  simp only [withAcc, Run.withAcc, split_eq]

variable [ScalarAlgebra α]

theorem scatterInto_eq (rank count : Nat) (dest : Value α) (idxs vs : List (Value α)) :
    scatterInto abort rank count dest idxs vs = Run.scatterInto rank count dest idxs vs := by
  induction count generalizing dest idxs vs with
  | zero => rfl
  | succ count ih =>
    cases vs with
    | nil => simp only [scatterInto, Run.scatterInto, cut_min, ok_bind]
    | cons v vs => simp only [scatterInto, Run.scatterInto, cut_min, ok_bind, update_eq, ih]

theorem scatterRow_eq (ds : List ScatterDest) (dests idxs vs : List (Value α)) :
    scatterRow abort ds dests idxs vs = Run.scatterRow ds dests idxs vs := by
  induction ds generalizing dests idxs vs with
  | nil => rfl
  | cons d ds ih =>
    cases dests with
    | nil => rfl
    | cons dest dests => simp only [scatterRow, Run.scatterRow, scatterInto_eq, ih]

theorem size_eq (x : Operand) : (size abort x : Run α Nat) = Run.size x := by
  simp only [size, sizes, List.mapM_cons, List.mapM_nil, pure_bind, bind_assoc]
  exact (bind_congr fun n => rfl).trans (bind_pure _)

variable (run : Body → Run α (List (Value α)))

theorem updateAcc_eq (acc : Name) (position values : List Operand) :
    updateAcc abort run acc position values = Run.updateAcc run acc position values := by
  simp only [updateAcc, index_eq, update_eq]
  rfl

theorem basicOp_eq (op : BasicOp) : basicOp abort run op = Run.basicOp run op := by
  cases op with
  | index array slice => simp only [basicOp, Run.basicOp, index_eq]
  | update array slice value => simp only [basicOp, Run.basicOp, update_eq]
  | concat dim first rest width => simp only [basicOp, Run.basicOp, concat_eq]
  | rearrange perm array => simp only [basicOp, Run.basicOp, rearrange_eq]
  | rotate offsets array => simp only [basicOp, Run.basicOp, rotate_eq]
  | updateAcc acc position values => exact updateAcc_eq run acc position values
  | _ => rfl

theorem round_eq (params : List Name) (counter : Name) (w : IntWidth) (names : List Name)
    (sources : List (Value α)) (body : Body) (i : Nat) (u : Unit) :
    round abort run params counter w (names.zip sources) body i u =
      Run.round run params counter w (names.zip (sources.map Value.table)) body i u := by
  have rows : ((names.zip (sources.map Value.table)).forM fun r => do
      Run.set r.1 (← pick (← r.2) i) : Run α Unit) =
      ((names.zip sources).forM fun r => do Run.set r.1 (← row abort r.2 i)) := by
    rw [List.zip_map_right, List.forM_eq_forM, List.forM_eq_forM, List.forM_map]
    refine congrArg (forM _ ·) (funext fun r => ?_)
    simp only [row_eq, ← pick_table, lift_bind, bind_assoc, Prod.map]
    rfl
  simp only [round, Run.round, rows]

theorem loop_eq (fuel : Nat) (merge : List (Param × Operand)) (form : LoopForm) (body : Body) :
    loop abort run fuel merge form body = Run.loop run fuel merge form body := by
  cases form with
  | whileHolds cond => rfl
  | forBelow counter w bound arrays =>
    have rounds (sources : List (Value α)) :
        round abort run (merge.map (·.1.name)) counter w ((arrays.map (·.1.name)).zip sources) body =
          Run.round run (merge.map (·.1.name)) counter w
            ((arrays.map (·.1.name)).zip (sources.map Value.table)) body :=
      funext fun i => funext fun u => round_eq run _ counter w _ sources body i u
    simp only [loop, Run.loop, rounds]

theorem histRow_eq (hs : List Histogram) (dests : List (List (Value α))) (idxs vs : List (Value α)) :
    histRow abort run hs dests idxs vs = Run.histRow run hs dests idxs vs := by
  induction hs generalizing dests idxs vs with
  | nil => rfl
  | cons h hs ih =>
    cases dests with
    | nil => rfl
    | cons dests rest =>
      simp only [histRow, Run.histRow, cut_min, index_eq, update_eq, ih]
      rfl

theorem hist_eq (width : Operand) (ops : List Histogram) (bucket : Lambda) (arrays : List Name) :
    hist abort run width ops bucket arrays = Run.hist run width ops bucket arrays := by
  have rounds (arrays : List (Value α)) (count : Nat) :
      histRound abort run ops bucket arrays count =
        Run.histRound run ops bucket (arrays.map Value.table) count := by
    funext i dests
    simp only [histRound, Run.histRound, split_eq, rowsAt_eq, histRow_eq]
  simp only [hist, Run.hist, size_eq, rounds]

theorem scatter_eq (width : Operand) (l : Lambda) (arrays : List Name) (dests : List ScatterDest) :
    scatter abort run width l arrays dests = Run.scatter run width l arrays dests := by
  have rounds (arrays : List (Value α)) (count : Nat) :
      scatterRound abort run dests l arrays count =
        Run.scatterRound run dests l (arrays.map Value.table) count := by
    funext i outs
    simp only [scatterRound, Run.scatterRound, split_eq, rowsAt_eq, scatterRow_eq]
  simp only [scatter, Run.scatter, size_eq, rounds]

end

/-! The fused loop. -/

section

variable {abort : Fault α}

/-- What `pushAll` makes of the columns if they are all there. -/
def extend : Nat → List β → List (List β) → List (List β)
  | _, [], columns => columns
  | j, v :: vs, columns => extend (j + 1) vs (columns.modify j (· ++ [v]))

@[simp] theorem length_extend (j : Nat) (vs : List β) (columns : List (List β)) :
    (extend j vs columns).length = columns.length := by
  induction vs generalizing j columns with
  | nil => rfl
  | cons v vs ih => simp [extend, ih]

theorem extend_append (j : Nat) (xs ys : List β) (columns : List (List β)) :
    extend (j + xs.length) ys (extend j xs columns) = extend j (xs ++ ys) columns := by
  induction xs generalizing j columns with
  | nil => rfl
  | cons x xs ih =>
    rw [List.cons_append, extend, extend, ← ih, List.length_cons, Nat.add_right_comm, Nat.add_assoc]

theorem pushAll_eq (j : Nat) (vs : List β) (columns : List (List β))
    (room : j + vs.length ≤ columns.length) :
    pushAll abort j vs columns = .ok (extend j vs columns) := by
  induction vs generalizing j columns with
  | nil => rfl
  | cons v vs ih =>
    rw [List.length_cons] at room
    have inside : j < columns.length := by omega
    have pushed : push abort columns j v = .ok (columns.modify j (· ++ [v])) := by
      rw [push, entry_of_lt inside, List.modify_eq_set, List.getElem?_eq_getElem inside]
      rfl
    rw [pushAll, pushed, ok_bind, extend]
    exact ih (j + 1) _ (by rw [List.length_modify]; omega)

/-- A value for each column is put at the end of each column. -/
theorem extend_zipWith (before columns : List (List β)) (row : List β)
    (same : row.length = columns.length) :
    extend before.length row (before ++ columns) =
      before ++ columns.zipWith (fun c v => c ++ [v]) row := by
  induction row generalizing before columns with
  | nil =>
    obtain rfl := List.length_eq_zero_iff.mp same.symm
    rfl
  | cons v row ih =>
    cases columns with
    | nil => cases same
    | cons c columns =>
      have rest := ih (before ++ [c ++ [v]]) columns (Nat.succ.inj same)
      have added : (before ++ c :: columns).modify before.length (· ++ [v]) =
          before ++ [c ++ [v]] ++ columns := by
        rw [List.append_assoc]
        exact List.modifyTailIdx_add (List.modifyHead (· ++ [v])) 0 before (c :: columns)
      rw [List.length_append] at rest
      rw [extend, added, List.zipWith_cons_cons]
      exact rest.trans (List.append_assoc ..)

/-- What `emit` does to a state with room for `room` values. Values may come in several portions. -/
structure Emits (emit : Nat → List (Value α) → β → Except (Fault α) β)
    (put : Nat → List (Value α) → β → β) (room : β → Nat) : Prop where
  emits : ∀ j new b, j + new.length ≤ room b → emit j new b = .ok (put j new b)
  room : ∀ j new b, room (put j new b) = room b
  append : ∀ j new more b, put (j + new.length) more (put j new b) = put j (new ++ more) b
  nil : ∀ j b, put j [] b = b

theorem emits_pushAll (abort : Fault α) : Emits (pushAll abort) (extend (β := Value α)) List.length where
  emits := pushAll_eq
  room := length_extend
  append := extend_append
  nil _ _ := rfl

theorem emits_nothing (n : Nat) :
    Emits (fun _ _ _ => (.ok () : Except (Fault α) Unit)) (fun _ _ u => u) fun _ => n where
  emits _ _ _ _ := rfl
  room _ _ _ := rfl
  append _ _ _ _ := rfl
  nil _ _ := rfl

variable {run : Body → Run α (List (Value α))}

theorem ends_combine_length {l : Lambda} {acc vs new : List (Value α)} {σ τ : Store α}
    (ends : Ends (combine run l acc vs) σ new τ) : new.length = acc.length := by
  simp only [combine, ends_bind, ends_checkArity, ends_pure] at ends
  obtain ⟨_, _, -, _, _, ⟨same, -⟩, rfl, -⟩ := ends
  exact same

/-- The operator's arity is checked on every call, so the groups keep their lengths. -/
theorem ends_combineGroups_lengths {ops : List Lambda} {accs news : List (List (Value α))}
    {vs : List (Value α)} {σ τ : Store α} (ends : Ends (combineGroups run ops accs vs) σ news τ) :
    news.map List.length = accs.map List.length := by
  induction ops generalizing accs news vs σ with
  | nil =>
    obtain ⟨rfl, -⟩ := (ends_pure ..).mp ends
    rfl
  | cons op ops ih =>
    cases accs with
    | nil =>
      obtain ⟨rfl, -⟩ := (ends_pure ..).mp ends
      rfl
    | cons acc accs =>
      simp only [combineGroups, ends_bind, ends_pure] at ends
      obtain ⟨new, _, here, rest, _, there, rfl, rfl⟩ := ends
      rw [List.map_cons, List.map_cons, ends_combine_length here, ih there]

theorem groups_eq (abort : Fault α) (run : Body → Run α (List (Value α))) {emit : Nat → List (Value α) → β → Except (Fault α) β}
    {put : Nat → List (Value α) → β → β} {room : β → Nat} (emits : Emits emit put room)
    {ops : List Lambda} {accs : List (List (Value α))} (paired : ops.length = accs.length)
    (before left : List (Value α)) (b : β) (enough : accs.flatten.length ≤ left.length)
    (fits : before.length + accs.flatten.length ≤ room b) :
    groups abort run emit (before ++ left) ops accs before.length b =
      (fun news => (news, put before.length news.flatten b)) <$> combineGroups run ops accs left := by
  induction ops generalizing accs before left b with
  | nil =>
    obtain rfl := List.length_eq_zero_iff.mp paired.symm
    simp [groups, combineGroups, emits.nil]
  | cons op ops ih =>
    cases accs with
    | nil => cases paired
    | cons acc accs =>
      rw [List.flatten_cons, List.length_append] at enough fits
      have part : segment abort (before ++ left) before.length acc.length =
          .ok (left.take acc.length) := segment_append (by omega)
      have next : before ++ left = (before ++ left.take acc.length) ++ left.drop acc.length := by
        rw [List.append_assoc, List.take_append_drop]
      have taken : (before ++ left.take acc.length).length = before.length + acc.length := by
        rw [List.length_append, List.length_take, Nat.min_eq_left (by omega)]
      simp only [groups, combineGroups, part, lift_ok, pure_bind, map_bind, map_pure]
      refine bind_congr_of_ends fun new _ _ ends => ?_
      have same := ends_combine_length ends
      have rest := ih (Nat.succ.inj paired) (before ++ left.take acc.length) (left.drop acc.length)
        (put before.length new b) (by rw [List.length_drop]; omega) (by rw [taken, emits.room]; omega)
      rw [← next, taken, ← same] at rest
      rw [emits.emits _ _ _ (by omega), lift_ok, pure_bind, rest]
      simp only [bind_map_left, ← same, emits.append, List.flatten_cons]

/-- The columns of rows with `n` entries. -/
def transpose (n : Nat) (rows : List (List β)) : List (List β) :=
  (List.range n).map fun j => rows.filterMap (·[j]?)

theorem columns_eq (n : Nat) (rows : List (List (Value α))) :
    columns n rows = (transpose n rows).map .array := by
  rw [columns, transpose, List.map_map]
  rfl

theorem transpose_nil (n : Nat) : transpose n ([] : List (List β)) = List.replicate n [] := by
  simp [transpose, List.map_const']

theorem transpose_append {n : Nat} {row : List β} (same : row.length = n) (rows : List (List β)) :
    transpose n (rows ++ [row]) = (transpose n rows).zipWith (fun c v => c ++ [v]) row := by
  refine List.ext_getElem (by simp [transpose, same]) fun j inside _ => ?_
  have inRow : j < row.length := by simpa [transpose, same] using inside
  simp [transpose, inRow]

/-- What a fused loop has computed, by columns. -/
def byColumn (scanCount mapCount : Nat) (s : Fused α) : Columns α :=
  ⟨s.scans, s.reduces, transpose scanCount s.scanned.reverse, transpose mapCount s.mapped.reverse⟩

/-- The groups of running values are as long as at the beginning. -/
structure Alike (s t : Fused α) : Prop where
  scans : s.scans.map List.length = t.scans.map List.length
  reduces : s.reduces.map List.length = t.reduces.map List.length

@[simp] theorem length_transpose (n : Nat) (rows : List (List β)) : (transpose n rows).length = n := by
  simp [transpose]

theorem length_of_splitValues {vs : List (Value α)} {n : Nat} {parts : List (Value α) × List (Value α)}
    (known : splitValues vs n = .ok parts) : parts.1.length = n := by
  obtain ⟨enough, rfl⟩ := splitValues_ok known
  simp only [List.length_take]
  omega

theorem length_flatten_of_lengths {xs ys : List (List β)}
    (same : xs.map List.length = ys.map List.length) : xs.flatten.length = ys.flatten.length := by
  rw [List.length_flatten, List.length_flatten, same]

theorem Alike.trans {s t u : Fused α} (first : Alike s t) (second : Alike t u) : Alike s u :=
  ⟨first.scans.trans second.scans, first.reduces.trans second.reduces⟩

variable {scans : List Combiner} {reduces : List Reduction} {map : Lambda} {mapCount : Nat}

theorem ends_fusedRow_alike {tables : List (Table α)} {i : Nat} {s t : Fused α} {σ τ : Store α}
    (ends : Ends (Run.fusedRow run tables scans reduces map mapCount i s) σ t τ) : Alike t s := by
  simp only [Run.fusedRow, ends_bind, ends_pure] at ends
  obtain ⟨_, _, -, _, _, -, _, _, -, _, _, -, _, _, scanned, _, _, reduced, _, _, -, rfl, -⟩ := ends
  exact ⟨ends_combineGroups_lengths scanned, ends_combineGroups_lengths reduced⟩

/-- Rounds that keep an invariant may be seen through a view that each of them respects. -/
theorem rounds_map {step : Nat → β → Run α β} {step' : Nat → γ → Run α γ} (view : β → γ)
    (invariant : β → Prop)
    (agree : ∀ i b, invariant b → step' i (view b) = view <$> step i b)
    (keeps : ∀ i b c σ τ, invariant b → Ends (step i b) σ c τ → invariant c) (n i : Nat) (b : β)
    (holds : invariant b) : rounds step' n i (view b) = view <$> rounds step n i b := by
  induction n generalizing i b with
  | zero => rfl
  | succ n ih =>
    simp only [rounds, agree i b holds, bind_map_left, map_bind]
    exact bind_congr_of_ends fun c σ τ ends => ih (i + 1) c (keeps i b c σ τ holds ends)

theorem fusedRow_eq {first s : Fused α} (arrays : List (Value α))
    (scanned : first.scans.length = scans.length) (reduced : first.reduces.length = reduces.length)
    (alike : Alike s first) (i : Nat) :
    fusedRow abort run arrays scans reduces map first.scans.flatten.length
        first.reduces.flatten.length mapCount i (byColumn first.scans.flatten.length mapCount s) =
      byColumn first.scans.flatten.length mapCount <$>
        Run.fusedRow run (arrays.map Value.table) scans reduces map mapCount i s := by
  rw [← length_flatten_of_lengths alike.scans, ← length_flatten_of_lengths alike.reduces]
  simp only [fusedRow, Run.fusedRow, rowsAt_eq, split_eq, map_bind, map_pure, byColumn]
  refine bind_congr fun args => bind_congr fun new => ?_
  refine bind_congr_of_ok fun parts cut => bind_congr_of_ok fun others further => ?_
  have scanValues := length_of_splitValues cut
  have reduceValues := length_of_splitValues further
  have scansPaired : (scans.map (·.op)).length = s.scans.length := by
    simpa [scanned] using (congrArg List.length alike.scans).symm
  have reducesPaired : (reduces.map (·.combiner.op)).length = s.reduces.length := by
    simpa [reduced] using (congrArg List.length alike.reduces).symm
  have scanning := groups_eq abort run (emits_pushAll abort) scansPaired [] parts.1
    (transpose s.scans.flatten.length s.scanned.reverse) (by omega) (by simp)
  have reducing := groups_eq abort run (emits_nothing s.reduces.flatten.length) reducesPaired []
    others.1 () (by omega) (by simp)
  simp only [List.nil_append, List.length_nil] at scanning reducing
  simp only [scanning, reducing, bind_map_left]
  refine bind_congr_of_ends fun scanAccs _ _ scanEnds => bind_congr fun reduceAccs => ?_
  have scanCount := length_flatten_of_lengths (ends_combineGroups_lengths scanEnds)
  have pushed := extend_zipWith [] (transpose s.scans.flatten.length s.scanned.reverse)
    scanAccs.flatten (by rw [length_transpose, scanCount])
  refine bind_congr_of_ends fun _ σ τ ends => ?_
  have mapValues : others.2.length = mapCount := ((ends_checkArity ..).mp ends).1
  simp only [List.reverse_cons, transpose_append scanCount, transpose_append mapValues]
  exact congrArg (fun columns => pure (Columns.mk scanAccs reduceAccs columns _)) pushed

/-- No group ever changes its length, so every round finds its columns and segments. -/
theorem fusedRounds_eq (abort : Fault α) (run : Body → Run α (List (Value α)))
    (arrays : List (Value α)) (scans : List Combiner) (reduces : List Reduction) (map : Lambda)
    (mapCount : Nat) (first : Fused α)
    (scanned : first.scans.length = scans.length) (reduced : first.reduces.length = reduces.length)
    (n : Nat) :
    rounds (fusedRow abort run arrays scans reduces map first.scans.flatten.length
        first.reduces.flatten.length mapCount) n 0
        (byColumn first.scans.flatten.length mapCount first) =
      byColumn first.scans.flatten.length mapCount <$>
        rounds (Run.fusedRow run (arrays.map Value.table) scans reduces map mapCount) n 0 first :=
  rounds_map _ (fun s => Alike s first) (fun i _ alike => fusedRow_eq arrays scanned reduced alike i)
    (fun _ _ _ _ _ alike ends => (ends_fusedRow_alike ends).trans alike) n 0 first ⟨rfl, rfl⟩

variable [ScalarAlgebra α]

theorem screma_eq (width : Operand) (arrays : List Name) (scans : List Combiner)
    (reduces : List Reduction) (map : Lambda) :
    screma abort run width arrays scans reduces map =
      Run.screma run width arrays scans reduces map := by
  simp only [screma, Run.screma, size_eq]
  refine bind_congr fun n => bind_congr fun arrays => ?_
  refine bind_congr_of_ends fun scanAccs _ _ scanEnds => ?_
  refine bind_congr_of_ends fun reduceAccs _ _ reduceEnds => ?_
  generalize map.ret.length - (scanAccs.flatten.length + reduceAccs.flatten.length) = mapCount
  have rounds := fusedRounds_eq abort run arrays scans reduces map mapCount
    ⟨scanAccs, reduceAccs, [], []⟩ (ends_mapM_length scanEnds) (ends_mapM_length reduceEnds) n
  simp only [byColumn, List.reverse_nil, transpose_nil] at rounds
  simp only [rounds, bind_map_left, columns_eq]
  rfl

theorem exp_eq (fuel : Nat) (e : Exp) : exp abort run fuel e = Run.exp run fuel e := by
  cases e with
  | basic op => simp only [exp, Run.exp, basicOp_eq]
  | loop merge form body => exact loop_eq run fuel merge form body
  | withAcc inputs l => exact withAcc_eq run inputs l
  | screma width arrays scans reduces map => exact screma_eq width arrays scans reduces map
  | hist width ops bucket arrays => exact hist_eq run width ops bucket arrays
  | scatter width l arrays dests => exact scatter_eq run width l arrays dests
  | _ => rfl

theorem runBody_eq (abort : Fault α) (fuel : Nat) : runBody abort fuel = Run.runBody fuel := by
  induction fuel with
  | zero => rfl
  | succ fuel ih =>
    funext b
    have each : stm abort (runBody abort fuel) fuel = Run.stm (Run.runBody fuel) fuel := by
      funext s
      rw [ih, stm, Run.stm, exp_eq]
    rw [runBody, Run.runBody, each]

end

theorem algebra_eq (abort : Fault) : algebra abort = instScalarAlgebraScalar := by
  have guarded : binary abort = BinaryOp.apply := by
    funext op a b
    exact binary_eq op a b
  rw [algebra, guarded]
  rfl

end Direct

/-- No run of any lambda, checked or not, on whatever arguments and however far it gets, makes an
    access that its own checks do not cover: a run in which such an access ends in `abort` comes to
    the same as one in which there is none, for every `abort`. -/
theorem interp_stays_in_range (abort : Fault) (l : Lambda) (args : List Value) (fuel : Nat) :
    Direct.interp abort l args fuel = l.interp args fuel := by
  rw [Direct.interp, Direct.algebra_eq, Direct.runBody_eq]
  rfl

/-- The operator returns one value more than it should, so the next row would find no segment. -/
def growingReduction : Lambda :=
  let t : Ty := .scalar (.int .i64)
  let numbers : Ty := .array (.int .i64) [.const (.int .i64 2)] false
  let op : Lambda := ⟨[⟨⟨1⟩, t⟩, ⟨⟨2⟩, t⟩], ⟨[], [.var ⟨1⟩, .var ⟨2⟩]⟩, [t, t]⟩
  let pass : Lambda := ⟨[⟨⟨3⟩, t⟩], ⟨[], [.var ⟨3⟩]⟩, [t]⟩
  ⟨[⟨⟨0⟩, numbers⟩],
    ⟨[⟨[⟨⟨4⟩, t⟩], .none, .screma (.const (.int .i64 2)) [⟨0⟩] []
        [⟨true, ⟨op, [.const (.int .i64 0)]⟩⟩] pass⟩],
      [.var ⟨4⟩]⟩, [t]⟩

example : Direct.interp (.assertion "out of range") growingReduction
    [.array [.scalar (.int .i64 3), .scalar (.int .i64 4)]] 3 = some (.error (.arity 1 2)) := by rfl

end Cotangent
