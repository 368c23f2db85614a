import Cotangent.Proofs.Evaluation.Ends
import Cotangent.Proofs.Program.Nesting
import Cotangent.Proofs.Value.Everywhere
/-!
Contracts on runs. A contract names a property of the leaves in the store and one of the combining
operators that wait there, and says whether a run has to come to an end. A run meets it if it keeps both
properties in the store; most runs also end with values whose leaves have the property. Every construct
meets a contract if its constants, the bodies it enters and the operators it keeps do.
-/
namespace Cotangent

open ScalarAlgebra Run

structure Contract (α : Type) where
  leaf : α → Prop
  operator : Lambda → Prop
  halts : Prop

/-- Scalar operations keep the property, and the scalars that a run makes itself have it. -/
structure ScalarAlgebra.Closed {α : Type} [ScalarAlgebra α] (p : α → Prop) : Prop where
  unary : ∀ op a b, p a → ScalarAlgebra.unary op a = .ok b → p b
  binary : ∀ op a b r, p a → p b → ScalarAlgebra.binary op a b = .ok r → p r
  convert : ∀ op a b, p a → ScalarAlgebra.convert op a = .ok b → p b
  call : ∀ func args b, ScalarAlgebra.call func args = .ok b → p b
  member : ∀ w first step i, p first → p step → p (ScalarAlgebra.member w first step i)
  bool : ∀ b, p (ofScalar (.bool b))
  cert : p (ofScalar .cert)
  zero : ∀ t, p (ofScalar (Scalar.zero t))
  /-- The size of a chunk is handed on at the greatest width. -/
  chunk : ∀ a n, p a → asInt a = .ok n → p (ofScalar (.int .i64 n))

/-! Values that come out of several steps. -/

section

variable {α β γ : Type} {p : α → Prop}

/-- The rows of the array that the table was laid out from have the property everywhere. -/
def Laid (p : α → Prop) (t : Table α) : Prop :=
  ∀ (table : Array (Value α)) (i : Int) (row : Value α),
    t = .ok table → pick table i = .ok row → row.Every p

theorem laid_table {v : Value α} (every : v.Every p) : Laid p v.table := by
  intro table i row laid picked
  cases v with
  | array rows =>
    obtain rfl := Except.ok.inj laid
    rw [pick_toArray] at picked
    exact Value.every_row every picked
  | _ => cases laid

theorem laid_tables {vs : List (Value α)} (every : ∀ v ∈ vs, v.Every p) :
    ∀ t ∈ vs.map Value.table, Laid p t := by
  intro t mem
  obtain ⟨v, isIn, rfl⟩ := List.mem_map.mp mem
  exact laid_table (every v isIn)

theorem every_rowsAt {tables : List (Table α)} {i : Nat} {rows : List (Value α)}
    (laid : ∀ t ∈ tables, Laid p t) (known : rowsAt tables i = .ok rows) :
    ∀ row ∈ rows, row.Every p := by
  intro row mem
  obtain ⟨t, isIn, picked⟩ := except_mapM_mem known row mem
  obtain ⟨table, same, picked⟩ := (except_bind_ok ..).mp picked
  exact laid t isIn table i row same picked

theorem every_columns (n : Nat) {rows : List (List (Value α))}
    (every : ∀ row ∈ rows, ∀ v ∈ row, v.Every p) : ∀ v ∈ columns n rows, v.Every p := by
  intro v mem
  obtain ⟨j, -, rfl⟩ := List.mem_map.mp mem
  refine (Value.every_array _).mpr fun w inColumn => ?_
  obtain ⟨row, isRow, at_j⟩ := List.mem_filterMap.mp inColumn
  exact every row isRow w (List.mem_of_getElem? at_j)

theorem every_indexed {ds : List Dim} {vs parts : List (Value α)} (every : ∀ v ∈ vs, v.Every p)
    (known : vs.mapM (Value.index ds) = .ok parts) : ∀ v ∈ parts, v.Every p := by
  intro v mem
  obtain ⟨u, isIn, indexed⟩ := except_mapM_mem known v mem
  exact Value.every_index (every u isIn) indexed

end

namespace Contract

variable {α β γ : Type}

/-- The store is as the contract has it. -/
structure Kept (c : Contract α) (σ : Store α) : Prop where
  vars : ∀ x v, σ.vars.find? x = some v → v.Every c.leaf
  operators : ∀ op, some op ∈ σ.combiners → c.operator op

/-- What the contract asks of a run from one store, besides a property of its value. -/
structure Met (c : Contract α) (m : Run α β) (post : β → Prop) (σ : Store α) : Prop where
  halts : c.halts → outcome m σ ≠ none
  ends : ∀ b τ, Ends m σ b τ → c.Kept τ ∧ post b

/-- The run meets the contract wherever the store is as the contract has it. -/
def Meets (c : Contract α) (m : Run α β) (post : β → Prop) : Prop :=
  ∀ σ, c.Kept σ → c.Met m post σ

/-- The leaves of all of the values have the property. -/
abbrev OnAll (c : Contract α) (vs : List (Value α)) : Prop := ∀ v ∈ vs, v.Every c.leaf

variable {c : Contract α} {σ τ : Store α}

theorem kept_initial (c : Contract α) : c.Kept Store.initial :=
  ⟨by simp [Store.initial, NameTable.find_empty], by simp [Store.initial]⟩

theorem Kept.bound (kept : c.Kept σ) (xs : List Name) {vs : List (Value α)} (on : c.OnAll vs) :
    c.Kept (σ.bound xs vs) := by
  refine ⟨fun x v found => ?_, kept.operators⟩
  by_cases paired : x ∈ (xs.zip vs).map (·.1)
  · obtain ⟨w, mem, known⟩ := NameTable.find_insertAll_of_mem σ.vars _ x paired
    obtain rfl : w = v := Option.some.inj (known.symm.trans found)
    exact on w (List.of_mem_zip mem).2
  · have old := NameTable.find_insertAll_of_not_mem σ.vars (xs.zip vs) x fun q mem same =>
      paired (List.mem_map.mpr ⟨q, mem, same⟩)
    exact kept.vars x v (old.symm.trans found)

/-! The rules of the run monad. -/

variable {m : Run α β} {f : β → Run α γ} {mid post' : β → Prop} {post : γ → Prop}

theorem Met.bind (first : c.Met m mid σ)
    (rest : ∀ b τ, Ends m σ b τ → c.Kept τ → mid b → c.Met (f b) post τ) :
    c.Met (m >>= f) post σ where
  halts must starved := by
    rw [outcome_bind] at starved
    cases ran : outcome m σ with
    | none => exact first.halts must ran
    | some r =>
      cases r with
      | error e => simp [ran] at starved
      | ok q =>
        obtain ⟨kept, holds⟩ := first.ends q.1 q.2 ran
        exact (rest q.1 q.2 ran kept holds).halts must (by simpa [ran] using starved)
  ends d υ ended := by
    obtain ⟨b, τ, ran, ended⟩ := (ends_bind ..).mp ended
    obtain ⟨kept, holds⟩ := first.ends b τ ran
    exact (rest b τ ran kept holds).ends d υ ended

theorem Meets.bind (first : c.Meets m mid) (rest : ∀ b, mid b → c.Meets (f b) post) :
    c.Meets (m >>= f) post :=
  fun σ kept => (first σ kept).bind fun b τ _ kept holds => rest b holds τ kept

theorem Meets.mono (meets : c.Meets m mid) (weaker : ∀ b, mid b → post' b) : c.Meets m post' :=
  fun σ kept => ⟨(meets σ kept).halts, fun b τ ended =>
    ((meets σ kept).ends b τ ended).imp_right (weaker b)⟩

theorem meets_pure {b : β} (holds : mid b) : c.Meets (pure b) mid := fun σ kept =>
  ⟨fun _ starved => (by cases starved), fun d τ ended => by
    obtain ⟨rfl, rfl⟩ := (ends_pure ..).mp ended
    exact ⟨kept, holds⟩⟩

theorem meets_lift {m : Except (Fault α) β} (holds : ∀ b, m = .ok b → mid b) :
    c.Meets (liftM m : Run α β) mid := by
  intro σ kept
  refine ⟨fun _ starved => ?_, fun b τ ended => ?_⟩
  · cases m <;> cases starved
  · obtain ⟨known, rfl⟩ := (ends_lift ..).mp ended
    exact ⟨kept, holds b known⟩

/-- Of a step that only may fail, success is all that matters. -/
theorem meets_check (m : Except (Fault α) β) : c.Meets (liftM m : Run α β) fun _ => True :=
  meets_lift fun _ _ => trivial

theorem meets_throw (e : Fault α) : c.Meets (throw e : Run α β) mid := fun σ _ =>
  ⟨fun _ starved => (by cases starved), fun b τ ended => absurd ended (ends_throw e σ τ b)⟩

theorem meets_outOfFuel (endless : ¬ c.halts) : c.Meets (outOfFuel : Run α β) mid := fun σ _ =>
  ⟨fun must => absurd must endless, fun b τ ended => absurd ended (ends_outOfFuel σ τ b)⟩

theorem meets_get {f : Store α → Run α β} (each : ∀ σ, c.Kept σ → c.Met (f σ) mid σ) :
    c.Meets (get >>= f) mid :=
  fun σ kept => ⟨(each σ kept).halts, (each σ kept).ends⟩

theorem meets_mapM {f : γ → Run α β} {xs : List γ} (each : ∀ x ∈ xs, c.Meets (f x) mid) :
    c.Meets (xs.mapM f) fun ys => ∀ y ∈ ys, mid y := by
  induction xs with
  | nil => exact meets_pure (by simp)
  | cons x xs ih =>
    rw [List.mapM_cons]
    refine (each x (by simp)).bind fun y first => ?_
    refine (ih fun z later => each z (by simp [later])).bind fun ys rest => ?_
    exact meets_pure (List.forall_mem_cons.mpr ⟨first, rest⟩)

theorem meets_forM {f : γ → Run α Unit} {xs : List γ}
    (each : ∀ x ∈ xs, c.Meets (f x) fun _ => True) : c.Meets (xs.forM f) fun _ => True := by
  induction xs with
  | nil => exact meets_pure trivial
  | cons x xs ih =>
    rw [List.forM_eq_forM, List.forM_cons, ← List.forM_eq_forM]
    exact (each x (by simp)).bind fun _ _ => ih fun z later => each z (by simp [later])

/-- What every round keeps holds after all of them. -/
theorem meets_rounds {step : Nat → β → Run α β} {n i : Nat} {b : β} (start : mid b)
    (each : ∀ j b, j < i + n → mid b → c.Meets (step j b) mid) : c.Meets (rounds step n i b) mid := by
  induction n generalizing i b with
  | zero => exact meets_pure start
  | succ n ih =>
    refine (each i b (by omega) start).bind fun b holds => ih holds fun j b below holds => ?_
    exact each j b (by omega) holds

theorem meets_repeatWhile {holds : Run α Bool} {step : Run α Unit} (endless : ¬ c.halts)
    (condition : c.Meets holds fun _ => True) (round : c.Meets step fun _ => True) (fuel : Nat) :
    c.Meets (repeatWhile holds step fuel) fun _ => True := by
  induction fuel with
  | zero => exact meets_outOfFuel endless
  | succ fuel ih =>
    refine condition.bind fun b _ => ?_
    cases b with
    | false => exact meets_pure trivial
    | true => exact round.bind fun _ _ => ih

/-! Reads and bindings. -/

theorem meets_lookup (x : Name) : c.Meets (lookup x) fun v => v.Every c.leaf := by
  refine meets_get fun σ kept => ?_
  cases found : σ.vars.find? x with
  | none => exact meets_throw _ σ kept
  | some v => exact meets_pure (kept.vars x v found) σ kept

theorem meets_lookups (xs : List Name) : c.Meets (lookups xs) c.OnAll :=
  meets_mapM fun x _ => meets_lookup x

theorem meets_bindNames (xs : List Name) {vs : List (Value α)} (on : c.OnAll vs) :
    c.Meets (Run.bind xs vs) fun _ => True :=
  (meets_check (checkArity xs.length vs.length)).bind fun _ _ _ kept =>
    ⟨fun _ starved => (by cases starved), fun _ _ ended =>
      ⟨(ends_modify ..).mp ended ▸ kept.bound xs on, trivial⟩⟩

theorem meets_set (x : Name) {v : Value α} (on : v.Every c.leaf) :
    c.Meets (set x v) fun _ => True := fun _ kept =>
  ⟨fun _ starved => (by cases starved), fun _ _ ended =>
    ⟨(ends_set ..).mp ended ▸ kept.bound [x] (List.forall_mem_singleton.mpr on), trivial⟩⟩

/-! Operands and their parts. -/

section

variable [ScalarAlgebra α]

/-- A constant has the property. -/
def Grants (c : Contract α) : Operand → Prop
  | .const v => c.leaf (ofScalar v)
  | .var _ => True

theorem meets_operand {x : Operand} (grants : c.Grants x) :
    c.Meets (operand x) fun v => v.Every c.leaf := by
  cases x with
  | const v => exact meets_pure grants
  | var x => exact meets_lookup x

theorem meets_operands {xs : List Operand} (grants : ∀ x ∈ xs, c.Grants x) :
    c.Meets (operands xs) c.OnAll :=
  meets_mapM fun x mem => meets_operand (grants x mem)

theorem meets_scalar {x : Operand} (grants : c.Grants x) : c.Meets (scalar x) c.leaf := by
  refine (meets_operand grants).bind fun v on => meets_lift fun a known => ?_
  obtain rfl := (asScalar_eq_ok v a).mp known
  exact on

theorem meets_int {x : Operand} (grants : c.Grants x) :
    c.Meets (int x) fun n => ∃ a, c.leaf a ∧ asInt a = .ok n :=
  (meets_scalar grants).bind fun a on => meets_lift fun _ known => ⟨a, on, known⟩

theorem meets_number {x : Operand} (grants : c.Grants x) : c.Meets (number x) c.leaf :=
  (meets_scalar grants).bind fun a on => (meets_check (asInt a)).bind fun _ _ => meets_pure on

theorem meets_size {x : Operand} (grants : c.Grants x) : c.Meets (size x) fun _ => True :=
  (meets_int grants).bind fun n _ => meets_check (asSize n)

theorem meets_sizes {xs : List Operand} (grants : ∀ x ∈ xs, c.Grants x) :
    c.Meets (sizes xs) fun _ => True :=
  (meets_mapM fun x mem => meets_size (grants x mem)).mono fun _ _ => trivial

theorem meets_dim {d : DimIndex} (grants : ∀ x ∈ d.operands, c.Grants x) :
    c.Meets (dim d) fun _ => True := by
  cases d with
  | fix i => exact (meets_int (grants i (by simp [DimIndex.operands]))).bind fun _ _ => meets_pure trivial
  | slice start len stride =>
    simp only [DimIndex.operands, List.forall_mem_cons] at grants
    refine (meets_int grants.1).bind fun _ _ => (meets_int grants.2.1).bind fun _ _ => ?_
    exact (meets_int grants.2.2.1).bind fun _ _ => meets_pure trivial

theorem meets_dims {ds : List DimIndex} (grants : ∀ x ∈ ds.flatMap DimIndex.operands, c.Grants x) :
    c.Meets (dims ds) fun _ => True :=
  (meets_mapM fun d mem => meets_dim fun x inD =>
    grants x (List.mem_flatMap.mpr ⟨d, mem, inD⟩)).mono fun _ _ => trivial

end

/-! Constructs, over bodies that meet the contract. -/

/-- A run of the body meets the contract and ends with values as the contract has them. -/
abbrev Serves (c : Contract α) (run : Body → Run α (List (Value α))) (b : Body) : Prop :=
  c.Meets (run b) c.OnAll

section

variable {run : Body → Run α (List (Value α))}

theorem meets_applyLambda {l : Lambda} (serves : c.Serves run l.body) {args : List (Value α)}
    (on : c.OnAll args) : c.Meets (applyLambda run l args) c.OnAll :=
  (meets_bindNames _ on).bind fun _ _ => serves

theorem meets_combine {l : Lambda} (serves : c.Serves run l.body) {acc vs : List (Value α)}
    (before : c.OnAll acc) (on : c.OnAll vs) : c.Meets (combine run l acc vs) c.OnAll :=
  (meets_applyLambda serves (List.forall_mem_append.mpr ⟨before, on⟩)).bind fun new made =>
    (meets_check (checkArity acc.length new.length)).bind fun _ _ => meets_pure made

theorem meets_openAcc {input : AccInput}
    (admitted : ∀ comb, input.combine = some comb → c.operator comb.op) :
    c.Meets (openAcc input) fun v => v.Every c.leaf := by
  refine (meets_lookups input.arrays).bind fun arrays on => meets_get fun σ kept => ?_
  refine ⟨fun _ starved => (by cases starved), fun v τ ended => ?_⟩
  simp only [ends_bind, ends_modify, ends_pure] at ended
  obtain ⟨_, _, rfl, rfl, rfl⟩ := ended
  refine ⟨⟨kept.vars, fun op mem => ?_⟩, (Value.every_acc ..).mpr on⟩
  rcases List.mem_append.mp mem with old | new
  · exact kept.operators op old
  · obtain ⟨comb, combines, rfl⟩ := Option.map_eq_some_iff.mp (List.mem_singleton.mp new).symm
    exact admitted comb combines

theorem every_closeAcc {v : Value α} {arrays : List (Value α)} (on : v.Every c.leaf)
    (known : closeAcc v = .ok arrays) : c.OnAll arrays := by
  cases v with
  | acc id as =>
    obtain rfl := Except.ok.inj known
    exact (Value.every_acc ..).mp on
  | _ => cases known

theorem meets_withAcc {inputs : List AccInput} {l : Lambda}
    (admitted : ∀ input ∈ inputs, ∀ comb, input.combine = some comb → c.operator comb.op)
    (serves : c.Serves run l.body) : c.Meets (withAcc run inputs l) c.OnAll := by
  refine (meets_mapM fun input mem => meets_openAcc (admitted input mem)).bind fun accs opened => ?_
  refine (meets_applyLambda serves opened).bind fun vs on => ?_
  refine (meets_lift fun _ known => (splitValues_ok known).2).bind ?_
  rintro _ rfl
  have closed : ∀ v ∈ vs.take inputs.length, c.Meets (liftM (closeAcc v) : Run α _) c.OnAll :=
    fun v mem => meets_lift fun _ known => every_closeAcc (on v (List.mem_of_mem_take mem)) known
  refine (meets_mapM closed).bind fun arrays each => meets_pure ?_
  refine List.forall_mem_append.mpr ⟨fun v mem => ?_, fun v mem => on v (List.mem_of_mem_drop mem)⟩
  obtain ⟨as, isIn, mem⟩ := List.mem_flatten.mp mem
  exact each as isIn v mem

theorem meets_step {b : Body} (params : List Name) (serves : c.Serves run b) :
    c.Meets (step run params b) fun _ => True :=
  serves.bind fun _ on => meets_bindNames params on

theorem meets_combineGroups {ops : List Lambda} (serves : ∀ op ∈ ops, c.Serves run op.body)
    {accs : List (List (Value α))} {vs : List (Value α)} (before : ∀ acc ∈ accs, c.OnAll acc)
    (on : c.OnAll vs) :
    c.Meets (combineGroups run ops accs vs) fun news => ∀ new ∈ news, c.OnAll new := by
  induction ops generalizing accs vs with
  | nil => exact meets_pure before
  | cons op ops ih =>
    cases accs with
    | nil => exact meets_pure before
    | cons acc accs =>
      obtain ⟨first, later⟩ := List.forall_mem_cons.mp before
      refine (meets_combine (serves op (by simp)) first fun v mem =>
        on v (List.mem_of_mem_take mem)).bind fun new made => ?_
      refine (ih (fun o mem => serves o (by simp [mem])) later fun v mem =>
        on v (List.mem_of_mem_drop mem)).bind fun news rest => ?_
      exact meets_pure (List.forall_mem_cons.mpr ⟨made, rest⟩)

/-- What a fused loop has computed so far is as the contract has it. -/
structure OnFused (c : Contract α) (s : Fused α) : Prop where
  scans : ∀ acc ∈ s.scans, c.OnAll acc
  reduces : ∀ acc ∈ s.reduces, c.OnAll acc
  scanned : ∀ row ∈ s.scanned, c.OnAll row
  mapped : ∀ row ∈ s.mapped, c.OnAll row

theorem onAll_flatten {vss : List (List (Value α))} (each : ∀ vs ∈ vss, c.OnAll vs) :
    c.OnAll vss.flatten := by
  intro v mem
  obtain ⟨vs, isIn, mem⟩ := List.mem_flatten.mp mem
  exact each vs isIn v mem

theorem meets_fusedRow {scans : List Combiner} {reduces : List Reduction} {map : Lambda}
    (scanned : ∀ comb ∈ scans, c.Serves run comb.op.body)
    (reduced : ∀ r ∈ reduces, c.Serves run r.combiner.op.body) (mapped : c.Serves run map.body)
    {tables : List (Table α)} (laid : ∀ t ∈ tables, Laid c.leaf t) (mapCount i : Nat) {s : Fused α}
    (on : c.OnFused s) : c.Meets (fusedRow run tables scans reduces map mapCount i s) c.OnFused := by
  refine (meets_lift fun _ known => every_rowsAt laid known).bind fun rows onRows => ?_
  refine (meets_applyLambda mapped onRows).bind fun new made => ?_
  refine (meets_lift fun _ known => (splitValues_ok known).2).bind ?_
  rintro _ rfl
  refine (meets_lift fun _ known => (splitValues_ok known).2).bind ?_
  rintro _ rfl
  have rest : c.OnAll (new.drop s.scans.flatten.length) := fun v mem =>
    made v (List.mem_of_mem_drop mem)
  refine (meets_combineGroups (fun op mem => ?_) on.scans fun v mem =>
    made v (List.mem_of_mem_take mem)).bind fun scanAccs newScans => ?_
  · obtain ⟨comb, isScan, rfl⟩ := List.mem_map.mp mem
    exact scanned comb isScan
  refine (meets_combineGroups (fun op mem => ?_) on.reduces fun v mem =>
    rest v (List.mem_of_mem_take mem)).bind fun reduceAccs newReduces => ?_
  · obtain ⟨r, isReduction, rfl⟩ := List.mem_map.mp mem
    exact reduced r isReduction
  refine (meets_check (checkArity _ _)).bind fun _ _ => meets_pure ⟨newScans, newReduces, ?_, ?_⟩
  · exact List.forall_mem_cons.mpr ⟨onAll_flatten newScans, on.scanned⟩
  · exact List.forall_mem_cons.mpr ⟨fun v mem => rest v (List.mem_of_mem_drop mem), on.mapped⟩

variable [ScalarAlgebra α]

theorem meets_updateAcc {acc : Name} {position values : List Operand}
    (grants : ∀ x ∈ position ++ values, c.Grants x)
    (operators : ∀ op, c.operator op → c.Serves run op.body) :
    c.Meets (updateAcc run acc position values) fun v => v.Every c.leaf := by
  obtain ⟨positions, written⟩ := List.forall_mem_append.mp grants
  refine (meets_lookup acc).bind fun v on => ?_
  cases v with
  | acc id arrays =>
    have onArrays := (Value.every_acc ..).mp on
    refine (meets_operands positions).bind fun idx onIdx => ?_
    refine (meets_check (fixedDims idx)).bind fun ds _ => ?_
    refine (meets_operands written).bind fun vs onVs => ?_
    refine (meets_lift fun old known => known).bind fun old known => ?_
    cases old with
    | none => exact meets_pure on
    | some old =>
      have onOld := every_indexed onArrays (inBounds_some known)
      have store (new : List (Value α)) (made : c.OnAll new) : c.Meets (do
          checkArity (α := α) arrays.length new.length
          let arrays ← (arrays.zip new).mapM fun p => Value.update (α := α) ds p.1 p.2
          return .acc id arrays : Run α (Value α)) fun v => v.Every c.leaf := by
        refine (meets_check (checkArity arrays.length new.length)).bind fun _ _ => ?_
        refine Meets.bind (meets_mapM fun q mem => meets_lift fun x updated => ?_) fun arrays each =>
          meets_pure ((Value.every_acc ..).mpr each)
        have sides := List.of_mem_zip mem
        exact Value.every_update (onArrays _ sides.1) (made _ sides.2) updated
      refine meets_get fun σ kept => ?_
      cases selected : (σ.combiners[id]?).join with
      | some op =>
        have listed : some op ∈ σ.combiners :=
          List.mem_of_getElem? (Option.join_eq_some_iff.mp selected)
        have args : c.OnAll (idx ++ old ++ vs) := by
          simp only [OnAll, List.forall_mem_append]
          exact ⟨⟨onIdx, onOld⟩, onVs⟩
        exact (meets_applyLambda (operators op (kept.operators op listed)) args).bind store σ kept
      | none => exact (meets_pure onVs).bind store σ kept
  | scalar v => exact meets_throw _
  | array rows => exact meets_throw _

theorem meets_basicOp (closed : Closed c.leaf) {op : BasicOp}
    (grants : ∀ x ∈ op.operands, c.Grants x)
    (operators : (Exp.basic op).updates → ∀ op, c.operator op → c.Serves run op.body) :
    c.Meets (basicOp run op) fun v => v.Every c.leaf := by
  cases op with
  | operand x => exact meets_operand (grants x (by simp [BasicOp.operands]))
  | arrayLit elems ty =>
    exact (meets_operands grants).bind fun vs on => meets_pure ((Value.every_array vs).mpr on)
  | unary op x =>
    refine (meets_scalar (grants x (by simp [BasicOp.operands]))).bind fun a on => ?_
    exact (meets_lift fun b known => closed.unary op a b on known).bind fun b made =>
      meets_pure ((Value.every_scalar b).mpr made)
  | binary op x y =>
    refine (meets_scalar (grants x (by simp [BasicOp.operands]))).bind fun a onA => ?_
    refine (meets_scalar (grants y (by simp [BasicOp.operands]))).bind fun b onB => ?_
    exact (meets_lift fun r known => closed.binary op a b r onA onB known).bind
      fun r made => meets_pure ((Value.every_scalar r).mpr made)
  | compare op x y =>
    refine (meets_scalar (grants x (by simp [BasicOp.operands]))).bind fun a _ => ?_
    refine (meets_scalar (grants y (by simp [BasicOp.operands]))).bind fun b _ => ?_
    exact (meets_check (compare op a b)).bind fun b _ => meets_pure (closed.bool b)
  | convert op x =>
    refine (meets_scalar (grants x (by simp [BasicOp.operands]))).bind fun a on => ?_
    exact (meets_lift fun b known => closed.convert op a b on known).bind fun b made =>
      meets_pure ((Value.every_scalar b).mpr made)
  | index array slice =>
    refine (meets_lookup array).bind fun v on => (meets_dims grants).bind fun ds _ => ?_
    exact meets_lift fun _ known => Value.every_index on known
  | update array slice value =>
    obtain ⟨inSlice, written⟩ := List.forall_mem_append.mp grants
    refine (meets_lookup array).bind fun v on => (meets_dims inSlice).bind fun ds _ => ?_
    refine (meets_operand (written value (by simp))).bind fun x onX => ?_
    exact meets_lift fun _ known => Value.every_update on onX known
  | concat dim first rest width =>
    exact (meets_lookups _).bind fun vs on => meets_lift fun _ known => Value.every_concat on known
  | copy array => exact meets_lookup array
  | manifest perm array => exact meets_lookup array
  | reshape shape array =>
    refine (meets_lookup array).bind fun v on => (meets_sizes grants).bind fun ns _ => ?_
    exact meets_lift fun _ known => Value.every_reshape on known
  | rearrange perm array =>
    exact (meets_lookup array).bind fun v on => meets_lift fun _ known =>
      Value.every_rearrange on known
  | rotate offsets array =>
    refine (meets_mapM fun x mem => meets_int (grants x mem)).bind fun ns _ => ?_
    exact (meets_lookup array).bind fun v on => meets_lift fun _ known => Value.every_rotate on known
  | iota count start step w =>
    simp only [BasicOp.operands, List.forall_mem_cons] at grants
    refine (meets_int grants.1).bind fun n _ => (meets_number grants.2.1).bind fun first onFirst => ?_
    refine (meets_number grants.2.2.1).bind fun step onStep => meets_pure ?_
    refine (Value.every_array _).mpr fun v mem => ?_
    obtain ⟨i, -, rfl⟩ := List.mem_map.mp mem
    exact closed.member w first step i onFirst onStep
  | replicate shape value =>
    obtain ⟨extents, repeated⟩ := List.forall_mem_append.mp grants
    refine (meets_sizes extents).bind fun ns _ => ?_
    exact (meets_operand (repeated value (by simp))).bind fun v on =>
      meets_pure (Value.every_replicate ns on)
  | scratch elem shape =>
    exact (meets_sizes grants).bind fun ns _ =>
      meets_pure (Value.every_replicate ns (closed.zero elem))
  | assert cond msg =>
    refine (meets_scalar (grants cond (by simp [BasicOp.operands]))).bind fun a _ => ?_
    refine (meets_check (asBool a)).bind fun b _ => ?_
    cases b with
    | false => exact meets_throw _
    | true => exact meets_pure closed.cert
  | updateAcc acc position values => exact meets_updateAcc grants (operators rfl)

end

end Contract

end Cotangent
