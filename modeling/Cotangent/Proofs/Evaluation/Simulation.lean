import Cotangent.Proofs.Evaluation.Blindness
import Cotangent.Proofs.Evaluation.Fuel
import Cotangent.Proofs.Program.Rewriting
/-!
Runs that do the same as far as a scope can tell. The second of two runs mimics the first if from
stores that agree on the scope it ends with the same value in stores that agree again, and never ends
where the first one fails. Sibling scopes may share names, so the stores of two such runs may differ
in everything outside the scope. What is known of the bodies that an expression enters carries over to
the expression, and by induction on the fuel to programs in which statements were replaced.
-/
namespace Cotangent

variable {α β γ : Type}

namespace Store.Agree

variable {on : Name → Prop} {σ τ : Store α} {scope : Scope}

theorem symm (agree : σ.Agree on τ) : τ.Agree on σ := fun x known => (agree x known).symm

/-- Names bound to the same values in both stores join the scope that the stores agree on. -/
theorem opened (agree : σ.Agree (· ∈ scope) τ) {xs : List Name} {vs : List (Value α)}
    (count : vs.length = xs.length) :
    (σ.bound xs vs).Agree (· ∈ scope.opened xs) (τ.bound xs vs) := by
  induction xs generalizing σ τ vs scope with
  | nil =>
    obtain rfl := List.length_eq_zero_iff.mp count
    exact agree
  | cons x xs ih =>
    obtain ⟨v, vs, rfl⟩ := List.exists_cons_of_length_eq_add_one count
    rw [Scope.opened_cons]
    have first : (σ.bound [x] [v]).Agree (· ∈ x :: scope) (τ.bound [x] [v]) := by
      intro y known
      show (τ.vars.insert x v).find? y = (σ.vars.insert x v).find? y
      rw [NameTable.find_insert, NameTable.find_insert]
      by_cases same : y = x
      · rw [if_pos same, if_pos same]
      · rw [if_neg same, if_neg same]
        exact agree y (List.mem_of_ne_of_mem same known)
    exact ih first (Nat.succ.inj count)

end Store.Agree

namespace Run

theorem ends_unique {m : Run α β} {σ τ τ' : Store α} {b b' : β} (ends : Ends m σ b τ)
    (ends' : Ends m σ b' τ') : b = b' ∧ τ = τ' :=
  (ends_of_outcome ends b' τ').mp ends'

/-- What the first run does from the one store, the second does from the other, and the first leaves
    the names of `keep` as they were. -/
structure Follows (keep after : Scope) (m m' : Run α β) (σ σ' : Store α) : Prop where
  ends : ∀ b τ, Ends m σ b τ →
    σ.Agree (· ∈ keep) τ ∧ ∃ τ', Ends m' σ' b τ' ∧ τ.Agree (· ∈ after) τ'
  fails : ∀ e, outcome m σ = some (.error e) → ∀ b τ', ¬ Ends m' σ' b τ'

/-- The second run follows the first from all stores that agree on the scope `before`. -/
def Mimics (keep before after : Scope) (m m' : Run α β) : Prop :=
  ∀ σ σ' : Store α, σ.Agree (· ∈ before) σ' → Follows keep after m m' σ σ'

section

variable {keep scope before mid after : Scope}

/-- The rest of a run only matters for values that the first part can end with. -/
theorem Mimics.bindEnds {m m' : Run α β} {f f' : β → Run α γ} (first : Mimics keep before mid m m')
    (rest : ∀ b, (∃ σ τ, Ends m σ b τ) → Mimics keep mid after (f b) (f' b)) :
    Mimics keep before after (m >>= f) (m' >>= f') := by
  intro σ σ' agree
  have follows := first σ σ' agree
  constructor
  · intro c υ ends
    obtain ⟨b, τ, ran, ends⟩ := (ends_bind ..).mp ends
    obtain ⟨kept, τ', ran', agree⟩ := follows.ends b τ ran
    obtain ⟨kept', υ', ends', agree⟩ := (rest b ⟨σ, τ, ran⟩ τ τ' agree).ends c υ ends
    exact ⟨kept.trans kept', υ', (ends_bind ..).mpr ⟨b, τ', ran', ends'⟩, agree⟩
  · intro e failed c υ' ends'
    obtain ⟨b', τ', ran', ends'⟩ := (ends_bind ..).mp ends'
    rw [outcome_bind] at failed
    cases ran : outcome m σ with
    | none => simp [ran] at failed
    | some r =>
      cases r with
      | error e' => exact follows.fails e' ran b' τ' ran'
      | ok p =>
        obtain ⟨b, τ⟩ := p
        obtain ⟨-, τ'', ran'', agree⟩ := follows.ends b τ ran
        obtain ⟨rfl, rfl⟩ := ends_unique ran' ran''
        exact (rest b' ⟨σ, τ, ran⟩ τ τ' agree).fails e (by simpa [ran] using failed) c υ' ends'

theorem Mimics.bind {m m' : Run α β} {f f' : β → Run α γ} (first : Mimics keep before mid m m')
    (rest : ∀ b, Mimics keep mid after (f b) (f' b)) :
    Mimics keep before after (m >>= f) (m' >>= f') :=
  first.bindEnds fun b _ => rest b

theorem Mimics.mono {m m' : Run α β} {keep' before' after' : Scope}
    (mimics : Mimics keep before after m m') (kept : keep' ⊆ keep) (more : before ⊆ before')
    (less : after' ⊆ after) : Mimics keep' before' after' m m' := by
  intro σ σ' agree
  have follows := mimics σ σ' (agree.mono fun x known => more known)
  refine ⟨fun b τ ends => ?_, follows.fails⟩
  obtain ⟨same, τ', ends', agree⟩ := follows.ends b τ ends
  exact ⟨same.mono fun x known => kept known, τ', ends', agree.mono fun x known => less known⟩

theorem mimics_pure (b : β) : Mimics keep scope scope (pure b : Run α β) (pure b) := by
  intro σ σ' agree
  refine ⟨fun c τ ends => ?_, fun e failed => nomatch failed⟩
  obtain ⟨rfl, rfl⟩ := (ends_pure ..).mp ends
  exact ⟨.refl _ σ, σ', (ends_pure ..).mpr ⟨rfl, rfl⟩, agree⟩

theorem mimics_throw (e : Fault α) : Mimics keep scope scope (throw e : Run α β) (throw e) :=
  fun σ σ' _ => ⟨fun b τ ends => absurd ends (ends_throw e σ τ b), fun _ _ b τ => ends_throw e σ' τ b⟩

theorem mimics_lift (m : Except (Fault α) β) :
    Mimics keep scope scope (liftM m : Run α β) (liftM m) := by
  cases m with
  | ok b => exact mimics_pure b
  | error e => exact mimics_throw e

theorem mimics_outOfFuel (m : Run α β) : Mimics keep before after outOfFuel m :=
  fun σ _ _ => ⟨fun b τ ends => absurd ends (ends_outOfFuel σ τ b), fun _ failed => nomatch failed⟩

theorem mimics_mapM {δ : Type} {f : β → Run α γ} {f' : δ → Run α γ} {xs : List β} {ys : List δ}
    (each : List.Forall₂ (fun x y => Mimics keep scope scope (f x) (f' y)) xs ys) :
    Mimics keep scope scope (xs.mapM f) (ys.mapM f') := by
  induction each with
  | nil => exact mimics_pure []
  | cons first rest ih =>
    rw [List.mapM_cons, List.mapM_cons]
    exact first.bind fun z => ih.bind fun zs => mimics_pure (z :: zs)

/-- One step for each member, the same on both sides. -/
theorem mimics_each {f : β → Run α γ} {xs : List β}
    (each : ∀ x ∈ xs, Mimics keep scope scope (f x) (f x)) :
    Mimics keep scope scope (xs.mapM f) (xs.mapM f) :=
  mimics_mapM (List.forall₂_same.mpr each)

theorem mimics_rounds {step step' : Nat → β → Run α β}
    (each : ∀ i b, Mimics keep scope scope (step i b) (step' i b)) (n i : Nat) (b : β) :
    Mimics keep scope scope (rounds step n i b) (rounds step' n i b) := by
  induction n generalizing i b with
  | zero => exact mimics_pure b
  | succ n ih => exact (each i b).bind fun b => ih (i + 1) b

theorem mimics_repeatWhile {holds : Run α Bool} {step step' : Run α Unit}
    (condition : Mimics keep scope scope holds holds) (round : Mimics keep scope scope step step')
    {fuel fuel' : Nat} (more : fuel ≤ fuel') :
    Mimics keep scope scope (repeatWhile holds step fuel) (repeatWhile holds step' fuel') := by
  induction fuel generalizing fuel' with
  | zero => exact mimics_outOfFuel _
  | succ fuel ih =>
    obtain ⟨fuel', rfl⟩ : ∃ k, fuel' = k + 1 := ⟨fuel' - 1, by omega⟩
    refine condition.bind fun b => ?_
    cases b with
    | false => exact mimics_pure ()
    | true => exact round.bind fun _ => ih (by omega)

/-! Reads and bindings. -/

theorem mimics_lookup {x : Name} (known : x ∈ scope) :
    Mimics keep scope scope (lookup x : Run α (Value α)) (lookup x) := by
  intro σ σ' agree
  constructor
  · intro v τ ends
    obtain ⟨found, rfl⟩ := (ends_lookup ..).mp ends
    exact ⟨.refl _ σ, σ', (ends_lookup ..).mpr ⟨(agree x known).trans found, rfl⟩, agree⟩
  · intro e failed v τ' ends'
    obtain ⟨found, -⟩ := (ends_lookup ..).mp ends'
    rw [outcome_lookup, ← agree x known, found] at failed
    cases failed

theorem mimics_lookups {xs : List Name} (known : xs ⊆ scope) :
    Mimics keep scope scope (lookups xs : Run α (List (Value α))) (lookups xs) :=
  mimics_each fun _ mem => mimics_lookup (known mem)

theorem mimics_bindNames {xs : List Name} (apart : ∀ x ∈ xs, x ∉ keep) (vs : List (Value α)) :
    Mimics keep scope (scope.opened xs) (Run.bind xs vs) (Run.bind xs vs) := by
  intro σ σ' agree
  constructor
  · intro _ τ ends
    obtain ⟨count, rfl⟩ := (ends_bindNames ..).mp ends
    exact ⟨.bound σ vs apart, _, (ends_bindNames ..).mpr ⟨count, rfl⟩, agree.opened count⟩
  · intro e failed _ τ' ends'
    obtain ⟨count, -⟩ := (ends_bindNames ..).mp ends'
    have ends : Ends (Run.bind xs vs) σ () (σ.bound xs vs) := (ends_bindNames ..).mpr ⟨count, rfl⟩
    exact not_ends_of_outcome failed _ _ ends

theorem mimics_set {x : Name} (apart : x ∉ keep) (v : Value α) :
    Mimics keep scope (x :: scope) (set x v) (set x v) := by
  intro σ σ' agree
  refine ⟨fun _ τ ends => ?_, fun e failed => nomatch failed⟩
  obtain rfl := (ends_set ..).mp ends
  have both : (σ.bound [x] [v]).Agree (· ∈ scope.opened [x]) (σ'.bound [x] [v]) := agree.opened rfl
  exact ⟨.bound σ [v] (by simpa using apart), _, (ends_set ..).mpr rfl, both⟩

end

/-! Operands and their parts. -/

section

variable [ScalarAlgebra α] {keep scope : Scope}

theorem mimics_operand {x : Operand} (known : x.names ⊆ scope) :
    Mimics keep scope scope (operand x : Run α (Value α)) (operand x) := by
  cases x with
  | const v => exact mimics_pure _
  | var x => exact mimics_lookup (known (by simp [Operand.names]))

theorem mem_operandNames {x : Operand} {xs : List Operand} (mem : x ∈ xs) :
    x.names ⊆ operandNames xs := fun _ inX => List.mem_flatMap.mpr ⟨x, mem, inX⟩

theorem mimics_operands {xs : List Operand} (known : operandNames xs ⊆ scope) :
    Mimics keep scope scope (operands xs : Run α (List (Value α))) (operands xs) :=
  mimics_each fun _ mem => mimics_operand (List.Subset.trans (mem_operandNames mem) known)

theorem mimics_scalar {x : Operand} (known : x.names ⊆ scope) :
    Mimics keep scope scope (scalar x : Run α α) (scalar x) :=
  (mimics_operand known).bind fun v => mimics_lift v.asScalar

theorem mimics_int {x : Operand} (known : x.names ⊆ scope) :
    Mimics keep scope scope (int x : Run α Int) (int x) :=
  (mimics_scalar known).bind fun v => mimics_lift (ScalarAlgebra.asInt v)

theorem mimics_number {x : Operand} (known : x.names ⊆ scope) :
    Mimics keep scope scope (number x : Run α α) (number x) :=
  (mimics_scalar known).bind fun v =>
    (mimics_lift (ScalarAlgebra.asInt v)).bind fun _ => mimics_pure v

theorem mimics_size {x : Operand} (known : x.names ⊆ scope) :
    Mimics keep scope scope (size x : Run α Nat) (size x) :=
  (mimics_int known).bind fun n => mimics_lift (asSize n)

theorem mimics_sizes {xs : List Operand} (known : operandNames xs ⊆ scope) :
    Mimics keep scope scope (sizes xs : Run α (List Nat)) (sizes xs) :=
  mimics_each fun _ mem => mimics_size (List.Subset.trans (mem_operandNames mem) known)

theorem mimics_dim {d : DimIndex} (known : d.names ⊆ scope) :
    Mimics keep scope scope (dim d : Run α Dim) (dim d) := by
  cases d with
  | fix i => exact (mimics_int known).bind fun n => mimics_pure _
  | slice start len stride =>
    have part {x : Operand} (mem : x ∈ [start, len, stride]) : x.names ⊆ scope :=
      List.Subset.trans (mem_operandNames mem) known
    refine (mimics_int (part (by simp))).bind fun _ => (mimics_int (part (by simp))).bind fun _ => ?_
    exact (mimics_int (part (by simp))).bind fun _ => mimics_pure _

theorem mimics_dims {ds : List DimIndex} (known : ds.flatMap DimIndex.names ⊆ scope) :
    Mimics keep scope scope (dims ds : Run α (List Dim)) (dims ds) :=
  mimics_each fun d mem => mimics_dim fun _ inD => known (List.mem_flatMap.mpr ⟨d, mem, inD⟩)

/-- An operation without a body reads its names and changes nothing. -/
theorem mimics_basicOp {op : BasicOp} (known : op.names ⊆ scope)
    (alone : (Exp.basic op).accumulates = false) (run run' : Body → Run α (List (Value α))) :
    Mimics keep scope scope (basicOp run op) (basicOp run' op) := by
  cases op with
  | operand x => exact mimics_operand known
  | arrayLit elems ty => exact (mimics_operands known).bind fun vs => mimics_pure _
  | unary op x => exact (mimics_scalar known).bind fun v => (mimics_lift _).bind fun _ => mimics_pure _
  | binary op x y =>
    have part {z : Operand} (mem : z ∈ [x, y]) : z.names ⊆ scope :=
      List.Subset.trans (mem_operandNames mem) known
    refine (mimics_scalar (part (by simp))).bind fun u => ?_
    exact (mimics_scalar (part (by simp))).bind fun v => (mimics_lift _).bind fun _ => mimics_pure _
  | compare op x y =>
    have part {z : Operand} (mem : z ∈ [x, y]) : z.names ⊆ scope :=
      List.Subset.trans (mem_operandNames mem) known
    refine (mimics_scalar (part (by simp))).bind fun u => ?_
    exact (mimics_scalar (part (by simp))).bind fun v => (mimics_lift _).bind fun _ => mimics_pure _
  | convert op x =>
    exact (mimics_scalar known).bind fun v => (mimics_lift _).bind fun _ => mimics_pure _
  | index array slice =>
    obtain ⟨source, positions⟩ := List.cons_subset.mp known
    exact (mimics_lookup source).bind fun v => (mimics_dims positions).bind fun ds => mimics_lift _
  | update array slice value =>
    obtain ⟨source, rest⟩ := List.cons_subset.mp known
    obtain ⟨positions, written⟩ := List.append_subset.mp rest
    refine (mimics_lookup source).bind fun v => (mimics_dims positions).bind fun ds => ?_
    exact (mimics_operand written).bind fun x => mimics_lift _
  | concat dim first rest width =>
    obtain ⟨sources, -⟩ := List.append_subset.mp known
    exact (mimics_lookups sources).bind fun vs => mimics_lift _
  | copy array => exact mimics_lookup (known (by simp [BasicOp.names]))
  | manifest perm array => exact mimics_lookup (known (by simp [BasicOp.names]))
  | reshape shape array =>
    obtain ⟨extents, source⟩ := List.append_subset.mp known
    refine (mimics_lookup (source (by simp))).bind fun v => (mimics_sizes extents).bind fun shape => ?_
    exact mimics_lift _
  | rearrange perm array =>
    exact (mimics_lookup (known (by simp [BasicOp.names]))).bind fun v => mimics_lift _
  | rotate offsets array =>
    obtain ⟨amounts, source⟩ := List.append_subset.mp known
    have each : ∀ x ∈ offsets, Mimics keep scope scope (int x : Run α Int) (int x) := fun x mem =>
      mimics_int (List.Subset.trans (mem_operandNames mem) amounts)
    refine (mimics_each each).bind fun ns => (mimics_lookup (source (by simp))).bind fun v => ?_
    exact mimics_lift _
  | iota count start step w =>
    have part {z : Operand} (mem : z ∈ [count, start, step]) : z.names ⊆ scope :=
      List.Subset.trans (mem_operandNames mem) known
    refine (mimics_int (part (by simp))).bind fun _ => (mimics_number (part (by simp))).bind fun _ => ?_
    exact (mimics_number (part (by simp))).bind fun _ => mimics_pure _
  | replicate shape value =>
    obtain ⟨extents, element⟩ := List.append_subset.mp known
    exact (mimics_sizes extents).bind fun _ => (mimics_operand element).bind fun _ => mimics_pure _
  | scratch elem shape => exact (mimics_sizes known).bind fun _ => mimics_pure _
  | assert cond msg =>
    refine (mimics_scalar known).bind fun v => (mimics_lift (ScalarAlgebra.asBool v)).bind fun b => ?_
    cases b with
    | false => exact mimics_throw _
    | true => exact mimics_pure _
  | updateAcc acc position values => simp [Exp.accumulates] at alone

end

/-! Constructs, over bodies that mimic one another. -/

section

variable (run run' : Body → Run α (List (Value α)))

/-- The second body mimics the first in a scope whose names it keeps. -/
def StandsFor (scope : Scope) (b b' : Body) : Prop := Mimics scope scope scope (run b) (run' b')

/-- Calls of the second lambda mimic those of the first. -/
def Calls (scope : Scope) (l l' : Lambda) : Prop := ∀ args : List (Value α),
  Mimics scope scope scope (applyLambda run l args) (applyLambda run' l' args)

end

section

variable {run run' : Body → Run α (List (Value α))} {scope : Scope}

theorem calls_of_stands {l l' : Lambda} (fresh : scope.Fresh (l.params.map (·.name)))
    (params : l'.params = l.params)
    (inside : StandsFor run run' (scope.opened (l.params.map (·.name))) l.body l'.body) :
    Calls run run' scope l l' := by
  intro args
  have opened : scope ⊆ scope.opened (l.params.map (·.name)) := List.subset_append_right _ _
  rw [applyLambda, applyLambda, params]
  exact (mimics_bindNames fresh.unbound args).bind fun _ => inside.mono opened (fun _ h => h) opened

theorem mimics_combine {l l' : Lambda} (calls : Calls run run' scope l l')
    (acc vs : List (Value α)) :
    Mimics scope scope scope (combine run l acc vs) (combine run' l' acc vs) :=
  (calls _).bind fun new => (mimics_lift (checkArity acc.length new.length)).bind fun _ =>
    mimics_pure new

theorem mimics_combineGroups {ops ops' : List Lambda}
    (calls : List.Forall₂ (Calls run run' scope) ops ops') (accs : List (List (Value α)))
    (vs : List (Value α)) :
    Mimics scope scope scope (combineGroups run ops accs vs) (combineGroups run' ops' accs vs) := by
  induction calls generalizing accs vs with
  | nil => exact mimics_pure accs
  | cons first rest ih =>
    cases accs with
    | nil => exact mimics_pure []
    | cons acc accs =>
      refine (mimics_combine first acc _).bind fun new => ?_
      exact (ih accs _).bind fun _ => mimics_pure _

theorem mimics_fusedRow {scans scans' : List Combiner} {reduces reduces' : List Reduction}
    {map map' : Lambda}
    (scanned : List.Forall₂ (Calls run run' scope) (scans.map (·.op)) (scans'.map (·.op)))
    (reduced : List.Forall₂ (Calls run run' scope) (reduces.map (·.combiner.op))
      (reduces'.map (·.combiner.op)))
    (mapped : Calls run run' scope map map') (tables : List (Table α)) (mapCount i : Nat)
    (s : Fused α) :
    Mimics scope scope scope (fusedRow run tables scans reduces map mapCount i s)
      (fusedRow run' tables scans' reduces' map' mapCount i s) := by
  refine (mimics_lift (rowsAt tables i)).bind fun rows => (mapped rows).bind fun new => ?_
  refine (mimics_lift _).bind fun p => (mimics_lift _).bind fun q => ?_
  refine (mimics_combineGroups scanned _ _).bind fun _ => ?_
  refine (mimics_combineGroups reduced _ _).bind fun _ => ?_
  exact (mimics_lift _).bind fun _ => mimics_pure _

theorem mimics_step {inner after : Scope} {b b' : Body} (body : StandsFor run run' inner b b')
    (sub : scope ⊆ inner) {params : List Name} (apart : ∀ x ∈ params, x ∉ scope)
    (kept : after ⊆ inner) : Mimics scope inner after (step run params b) (step run' params b') := by
  have bound : after ⊆ inner.opened params := List.Subset.trans kept (List.subset_append_right _ _)
  refine (Mimics.mono body sub (fun _ h => h) (fun _ h => h)).bind fun vs => ?_
  exact (mimics_bindNames apart vs).mono (fun _ h => h) (fun _ h => h) bound

/-- The rows of the arrays that a round goes through. -/
theorem mimics_setRows {keep : Scope} {rows : List (Name × Table α)} (i : Nat)
    (apart : ∀ r ∈ rows, r.1 ∉ keep) :
    Mimics keep scope (scope.opened (rows.map (·.1)))
      (rows.forM fun r => do set r.1 (← pick (← r.2) i) : Run α Unit)
      (rows.forM fun r => do set r.1 (← pick (← r.2) i)) := by
  induction rows generalizing scope with
  | nil => exact mimics_pure ()
  | cons r rows ih =>
    rw [List.map_cons, Scope.opened_cons, List.forM_eq_forM, List.forM_cons, ← List.forM_eq_forM]
    refine Mimics.bind ?_ fun _ => ih fun q later => apart q (by simp [later])
    refine (mimics_lift r.2).bind fun table => (mimics_lift _).bind fun row => ?_
    exact mimics_set (apart r (by simp)) row

variable [ScalarAlgebra α]

theorem mimics_round {outer inner : Scope} {b b' : Body} (body : StandsFor run run' inner b b')
    {params : List Name} {counter : Name} {rows : List (Name × Table α)} (w : IntWidth)
    (within : scope ⊆ outer) (opened : outer ⊆ inner)
    (sub : inner ⊆ Scope.opened (counter :: outer) (rows.map (·.1)))
    (bound : ∀ x ∈ params ++ counter :: rows.map (·.1), x ∉ scope) (i : Nat) :
    Mimics scope outer outer (round run params counter w rows b i ())
      (round run' params counter w rows b' i ()) := by
  obtain ⟨apart, counted, named⟩ :
      (∀ x ∈ params, x ∉ scope) ∧ counter ∉ scope ∧ ∀ x ∈ rows.map (·.1), x ∉ scope := by
    simpa only [List.forall_mem_append, List.forall_mem_cons] using bound
  refine (mimics_set counted _).bind fun _ => ?_
  refine (mimics_setRows i fun r mem => named r.1 (List.mem_map_of_mem mem)).bind fun _ => ?_
  exact (mimics_step body (List.Subset.trans within opened) apart opened).mono (fun _ h => h) sub
    (fun _ h => h)

theorem mimics_loop {merge : List (Param × Operand)} {form : LoopForm} {b b' : Body}
    (sources : loopSources merge form ⊆ scope) (fresh : scope.Fresh (loopNames merge form))
    (guard : loopGuard form ⊆ scope.opened (loopNames merge form))
    (body : StandsFor run run' (scope.opened (loopNames merge form)) b b') {fuel fuel' : Nat}
    (more : fuel ≤ fuel') :
    Mimics scope scope scope (loop run fuel merge form b) (loop run' fuel' merge form b') := by
  let params := merge.map (·.1.name)
  have within : scope ⊆ scope.opened params := List.subset_append_right _ _
  have results : Mimics scope (scope.opened params) (scope.opened params) (lookups params)
      (lookups params : Run α _) := mimics_lookups fun x mem => mem_opened.mpr (.inl mem)
  suffices whole : Mimics scope scope (scope.opened params) (loop run fuel merge form b)
      (loop run' fuel' merge form b') from whole.mono (fun _ h => h) (fun _ h => h) within
  cases form with
  | whileHolds cond =>
    refine (mimics_operands sources).bind fun vs => (mimics_bindNames fresh.unbound vs).bind fun _ => ?_
    have holds : Mimics scope _ _ (lookup cond : Run α _) (lookup cond) :=
      mimics_lookup (guard (List.mem_singleton_self cond))
    refine (mimics_repeatWhile ?_ ?_ more).bind fun _ => results
    · exact holds.bind fun v => (mimics_lift _).bind fun a => mimics_lift _
    · exact mimics_step body within fresh.unbound (fun _ h => h)
  | forBelow counter w bound arrays =>
    obtain ⟨inits, rest⟩ := List.append_subset.mp sources
    obtain ⟨size, arraysKnown⟩ := List.append_subset.mp rest
    obtain ⟨apart, -⟩ := List.forall_mem_append.mp fresh.unbound
    refine (mimics_operands inits).bind fun vs => (mimics_bindNames apart vs).bind fun _ => ?_
    refine (mimics_lookups (List.Subset.trans arraysKnown within)).bindEnds fun vs looked => ?_
    refine (mimics_int (List.Subset.trans size within)).bind fun n => ?_
    refine (mimics_rounds (fun i _ => ?_) n.toNat 0 ()).bind fun _ => results
    obtain ⟨σ, τ, looked⟩ := looked
    have count := ends_lookups_length looked
    have names : ((arrays.map (·.1.name)).zip (vs.map Value.table)).map (·.1) =
        arrays.map (·.1.name) :=
      List.map_fst_zip (by simp only [List.length_map] at count ⊢; omega)
    refine mimics_round body w within (fun x known => ?_) (fun x known => ?_) ?_ i
    · rw [mem_opened] at known ⊢
      exact known.imp_left fun mem => List.mem_append_left _ mem
    · rw [names]
      simp only [loopNames, mem_opened, List.mem_append, List.mem_cons] at known ⊢
      tauto
    · rw [names]
      exact fresh.unbound

theorem mimics_screma {width : Operand} {arrays : List Name} {scans scans' : List Combiner}
    {reduces reduces' : List Reduction} {map map' : Lambda} (size : width.names ⊆ scope)
    (sources : arrays ⊆ scope)
    (scanned : List.Forall₂ (fun c c' => c'.neutral = c.neutral ∧ operandNames c.neutral ⊆ scope ∧
      Calls run run' scope c.op c'.op) scans scans')
    (reduced : List.Forall₂ (fun r r' => r'.combiner.neutral = r.combiner.neutral ∧
      operandNames r.combiner.neutral ⊆ scope ∧ Calls run run' scope r.combiner.op r'.combiner.op)
      reduces reduces')
    (mapped : Calls run run' scope map map') (ret : map'.ret = map.ret) :
    Mimics scope scope scope (screma run width arrays scans reduces map)
      (screma run' width arrays scans' reduces' map') := by
  rw [screma, screma, ret]
  refine (mimics_size size).bind fun n => (mimics_lookups sources).bind fun vs => ?_
  refine (mimics_mapM (scanned.imp fun c c' related => ?_)).bind fun scanAccs => ?_
  · rw [related.1]
    exact mimics_operands related.2.1
  refine (mimics_mapM (reduced.imp fun r r' related => ?_)).bind fun reduceAccs => ?_
  · rw [related.1]
    exact mimics_operands related.2.1
  refine (mimics_rounds (fun i s => ?_) n 0 _).bind fun _ => mimics_pure _
  refine mimics_fusedRow ?_ ?_ mapped _ _ i s
  · simpa only [List.forall₂_map_left_iff, List.forall₂_map_right_iff] using
      scanned.imp fun _ _ related => related.2.2
  · simpa only [List.forall₂_map_left_iff, List.forall₂_map_right_iff] using
      reduced.imp fun _ _ related => related.2.2

theorem mimics_stream {width : Operand} {arrays : List Name} {inits : List Operand} {l l' : Lambda}
    (size : width.names ⊆ scope) (sources : arrays ⊆ scope) (initials : operandNames inits ⊆ scope)
    (calls : Calls run run' scope l l') :
    Mimics scope scope scope (stream run width arrays inits l) (stream run' width arrays inits l') :=
  (mimics_int size).bind fun _ => (mimics_operands initials).bind fun _ =>
    (mimics_lookups sources).bind fun _ => calls _

theorem mimics_histRow {ops ops' : List Histogram}
    (updated : List.Forall₂ (fun h h' => h'.shape = h.shape ∧
      Calls run run' scope h.combiner.op h'.combiner.op) ops ops')
    (dests : List (List (Value α))) (idxs vs : List (Value α)) :
    Mimics scope scope scope (histRow run ops dests idxs vs) (histRow run' ops' dests idxs vs) := by
  induction updated generalizing dests idxs vs with
  | nil => exact mimics_pure dests
  | @cons h h' hs hs' related rest ih =>
    cases dests with
    | nil => exact mimics_pure []
    | cons ds dests =>
      rw [histRow, histRow, related.1]
      refine (mimics_lift _).bind fun at_ => (mimics_lift _).bind fun old => ?_
      cases old with
      | none => exact (mimics_pure ds).bind fun _ => (ih dests _ _).bind fun _ => mimics_pure _
      | some old =>
        refine (mimics_combine related.2 old _).bind fun new => ?_
        refine (mimics_each fun p _ => mimics_lift _).bind fun _ => ?_
        exact (ih dests _ _).bind fun _ => mimics_pure _

theorem mimics_hist {width : Operand} {ops ops' : List Histogram} {bucket bucket' : Lambda}
    {arrays : List Name} (size : width.names ⊆ scope) (sources : arrays ⊆ scope)
    (updated : List.Forall₂ (fun h h' => h'.shape = h.shape ∧ h'.dests = h.dests ∧
      h.dests ⊆ scope ∧ Calls run run' scope h.combiner.op h'.combiner.op) ops ops')
    (calls : Calls run run' scope bucket bucket') :
    Mimics scope scope scope (hist run width ops bucket arrays)
      (hist run' width ops' bucket' arrays) := by
  have indices : bucketIndices ops' = bucketIndices ops := by
    have shapes : ops'.map (·.shape.length) = ops.map (·.shape.length) := by
      induction updated with
      | nil => rfl
      | cons related rest ih => rw [List.map_cons, List.map_cons, related.1, ih]
    rw [bucketIndices, bucketIndices, shapes]
  rw [hist, hist, indices]
  refine (mimics_size size).bind fun n => (mimics_lookups sources).bind fun vs => ?_
  refine (mimics_mapM (updated.imp fun h h' related => ?_)).bind fun dests => ?_
  · rw [related.2.1]
    exact mimics_lookups related.2.2.1
  refine (mimics_rounds (fun i dests => ?_) n 0 _).bind fun _ => mimics_pure _
  refine (mimics_lift (rowsAt _ i)).bind fun rows => (calls rows).bind fun new => ?_
  refine (mimics_lift _).bind fun p => mimics_histRow (updated.imp fun _ _ related => ?_) _ _ _
  exact ⟨related.1, related.2.2.2⟩

theorem mimics_scatter {width : Operand} {l l' : Lambda} {arrays : List Name}
    {dests : List ScatterDest} (size : width.names ⊆ scope) (sources : arrays ⊆ scope)
    (targets : ∀ d ∈ dests, d.names ⊆ scope) (calls : Calls run run' scope l l') :
    Mimics scope scope scope (scatter run width l arrays dests)
      (scatter run' width l' arrays dests) := by
  have arraysKnown : dests.map (·.array) ⊆ scope := by
    intro x mem
    obtain ⟨d, isDest, rfl⟩ := List.mem_map.mp mem
    exact targets d isDest (by simp [ScatterDest.names])
  refine (mimics_size size).bind fun n => (mimics_lookups sources).bind fun vs => ?_
  refine (mimics_lookups arraysKnown).bind fun outs => mimics_rounds (fun i outs => ?_) n 0 outs
  refine (mimics_lift (rowsAt _ i)).bind fun rows => (calls rows).bind fun new => ?_
  exact (mimics_lift _).bind fun p => mimics_lift (scatterRow dests outs p.1 p.2)

/-- One case for each construct. -/
theorem mimics_exp {P : Body → Body → Prop} {arity : Nat} {e e' : Exp} (rebuilt : e.Over P e')
    (inScope : e.WellScoped scope arity) (alone : e.accumulates = false)
    (bodies : ∀ p ∈ e.entered scope, ∀ b', P p.2 b' → StandsFor run run' p.1 p.2 b')
    {fuel fuel' : Nat} (more : fuel ≤ fuel') :
    Mimics scope scope scope (exp run fuel e) (exp run' fuel' e') := by
  have calls {l l' : Lambda} (rebuilt : l.Over P l') (inScope : l.WellScoped scope)
      (inside : ∀ b', P (l.entered scope).2 b' →
        StandsFor run run' (l.entered scope).1 (l.entered scope).2 b') : Calls run run' scope l l' := by
    cases inScope with
    | lambda fresh _ _ => exact calls_of_stands fresh rebuilt.params_eq (inside _ rebuilt.body)
  cases rebuilt with
  | basic op =>
    cases inScope with
    | basic known _ => exact (mimics_basicOp known alone run run').bind fun v => mimics_pure [v]
  | apply func args ret =>
    cases inScope with
    | apply known _ =>
      refine (mimics_each fun x mem =>
        mimics_scalar (List.Subset.trans (mem_operandNames mem) known)).bind fun vs => ?_
      exact (mimics_lift (ScalarAlgebra.call func vs)).bind fun v => mimics_pure _
  | branch yes no =>
    cases inScope with
    | branch known _ _ _ _ _ =>
      refine (mimics_scalar known).bind fun v => (mimics_lift (ScalarAlgebra.asBool v)).bind
        fun b => ?_
      cases b with
      | false => exact bodies _ (.tail _ (.head _)) _ no
      | true => exact bodies _ (.head _) _ yes
  | loop body =>
    cases inScope with
    | loop sources fresh guard _ _ _ =>
      exact mimics_loop sources fresh guard (bodies _ (.head _) _ body) more
  | withAcc => simp [Exp.accumulates] at alone
  | screma scanned reduced mapped =>
    cases inScope with
    | screma size sources scansIn reducesIn mapIn =>
      simp only [Exp.entered, List.forall_mem_cons, List.forall_mem_append, List.forall_mem_map]
        at bodies
      obtain ⟨mapStands, scanStands, reduceStands⟩ := bodies
      refine mimics_screma size sources ?_ ?_ (calls mapped mapIn mapStands) mapped.ret_eq
      · have known := (List.forall₂_and_left _ _).mpr
          ⟨fun c mem => And.intro mem (scansIn c mem), scanned⟩
        refine known.imp fun c c' related => ?_
        obtain ⟨⟨mem, neutral, opIn⟩, ⟨rebuilt⟩⟩ := related
        exact ⟨rfl, neutral, calls rebuilt opIn (scanStands _ mem)⟩
      · have known := (List.forall₂_and_left _ _).mpr
          ⟨fun r mem => And.intro mem (reducesIn r mem), reduced⟩
        refine known.imp fun r r' related => ?_
        obtain ⟨⟨mem, inScope⟩, ⟨⟨rebuilt⟩⟩⟩ := related
        obtain ⟨neutral, opIn⟩ := inScope
        exact ⟨rfl, neutral, calls rebuilt opIn (reduceStands _ mem)⟩
  | stream l =>
    cases inScope with
    | stream size sources initials _ lamIn =>
      exact mimics_stream size sources initials (calls l lamIn (bodies _ (.head _)))
  | hist updated bucket =>
    cases inScope with
    | hist size opsIn bucketIn sources =>
      simp only [Exp.entered, List.forall_mem_cons, List.forall_mem_map] at bodies
      obtain ⟨bucketStands, opStands⟩ := bodies
      refine mimics_hist size sources ?_ (calls bucket bucketIn bucketStands)
      have known := (List.forall₂_and_left _ _).mpr ⟨fun h mem => And.intro mem (opsIn h mem), updated⟩
      refine known.imp fun h h' related => ?_
      obtain ⟨⟨mem, inScope⟩, ⟨⟨rebuilt⟩⟩⟩ := related
      obtain ⟨-, -, dests, ⟨-, opIn⟩⟩ := inScope
      exact ⟨rfl, rfl, dests, calls rebuilt opIn (opStands _ mem)⟩
  | scatter l =>
    cases inScope with
    | scatter size lamIn sources targets =>
      exact mimics_scatter size sources targets (calls l lamIn (bodies _ (.head _)))

end

/-! Programs with statements replaced. -/

section

variable [ScalarAlgebra α] {R : Stm → List Stm → Prop} {on : Name → Prop} {more : Nat}

theorem stms_cons (fuel : Nat) (s : Stm) (ss : List Stm) :
    (stms fuel (s :: ss) : Run α Unit) = stm (runBody fuel) fuel s >>= fun _ => stms fuel ss := rfl

/-- What replaces a statement mimics it wherever it may stand, given some more fuel. -/
def Replaces (α : Type) [ScalarAlgebra α] (on : Name → Prop) (R : Stm → List Stm → Prop)
    (more : Nat) : Prop :=
  ∀ s new, R s new → ∀ scope : Scope, s.Placed on scope → ∀ fuel,
    Mimics scope scope (scope.opened (s.pat.map (·.name)))
      (stm (runBody fuel) fuel s : Run α Unit) (stms (fuel + more) new)

theorem mimics_stm {fuel : Nat}
    (bodies : ∀ scope b b', b.Placed on scope → b.Rewritten R b' →
      StandsFor (runBody fuel) (runBody (fuel + more) : Body → Run α _) scope b b')
    {scope : Scope} {pat : List Param} {aux : Annotations} {e e' : Exp}
    (placed : Stm.Placed on scope ⟨pat, aux, e⟩) (rebuilt : e.Over (Body.Rewritten R) e') :
    Mimics scope scope (scope.opened (pat.map (·.name)))
      (stm (runBody fuel) fuel ⟨pat, aux, e⟩ : Run α Unit)
      (stm (runBody (fuel + more)) (fuel + more) ⟨pat, aux, e'⟩) := by
  have inside := placed.exp
  have same := mimics_exp rebuilt inside.inScope inside.alone
    (fun p mem b' => bodies p.1 p.2 b' (inside.entered p mem)) (Nat.le_add_right fuel more)
  exact same.bind fun vs => mimics_bindNames placed.fresh.unbound vs

theorem mimics_stms {fuel : Nat} (replaces : Replaces α on R more)
    (bodies : ∀ scope b b', b.Placed on scope → b.Rewritten R b' →
      StandsFor (runBody fuel) (runBody (fuel + more) : Body → Run α _) scope b b')
    {scope : Scope} {ss ss' : List Stm} (placed : StmsPlaced on scope ss)
    (rewritten : StmsRewritten R ss ss') :
    Mimics scope scope (scope.afterStms ss) (stms fuel ss : Run α Unit) (stms (fuel + more) ss') := by
  induction ss generalizing scope ss' with
  | nil =>
    cases rewritten
    exact mimics_pure ()
  | cons s ss ih =>
    obtain ⟨first, rest⟩ := placed.cons
    have opened : scope ⊆ scope.opened (s.pat.map (·.name)) := List.subset_append_right _ _
    cases rewritten with
    | keep rebuilt later =>
      rw [stms_cons, stms_cons]
      refine (mimics_stm bodies first rebuilt).bind fun _ => ?_
      exact (ih rest later).mono opened (fun _ h => h) (fun _ h => h)
    | replace new later =>
      rw [stms_cons, stms_append]
      refine (replaces _ _ new scope first fuel).bind fun _ => ?_
      exact (ih rest later).mono opened (fun _ h => h) (fun _ h => h)

/-- Bodies mimic those they were rewritten from, whatever the fuel. -/
theorem stands_runBody (replaces : Replaces α on R more) (fuel : Nat) {scope : Scope} {b b' : Body}
    (placed : b.Placed on scope) (rewritten : b.Rewritten R b') :
    StandsFor (runBody fuel) (runBody (fuel + more) : Body → Run α _) scope b b' := by
  induction fuel generalizing scope b b' with
  | zero => exact mimics_outOfFuel _
  | succ fuel ih =>
    obtain ⟨stmsPlaced, results⟩ := placed.stms
    obtain ⟨stmsRewritten, same⟩ := rewritten.stms
    have ran := mimics_stms replaces (fun scope b b' placed => ih placed) stmsPlaced stmsRewritten
    rw [Nat.add_right_comm]
    show Mimics scope scope scope (do stms fuel b.stms; operands b.result)
      (do stms (fuel + more) b'.stms; operands b'.result)
    rw [same]
    exact ran.bind fun _ => (mimics_operands results).mono (fun _ h => h) (fun _ h => h)
      (subset_afterStms scope b.stms)

/-- Calls of a lambda mimic those of the lambda it was rewritten from. -/
theorem calls_rewritten (replaces : Replaces α on R more) (fuel : Nat) {scope : Scope}
    {l l' : Lambda} (placed : l.Placed on scope) (rewritten : l.Rewritten R l') :
    Calls (runBody fuel) (runBody (fuel + more) : Body → Run α _) scope l l' :=
  calls_of_stands placed.fresh rewritten.params_eq
    (stands_runBody replaces fuel placed.entered rewritten.body)

/-- What a lambda without accumulators comes to depends on the names in scope only, and it leaves
    those as they are. -/
theorem calls_self (fuel : Nat) {scope : Scope} {l : Lambda} (inScope : l.WellScoped scope)
    (free : AccFree l.body.parts) :
    Calls (runBody fuel) (runBody fuel : Body → Run α _) scope l l := by
  have never : Replaces α (fun _ => True) (fun _ _ => False) 0 := fun _ _ impossible => impossible.elim
  have placed : l.Placed (fun _ => True) scope :=
    ⟨inScope, free, fun _ _ => trivial, fun _ _ => trivial⟩
  exact calls_rewritten never fuel placed (.refl .same l)

end

end Run

/-- A lambda and what it is rewritten to succeed on the same arguments with the same values, wherever
    both runs end. -/
theorem interp_rewritten [ScalarAlgebra α] {R : Stm → List Stm → Prop} {more : Nat} {l l' : Lambda}
    (replaces : Run.Replaces α l.Mentions R more) (valid : l.validate = .ok ()) (free : l.AccFree)
    (rewritten : l.Rewritten R l') {args : List (Value α)} {fuel fuel' : Nat}
    {r r' : Except (Fault α) (List (Value α))} (ends : l.interp args fuel = some r)
    (ends' : l'.interp args fuel' = some r') (vs : List (Value α)) : r = .ok vs ↔ r' = .ok vs := by
  let top := max fuel fuel'
  have enough : fuel' ≤ top + more := Nat.le_add_right_of_le (Nat.le_max_right fuel fuel')
  have ends := interp_mono (Nat.le_max_left fuel fuel') ends
  have ends' := interp_mono enough ends'
  have placed : l.Placed l.Mentions [] :=
    ⟨(lambda_wellScoped [] l).mpr ((validate_iff l).mp valid),
      free.parts.mono (Body.parts_sublist_lambda l), fun o mem => ⟨o, mem, rfl⟩, by simp⟩
  have calls := Run.calls_rewritten replaces top placed rewritten
  have follows := calls args Store.initial Store.initial (.refl _ _)
  have forth (ws : List (Value α)) (isOk : r = .ok ws) : r' = .ok ws := by
    obtain ⟨τ, ran⟩ := (interp_ok ..).mp (isOk ▸ ends)
    obtain ⟨-, τ', ran', -⟩ := follows.ends ws τ ran
    exact Option.some.inj (ends'.symm.trans ((interp_ok ..).mpr ⟨τ', ran'⟩))
  refine ⟨forth vs, fun isOk => ?_⟩
  cases r with
  | ok ws => exact (forth ws rfl).symm.trans isOk
  | error e =>
    obtain ⟨τ', ran'⟩ := (interp_ok ..).mp (isOk ▸ ends')
    exact absurd ran' (follows.fails e ((interp_error ..).mp ends) vs τ')

end Cotangent
