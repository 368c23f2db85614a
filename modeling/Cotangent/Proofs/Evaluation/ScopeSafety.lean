import Cotangent.Proofs.Derivative.Steps
import Cotangent.Proofs.Evaluation.Ends
import Cotangent.Proofs.Value.Nameless
/-!
Checked programs read bound names only. The store is flat and never loses a binding, so a run started
where every name of the scope has a value still has one for each of them later on. Combining operators
run far from where they were written: the store keeps for each that all its names were bound when the
operator was put there.
-/
namespace Cotangent

open Outline

namespace Store

/-- Every name of the scope has a value. -/
def Has (σ : Store Scalar) (scope : Scope) : Prop := ∀ x ∈ scope, (σ.vars.find? x).isSome

/-- What is bound stays bound. -/
def Within (σ τ : Store Scalar) : Prop :=
  ∀ x, (σ.vars.find? x).isSome → (τ.vars.find? x).isSome

/-- Each combining operator was checked in a scope that is bound. -/
def Sound (σ : Store Scalar) : Prop :=
  ∀ op, some op ∈ σ.combiners → ∃ scope, op.outline.Accepted scope ∧ σ.Has scope

variable {σ τ υ : Store Scalar} {scope wider : Scope}

theorem Within.refl (σ : Store Scalar) : σ.Within σ := fun _ known => known

theorem Within.trans (first : σ.Within τ) (second : τ.Within υ) : σ.Within υ :=
  fun x known => second x (first x known)

theorem Has.within (has : σ.Has scope) (within : σ.Within τ) : τ.Has scope :=
  fun x known => within x (has x known)

theorem Has.sub (has : σ.Has wider) (sub : ∀ x ∈ scope, x ∈ wider) : σ.Has scope :=
  fun x known => has x (sub x known)

theorem Sound.within (sound : σ.Sound) (within : σ.Within τ) (same : τ.combiners = σ.combiners) :
    τ.Sound := by
  intro op mem
  obtain ⟨scope, accepted, has⟩ := sound op (same ▸ mem)
  exact ⟨scope, accepted, has.within within⟩

theorem sound_initial : Store.initial.Sound := by simp [Sound, Store.initial]

theorem has_bound (σ : Store Scalar) {xs : List Name} {vs : List Value}
    (same : vs.length = xs.length) : (σ.bound xs vs).Has xs := by
  intro x mem
  have paired : x ∈ (xs.zip vs).map (·.1) := by rwa [List.map_fst_zip (by omega)]
  obtain ⟨v, -, found⟩ := NameTable.find_insertAll_of_mem σ.vars _ x paired
  simp [Store.bound, found]

theorem within_bound (σ : Store Scalar) (xs : List Name) (vs : List Value) :
    σ.Within (σ.bound xs vs) := by
  intro x known
  by_cases paired : x ∈ (xs.zip vs).map (·.1)
  · obtain ⟨v, -, found⟩ := NameTable.find_insertAll_of_mem σ.vars _ x paired
    simp [Store.bound, found]
  · have kept := NameTable.find_insertAll_of_not_mem σ.vars (xs.zip vs) x fun p mem same =>
      paired (List.mem_map.mpr ⟨p, mem, same⟩)
    simpa [Store.bound, kept] using known

end Store

/-! What the scope check says of each operator in a list. -/

theorem accepted_combiner (c : Combiner) (scope : Scope) : c.outline.Accepted scope ↔
    (∀ x ∈ operandNames c.neutral, x ∈ scope) ∧ c.op.outline.Accepted scope := by
  obtain ⟨op, neutral⟩ := c
  simp [Combiner.outline, Accepted]

theorem accepted_combinerOutline (cs : List Combiner) (scope : Scope) :
    (combinerOutline cs).Accepted scope ↔
      ∀ c ∈ cs, (∀ x ∈ operandNames c.neutral, x ∈ scope) ∧ c.op.outline.Accepted scope := by
  induction cs with
  | nil => simp [combinerOutline, Accepted]
  | cons c cs ih => simp [combinerOutline, Scope.after_combiner, accepted_combiner, ih]

theorem accepted_reductionOutline (rs : List Reduction) (scope : Scope) :
    (reductionOutline rs).Accepted scope ↔ ∀ r ∈ rs,
      (∀ x ∈ operandNames r.combiner.neutral, x ∈ scope) ∧
        r.combiner.op.outline.Accepted scope := by
  induction rs with
  | nil => simp [reductionOutline, Accepted]
  | cons r rs ih =>
    obtain ⟨commutative, c⟩ := r
    simp [reductionOutline, Scope.after_combiner, accepted_combiner, ih]

/-- Of what is checked, the arrays that are opened and the operators that updates will run. -/
theorem accepted_accInputOutline {inputs : List AccInput} {scope : Scope}
    (accepted : (accInputOutline inputs).Accepted scope) :
    ∀ input ∈ inputs, (∀ x ∈ input.arrays, x ∈ scope) ∧
      ∀ c, input.combine = some c → c.op.outline.Accepted scope := by
  induction inputs with
  | nil => simp
  | cons input inputs ih =>
    obtain ⟨shape, arrays, combine⟩ := input
    cases combine with
    | none =>
      simp only [accInputOutline, accepted_append, accepted_readsAll, after_readsAll,
        List.forall_mem_append] at accepted
      refine List.forall_mem_cons.mpr ⟨⟨accepted.1.2, by simp⟩, ih accepted.2⟩
    | some c =>
      simp only [accInputOutline, accepted_append, accepted_readsAll, after_append, after_readsAll,
        Scope.after_combiner, accepted_combiner, List.forall_mem_append] at accepted
      refine List.forall_mem_cons.mpr ⟨⟨accepted.1.1.2, ?_⟩, ih accepted.2⟩
      rintro _ ⟨⟩
      exact accepted.1.2.2

/-- Of what is checked, the destinations and the operators. -/
theorem accepted_histogramOutline {hs : List Histogram} {scope : Scope}
    (accepted : (histogramOutline hs).Accepted scope) :
    ∀ h ∈ hs, (∀ x ∈ h.dests, x ∈ scope) ∧ h.combiner.op.outline.Accepted scope := by
  induction hs with
  | nil => simp
  | cons h hs ih =>
    obtain ⟨shape, race, dests, c⟩ := h
    simp only [histogramOutline, accepted_append, accepted_readsAll, after_append, after_readsAll,
      Scope.after_combiner, accepted_combiner, List.forall_mem_append] at accepted
    exact List.forall_mem_cons.mpr ⟨⟨accepted.1.1.2, accepted.1.2.2⟩, ih accepted.2⟩

namespace Run

variable {β γ : Type} {σ : Store Scalar} {scope inner after wider low : Scope}

/-- From this store the run reads bound names only; it keeps every binding and binds `after`. -/
structure SafeFrom (m : Run Scalar β) (σ : Store Scalar) (after : Scope) : Prop where
  reads : ∀ x, outcome m σ ≠ some (.error (.unbound x))
  keeps : ∀ b τ, Ends m σ b τ → τ.Sound ∧ σ.Within τ ∧ τ.Has after

/-- The run is safe wherever the names of `scope` are bound. -/
def Safe (m : Run Scalar β) (scope after : Scope) : Prop :=
  ∀ σ : Store Scalar, σ.Sound → σ.Has scope → SafeFrom m σ after

/-! The rules of the run monad. -/

theorem SafeFrom.bind {m : Run Scalar β} {f : β → Run Scalar γ} (first : SafeFrom m σ inner)
    (rest : ∀ b τ, Ends m σ b τ → τ.Sound → σ.Within τ → τ.Has inner → SafeFrom (f b) τ after) :
    SafeFrom (m >>= f) σ after where
  reads x failed := by
    rw [outcome_bind] at failed
    cases ran : outcome m σ with
    | none => simp [ran] at failed
    | some r =>
      cases r with
      | error e =>
        obtain rfl : e = .unbound x := by simpa [ran] using failed
        exact first.reads x ran
      | ok p =>
        obtain ⟨b, τ⟩ := p
        obtain ⟨sound, within, has⟩ := first.keeps b τ ran
        exact (rest b τ ran sound within has).reads x (by simpa [ran] using failed)
  keeps c υ ends := by
    obtain ⟨b, τ, ran, ends⟩ := (ends_bind ..).mp ends
    obtain ⟨sound, within, has⟩ := first.keeps b τ ran
    obtain ⟨sound, further, has⟩ := (rest b τ ran sound within has).keeps c υ ends
    exact ⟨sound, within.trans further, has⟩

/-- What the rest of a run needs is bound by its first part or was bound before. -/
theorem Safe.bind {m : Run Scalar β} {f : β → Run Scalar γ} {S : Scope} (first : Safe m scope S)
    (rest : ∀ b, (∃ σ τ, Ends m σ b τ) → Safe (f b) S after) : Safe (m >>= f) scope after :=
  fun σ sound has => (first σ sound has).bind fun b τ ends sound _ has =>
    rest b ⟨σ, τ, ends⟩ τ sound has

theorem SafeFrom.mono {m : Run Scalar β} (safe : SafeFrom m σ after) (has : σ.Has scope)
    (sub : ∀ x ∈ low, x ∈ after ∨ x ∈ scope) : SafeFrom m σ low where
  reads := safe.reads
  keeps b τ ends := by
    obtain ⟨sound, within, gained⟩ := safe.keeps b τ ends
    refine ⟨sound, within, fun x mem => ?_⟩
    rcases sub x mem with new | old
    · exact gained x new
    · exact within x (has x old)

theorem Safe.mono {m : Run Scalar β} (safe : Safe m scope after) (narrow : ∀ x ∈ scope, x ∈ wider)
    (sub : ∀ x ∈ low, x ∈ after ∨ x ∈ wider) : Safe m wider low :=
  fun σ sound has => (safe σ sound (has.sub narrow)).mono has sub

/-- The scope a run starts in is still bound when it ends. -/
theorem Safe.keep {m : Run Scalar β} {S : Scope} (safe : Safe m scope S) : Safe m scope scope :=
  safe.mono (fun _ known => known) fun _ known => .inr known

theorem safe_pure (b : β) (scope : Scope) : Safe (pure b) scope scope := fun σ sound has =>
  ⟨by simp [show outcome (pure b : Run Scalar β) σ = some (.ok (b, σ)) from rfl], fun c τ ends => by
    obtain ⟨-, rfl⟩ := (ends_pure ..).mp ends
    exact ⟨sound, .refl σ, has⟩⟩

theorem safe_lift {m : Except (Fault Scalar) β} (nameless : Nameless m) (scope : Scope) :
    Safe (liftM m : Run Scalar β) scope scope := by
  intro σ sound has
  refine ⟨fun x failed => ?_, fun b τ ends => ?_⟩
  · cases m with
    | error e =>
      have fails : outcome (liftM (.error e : Except (Fault Scalar) β) : Run Scalar β) σ =
        some (.error e) := rfl
      obtain rfl : e = .unbound x := by simpa [fails] using failed
      exact nameless x rfl
    | ok b => cases failed
  · obtain ⟨-, rfl⟩ := (ends_lift ..).mp ends
    exact ⟨sound, .refl σ, has⟩

theorem safe_throw {e : Fault Scalar} (other : ∀ x, e ≠ .unbound x) (scope : Scope) :
    Safe (throw e : Run Scalar β) scope scope := by
  intro σ _ _
  have fails : outcome (throw e : Run Scalar β) σ = some (.error e) := rfl
  exact ⟨by simpa [fails] using other, fun b τ ends => absurd ends (ends_throw e σ τ b)⟩

theorem safe_outOfFuel (scope after : Scope) : Safe (outOfFuel : Run Scalar β) scope after :=
  fun σ _ _ => ⟨by simp [show outcome (outOfFuel : Run Scalar β) σ = none from rfl],
    fun b τ ends => absurd ends (ends_outOfFuel σ τ b)⟩

theorem safe_mapM {f : β → Run Scalar γ} {xs : List β}
    (each : ∀ x ∈ xs, Safe (f x) scope scope) : Safe (xs.mapM f) scope scope := by
  induction xs with
  | nil => exact safe_pure [] scope
  | cons x xs ih =>
    rw [List.mapM_cons]
    refine (each x (by simp)).bind fun y _ => ?_
    exact (ih fun z later => each z (by simp [later])).bind fun ys _ => safe_pure _ scope

theorem safe_rounds {step : Nat → β → Run Scalar β} (each : ∀ i b, Safe (step i b) scope scope)
    (n i : Nat) (b : β) : Safe (rounds step n i b) scope scope := by
  induction n generalizing i b with
  | zero => exact safe_pure b scope
  | succ n ih => exact (each i b).bind fun b _ => ih (i + 1) b

theorem safe_repeatWhile {holds : Run Scalar Bool} {step : Run Scalar Unit}
    (condition : Safe holds scope scope) (round : Safe step scope scope) (fuel : Nat) :
    Safe (repeatWhile holds step fuel) scope scope := by
  induction fuel with
  | zero => exact safe_outOfFuel scope scope
  | succ fuel ih =>
    refine condition.bind fun b _ => ?_
    cases b with
    | false => exact safe_pure () scope
    | true => exact round.bind fun _ _ => ih

/-! Reads and bindings. -/

theorem safe_lookup {x : Name} (known : x ∈ scope) : Safe (lookup x) scope scope := by
  intro σ sound has
  obtain ⟨v, found⟩ := Option.isSome_iff_exists.mp (has x known)
  refine ⟨fun y failed => ?_, fun b τ ends => ?_⟩
  · have ends : Ends (lookup x) σ v σ := (ends_lookup ..).mpr ⟨found, rfl⟩
    unfold Ends at ends
    simp [ends] at failed
  · obtain ⟨-, rfl⟩ := (ends_lookup ..).mp ends
    exact ⟨sound, .refl σ, has⟩

theorem safe_lookups {xs : List Name} (known : ∀ x ∈ xs, x ∈ scope) :
    Safe (lookups xs) scope scope :=
  safe_mapM fun x mem => safe_lookup (known x mem)

theorem safe_bindNames (xs : List Name) (vs : List Value) (scope : Scope) :
    Safe (Run.bind xs vs) scope xs := by
  intro σ sound has
  refine SafeFrom.bind (safe_lift (fun x failed => ?_) scope σ sound has) fun _ τ ends sound _ _ => ?_
  · unfold checkArity at failed
    split at failed <;> cases failed
  · obtain ⟨same, rfl⟩ := (ends_checkArity ..).mp ends
    refine ⟨fun x failed => (by cases failed), fun _ τ ends => ?_⟩
    obtain rfl := (ends_modify ..).mp ends
    have within := Store.within_bound σ xs vs
    exact ⟨sound.within within rfl, within, Store.has_bound σ same⟩

theorem safe_set (x : Name) (v : Value) (scope : Scope) : Safe (set x v) scope [x] := by
  intro σ sound has
  refine ⟨fun x failed => (by cases failed), fun _ τ ends => ?_⟩
  obtain rfl := (ends_set ..).mp ends
  have within := Store.within_bound σ [x] [v]
  exact ⟨sound.within within rfl, within, Store.has_bound σ rfl⟩

/-! Operands and their parts. -/

theorem safe_operand {x : Operand} (known : ∀ y ∈ x.names, y ∈ scope) :
    Safe (operand x) scope scope := by
  cases x with
  | const v => exact safe_pure _ scope
  | var x => exact safe_lookup (known x (by simp [Operand.names]))

theorem safe_operands {xs : List Operand} (known : ∀ y ∈ operandNames xs, y ∈ scope) :
    Safe (operands xs) scope scope :=
  safe_mapM fun x mem => safe_operand fun y inX =>
    known y (List.mem_flatMap.mpr ⟨x, mem, inX⟩)

theorem nameless_algebra_asInt (v : Scalar) : Nameless (ScalarAlgebra.asInt v) := by
  cases v <;> simp [Nameless, ScalarAlgebra.asInt, ScalarAlgebra.toScalar]

theorem nameless_algebra_asBool (v : Scalar) : Nameless (ScalarAlgebra.asBool v) := by
  cases v <;> simp [Nameless, ScalarAlgebra.asBool, ScalarAlgebra.toScalar]

theorem nameless_asSize (n : Int) : Nameless (asSize n : Except (Fault Scalar) Nat) := by
  unfold asSize
  split <;> simp [Nameless]

theorem nameless_checkArity (m n : Nat) : Nameless (checkArity m n : Except (Fault Scalar) Unit) := by
  unfold checkArity
  split <;> simp [Nameless]

theorem nameless_splitValues (vs : List Value) (n : Nat) : Nameless (splitValues vs n) := by
  unfold splitValues
  split <;> simp [Nameless]

theorem nameless_fixedDims (vs : List Value) : Nameless (fixedDims vs) :=
  .mapM fun v _ => (Value.nameless_asScalar v).bind fun a =>
    (nameless_algebra_asInt a).bind fun _ => .pure _

theorem nameless_inBounds {m : Except (Fault Scalar) β} (nameless : Nameless m) :
    Nameless (inBounds m) := by
  cases m with
  | ok b => exact .ok _
  | error e =>
    cases e with
    | unbound x => exact absurd rfl (nameless x)
    | _ => simp [Nameless, inBounds]

theorem safe_scalar {x : Operand} (known : ∀ y ∈ x.names, y ∈ scope) :
    Safe (scalar x) scope scope :=
  (safe_operand known).bind fun v _ => safe_lift (Value.nameless_asScalar v) scope

theorem safe_int {x : Operand} (known : ∀ y ∈ x.names, y ∈ scope) : Safe (int x) scope scope :=
  (safe_scalar known).bind fun v _ => safe_lift (nameless_algebra_asInt v) scope

theorem safe_number {x : Operand} (known : ∀ y ∈ x.names, y ∈ scope) :
    Safe (number x) scope scope :=
  (safe_scalar known).bind fun v _ =>
    (safe_lift (nameless_algebra_asInt v) scope).bind fun _ _ => safe_pure v scope

theorem safe_size {x : Operand} (known : ∀ y ∈ x.names, y ∈ scope) : Safe (size x) scope scope :=
  (safe_int known).bind fun n _ => safe_lift (nameless_asSize n) scope

theorem safe_sizes {xs : List Operand} (known : ∀ y ∈ operandNames xs, y ∈ scope) :
    Safe (sizes xs) scope scope :=
  safe_mapM fun x mem => safe_size fun y inX => known y (List.mem_flatMap.mpr ⟨x, mem, inX⟩)

theorem safe_dim {d : DimIndex} (known : ∀ y ∈ d.names, y ∈ scope) : Safe (dim d) scope scope := by
  cases d with
  | fix i => exact (safe_int known).bind fun n _ => safe_pure _ scope
  | slice start len stride =>
    simp only [DimIndex.names, operandNames, List.mem_flatMap, List.mem_cons] at known
    refine (safe_int fun y mem => known y ⟨start, by simp, mem⟩).bind fun _ _ => ?_
    refine (safe_int fun y mem => known y ⟨len, by simp, mem⟩).bind fun _ _ => ?_
    exact (safe_int fun y mem => known y ⟨stride, by simp, mem⟩).bind fun _ _ => safe_pure _ scope

theorem safe_dims {ds : List DimIndex} (known : ∀ y ∈ ds.flatMap DimIndex.names, y ∈ scope) :
    Safe (dims ds) scope scope :=
  safe_mapM fun d mem => safe_dim fun y inD => known y (List.mem_flatMap.mpr ⟨d, mem, inD⟩)

/-! Constructs, over bodies that are safe wherever they were checked. -/

/-- Bodies read bound names only where they pass the scope check. -/
def RunsSafely (run : Body → Run Scalar (List Value)) : Prop :=
  ∀ (b : Body) (scope : Scope), b.outline.Accepted scope → Safe (run b) scope scope

section

variable {run : Body → Run Scalar (List Value)} (runs : RunsSafely run)

include runs

theorem safe_applyLambda {l : Lambda} (accepted : l.outline.Accepted scope) (args : List Value) :
    Safe (applyLambda run l args) scope scope := by
  obtain ⟨params, inside, -⟩ := (accepted_lambda l scope).mp accepted
  have opened : Safe (Run.bind (l.params.map (·.name)) args) scope
      ((paramOutline l.params).after scope) := by
    refine (safe_bindNames _ args scope).mono (fun _ known => known) fun x mem => ?_
    rcases (mem_after_paramOutline l.params scope x).mp mem with known | ⟨p, mem, same⟩
    · exact .inr known
    · exact .inl (List.mem_map.mpr ⟨p, mem, same⟩)
  exact (opened.bind fun _ _ => runs l.body _ inside).keep

theorem safe_combine {l : Lambda} (accepted : l.outline.Accepted scope) (acc vs : List Value) :
    Safe (combine run l acc vs) scope scope :=
  (safe_applyLambda runs accepted _).bind fun new _ =>
    (safe_lift (nameless_checkArity _ _) scope).bind fun _ _ => safe_pure new scope

/-- The operator of an accumulator was checked in a scope that is still bound. -/
theorem safeFrom_operator {op : Lambda} (sound : σ.Sound) {id : Nat}
    (selected : (σ.combiners[id]?).join = some op) (args : List Value) :
    SafeFrom (applyLambda run op args) σ [] := by
  have listed : some op ∈ σ.combiners :=
    List.mem_of_getElem? (Option.join_eq_some_iff.mp selected)
  obtain ⟨scope, accepted, has⟩ := sound op listed
  exact (safe_applyLambda runs accepted args σ sound has).mono has (by simp)

theorem safe_updateAcc {acc : Name} {position values : List Operand} (handle : acc ∈ scope)
    (positions : ∀ y ∈ operandNames position, y ∈ scope)
    (written : ∀ y ∈ operandNames values, y ∈ scope) :
    Safe (updateAcc run acc position values) scope scope := by
  refine (safe_lookup handle).bind fun v _ => ?_
  cases v with
  | acc id arrays =>
    refine (safe_operands positions).bind fun idx _ => ?_
    refine (safe_lift (nameless_fixedDims idx) scope).bind fun ds _ => ?_
    refine (safe_operands written).bind fun vs _ => ?_
    refine (safe_lift (nameless_inBounds (.mapM fun v _ => Value.nameless_index ds v)) scope).bind
      fun old _ => ?_
    cases old with
    | none => exact safe_pure _ scope
    | some old =>
      have store (new : List Value) : Safe (do
          checkArity (α := Scalar) arrays.length new.length
          let arrays ← (arrays.zip new).mapM fun p => Value.update (α := Scalar) ds p.1 p.2
          return .acc id arrays : Run Scalar Value) scope scope :=
        (safe_lift (nameless_checkArity _ _) scope).bind fun _ _ =>
          (safe_mapM fun p _ => safe_lift (Value.nameless_update ds p.1 p.2) scope).bind fun _ _ =>
            safe_pure _ scope
      intro σ sound has
      have reads : SafeFrom (get : Run Scalar (Store Scalar)) σ scope :=
        ⟨fun x failed => (by cases failed), fun υ τ ends => by
          obtain ⟨rfl, rfl⟩ := (ends_get ..).mp ends
          exact ⟨sound, .refl σ, has⟩⟩
      refine reads.bind fun υ τ ends _ _ _ => ?_
      obtain ⟨rfl, rfl⟩ := (ends_get ..).mp ends
      dsimp only
      cases selected : (σ.combiners[id]?).join with
      | some op =>
        exact (safeFrom_operator runs sound selected _).bind fun new τ _ sound within _ =>
          store new τ sound (has.within within)
      | none => exact (safe_pure vs scope).bind (fun new _ => store new) σ sound has
  | scalar v => exact safe_throw (by simp) scope
  | array rows => exact safe_throw (by simp) scope

theorem safe_basicOp {op : BasicOp} (known : ∀ y ∈ op.names, y ∈ scope) :
    Safe (basicOp run op) scope scope := by
  cases op with
  | operand x => exact safe_operand known
  | arrayLit elems ty => exact (safe_operands known).bind fun vs _ => safe_pure _ scope
  | unary op x =>
    refine (safe_scalar known).bind fun v _ => ?_
    exact (safe_lift (nameless_unary op v) scope).bind fun _ _ => safe_pure _ scope
  | binary op x y =>
    simp only [BasicOp.names, operandNames, List.mem_flatMap, List.mem_cons] at known
    refine (safe_scalar fun z mem => known z ⟨x, by simp, mem⟩).bind fun u _ => ?_
    refine (safe_scalar fun z mem => known z ⟨y, by simp, mem⟩).bind fun v _ => ?_
    exact (safe_lift (nameless_binary op u v) scope).bind fun _ _ => safe_pure _ scope
  | compare op x y =>
    simp only [BasicOp.names, operandNames, List.mem_flatMap, List.mem_cons] at known
    refine (safe_scalar fun z mem => known z ⟨x, by simp, mem⟩).bind fun u _ => ?_
    refine (safe_scalar fun z mem => known z ⟨y, by simp, mem⟩).bind fun v _ => ?_
    exact (safe_lift (nameless_compare op u v) scope).bind fun _ _ => safe_pure _ scope
  | convert op x =>
    refine (safe_scalar known).bind fun v _ => ?_
    exact (safe_lift (nameless_convert op v) scope).bind fun _ _ => safe_pure _ scope
  | index array slice =>
    simp only [BasicOp.names, List.forall_mem_cons] at known
    refine (safe_lookup known.1).bind fun v _ => (safe_dims known.2).bind fun ds _ => ?_
    exact safe_lift (Value.nameless_index ds v) scope
  | update array slice value =>
    simp only [BasicOp.names, List.forall_mem_cons, List.forall_mem_append] at known
    refine (safe_lookup known.1).bind fun v _ => (safe_dims known.2.1).bind fun ds _ => ?_
    exact (safe_operand known.2.2).bind fun x _ => safe_lift (Value.nameless_update ds v x) scope
  | concat dim first rest width =>
    simp only [BasicOp.names, List.forall_mem_append] at known
    exact (safe_lookups known.1).bind fun vs _ => safe_lift (Value.nameless_concat dim vs) scope
  | copy array => exact safe_lookup (known array (by simp [BasicOp.names]))
  | manifest perm array => exact safe_lookup (known array (by simp [BasicOp.names]))
  | reshape shape array =>
    simp only [BasicOp.names, List.forall_mem_append, List.forall_mem_singleton] at known
    refine (safe_lookup known.2).bind fun v _ => (safe_sizes known.1).bind fun shape _ => ?_
    exact safe_lift (Value.nameless_reshape v shape) scope
  | rearrange perm array =>
    exact (safe_lookup (known array (by simp [BasicOp.names]))).bind fun v _ =>
      safe_lift (Value.nameless_rearrange v perm) scope
  | rotate offsets array =>
    simp only [BasicOp.names, List.forall_mem_append, List.forall_mem_singleton] at known
    have offset : ∀ x ∈ offsets, Safe (int (α := Scalar) x) scope scope := fun x mem =>
      safe_int fun y inX => known.1 y (List.mem_flatMap.mpr ⟨x, mem, inX⟩)
    refine (safe_mapM offset).bind fun ns _ => (safe_lookup known.2).bind fun v _ => ?_
    exact safe_lift (Value.nameless_rotate ns v) scope
  | iota count start step w =>
    simp only [BasicOp.names, operandNames, List.mem_flatMap, List.mem_cons] at known
    refine (safe_int fun z mem => known z ⟨count, by simp, mem⟩).bind fun _ _ => ?_
    refine (safe_number fun z mem => known z ⟨start, by simp, mem⟩).bind fun _ _ => ?_
    exact (safe_number fun z mem => known z ⟨step, by simp, mem⟩).bind fun _ _ => safe_pure _ scope
  | replicate shape value =>
    simp only [BasicOp.names, List.forall_mem_append] at known
    exact (safe_sizes known.1).bind fun _ _ => (safe_operand known.2).bind fun _ _ =>
      safe_pure _ scope
  | scratch elem shape => exact (safe_sizes known).bind fun _ _ => safe_pure _ scope
  | assert cond msg =>
    refine (safe_scalar known).bind fun v _ => ?_
    refine (safe_lift (nameless_algebra_asBool v) scope).bind fun b _ => ?_
    cases b with
    | false => exact safe_throw (by simp) scope
    | true => exact safe_pure _ scope
  | updateAcc acc position values =>
    simp only [BasicOp.names, List.forall_mem_cons, List.forall_mem_append] at known
    exact safe_updateAcc runs known.1 known.2.1 known.2.2

omit runs in
theorem safe_openAcc {input : AccInput} (arrays : ∀ x ∈ input.arrays, x ∈ scope)
    (accepted : ∀ c, input.combine = some c → c.op.outline.Accepted scope) :
    Safe (openAcc input) scope scope := by
  refine (safe_lookups arrays).bind fun vs _ => ?_
  intro σ sound has
  refine ⟨fun x failed => (by cases failed), fun v τ ends => ?_⟩
  simp only [ends_bind, ends_get, ends_modify, ends_pure] at ends
  obtain ⟨_, _, ⟨rfl, rfl⟩, _, _, rfl, rfl, rfl⟩ := ends
  have within : σ.Within { σ with combiners := σ.combiners ++ [input.combine.map (·.op)] } :=
    fun _ known => known
  refine ⟨fun op mem => ?_, within, has⟩
  rcases List.mem_append.mp mem with old | new
  · exact sound op old
  · obtain ⟨c, isCombiner, rfl⟩ := Option.map_eq_some_iff.mp (List.mem_singleton.mp new).symm
    exact ⟨scope, accepted c isCombiner, has⟩

theorem safe_withAcc {inputs : List AccInput} {l : Lambda}
    (opened : ∀ input ∈ inputs, (∀ x ∈ input.arrays, x ∈ scope) ∧
      ∀ c, input.combine = some c → c.op.outline.Accepted scope)
    (accepted : l.outline.Accepted scope) : Safe (withAcc run inputs l) scope scope := by
  refine (safe_mapM fun input mem => safe_openAcc (opened input mem).1 (opened input mem).2).bind
    fun accs _ => ?_
  refine (safe_applyLambda runs accepted accs).bind fun vs _ => ?_
  refine (safe_lift (nameless_splitValues vs _) scope).bind fun p _ => ?_
  refine (safe_mapM fun v _ => safe_lift (fun x failed => ?_) scope).bind fun _ _ => safe_pure _ scope
  cases v <;> cases failed

theorem safe_step {b : Body} (params : List Name) (accepted : b.outline.Accepted scope) :
    Safe (step run params b) scope scope :=
  (runs b scope accepted).bind fun vs _ => (safe_bindNames params vs scope).keep

omit runs in
/-- The rows of the arrays that a round goes through. -/
theorem safe_setRows {rows : List (Name × Table Scalar)} (i : Nat) (tables : ∀ r ∈ rows, Nameless r.2)
    (scope : Scope) :
    Safe (rows.forM fun r => do set r.1 (← pick (← r.2) i)) scope (rows.map (·.1)) := by
  induction rows with
  | nil => exact (safe_pure () scope).mono (fun _ known => known) (by simp)
  | cons r rows ih =>
    rw [List.forM_eq_forM, List.forM_cons, ← List.forM_eq_forM]
    refine Safe.bind (S := r.1 :: scope) ?_ fun _ _ => ?_
    · refine (safe_lift (tables r (by simp)) scope).bind fun table _ => ?_
      refine (safe_lift (nameless_pick table _) scope).bind fun row _ => ?_
      exact (safe_set r.1 row scope).mono (fun _ known => known) (by simp)
    · have rest := ih fun q later => tables q (by simp [later])
      refine rest.mono (fun x known => by simp [known]) fun x mem => ?_
      rcases List.mem_cons.mp mem with same | later
      · exact .inr (by simp [same])
      · exact .inl later

theorem safe_round {params : List Name} {counter : Name} {w : IntWidth}
    {rows : List (Name × Table Scalar)} {b : Body} (tables : ∀ r ∈ rows, Nameless r.2)
    (accepted : b.outline.Accepted inner)
    (sub : ∀ x ∈ inner, x ∈ scope ∨ x = counter ∨ x ∈ rows.map (·.1)) (i : Nat) :
    Safe (round run params counter w rows b i ()) scope scope := by
  refine Safe.bind (S := counter :: scope) ?_ fun _ _ => ?_
  · exact (safe_set counter _ scope).mono (fun _ known => known) (by simp)
  · refine Safe.bind (S := inner ++ scope) ?_ fun _ _ => ?_
    · refine (safe_setRows i tables (counter :: scope)).mono (fun _ known => known) fun x mem => ?_
      rcases List.mem_append.mp mem with mem | mem
      · rcases sub x mem with known | same | row
        · exact .inr (by simp [known])
        · exact .inr (by simp [same])
        · exact .inl row
      · exact .inr (by simp [mem])
    · exact (safe_step runs params accepted).mono (fun x mem => by simp [mem]) fun x mem =>
        .inr (by simp [mem])

theorem safe_loop {merge : List (Param × Operand)} {form : LoopForm} {b : Body} (fuel : Nat)
    (accepted : (loopOutline merge form b.outline).Accepted scope) :
    Safe (loop run fuel merge form b) scope scope := by
  have params (x : Name) : x ∈ (paramOutline (merge.map (·.1))).after scope ↔
      x ∈ scope ∨ x ∈ merge.map (·.1.name) := by
    rw [mem_after_paramOutline]
    simp
  have opened (vs : List Value) : Safe (Run.bind (merge.map (·.1.name)) vs) scope
      ((paramOutline (merge.map (·.1))).after scope) := by
    refine (safe_bindNames _ vs scope).mono (fun _ known => known) fun x mem => ?_
    exact ((params x).mp mem).symm
  have results : Safe (lookups (merge.map (·.1.name)))
      ((paramOutline (merge.map (·.1))).after scope)
      ((paramOutline (merge.map (·.1))).after scope) :=
    safe_lookups fun x mem => (params x).mpr (.inr mem)
  refine Safe.keep (S := (paramOutline (merge.map (·.1))).after scope) ?_
  cases form with
  | whileHolds cond =>
    simp only [loopOutline, accepted_append, accepted_readsAll, after_readsAll, Accepted] at accepted
    obtain ⟨inits, ⟨-, inside, known, -⟩, -⟩ := accepted
    refine (safe_operands inits).bind fun vs _ => (opened vs).bind fun _ _ => ?_
    refine (safe_repeatWhile ?_ (safe_step runs _ inside) fuel).bind fun _ _ => results
    refine (safe_lookup known).bind fun v _ => ?_
    exact (safe_lift (Value.nameless_asScalar v) _).bind fun a _ =>
      safe_lift (nameless_algebra_asBool a) _
  | forBelow counter w bound arrays =>
    simp only [loopOutline, accepted_append, accepted_readsAll, after_readsAll, after_append,
      after, Accepted, List.forall_mem_append] at accepted
    obtain ⟨⟨inits, bounds, sources⟩, ⟨-, inside, -⟩, -⟩ := accepted
    have outer : ∀ x ∈ scope, x ∈ (paramOutline (merge.map (·.1))).after scope := fun x known =>
      (params x).mpr (.inl known)
    refine (safe_operands inits).bind fun vs _ => (opened vs).bind fun _ _ => ?_
    refine (safe_lookups fun x mem => outer x (sources x mem)).bind fun vs looked => ?_
    refine (safe_int fun x mem => outer x (bounds x mem)).bind fun n _ => ?_
    refine (safe_rounds (fun i _ => safe_round runs ?_ inside ?_ i) _ 0 ()).bind fun _ _ => results
    · intro r mem
      obtain ⟨v, -, same⟩ := List.mem_map.mp (List.of_mem_zip mem).2
      exact same ▸ Value.nameless_table v
    · intro x mem
      obtain ⟨σ, τ, looked⟩ := looked
      have count := ends_lookups_length looked
      rw [List.map_fst_zip (by simp only [List.length_map] at count ⊢; omega)]
      rcases (mem_after_paramOutline (arrays.map (·.1)) _ x).mp mem with known | ⟨p, isRow, rfl⟩
      · rcases List.mem_cons.mp known with same | known
        · exact .inr (.inl same)
        · exact .inl known
      · obtain ⟨a, isSource, rfl⟩ := List.mem_map.mp isRow
        exact .inr (.inr (List.mem_map.mpr ⟨a, isSource, rfl⟩))

omit runs in
theorem safe_rowsAt {tables : List (Table Scalar)} (laid : ∀ t ∈ tables, Nameless t) (i : Nat)
    (scope : Scope) : Safe (rowsAt tables i) scope scope :=
  safe_lift (.mapM fun t mem => (laid t mem).bind fun table => nameless_pick table _) scope

omit runs in
theorem nameless_tables (vs : List Value) : ∀ t ∈ vs.map Value.table, Nameless t := by
  intro t mem
  obtain ⟨v, -, rfl⟩ := List.mem_map.mp mem
  exact Value.nameless_table v

theorem safe_combineGroups {ops : List Lambda} (accepted : ∀ op ∈ ops, op.outline.Accepted scope)
    (accs : List (List Value)) (vs : List Value) :
    Safe (combineGroups run ops accs vs) scope scope := by
  induction ops generalizing accs vs with
  | nil => exact safe_pure accs scope
  | cons op ops ih =>
    cases accs with
    | nil => exact safe_pure [] scope
    | cons acc accs =>
      refine (safe_combine runs (accepted op (by simp)) acc _).bind fun new _ => ?_
      exact (ih (fun o later => accepted o (by simp [later])) accs _).bind fun _ _ =>
        safe_pure _ scope

theorem safe_fusedRow {tables : List (Table Scalar)} {scans : List Combiner}
    {reduces : List Reduction} {map : Lambda} (laid : ∀ t ∈ tables, Nameless t)
    (scanned : ∀ c ∈ scans, c.op.outline.Accepted scope)
    (reduced : ∀ r ∈ reduces, r.combiner.op.outline.Accepted scope)
    (mapped : map.outline.Accepted scope) (mapCount i : Nat) (s : Fused Scalar) :
    Safe (fusedRow run tables scans reduces map mapCount i s) scope scope := by
  refine (safe_rowsAt laid i scope).bind fun rows _ => ?_
  refine (safe_applyLambda runs mapped rows).bind fun new _ => ?_
  refine (safe_lift (nameless_splitValues new _) scope).bind fun p _ => ?_
  refine (safe_lift (nameless_splitValues p.2 _) scope).bind fun q _ => ?_
  refine (safe_combineGroups runs (fun op mem => ?_) _ _).bind fun _ _ => ?_
  · obtain ⟨c, isScan, rfl⟩ := List.mem_map.mp mem
    exact scanned c isScan
  refine (safe_combineGroups runs (fun op mem => ?_) _ _).bind fun _ _ => ?_
  · obtain ⟨r, isReduction, rfl⟩ := List.mem_map.mp mem
    exact reduced r isReduction
  exact (safe_lift (nameless_checkArity _ _) scope).bind fun _ _ => safe_pure _ scope

theorem safe_screma {width : Operand} {arrays : List Name} {scans : List Combiner}
    {reduces : List Reduction} {map : Lambda}
    (known : ∀ x ∈ width.names ++ arrays, x ∈ scope)
    (scanned : ∀ c ∈ scans, (∀ x ∈ operandNames c.neutral, x ∈ scope) ∧
      c.op.outline.Accepted scope)
    (reduced : ∀ r ∈ reduces, (∀ x ∈ operandNames r.combiner.neutral, x ∈ scope) ∧
      r.combiner.op.outline.Accepted scope)
    (mapped : map.outline.Accepted scope) :
    Safe (screma run width arrays scans reduces map) scope scope := by
  obtain ⟨size, sources⟩ := List.forall_mem_append.mp known
  refine (safe_size size).bind fun n _ => (safe_lookups sources).bind fun vs _ => ?_
  refine (safe_mapM fun c mem => safe_operands (scanned c mem).1).bind fun scanAccs _ => ?_
  refine (safe_mapM fun r mem => safe_operands (reduced r mem).1).bind fun reduceAccs _ => ?_
  refine (safe_rounds (fun i s => ?_) n 0 _).bind fun _ _ => safe_pure _ scope
  exact safe_fusedRow runs (nameless_tables vs) (fun c mem => (scanned c mem).2)
    (fun r mem => (reduced r mem).2) mapped _ i s

theorem safe_stream {width : Operand} {arrays : List Name} {inits : List Operand} {l : Lambda}
    (size : ∀ x ∈ width.names, x ∈ scope) (sources : ∀ x ∈ arrays, x ∈ scope)
    (initials : ∀ x ∈ operandNames inits, x ∈ scope) (accepted : l.outline.Accepted scope) :
    Safe (stream run width arrays inits l) scope scope := by
  refine (safe_int size).bind fun n _ => (safe_operands initials).bind fun vs _ => ?_
  exact (safe_lookups sources).bind fun rows _ => safe_applyLambda runs accepted _

theorem safe_histRow {ops : List Histogram}
    (accepted : ∀ h ∈ ops, h.combiner.op.outline.Accepted scope) (dests : List (List Value))
    (idxs vs : List Value) : Safe (histRow run ops dests idxs vs) scope scope := by
  induction ops generalizing dests idxs vs with
  | nil => exact safe_pure dests scope
  | cons h ops ih =>
    cases dests with
    | nil => exact safe_pure [] scope
    | cons ds dests =>
      have later := ih fun o mem => accepted o (by simp [mem])
      refine (safe_lift (nameless_fixedDims _) scope).bind fun at_ _ => ?_
      refine (safe_lift (nameless_inBounds (.mapM fun v _ => Value.nameless_index at_ v)) scope).bind
        fun old _ => ?_
      cases old with
      | none =>
        exact (safe_pure ds scope).bind fun _ _ => (later dests _ _).bind fun _ _ =>
          safe_pure _ scope
      | some old =>
        refine (safe_combine runs (accepted h (by simp)) old _).bind fun new _ => ?_
        refine (safe_mapM fun p _ => safe_lift (Value.nameless_update at_ p.1 p.2) scope).bind
          fun _ _ => ?_
        exact (later dests _ _).bind fun _ _ => safe_pure _ scope

theorem safe_hist {width : Operand} {ops : List Histogram} {bucket : Lambda} {arrays : List Name}
    (size : ∀ x ∈ width.names, x ∈ scope)
    (updated : ∀ h ∈ ops, (∀ x ∈ h.dests, x ∈ scope) ∧ h.combiner.op.outline.Accepted scope)
    (accepted : bucket.outline.Accepted scope) (sources : ∀ x ∈ arrays, x ∈ scope) :
    Safe (hist run width ops bucket arrays) scope scope := by
  refine (safe_size size).bind fun n _ => (safe_lookups sources).bind fun vs _ => ?_
  refine (safe_mapM fun h mem => safe_lookups (updated h mem).1).bind fun dests _ => ?_
  refine (safe_rounds (fun i dests => ?_) n 0 _).bind fun _ _ => safe_pure _ scope
  refine (safe_rowsAt (nameless_tables vs) i scope).bind fun rows _ => ?_
  refine (safe_applyLambda runs accepted rows).bind fun new _ => ?_
  refine (safe_lift (nameless_splitValues new _) scope).bind fun p _ => ?_
  exact safe_histRow runs (fun h mem => (updated h mem).2) dests p.1 p.2

omit runs in
theorem nameless_scatterInto (rank count : Nat) (dest : Value) (idxs vs : List Value) :
    Nameless (scatterInto rank count dest idxs vs) := by
  induction count generalizing dest idxs vs with
  | zero => exact .ok _
  | succ count ih =>
    cases vs with
    | nil => simp [Nameless, scatterInto]
    | cons v vs =>
      refine (nameless_fixedDims _).bind fun ds => ?_
      exact (nameless_inBounds (Value.nameless_update ds dest v)).bind fun new => ih _ _ _

omit runs in
theorem nameless_scatterRow (ds : List ScatterDest) (dests idxs vs : List Value) :
    Nameless (scatterRow ds dests idxs vs) := by
  induction ds generalizing dests idxs vs with
  | nil => exact .ok _
  | cons d ds ih =>
    cases dests with
    | nil => exact .ok _
    | cons dest dests =>
      exact (nameless_scatterInto _ _ dest idxs vs).bind fun p => (ih dests _ _).bind fun _ => .pure _

theorem safe_scatter {width : Operand} {l : Lambda} {arrays : List Name} {dests : List ScatterDest}
    (size : ∀ x ∈ width.names, x ∈ scope) (accepted : l.outline.Accepted scope)
    (sources : ∀ x ∈ arrays, x ∈ scope) (targets : ∀ d ∈ dests, d.array ∈ scope) :
    Safe (scatter run width l arrays dests) scope scope := by
  have targets : ∀ x ∈ dests.map (·.array), x ∈ scope := by
    intro x mem
    obtain ⟨d, isDest, rfl⟩ := List.mem_map.mp mem
    exact targets d isDest
  refine (safe_size size).bind fun n _ => (safe_lookups sources).bind fun vs _ => ?_
  refine (safe_lookups targets).bind fun outs _ => safe_rounds (fun i outs => ?_) n 0 outs
  refine (safe_rowsAt (nameless_tables vs) i scope).bind fun rows _ => ?_
  refine (safe_applyLambda runs accepted rows).bind fun new _ => ?_
  refine (safe_lift (nameless_splitValues new _) scope).bind fun p _ => ?_
  exact safe_lift (nameless_scatterRow dests outs p.1 p.2) scope

/-- One case for each construct. -/
theorem safe_exp (fuel arity : Nat) {e : Exp} (accepted : (e.outline arity).Accepted scope) :
    Safe (exp run fuel e) scope scope := by
  cases e with
  | basic op =>
    simp only [Exp.outline, BasicOp.outline, accepted_append, accepted_readsAll] at accepted
    exact (safe_basicOp runs accepted.1.1).bind fun v _ => safe_pure [v] scope
  | apply func args ret =>
    simp only [Exp.outline, accepted_append, accepted_readsAll] at accepted
    refine (safe_mapM fun x mem => safe_scalar fun y inX =>
      accepted.1.1 y (List.mem_flatMap.mpr ⟨x, mem, inX⟩)).bind fun vs _ => ?_
    exact (safe_lift (nameless_call func vs) scope).bind fun v _ => safe_pure _ scope
  | branch cond yes no ret sort =>
    simp only [Exp.outline, accepted_append, accepted_readsAll, after_append, after_readsAll,
      after, Accepted] at accepted
    obtain ⟨⟨⟨⟨known, inYes, -⟩, inNo, -⟩, -⟩, -⟩ := accepted
    refine (safe_scalar known).bind fun v _ => ?_
    refine (safe_lift (nameless_algebra_asBool v) scope).bind fun b _ => ?_
    cases b with
    | false => exact runs no scope inNo
    | true => exact runs yes scope inYes
  | loop merge form b =>
    simp only [Exp.outline, accepted_append] at accepted
    exact safe_loop runs fuel accepted.1.1
  | withAcc inputs l =>
    simp only [Exp.outline, accepted_append, Scope.after_accInputOutline, Accepted]
      at accepted
    exact safe_withAcc runs (accepted_accInputOutline accepted.1) accepted.2.1
  | screma width arrays scans reduces map =>
    simp only [Exp.outline, accepted_append, accepted_readsAll, after_append, after_readsAll,
      Scope.after_combinerOutline, Scope.after_reductionOutline, Accepted,
      accepted_combinerOutline, accepted_reductionOutline] at accepted
    obtain ⟨⟨⟨known, scanned⟩, reduced⟩, mapped, -⟩ := accepted
    exact safe_screma runs known scanned reduced mapped
  | stream width arrays form inits l =>
    simp only [Exp.outline, accepted_append, accepted_readsAll, after_append, after_readsAll,
      Scope.after_streamForm, Accepted, List.forall_mem_append] at accepted
    obtain ⟨⟨⟨⟨size, sources⟩, initials⟩, -⟩, accepted, -⟩ := accepted
    exact safe_stream runs size sources initials accepted
  | hist width ops bucket arrays =>
    simp only [Exp.outline, accepted_append, accepted_readsAll, after_append, after_readsAll,
      Scope.after_histogramOutline, Accepted] at accepted
    obtain ⟨⟨size, updated⟩, accepted, sources⟩ := accepted
    exact safe_hist runs size (accepted_histogramOutline updated) accepted sources
  | scatter width l arrays dests =>
    simp only [Exp.outline, accepted_append, accepted_readsAll, after_readsAll, Accepted,
      List.forall_mem_append] at accepted
    obtain ⟨size, accepted, sources, targets⟩ := accepted
    refine safe_scatter runs size accepted sources fun d mem => targets _ ?_
    exact List.mem_flatMap.mpr ⟨d, mem, by simp [ScatterDest.names]⟩

theorem safe_stm (fuel : Nat) {s : Stm} (accepted : s.outline.Accepted scope) :
    Safe (stm run fuel s) scope (s.outline.after scope) := by
  obtain ⟨pat, aux, e⟩ := s
  simp only [Stm.outline, accepted_append, after_append, after_readsAll, Scope.after_exp]
    at accepted ⊢
  refine (safe_exp runs fuel _ accepted.1.2).bind fun vs _ => ?_
  refine (safe_bindNames _ vs scope).mono (fun _ known => known) fun x mem => ?_
  rcases (mem_after_paramOutline pat scope x).mp mem with known | ⟨p, mem, same⟩
  · exact .inr known
  · exact .inl (List.mem_map.mpr ⟨p, mem, same⟩)

theorem safe_stms (fuel : Nat) {ss : List Stm} (accepted : (stmOutline ss).Accepted scope) :
    Safe (ss.forM (stm run fuel)) scope ((stmOutline ss).after scope) := by
  induction ss generalizing scope with
  | nil => exact safe_pure () scope
  | cons s ss ih =>
    simp only [stmOutline, accepted_append, after_append] at accepted ⊢
    rw [List.forM_eq_forM, List.forM_cons, ← List.forM_eq_forM]
    exact (safe_stm runs fuel accepted.1).bind fun _ _ => ih accepted.2

end

/-- Checked bodies read bound names only, however long they run. -/
theorem runsSafely_runBody (fuel : Nat) : RunsSafely (runBody fuel) := by
  induction fuel with
  | zero => exact fun b scope _ => safe_outOfFuel scope scope
  | succ fuel ih =>
    intro b scope accepted
    rw [body_outline, accepted_append, accepted_readsAll] at accepted
    exact Safe.keep ((safe_stms ih fuel accepted.1).bind fun _ _ => safe_operands accepted.2)

end Run

/-- A lambda that passes the scope check never reads an unbound name, whatever it is applied to and
    however long it runs. -/
theorem interp_ne_unbound {l : Lambda} (valid : l.validate = .ok ()) (args : List Value)
    (fuel : Nat) (x : Name) : l.interp args fuel ≠ some (.error (.unbound x)) := by
  have accepted := (validate_iff l).mp valid
  have safe := Run.safe_applyLambda (Run.runsSafely_runBody fuel) accepted args Store.initial
    Store.sound_initial (by simp [Store.Has])
  exact fun failed => safe.reads x ((interp_error ..).mp failed)

/-- Updates the accumulator it is given inside the region of another one. The operator there reads a
    name of its own scope besides its parameters. -/
def updateElsewhere : Lambda :=
  let t : Ty := .scalar (.int .i64)
  let handle (x : Nat) : Param := ⟨⟨x⟩, .acc ⟨x⟩ [.const (.int .i64 1)] [t] false⟩
  let sum : Lambda := ⟨[⟨⟨4⟩, t⟩, ⟨⟨5⟩, t⟩, ⟨⟨6⟩, t⟩],
    ⟨[⟨[⟨⟨7⟩, t⟩], .none, .basic (.binary (.int .add .i64) (.var ⟨5⟩) (.var ⟨6⟩))⟩,
      ⟨[⟨⟨8⟩, t⟩], .none, .basic (.binary (.int .add .i64) (.var ⟨7⟩) (.var ⟨2⟩))⟩],
      [.var ⟨8⟩]⟩, [t]⟩
  let region : Lambda := ⟨[handle 9],
    ⟨[⟨[handle 10], .none, .basic (.updateAcc ⟨0⟩ [.const (.int .i64 0)] [.const (.int .i64 5)])⟩],
      [.var ⟨9⟩, .var ⟨10⟩]⟩, [(handle 9).ty, (handle 10).ty]⟩
  ⟨[handle 0, ⟨⟨1⟩, .array (.int .i64) [.const (.int .i64 1)] false⟩, ⟨⟨2⟩, t⟩],
    ⟨[⟨[⟨⟨11⟩, .array (.int .i64) [.const (.int .i64 1)] false⟩, handle 12], .none,
        .withAcc [⟨[.const (.int .i64 1)], [⟨1⟩], some ⟨sum, [.const (.int .i64 0)]⟩⟩] region⟩],
      [.var ⟨12⟩]⟩, [(handle 12).ty]⟩

/-- The handle has the id that the region's accumulator will get, so its update runs that operator. -/
def updateElsewhereArgs : List Value :=
  [.acc 0 [.array [.scalar (.int .i64 3)]], .array [.scalar (.int .i64 1)], .scalar (.int .i64 7)]

theorem interp_updateElsewhere : updateElsewhere.validate = .ok () ∧
    updateElsewhere.interp updateElsewhereArgs 3 ≠ some (.error (.unbound ⟨2⟩)) :=
  ⟨by decide, interp_ne_unbound (by decide) updateElsewhereArgs 3 ⟨2⟩⟩

example : updateElsewhere.interp updateElsewhereArgs 3 =
    some (.ok [.acc 0 [.array [.scalar (.int .i64 15)]]]) := by rfl

end Cotangent
