import Cotangent.Derivative.Reverse
import Cotangent.Proofs.Derivative.Steps
import Cotangent.Proofs.Scope.FreshBinders
import Cotangent.Proofs.Scope.Seen
/-!
Where the names of a transformed program come from. Each of them occurs in the source or was drawn from
the supply during the run, and the supply never moves back. `Draws` says so of an action, also of one
that fails; it composes, so that an action is followed step by step, on arbitrary programs.
-/
namespace Cotangent

open Occurrences

/-- The names of the source, and the number of the first name that the run may draw. -/
structure Origin where
  old : Name → Prop
  base : Nat

/-- The name is one of the source or was drawn before the supply came to `n`. -/
def Origin.upTo (K : Origin) (n : Nat) (x : Name) : Prop := K.old x ∨ K.base ≤ x.id ∧ x.id < n

variable {K : Origin} {n m : Nat}

theorem Origin.upTo_later {x : Name} (known : K.upTo n x) (le : n ≤ m) : K.upTo m x := by
  rcases known with old | ⟨lower, upper⟩
  · exact Or.inl old
  · exact Or.inr ⟨lower, by omega⟩

theorem Occurrences.Seen.later {os : Occurrences} (seen : Seen (K.upTo n) os) (le : n ≤ m) :
    Seen (K.upTo m) os := seen.mono fun _ known => K.upTo_later known le

theorem Occurrences.Seen.ofSource {os : Occurrences} (seen : Seen K.old os) (n : Nat) :
    Seen (K.upTo n) os := seen.mono fun _ old => Or.inl old

/-! Builders. -/

/-- Every name that the builder knows of is of known origin. -/
structure Builder.Sound (K : Origin) (b : Builder) : Prop where
  base_le : K.base ≤ b.supply.next
  types : ∀ x t, b.types.find? x = some t → Seen (K.upTo b.supply.next) t.occurrences
  stms : Seen (K.upTo b.supply.next) (stmOccurrences b.stms)

namespace Build

variable {α β : Type} {P : Nat → α → Prop} {Q : Nat → β → Prop}

/-- From the number `n` on, the action draws names from the supply only and keeps the builder sound.
    Its result has the property, at the number that the supply has come to. -/
def Draws (K : Origin) (n : Nat) (act : Build α) (P : Nat → α → Prop) : Prop :=
  ∀ b : Builder, b.Sound K → b.supply.next = n →
    (act b).2.Sound K ∧ n ≤ (act b).2.supply.next ∧ P (act b).2.supply.next (act b).1

/-- The names that occur in the result are of known origin. -/
def Traced (K : Origin) (n : Nat) (act : Build α) (names : α → Occurrences) : Prop :=
  Draws K n act fun m a => Seen (K.upTo m) (names a)

theorem Draws.bind {act : Build α} {f : α → Build β} (first : Draws K n act P)
    (rest : ∀ m a, n ≤ m → P m a → Draws K m (f a) Q) : Draws K n (act >>= f) Q := by
  intro b sound at_n
  obtain ⟨sound, le, holds⟩ := first b sound at_n
  obtain ⟨sound, further, holds⟩ := rest _ _ le holds _ sound rfl
  exact ⟨sound, Nat.le_trans le further, holds⟩

theorem draws_pure {a : α} (holds : P n a) : Draws K n (pure a) P := by
  intro b sound at_n
  exact ⟨sound, at_n ▸ Nat.le_refl n, at_n ▸ holds⟩

theorem traced_mapM {f : α → Build β} {xs : List α} {names : β → Occurrences}
    (each : ∀ x ∈ xs, ∀ m, n ≤ m → Traced K m (f x) names) :
    Traced K n (xs.mapM f) fun ys => ys.flatMap names := by
  induction xs generalizing n with
  | nil => exact draws_pure seen_nil
  | cons x xs ih =>
    rw [List.mapM_cons]
    refine (each x (by simp) n (Nat.le_refl n)).bind fun m y le seen => ?_
    refine (ih fun z later k le' => each z (by simp [later]) k (Nat.le_trans le le')).bind
      fun k ys le' seenRest => draws_pure ?_
    exact (seen_append ..).mpr ⟨seen.later le', seenRest⟩

theorem draws_forM {f : α → Build Unit} {xs : List α}
    (each : ∀ x ∈ xs, ∀ m, n ≤ m → Draws K m (f x) fun _ _ => True) :
    Draws K n (xs.forM f) fun _ _ => True := by
  induction xs generalizing n with
  | nil => exact draws_pure trivial
  | cons x xs ih =>
    rw [List.forM_eq_forM, List.forM_cons, ← List.forM_eq_forM]
    exact (each x (by simp) n (Nat.le_refl n)).bind fun m _ le _ =>
      ih fun z later k le' => each z (by simp [later]) k (Nat.le_trans le le')

theorem traced_fresh : Traced K n fresh fun x => [.reads x] := by
  intro b sound at_n
  have le : n ≤ n + 1 := Nat.le_succ n
  subst at_n
  refine ⟨⟨Nat.le_trans sound.base_le le, fun x t found => (sound.types x t found).later le,
    sound.stms.later le⟩, le, ?_⟩
  have drawn : K.upTo (b.supply.next + 1) ⟨b.supply.next⟩ :=
    Or.inr ⟨sound.base_le, Nat.lt_succ_self _⟩
  simpa [fresh, Supply.fresh] using drawn

theorem draws_declare {t : Ty} (seen : Seen (K.upTo n) t.occurrences) (x : Name) :
    Draws K n (declare x t) fun _ _ => True := by
  intro b sound at_n
  subst at_n
  refine ⟨⟨sound.base_le, fun y u found => ?_, sound.stms⟩, Nat.le_refl _, trivial⟩
  have found : (b.types.insert x t).find? y = some u := found
  rw [NameTable.find_insert] at found
  split at found
  · obtain rfl := Option.some.inj found
    exact seen
  · exact sound.types y u found

theorem draws_declareParams {ps : List Param} (seen : Seen (K.upTo n) (paramOccurrences ps)) :
    Draws K n (declareParams ps) fun _ _ => True := by
  rw [seen_params] at seen
  refine draws_forM fun p mem m le => draws_declare ?_ p.name
  have here := seen p mem
  simp only [Param.occurrences, seen_cons] at here
  exact here.2.later le

theorem traced_param {t : Ty} (seen : Seen (K.upTo n) t.occurrences) :
    Traced K n (param t) Param.occurrences := by
  refine traced_fresh.bind fun m x le drawn => ?_
  refine (draws_declare (seen.later le) x).bind fun k _ le' _ => draws_pure ?_
  rw [seen_cons] at drawn
  exact (seen_cons ..).mpr ⟨K.upTo_later drawn.1 le', seen.later (Nat.le_trans le le')⟩

theorem draws_add {s : Stm} (seen : Seen (K.upTo n) s.occurrences) :
    Draws K n (add s) fun _ _ => True := by
  obtain ⟨pat, aux, e⟩ := s
  have pattern : Seen (K.upTo n) (paramOccurrences pat) := by
    simp only [Stm.occurrences, seen_append] at seen
    exact seen.2
  refine (draws_declareParams pattern).bind fun m _ le _ => ?_
  intro b sound at_m
  refine ⟨⟨sound.base_le, sound.types, ?_⟩, at_m ▸ Nat.le_refl m, trivial⟩
  have known := sound.stms
  rw [seen_stms] at known
  show Seen (K.upTo b.supply.next) (stmOccurrences (b.stms ++ [⟨pat, aux, e⟩]))
  rw [seen_stms, List.forall_mem_append]
  exact ⟨known, by simpa using seen.later (at_m ▸ le)⟩

theorem traced_letExp {t : Ty} {e : Exp} (typed : Seen (K.upTo n) t.occurrences)
    (seen : Seen (K.upTo n) e.occurrences) : Traced K n (letExp t e) fun x => [.reads x] := by
  refine traced_fresh.bind fun m x le drawn => ?_
  have stm : Seen (K.upTo m) (Stm.mk [⟨x, t⟩] .none e).occurrences := by
    rw [seen_cons] at drawn
    simp only [Stm.occurrences, Annotations.none, seen_append, seen_names, seen_params,
      List.forall_mem_singleton, Param.occurrences, seen_cons]
    exact ⟨⟨by simp, seen.later le⟩, drawn.1, typed.later le⟩
  exact (draws_add stm).bind fun k _ le' _ => draws_pure (drawn.later le')

/-! Formulas. -/

theorem traced_operandOf {f : Formula} {e : Build Exp} (known : ∀ x ∈ f.names, K.upTo n x)
    (inside : Traced K n e Exp.occurrences) :
    Traced K n (operandOf f e) Operand.occurrences := by
  have bound (t : ScalarType) : Traced K n (do
      let e ← e
      let x ← letExp (.scalar t) e
      return .var x : Build Operand) Operand.occurrences :=
    inside.bind fun m e le seen => (traced_letExp (by simp [Ty.occurrences]) seen).bind
      fun k x le' drawn => draws_pure drawn
  cases f with
  | leaf x t => exact draws_pure (by simpa [Operand.occurrences, Formula.names] using known)
  | lit v => exact draws_pure seen_nil
  | _ => exact bound _

mutual

theorem traced_expOf (f : Formula) {n : Nat} (known : ∀ x ∈ f.names, K.upTo n x) :
    Traced K n (expOf f) Exp.occurrences := by
  cases f with
  | leaf x t =>
    refine draws_pure ?_
    simpa [Exp.occurrences, BasicOp.occurrences, Operand.occurrences, Formula.names] using known
  | lit v =>
    refine draws_pure ?_
    simp [Exp.occurrences, BasicOp.occurrences, Operand.occurrences]
  | unary op a =>
    have known : ∀ x ∈ a.names, K.upTo n x := known
    exact (traced_operandOf known (traced_expOf a known)).bind fun m x le seen => draws_pure seen
  | binary op a b =>
    obtain ⟨left, right⟩ := List.forall_mem_append.mp known
    refine (traced_operandOf left (traced_expOf a left)).bind fun m x le seenLeft => ?_
    have right : ∀ x ∈ b.names, K.upTo m x := fun x mem => K.upTo_later (right x mem) le
    refine (traced_operandOf right (traced_expOf b right)).bind fun k y le' seenRight => ?_
    exact draws_pure ((seen_append ..).mpr ⟨seenLeft.later le', seenRight⟩)
  | compare op a b =>
    obtain ⟨left, right⟩ := List.forall_mem_append.mp known
    refine (traced_operandOf left (traced_expOf a left)).bind fun m x le seenLeft => ?_
    have right : ∀ x ∈ b.names, K.upTo m x := fun x mem => K.upTo_later (right x mem) le
    refine (traced_operandOf right (traced_expOf b right)).bind fun k y le' seenRight => ?_
    exact draws_pure ((seen_append ..).mpr ⟨seenLeft.later le', seenRight⟩)
  | convert op a =>
    have known : ∀ x ∈ a.names, K.upTo n x := known
    exact (traced_operandOf known (traced_expOf a known)).bind fun m x le seen => draws_pure seen
  | call func args t =>
    refine (traced_operandsOf args known).bind fun m xs le seen => draws_pure ?_
    simpa [Exp.occurrences, typeOccurrences, Ty.occurrences] using seen

theorem traced_operandsOf (fs : List Formula) {n : Nat} (known : ∀ x ∈ formulaNames fs, K.upTo n x) :
    Traced K n (operandsOf fs) operandOccurrences := by
  cases fs with
  | nil => exact draws_pure seen_nil
  | cons f fs =>
    obtain ⟨first, rest⟩ := List.forall_mem_append.mp known
    refine (traced_operandOf first (traced_expOf f first)).bind fun m x le seenFirst => ?_
    refine (traced_operandsOf fs fun x mem => K.upTo_later (rest x mem) le).bind
      fun k xs le' seenRest => draws_pure ?_
    exact (seen_append ..).mpr ⟨seenFirst.later le', seenRest⟩

end

theorem draws_bindFormula {p : Param} {aux : Annotations} {f : Formula}
    (binder : Seen (K.upTo n) p.occurrences) (certs : ∀ x ∈ aux.certs, K.upTo n x)
    (known : ∀ x ∈ f.names, K.upTo n x) :
    Draws K n (bindFormula p aux f) fun _ _ => True := by
  refine (traced_expOf f known).bind fun m e le seen => draws_add ?_
  simp only [Stm.occurrences, seen_append, seen_names, seen_params, List.forall_mem_singleton]
  exact ⟨⟨fun x mem => K.upTo_later (certs x mem) le, seen⟩, binder.later le⟩

theorem traced_letFormula {f : Formula} (known : ∀ x ∈ f.names, K.upTo n x) :
    Traced K n (letFormula f) fun x => [.reads x] := by
  refine traced_fresh.bind fun m x le drawn => ?_
  have binder : Seen (K.upTo m) (Param.mk x (.scalar f.ty)).occurrences := by
    simpa [Param.occurrences, Ty.occurrences] using drawn
  refine (draws_bindFormula binder (by simp [Annotations.none]) fun y mem => ?_).bind
    fun k _ le' _ => draws_pure (drawn.later le')
  exact K.upTo_later (known y mem) le

/-! Array sums and renamed bodies. -/

theorem Draws.collect {act : Build α} (draws : Draws K n act P) :
    Draws K n (collect act) fun m r => P m r.1 ∧ Seen (K.upTo m) (stmOccurrences r.2) := by
  intro b sound at_n
  have inside : Builder.Sound K { b with stms := [] } :=
    ⟨sound.base_le, sound.types, by simp [stmOccurrences]⟩
  obtain ⟨after, le, holds⟩ := draws _ inside at_n
  exact ⟨⟨after.base_le, after.types, sound.stms.later (at_n ▸ le)⟩, le, holds, after.stms⟩

theorem seen_ofShape {elem : ScalarType} {unique : Bool} {shape : List Operand}
    (seen : Seen (K.upTo n) (operandOccurrences shape)) :
    Seen (K.upTo n) (Ty.ofShape elem unique shape).occurrences := by
  cases shape with
  | nil => simp [Ty.ofShape, Ty.occurrences]
  | cons width shape => exact seen

theorem traced_sum (elem : ScalarType) (unique : Bool) {shape : List Operand} {x y : Name}
    (typed : Seen (K.upTo n) (operandOccurrences shape)) (left : K.upTo n x) (right : K.upTo n y) :
    Traced K n (sum elem unique shape x y) fun z => [.reads z] := by
  induction shape generalizing n x y with
  | nil => exact traced_letFormula (by simp [Formula.add, Formula.names, left, right])
  | cons width shape ih =>
    have row : Seen (K.upTo n) (operandOccurrences shape) := by
      simp only [seen_operands, List.forall_mem_cons] at typed ⊢
      exact typed.2
    refine (traced_param (seen_ofShape row)).bind fun m a le seenA => ?_
    refine (traced_param (seen_ofShape (row.later le))).bind fun k b le' seenB => ?_
    have knownA := ((seen_cons ..).mp (seenA.later le')).1
    have knownB := ((seen_cons ..).mp seenB).1
    refine (ih (row.later (by omega)) knownA knownB).collect.bind ?_
    rintro j r le'' ⟨drawn, stms⟩
    refine traced_letExp (typed.later (by omega)) ?_
    have rowAfter : Seen (K.upTo j) (Ty.ofShape elem unique shape).occurrences :=
      seen_ofShape (row.later (by omega))
    have outer : Seen (K.upTo j) width.occurrences :=
      ((List.forall_mem_cons ..).mp ((seen_operands _).mp typed)).1.later (by omega)
    simp only [Exp.occurrences, Lambda.occurrences, Body.occurrences, combinerOccurrences,
      reductionOccurrences, seen_append, seen_names, seen_params, seen_types, seen_operands,
      List.forall_mem_cons, List.not_mem_nil, false_implies, implies_true, seen_nil, and_true]
    exact ⟨⟨outer, K.upTo_later left (by omega), K.upTo_later right (by omega)⟩,
      ⟨⟨seenA.later (by omega), seenB.later (by omega)⟩, stms, drawn⟩, rowAfter⟩

theorem seen_rename {os : Occurrences} {r : Renaming} (base_le : K.base ≤ r.supply.next)
    (recorded : ∀ x y, r.fresh.find? x = some y → K.upTo r.supply.next y)
    (seen : Seen (K.upTo r.supply.next) os) :
    Seen (K.upTo (os.rename r).2.supply.next) (os.rename r).1 := by
  induction os generalizing r with
  | nil => exact seen
  | cons o rest ih =>
    obtain ⟨here, later⟩ := (seen_cons ..).mp seen
    have le (r : Renaming) : r.supply.next ≤ (Occurrences.rename rest r).2.supply.next := by
      rw [(Occurrences.binders_rename rest r).2]
      omega
    cases o with
    | binds x =>
      have step : r.supply.next ≤ r.supply.next + 1 := Nat.le_succ _
      have drawn : K.upTo (r.supply.next + 1) ⟨r.supply.next⟩ :=
        Or.inr ⟨base_le, Nat.lt_succ_self _⟩
      have next := r.next_binder x
      have after := ih (r := (Rename.binder x r).2) (by omega) ?_ (next ▸ later.later step)
      · exact (seen_cons ..).mpr ⟨K.upTo_later drawn (le (Rename.binder x r).2), after⟩
      · intro y z found
        have found : (r.fresh.insert x ⟨r.supply.next⟩).find? y = some z := found
        rw [NameTable.find_insert] at found
        split at found
        · obtain rfl := Option.some.inj found
          exact drawn
        · exact K.upTo_later (recorded y z found) step
    | reads x =>
      refine (seen_cons ..).mpr ⟨?_, ih base_le recorded later⟩
      refine K.upTo_later ?_ (le r)
      show K.upTo r.supply.next ((r.fresh.find? x).getD x)
      cases found : r.fresh.find? x with
      | none => exact here
      | some y => exact recorded x y found

/-- The new names are drawn, and whatever keeps its name was in the body before. -/
theorem traced_renamed {b : Body} (seen : Seen (K.upTo n) b.occurrences) :
    Traced K n (renamed b) Body.occurrences := by
  intro c sound at_n
  subst at_n
  obtain ⟨occurrences, supply⟩ := b.occurrences_rename c.supply
  have le : c.supply.next ≤ (b.rename c.supply).2.next := by
    rw [supply, (Occurrences.binders_rename _ _).2]
    exact Nat.le_add_right _ _
  have after := seen_rename (r := ⟨c.supply, .empty⟩) sound.base_le
    (fun x y found => by simp [NameTable.find_empty] at found) seen
  rw [← occurrences, ← supply] at after
  refine ⟨⟨Nat.le_trans sound.base_le le, fun x t found => (sound.types x t found).later le,
    sound.stms.later le⟩, le, after⟩

end Build

/-! Actions that may fail. -/

/-- The builder is sound and every companion is of known origin. -/
structure DiffState.Sound (K : Origin) (s : DiffState) : Prop where
  builder : s.builder.Sound K
  companions : ∀ x c, s.companions.find? x = some c → K.upTo s.builder.supply.next c

namespace Diff

variable {α β : Type} {P : Nat → α → Prop} {Q : Nat → β → Prop}

/-- From the number `n` on, the action draws names from the supply only and keeps the state sound, also
    if it fails. Its result, if there is one, has the property. -/
def Draws (K : Origin) (n : Nat) (act : Diff α) (P : Nat → α → Prop) : Prop :=
  ∀ s : DiffState, s.Sound K → s.builder.supply.next = n →
    (outcome act s).2.Sound K ∧ n ≤ (outcome act s).2.builder.supply.next ∧
      ∀ a, (outcome act s).1 = .ok a → P (outcome act s).2.builder.supply.next a

/-- The names that occur in the result are of known origin. -/
def Traced (K : Origin) (n : Nat) (act : Diff α) (names : α → Occurrences) : Prop :=
  Draws K n act fun m a => Seen (K.upTo m) (names a)

/-- Nothing is said of the result. -/
def Keeps (K : Origin) (n : Nat) (act : Diff α) : Prop := Draws K n act fun _ _ => True

theorem Draws.bind {act : Diff α} {f : α → Diff β} (first : Draws K n act P)
    (rest : ∀ m a, n ≤ m → P m a → Draws K m (f a) Q) : Draws K n (act >>= f) Q := by
  intro s sound at_n
  obtain ⟨sound, le, holds⟩ := first s sound at_n
  rw [outcome_bind]
  cases ran : outcome act s with
  | mk r t =>
    rw [ran] at sound le holds
    cases r with
    | error e => exact ⟨sound, le, fun a succeeded => by cases succeeded⟩
    | ok a =>
      obtain ⟨sound, further, holds⟩ := rest _ a le (holds a rfl) t sound rfl
      exact ⟨sound, Nat.le_trans le further, holds⟩

theorem Draws.mono {act : Diff α} {P' : Nat → α → Prop} (draws : Draws K n act P)
    (sub : ∀ m a, n ≤ m → P m a → P' m a) : Draws K n act P' := by
  intro s sound at_n
  obtain ⟨sound, le, holds⟩ := draws s sound at_n
  exact ⟨sound, le, fun a succeeded => sub _ a le (holds a succeeded)⟩

theorem draws_pure {a : α} (holds : P n a) : Draws K n (pure a) P := by
  intro s sound at_n
  refine ⟨sound, at_n ▸ Nat.le_refl n, fun b succeeded => ?_⟩
  obtain rfl : a = b := Except.ok.inj succeeded
  exact at_n ▸ holds

theorem Draws.map {act : Diff α} {f : α → β} (draws : Draws K n act P)
    (sub : ∀ m a, P m a → Q m (f a)) : Draws K n (f <$> act) Q := by
  rw [map_eq_pure_bind]
  exact draws.bind fun m a _ holds => draws_pure (sub m a holds)

theorem draws_throw (e : DiffError) : Draws K n (throw e : Diff α) P := by
  intro s sound at_n
  exact ⟨sound, at_n ▸ Nat.le_refl n, fun a succeeded => by cases succeeded⟩

theorem traced_mapM {f : α → Diff β} {xs : List α} {names : β → Occurrences}
    (each : ∀ x ∈ xs, ∀ m, n ≤ m → Traced K m (f x) names) :
    Traced K n (xs.mapM f) fun ys => ys.flatMap names := by
  induction xs generalizing n with
  | nil => exact draws_pure seen_nil
  | cons x xs ih =>
    rw [List.mapM_cons]
    refine (each x (by simp) n (Nat.le_refl n)).bind fun m y le seen => ?_
    refine (ih fun z later k le' => each z (by simp [later]) k (Nat.le_trans le le')).bind
      fun k ys le' seenRest => draws_pure ?_
    exact (seen_append ..).mpr ⟨seen.later le', seenRest⟩

theorem keeps_forM {f : α → Diff Unit} {xs : List α}
    (each : ∀ x ∈ xs, ∀ m, n ≤ m → Keeps K m (f x)) : Keeps K n (xs.forM f) := by
  induction xs generalizing n with
  | nil => exact draws_pure trivial
  | cons x xs ih =>
    rw [List.forM_eq_forM, List.forM_cons, ← List.forM_eq_forM]
    exact (each x (by simp) n (Nat.le_refl n)).bind fun m _ le _ =>
      ih fun z later k le' => each z (by simp [later]) k (Nat.le_trans le le')

theorem draws_build {act : Build α} (draws : Build.Draws K n act P) : Draws K n (build act) P := by
  intro s sound at_n
  obtain ⟨after, le, holds⟩ := draws s.builder sound.builder at_n
  refine ⟨⟨after, fun x c found => K.upTo_later (sound.companions x c found) (at_n ▸ le)⟩, le, ?_⟩
  intro a succeeded
  obtain rfl := Except.ok.inj succeeded
  exact holds

theorem traced_typeOf (x : Name) : Traced K n (typeOf x) Ty.occurrences := by
  intro s sound at_n
  have asks : outcome (typeOf x) s = ((s.builder.ty x).mapError .build, s) := by
    have read : outcome (get : Diff DiffState) s = (.ok s, s) := rfl
    rw [typeOf, outcome_bind, read]
    cases known : s.builder.ty x <;> simp only [known] <;> rfl
  rw [asks]
  refine ⟨sound, at_n ▸ Nat.le_refl n, fun t succeeded => ?_⟩
  have found : s.builder.types.find? x = some t := by
    unfold Builder.ty at succeeded
    cases known : s.builder.types.find? x <;> simp_all [Except.mapError]
  exact sound.builder.types x t found

theorem draws_companion? (x : Name) :
    Draws K n (companion? x) fun m found => ∀ c, found = some c → K.upTo m c := by
  intro s sound at_n
  have asks : outcome (companion? x) s = (.ok (s.companions.find? x), s) := rfl
  rw [asks]
  refine ⟨sound, at_n ▸ Nat.le_refl n, fun found succeeded c same => ?_⟩
  obtain rfl := Except.ok.inj succeeded
  exact sound.companions x c same

theorem keeps_setCompanion (x : Name) {c : Name} (known : K.upTo n c) :
    Keeps K n (setCompanion x c) := by
  intro s sound at_n
  have sets : outcome (setCompanion x c) s =
      (.ok (), { s with companions := s.companions.insert x c }) := rfl
  rw [sets]
  refine ⟨⟨sound.builder, fun y d found => ?_⟩, at_n ▸ Nat.le_refl n, fun _ _ => trivial⟩
  rw [NameTable.find_insert] at found
  split at found
  · obtain rfl := Option.some.inj found
    exact at_n ▸ known
  · exact sound.companions y d found

theorem Draws.within {act : Diff α} (draws : Draws K n act P) : Draws K n (within act) P := by
  intro s sound at_n
  obtain ⟨after, le, holds⟩ := draws s sound at_n
  exact ⟨⟨after.builder, fun x c found => K.upTo_later (sound.companions x c found) (at_n ▸ le)⟩,
    le, holds⟩

theorem Draws.isolated {act : Diff α} (draws : Draws K n act P) : Draws K n (isolated act) P := by
  refine Draws.within fun s sound at_n => ?_
  have empty : DiffState.Sound K { s with companions := .empty } :=
    ⟨sound.builder, fun x c found => by simp [NameTable.find_empty] at found⟩
  exact draws _ empty at_n

theorem Draws.collect {act : Diff α} (draws : Draws K n act P) :
    Draws K n (collect act) fun m r => P m r.1 ∧ Seen (K.upTo m) (stmOccurrences r.2) := by
  intro s sound at_n
  have inside : DiffState.Sound K { s with builder := { s.builder with stms := [] } } :=
    ⟨⟨sound.builder.base_le, sound.builder.types, by simp [stmOccurrences]⟩, sound.companions⟩
  obtain ⟨after, le, holds⟩ := draws _ inside at_n
  have collects : outcome (Diff.collect act) s =
      ((outcome act { s with builder := { s.builder with stms := [] } }).1.map fun x => (x,
        (outcome act { s with builder := { s.builder with stms := [] } }).2.builder.stms),
      { (outcome act { s with builder := { s.builder with stms := [] } }).2 with
        builder := { (outcome act { s with builder := { s.builder with stms := [] } }).2.builder with
          stms := s.builder.stms } }) := rfl
  rw [collects]
  refine ⟨⟨⟨after.builder.base_le, after.builder.types, sound.builder.stms.later (at_n ▸ le)⟩,
    after.companions⟩, le, fun r succeeded => ?_⟩
  obtain ⟨a, result, rfl⟩ := (except_map_ok ..).mp succeeded
  exact ⟨holds a result, after.builder.stms⟩

/-- The result is computed after the statements. -/
theorem traced_bodyOf {stms : Diff Unit} {result : Diff (List Operand)} (first : Keeps K n stms)
    (rest : ∀ m, n ≤ m → Traced K m result operandOccurrences) :
    Traced K n (bodyOf stms result) Body.occurrences := by
  have both := first.bind fun m _ le _ => rest m le
  refine both.collect.bind fun m r le ⟨seen, stms⟩ => draws_pure ?_
  exact (seen_append ..).mpr ⟨stms, seen⟩

/-! Zeros, companions and rules. -/

theorem seen_zeroExp {on : Name → Prop} {t : Ty} {e : Exp} (zero : zeroExp t = some e)
    (seen : Seen on t.occurrences) : Seen on e.occurrences := by
  cases t with
  | scalar t =>
    obtain rfl := Option.some.inj zero
    exact seen_nil
  | array elem shape unique =>
    obtain rfl := Option.some.inj zero
    exact (seen_append ..).mpr ⟨seen, seen_nil⟩
  | acc token shape elems unique => cases zero

theorem traced_zeroOf (x : Name) : Traced K n (zeroOf x) fun c => [.reads c] := by
  refine (traced_typeOf x).bind fun m t le seen => ?_
  cases zero : zeroExp t with
  | some e => exact draws_build (Build.traced_letExp seen (seen_zeroExp zero seen))
  | none => exact draws_throw _

theorem traced_zeroOperand (x : Operand) : Traced K n (zeroOperand x) Operand.occurrences := by
  cases x with
  | const v => exact draws_pure seen_nil
  | var x =>
    refine (traced_typeOf x).bind fun m t le seen => ?_
    have fallback : Traced K m (do return .var (← zeroOf x) : Diff Operand) Operand.occurrences :=
      (traced_zeroOf x).bind fun k c le' drawn => draws_pure drawn
    cases t with
    | scalar t => exact draws_pure seen_nil
    | array elem shape unique => exact fallback
    | acc token shape elems unique => exact fallback

theorem traced_companion (x : Name) : Traced K n (companion x) fun c => [.reads c] := by
  refine (draws_companion? x).bind fun m found le known => ?_
  cases found with
  | some c => exact draws_pure (by simpa using known c rfl)
  | none =>
    refine (traced_zeroOf x).bind fun k c le' drawn => ?_
    refine (keeps_setCompanion x ((seen_cons ..).mp drawn).1).bind fun j _ le'' _ => ?_
    exact draws_pure (drawn.later le'')

theorem draws_single (mode : Mode) (s : Stm) : Draws K n (single mode s) fun _ p => p ∈ s.pat := by
  unfold single
  split
  · rename_i p pat
    exact draws_pure (by simp [pat])
  · exact draws_throw _

theorem keeps_signature (rules : Rules) (func : String) : Keeps K n (signature rules func) := by
  unfold signature
  split
  · exact draws_pure trivial
  · exact draws_throw _

theorem names_of_seen {on : Name → Prop} {x : Operand} (seen : Seen on x.occurrences)
    (t : ScalarType) : ∀ y ∈ (Formula.ofOperand t x).names, on y := by
  cases x with
  | const v => simp [Formula.ofOperand, Formula.names]
  | var x => simpa [Formula.ofOperand, Formula.names, Operand.occurrences] using seen

theorem draws_partials {rules : Rules} (localRules : rules.Local) (func : String)
    (kinds : List ScalarType) {args : List Operand} (seen : Seen (K.upTo n) (operandOccurrences args)) :
    Draws K n (partials rules func kinds args) fun m ds => ∀ x ∈ formulaNames ds, K.upTo m x := by
  unfold partials
  split
  · rename_i ds found
    refine draws_pure fun x mem => ?_
    have inArgs := localRules.builtin func _ ds found x mem
    obtain ⟨f, isArg, inF⟩ := (mem_formulaNames ..).mp inArgs
    obtain ⟨⟨t, y⟩, paired, rfl⟩ := List.mem_map.mp isArg
    exact names_of_seen ((seen_operands _).mp seen y (List.of_mem_zip paired).2) t x inF
  · exact draws_throw _

end Diff

end Cotangent
