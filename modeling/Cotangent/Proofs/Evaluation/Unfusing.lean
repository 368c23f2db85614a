import Cotangent.Proofs.Evaluation.FusedLoops
import Cotangent.Proofs.Evaluation.Termination
/-!
Taking fused statements apart. A fused statement becomes one for its map, one for each scan and each
reduction, and a last one that binds the pattern. The values between them get names of their own.
-/
namespace Cotangent

/-- The lambda that returns its arguments. -/
def Lambda.identity (names : List Name) (types : List Ty) : Lambda :=
  ⟨names.zipWith Param.mk types, ⟨[], names.map .var⟩, types⟩

namespace Fold

def scans : Fold → List Combiner
  | scan c => [c]
  | reduce _ => []

def reduces : Fold → List Reduction
  | scan _ => []
  | reduce r => [r]

/-- The type of a result, given that of the values that are combined. -/
def resultType (width : Operand) (t : Ty) : Fold → Ty
  | scan _ => t.arrayOf [width]
  | reduce _ => t

/-- The number of values that the operator combines at a time. -/
def arity (k : Fold) : Nat := k.combiner.neutral.length

end Fold

/-- Names for the values in between: one for each column of the map, and for each value that the
    operators combine, a parameter of an identity map and a result. -/
structure Spares where
  columns : List Name
  params : List Name
  results : List Name

namespace Spares

def take (n : Nat) (t : Spares) : Spares := ⟨t.columns.take n, t.params.take n, t.results.take n⟩

def drop (n : Nat) (t : Spares) : Spares := ⟨t.columns.drop n, t.params.drop n, t.results.drop n⟩

def names (t : Spares) : List Name := t.columns ++ t.params ++ t.results

end Spares

/-- One operator alone, over its columns. -/
def Fold.stage (width : Operand) (aux : Annotations) (types : List Ty) (t : Spares) (k : Fold) : Stm :=
  ⟨t.results.zipWith Param.mk (types.map fun ty => k.resultType width ty), aux,
    .screma width t.columns k.scans k.reduces (.identity t.params types)⟩

/-- One statement for each operator. Each takes as many columns as it combines values. -/
def stages (width : Operand) (aux : Annotations) : List Fold → List Ty → Spares → List Stm
  | [], _, _ => []
  | k :: ks, types, t => k.stage width aux (types.take k.arity) (t.take k.arity) ::
      stages width aux ks (types.drop k.arity) (t.drop k.arity)

/-- The number of neutral elements. -/
def neutralCount (ks : List Fold) : Nat := total (ks.map Fold.arity)

/-- What is left for the last statement: the results of the operators and the other columns. It binds
    the whole pattern at once, so it fails on a pattern of another length, as the fused one does. -/
def Spares.finish (t : Spares) (ks : List Fold) (pat : List Param) (aux : Annotations) : Stm :=
  let results : Body := ⟨[], (t.results ++ t.columns.drop (neutralCount ks)).map .var⟩
  ⟨pat, aux, .branch (.const (.bool true)) results results (pat.map (·.ty)) .normal⟩

/-- The statements that take the place of a fused one. -/
def unfused (t : Spares) (pat : List Param) (aux : Annotations) (width : Operand)
    (arrays : List Name) (ks : List Fold) (map : Lambda) : List Stm :=
  ⟨t.columns.zipWith Param.mk (map.ret.map (·.arrayOf [width])), aux, .screma width arrays [] [] map⟩ ::
    (stages width aux ks map.ret t ++ [t.finish ks pat aux])

/-- As many different names as are needed, none of them in use. -/
structure Spares.Fit (used : Name → Prop) (columns values : Nat) (t : Spares) : Prop where
  columns : t.columns.length = columns
  params : t.params.length = values
  results : t.results.length = values
  distinct : t.names.Nodup
  unused : ∀ x ∈ t.names, ¬ used x

/-- A fused statement whose map returns at least as many values as there are neutral elements, taken
    apart with names that are not in use. -/
inductive Unfuses (used : Name → Prop) : Stm → List Stm → Prop
  | screma {pat aux width arrays scans reduces map} (t : Spares) :
      neutralCount (folds scans reduces) ≤ map.ret.length →
      t.Fit used map.ret.length (neutralCount (folds scans reduces)) →
      Unfuses used ⟨pat, aux, .screma width arrays scans reduces map⟩
        (unfused t pat aux width arrays (folds scans reduces) map)

/-! Names and what they stand for. -/

section

variable {α : Type}

/-- The names stand for these values. -/
def Store.Holds (σ : Store α) (xs : List Name) (vs : List (Value α)) : Prop :=
  List.Forall₂ (fun x v => σ.vars.find? x = some v) xs vs

variable {σ τ : Store α} {xs : List Name} {vs : List (Value α)}

theorem Store.Holds.agree {on : Name → Prop} (holds : σ.Holds xs vs) (agree : σ.Agree on τ)
    (known : ∀ x ∈ xs, on x) : τ.Holds xs vs :=
  ((List.forall₂_and_left _ _).mpr ⟨known, holds⟩).imp fun x _ ⟨visible, found⟩ =>
    (agree x visible).trans found

theorem Store.holds_bound (σ : Store α) (distinct : xs.Nodup) (same : vs.length = xs.length) :
    (σ.bound xs vs).Holds xs vs := by
  induction xs generalizing σ vs with
  | nil =>
    obtain rfl := List.length_eq_zero_iff.mp same
    exact .nil
  | cons x xs ih =>
    obtain ⟨v, vs, rfl⟩ := List.exists_cons_of_length_eq_add_one same
    obtain ⟨new, distinct⟩ := List.nodup_cons.mp distinct
    have first : (σ.bound [x] [v]).vars.find? x = some v := by
      show (σ.vars.insert x v).find? x = some v
      rw [NameTable.find_insert, if_pos rfl]
    have kept : (σ.bound [x] [v]).Agree (· = x) ((σ.bound [x] [v]).bound xs vs) :=
      Store.Agree.bound _ _ fun y mem same => new (same ▸ mem)
    exact .cons ((kept x rfl).trans first) (ih (σ.bound [x] [v]) distinct (Nat.succ.inj same))

end

namespace Run

variable {σ τ : Store Scalar} {xs : List Name} {vs : List Value} {spare scope : Scope}

theorem ends_lookups_iff (ws : List Value) (holds : σ.Holds xs vs) :
    Ends (lookups xs) σ ws τ ↔ ws = vs ∧ σ = τ := by
  unfold lookups
  induction holds generalizing ws τ with
  | nil => simp [eq_comm]
  | @cons x v xs vs found rest ih =>
    simp only [List.mapM_cons, ends_bind, ends_lookup, ends_pure, found]
    constructor
    · rintro ⟨_, _, ⟨same, rfl⟩, _, _, ran, rfl, rfl⟩
      obtain ⟨rfl, rfl⟩ := (ih ..).mp ran
      exact ⟨by rw [Option.some.inj same], rfl⟩
    · rintro ⟨rfl, rfl⟩
      exact ⟨v, σ, ⟨rfl, rfl⟩, vs, σ, (ih ..).mpr ⟨rfl, rfl⟩, rfl, rfl⟩

theorem operands_vars (xs : List Name) : operands (xs.map .var) = (lookups xs : Run Scalar _) := by
  rw [operands, lookups, List.mapM_map]
  rfl

theorem Means.holds (holds : σ.Holds xs vs) (known : xs ⊆ scope) :
    Means spare scope σ (lookups xs) (vs = ·) where
  sound σ₁ ws τ agree ends := by
    obtain ⟨rfl, rfl⟩ := (ends_lookups_iff ws (holds.agree agree fun x mem => known mem)).mp ends
    exact ⟨rfl, .refl _ _⟩
  complete σ₁ ws agree same :=
    ⟨σ₁, (ends_lookups_iff ws (holds.agree agree fun x mem => known mem)).mpr ⟨same.symm, rfl⟩⟩

/-! Statements as relations. -/

/-- From every store that agrees with `σ` on the scope, the statements bind the names to values that
    satisfy `P` and to no others; beside those, the scope and the spare names stay as they are. -/
structure Binds (spare scope : Scope) (σ : Store Scalar) (m : Run Scalar Unit) (xs : List Name)
    (P : List Value → Prop) : Prop where
  sound : ∀ σ₁ τ, σ.Agree (· ∈ scope) σ₁ → Ends m σ₁ () τ → ∃ vs, P vs ∧ vs.length = xs.length ∧
    (σ₁.bound xs vs).Agree (· ∈ (spare ++ scope).opened xs) τ
  complete : ∀ σ₁ vs, σ.Agree (· ∈ scope) σ₁ → P vs → vs.length = xs.length →
    ∃ τ, Ends m σ₁ () τ ∧ (σ₁.bound xs vs).Agree (· ∈ (spare ++ scope).opened xs) τ

namespace Binds

variable {m m' : Run Scalar Unit} {ys : List Name} {P Q : List Value → Prop}

theorem congr (binds : Binds spare scope σ m xs P)
    (same : ∀ vs, vs.length = xs.length → (P vs ↔ Q vs)) : Binds spare scope σ m xs Q where
  sound σ₁ τ agree ends := by
    obtain ⟨vs, holds, count, agree⟩ := binds.sound σ₁ τ agree ends
    exact ⟨vs, (same vs count).mp holds, count, agree⟩
  complete σ₁ vs agree holds count := binds.complete σ₁ vs agree ((same vs count).mpr holds) count

theorem stm {fuel : Nat} {s : Stm} (means : Means spare scope σ (exp (runBody fuel) fuel s.exp) P) :
    Binds spare scope σ (stm (runBody fuel) fuel s) (s.pat.map (·.name)) P where
  sound σ₁ τ agree ends := by
    obtain ⟨vs, τ, ran, count, rfl⟩ := (ends_stm ..).mp ends
    obtain ⟨holds, kept⟩ := means.sound σ₁ vs τ agree ran
    have count : vs.length = (s.pat.map (·.name)).length := by simpa using count
    exact ⟨vs, holds, count, kept.opened count⟩
  complete σ₁ vs agree holds count := by
    obtain ⟨τ, ran⟩ := means.complete σ₁ vs agree holds
    have kept := (means.sound σ₁ vs τ agree ran).2
    exact ⟨_, (ends_stm ..).mpr ⟨vs, τ, ran, by simpa using count, rfl⟩, kept.opened count⟩

theorem skip : Binds spare scope σ (Pure.pure ()) [] (· = []) where
  sound σ₁ τ _ ends := by
    obtain ⟨-, rfl⟩ := (ends_pure ..).mp ends
    exact ⟨[], rfl, rfl, .refl _ _⟩
  complete σ₁ vs _ same _ := by
    subst same
    exact ⟨σ₁, (ends_pure ..).mpr ⟨rfl, rfl⟩, .refl _ _⟩

/-- What comes later may read the names that are bound first. -/
theorem andThen {ι : Type} {P : ι → List Value → Prop}
    {Q : ι → List Value → List Value → Prop}
    (first : Binds spare scope σ m xs fun v => ∃ i, P i v)
    (rest : ∀ i v, P i v → v.length = xs.length →
      Binds spare (scope.opened xs) (σ.bound xs v) m' ys (Q i v)) :
    Binds spare scope σ (m >>= fun _ => m') (xs ++ ys) fun vs =>
      ∃ i v w, vs = v ++ w ∧ v.length = xs.length ∧ P i v ∧ Q i v w := by
  have inner {σ₁ τ : Store Scalar} {v : List Value} (agree : σ.Agree (· ∈ scope) σ₁)
      (count : v.length = xs.length)
      (bound : (σ₁.bound xs v).Agree (· ∈ (spare ++ scope).opened xs) τ) :
      (σ.bound xs v).Agree (· ∈ scope.opened xs) τ :=
    (agree.opened count).trans (bound.mono fun x known => by
      rw [mem_opened] at known ⊢
      exact known.imp_right fun known => by simp [known])
  have outer {σ₁ τ υ : Store Scalar} {v w : List Value} (count : v.length = xs.length)
      (count' : w.length = ys.length)
      (bound : (σ₁.bound xs v).Agree (· ∈ (spare ++ scope).opened xs) τ)
      (bound' : (τ.bound ys w).Agree (· ∈ (spare ++ scope.opened xs).opened ys) υ) :
      (σ₁.bound (xs ++ ys) (v ++ w)).Agree (· ∈ (spare ++ scope).opened (xs ++ ys)) υ := by
    rw [Store.bound_append σ₁ _ _ count]
    have later := (bound.opened count').trans (bound'.mono fun x known => by
      simp only [mem_opened, List.mem_append] at known ⊢
      tauto)
    exact later.mono fun x known => by
      simp only [mem_opened, List.mem_append] at known ⊢
      tauto
  constructor
  · intro σ₁ υ agree ends
    obtain ⟨_, τ, ran, ends⟩ := (ends_bind ..).mp ends
    obtain ⟨v, ⟨i, holds⟩, count, bound⟩ := first.sound σ₁ τ agree ran
    obtain ⟨w, holds', count', bound'⟩ :=
      (rest i v holds count).sound τ υ (inner agree count bound) ends
    refine ⟨v ++ w, ⟨i, v, w, rfl, count, holds, holds'⟩, ?_, outer count count' bound bound'⟩
    rw [List.length_append, List.length_append, count, count']
  · intro σ₁ vs agree known total
    obtain ⟨i, v, w, rfl, count, holds, holds'⟩ := known
    have count' : w.length = ys.length := by
      simp only [List.length_append, count] at total
      omega
    obtain ⟨τ, ran, bound⟩ := first.complete σ₁ v agree ⟨i, holds⟩ count
    obtain ⟨υ, ends, bound'⟩ :=
      (rest i v holds count).complete τ w (inner agree count bound) holds' count'
    exact ⟨υ, (ends_bind ..).mpr ⟨(), τ, ran, ends⟩, outer count count' bound bound'⟩

/-- The names bound first are forgotten. -/
theorem hide {P : List Value → Prop} (binds : Binds spare scope σ m (xs ++ ys) P)
    (apart : ∀ x ∈ xs, x ∉ scope) :
    Binds [] scope σ m ys fun w => ∃ v, v.length = xs.length ∧ P (v ++ w) := by
  have shown {σ₁ τ : Store Scalar} {v w : List Value} (count : v.length = xs.length)
      (count' : w.length = ys.length)
      (bound : (σ₁.bound (xs ++ ys) (v ++ w)).Agree (· ∈ (spare ++ scope).opened (xs ++ ys)) τ) :
      (σ₁.bound ys w).Agree (· ∈ Scope.opened ([] ++ scope) ys) τ := by
    have kept : σ₁.Agree (· ∈ scope) (σ₁.bound xs v) := .bound σ₁ v apart
    rw [Store.bound_append σ₁ _ _ count] at bound
    exact (kept.opened count').trans (bound.mono fun x known => by
      simp only [mem_opened, List.mem_append] at known ⊢
      tauto)
  constructor
  · intro σ₁ τ agree ends
    obtain ⟨vs, holds, count, bound⟩ := binds.sound σ₁ τ agree ends
    rw [List.length_append] at count
    obtain ⟨v, w, rfl, first⟩ : ∃ v w, vs = v ++ w ∧ v.length = xs.length :=
      ⟨vs.take xs.length, vs.drop xs.length, (List.take_append_drop ..).symm, by
        rw [List.length_take]; omega⟩
    have second : w.length = ys.length := by
      rw [List.length_append] at count
      omega
    exact ⟨w, ⟨v, first, holds⟩, second, shown first second bound⟩
  · intro σ₁ w agree known second
    obtain ⟨v, first, holds⟩ := known
    have count : (v ++ w).length = (xs ++ ys).length := by
      rw [List.length_append, List.length_append, first, second]
    obtain ⟨τ, ends, bound⟩ := binds.complete σ₁ (v ++ w) agree holds count
    exact ⟨τ, ends, shown first second bound⟩

end Binds

/-- Statements that bind the same values mimic one another. -/
theorem mimics_of_binds {m less m' : Run Scalar Unit}
    {P : Store Scalar → List Value → Prop} (first : ∀ σ, Binds [] scope σ m xs (P σ))
    (second : ∀ σ, Binds [] scope σ m' xs (P σ)) (grows : Extends less m)
    (apart : ∀ x ∈ xs, x ∉ scope) : Mimics scope scope (scope.opened xs) less m' := by
  intro σ σ' agree
  constructor
  · intro _ τ ends
    obtain ⟨vs, holds, count, bound⟩ := (first σ).sound σ τ (.refl _ σ) (grows σ _ ends)
    obtain ⟨τ', ends', bound'⟩ := (second σ).complete σ' vs agree holds count
    have kept : σ.Agree (· ∈ scope) (σ.bound xs vs) := .bound σ vs apart
    refine ⟨kept.trans (bound.mono fun x known => mem_opened.mpr (.inr known)), τ', ends', ?_⟩
    exact bound.symm.trans ((agree.opened count).trans bound')
  · intro e failed _ τ' ends'
    obtain ⟨vs, holds, count, -⟩ := (second σ).sound σ' τ' agree ends'
    obtain ⟨τ, ends, -⟩ := (first σ).complete σ vs (.refl _ σ) holds count
    exact not_ends_of_outcome (grows σ _ failed) () τ ends

/-! The statements that take the place of a fused one. -/

open Fission

theorem names_zipWith {names : List Name} {types : List Ty} (same : types.length = names.length) :
    (names.zipWith Param.mk types).map (·.name) = names := by
  induction names generalizing types with
  | nil => rfl
  | cons x names ih =>
    obtain ⟨t, types, rfl⟩ := List.exists_cons_of_length_eq_add_one same
    rw [List.zipWith_cons_cons, List.map_cons, ih (Nat.succ.inj same)]

/-- What calls come to from a store. -/
def Called (run : Body → Run Scalar (List Value)) (σ : Store Scalar) (l : Lambda)
    (args vs : List Value) : Prop := Gives (applyLambda run l args) σ vs

section

variable {fuel : Nat} {names : List Name} {types : List Ty}

theorem ends_identity (distinct : names.Nodup) (same : types.length = names.length)
    (args vs : List Value) :
    Ends (applyLambda (runBody (fuel + 1)) (.identity names types) args) σ vs τ ↔
      args.length = names.length ∧ vs = args ∧ σ.bound names args = τ := by
  have params : (Lambda.identity names types).params.map (·.name) = names := names_zipWith same
  simp only [applyLambda, ends_bind, params, ends_bindNames, exists_unit]
  constructor
  · rintro ⟨_, ⟨count, rfl⟩, ran⟩
    obtain ⟨_, _, -, first, read⟩ := (ends_runBody ..).mp ran
    obtain rfl := (ends_stms_nil ..).mp first
    rw [Lambda.identity, operands_vars, ends_lookups_iff vs (σ.holds_bound distinct count)] at read
    exact ⟨count, read⟩
  · rintro ⟨count, rfl, rfl⟩
    refine ⟨_, ⟨count, rfl⟩, (ends_runBody ..).mpr ⟨fuel, _, rfl, (ends_stms_nil ..).mpr rfl, ?_⟩⟩
    rw [Lambda.identity, operands_vars, ends_lookups_iff vs (σ.holds_bound distinct count)]
    exact ⟨rfl, rfl⟩

theorem called_identity (distinct : names.Nodup) (same : types.length = names.length)
    (args vs : List Value) : Called (runBody (fuel + 1)) τ (.identity names types) args vs ↔
      args.length = names.length ∧ vs = args := by
  simp [Called, Gives, ends_identity distinct same]

theorem answers_identity (distinct : names.Nodup) (same : types.length = names.length)
    (apart : ∀ x ∈ names, x ∉ spare ++ scope) :
    Answers (runBody (fuel + 1)) spare scope σ (Called (runBody (fuel + 1)) τ)
      (.identity names types) := by
  intro args
  constructor
  · intro σ₁ vs υ _ ends
    obtain ⟨count, rfl, rfl⟩ := (ends_identity distinct same args vs).mp ends
    exact ⟨(called_identity distinct same ..).mpr ⟨count, rfl⟩, .bound σ₁ vs apart⟩
  · intro σ₁ vs _ called
    obtain ⟨count, same'⟩ := (called_identity distinct same ..).mp called
    exact ⟨_, (ends_identity distinct same args vs).mpr ⟨count, same', rfl⟩⟩

end

/-- A map of the identity over columns reads the rows back. -/
theorem rows_identity {call : Lambda → List Value → List Value → Prop} {l : Lambda} {m : Nat}
    (returns : ∀ args vs, call l args vs ↔ args.length = m ∧ vs = args) {rows : List (List Value)}
    (widths : ∀ r ∈ rows, r.length = m) (n i : Nat) (count : i + n = rows.length)
    (news : List (List Value)) :
    Rows call ((columns m rows).map Value.table) l m n i news ↔ news = rows.drop i := by
  induction n generalizing i news with
  | zero => rw [List.drop_of_length_le (by omega)]; rfl
  | succ n ih =>
    have inside : i < rows.length := by omega
    have read := rowsAt_columns widths (List.getElem?_eq_getElem inside)
    have width : rows[i].length = m := widths _ (List.getElem_mem inside)
    rw [List.drop_eq_getElem_cons inside]
    simp only [Rows, read, returns, ih (i + 1) (by omega)]
    constructor
    · rintro ⟨_, _, _, ⟨⟩, ⟨-, rfl⟩, -, rfl, rfl⟩
      rfl
    · rintro rfl
      exact ⟨_, _, _, rfl, ⟨width, rfl⟩, width, rfl, rfl⟩

theorem folds_alone (k : Fold) : folds k.scans k.reduces = [k] := by
  cases k <;> rfl

theorem outcome_alone {call : Lambda → List Value → List Value → Prop} {k : Fold} {l : Lambda}
    (returns : ∀ args vs, call l args vs ↔ args.length = k.arity ∧ vs = args)
    (ret : l.ret.length = k.arity) {rows : List (List Value)} (widths : ∀ r ∈ rows, r.length = k.arity)
    {acc : List Value} (start : acc.length = k.arity) (vs : List Value) :
    Outcome call ((columns k.arity rows).map Value.table) [k] l rows.length [acc] vs ↔
      ∃ steps last, Sweep call [k.combiner.op] [acc] rows steps last ∧
        vs = k.results acc.length steps last := by
  have count : [acc].flatten.length = k.arity := by simp [start]
  simp only [Outcome, count, ret, Nat.sub_self, Nat.add_zero,
    rows_identity returns widths rows.length 0 (Nat.zero_add _), List.drop_zero, Parted]
  have none (rows : List (List Value)) : columns 0 rows = [] := rfl
  constructor
  · rintro ⟨_, _, rfl, ⟨steps, last, _, swept, rfl, rfl⟩, rfl⟩
    exact ⟨steps, last, swept, by simp [none]⟩
  · rintro ⟨steps, last, swept, rfl⟩
    exact ⟨rows, _, rfl, ⟨steps, last, [], swept, rfl, rfl⟩, by simp [none]⟩

section

variable {fuel n : Nat} {width : Operand} {aux : Annotations}
  {neutral : Combiner → List Value → Prop} {υ : Store Scalar}

/-- One operator alone, over columns that were bound before. -/
theorem means_stage {k : Fold} (aux : Annotations) {types : List Ty} {t : Spares}
    {rows : List (List Value)}
    (sized : Means spare scope σ (size width) (n = ·))
    (started : Means spare scope σ (operands k.combiner.neutral) (neutral k.combiner))
    (answers : Answers (runBody (fuel + 1)) spare scope σ (Called (runBody (fuel + 1)) υ)
      k.combiner.op)
    (count : rows.length = n) (widths : ∀ r ∈ rows, r.length = k.arity)
    (arity : ∀ acc, neutral k.combiner acc → acc.length = k.arity)
    (holds : σ.Holds t.columns (columns k.arity rows)) (known : t.columns ⊆ scope)
    (typed : types.length = t.params.length) (params : t.params.length = k.arity)
    (distinct : t.params.Nodup) (apart : ∀ x ∈ t.params, x ∉ spare ++ scope) :
    Means spare scope σ (exp (runBody (fuel + 1)) (fuel + 1) (k.stage width aux types t).exp) fun vs =>
      ∃ acc steps last, neutral k.combiner acc ∧
        Sweep (Called (runBody (fuel + 1)) υ) [k.combiner.op] [acc] rows steps last ∧
        vs = k.results acc.length steps last := by
  have startedAll : ∀ j ∈ folds k.scans k.reduces,
      Means spare scope σ (operands j.combiner.neutral) (neutral j.combiner) := by
    simpa [folds_alone] using started
  have answersAll : ∀ j ∈ folds k.scans k.reduces,
      Answers (runBody (fuel + 1)) spare scope σ (Called (runBody (fuel + 1)) υ) j.combiner.op := by
    simpa [folds_alone] using answers
  have means := Means.screma neutral sized (Means.holds holds known) startedAll answersAll
    (answers_identity distinct typed apart)
  refine means.congr fun vs => ?_
  have returns (args vs : List Value) :
      Called (runBody (fuel + 1)) υ (.identity t.params types) args vs ↔
        args.length = t.params.length ∧ vs = args := called_identity distinct typed args vs
  rw [params] at returns
  have ret : (Lambda.identity t.params types).ret.length = k.arity := typed.trans params
  simp only [folds_alone, List.forall₂_cons_left_iff, List.forall₂_nil_left_iff]
  constructor
  · rintro ⟨_, _, _, rfl, rfl, ⟨acc, _, start, rfl, rfl⟩, outcome⟩
    obtain ⟨steps, last, swept, same⟩ :=
      (outcome_alone returns ret widths (arity acc start) vs).mp (count ▸ outcome)
    exact ⟨acc, steps, last, start, swept, same⟩
  · rintro ⟨acc, steps, last, start, swept, same⟩
    refine ⟨n, _, [acc], rfl, rfl, ⟨acc, [], start, rfl, rfl⟩, ?_⟩
    rw [← count, outcome_alone returns ret widths (arity acc start)]
    exact ⟨steps, last, swept, same⟩

theorem neutralCount_cons (k : Fold) (ks : List Fold) :
    neutralCount (k :: ks) = k.arity + neutralCount ks := rfl

end

end Run

/-- The columns are in scope, the other names are new to it, and there are enough of each. -/
structure Spares.Ready (spare scope : Scope) (m count : Nat) (t : Spares) : Prop where
  columns : t.columns.length = m
  params : t.params.length = count
  results : t.results.length = count
  enough : count ≤ m
  known : t.columns ⊆ scope
  distinctParams : t.params.Nodup
  newParams : ∀ x ∈ t.params, x ∉ spare ++ scope
  distinctResults : t.results.Nodup
  spared : t.results ⊆ spare
  newResults : ∀ x ∈ t.results, x ∉ scope

/-- The columns are bound, and the other names wait. -/
theorem Spares.Fit.ready {on : Name → Prop} {scope : Scope} {t : Spares}
    {columns count : Nat} (fit : t.Fit on columns count) (enough : count ≤ columns)
    (around : ∀ x ∈ scope, on x) :
    t.Ready (t.columns ++ t.results) (scope.opened t.columns) columns count := by
  have distinct := fit.distinct
  have unused := fit.unused
  simp only [Spares.names, List.nodup_append, List.mem_append] at distinct unused
  obtain ⟨⟨columnsDistinct, paramsDistinct, columnsParams⟩, resultsDistinct, others⟩ := distinct
  refine ⟨fit.columns, fit.params, fit.results, enough, fun x mem => mem_opened.mpr (.inl mem),
    paramsDistinct, fun x mem known => ?_, resultsDistinct, List.subset_append_right _ _,
    fun x mem known => ?_⟩
  · simp only [List.mem_append, mem_opened] at known
    rcases known with (column | result) | column | old
    · exact columnsParams x column x mem rfl
    · exact others x (.inr mem) x result rfl
    · exact columnsParams x column x mem rfl
    · exact unused x (.inl (.inr mem)) (around x old)
  · rcases mem_opened.mp known with column | old
    · exact others x (.inl column) x mem rfl
    · exact unused x (.inr mem) (around x old)

theorem Spares.Fit.spare {on : Name → Prop} {t : Spares} {columns count : Nat}
    (fit : t.Fit on columns count) :
    t.columns.Nodup ∧ t.results.Nodup ∧ (∀ x ∈ t.columns, x ∉ t.results) ∧
      ∀ x ∈ t.columns ++ t.results, ¬ on x := by
  have distinct := fit.distinct
  have unused := fit.unused
  simp only [Spares.names, List.nodup_append, List.mem_append] at distinct unused
  obtain ⟨⟨columnsDistinct, -, -⟩, resultsDistinct, others⟩ := distinct
  refine ⟨columnsDistinct, resultsDistinct, fun x mem result => others x (.inl mem) x result rfl,
    fun x mem => unused x ?_⟩
  exact (List.mem_append.mp mem).imp_left .inl

/-- The names that are left when the first results were bound. -/
theorem Spares.Ready.next {spare scope : Scope} {m n count : Nat} {t : Spares}
    (ready : t.Ready spare scope (n + m) (n + count)) :
    (t.drop n).Ready spare (scope.opened (t.results.take n)) m count where
  columns := by simp [Spares.drop, ready.columns]
  params := by simp [Spares.drop, ready.params]
  results := by simp [Spares.drop, ready.results]
  enough := by
    have enough := ready.enough
    omega
  known x mem := mem_opened.mpr (.inr (ready.known (List.mem_of_mem_drop mem)))
  distinctParams := ready.distinctParams.sublist (List.drop_sublist ..)
  newParams x mem known := by
    have new := ready.newParams x (List.mem_of_mem_drop mem)
    simp only [List.mem_append, mem_opened, not_or] at known new
    rcases known with isSpare | bound | old
    · exact new.1 isSpare
    · exact new.1 (ready.spared (List.mem_of_mem_take bound))
    · exact new.2 old
  distinctResults := ready.distinctResults.sublist (List.drop_sublist ..)
  spared x mem := ready.spared (List.mem_of_mem_drop mem)
  newResults x mem known := by
    rcases mem_opened.mp known with bound | old
    · have split := ready.distinctResults
      rw [← List.take_append_drop n t.results] at split
      exact (List.nodup_append.mp split).2.2 x bound x mem rfl
    · exact ready.newResults x (List.mem_of_mem_drop mem) old

namespace Run

open Fission

section

variable {fuel n : Nat} {width : Operand} {aux : Annotations}
  {neutral : Combiner → List Value → Prop} {υ : Store Scalar}

/-- The operators one after the other: what each comes to is settled by the rows alone. -/
theorem binds_stages (neutral : Combiner → List Value → Prop) {ks : List Fold} {scope : Scope}
    {σ : Store Scalar} {types : List Ty} {t : Spares} {rows : List (List Value)} {m : Nat}
    (sized : Means spare scope σ (size width) (n = ·))
    (started : ∀ k ∈ ks, Means spare scope σ (operands k.combiner.neutral) (neutral k.combiner))
    (answers : ∀ k ∈ ks, Answers (runBody (fuel + 1)) spare scope σ (Called (runBody (fuel + 1)) υ)
      k.combiner.op)
    (arity : ∀ k ∈ ks, ∀ acc, neutral k.combiner acc → acc.length = k.arity)
    (count : rows.length = n) (widths : ∀ r ∈ rows, r.length = m)
    (holds : σ.Holds t.columns (columns m rows)) (typed : types.length = m)
    (ready : t.Ready spare scope m (neutralCount ks)) :
    Binds spare scope σ (stms (fuel + 1) (stages width aux ks types t)) t.results fun vs =>
      ∃ accs, List.Forall₂ (fun k => neutral k.combiner) ks accs ∧
        Parted (Called (runBody (fuel + 1)) υ) ks accs rows vs := by
  induction ks generalizing scope σ types t rows m with
  | nil =>
    have noResults : t.results = [] := List.length_eq_zero_iff.mp ready.results
    rw [noResults]
    exact Binds.skip.congr fun vs _ => by simp [Parted]
  | cons k ks ih =>
    rw [neutralCount_cons] at ready
    obtain ⟨m, rfl⟩ : ∃ rest, m = k.arity + rest := ⟨m - k.arity, by have := ready.enough; omega⟩
    obtain ⟨startedHere, startedLater⟩ := List.forall_mem_cons.mp started
    obtain ⟨answersHere, answersLater⟩ := List.forall_mem_cons.mp answers
    obtain ⟨arityHere, arityLater⟩ := List.forall_mem_cons.mp arity
    have taken : (t.results.take k.arity).length = k.arity := by simp [ready.results]
    have apart : ∀ x ∈ t.results.take k.arity, x ∉ scope := fun x mem =>
      ready.newResults x (List.mem_of_mem_take mem)
    have spared : t.results.take k.arity ⊆ spare := fun x mem =>
      ready.spared (List.mem_of_mem_take mem)
    have first : Binds spare scope σ
        (stm (runBody (fuel + 1)) (fuel + 1) (k.stage width aux (types.take k.arity) (t.take k.arity)))
        (t.results.take k.arity) fun v => ∃ acc, neutral k.combiner acc ∧ ∃ steps last,
          Sweep (Called (runBody (fuel + 1)) υ) [k.combiner.op] [acc] rows steps last ∧
            v = k.results acc.length steps last := by
      have inStep : (types.take k.arity).length = (t.take k.arity).params.length := by
        simp [Spares.take, typed, ready.params]
      have held : σ.Holds (t.take k.arity).columns (columns k.arity (rows.map (·.take k.arity))) :=
        take_columns k.arity m rows ▸ List.forall₂_take k.arity holds
      have cut : ∀ r ∈ rows.map (·.take k.arity), r.length = k.arity := by
        rw [List.forall_mem_map]
        intro r mem
        rw [List.length_take, widths r mem]
        omega
      have means := means_stage aux sized startedHere answersHere (by simpa using count) cut arityHere
        held (fun x mem => ready.known (List.mem_of_mem_take mem)) inStep
        (by simp [Spares.take, ready.params])
        (ready.distinctParams.sublist (List.take_sublist ..))
        (fun x mem => ready.newParams x (List.mem_of_mem_take mem))
      have binds := Binds.stm means
      have names : (k.stage width aux (types.take k.arity) (t.take k.arity)).pat.map (·.name) =
          t.results.take k.arity := names_zipWith (by simp [Spares.take, typed, ready.results])
      rw [names] at binds
      refine binds.congr fun v _ => exists_congr fun acc => ?_
      constructor
      · rintro ⟨steps, last, start, swept, same⟩
        exact ⟨start, steps, last, (sweep_take (arityHere acc start) ..).mp swept, same⟩
      · rintro ⟨start, steps, last, swept, same⟩
        exact ⟨steps, last, start, (sweep_take (arityHere acc start) ..).mpr swept, same⟩
    have rest (v : List Value) : Binds spare (scope.opened (t.results.take k.arity))
        (σ.bound (t.results.take k.arity) v)
        (stms (fuel + 1) (stages width aux ks (types.drop k.arity) (t.drop k.arity)))
        (t.results.drop k.arity) fun w => ∃ accs, List.Forall₂ (fun k => neutral k.combiner) ks accs ∧
          Parted (Called (runBody (fuel + 1)) υ) ks accs (rows.map (·.drop k.arity)) w := by
      have held : σ.Holds (t.columns.drop k.arity) (columns m (rows.map (·.drop k.arity))) :=
        drop_columns k.arity m rows ▸ List.forall₂_drop k.arity holds
      refine ih (sized.weaken spared apart v) (fun k mem => (startedLater k mem).weaken spared apart v)
        (fun k mem args => (answersLater k mem args).weaken spared apart v) arityLater
        (by simpa using count) ?_ ?_ (by simp [typed]) ready.next
      · rw [List.forall_mem_map]
        intro r mem
        rw [List.length_drop, widths r mem]
        omega
      · exact held.agree (Store.Agree.bound σ v apart) fun x mem =>
          ready.known (List.mem_of_mem_drop mem)
    have both := first.andThen fun _ v _ _ => rest v
    rw [List.take_append_drop] at both
    refine Binds.congr both fun vs _ => ?_
    constructor
    · rintro ⟨acc, v, w, rfl, -, ⟨start, steps, last, swept, rfl⟩, accs, starts, parted⟩
      rw [← arityHere acc start] at parted
      exact ⟨acc :: accs, .cons start starts, steps, last, w, swept, parted, rfl⟩
    · rintro ⟨_, starts, parted⟩
      obtain ⟨acc, accs, start, later, rfl⟩ := List.forall₂_cons_left_iff.mp starts
      obtain ⟨steps, last, w, swept, parted, rfl⟩ := parted
      rw [arityHere acc start] at parted
      refine ⟨acc, _, w, rfl, ?_, ⟨start, steps, last, swept, rfl⟩, accs, later, parted⟩
      rw [length_results swept, arityHere acc start, taken]

/-- A conditional whose condition is true gives the results of its first branch. -/
theorem exp_branch_true (xs : List Name) (no : Body) (ret : List Ty) (sort : BranchSort) :
    exp (runBody (fuel + 1)) (fuel + 1)
        (.branch (.const (.bool true)) ⟨[], xs.map .var⟩ no ret sort) =
      (lookups xs : Run Scalar (List Value)) := by
  rw [← operands_vars]
  rfl

theorem rows_widths {call : Lambda → List Value → List Value → Prop} {tables : List (Table Scalar)}
    {map : Lambda} {m n i : Nat} {news : List (List Value)}
    (rows : Fission.Rows call tables map m n i news) :
    news.length = n ∧ ∀ r ∈ news, r.length = m := by
  induction n generalizing i news with
  | zero =>
    obtain rfl : news = [] := rows
    simp
  | succ n ih =>
    obtain ⟨row, new, rest, -, -, width, rows, rfl⟩ := rows
    obtain ⟨count, widths⟩ := ih rows
    exact ⟨by simp [count], List.forall_mem_cons.mpr ⟨width, widths⟩⟩

/-- As many values as there are neutral elements. -/
theorem count_starts {ks : List Fold} {accs : List (List Value)}
    (starts : List.Forall₂ (fun k acc => acc.length = Fold.arity k) ks accs) :
    accs.flatten.length = neutralCount ks := by
  induction starts with
  | nil => rfl
  | cons first rest ih => rw [List.flatten_cons, List.length_append, first, ih, neutralCount_cons]

/-- Every operator has as many results as neutral elements. -/
theorem count_parted {call : Lambda → List Value → List Value → Prop} {ks : List Fold}
    {accs rows : List (List Value)} {vs : List Value}
    (starts : List.Forall₂ (fun k acc => acc.length = Fold.arity k) ks accs)
    (parted : Parted call ks accs rows vs) : vs.length = neutralCount ks := by
  induction starts generalizing rows vs with
  | nil =>
    obtain rfl : vs = [] := parted
    rfl
  | cons first rest ih =>
    obtain ⟨steps, last, others, swept, parted, rfl⟩ := parted
    rw [List.length_append, length_results swept, first, ih parted, neutralCount_cons]

theorem outcome_iff {call : Lambda → List Value → List Value → Prop} {tables : List (Table Scalar)}
    {ks : List Fold} {map : Lambda} {n : Nat} {accs : List (List Value)} {count : Nat}
    (starts : accs.flatten.length = count) (enough : count ≤ map.ret.length) (vs : List Value) :
    Outcome call tables ks map n accs vs ↔ ∃ news front,
      Fission.Rows call tables map map.ret.length n 0 news ∧ Parted call ks accs news front ∧
        vs = front ++ (columns map.ret.length news).drop count := by
  have total : count + (map.ret.length - count) = map.ret.length := Nat.add_sub_cancel' enough
  have dropped (news : List (List Value)) : (columns map.ret.length news).drop count =
      columns (map.ret.length - count) (news.map (·.drop count)) := by
    rw [← drop_columns, total]
  simp only [Outcome, starts, total, dropped]

theorem answers_called {on : Name → Prop} {scope : Scope} {l : Lambda} (placed : l.Placed on scope)
    (unseen : ∀ x ∈ spare, ¬ on x) (fuel : Nat) (σ : Store Scalar) :
    Answers (runBody fuel) spare scope σ (Called (runBody fuel) σ) l := fun args =>
  Means.of_mimics (calls_self fuel placed.inScope placed.free args)
    (calls_self fuel (placed.widen unseen) placed.free args)

/-- What a fused statement returns, in terms of what its parts come to at the beginning. -/
def Fused.Returns (run : Body → Run Scalar (List Value)) (σ : Store Scalar) (width : Operand)
    (arrays : List Name) (ks : List Fold) (map : Lambda) (vs : List Value) : Prop :=
  ∃ n vals accs, Gives (size width) σ n ∧ Gives (lookups arrays) σ vals ∧
    List.Forall₂ (fun k => Gives (operands k.combiner.neutral) σ) ks accs ∧
    Outcome (Called run σ) (vals.map Value.table) ks map n accs vs

section

variable {on : Name → Prop} {scope : Scope} {arrays : List Name} {scans : List Combiner}
  {reduces : List Reduction} {map : Lambda} {arity : Nat}

theorem mem_folds {k : Fold} (mem : k ∈ folds scans reduces) :
    k.combiner ∈ scans ++ reduces.map (·.combiner) := by
  rcases List.mem_append.mp mem with isScan | isReduction
  · obtain ⟨c, listed, rfl⟩ := List.mem_map.mp isScan
    exact List.mem_append_left _ listed
  · obtain ⟨r, listed, rfl⟩ := List.mem_map.mp isReduction
    exact List.mem_append_right _ (List.mem_map_of_mem listed)

/-- Reading operands in scope is not disturbed by spare names. -/
theorem means_neutral {c : Combiner} (known : operandNames c.neutral ⊆ scope) (σ : Store Scalar) :
    Means spare scope σ (operands c.neutral) (Gives (operands c.neutral) σ) :=
  .of_mimics (mimics_operands known)
    (mimics_operands (List.Subset.trans known (List.subset_append_right _ _)))

theorem means_fused (sizeKnown : width.names ⊆ scope) (arraysKnown : arrays ⊆ scope)
    (mapPlaced : map.Placed on scope)
    (operators : ∀ c ∈ scans ++ reduces.map (·.combiner),
      operandNames c.neutral ⊆ scope ∧ c.op.Placed on scope)
    (unseen : ∀ x ∈ spare, ¬ on x) (fuel : Nat) (σ : Store Scalar) :
    Means spare scope σ (screma (runBody fuel) width arrays scans reduces map)
      (Fused.Returns (runBody fuel) σ width arrays (folds scans reduces) map) := by
  have wide {xs : List Name} (known : xs ⊆ scope) : xs ⊆ spare ++ scope :=
    List.Subset.trans known (List.subset_append_right _ _)
  refine Means.screma (fun c => Gives (operands c.neutral) σ)
    (.of_mimics (mimics_size sizeKnown) (mimics_size (wide sizeKnown)))
    (.of_mimics (mimics_lookups arraysKnown) (mimics_lookups (wide arraysKnown)))
    (fun k mem => ?_) (fun k mem => ?_) (answers_called mapPlaced unseen fuel σ)
  · exact means_neutral (operators _ (mem_folds mem)).1 σ
  · exact answers_called (operators _ (mem_folds mem)).2 unseen fuel σ

/-- The rows that the map alone goes through, `n` of them. -/
def Maps (run : Body → Run Scalar (List Value)) (σ : Store Scalar) (width : Operand)
    (arrays : List Name) (map : Lambda) (n : Nat) (news : List (List Value)) : Prop :=
  Gives (size width) σ n ∧ ∃ vals, Gives (lookups arrays) σ vals ∧
    Fission.Rows (Called run σ) (vals.map Value.table) map map.ret.length n 0 news

theorem arity_of_gives {k : Fold} {acc : List Value}
    (start : Gives (operands k.combiner.neutral) σ acc) :
    acc.length = k.arity := by
  obtain ⟨_, ends⟩ := start
  exact ends_mapM_length ends

/-- A fused statement returns what its operators make of the rows of the map, and the other columns. -/
theorem returns_iff {run : Body → Run Scalar (List Value)} {ks : List Fold}
    (enough : neutralCount ks ≤ map.ret.length) (vs : List Value) :
    Fused.Returns run σ width arrays ks map vs ↔ ∃ (i : Nat × List (List Value)) (front : List Value),
      Maps run σ width arrays map i.1 i.2 ∧
      (∃ accs, List.Forall₂ (fun k => Gives (operands k.combiner.neutral) σ) ks accs ∧
        Parted (Called run σ) ks accs i.2 front) ∧
      vs = front ++ (columns map.ret.length i.2).drop (neutralCount ks) := by
  have counts {accs : List (List Value)}
      (starts : List.Forall₂ (fun k => Gives (operands (Fold.combiner k).neutral) σ) ks accs) :
      accs.flatten.length = neutralCount ks := count_starts (starts.imp fun _ _ => arity_of_gives)
  constructor
  · rintro ⟨n, vals, accs, sized, read, starts, outcome⟩
    obtain ⟨news, front, rows, parted, rfl⟩ := (outcome_iff (counts starts) enough vs).mp outcome
    exact ⟨(n, news), front, ⟨sized, vals, read, rows⟩, ⟨accs, starts, parted⟩, rfl⟩
  · rintro ⟨⟨n, news⟩, front, ⟨sized, vals, read, rows⟩, ⟨accs, starts, parted⟩, same⟩
    refine ⟨n, vals, accs, sized, read, starts, ?_⟩
    exact (outcome_iff (counts starts) enough vs).mpr ⟨news, front, rows, parted, same⟩

theorem returns_map {run : Body → Run Scalar (List Value)} (vs : List Value) :
    Fused.Returns run σ width arrays [] map vs ↔ ∃ i : Nat × List (List Value),
      Maps run σ width arrays map i.1 i.2 ∧ vs = columns map.ret.length i.2 := by
  rw [returns_iff (Nat.zero_le _)]
  constructor
  · rintro ⟨i, front, maps, ⟨accs, -, parted⟩, rfl⟩
    obtain rfl : front = [] := parted
    exact ⟨i, maps, rfl⟩
  · rintro ⟨i, maps, rfl⟩
    exact ⟨i, [], maps, ⟨[], .nil, rfl⟩, rfl⟩

/-- The first statement: the map alone binds the columns of its rows. -/
theorem binds_map {xs : List Name} (sizeKnown : width.names ⊆ scope) (arraysKnown : arrays ⊆ scope)
    (mapPlaced : map.Placed on scope) (unseen : ∀ x ∈ spare, ¬ on x)
    (columns_ : xs.length = map.ret.length) (aux : Annotations) (σ : Store Scalar) :
    Binds spare scope σ
      (stm (runBody (fuel + 1)) (fuel + 1) ⟨xs.zipWith Param.mk (map.ret.map (·.arrayOf [width])), aux,
        .screma width arrays [] [] map⟩) xs fun v => ∃ i : Nat × List (List Value),
      Maps (runBody (fuel + 1)) σ width arrays map i.1 i.2 ∧ v = columns map.ret.length i.2 := by
  have means : Means spare scope σ (screma (runBody (fuel + 1)) width arrays [] [] map)
      (Fused.Returns (runBody (fuel + 1)) σ width arrays [] map) :=
    means_fused sizeKnown arraysKnown mapPlaced (by simp) unseen (fuel + 1) σ
  have binds := Binds.stm (s := ⟨xs.zipWith Param.mk (map.ret.map (·.arrayOf [width])), aux,
    .screma width arrays [] [] map⟩) means
  rw [show (xs.zipWith Param.mk (map.ret.map (·.arrayOf [width]))).map (·.name) = xs from
    names_zipWith (by simp [columns_])] at binds
  exact binds.congr fun v _ => returns_map v

/-- The last statement: the pattern is bound to the results and to the columns that are left. -/
theorem binds_finish {t : Spares} {ks : List Fold} {v w : List Value} (columns_ : t.columns.Nodup)
    (results : t.results.Nodup) (apart : ∀ x ∈ t.columns, x ∉ t.results)
    (count : v.length = t.columns.length) (count' : w.length = t.results.length) (pat : List Param)
    (aux : Annotations) (σ : Store Scalar) :
    Binds spare ((scope.opened t.columns).opened t.results) ((σ.bound t.columns v).bound t.results w)
      (stms (fuel + 1) [t.finish ks pat aux]) (pat.map (·.name))
      (w ++ v.drop (neutralCount ks) = ·) := by
  have columnsHold : ((σ.bound t.columns v).bound t.results w).Holds t.columns v := by
    have kept : (σ.bound t.columns v).Agree (· ∈ t.columns)
        ((σ.bound t.columns v).bound t.results w) :=
      .bound _ w fun x result column => apart x column result
    exact (σ.holds_bound columns_ count).agree kept fun x mem => mem
  have resultsHold := (σ.bound t.columns v).holds_bound results count'
  have holds : ((σ.bound t.columns v).bound t.results w).Holds
      (t.results ++ t.columns.drop (neutralCount ks)) (w ++ v.drop (neutralCount ks)) :=
    List.rel_append resultsHold (List.forall₂_drop _ columnsHold)
  have known : t.results ++ t.columns.drop (neutralCount ks) ⊆
      (scope.opened t.columns).opened t.results := by
    intro x mem
    rw [mem_opened, mem_opened]
    exact (List.mem_append.mp mem).imp_right fun column => .inl (List.mem_of_mem_drop column)
  rw [stms_singleton]
  refine Binds.stm ?_
  rw [Spares.finish, exp_branch_true]
  exact Means.holds holds known

/-- The statements in the middle: the operators bind what they make of the columns. -/
theorem binds_operators {t : Spares} (sizeKnown : width.names ⊆ scope)
    (mapPlaced : map.Placed on scope)
    (operators : ∀ c ∈ scans ++ reduces.map (·.combiner),
      operandNames c.neutral ⊆ scope ∧ c.op.Placed on scope)
    (enough : neutralCount (folds scans reduces) ≤ map.ret.length)
    (fit : t.Fit on map.ret.length (neutralCount (folds scans reduces))) (aux : Annotations)
    {i : Nat × List (List Value)} {v : List Value}
    (maps : Maps (runBody (fuel + 1)) σ width arrays map i.1 i.2 ∧ v = columns map.ret.length i.2)
    (count : v.length = t.columns.length) :
    Binds (t.columns ++ t.results) (scope.opened t.columns) (σ.bound t.columns v)
      (stms (fuel + 1) (stages width aux (folds scans reduces) map.ret t)) t.results fun w =>
        ∃ accs, List.Forall₂ (fun k => Gives (operands k.combiner.neutral) σ)
          (folds scans reduces) accs ∧
          Parted (Called (runBody (fuel + 1)) σ) (folds scans reduces) accs i.2 w := by
  obtain ⟨columnsDistinct, -, -, unseen⟩ := fit.spare
  obtain ⟨⟨sized, vals, -, rows⟩, rfl⟩ := maps
  obtain ⟨height, widths⟩ := rows_widths rows
  have spared : t.columns ⊆ t.columns ++ t.results := List.subset_append_left _ _
  have columnsNew : ∀ x ∈ t.columns, x ∉ scope := fun x mem known =>
    unseen x (List.mem_append_left _ mem) (mapPlaced.around x known)
  have sizeMeans : Means (t.columns ++ t.results) scope σ (size width) (i.1 = ·) :=
    (Means.of_mimics (mimics_size sizeKnown)
      (mimics_size (List.Subset.trans sizeKnown (List.subset_append_right _ _)))).congr fun n =>
        ⟨fun given => sized.unique given, fun same => same ▸ sized⟩
  refine binds_stages (fun c => Gives (operands c.neutral) σ)
    (sizeMeans.weaken spared columnsNew _) (fun k mem => ?_) (fun k mem args => ?_)
    (fun k _ acc start => arity_of_gives start) height widths (σ.holds_bound columnsDistinct count)
    rfl (fit.ready enough mapPlaced.around)
  · exact (means_neutral (operators _ (mem_folds mem)).1 σ).weaken spared columnsNew _
  · exact (answers_called (operators _ (mem_folds mem)).2 unseen (fuel + 1) σ args).weaken spared
      columnsNew _

/-- The statements that take the place of a fused one return what it returns. -/
theorem binds_unfused {t : Spares} (sizeKnown : width.names ⊆ scope) (arraysKnown : arrays ⊆ scope)
    (mapPlaced : map.Placed on scope)
    (operators : ∀ c ∈ scans ++ reduces.map (·.combiner),
      operandNames c.neutral ⊆ scope ∧ c.op.Placed on scope)
    (enough : neutralCount (folds scans reduces) ≤ map.ret.length)
    (fit : t.Fit on map.ret.length (neutralCount (folds scans reduces))) (pat : List Param)
    (aux : Annotations) (σ : Store Scalar) :
    Binds [] scope σ
      (stms (fuel + 1) (unfused t pat aux width arrays (folds scans reduces) map)) (pat.map (·.name))
      (Fused.Returns (runBody (fuel + 1)) σ width arrays (folds scans reduces) map) := by
  obtain ⟨columnsDistinct, resultsDistinct, apart, unseen⟩ := fit.spare
  have hidden : ∀ x ∈ t.columns ++ t.results, x ∉ scope := fun x mem known =>
    unseen x mem (mapPlaced.around x known)
  have first : Binds (t.columns ++ t.results) scope σ (stm (runBody (fuel + 1)) (fuel + 1) _)
      t.columns _ :=
    binds_map sizeKnown arraysKnown mapPlaced unseen fit.columns aux σ
  have last {v w : List Value} (count : v.length = t.columns.length)
      (count' : w.length = t.results.length) :
      Binds (t.columns ++ t.results) ((scope.opened t.columns).opened t.results)
        ((σ.bound t.columns v).bound t.results w)
        (stms (fuel + 1) [t.finish (folds scans reduces) pat aux]) (pat.map (·.name))
        (w ++ v.drop (neutralCount (folds scans reduces)) = ·) :=
    binds_finish columnsDistinct resultsDistinct apart count count' pat aux σ
  have chain := first.andThen fun i v maps count =>
    (binds_operators sizeKnown mapPlaced operators enough fit aux maps count).andThen
      fun accs w _ count' => last count count'
  rw [← List.append_assoc] at chain
  rw [unfused, stms_cons, stms_append]
  refine (chain.hide hidden).congr fun vs _ => ?_
  rw [returns_iff enough]
  constructor
  · rintro ⟨front, total, i, v, w, split, count, ⟨maps, rfl⟩, accs, u, rest, rfl, count', parted, rfl⟩
    rw [← List.append_assoc] at split
    have sameLength : front.length = (columns map.ret.length i.2 ++ u).length := by
      rw [total, List.length_append, List.length_append, count, count']
    obtain ⟨-, rfl⟩ := List.append_inj split sameLength
    exact ⟨i, u, maps, ⟨accs, parted⟩, rfl⟩
  · rintro ⟨i, u, maps, ⟨accs, starts, parted⟩, rfl⟩
    have count : (columns map.ret.length i.2).length = t.columns.length := by
      simp [columns, fit.columns]
    have count' : u.length = t.results.length := by
      rw [count_parted (starts.imp fun _ _ => arity_of_gives) parted, fit.results]
    refine ⟨columns map.ret.length i.2 ++ u, by simp [count, count'], i, _, _, ?_, count, ⟨maps, rfl⟩,
      accs, u, _, rfl, count', ⟨starts, parted⟩, rfl⟩
    rw [List.append_assoc]

/-- The statements that take the place of a fused one do what it does, given one more unit of fuel for
    the last of them. -/
theorem replaces_unfuses (on : Name → Prop) : Replaces Scalar on (Unfuses on) 1 := by
  intro s new unfuses scope placed fuel
  have fresh := placed.fresh.unbound
  have fused := placed.exp
  cases unfuses with
  | @screma pat aux width arrays scans reduces map t enough fit =>
    obtain ⟨sizeKnown, arraysKnown, mapPlaced, operators⟩ := fused.screma
    let s : Stm := ⟨pat, aux, .screma width arrays scans reduces map⟩
    have first (σ : Store Scalar) : Binds [] scope σ (stm (runBody (fuel + 1)) (fuel + 1) s)
        (pat.map (·.name))
        (Fused.Returns (runBody (fuel + 1)) σ width arrays (folds scans reduces) map) :=
      .stm (means_fused sizeKnown arraysKnown mapPlaced operators
        (fun _ spare => absurd spare List.not_mem_nil) (fuel + 1) σ)
    have second (σ : Store Scalar) : Binds [] scope σ (stms (fuel + 1) _) _ _ :=
      binds_unfused sizeKnown arraysKnown mapPlaced operators enough fit pat aux σ
    have more : fuel ≤ fuel + 1 := Nat.le_succ fuel
    exact mimics_of_binds first second (extends_stm (extends_runBody more) more _) fresh

end

end

end Run

/-- A program and the one in which any of its fused statements were taken apart, wherever they stand,
    succeed on the same arguments with the same values. -/
theorem Lambda.unfused_agrees {l l' : Lambda} (valid : l.validate = .ok ()) (free : l.AccFree)
    (rewritten : l.Rewritten (Unfuses l.Mentions) l') {args : List Value} {fuel fuel' : Nat}
    {r r' : Except (Fault Scalar) (List Value)} (ends : l.interp args fuel = some r)
    (ends' : l'.interp args fuel' = some r') (vs : List Value) : r = .ok vs ↔ r' = .ok vs :=
  interp_rewritten (Run.replaces_unfuses l.Mentions) valid free rewritten ends ends' vs

/-! A program that goes through the rows of a table and fuses what it does to each of them. -/

namespace RowSums

def number (x : Nat) : Param := ⟨⟨x⟩, .scalar (.int .i64)⟩

def extent (n : Int) : Operand := .const (.int .i64 n)

def row (x : Nat) : Param := ⟨⟨x⟩, (number x).ty.arrayOf [extent 2]⟩

def plus (x y z : Nat) : Combiner :=
  ⟨⟨[number x, number y],
    ⟨[⟨[number z], .none, .basic (.binary (.int .add .i64) (.var ⟨x⟩) (.var ⟨y⟩))⟩], [.var ⟨z⟩]⟩,
    [(number z).ty]⟩, [extent 0]⟩

def square : Lambda :=
  ⟨[number 2], ⟨[⟨[number 3], .none, .basic (.binary (.int .mul .i64) (.var ⟨2⟩) (.var ⟨2⟩))⟩],
    [.var ⟨2⟩, .var ⟨2⟩, .var ⟨3⟩]⟩, [(number 2).ty, (number 2).ty, (number 3).ty]⟩

def scans : List Combiner := [plus 7 8 9]

def reduces : List Reduction := [⟨false, plus 10 11 12⟩]

/-- The running sums of a row, its sum and the squares of its entries. -/
def fused : Stm := ⟨[row 4, number 5, row 6], .none, .screma (extent 2) [⟨1⟩] scans reduces square⟩

def spares : Spares := ⟨[⟨20⟩, ⟨21⟩, ⟨22⟩], [⟨23⟩, ⟨24⟩], [⟨25⟩, ⟨26⟩]⟩

def apart : List Stm := unfused spares fused.pat .none (extent 2) [⟨1⟩] (folds scans reduces) square

def perRow (inside : List Stm) : Lambda :=
  ⟨[row 1], ⟨inside, [.var ⟨4⟩, .var ⟨5⟩, .var ⟨6⟩]⟩, [(row 4).ty, (number 5).ty, (row 6).ty]⟩

def program (inside : List Stm) : Lambda :=
  let pat : List Param := (perRow inside).ret.mapIdx fun i t => ⟨⟨13 + i⟩, t.arrayOf [extent 2]⟩
  ⟨[⟨⟨0⟩, (row 0).ty.arrayOf [extent 2]⟩],
    ⟨[⟨pat, .none, .screma (extent 2) [⟨0⟩] [] [] (perRow inside)⟩],
      [.var ⟨13⟩, .var ⟨14⟩, .var ⟨15⟩]⟩, pat.map (·.ty)⟩

def numbers (ns : List Int) : Value := .array (ns.map fun n => .scalar (.int .i64 n))

def table : List Value := [.array [numbers [1, 2], numbers [4, 5]]]

def results : List Value :=
  [.array [numbers [1, 3], numbers [4, 9]], numbers [3, 9], .array [numbers [1, 4], numbers [16, 25]]]

theorem unfuses_fused : Unfuses (program [fused]).Mentions fused apart := by
  have fits : spares.Fit (program [fused]).Mentions square.ret.length
      (neutralCount (folds scans reduces)) :=
    ⟨rfl, rfl, rfl, by decide, by unfold Lambda.Mentions; decide⟩
  exact .screma spares (by decide) fits

/-- The fused statement stands in the body of another one. -/
theorem rewritten_program :
    (program [fused]).Rewritten (Unfuses (program [fused]).Mentions) (program apart) := by
  have inside : StmsRewritten (Unfuses (program [fused]).Mentions) [fused] apart :=
    List.append_nil apart ▸ .replace unfuses_fused .nil
  exact .lambda (.body (.keep (.screma .nil .nil (.lambda (.body inside))) .nil))

theorem interp_apart : ∃ fuel, (program apart).interp table fuel = some (.ok results) := by
  obtain ⟨outcome, settles⟩ := interp_settles (program apart) table (by decide) (by decide)
  have ran : (program [fused]).interp table 3 = some (.ok results) := by rfl
  have settled := settles _ (Nat.le_refl _)
  have same := Lambda.unfused_agrees (by rfl) (by unfold Lambda.AccFree; decide) rewritten_program
    ran settled results
  exact ⟨_, settled.trans (congrArg some (same.mp rfl))⟩

end RowSums

end Cotangent
