import Cotangent.Proofs.Regions.Echoes
import Cotangent.Proofs.Derivative.DualRuns
import Cotangent.Proofs.Evaluation.ScalarRuns
import Cotangent.Proofs.Value.Everywhere
/-!
Stores of the emitted code beside stores of the source on dual numbers. Where names have roles, a value is
the primal part of a dual one and its tangent holds the other part; an accumulator holds its arrays and
then their tangents. What the source holds is seen through `f`, which is nothing for a run on dual numbers
and the primal part for a plain run.
-/
namespace Cotangent

open Run ScalarAlgebra

/-- Both parts are of the type. -/
def Dual.Of (t : ScalarType) (d : Dual) : Prop := d.primal.ty = t ∧ d.tangent.ty = t

/-- A run sees dual scalars through `f`, and operators see positions as if they did not change. -/
structure Dual.Seen {α : Type} [ScalarAlgebra α] (f : Dual → α) (place : Value α → Value α) :
    Prop where
  constant : ∀ v, ofScalar v = f (.constant v)
  primal : ∀ d, toScalar (f d) = d.primal
  binary : ∀ op (x y d : Dual), ScalarAlgebra.binary op x y = .ok d →
    ScalarAlgebra.binary op (f x) (f y) = .ok (f d)
  compare : ∀ op (x y : Dual) b, op.apply x.primal y.primal = .ok b →
    ScalarAlgebra.compare op (f x) (f y) = .ok b
  place : ∀ d, place (.scalar (f d)) = .scalar (f (.constant d.primal))

/-- The parts of dual values. -/
abbrev primals (ds : List (Value Dual)) : List Value := ds.map (Value.map Dual.primal)

abbrev changes (ds : List (Value Dual)) : List Value := ds.map (Value.map Dual.tangent)

/-- Dual values of the types. -/
abbrev FitAll (ts : List ScalarType) (ds : List (Value Dual)) : Prop :=
  List.Forall₂ (fun t d => Value.Every (Dual.Of t) d) ts ds

section

variable {α : Type} (f : Dual → α) (serves : Nat → List ScalarType → Prop)

/-- What names of the kind hold in the emitted code and in the source. -/
inductive Mirrors : Kind → List Value → Value α → Prop
  | leaves {t : ScalarType} {d : Value Dual} (fits : d.Every (Dual.Of t)) :
      Mirrors (.leaves t) [d.map Dual.primal, d.map Dual.tangent] (d.map f)
  | handle {ts : List ScalarType} {id : Nat} {ds : List (Value Dual)} (fits : FitAll ts ds)
      (served : serves id ts) :
      Mirrors (.handle ts) [.acc id (primals ds ++ changes ds)] (.acc id (ds.map (Value.map f)))

/-- The same for a list of values, one after the other. -/
inductive Bundled : List Kind → List Value → List (Value α) → Prop
  | nil : Bundled [] [] []
  | cons {k : Kind} {ks : List Kind} {us vs : List Value} {w : Value α} {ws : List (Value α)}
      (here : Mirrors f serves k us w) (rest : Bundled ks vs ws) :
      Bundled (k :: ks) (us ++ vs) (w :: ws)

/-- The values of a list of results. -/
def Arrangement.Values (ks : List Kind) (us : List Value) (ws : List (Value α)) : Arrangement → Prop
  | .bundled => Bundled f serves ks us ws
  | .grouped => ∃ ts ds, ks = ts.map .leaves ∧ FitAll ts ds ∧ us = primals ds ++ changes ds ∧
      ws = ds.map (Value.map f)

end

/-- The accumulator has operators for arrays of the types. -/
def Serves {α : Type} (ρ : Roles) (σ : Store Scalar) (τ : Store α) (id : Nat)
    (ts : List ScalarType) : Prop :=
  ∃ op op', τ.combiners[id]? = some op ∧ σ.combiners[id]? = some op' ∧ CombineEchoes ρ ts op op'

/-- The first store holds what it should for the second one, by the roles of its names. -/
structure Accord {α : Type} (ρ : Roles) (f : Dual → α) (σ : Store Scalar) (τ : Store α) : Prop where
  held : ∀ x k, ρ.Holds x k → ∀ v, σ.vars.find? x = some v →
    ∃ us w, Mirrors f (Serves ρ σ τ) k us w ∧ (ρ.echo x).map σ.vars.find? = us.map some ∧
      τ.vars.find? x = some w
  still : ∀ x t, ρ x = some (.still t) → ∀ v, σ.vars.find? x = some v →
    ∃ s : Scalar, v = .scalar s ∧ s.ty = t ∧ τ.vars.find? x = some (.scalar (f (.constant s)))
  zero : ∀ z t, ρ z = some (.zero t) → ∀ v, σ.vars.find? z = some v → v = .scalar (Scalar.zero t)
  counts : σ.combiners.length = τ.combiners.length

theorem NameTable.find_insertAll_congr {α : Type} {s t : NameTable α} {x : Name}
    (same : s.find? x = t.find? x) (ps : List (Name × α)) :
    (s.insertAll ps).find? x = (t.insertAll ps).find? x := by
  induction ps generalizing s t with
  | nil => exact same
  | cons p ps ih => exact ih (by rw [find_insert, find_insert, same])

/-- Insertion at another name may come first. -/
theorem NameTable.find_insert_insertAll {α : Type} (t : NameTable α) {c : Name} (w : α)
    {ps : List (Name × α)} (absent : ∀ p ∈ ps, p.1 ≠ c) (x : Name) :
    ((t.insertAll ps).insert c w).find? x = ((t.insert c w).insertAll ps).find? x := by
  rw [find_insert]
  by_cases same : x = c
  · subst same
    rw [if_pos rfl, find_insertAll_of_not_mem _ _ _ absent, find_insert, if_pos rfl]
  · rw [if_neg same]
    exact find_insertAll_congr (by rw [find_insert, if_neg same]) ps

theorem getElem?_of_prefix {β : Type} {xs ys : List β} (more : xs <+: ys) {i : Nat} {b : β}
    (here : xs[i]? = some b) : ys[i]? = some b := by
  obtain ⟨zs, rfl⟩ := more
  obtain ⟨inside, -⟩ := List.getElem?_eq_some_iff.mp here
  rwa [List.getElem?_append_left inside]

theorem Value.map_eq_scalar {α β : Type} {g : α → β} {v : Value α} {b : β}
    (same : v.map g = .scalar b) : ∃ a, v = .scalar a ∧ g a = b := by
  cases v with
  | scalar a => exact ⟨a, rfl, Value.scalar.inj same⟩
  | array rows => simp [Value.map] at same
  | acc id arrays => simp [Value.map] at same

namespace Roles

variable {ρ : Roles} {x y z : Name} {k k' : Kind}

theorem Holds.unique (first : ρ.Holds x k) (second : ρ.Holds x k') : k = k' := by
  cases first with
  | plain role =>
    cases second with
    | plain role' => simp_all
    | handle role' => simp_all
  | handle role =>
    cases second with
    | plain role' => simp_all
    | handle role' => simp_all

theorem echo_plain {t : ScalarType} {c : Name} (role : ρ x = some (.plain t c)) :
    ρ.echo x = [x, c] := by
  simp [echo, role]

theorem tan_plain {t : ScalarType} {c : Name} (role : ρ x = some (.plain t c)) : ρ.tan x = c := by
  simp [tan, role]

theorem echo_handle {ts : List ScalarType} (role : ρ x = some (.handle ts)) : ρ.echo x = [x] := by
  simp [echo, role]

/-- What is bound for a name of the source is the name itself or its tangent. -/
theorem Holds.of_mem (coherent : ρ.Coherent) (holds : ρ.Holds x k) (mem : z ∈ ρ.echo x) :
    z = x ∨ ρ z = some (.tangent x) := by
  cases holds with
  | plain role =>
    rw [echo_plain role] at mem
    simp only [List.mem_cons, List.not_mem_nil, or_false] at mem
    rcases mem with same | rfl
    · exact .inl same
    · exact .inr (coherent _ _ _ role)
  | handle role =>
    rw [echo_handle role] at mem
    exact .inl (List.mem_singleton.mp mem)

theorem Holds.ne_tangent (holds : ρ.Holds x k) : ρ x ≠ some (.tangent y) := by
  cases holds <;> simp_all

theorem Holds.disjoint (coherent : ρ.Coherent) (first : ρ.Holds x k) (second : ρ.Holds y k')
    (apart : y ≠ x) (mem : z ∈ ρ.echo y) : z ∉ ρ.echo x := by
  intro also
  rcases second.of_mem coherent mem with rfl | isTangent
  · rcases first.of_mem coherent also with same | isTangent
    · exact apart same
    · exact second.ne_tangent isTangent
  · rcases first.of_mem coherent also with rfl | other
    · exact first.ne_tangent isTangent
    · exact apart (by simpa [isTangent] using other)

/-- A name of another role is not touched. -/
theorem Holds.not_mem (coherent : ρ.Coherent) (holds : ρ.Holds x k) (apart : z ≠ x)
    (other : ∀ y, ρ z ≠ some (.tangent y)) : z ∉ ρ.echo x := by
  intro mem
  rcases holds.of_mem coherent mem with same | isTangent
  · exact apart same
  · exact other x isTangent

end Roles

section

variable {α : Type} {f : Dual → α} {ρ : Roles} {σ σ' : Store Scalar} {τ τ' : Store α}
  {serves serves' : Nat → List ScalarType → Prop} {k : Kind} {ks : List Kind} {us : List Value}
  {w : Value α} {ws : List (Value α)}

theorem Mirrors.mono (mirrors : Mirrors f serves k us w)
    (more : ∀ id ts, serves id ts → serves' id ts) : Mirrors f serves' k us w := by
  cases mirrors with
  | leaves fits => exact .leaves fits
  | handle fits served => exact .handle fits (more _ _ served)

theorem Bundled.length (bundled : Bundled f serves ks us ws) : ws.length = ks.length := by
  induction bundled with
  | nil => rfl
  | cons here rest ih => simp [ih]

/-- Operators that were served stay so when more accumulators are made. -/
theorem Serves.grows {id : Nat} {ts : List ScalarType} (served : Serves ρ σ τ id ts)
    (more : σ.combiners <+: σ'.combiners) (more' : τ.combiners <+: τ'.combiners) :
    Serves ρ σ' τ' id ts := by
  obtain ⟨op, op', here, here', echoes⟩ := served
  exact ⟨op, op', getElem?_of_prefix more' here, getElem?_of_prefix more here', echoes⟩

end

/-! Bindings. -/

section

variable {α : Type} {f : Dual → α} {ρ : Roles} {σ σ' : Store Scalar} {τ τ' : Store α}

theorem Store.find_bound_of_not_mem {β : Type} (σ : Store β) {xs : List Name} (vs : List (Value β))
    {z : Name} (absent : z ∉ xs) : (σ.bound xs vs).vars.find? z = σ.vars.find? z := by
  have kept : σ.Agree (· = z) (σ.bound xs vs) := .bound σ vs fun _ mem same => absent (same ▸ mem)
  exact kept z rfl

theorem Mirrors.find_bound {serves : Nat → List ScalarType → Prop} {x : Name} {k : Kind}
    {us : List Value} {w : Value α} (mirrors : Mirrors f serves k us w) (coherent : ρ.Coherent)
    (holds : ρ.Holds x k) (σ : Store Scalar) :
    (ρ.echo x).map (σ.bound (ρ.echo x) us).vars.find? = us.map some := by
  cases mirrors with
  | leaves fits =>
    cases holds with
    | @plain c _ role =>
      have apart : x ≠ c := by
        rintro rfl
        exact absurd (role.symm.trans (coherent _ _ _ role)) (by simp)
      simp [Roles.echo_plain role, Store.bound, NameTable.insertAll, NameTable.find_insert, apart]
  | handle fits served =>
    cases holds with
    | handle role => simp [Roles.echo_handle role, Store.find_bound_single]

/-- A name of the source is bound together with its tangent. -/
theorem Accord.bindHeld (accord : Accord ρ f σ τ) (coherent : ρ.Coherent) {x : Name} {k : Kind}
    (holds : ρ.Holds x k) {us : List Value} {w : Value α}
    (mirrors : Mirrors f (Serves ρ σ τ) k us w) :
    Accord ρ f (σ.bound (ρ.echo x) us) (τ.bound [x] [w]) where
  held y k' holds' v found := by
    by_cases same : y = x
    · subst same
      obtain rfl := holds.unique holds'
      exact ⟨us, w, mirrors, mirrors.find_bound coherent holds σ, τ.find_bound_single y w⟩
    · have kept : ∀ z ∈ ρ.echo y, (σ.bound (ρ.echo x) us).vars.find? z = σ.vars.find? z :=
        fun z mem => σ.find_bound_of_not_mem us (holds.disjoint coherent holds' same mem)
      have first : y ∈ ρ.echo y := by
        cases holds' with
        | plain role => simp [Roles.echo_plain role]
        | handle role => simp [Roles.echo_handle role]
      rw [kept y first] at found
      obtain ⟨us', w', mirrors', shown, here⟩ := accord.held y k' holds' v found
      refine ⟨us', w', mirrors', (List.map_congr_left kept).trans shown, ?_⟩
      exact (τ.find_bound_of_not_mem [w] (by simpa using same)).trans here
  still y t role v found := by
    have apart : y ≠ x := by
      rintro rfl
      cases holds <;> simp_all
    rw [σ.find_bound_of_not_mem us (holds.not_mem coherent apart (by simp [role]))] at found
    obtain ⟨s, rfl, ty, here⟩ := accord.still y t role v found
    exact ⟨s, rfl, ty, (τ.find_bound_of_not_mem [w] (by simpa using apart)).trans here⟩
  zero z t role v found := by
    have apart : z ≠ x := by
      rintro rfl
      cases holds <;> simp_all
    rw [σ.find_bound_of_not_mem us (holds.not_mem coherent apart (by simp [role]))] at found
    exact accord.zero z t role v found
  counts := accord.counts

/-- A name that does not change is bound to a scalar of its type. -/
theorem Accord.bindStill (accord : Accord ρ f σ τ) (coherent : ρ.Coherent) {x : Name}
    {s : Scalar} (role : ρ x = some (.still s.ty)) :
    Accord ρ f (σ.bound [x] [.scalar s]) (τ.bound [x] [.scalar (f (.constant s))]) where
  held y k holds v found := by
    have kept : ∀ z ∈ ρ.echo y, (σ.bound [x] [.scalar s]).vars.find? z = σ.vars.find? z := by
      intro z mem
      refine σ.find_bound_of_not_mem _ ?_
      rw [List.mem_singleton]
      rintro rfl
      rcases holds.of_mem coherent mem with rfl | isTangent
      · cases holds <;> simp_all
      · simp [role] at isTangent
    have apart : y ≠ x := by
      rintro rfl
      cases holds <;> simp_all
    rw [σ.find_bound_of_not_mem _ (by simpa using apart)] at found
    obtain ⟨us, w, mirrors, shown, here⟩ := accord.held y k holds v found
    refine ⟨us, w, mirrors, (List.map_congr_left kept).trans shown, ?_⟩
    exact (τ.find_bound_of_not_mem _ (by simpa using apart)).trans here
  still y t role' v found := by
    by_cases same : y = x
    · subst same
      rw [σ.find_bound_single] at found
      obtain rfl : s.ty = t := by simpa [role] using role'
      exact ⟨s, (Option.some.inj found).symm, rfl, τ.find_bound_single y _⟩
    · rw [σ.find_bound_of_not_mem _ (by simpa using same)] at found
      obtain ⟨s', rfl, ty, here⟩ := accord.still y t role' v found
      exact ⟨s', rfl, ty, (τ.find_bound_of_not_mem _ (by simpa using same)).trans here⟩
  zero z t role' v found := by
    have apart : z ≠ x := by
      rintro rfl
      simp [role] at role'
    rw [σ.find_bound_of_not_mem _ (by simpa using apart)] at found
    exact accord.zero z t role' v found
  counts := accord.counts

/-- The second store differs from the first in zeros and scratch alone, and in names of `skip`. -/
structure Aside (ρ : Roles) (skip : List Name) (σ σ' : Store Scalar) : Prop where
  combiners : σ'.combiners = σ.combiners
  kept : ∀ x r, ρ x = some r → r ≠ .scratch → (∀ t, r ≠ .zero t) → x ∉ skip →
    σ'.vars.find? x = σ.vars.find? x
  zeros : ∀ z t, ρ z = some (.zero t) → σ'.vars.find? z = σ.vars.find? z ∨
    σ'.vars.find? z = some (.scalar (Scalar.zero t))

theorem Aside.refl (skip : List Name) (σ : Store Scalar) : Aside ρ skip σ σ :=
  ⟨rfl, fun _ _ _ _ _ _ => rfl, fun _ _ _ => .inl rfl⟩

theorem Aside.trans {skip : List Name} {σ'' : Store Scalar} (first : Aside ρ skip σ σ')
    (second : Aside ρ skip σ' σ'') : Aside ρ skip σ σ'' where
  combiners := second.combiners.trans first.combiners
  kept x r role plain nonzero apart :=
    (second.kept x r role plain nonzero apart).trans (first.kept x r role plain nonzero apart)
  zeros z t role := by
    rcases second.zeros z t role with same | isZero
    · rw [same]
      exact first.zeros z t role
    · exact .inr isZero

theorem Aside.echo {skip : List Name} (aside : Aside ρ skip σ σ') (coherent : ρ.Coherent) {x : Name}
    {k : Kind} (holds : ρ.Holds x k) (apart : ∀ z ∈ ρ.echo x, z ∉ skip) :
    (ρ.echo x).map σ'.vars.find? = (ρ.echo x).map σ.vars.find? := by
  refine List.map_congr_left fun z mem => ?_
  rcases holds.of_mem coherent mem with rfl | isTangent
  · cases holds with
    | plain role => exact aside.kept _ _ role (by simp) (by simp) (apart _ mem)
    | handle role => exact aside.kept _ _ role (by simp) (by simp) (apart _ mem)
  · exact aside.kept _ _ isTangent (by simp) (by simp) (apart _ mem)

theorem Accord.aside (accord : Accord ρ f σ τ) (coherent : ρ.Coherent) (aside : Aside ρ [] σ σ') :
    Accord ρ f σ' τ where
  held x k holds v found := by
    have shown := aside.echo coherent holds (by simp)
    have first : σ'.vars.find? x = σ.vars.find? x := by
      cases holds with
      | plain role => exact aside.kept _ _ role (by simp) (by simp) (by simp)
      | handle role => exact aside.kept _ _ role (by simp) (by simp) (by simp)
    rw [first] at found
    obtain ⟨us, w, mirrors, shown', here⟩ := accord.held x k holds v found
    have same : Serves ρ σ τ = Serves ρ σ' τ := by
      unfold Serves
      rw [aside.combiners]
    exact ⟨us, w, same ▸ mirrors, shown.trans shown', here⟩
  still x t role v found := by
    rw [aside.kept x _ role (by simp) (by simp) (by simp)] at found
    exact accord.still x t role v found
  zero z t role v found := by
    rcases aside.zeros z t role with same | isZero
    · rw [same] at found
      exact accord.zero z t role v found
    · exact Option.some.inj (found.symm.trans isZero)
  counts := by
    rw [aside.combiners]
    exact accord.counts

theorem Accord.binds (accord : Accord ρ f σ τ) (coherent : ρ.Coherent) {names : List Name}
    {ks : List Kind} (binds : ρ.Binds names ks) {us : List Value} {ws : List (Value α)}
    (bundled : Bundled f (Serves ρ σ τ) ks us ws) :
    Accord ρ f (σ.bound (names.flatMap ρ.echo) us) (τ.bound names ws) ∧
      us.length = (names.flatMap ρ.echo).length ∧ ws.length = names.length := by
  induction binds generalizing σ τ us ws with
  | nil =>
    cases bundled
    exact ⟨accord, rfl, rfl⟩
  | @cons x k names ks holds rest ih =>
    cases bundled with
    | @cons _ _ us vs w ws mirrors others =>
      have count : us.length = (ρ.echo x).length := by
        simpa using (congrArg List.length (mirrors.find_bound coherent holds σ)).symm
      obtain ⟨after, longer, longer'⟩ := ih (accord.bindHeld coherent holds mirrors) others
      refine ⟨?_, by simp [count, longer], by simp [longer']⟩
      rw [List.flatMap_cons, Store.bound_append σ _ _ count]
      exact after

/-- A group of names and then their tangents are bound. -/
theorem Accord.group (accord : Accord ρ f σ τ) (coherent : ρ.Coherent) {ts : List ScalarType}
    {xs : List Name} {ds : List (Value Dual)} (binds : ρ.Binds xs (ts.map .leaves))
    (fits : FitAll ts ds) :
    Accord ρ f (σ.bound (xs ++ xs.map ρ.tan) (primals ds ++ changes ds))
      (τ.bound xs (ds.map (Value.map f))) := by
  -- The same bindings one name at a time: a tangent moves up past names that are not its own.
  have bundled : ∃ us, Bundled f (Serves ρ σ τ) (ts.map .leaves) us (ds.map (Value.map f)) ∧
      ∀ (t : NameTable Value) x,
        (t.insertAll ((xs ++ xs.map ρ.tan).zip (primals ds ++ changes ds))).find? x =
          (t.insertAll ((xs.flatMap ρ.echo).zip us)).find? x := by
    induction fits generalizing xs with
    | nil =>
      obtain rfl := List.forall₂_nil_right_iff.mp binds
      exact ⟨[], .nil, fun _ _ => rfl⟩
    | @cons t d ts ds fit fits ih =>
      obtain ⟨x, xs', holds, others, rfl⟩ := List.forall₂_cons_right_iff.mp binds
      obtain ⟨us, bundled, same⟩ := ih others
      cases holds with
      | @plain c _ role =>
        refine ⟨[_, _] ++ us, .cons (.leaves fit) bundled, fun table y => ?_⟩
        have count : xs'.length = (primals ds).length := by
          simpa [fits.length_eq] using others.length_eq
        have absent : ∀ p ∈ xs'.zip (primals ds), p.1 ≠ c := by
          rintro ⟨z, v⟩ mem rfl
          obtain ⟨k, -, holdsTangent⟩ := exists_of_forall₂ others.flip (List.of_mem_zip mem).1
          exact holdsTangent.ne_tangent (coherent _ _ _ role)
        have moved := NameTable.find_insert_insertAll (table.insert x (d.map Dual.primal))
          (d.map Dual.tangent) absent
        rw [List.flatMap_cons, Roles.echo_plain role]
        simp only [List.map_cons, Roles.tan_plain role, List.cons_append, List.nil_append,
          List.zip_cons_cons, NameTable.insertAll_cons]
        rw [← same, List.zip_append (by simpa using count), List.zip_append (by simpa using count),
          Builder.insertAll_append, Builder.insertAll_append, List.zip_cons_cons,
          NameTable.insertAll_cons]
        exact NameTable.find_insertAll_congr (moved y) _
  obtain ⟨us, bundled, same⟩ := bundled
  obtain ⟨after, -, -⟩ := accord.binds coherent binds bundled
  refine after.aside coherent ⟨rfl, fun x _ _ _ _ _ => ?_, fun z _ _ => .inl ?_⟩
  · exact same σ.vars x
  · exact same σ.vars z

theorem Accord.handle (accord : Accord ρ f σ τ) {h : Name} {ts : List ScalarType}
    (role : ρ h = some (.handle ts)) {v : Value} (found : σ.vars.find? h = some v) :
    ∃ id ds, FitAll ts ds ∧ Serves ρ σ τ id ts ∧ v = .acc id (primals ds ++ changes ds) ∧
      τ.vars.find? h = some (.acc id (ds.map (Value.map f))) := by
  obtain ⟨us, w, mirrors, shown, here⟩ := accord.held h _ (.handle role) v found
  cases mirrors with
  | @handle _ id ds fits served =>
    simp only [Roles.echo_handle role, List.map_cons, List.map_nil, List.cons.injEq, and_true]
      at shown
    exact ⟨id, ds, fits, served, Option.some.inj (found.symm.trans shown), here⟩

end

/-! Reads. -/

theorem forall₂_append_left {β γ : Type} {R : β → γ → Prop} {xs ys : List β} {zs : List γ}
    (each : List.Forall₂ R (xs ++ ys) zs) :
    ∃ us vs, zs = us ++ vs ∧ List.Forall₂ R xs us ∧ List.Forall₂ R ys vs := by
  induction xs generalizing zs with
  | nil => exact ⟨[], zs, rfl, .nil, each⟩
  | cons x xs ih =>
    obtain ⟨z, zs, here, rest, rfl⟩ := List.forall₂_cons_left_iff.mp each
    obtain ⟨us, vs, rfl, first, second⟩ := ih rest
    exact ⟨z :: us, vs, rfl, .cons here first, second⟩

section

variable {α : Type} [ScalarAlgebra α] {f : Dual → α} {place : Value α → Value α} {ρ : Roles}
  {σ σ' : Store Scalar} {τ : Store α}

theorem Dual.of_constant (s : Scalar) : (Dual.constant s).Of s.ty := ⟨rfl, Scalar.ty_zero s.ty⟩

/-- An operand stands for a value, and in another store its tangent for the tangent of the value. -/
theorem Accord.pair (accord : Accord ρ f σ τ) (coherent : ρ.Coherent) (seen : Dual.Seen f place)
    {skip : List Name} (aside : Aside ρ skip σ σ')
    (apart : ∀ q ∈ skip, ∃ t c, ρ q = some (.plain t c)) {t : ScalarType} {x dx : Operand}
    (pair : ρ.Pairs t x dx) {v : Value} (found : σ.value x = some v) :
    ∃ d : Value Dual, d.Every (Dual.Of t) ∧ v = d.map Dual.primal ∧ τ.value x = some (d.map f) ∧
      ∀ u, σ'.value dx = some u → u = d.map Dual.tangent := by
  cases pair with
  | @const s ty =>
    subst ty
    refine ⟨.scalar (.constant s), Dual.of_constant s, (Option.some.inj found).symm, ?_, ?_⟩
    · simp [Store.value, seen.constant, Value.map]
    · exact fun u found => (Option.some.inj found).symm
  | @plain x c role =>
    obtain ⟨us, w, mirrors, shown, here⟩ := accord.held x _ (.plain role) v found
    cases mirrors with
    | @leaves _ d fits =>
      simp only [Roles.echo_plain role, List.map_cons, List.map_nil, List.cons.injEq, and_true]
        at shown
      refine ⟨d, fits, Option.some.inj (found.symm.trans shown.1), here, fun u found => ?_⟩
      have still := aside.kept c _ (coherent _ _ _ role) (by simp) (by simp) fun mem => by
        obtain ⟨_, _, isPlain⟩ := apart c mem
        simp [coherent _ _ _ role] at isPlain
      exact Option.some.inj (found.symm.trans (still.trans shown.2))
  | @still x z role zero =>
    obtain ⟨s, rfl, rfl, here⟩ := accord.still x t role v found
    refine ⟨.scalar (.constant s), Dual.of_constant s, rfl, here, fun u found => ?_⟩
    rcases aside.zeros z _ zero with same | isZero
    · exact accord.zero z _ zero u (same.symm.trans found)
    · exact Option.some.inj (found.symm.trans isZero)

theorem Accord.leaf (accord : Accord ρ f σ τ) (seen : Dual.Seen f place) {t : ScalarType}
    {x : Operand} (leaf : ρ.Leaf t x) {v : Value} (found : σ.value x = some v) :
    ∃ d : Value Dual, d.Every (Dual.Of t) ∧ v = d.map Dual.primal ∧ τ.value x = some (d.map f) := by
  cases leaf with
  | @const s ty =>
    subst ty
    refine ⟨.scalar (.constant s), Dual.of_constant s, (Option.some.inj found).symm, ?_⟩
    simp [Store.value, seen.constant, Value.map]
  | @plain x c role =>
    obtain ⟨us, w, mirrors, shown, here⟩ := accord.held x _ (.plain role) v found
    cases mirrors with
    | @leaves _ d fits =>
      simp only [Roles.echo_plain role, List.map_cons, List.map_nil, List.cons.injEq, and_true]
        at shown
      exact ⟨d, fits, Option.some.inj (found.symm.trans shown.1), here⟩
  | @still x role =>
    obtain ⟨s, rfl, rfl, here⟩ := accord.still x t role v found
    exact ⟨.scalar (.constant s), Dual.of_constant s, rfl, here⟩

/-- What is read as a scalar is the primal part of a dual one. -/
theorem Accord.scalar (accord : Accord ρ f σ τ) (seen : Dual.Seen f place) {x : Operand}
    (known : ∀ z ∈ x.names, ρ.Knows z) {s : Scalar} (found : σ.value x = some (.scalar s)) :
    ∃ d : Dual, d.primal = s ∧ τ.value x = some (.scalar (f d)) := by
  have ofLeaf {t : ScalarType} (leaf : ρ.Leaf t x) :
      ∃ d : Dual, d.primal = s ∧ τ.value x = some (.scalar (f d)) := by
    obtain ⟨v, -, isPrimal, here⟩ := accord.leaf seen leaf found
    obtain ⟨d, rfl, primal⟩ := Value.map_eq_scalar isPrimal.symm
    exact ⟨d, primal, here⟩
  cases x with
  | const v => exact ofLeaf (.const rfl)
  | var x =>
    cases known x (by simp [Operand.names]) with
    | leaf leaf => exact ofLeaf leaf
    | handle role =>
      obtain ⟨_, _, -, -, same, -⟩ := accord.handle role found
      simp at same

theorem Dual.Seen.asInt (seen : Dual.Seen f place) {d : Dual} {n : Int}
    (known : ScalarAlgebra.asInt d.primal = .ok n) : ScalarAlgebra.asInt (f d) = .ok n := by
  have plain : (toScalar d.primal : Scalar) = d.primal := rfl
  unfold ScalarAlgebra.asInt at known ⊢
  rw [plain] at known
  rw [seen.primal]
  cases scalar : d.primal <;> simp_all

theorem Dual.Seen.asBool (seen : Dual.Seen f place) {d : Dual} {b : Bool}
    (known : ScalarAlgebra.asBool d.primal = .ok b) : ScalarAlgebra.asBool (f d) = .ok b := by
  have plain : (toScalar d.primal : Scalar) = d.primal := rfl
  unfold ScalarAlgebra.asBool at known ⊢
  rw [plain] at known
  rw [seen.primal]
  cases scalar : d.primal <;> simp_all

theorem Accord.int (accord : Accord ρ f σ τ) (seen : Dual.Seen f place) {x : Operand}
    (known : ∀ z ∈ x.names, ρ.Knows z) {n : Int} (ends : Ends (Run.int x) σ n σ') :
    σ = σ' ∧ Ends (Run.int x) τ n τ := by
  simp only [Run.int, ends_bind, ends_scalar, ends_lift] at ends ⊢
  obtain ⟨s, _, ⟨found, rfl⟩, isInt, rfl⟩ := ends
  obtain ⟨d, rfl, here⟩ := accord.scalar seen known found
  exact ⟨rfl, f d, τ, ⟨here, rfl⟩, seen.asInt isInt, rfl⟩

theorem Accord.dims (accord : Accord ρ f σ τ) (seen : Dual.Seen f place) {slice : List DimIndex}
    (known : ∀ z ∈ slice.flatMap DimIndex.names, ρ.Knows z) {ds : List Dim}
    (ends : Ends (Run.dims slice) σ ds σ') : σ = σ' ∧ Ends (Run.dims slice) τ ds τ := by
  induction slice generalizing ds with
  | nil =>
    obtain ⟨rfl, rfl⟩ := (ends_pure ..).mp ends
    exact ⟨rfl, (ends_pure ..).mpr ⟨rfl, rfl⟩⟩
  | cons i slice ih =>
    rw [List.flatMap_cons, List.forall_mem_append] at known
    simp only [Run.dims, List.mapM_cons, ends_bind, ends_pure] at ends ⊢
    obtain ⟨d, υ, first, ds, _, rest, rfl, rfl⟩ := ends
    have here : σ = υ ∧ Ends (Run.dim i) τ d τ := by
      cases i with
      | fix i =>
        simp only [Run.dim, ends_bind, ends_pure] at first ⊢
        obtain ⟨n, _, isInt, rfl, rfl⟩ := first
        obtain ⟨rfl, isInt'⟩ := accord.int seen known.1 isInt
        exact ⟨rfl, n, τ, isInt', rfl, rfl⟩
      | slice start len stride =>
        simp only [DimIndex.names, operandNames, List.flatMap_cons, List.flatMap_nil,
          List.append_nil, List.forall_mem_append] at known
        simp only [Run.dim, ends_bind, ends_pure] at first ⊢
        obtain ⟨l, _, isStart, m, _, isLen, n, _, isStride, rfl, rfl⟩ := first
        obtain ⟨rfl, isStart'⟩ := accord.int seen known.1.1 isStart
        obtain ⟨rfl, isLen'⟩ := accord.int seen known.1.2.1 isLen
        obtain ⟨rfl, isStride'⟩ := accord.int seen known.1.2.2 isStride
        exact ⟨rfl, l, τ, isStart', m, τ, isLen', n, τ, isStride', rfl, rfl⟩
    obtain ⟨rfl, here⟩ := here
    obtain ⟨rfl, there⟩ := ih known.2 rest
    exact ⟨rfl, d, τ, here, ds, τ, there, rfl, rfl⟩

/-- A group of operands and the group of their tangents. -/
theorem Accord.tangents (accord : Accord ρ f σ τ) (coherent : ρ.Coherent)
    (seen : Dual.Seen f place) {ts : List ScalarType} {xs dxs : List Operand}
    (paired : ρ.Tangents ts xs dxs) {us : List Value}
    (found : List.Forall₂ (fun x v => σ.value x = some v) (xs ++ dxs) us) :
    ∃ ds, FitAll ts ds ∧ us = primals ds ++ changes ds ∧
      List.Forall₂ (fun x w => τ.value x = some w) xs (ds.map (Value.map f)) := by
  obtain ⟨vs, dvs, rfl, left, right⟩ := forall₂_append_left found
  suffices ∃ ds, FitAll ts ds ∧ vs = primals ds ∧ dvs = changes ds ∧
      List.Forall₂ (fun x w => τ.value x = some w) xs (ds.map (Value.map f)) by
    obtain ⟨ds, fits, rfl, rfl, here⟩ := this
    exact ⟨ds, fits, rfl, here⟩
  clear found
  induction paired generalizing vs dvs with
  | nil =>
    obtain rfl := List.forall₂_nil_left_iff.mp left
    obtain rfl := List.forall₂_nil_left_iff.mp right
    exact ⟨[], .nil, rfl, rfl, .nil⟩
  | cons pair rest ih =>
    obtain ⟨v, vs, read, lefts, rfl⟩ := List.forall₂_cons_left_iff.mp left
    obtain ⟨dv, dvs, read', rights, rfl⟩ := List.forall₂_cons_left_iff.mp right
    obtain ⟨d, fit, rfl, here, tangent⟩ :=
      accord.pair coherent seen (.refl [] σ) (by simp) pair read
    obtain rfl := tangent dv read'
    obtain ⟨ds, fits, rfl, rfl, there⟩ := ih vs dvs lefts rights
    exact ⟨d :: ds, .cons fit fits, rfl, rfl, .cons here there⟩

/-- Operands that are laid out like results. -/
theorem Accord.results (accord : Accord ρ f σ τ) (coherent : ρ.Coherent)
    (seen : Dual.Seen f place) {layout : Arrangement} {ks : List Kind} {xs ys : List Operand}
    (holds : layout.Holds ρ ks xs ys) {us : List Value}
    (found : List.Forall₂ (fun x v => σ.value x = some v) ys us) :
    ∃ ws, List.Forall₂ (fun x w => τ.value x = some w) xs ws ∧
      layout.Values f (Serves ρ σ τ) ks us ws := by
  cases layout with
  | grouped =>
    obtain ⟨ts, dxs, rfl, paired, rfl⟩ := holds
    obtain ⟨ds, fits, rfl, here⟩ := accord.tangents coherent seen paired found
    exact ⟨_, here, ts, ds, rfl, fits, rfl, rfl⟩
  | bundled =>
    have bundles : ρ.Bundles ks xs ys := holds
    clear holds
    induction bundles generalizing us with
    | nil =>
      obtain rfl := List.forall₂_nil_left_iff.mp found
      exact ⟨[], .nil, .nil⟩
    | handle role rest ih =>
      obtain ⟨v, us, read, others, rfl⟩ := List.forall₂_cons_left_iff.mp found
      obtain ⟨id, ds, fits, served, rfl, here⟩ := accord.handle role read
      obtain ⟨ws, there, values⟩ := ih others
      exact ⟨_, .cons here there, .cons (.handle fits served) values⟩
    | leaf pair rest ih =>
      obtain ⟨v, us, read, others, rfl⟩ := List.forall₂_cons_left_iff.mp found
      obtain ⟨dv, us, read', more, rfl⟩ := List.forall₂_cons_left_iff.mp others
      obtain ⟨d, fit, rfl, here, tangent⟩ :=
        accord.pair coherent seen (.refl [] σ) (by simp) pair read
      obtain rfl := tangent dv read'
      obtain ⟨ws, there, values⟩ := ih more
      exact ⟨_, .cons here there, .cons (.leaves fit) values⟩

end

end Cotangent
