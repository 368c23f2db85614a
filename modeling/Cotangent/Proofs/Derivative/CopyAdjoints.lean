import Mathlib.Algebra.BigOperators.Group.Finset.Basic
import Cotangent.Proofs.Derivative.ArraySums
import Cotangent.Proofs.Derivative.CopyRuns
import Cotangent.Proofs.Derivative.DualRuns
import Cotangent.Proofs.Derivative.ScalarPasses
/-!
The adjoints of copies. What the adjoints of the copies of one parameter add up to is accounted for, entry
by entry, while the backward sweep passes the adjoint of each copy on to what it is a copy of. Every step
comes with a run of the statements that it emits.
-/
namespace Cotangent

open Outline Run

/-- The numbers of a value, position by position. -/
def Value.entries (w : IntWidth) (v : Value) (i : List Nat) : ZMod w.modulus := v.entry i

def Store.entries (w : IntWidth) (σ : Store Scalar) (x : Name) : List Nat → ZMod w.modulus :=
  match σ.vars.find? x with
  | some v => v.entries w
  | none => 0

variable {σ τ υ : Store Scalar}

theorem Store.entries_of_find {w : IntWidth} {x : Name} {v : Value} (found : σ.vars.find? x = some v) :
    σ.entries w x = v.entries w := by
  simp [Store.entries, found]

theorem Store.Agree.entries {w : IntWidth} {on : Name → Prop} (agree : σ.Agree on τ) {x : Name}
    (known : on x) : τ.entries w x = σ.entries w x := by
  rw [Store.entries, agree x known, Store.entries]

/-- A parameter whose adjoint is accounted for, in a run on the inputs, and a property of scalars that
    zeros have and sums preserve. -/
structure Account where
  inputs : Inputs
  param : Name
  width : IntWidth
  leaf : Scalar → Prop
  kind : ∀ L, inputs.layout? (.var param) = some L → L.elem = .int width
  zero : ∀ k, leaf (.zero k)
  plus : ∀ a b, leaf a → leaf b → leaf (a.plus b)

namespace Account

variable (A : Account)

/-- An adjoint for copies of the operand. -/
def Adjoint (src : Operand) (v : Value) : Prop :=
  (∃ L, A.inputs.layout? src = some L ∧ v.Fits L) ∧ (src = .var A.param → v.Every A.leaf)

/-- The name stands for an adjoint for copies of the operand. -/
def Holds (σ : Store Scalar) (c : Name) (src : Operand) : Prop :=
  ∃ v, σ.vars.find? c = some v ∧ A.Adjoint src v

/-- An adjoint for whatever the name is a copy of. -/
def AdjointOf (o : Origins) (x : Name) (v : Value) : Prop :=
  ∀ src, o.find? x = some src → A.Adjoint src v

/-- What an adjoint contributes for an operand. -/
def credit (σ : Store Scalar) (o : Origins) (x : Operand) (d : Name) : List Nat → ZMod A.width.modulus :=
  if x.origin? o = some (.var A.param) then σ.entries A.width d else 0

variable {A} {on : Name → Prop} {src : Operand}

theorem Holds.agree {c : Name} (holds : A.Holds σ c src) (agree : σ.Agree on τ) (known : on c) :
    A.Holds τ c src :=
  have ⟨v, found, adjoint⟩ := holds
  ⟨v, (agree c known).trans found, adjoint⟩

end Account

namespace Reverse

open Diff

variable {sizes : List Name} {s t u : DiffState} {scope middle later inner : Scope} {A : Account}
  {o : Origins}

/-! What was emitted, and runs of it. -/

/-- All types are sized by names in the scope. -/
structure Fit (sizes : List Name) (s : DiffState) (scope : Scope) : Prop where
  ready : Ready All s scope
  types : ∀ x t, s.builder.types.find? x = some t → t.Sized sizes
  known : ∀ x ∈ sizes, x ∈ scope

structure Advances (sizes : List Name) (s : DiffState) (scope : Scope) (t : DiffState) (later : Scope) :
    Prop where
  extends_ : Extends All s scope t later
  types : ∀ x t', t.builder.types.find? x = some t' → t'.Sized sizes

theorem Advances.fit (advances : Advances sizes s scope t later) (fit : Fit sizes s scope) :
    Fit sizes t later :=
  ⟨advances.extends_.ready, advances.types, fun x mem => advances.extends_.sub (fit.known x mem)⟩

theorem Fit.refl (fit : Fit sizes s scope) : Advances sizes s scope s scope :=
  ⟨.refl fit.ready, fit.types⟩

theorem Advances.trans (first : Advances sizes s scope u middle) (second : Advances sizes u middle t later) :
    Advances sizes s scope t later :=
  ⟨first.extends_.trans second.extends_, second.types⟩

theorem Advances.typed (advances : Advances sizes s scope t later) (typed : Typed s inner)
    (sub : ∀ x ∈ inner, x ∈ scope) : Typed t inner := fun x known =>
  have ⟨ty, found⟩ := typed x known
  ⟨ty, (advances.extends_.grows.kept x (sub x known)).trans found⟩

/-- Given enough fuel, the statements that were emitted lead from one store to the other, and they leave
    the scope alone. -/
structure RunsTo (s : DiffState) (scope : Scope) (t : DiffState) (σ τ : Store Scalar) : Prop where
  traces : ∃ fuel, Traces fuel s t σ τ
  agree : σ.Agree (· ∈ scope) τ

theorem RunsTo.trans (first : RunsTo s scope u σ τ) (second : RunsTo u middle t τ υ)
    (sub : ∀ x ∈ scope, x ∈ middle) : RunsTo s scope t σ υ where
  traces := by
    obtain ⟨m, new, emitted, ends⟩ := first.traces
    obtain ⟨n, more, emitted', ends'⟩ := second.traces
    refine ⟨max m n, new ++ more, by rw [emitted', emitted, List.append_assoc], ?_⟩
    exact (ends_stms_append ..).mpr ⟨τ, extends_stms (Nat.le_max_left m n) new σ _ ends,
      extends_stms (Nat.le_max_right m n) more τ _ ends'⟩
  agree := first.agree.trans (second.agree.mono sub)

theorem runsTo_of_stms (same : t.builder.stms = s.builder.stms) : RunsTo s scope t σ σ :=
  ⟨⟨0, (traces_of_stms same).mpr rfl⟩, .refl _ σ⟩

/-! Amounts. -/

/-- The adjoint of a name so far, entry by entry. -/
def share (A : Account) (s : DiffState) (σ : Store Scalar) (x : Name) :
    List Nat → ZMod A.width.modulus :=
  match s.companions.find? x with
  | some c => σ.entries A.width c
  | none => 0

theorem share_of_companion {x c : Name} (found : s.companions.find? x = some c) :
    share A s σ x = σ.entries A.width c := by
  simp [share, found]

theorem share_of_none {x : Name} (found : s.companions.find? x = none) : share A s σ x = 0 := by
  simp [share, found]

/-- What counts of the adjoint of a name: nothing, unless it is a copy of the parameter. -/
def counted (A : Account) (s : DiffState) (σ : Store Scalar) (o : Origins) (x : Name) :
    List Nat → ZMod A.width.modulus :=
  if o.find? x = some (.var A.param) then share A s σ x else 0

/-- What the adjoints of the copies in scope add up to. -/
def balance (A : Account) (s : DiffState) (σ : Store Scalar) (o : Origins) (inner : Scope) :
    List Nat → ZMod A.width.modulus :=
  ∑ x ∈ inner.toFinset, counted A s σ o x

theorem balance_congr (same : ∀ x ∈ inner, share A t τ x = share A s σ x) :
    balance A t τ o inner = balance A s σ o inner :=
  Finset.sum_congr rfl fun x mem => by rw [counted, same x (List.mem_toFinset.mp mem), counted]

theorem balance_credit {x : Name} {g : List Nat → ZMod A.width.modulus} (known : x ∈ inner)
    (others : ∀ y ∈ inner, y ≠ x → share A t τ y = share A s σ y)
    (here : counted A t τ o x = counted A s σ o x + g) :
    balance A t τ o inner = balance A s σ o inner + g := by
  have mem : x ∈ inner.toFinset := List.mem_toFinset.mpr known
  rw [balance, balance, ← Finset.add_sum_erase _ _ mem, here, ← Finset.add_sum_erase _ _ mem]
  have rest : ∀ y ∈ inner.toFinset.erase x, counted A t τ o y = counted A s σ o y := fun y inErase => by
    rw [counted, others y (List.mem_toFinset.mp (Finset.mem_of_mem_erase inErase))
      (Finset.ne_of_mem_erase inErase), counted]
  rw [Finset.sum_congr rfl rest, add_right_comm]

/-- The books of a run: the sizes are those of the inputs, every name in scope is a copy that is declared
    at its layout, and every adjoint fits the copy that it belongs to. -/
structure Books (A : Account) (sizes : List Name) (s : DiffState) (σ : Store Scalar) (o : Origins)
    (inner : Scope) : Prop where
  sizes : A.inputs.store.Agree (· ∈ sizes) σ
  copies : A.inputs.Tracks s.builder.types σ o inner
  adjoints : ∀ x ∈ inner, ∀ src c, o.find? x = some src → s.companions.find? x = some c → A.Holds σ c src

theorem Books.mono (books : Books A sizes s σ o scope) (sub : ∀ x ∈ inner, x ∈ scope) :
    Books A sizes s σ o inner :=
  ⟨books.sizes, fun x known => books.copies x (sub x known), fun x known => books.adjoints x (sub x known)⟩

/-- An adjoint that is still the same stands for the same. -/
theorem RunsTo.share (ran : RunsTo s scope t σ τ) (fit : Fit sizes s scope) {x : Name}
    (same : t.companions.find? x = s.companions.find? x) : share A t τ x = share A s σ x := by
  cases found : s.companions.find? x with
  | none => rw [share_of_none (same.trans found), share_of_none found]
  | some c =>
    rw [share_of_companion (same.trans found), share_of_companion found]
    exact ran.agree.entries (fit.ready.companion_mem x trivial c found)

theorem Books.after (books : Books A sizes s σ o inner) (fit : Fit sizes s scope)
    (advances : Advances sizes s scope t later) (ran : RunsTo s scope t σ τ) (sub : ∀ x ∈ inner, x ∈ scope)
    (adjoints : ∀ x ∈ inner, ∀ src c, o.find? x = some src → t.companions.find? x = some c →
      s.companions.find? x = some c ∨ A.Holds τ c src) : Books A sizes t τ o inner where
  sizes := books.sizes.trans (ran.agree.mono fit.known)
  copies x known := by
    obtain ⟨src, is, copies⟩ := books.copies x known
    exact ⟨src, is, copies.agree ran.agree (sub x known) (advances.extends_.grows.kept x (sub x known))⟩
  adjoints x known src c is found := by
    rcases adjoints x known src c is found with before | holds
    · exact (books.adjoints x known src c is before).agree ran.agree
        (fit.ready.companion_mem x trivial c before)
    · exact holds

/-- The adjoint of a name is set, once its statements have run. -/
theorem Advances.record (advances : Advances sizes s scope t later) {c : Name} (mem : c ∈ later) (x : Name) :
    Advances sizes s scope { t with companions := t.companions.insert x c } later :=
  ⟨advances.extends_.trans (advances.extends_.ready.setCompanion mem), advances.types⟩

theorem Books.record (books : Books A sizes s σ o inner) (fit : Fit sizes s scope)
    (advances : Advances sizes s scope t later) (ran : RunsTo s scope t σ τ)
    (sub : ∀ x ∈ inner, x ∈ scope) (same : t.companions = s.companions) {x c : Name} (mem : c ∈ later)
    (known : x ∈ inner) {src : Operand} (is : o.find? x = some src) (holds : A.Holds τ c src)
    {g : List Nat → ZMod A.width.modulus}
    (amount : src = .var A.param → τ.entries A.width c = share A s σ x + g) :
    Books A sizes { t with companions := t.companions.insert x c } τ o inner ∧
      balance A { t with companions := t.companions.insert x c } τ o inner =
        balance A s σ o inner + if src = .var A.param then g else 0 := by
  have set (y : Name) : (t.companions.insert x c).find? y = if y = x then some c else s.companions.find? y := by
    rw [NameTable.find_insert, same]
  have ran' : RunsTo s scope { t with companions := t.companions.insert x c } σ τ := ⟨ran.traces, ran.agree⟩
  constructor
  · refine books.after fit (advances.record mem x) ran' sub fun y _ src' d is' found => ?_
    rw [set] at found
    split at found
    · subst y
      obtain rfl := Option.some.inj found
      obtain rfl := Option.some.inj (is.symm.trans is')
      exact .inr holds
    · exact .inl found
  · refine balance_credit known (fun y _ other => ran'.share fit (by simp [set, other])) ?_
    rw [counted, counted, is]
    simp only [Option.some.injEq]
    split
    · rename_i counts
      rw [share_of_companion (c := c) (by simp [set]), amount counts]
    · rw [add_zero]

/-- Nothing happens to the adjoints. -/
theorem Books.kept (books : Books A sizes s σ o inner) (fit : Fit sizes s scope)
    (advances : Advances sizes s scope t later) (ran : RunsTo s scope t σ τ) (sub : ∀ x ∈ inner, x ∈ scope)
    (same : t.companions = s.companions) :
    Books A sizes t τ o inner ∧ balance A t τ o inner = balance A s σ o inner :=
  ⟨books.after fit advances ran sub fun _ _ _ _ _ found => .inl (same ▸ found),
    balance_congr fun x _ => ran.share fit (congrArg (·.find? x) same)⟩

/-! Zeros. -/

/-- The zero of a type is bound to a fresh name. -/
theorem zeroOf_works (fit : Fit sizes s scope) {x : Name} (known : x ∈ scope) {ty : Ty}
    (typed : s.builder.types.find? x = some ty) :
    ∃ c t later, Gives (zeroOf x) s c t ∧ Advances sizes s scope t later ∧ c ∈ later ∧
      t.companions = s.companions ∧ ∀ (σ : Store Scalar) (L : Layout), ty.layout? σ = some L →
        ∃ τ, RunsTo s scope t σ τ ∧ τ.vars.find? c = some L.zero := by
  have sized := fit.types x ty typed
  obtain ⟨e, zero⟩ : ∃ e, zeroExp ty = some e := by
    cases ty with
    | acc token shape elems unique => exact sized.elim
    | _ => exact ⟨_, rfl⟩
  have gives : Gives (zeroOf x) s ⟨s.builder.supply.next⟩
      { s with builder := (Build.letExp ty e s.builder).2 } := by
    simp only [zeroOf, gives_bind, gives_typeOf]
    refine ⟨ty, s, ⟨typed, rfl⟩, ?_⟩
    simp only [zero, gives_build]
    exact ⟨rfl, trivial⟩
  obtain ⟨later, extends_, mem⟩ := zeroOf_extends fit.ready known gives
  refine ⟨_, _, later, gives, ⟨extends_, fun y t' found => ?_⟩, mem, rfl, fun σ L layout => ?_⟩
  · have found : (s.builder.types.insert ⟨s.builder.supply.next⟩ ty).find? y = some t' := found
    rw [NameTable.find_insert] at found
    split at found
    · exact Option.some.inj found ▸ sized
    · exact fit.types y t' found
  · obtain ⟨ends, found⟩ := ends_bound (x := ⟨s.builder.supply.next⟩) (t := ty)
      (ends_zeroExp zero layout (runBody 0))
    refine ⟨_, ⟨⟨0, _, rfl, ends⟩, .bound σ _ ?_⟩, found⟩
    simpa using fit.ready.builder.below.fresh

/-! Sums. -/

/-- Sums of sized values have sized types, and so do the rows on the way. -/
theorem sum_sized {k : ScalarType} (exact : k.Exact) (unique : Bool) (shape : List Operand)
    (inShape : ∀ z ∈ operandNames shape, z ∈ sizes) {b : Builder}
    (types : ∀ z t, b.types.find? z = some t → t.Sized sizes) (x y : Name) :
    ∀ z t, (Build.sum k unique shape x y b).2.types.find? z = some t → t.Sized sizes := by
  have insert {types : NameTable Ty} (sized : ∀ z t, types.find? z = some t → t.Sized sizes) (x : Name)
      {ty : Ty} (here : ty.Sized sizes) : ∀ z t, (types.insert x ty).find? z = some t → t.Sized sizes := by
    intro z t found
    rw [NameTable.find_insert] at found
    split at found
    · exact Option.some.inj found ▸ here
    · exact sized z t found
  induction shape generalizing b x y with
  | nil =>
    refine insert types _ (?_ : (Ty.scalar (BinaryOp.add k).ty).Sized sizes)
    have same : (BinaryOp.add k).ty = k := by
      rcases exact with ⟨w, rfl⟩ | rfl <;> rfl
    rwa [same]
  | cons width shape ih =>
    have split : operandNames (width :: shape) = width.names ++ operandNames shape := rfl
    have inRow := inShape
    rw [split, List.forall_mem_append] at inRow
    have row : (Ty.ofShape k unique shape).Sized sizes := by
      cases shape with
      | nil => exact exact
      | cons width shape => exact ⟨exact, List.cons_ne_nil _ _, inRow.2⟩
    have whole : (Ty.ofShape k unique (width :: shape)).Sized sizes :=
      ⟨exact, List.cons_ne_nil _ _, inShape⟩
    refine insert (ih inRow.2 (b := Builder.rowBuilder b (.ofShape k unique shape)) ?_ _ _) _ whole
    exact insert (insert types _ row) _ row

/-- The sum of two values of a type is bound to a fresh name. -/
theorem addValues_works (fit : Fit sizes s scope) {ty : Ty} (sized : ty.Sized sizes) {x y : Name}
    (left : x ∈ scope) (right : y ∈ scope) :
    ∃ c t later, Gives (addValues ty x y) s c t ∧ Advances sizes s scope t later ∧ c ∈ later ∧
      t.companions = s.companions ∧ ∀ (σ : Store Scalar) (L : Layout) (u v : Value),
        ty.layout? σ = some L → σ.vars.find? x = some u → σ.vars.find? y = some v → u.Fits L → v.Fits L →
        ∃ τ, RunsTo s scope t σ τ ∧ τ.vars.find? c = some (.plus L.dims u v) := by
  have inScope : ∀ z ∈ ty.names, z ∈ scope := fun z inType => fit.known z (sized.names z inType)
  have works {k : ScalarType} (exact : k.Exact) (unique : Bool) (shape : List Operand)
      (inShape : ∀ z ∈ operandNames shape, z ∈ sizes)
      (gives : Gives (addValues ty x y) s (Build.sum k unique shape x y s.builder).1
        { s with builder := (Build.sum k unique shape x y s.builder).2 })
      (isShape : ∀ σ : Store Scalar, ty.layout? σ = (shape.mapM σ.extent?).map (⟨k, ·⟩)) :
      ∃ c t later, Gives (addValues ty x y) s c t ∧ Advances sizes s scope t later ∧ c ∈ later ∧
        t.companions = s.companions ∧ ∀ (σ : Store Scalar) (L : Layout) (u v : Value),
          ty.layout? σ = some L → σ.vars.find? x = some u → σ.vars.find? y = some v → u.Fits L →
          v.Fits L → ∃ τ, RunsTo s scope t σ τ ∧ τ.vars.find? c = some (.plus L.dims u v) := by
    obtain ⟨later, extends_, mem⟩ := addValues_extends fit.ready left right inScope gives
    obtain ⟨new, emitted, ran⟩ := ends_sum exact unique shape fit.ready.builder left right
      fun z inType => fit.known z (inShape z inType)
    refine ⟨_, _, later, gives, ⟨extends_, sum_sized exact unique shape inShape fit.types x y⟩, mem, rfl,
      fun σ L u v layout foundLeft foundRight fitsLeft fitsRight => ?_⟩
    obtain ⟨dims, extents, rfl⟩ := Option.map_eq_some_iff.mp ((isShape σ).symm.trans layout)
    obtain ⟨τ, ends, agree, found⟩ :=
      ran shape.length (Nat.le_refl _) σ dims u v extents foundLeft foundRight fitsLeft fitsRight
    exact ⟨τ, ⟨⟨shape.length, new, emitted, ends⟩, agree⟩, found⟩
  cases ty with
  | scalar k =>
    exact works sized false [] (by simp [operandNames]) (.build (Build.sum k false [] x y) s) fun _ => rfl
  | array k shape unique =>
    obtain ⟨exact, ne, inShape⟩ := sized
    obtain ⟨width, shape, rfl⟩ := List.exists_cons_of_ne_nil ne
    exact works exact unique (width :: shape) inShape
      (.build (Build.sum k unique (width :: shape) x y) s) fun _ => rfl
  | acc token shape elems unique => exact sized.elim

/-! Contributions. -/

/-- The next state, and the runs to it: where the books are kept and `pre` holds, there is one, the books
    are still kept at its end, and the gain has come on top of the balance. -/
structure Gains (sizes : List Name) (inner : Scope) (s : DiffState) (scope : Scope) (t : DiffState)
    (later : Scope) (pre : Account → Origins → Store Scalar → Prop)
    (gain : (A : Account) → Origins → Store Scalar → List Nat → ZMod A.width.modulus) : Prop where
  advances : Advances sizes s scope t later
  run : ∀ A o σ, Books A sizes s σ o inner → pre A o σ → ∃ τ, RunsTo s scope t σ τ ∧
    Books A sizes t τ o inner ∧ balance A t τ o inner = balance A s σ o inner + gain A o σ

/-- The adjoint of a name is there from now on. -/
theorem companion_works (fit : Fit sizes s scope) (sub : ∀ x ∈ inner, x ∈ scope) (typed : Typed s inner)
    {x : Name} (known : x ∈ inner) :
    ∃ c t later, Gives (companion x) s c t ∧
      Gains sizes inner s scope t later (fun _ _ _ => True) fun _ _ _ => 0 := by
  cases found : s.companions.find? x with
  | some c =>
    refine ⟨c, s, scope, ?_, fit.refl, fun A o σ books _ => ⟨σ, runsTo_of_stms rfl, books, by simp⟩⟩
    simp [companion, found]
  | none =>
    obtain ⟨ty, declared⟩ := typed x known
    obtain ⟨c, t, later, gives, advances, mem, same, runs⟩ := zeroOf_works fit (sub x known) declared
    refine ⟨c, { t with companions := t.companions.insert x c }, later, ?_, advances.record mem x,
      fun A o σ books _ => ?_⟩
    · simp only [companion, gives_bind, gives_companion?]
      refine ⟨none, s, ⟨found, rfl⟩, ?_⟩
      simp only [gives_bind, gives_setCompanion, gives_pure]
      exact ⟨c, t, gives, (), _, rfl, rfl, rfl⟩
    · obtain ⟨src, is, copies⟩ := books.copies x known
      obtain ⟨ty', L, declared', layout, layoutSrc⟩ := copies.layout
      obtain rfl := Option.some.inj (declared.symm.trans declared')
      have sized := fit.types x ty declared
      obtain ⟨τ, ran, isZero⟩ := runs σ L ((books.sizes.layout? sized.names).trans layout)
      have holds : A.Holds τ c src :=
        ⟨L.zero, isZero, ⟨L, layoutSrc, Value.laid_zero L⟩, fun _ => Value.every_replicate L.dims (A.zero L.elem)⟩
      obtain ⟨books, balanced⟩ := books.record fit advances ran sub same mem known is holds (g := 0) fun _ => by
        rw [share_of_none found, Store.entries_of_find isZero]
        funext i
        simp [Value.entries, Value.entry_zero]
      exact ⟨τ, ⟨ran.traces, ran.agree⟩, books, by simpa using balanced⟩

/-- The adjoints of names in scope are made as far as they are missing. -/
theorem companions_work {α β : Type} {f : α → Diff β} (key : α → Name) (wrap : Name → β)
    (step : ∀ a s c t, Gives (companion (key a)) s c t → Gives (f a) s (wrap c) t) (as : List α)
    (fit : Fit sizes s scope) (sub : ∀ x ∈ inner, x ∈ scope) (typed : Typed s inner)
    (known : ∀ a ∈ as, key a ∈ inner) :
    ∃ cs t later, Gives (as.mapM f) s (cs.map wrap) t ∧
      Gains sizes inner s scope t later (fun _ _ _ => True) (fun _ _ _ => 0) ∧
      (∀ y d, s.companions.find? y = some d → t.companions.find? y = some d) ∧
      List.Forall₂ (fun a c => t.companions.find? (key a) = some c) as cs := by
  induction as generalizing s scope with
  | nil =>
    exact ⟨[], s, scope, .pure [] s, ⟨fit.refl, fun A o σ books _ => ⟨σ, runsTo_of_stms rfl, books, by simp⟩⟩,
      fun _ _ found => found, .nil⟩
  | cons a as ih =>
    obtain ⟨c, u, middle, gives, here⟩ := companion_works fit sub typed (known a (by simp))
    have wider {x : Name} (mem : x ∈ scope) : x ∈ middle := here.advances.extends_.sub mem
    obtain ⟨cs, t, later, givesRest, rest, keptRest, records⟩ := ih (here.advances.fit fit)
      (fun x mem => wider (sub x mem)) (here.advances.typed typed sub) fun b mem => known b (by simp [mem])
    obtain ⟨found, kept⟩ := companion_recorded gives
    refine ⟨c :: cs, t, later, ?_, ⟨here.advances.trans rest.advances, fun A o σ books _ => ?_⟩,
      fun y d before => keptRest y d (kept y d before), .cons (keptRest _ c found) records⟩
    · rw [List.mapM_cons]
      exact (step a s c u gives).bind (givesRest.bind (.pure _ t))
    · obtain ⟨τ, ran, books, balanced⟩ := here.run A o σ books trivial
      obtain ⟨υ, ran', books, balanced'⟩ := rest.run A o τ books trivial
      exact ⟨υ, ran.trans ran' fun _ => wider, books, by rw [balanced', balanced, add_zero]⟩

/-- The name stands for an adjoint for whatever the operand is a copy of. -/
def Suits (x : Operand) (d : Name) (A : Account) (o : Origins) (σ : Store Scalar) : Prop :=
  ∀ src, x.origin? o = some src → A.Holds σ d src

theorem contribute_works (fit : Fit sizes s scope) (sub : ∀ x ∈ inner, x ∈ scope) (typed : Typed s inner)
    {x d : Name} (known : x ∈ inner) (fresh : d ∈ scope) :
    ∃ t later, Gives (contribute x d) s () t ∧
      Gains sizes inner s scope t later (Suits (.var x) d) fun A o σ => A.credit σ o (.var x) d := by
  cases found : s.companions.find? x with
  | none =>
    refine ⟨{ s with companions := s.companions.insert x d }, scope, ?_, fit.refl.record fresh x,
      fun A o σ books suits => ?_⟩
    · simp [contribute, found]
    · obtain ⟨src, is, -⟩ := books.copies x known
      have ran : RunsTo s scope s σ σ := runsTo_of_stms rfl
      obtain ⟨books, balanced⟩ := books.record fit fit.refl ran sub rfl fresh known is (suits src is)
        (g := σ.entries A.width d) fun _ => by rw [share_of_none found, zero_add]
      exact ⟨σ, ⟨ran.traces, ran.agree⟩, books, by simpa [Account.credit, Operand.origin?, is] using balanced⟩
  | some old =>
    obtain ⟨ty, declared⟩ := typed x known
    have sized := fit.types x ty declared
    have inScope := fit.ready.companion_mem x trivial old found
    obtain ⟨c, t, later, gives, advances, mem, same, runs⟩ := addValues_works fit sized inScope fresh
    refine ⟨{ t with companions := t.companions.insert x c }, later, ?_, advances.record mem x,
      fun A o σ books suits => ?_⟩
    · simp only [contribute, gives_bind, gives_companion?]
      refine ⟨some old, s, ⟨found, rfl⟩, ?_⟩
      simp only [gives_bind, gives_typeOf, gives_setCompanion]
      exact ⟨ty, s, ⟨declared, rfl⟩, c, t, gives, rfl⟩
    · obtain ⟨src, is, copies⟩ := books.copies x known
      obtain ⟨ty', L, declared', layout, layoutSrc⟩ := copies.layout
      obtain rfl := Option.some.inj (declared.symm.trans declared')
      obtain ⟨u, isOld, ⟨M, layoutOld, fitsOld⟩, leafOld⟩ := books.adjoints x known src old is found
      obtain ⟨v, isNew, ⟨N, layoutNew, fitsNew⟩, leafNew⟩ := suits src is
      obtain rfl := Option.some.inj (layoutSrc.symm.trans layoutOld)
      obtain rfl := Option.some.inj (layoutSrc.symm.trans layoutNew)
      obtain ⟨τ, ran, isSum⟩ := runs σ L u v ((books.sizes.layout? sized.names).trans layout) isOld isNew
        fitsOld fitsNew
      have holds : A.Holds τ c src := ⟨_, isSum, ⟨L, layoutSrc, Value.laid_plus fitsOld fitsNew⟩,
        fun counts => Value.every_plus A.plus fitsOld fitsNew (leafOld counts) (leafNew counts)⟩
      obtain ⟨books, balanced⟩ := books.record fit advances ran sub same mem known is holds
        (g := σ.entries A.width d) fun counts => by
          have kind := A.kind L (counts ▸ layoutSrc)
          rw [share_of_companion found, Store.entries_of_find isSum, Store.entries_of_find isOld,
            Store.entries_of_find isNew]
          funext i
          exact Value.entry_plus (kind ▸ fitsOld) (kind ▸ fitsNew) i
      exact ⟨τ, ⟨ran.traces, ran.agree⟩, books, by simpa [Account.credit, Operand.origin?, is] using balanced⟩

theorem contributeTo_works (fit : Fit sizes s scope) (sub : ∀ x ∈ inner, x ∈ scope) (typed : Typed s inner)
    {x : Operand} {d : Name} (known : ∀ y ∈ x.names, y ∈ inner) (fresh : d ∈ scope) :
    ∃ t later, Gives (contributeTo x d) s () t ∧
      Gains sizes inner s scope t later (Suits x d) fun A o σ => A.credit σ o x d := by
  cases x with
  | const v =>
    refine ⟨s, scope, .pure () s, fit.refl, fun A o σ books _ => ⟨σ, runsTo_of_stms rfl, books, ?_⟩⟩
    simp [Account.credit, Operand.origin?]
  | var x => exact contribute_works fit sub typed (known x (by simp [Operand.names])) fresh

theorem Suits.agree {x : Operand} {d : Name} (suits : Suits x d A o σ) (agree : σ.Agree (· ∈ scope) τ)
    (known : d ∈ scope) : Suits x d A o τ :=
  fun src is => (suits src is).agree agree known

/-- One contribution after the other. -/
theorem contributions_work (rs : List (Operand × Name)) (fit : Fit sizes s scope)
    (sub : ∀ x ∈ inner, x ∈ scope) (typed : Typed s inner) (known : ∀ r ∈ rs, ∀ y ∈ r.1.names, y ∈ inner)
    (fresh : ∀ r ∈ rs, r.2 ∈ scope) :
    ∃ t later, Gives (rs.forM fun r => contributeTo r.1 r.2) s () t ∧
      Gains sizes inner s scope t later (fun A o σ => ∀ r ∈ rs, Suits r.1 r.2 A o σ)
        fun A o σ => (rs.map fun r => A.credit σ o r.1 r.2).sum := by
  induction rs generalizing s scope with
  | nil => exact ⟨s, scope, .pure () s, fit.refl, fun A o σ books _ => ⟨σ, runsTo_of_stms rfl, books, by simp⟩⟩
  | cons r rs ih =>
    obtain ⟨u, middle, gives, here⟩ :=
      contributeTo_works fit sub typed (known r (by simp)) (fresh r (by simp))
    have wider {x : Name} (mem : x ∈ scope) : x ∈ middle := here.advances.extends_.sub mem
    obtain ⟨t, later, givesRest, rest⟩ := ih (here.advances.fit fit) (fun x mem => wider (sub x mem))
      (here.advances.typed typed sub) (fun r mem => known r (by simp [mem]))
      fun r mem => wider (fresh r (by simp [mem]))
    refine ⟨t, later, gives.bind givesRest, here.advances.trans rest.advances, fun A o σ books suits => ?_⟩
    rw [List.forall_mem_cons] at suits
    obtain ⟨τ, ran, books, balanced⟩ := here.run A o σ books suits.1
    have same : ∀ r ∈ rs, r.2 ∈ scope := fun r mem => fresh r (by simp [mem])
    obtain ⟨υ, ran', books, balanced'⟩ := rest.run A o τ books fun r mem =>
      (suits.2 r mem).agree ran.agree (same r mem)
    refine ⟨υ, ran.trans ran' fun _ => wider, books, ?_⟩
    have credits : (rs.map fun r => A.credit τ o r.1 r.2) = rs.map fun r => A.credit σ o r.1 r.2 :=
      List.map_congr_left fun r mem => by
        rw [Account.credit, ran.agree.entries (same r mem), Account.credit]
    rw [balanced', balanced, credits, List.map_cons, List.sum_cons, add_assoc]

end Reverse

end Cotangent
