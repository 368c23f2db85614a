import Cotangent.Proofs.Tandem.Types
import Cotangent.Proofs.Tandem.Doubled
/-!
Two stores side by side: that of the emitted code, and that of a run of the source which sees dual numbers
through some view. Under a name of the source the first holds the primal part of a dual value and the
second what is seen of it; the tangent is held under the companion of the name, if it has one, and is zero
otherwise.
-/
namespace Cotangent

open Run ScalarAlgebra

/-- A view of dual numbers under which a run takes the same turns as on their primal parts. -/
structure View {α : Type} [ScalarAlgebra α] (f : Dual → α) : Prop where
  constant : ∀ v, f (Dual.constant v) = ofScalar v
  primal : ∀ d, toScalar (f d) = d.primal
  compare : ∀ (op : Comparison) (a b : Dual) (r : Bool), op.apply a.primal b.primal = .ok r →
    ScalarAlgebra.compare op (f a) (f b) = .ok r
  convert : ∀ (op : Conversion) (a : Dual) (r t : Scalar), op.apply a.primal = .ok r →
    op.apply a.tangent = .ok t → ScalarAlgebra.convert op (f a) = .ok (f ⟨r, t⟩)

theorem View.asInt {α : Type} [ScalarAlgebra α] {f : Dual → α} (view : View f) {d : Dual} {i : Int}
    (isInt : (asInt d.primal : Except Fault Int) = .ok i) :
    (asInt (f d) : Except (Fault α) Int) = .ok i := by
  have same : toScalar d.primal = d.primal := rfl
  unfold ScalarAlgebra.asInt at isInt ⊢
  rw [same] at isInt
  rw [view.primal]
  cases isPrimal : d.primal <;> rw [isPrimal] at isInt <;> simp_all

theorem View.asBool {α : Type} [ScalarAlgebra α] {f : Dual → α} (view : View f) {d : Dual} {b : Bool}
    (isBool : (asBool d.primal : Except Fault Bool) = .ok b) : (asBool (f d) : Except (Fault α) Bool) = .ok b := by
  have same : toScalar d.primal = d.primal := rfl
  unfold ScalarAlgebra.asBool at isBool ⊢
  rw [same] at isBool
  rw [view.primal]
  cases isPrimal : d.primal <;> rw [isPrimal] at isBool <;> simp_all

theorem Store.find_bound {α : Type} (σ : Store α) {xs : List Name} (distinct : xs.Nodup)
    {vs : List (Value α)} {x : Name} {v : Value α} (mem : (x, v) ∈ xs.zip vs) :
    (σ.bound xs vs).vars.find? x = some v := by
  induction xs generalizing σ vs with
  | nil => simp at mem
  | cons y xs ih =>
    obtain ⟨absent, distinct⟩ := List.nodup_cons.mp distinct
    cases vs with
    | nil => simp at mem
    | cons u vs =>
      rcases List.mem_cons.mp mem with same | later
      · obtain ⟨rfl, rfl⟩ := Prod.mk.inj same
        have kept : (σ.bound [x] [v]).Agree (· = x) ((σ.bound [x] [v]).bound xs vs) := .bound _ vs fun z inXs same =>
          absent (same ▸ inXs)
        exact (kept x rfl).trans (σ.find_bound_single x v)
      · exact ih (σ.bound [y] [u]) distinct later

namespace Tandem

/-- The view sees no tangents. -/
def Blind {α : Type} (f : Dual → α) : Prop := ∀ (d : Dual) (t : Scalar), f ⟨d.primal, t⟩ = f d

/-- The operand stands for a dual value. -/
structure Reads {α : Type} [ScalarAlgebra α] (f : Dual → α) (σ : Store Scalar) (τ : Store α) (x : Operand)
    (d : Value Dual) : Prop where
  primal : σ.value x = some (d.map Dual.primal)
  seen : τ.value x = some (d.map f)

/-- The operand stands for a dual value, and another one for its tangent. -/
structure Pairs {α : Type} [ScalarAlgebra α] (f : Dual → α) (σ : Store Scalar) (τ : Store α)
    (x dx : Operand) (d : Value Dual) : Prop extends Reads f σ τ x d where
  tangent : σ.value dx = some (d.map Dual.tangent)

/-- Whatever the run of the source has bound is a name of the source, and the emitted code holds it too. -/
def Source {α : Type} [ScalarAlgebra α] (bound : Nat) (f : Dual → α) (σ : Store Scalar) (τ : Store α) :
    Prop :=
  ∀ x w, τ.vars.find? x = some w → x.id < bound ∧ ∃ d, Reads f σ τ (.var x) d

/-- The names in scope are known to both stores, with tangents under their companions. Those that are
    still have zeros for tangents. -/
def Accord {α : Type} [ScalarAlgebra α] (f : Dual → α) (scope still : List Name) (tans : NameTable Name)
    (σ : Store Scalar) (τ : Store α) : Prop :=
  ∀ x ∈ scope, ∃ d, Reads f σ τ (.var x) d ∧
    (∀ c, tans.find? x = some c → σ.vars.find? c = some (d.map Dual.tangent)) ∧
    (x ∈ still → d.Every Dual.Still)

/-- Only names in `bs` were bound by the source, and by the emitted code also names drawn from `m` on and
    below `n`. -/
structure Keeps {α : Type} [ScalarAlgebra α] (bound : Nat) (f : Dual → α) (bs : List Name) (m n : Nat)
    (σ : Store Scalar) (τ : Store α) (σ' : Store Scalar) (τ' : Store α) : Prop where
  left : σ.Agree (fun x => x ∉ bs ∧ (x.id < m ∨ n ≤ x.id)) σ'
  right : τ.Agree (· ∉ bs) τ'
  source : Source bound f σ' τ'

section

variable {α : Type} [ScalarAlgebra α] {f : Dual → α} {bound m n m' n' : Nat}
  {scope scope' still still' bs bs' : List Name} {tans tans' : NameTable Name}
  {σ σ' σ'' : Store Scalar} {τ τ' τ'' : Store α} {x dx : Operand} {d : Value Dual}

/-! Reading. -/

theorem reads_const (view : View f) (σ : Store Scalar) (τ : Store α) (v : Scalar) :
    Reads f σ τ (.const v) (.scalar (.constant v)) :=
  ⟨rfl, by simp [Store.value, Value.map, view.constant]⟩

theorem pairs_const (view : View f) (σ : Store Scalar) (τ : Store α) (v : Scalar) :
    Pairs f σ τ (.const v) (.const (Scalar.zero v.ty)) (.scalar (.constant v)) :=
  ⟨reads_const view σ τ v, rfl⟩

theorem Reads.agree {left right : Name → Prop} (reads : Reads f σ τ x d) (kept : σ.Agree left σ')
    (kept' : τ.Agree right τ') (known : ∀ y ∈ x.names, left y) (known' : ∀ y ∈ x.names, right y) :
    Reads f σ' τ' x d :=
  ⟨(kept.value known).trans reads.primal, (kept'.value known').trans reads.seen⟩

/-- Both stores know the names. -/
def Known (f : Dual → α) (σ : Store Scalar) (τ : Store α) (xs : List Name) : Prop :=
  ∀ x ∈ xs, ∃ d, Reads f σ τ (.var x) d

theorem Accord.known (accord : Accord f scope still tans σ τ) {xs : List Name}
    (sub : ∀ x ∈ xs, x ∈ scope) : Known f σ τ xs := by
  intro x mem
  obtain ⟨d, reads, -⟩ := accord x (sub x mem)
  exact ⟨d, reads⟩

theorem Known.mono {xs ys : List Name} (known : Known f σ τ ys) (sub : ∀ x ∈ xs, x ∈ ys) :
    Known f σ τ xs :=
  fun x mem => known x (sub x mem)

theorem Known.operand (view : View f) (known : Known f σ τ x.names) {v : Value}
    (read : σ.value x = some v) : ∃ d, Reads f σ τ x d ∧ v = d.map Dual.primal := by
  cases x with
  | const c => exact ⟨_, reads_const view σ τ c, Option.some.inj (read.symm.trans rfl)⟩
  | var x =>
    obtain ⟨d, reads⟩ := known x (by simp [Operand.names])
    exact ⟨d, reads, Option.some.inj (read.symm.trans reads.primal)⟩

theorem Known.scalar (view : View f) (known : Known f σ τ x.names) {a : Scalar}
    (read : σ.value x = some (.scalar a)) : ∃ d : Dual, Reads f σ τ x (.scalar d) ∧ a = d.primal := by
  obtain ⟨d, reads, same⟩ := known.operand view read
  obtain ⟨d, rfl, rfl⟩ := Value.map_eq_scalar same.symm
  exact ⟨d, reads, rfl⟩

theorem Reads.scalar {d : Dual} (reads : Reads f σ τ x (.scalar d)) :
    Ends (Run.scalar x) τ (f d) τ :=
  (ends_scalar ..).mpr ⟨reads.seen, rfl⟩

theorem Known.int (view : View f) (known : Known f σ τ x.names) {i : Int}
    (ends : Ends (Run.int x) σ i σ') : σ' = σ ∧ Ends (Run.int x) τ i τ := by
  simp only [Run.int, ends_bind, ends_scalar, ends_lift] at ends ⊢
  obtain ⟨a, _, ⟨read, rfl⟩, isInt, rfl⟩ := ends
  obtain ⟨d, reads, rfl⟩ := known.scalar view read
  exact ⟨rfl, f d, τ, ⟨reads.seen, rfl⟩, view.asInt isInt, rfl⟩

theorem Known.size (view : View f) (known : Known f σ τ x.names) {k : Nat}
    (ends : Ends (Run.size x) σ k σ') : σ' = σ ∧ Ends (Run.size x) τ k τ := by
  simp only [Run.size, ends_bind, ends_lift] at ends ⊢
  obtain ⟨i, _, isInt, sized, rfl⟩ := ends
  obtain ⟨rfl, isInt'⟩ := known.int view isInt
  refine ⟨rfl, i, τ, isInt', ?_, rfl⟩
  unfold asSize at sized ⊢
  split at sized <;> simp_all

/-- A walk that only reads, over things that both stores know. -/
theorem mapM_known {β γ : Type} {names : β → List Name} {g' : β → Run Scalar γ} {g : β → Run α γ}
    (each : ∀ y c σ', Known f σ τ (names y) → Ends (g' y) σ c σ' → σ' = σ ∧ Ends (g y) τ c τ) {ys : List β}
    (known : Known f σ τ (ys.flatMap names)) {cs : List γ} (ends : Ends (ys.mapM g') σ cs σ') :
    σ' = σ ∧ Ends (ys.mapM g) τ cs τ := by
  induction ys generalizing cs σ' with
  | nil =>
    obtain ⟨rfl, rfl⟩ := (ends_pure ..).mp ends
    exact ⟨rfl, (ends_pure ..).mpr ⟨rfl, rfl⟩⟩
  | cons y ys ih =>
    simp only [List.mapM_cons, ends_bind, ends_pure] at ends ⊢
    obtain ⟨c, _, first, cs, _, rest, rfl, rfl⟩ := ends
    obtain ⟨rfl, first'⟩ := each y c _ (known.mono fun z mem => by simp [mem]) first
    obtain ⟨rfl, rest'⟩ := ih (known.mono fun z mem => by
      obtain ⟨b, inYs, inB⟩ := List.mem_flatMap.mp mem
      exact List.mem_flatMap.mpr ⟨b, List.mem_cons_of_mem y inYs, inB⟩) rest
    exact ⟨rfl, c, τ, first', cs, τ, rest', rfl, rfl⟩

theorem Known.scalars (view : View f) {xs : List Operand} (known : Known f σ τ (operandNames xs))
    {as : List Scalar} (ends : Ends (xs.mapM Run.scalar) σ as σ') :
    σ' = σ ∧ ∃ ds : List Dual, as = ds.map Dual.primal ∧ Ends (xs.mapM Run.scalar) τ (ds.map f) τ := by
  induction xs generalizing as σ' with
  | nil =>
    obtain ⟨rfl, rfl⟩ := (ends_pure ..).mp ends
    exact ⟨rfl, [], rfl, (ends_pure ..).mpr ⟨rfl, rfl⟩⟩
  | cons x xs ih =>
    simp only [List.mapM_cons, ends_bind, ends_scalar, ends_pure] at ends ⊢
    obtain ⟨a, _, ⟨read, rfl⟩, as, _, rest, rfl, rfl⟩ := ends
    obtain ⟨d, reads, rfl⟩ := Known.scalar view (known.mono fun y mem => by simp [operandNames, mem]) read
    obtain ⟨rfl, ds, rfl, rest'⟩ := ih (known.mono fun y mem => List.mem_append_right _ mem) rest
    exact ⟨rfl, d :: ds, rfl, f d, τ, ⟨reads.seen, rfl⟩, ds.map f, τ, rest', rfl, rfl⟩

theorem Known.sizes (view : View f) {xs : List Operand} (known : Known f σ τ (operandNames xs))
    {ks : List Nat} (ends : Ends (Run.sizes xs) σ ks σ') : σ' = σ ∧ Ends (Run.sizes xs) τ ks τ :=
  mapM_known (fun _ _ _ known => known.size view) known ends

theorem Known.ints (view : View f) {xs : List Operand} (known : Known f σ τ (operandNames xs))
    {is : List Int} (ends : Ends (xs.mapM Run.int) σ is σ') : σ' = σ ∧ Ends (xs.mapM Run.int) τ is τ :=
  mapM_known (fun _ _ _ known => known.int view) known ends

theorem Known.dims (view : View f) {slice : List DimIndex} (known : Known f σ τ (slice.flatMap DimIndex.names))
    {ds : List Dim} (ends : Ends (Run.dims slice) σ ds σ') : σ' = σ ∧ Ends (Run.dims slice) τ ds τ := by
  refine mapM_known (fun i d σ' known ends => ?_) known ends
  cases i with
  | fix i =>
    simp only [Run.dim, ends_bind, ends_pure] at ends ⊢
    obtain ⟨k, _, isInt, rfl, rfl⟩ := ends
    obtain ⟨rfl, isInt'⟩ := known.int view isInt
    exact ⟨rfl, k, τ, isInt', rfl, rfl⟩
  | slice start len stride =>
    have part {y : Operand} (mem : y ∈ [start, len, stride]) : Known f σ τ y.names :=
      known.mono fun z inY => List.mem_flatMap.mpr ⟨y, mem, inY⟩
    simp only [Run.dim, ends_bind, ends_pure] at ends ⊢
    obtain ⟨a, _, isStart, b, _, isLen, c, _, isStride, rfl, rfl⟩ := ends
    obtain ⟨rfl, isStart'⟩ := (part (by simp)).int view isStart
    obtain ⟨rfl, isLen'⟩ := (part (by simp)).int view isLen
    obtain ⟨rfl, isStride'⟩ := (part (by simp)).int view isStride
    exact ⟨rfl, a, τ, isStart', b, τ, isLen', c, τ, isStride', rfl, rfl⟩

theorem lookups_vars (xs : List Name) : (lookups xs : Run α (List (Value α))) = operands (xs.map .var) := by
  simp only [operands, lookups, List.mapM_map]
  rfl

/-- Values of a list of operands, with tangents. -/
theorem shadows_operands {xs ys : List Operand} {us : List Value} {ds : List (Value Dual)}
    (left : List.Forall₂ (fun y u => σ.value y = some u) ys us)
    (right : List.Forall₂ (fun x d => τ.value x = some (d.map f)) xs ds) {vs : List Value}
    (ends : Ends (Run.operands ys) σ vs σ') :
    σ' = σ ∧ vs = us ∧ Ends (Run.operands xs) τ (ds.map (Value.map f)) τ := by
  obtain ⟨read, rfl⟩ := ends_operands.mp ends
  refine ⟨rfl, ?_, ends_operands.mpr ⟨List.forall₂_map_right_iff.mpr right, rfl⟩⟩
  exact Option.some.inj ((option_mapM_iff.mpr read).symm.trans (option_mapM_iff.mpr left))

/-! Types. -/

/-- The name has a value of its declared type, all that is known before number `n`. -/
def Settled (decl : Name → Ty) (n : Nat) (σ : Store Scalar) (x : Name) : Prop :=
  σ.holdsType decl x = true ∧ ∀ y ∈ x :: (decl x).names, y.id < n

theorem Settled.hasType {decl : Name → Ty} {x : Name} (settled : Settled decl n σ x)
    (reads : Reads f σ τ (.var x) d) : σ.hasType (decl x) (d.map Dual.primal) = true := by
  obtain ⟨v, found, has⟩ := Store.holdsType_iff.mp settled.1
  obtain rfl : v = d.map Dual.primal := Option.some.inj (found.symm.trans reads.primal)
  exact has

theorem Settled.agree {decl : Name → Ty} {x : Name} {on : Name → Prop} (settled : Settled decl m σ x)
    (agree : σ.Agree on σ') (known : ∀ y ∈ x :: (decl x).names, on y) (le : m ≤ n) :
    Settled decl n σ' x := by
  obtain ⟨holds, small⟩ := settled
  obtain ⟨v, found, has⟩ := Store.holdsType_iff.mp holds
  refine ⟨Store.holdsType_iff.mpr ⟨v, (agree x (known x (by simp))).trans found, ?_⟩,
    fun y mem => Nat.lt_of_lt_of_le (small y mem) le⟩
  refine Store.hasType_congr (fun y mem k sized => ?_) has
  rw [Store.extent, agree.value (by simpa [Operand.names] using known y (by simp [mem]))]
  exact sized

/-- What is of its type in the run of the source is so in that of the emitted code. -/
theorem Source.settled (source : Source bound f σ τ) (view : View f) {decl : Name → Ty} {x : Name}
    (holds : τ.holdsType decl x = true) (le : bound ≤ n) : Settled decl n σ x := by
  obtain ⟨v, found, has⟩ := Store.holdsType_iff.mp holds
  obtain ⟨small, d, reads⟩ := source x v found
  obtain rfl : v = d.map f := Option.some.inj (found.symm.trans reads.seen)
  -- The extents that are known on one side are known on the other.
  have sized : ∀ y k, τ.extent (.var y) = some k → y.id < bound ∧ σ.extent (.var y) = some k := by
    intro y k sized
    obtain ⟨w, found, isSize⟩ := Option.bind_eq_some_iff.mp sized
    obtain ⟨small, e, reads⟩ := source y w found
    obtain rfl : w = e.map f := Option.some.inj (found.symm.trans reads.seen)
    refine ⟨small, ?_⟩
    rw [Store.extent, reads.primal, Option.bind_some, ← Value.size?_map view.primal]
    exact isSize
  have names : ∀ y ∈ (decl x).names, y.id < bound := by
    intro y mem
    cases ty : decl x with
    | scalar k => simp [ty, Ty.names] at mem
    | acc token shape elems unique => simp [ty, Store.hasType] at has
    | array k shape unique =>
      rw [ty] at mem has
      obtain ⟨ns, extents, -⟩ := Store.hasType_array.mp has
      obtain ⟨z, inShape, inZ⟩ := List.mem_flatMap.mp mem
      cases z with
      | const c => simp [Operand.names] at inZ
      | var z =>
        obtain rfl : y = z := by simpa [Operand.names] using inZ
        obtain ⟨k', -, sizedZ⟩ := exists_of_forall₂ extents.flip inShape
        exact (sized y k' sizedZ).1
  refine ⟨Store.holdsType_iff.mpr ⟨_, reads.primal, ?_⟩, ?_⟩
  · cases ty : decl x with
    | scalar k =>
      rw [ty] at has
      exact (Value.hasShape_map view.primal k [] d).symm.trans has
    | acc token shape elems unique => simp [ty, Store.hasType] at has
    | array k shape unique =>
      rw [ty] at has
      obtain ⟨ns, extents, shaped⟩ := Store.hasType_array.mp has
      refine Store.hasType_array.mpr ⟨ns, extents.imp fun z k' sizedZ => ?_,
        (Value.hasShape_map view.primal k ns d).symm.trans shaped⟩
      cases z with
      | const c =>
        rw [← sizedZ]
        simp only [Store.extent, Store.value, Option.bind_some, ← view.constant]
        exact (Value.size?_map view.primal (.scalar (.constant c))).symm
      | var z => exact (sized z k' sizedZ).2
  · intro y mem
    rcases List.mem_cons.mp mem with rfl | mem
    · omega
    · have := names y mem
      omega

/-! What is kept. -/

theorem Keeps.refl (source : Source bound f σ τ) : Keeps bound f bs m n σ τ σ τ :=
  ⟨.refl _ σ, .refl _ τ, source⟩

theorem Keeps.trans (first : Keeps bound f bs m n σ τ σ' τ') (second : Keeps bound f bs m n σ' τ' σ'' τ'') :
    Keeps bound f bs m n σ τ σ'' τ'' :=
  ⟨first.left.trans second.left, first.right.trans second.right, second.source⟩

theorem Keeps.mono (keeps : Keeps bound f bs m n σ τ σ' τ') (sub : ∀ x ∈ bs, x ∈ bs') (le : m' ≤ m)
    (le' : n ≤ n') : Keeps bound f bs' m' n' σ τ σ' τ' where
  left := keeps.left.mono fun x known => ⟨fun mem => known.1 (sub x mem), by omega⟩
  right := keeps.right.mono fun x known mem => known (sub x mem)
  source := keeps.source

/-- Fewer companions and fewer names are asked for. -/
theorem Accord.sub (accord : Accord f scope still tans σ τ) (less : ∀ x ∈ scope', x ∈ scope)
    (fewer : ∀ x ∈ scope', ∀ c, tans'.find? x = some c → tans.find? x = some c)
    (calm : ∀ x ∈ scope', x ∈ still' → x ∈ still) : Accord f scope' still' tans' σ τ := by
  intro x mem
  obtain ⟨d, reads, tangent, quiet⟩ := accord x (less x mem)
  exact ⟨d, reads, fun c found => tangent c (fewer x mem c found), fun isStill => quiet (calm x mem isStill)⟩

theorem Accord.agree {left right : Name → Prop} (accord : Accord f scope still tans σ τ)
    (kept : σ.Agree left σ') (kept' : τ.Agree right τ') (known : ∀ x ∈ scope, left x)
    (known' : ∀ x ∈ scope, right x) (drawn : ∀ x ∈ scope, ∀ c, tans.find? x = some c → left c) :
    Accord f scope still tans σ' τ' := by
  intro x mem
  obtain ⟨d, reads, tangent, quiet⟩ := accord x mem
  refine ⟨d, reads.agree kept kept' (by simpa [Operand.names] using known x mem)
    (by simpa [Operand.names] using known' x mem), fun c found => ?_, quiet⟩
  exact (kept c (drawn x mem c found)).trans (tangent c found)

theorem Accord.keeps (accord : Accord f scope still tans σ τ) (keeps : Keeps bound f bs m n σ τ σ' τ')
    (le : bound ≤ m) (small : ∀ x ∈ scope, x.id < bound ∧ x ∉ bs) (binders : ∀ x ∈ bs, x.id < bound)
    (drawn : ∀ x ∈ scope, ∀ c, tans.find? x = some c → bound ≤ c.id ∧ (c.id < m ∨ n ≤ c.id)) :
    Accord f scope still tans σ' τ' := by
  refine accord.agree keeps.left keeps.right (fun x mem => ?_) (fun x mem => (small x mem).2)
    fun x mem c found => ?_
  · have := small x mem
    exact ⟨this.2, .inl (by omega)⟩
  · obtain ⟨large, apart⟩ := drawn x mem c found
    refine ⟨fun inBs => ?_, apart⟩
    have := binders c inBs
    omega

end

end Tandem

end Cotangent
