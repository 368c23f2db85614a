import Cotangent.Proofs.Regions.Runs
import Cotangent.Proofs.Tandem.Asks
import Cotangent.Proofs.Tandem.Formulas
/-!
Operations and their tangents. At one pair of stores, an operation on the primal parts and its tangent come
to the two parts of one dual value, and the operation on what is seen of the operands comes to what is seen
of that value.
-/
namespace Cotangent

open Run ScalarAlgebra Diff

namespace Tandem

/-- The second operation computes the tangent of the first by doing the same to tangents. -/
inductive Copied (tans : NameTable Name) : BasicOp → BasicOp → Prop
  | operand {x dx : Operand} (here : Tangent tans x dx) : Copied tans (.operand x) (.operand dx)
  | arrayLit {xs dxs : List Operand} (each : List.Forall₂ (Tangent tans) xs dxs) (ty : Ty) :
      Copied tans (.arrayLit xs ty) (.arrayLit dxs ty)
  | convert (op : Conversion) {x dx : Operand} (here : Tangent tans x dx) :
      Copied tans (.convert op x) (.convert op dx)
  | index {a c : Name} (found : tans.find? a = some c) (slice : List DimIndex) :
      Copied tans (.index a slice) (.index c slice)
  | update {a c : Name} (found : tans.find? a = some c) (slice : List DimIndex) {x dx : Operand}
      (here : Tangent tans x dx) : Copied tans (.update a slice x) (.update c slice dx)
  | concat (dim : Nat) {a c : Name} (found : tans.find? a = some c) {rest cs : List Name}
      (others : List.Forall₂ (fun x c => tans.find? x = some c) rest cs) (width : Operand) :
      Copied tans (.concat dim a rest width) (.concat dim c cs width)
  | copy {a c : Name} (found : tans.find? a = some c) : Copied tans (.copy a) (.copy c)
  | manifest (perm : List Nat) {a c : Name} (found : tans.find? a = some c) :
      Copied tans (.manifest perm a) (.manifest perm c)
  | reshape (shape : List Operand) {a c : Name} (found : tans.find? a = some c) :
      Copied tans (.reshape shape a) (.reshape shape c)
  | rearrange (perm : List Nat) {a c : Name} (found : tans.find? a = some c) :
      Copied tans (.rearrange perm a) (.rearrange perm c)
  | rotate (offsets : List Operand) {a c : Name} (found : tans.find? a = some c) :
      Copied tans (.rotate offsets a) (.rotate offsets c)
  | iota (count start step : Operand) (w : IntWidth) :
      Copied tans (.iota count start step w) (.replicate [count] (.const (.int w 0)))
  | replicate (shape : List Operand) {x dx : Operand} (here : Tangent tans x dx) :
      Copied tans (.replicate shape x) (.replicate shape dx)

/-- The action emits what computes the tangent of the operation. -/
inductive Derived (rules : Rules) (tans : NameTable Name) : BasicOp → Build Exp → Prop
  | copied {op op' : BasicOp} (copied : Copied tans op op') : Derived rules tans op (pure (.basic op'))
  | unary (op : UnaryOp) {x dx : Operand} (here : Tangent tans x dx) :
      Derived rules tans (.unary op x) (Build.expOf
        ((Formula.ofOperand op.ty dx).mul (rules.unary op (Formula.ofOperand op.ty x))))
  | binary (op : BinaryOp) {x dx y dy : Operand} (left : Tangent tans x dx) (right : Tangent tans y dy) :
      Derived rules tans (.binary op x y) (Build.expOf
        (((Formula.ofOperand op.ty dx).mul
            (rules.binary op (Formula.ofOperand op.ty x) (Formula.ofOperand op.ty y)).1).add
          ((Formula.ofOperand op.ty dy).mul
            (rules.binary op (Formula.ofOperand op.ty x) (Formula.ofOperand op.ty y)).2)))

section

variable {α : Type} [ScalarAlgebra α] {f : Dual → α} {bound : Nat} {decl : Name → Ty}
  {scope still bs names : List Name} {s t u : DiffState} {σ σ' : Store Scalar} {τ : Store α}
  {tans : NameTable Name} {rules : Rules} {op op' : BasicOp} {v v' : Value}

/-! Operations without a tangent of their own. -/

theorem Known.bool (view : View f) {x : Operand} (known : Known f σ τ x.names) {a : Scalar} {b : Bool}
    (read : σ.value x = some (.scalar a)) (isBool : (asBool a : Except Fault Bool) = .ok b) :
    ∃ d : Dual, τ.value x = some (.scalar (f d)) ∧ (asBool (f d) : Except (Fault α) Bool) = .ok b := by
  obtain ⟨d, reads, rfl⟩ := known.scalar view read
  exact ⟨d, reads.seen, view.asBool isBool⟩

theorem basicOp_still (view : View f) (constant : Forward.isConstant op = true)
    (known : Known f σ τ op.names) {run : Body → Run Scalar (List Value)}
    (applied : Ends (basicOp run op) σ v σ') (run' : Body → Run α (List (Value α))) :
    σ' = σ ∧ ∃ d : Value Dual, v = d.map Dual.primal ∧ d.Every Dual.Still ∧
      Ends (basicOp run' op) τ (d.map f) τ := by
  cases op with
  | compare op x y =>
    simp only [BasicOp.names, operandNames, List.flatMap_cons, List.flatMap_nil, List.append_nil] at known
    simp only [basicOp, ends_bind, ends_scalar, ends_lift, ends_pure] at applied ⊢
    obtain ⟨m, _, ⟨readX, rfl⟩, n, _, ⟨readY, rfl⟩, b, _, ⟨result, rfl⟩, rfl, rfl⟩ := applied
    obtain ⟨d, hereX, rfl⟩ := (known.mono (by simp +contextual)).scalar view readX
    obtain ⟨e, hereY, rfl⟩ := (known.mono (by simp +contextual)).scalar view readY
    refine ⟨rfl, .scalar (.constant (.bool b)), rfl, Dual.still_constant _, ?_⟩
    exact ⟨f d, τ, ⟨hereX.seen, rfl⟩, f e, τ, ⟨hereY.seen, rfl⟩, b, τ,
      ⟨view.compare op d e b result, rfl⟩, by rw [Value.map, view.constant], rfl⟩
  | assert cond msg =>
    simp only [basicOp, ends_bind, ends_scalar, ends_lift] at applied ⊢
    obtain ⟨m, _, ⟨read, rfl⟩, b, _, ⟨isBool, rfl⟩, rest⟩ := applied
    obtain ⟨d, here, isBool'⟩ := Known.bool view known read isBool
    cases b with
    | false => simp at rest
    | true =>
      obtain ⟨rfl, rfl⟩ := (ends_pure ..).mp rest
      refine ⟨rfl, .scalar (.constant .cert), rfl, Dual.still_constant _, ?_⟩
      refine ⟨f d, τ, ⟨here, rfl⟩, true, τ, ⟨isBool', rfl⟩, (ends_pure ..).mpr ⟨?_, rfl⟩⟩
      rw [Value.map, view.constant]
  | scratch elem shape =>
    simp only [basicOp, ends_bind, ends_pure] at applied ⊢
    obtain ⟨ns, _, sized, rfl, rfl⟩ := applied
    obtain ⟨rfl, sized'⟩ := Known.sizes view known sized
    refine ⟨rfl, Value.replicate ns (.scalar (.constant (Scalar.zero elem))), ?_, ?_, ns, τ, sized', ?_, rfl⟩
    · exact Value.replicate_map Dual.primal ns (.scalar (.constant (Scalar.zero elem)))
    · exact Value.every_replicate ns (Dual.still_constant _)
    · rw [← Value.replicate_map, Value.map, view.constant]
  | _ => cases constant

/-! Operations that are copied. -/

omit [ScalarAlgebra α] in
/-- A step on dual values that ends for both of their parts ends for whatever is seen of them. -/
theorem carry_splits {k : Except (Fault Dual) (Value Dual)}
    (left : carry Dual.primal (Value.map Dual.primal) k = .ok v)
    (right : carry Dual.tangent (Value.map Dual.tangent) k = .ok v') :
    ∃ e : Value Dual, v = e.map Dual.primal ∧ v' = e.map Dual.tangent ∧ carry f (Value.map f) k = .ok (e.map f) := by
  obtain ⟨e, rfl, rfl⟩ := (carry_eq_ok ..).mp left
  exact ⟨e, rfl, (Except.ok.inj right).symm, rfl⟩

omit [ScalarAlgebra α] in
/-- Sizes, positions and the like are read again by the tangent operation. -/
theorem Known.again {β : Type} {m : Run Scalar β} {m' : Run α β}
    (known : ∀ c σ', Ends m σ c σ' → σ' = σ ∧ Ends m' τ c τ) {c c' : β} {σ'' : Store Scalar}
    (first : Ends m σ c σ') (second : Ends m σ c' σ'') : σ' = σ ∧ σ'' = σ ∧ c' = c ∧ Ends m' τ c τ := by
  obtain ⟨rfl, rfl⟩ := ends_unique first second
  obtain ⟨rfl, ends⟩ := known c σ' first
  exact ⟨rfl, rfl, rfl, ends⟩

theorem Accord.array (accord : Accord f scope still tans σ τ) {a c : Name} (known : a ∈ scope)
    (found : tans.find? a = some c) : ∃ d, Pairs f σ τ (.var a) (.var c) d := by
  obtain ⟨d, reads, tangent, -⟩ := accord a known
  exact ⟨d, reads, tangent c found⟩

theorem Scalar.number_zero (t : ScalarType) : (Scalar.zero t).number = 0 := by
  cases t <;> rfl

/-- Counting by constants does not move. -/
theorem member_still (w : IntWidth) (first step : Scalar) (i : Nat) :
    ScalarAlgebra.member w (Dual.constant first) (Dual.constant step) i =
      ⟨ScalarAlgebra.member w first step i, .int w 0⟩ := by
  simp [ScalarAlgebra.member, Dual.constant, Scalar.number_zero, IntWidth.wrap]

theorem Traces.member {count start step : Operand} {w : IntWidth}
    (traces : Traces rules f (BasicOp.iota count start step w).Exact) {a b : Dual}
    (first : Reads f σ τ start (.scalar a)) (second : Reads f σ τ step (.scalar b)) (view : View f) (i : Nat) :
    ScalarAlgebra.member w (f a) (f b) i = f ⟨ScalarAlgebra.member w a.primal b.primal i, .int w 0⟩ := by
  rcases traces with plain | ⟨whole, noStart, noStep⟩
  · exact plain.member w a b i _
  · have constant {x : Operand} {a : Dual} (none : x.names = []) (reads : Reads f σ τ x (.scalar a)) :
        f a = f (.constant a.primal) := by
      cases x with
      | var x => cases none
      | const v =>
        obtain rfl : v = a.primal := Value.scalar.inj (Option.some.inj reads.primal)
        rw [view.constant]
        exact (Value.scalar.inj (Option.some.inj reads.seen)).symm
    rw [constant noStart first, constant noStep second, whole.member, member_still]

/-- The values are the two parts of a dual one, and the operation comes to what is seen of it. -/
def Splits (f : Dual → α) (run : Body → Run α (List (Value α))) (op : BasicOp) (τ : Store α) (v v' : Value) :
    Prop :=
  ∃ d : Value Dual, v = d.map Dual.primal ∧ v' = d.map Dual.tangent ∧ Ends (basicOp run op) τ (d.map f) τ

variable {run run'' : Body → Run Scalar (List Value)} {σ'' : Store Scalar}

theorem Pairs.parts {x dx : Operand} {d : Value Dual} (pair : Pairs f σ τ x dx d)
    (read : σ.value x = some v) (read' : σ.value dx = some v') :
    v = d.map Dual.primal ∧ v' = d.map Dual.tangent :=
  ⟨Option.some.inj (read.symm.trans pair.primal), Option.some.inj (read'.symm.trans pair.tangent)⟩

theorem AllPairs.parts {xs dxs : List Operand} {ds : List (Value Dual)} (pairs : AllPairs f σ τ xs dxs ds)
    {vs vs' : List Value} (read : List.Forall₂ (fun x v => σ.value x = some v) xs vs)
    (read' : List.Forall₂ (fun x v => σ.value x = some v) dxs vs') :
    vs = Cotangent.primals ds ∧ vs' = Cotangent.changes ds :=
  ⟨Option.some.inj ((option_mapM_iff.mpr read).symm.trans (option_mapM_iff.mpr pairs.primals)),
    Option.some.inj ((option_mapM_iff.mpr read').symm.trans (option_mapM_iff.mpr pairs.changes))⟩

theorem AllPairs.ends_seen {xs dxs : List Operand} {ds : List (Value Dual)}
    (pairs : AllPairs f σ τ xs dxs ds) : Ends (operands xs) τ (ds.map (Value.map f)) τ :=
  ends_operands.mpr ⟨List.forall₂_map_right_iff.mpr pairs.seen, rfl⟩

theorem Pairs.scalar {x dx : Operand} {d : Value Dual} (pair : Pairs f σ τ x dx d) {a : Scalar}
    (read : σ.value x = some (.scalar a)) :
    ∃ e : Dual, d = .scalar e ∧ a = e.primal ∧ τ.value x = some (.scalar (f e)) ∧
      σ.value dx = some (.scalar e.tangent) := by
  obtain ⟨e, rfl, rfl⟩ := Value.map_eq_scalar (Option.some.inj (pair.primal.symm.trans read))
  exact ⟨e, rfl, rfl, pair.seen, pair.tangent⟩

/-- The array is read on both sides. -/
theorem Accord.looked_up (accord : Accord f scope still tans σ τ) {a c : Name} (known : a ∈ scope)
    (found : tans.find? a = some c) (applied : Ends (lookup a) σ v σ') (applied' : Ends (lookup c) σ v' σ'') :
    σ' = σ ∧ σ'' = σ ∧ ∃ d : Value Dual, v = d.map Dual.primal ∧ v' = d.map Dual.tangent ∧
      Ends (lookup a) τ (d.map f) τ := by
  obtain ⟨read, rfl⟩ := (ends_lookup a v σ σ').mp applied
  obtain ⟨read', rfl⟩ := (ends_lookup c v' σ σ'').mp applied'
  obtain ⟨d, pair⟩ := accord.array known found
  obtain ⟨rfl, rfl⟩ := pair.parts read read'
  exact ⟨rfl, rfl, d, rfl, rfl, (ends_lookup ..).mpr ⟨pair.seen, rfl⟩⟩

/-- The tangents of numbers that are counted off are as many zeros. -/
theorem iota_follows {count start step : Operand} {w : IntWidth} (view : View f)
    (traces : Traces rules f (BasicOp.iota count start step w).Exact)
    (known : Known f σ τ (BasicOp.iota count start step w).names)
    (applied : Ends (basicOp run (.iota count start step w)) σ v σ')
    (applied' : Ends (basicOp run'' (.replicate [count] (.const (.int w 0)))) σ v' σ'')
    (run' : Body → Run α (List (Value α))) :
    σ' = σ ∧ σ'' = σ ∧ Splits f run' (.iota count start step w) τ v v' := by
  have part {z : Operand} (mem : z ∈ [count, start, step]) : Known f σ τ z.names :=
    known.mono fun q inZ => List.mem_flatMap.mpr ⟨z, mem, inZ⟩
  simp only [basicOp, ends_bind, ends_number, ends_pure] at applied
  obtain ⟨n, _, counted, a, _, ⟨first, ⟨_, firstInt⟩, rfl⟩, b, _, ⟨second, ⟨_, secondInt⟩, rfl⟩, rfl, rfl⟩ := applied
  simp only [basicOp, ends_bind, ends_operand, ends_pure, sizes, size, List.mapM_cons, List.mapM_nil,
    ends_lift] at applied'
  obtain ⟨_, _, ⟨k, _, ⟨n', _, again, sized, rfl⟩, _, _, ⟨rfl, rfl⟩, rfl, rfl⟩, z, _, ⟨zero, rfl⟩, rfl, rfl⟩ :=
    applied'
  obtain ⟨rfl, rfl⟩ := ends_unique again counted
  obtain ⟨rfl, counted'⟩ := (part (by simp)).int view counted
  obtain ⟨a, hereA, rfl⟩ := (part (by simp)).scalar view first
  obtain ⟨b, hereB, rfl⟩ := (part (by simp)).scalar view second
  obtain rfl : .scalar (.int w 0) = z := Option.some.inj zero
  obtain rfl : k = n'.toNat := by
    unfold asSize at sized
    split at sized
    · cases sized
    · exact (Except.ok.inj sized).symm
  let counting (i : Nat) : Dual := ⟨ScalarAlgebra.member w a.primal b.primal i, .int w 0⟩
  refine ⟨rfl, rfl, .array ((List.range n'.toNat).map fun i => .scalar (counting i)), ?_, ?_, ?_⟩
  · simp [Value.map, counting]
  · simp only [Value.replicate, Value.map, mapRows_eq, List.map_map]
    exact congrArg Value.array (List.eq_replicate_iff.mpr ⟨by simp, by simp [Value.map, counting]⟩).symm
  · simp only [basicOp, ends_bind, ends_number, ends_pure]
    refine ⟨n', τ, counted', f a, τ, ⟨hereA.seen, ?_, rfl⟩, f b, τ, ⟨hereB.seen, ?_, rfl⟩, ?_, rfl⟩
    · exact ⟨_, view.asInt firstInt⟩
    · exact ⟨_, view.asInt secondInt⟩
    · simp [Value.map, counting, traces.member hereA hereB view]

theorem Copied.follows (copied : Copied tans op op') (view : View f) (traces : Traces rules f op.Exact)
    (accord : Accord f scope still tans σ τ) (known : ∀ y ∈ op.names, y ∈ scope)
    (applied : Ends (basicOp run op) σ v σ') (applied' : Ends (basicOp run'' op') σ v' σ'')
    (run' : Body → Run α (List (Value α))) : σ' = σ ∧ σ'' = σ ∧ Splits f run' op τ v v' := by
  cases copied with
  | @operand x dx here =>
    obtain ⟨read, rfl⟩ := (ends_operand x v σ σ').mp applied
    obtain ⟨read', rfl⟩ := (ends_operand dx v' σ σ'').mp applied'
    obtain ⟨d, pair⟩ := accord.pairs view known here
    obtain ⟨rfl, rfl⟩ := pair.parts read read'
    exact ⟨rfl, rfl, d, rfl, rfl, (ends_operand ..).mpr ⟨pair.seen, rfl⟩⟩
  | @arrayLit xs dxs each ty =>
    simp only [basicOp, ends_bind, ends_pure, ends_operands] at applied applied'
    obtain ⟨vs, _, ⟨read, rfl⟩, rfl, rfl⟩ := applied
    obtain ⟨vs', _, ⟨read', rfl⟩, rfl, rfl⟩ := applied'
    obtain ⟨ds, pairs⟩ := accord.allPairs view known each
    obtain ⟨rfl, rfl⟩ := pairs.parts read read'
    refine ⟨rfl, rfl, .array ds, by simp [Value.map], by simp [Value.map], ?_⟩
    simp only [basicOp, ends_bind, ends_pure]
    exact ⟨ds.map (Value.map f), τ, pairs.ends_seen, by simp [Value.map], rfl⟩
  | @convert op x dx here =>
    simp only [basicOp, ends_bind, ends_scalar, ends_lift, ends_pure] at applied applied'
    obtain ⟨a, _, ⟨read, rfl⟩, r, _, ⟨result, rfl⟩, rfl, rfl⟩ := applied
    obtain ⟨b, _, ⟨read', rfl⟩, r', _, ⟨result', rfl⟩, rfl, rfl⟩ := applied'
    obtain ⟨d, pair⟩ := accord.pairs view known here
    obtain ⟨e, rfl, rfl, seen, tangent⟩ := pair.scalar read
    obtain rfl := Value.scalar.inj (Option.some.inj (read'.symm.trans tangent))
    refine ⟨rfl, rfl, .scalar ⟨r, r'⟩, rfl, rfl, ?_⟩
    simp only [basicOp, ends_bind, ends_scalar, ends_lift, ends_pure]
    exact ⟨f e, τ, ⟨seen, rfl⟩, f ⟨r, r'⟩, τ, ⟨view.convert op e r r' result result', rfl⟩, rfl, rfl⟩
  | @index a c found slice =>
    simp only [BasicOp.names, List.forall_mem_cons] at known
    simp only [basicOp, ends_bind, ends_lookup, ends_lift] at applied applied'
    obtain ⟨va, _, ⟨read, rfl⟩, ds, _, sliced, indexed, rfl⟩ := applied
    obtain ⟨va', _, ⟨read', rfl⟩, ds', _, sliced', indexed', rfl⟩ := applied'
    obtain ⟨rfl, rfl, rfl, sliced⟩ := Known.again (fun c σ' => Known.dims view (accord.known known.2)) sliced sliced'
    obtain ⟨d, pair⟩ := accord.array known.1 found
    obtain ⟨rfl, rfl⟩ := pair.parts read read'
    rw [Value.index_map] at indexed indexed'
    obtain ⟨e, rfl, rfl, made⟩ := carry_splits (f := f) indexed indexed'
    refine ⟨rfl, rfl, e, rfl, rfl, ?_⟩
    simp only [basicOp, ends_bind, ends_lookup, ends_lift]
    exact ⟨_, τ, ⟨pair.seen, rfl⟩, ds', τ, sliced, (Value.index_map ..).trans made, rfl⟩
  | @update a c found slice x dx here =>
    simp only [BasicOp.names, List.forall_mem_cons, List.forall_mem_append] at known
    simp only [basicOp, ends_bind, ends_lookup, ends_operand, ends_lift] at applied applied'
    obtain ⟨va, _, ⟨read, rfl⟩, ds, _, sliced, vx, _, ⟨readX, rfl⟩, updated, rfl⟩ := applied
    obtain ⟨va', _, ⟨read', rfl⟩, ds', _, sliced', vx', _, ⟨readX', rfl⟩, updated', rfl⟩ := applied'
    obtain ⟨rfl, rfl, rfl, sliced⟩ :=
      Known.again (fun c σ' => Known.dims view (accord.known known.2.1)) sliced sliced'
    obtain ⟨d, pair⟩ := accord.array known.1 found
    obtain ⟨dx, pairX⟩ := accord.pairs view known.2.2 here
    obtain ⟨rfl, rfl⟩ := pair.parts read read'
    obtain ⟨rfl, rfl⟩ := pairX.parts readX readX'
    rw [Value.update_map] at updated updated'
    obtain ⟨e, rfl, rfl, made⟩ := carry_splits (f := f) updated updated'
    refine ⟨rfl, rfl, e, rfl, rfl, ?_⟩
    simp only [basicOp, ends_bind, ends_lookup, ends_operand, ends_lift]
    exact ⟨_, τ, ⟨pair.seen, rfl⟩, ds', τ, sliced, _, τ, ⟨pairX.seen, rfl⟩, (Value.update_map ..).trans made, rfl⟩
  | @concat dim a c found rest cs others width =>
    simp only [BasicOp.names, List.forall_mem_append] at known
    simp only [basicOp, ends_bind, ends_lift] at applied applied'
    obtain ⟨vs, _, read, joined, rfl⟩ := applied
    obtain ⟨vs', _, read', joined', rfl⟩ := applied'
    simp only [lookups_vars, ends_operands] at read read'
    obtain ⟨read, rfl⟩ := read
    obtain ⟨read', rfl⟩ := read'
    have inScope : ∀ y ∈ operandNames ((a :: rest).map .var), y ∈ scope := by
      rw [operandNames_vars]
      exact known.1
    obtain ⟨ds, pairs⟩ := accord.allPairs view inScope (tangents_vars (.cons found others))
    obtain ⟨rfl, rfl⟩ := pairs.parts read read'
    rw [Value.concat_map] at joined joined'
    obtain ⟨e, rfl, rfl, made⟩ := carry_splits (f := f) joined joined'
    refine ⟨rfl, rfl, e, rfl, rfl, ?_⟩
    simp only [basicOp, ends_bind, ends_lift, lookups_vars]
    exact ⟨ds.map (Value.map f), τ, pairs.ends_seen, (Value.concat_map ..).trans made, rfl⟩
  | @copy a c found => exact accord.looked_up (known a (by simp [BasicOp.names])) found applied applied'
  | @manifest perm a c found => exact accord.looked_up (known a (by simp [BasicOp.names])) found applied applied'
  | @reshape shape a c found =>
    simp only [BasicOp.names, List.forall_mem_append, List.forall_mem_singleton] at known
    simp only [basicOp, ends_bind, ends_lookup, ends_lift] at applied applied'
    obtain ⟨va, _, ⟨read, rfl⟩, ns, _, sized, reshaped, rfl⟩ := applied
    obtain ⟨va', _, ⟨read', rfl⟩, ns', _, sized', reshaped', rfl⟩ := applied'
    obtain ⟨rfl, rfl, rfl, sized⟩ :=
      Known.again (fun c σ' => Known.sizes view (accord.known known.1)) sized sized'
    obtain ⟨d, pair⟩ := accord.array known.2 found
    obtain ⟨rfl, rfl⟩ := pair.parts read read'
    rw [Value.reshape_map] at reshaped reshaped'
    obtain ⟨e, rfl, rfl, made⟩ := carry_splits (f := f) reshaped reshaped'
    refine ⟨rfl, rfl, e, rfl, rfl, ?_⟩
    simp only [basicOp, ends_bind, ends_lookup, ends_lift]
    exact ⟨_, τ, ⟨pair.seen, rfl⟩, ns', τ, sized, (Value.reshape_map ..).trans made, rfl⟩
  | @rearrange perm a c found =>
    simp only [basicOp, ends_bind, ends_lookup, ends_lift] at applied applied'
    obtain ⟨va, _, ⟨read, rfl⟩, rearranged, rfl⟩ := applied
    obtain ⟨va', _, ⟨read', rfl⟩, rearranged', rfl⟩ := applied'
    obtain ⟨d, pair⟩ := accord.array (known a (by simp [BasicOp.names])) found
    obtain ⟨rfl, rfl⟩ := pair.parts read read'
    rw [Value.rearrange_map] at rearranged rearranged'
    obtain ⟨e, rfl, rfl, made⟩ := carry_splits (f := f) rearranged rearranged'
    refine ⟨rfl, rfl, e, rfl, rfl, ?_⟩
    simp only [basicOp, ends_bind, ends_lookup, ends_lift]
    exact ⟨_, τ, ⟨pair.seen, rfl⟩, (Value.rearrange_map ..).trans made, rfl⟩
  | @rotate offsets a c found =>
    simp only [BasicOp.names, List.forall_mem_append, List.forall_mem_singleton] at known
    simp only [basicOp, ends_bind, ends_lookup, ends_lift] at applied applied'
    obtain ⟨ns, _, turned, va, _, ⟨read, rfl⟩, rotated, rfl⟩ := applied
    obtain ⟨ns', _, turned', va', _, ⟨read', rfl⟩, rotated', rfl⟩ := applied'
    obtain ⟨rfl, rfl, rfl, turned⟩ :=
      Known.again (fun c σ' => Known.ints view (accord.known known.1)) turned turned'
    obtain ⟨d, pair⟩ := accord.array known.2 found
    obtain ⟨rfl, rfl⟩ := pair.parts read read'
    rw [Value.rotate_map] at rotated rotated'
    obtain ⟨e, rfl, rfl, made⟩ := carry_splits (f := f) rotated rotated'
    refine ⟨rfl, rfl, e, rfl, rfl, ?_⟩
    simp only [basicOp, ends_bind, ends_lookup, ends_lift]
    exact ⟨ns', τ, turned, _, τ, ⟨pair.seen, rfl⟩, (Value.rotate_map ..).trans made, rfl⟩
  | iota count start step w => exact iota_follows view traces (accord.known known) applied applied' run'
  | @replicate shape x dx here =>
    simp only [BasicOp.names, List.forall_mem_append] at known
    simp only [basicOp, ends_bind, ends_operand, ends_pure] at applied applied'
    obtain ⟨ns, _, sized, vx, _, ⟨read, rfl⟩, rfl, rfl⟩ := applied
    obtain ⟨ns', _, sized', vx', _, ⟨read', rfl⟩, rfl, rfl⟩ := applied'
    obtain ⟨rfl, rfl, rfl, sized⟩ :=
      Known.again (fun c σ' => Known.sizes view (accord.known known.1)) sized sized'
    obtain ⟨d, pair⟩ := accord.pairs view known.2 here
    obtain ⟨rfl, rfl⟩ := pair.parts read read'
    refine ⟨rfl, rfl, Value.replicate ns' d, Value.replicate_map .., Value.replicate_map .., ?_⟩
    simp only [basicOp, ends_bind, ends_operand, ends_pure]
    exact ⟨ns', τ, sized, _, τ, ⟨pair.seen, rfl⟩, Value.replicate_map .., rfl⟩

/-! Operations with a rule. -/

/-- The names of an operand were drawn before, and stand for scalars. -/
def Supplied (n : Nat) (σ : Store Scalar) (xs : List Name) : Prop :=
  ∀ z ∈ xs, z.id < n ∧ ∃ a, σ.vars.find? z = some (.scalar a)

theorem supplied_of_scalar {n : Nat} {x : Operand} {a : Scalar} (read : σ.value x = some (.scalar a))
    (small : ∀ z ∈ x.names, z.id < n) : Supplied n σ x.names := by
  cases x with
  | const v => simp [Supplied, Operand.names]
  | var x =>
    refine fun z mem => ⟨small z mem, ?_⟩
    obtain rfl : z = x := by simpa [Operand.names] using mem
    exact ⟨a, read⟩

theorem Tangent.fits {k : ScalarType} {x dx : Operand} (tangent : Tangent tans x dx) (fits : x.Fits k) :
    dx.Fits k := by
  cases tangent with
  | const v => exact (Scalar.ty_zero v.ty).trans fits
  | var found => trivial

theorem Traces.unary {op : UnaryOp} {x dx : Operand} (traces : Traces rules f (BasicOp.unary op x).Exact)
    (here : Tangent tans x dx) {a : Dual} {n : Nat} {r t : Scalar}
    (read : σ.value x = some (.scalar a.primal)) (read' : σ.value dx = some (.scalar a.tangent))
    (small : ∀ z ∈ x.names ++ dx.names, z.id < n) (applied : op.apply a.primal = .ok r)
    (came : Supplied n σ
        ((Formula.ofOperand op.ty dx).mul (rules.unary op (Formula.ofOperand op.ty x))).names →
      ((Formula.ofOperand op.ty dx).mul (rules.unary op (Formula.ofOperand op.ty x))).eval σ.reading = some t) :
    ScalarAlgebra.unary op (f a) = .ok (f ⟨r, t⟩) := by
  rcases traces with plain | ⟨whole, fits⟩
  · exact plain.unary op a r t applied
  · obtain rfl := whole.standard
    have fits : x.Fits op.ty := fits
    obtain ⟨smallX, smallDx⟩ := List.forall_mem_append.mp small
    have supplied := came fun z mem => by
      rw [names_mul, List.mem_append, names_ofOperand] at mem
      rcases mem with mem | mem
      · exact supplied_of_scalar read' smallDx z mem
      · have inX := local_standard.unary op _ z mem
        rw [names_ofOperand] at inX
        exact supplied_of_scalar read smallX z inX
    exact whole.unary op a r t applied (Dual.unaryTangent_of_eval ⟨fits.ty, (here.fits fits).ty⟩
      (eval_ofOperand read) (eval_ofOperand read') supplied)

theorem Traces.binary {op : BinaryOp} {x dx y dy : Operand}
    (traces : Traces rules f (BasicOp.binary op x y).Exact) (left : Tangent tans x dx)
    (right : Tangent tans y dy) {a b : Dual} {n : Nat} {r t : Scalar}
    (readX : σ.value x = some (.scalar a.primal)) (readX' : σ.value dx = some (.scalar a.tangent))
    (readY : σ.value y = some (.scalar b.primal)) (readY' : σ.value dy = some (.scalar b.tangent))
    (small : ∀ z ∈ (x.names ++ dx.names) ++ (y.names ++ dy.names), z.id < n)
    (applied : op.apply a.primal b.primal = .ok r)
    (came : let partials := rules.binary op (Formula.ofOperand op.ty x) (Formula.ofOperand op.ty y)
      let tangent := ((Formula.ofOperand op.ty dx).mul partials.1).add ((Formula.ofOperand op.ty dy).mul partials.2)
      Supplied n σ tangent.names → tangent.eval σ.reading = some t) :
    ScalarAlgebra.binary op (f a) (f b) = .ok (f ⟨r, t⟩) := by
  rcases traces with plain | ⟨whole, fits⟩
  · exact plain.binary op a b r t applied
  · obtain rfl := whole.standard
    have fits : x.Fits op.ty ∧ y.Fits op.ty := fits
    simp only [List.forall_mem_append] at small
    obtain ⟨⟨smallX, smallDx⟩, smallY, smallDy⟩ := small
    have supplied := came fun z mem => by
      have partials := local_standard.binary op (Formula.ofOperand op.ty x) (Formula.ofOperand op.ty y) z
      simp only [List.mem_append, names_ofOperand] at partials
      simp only [Formula.add, Formula.names, names_mul, List.mem_append, names_ofOperand] at mem
      have inside : z ∈ x.names ∨ z ∈ y.names → z.id < n ∧ ∃ a, σ.vars.find? z = some (.scalar a) :=
        Or.rec (supplied_of_scalar readX smallX z) (supplied_of_scalar readY smallY z)
      rcases mem with (mem | mem) | mem | mem
      · exact supplied_of_scalar readX' smallDx z mem
      · exact inside (partials (.inl mem))
      · exact supplied_of_scalar readY' smallDy z mem
      · exact inside (partials (.inr mem))
    exact whole.binary op a b r t applied (Dual.binaryTangent_of_eval
      ⟨fits.1.ty, fits.2.ty, (left.fits fits.1).ty, (right.fits fits.2).ty⟩
      ⟨eval_ofOperand readX, eval_ofOperand readY⟩ ⟨eval_ofOperand readX', eval_ofOperand readY'⟩ supplied)

/-- All that an operation reads, and the tangents of it, were drawn before. -/
theorem Tangent.small {n : Nat} {x dx : Operand} (tangent : Tangent tans x dx)
    (known : ∀ y ∈ x.names, y ∈ scope) (small : ∀ y ∈ scope, y.id < n ∧ ∀ c, tans.find? y = some c → c.id < n) :
    ∀ z ∈ x.names ++ dx.names, z.id < n := by
  cases tangent with
  | const v => simp [Operand.names]
  | @var x c found =>
    have := small x (known x (by simp [Operand.names]))
    simpa [Operand.names] using ⟨this.1, this.2 c found⟩

/-- The statements behind an operation bind the tangent of its value. -/
theorem Derived.follows {act : Build Exp} (derived : Derived rules tans op act) {b d : Builder}
    (same : d.stms = b.stms) (drawn : d.supply.next = b.supply.next + 1) (ty : Ty) (aux : Annotations)
    (view : View f) (traces : Traces rules f op.Exact) (known : ∀ y ∈ op.names, y ∈ scope)
    (small : ∀ y ∈ scope, y.id < b.supply.next ∧ ∀ c, tans.find? y = some c → c.id < b.supply.next) :
    ∃ new, ((do Build.add ⟨[⟨⟨b.supply.next⟩, ty⟩], aux, ← act⟩ : Build Unit) d).2.stms = b.stms ++ new ∧
      ∀ fuel (σ σ' σ'' : Store Scalar) (τ : Store α) v (run : Body → Run Scalar (List Value)) run',
        Accord f scope still tans σ τ → Ends (basicOp run op) σ v σ'' → Ends (stms fuel new) σ () σ' →
          σ.Agree (fun x => x.id < b.supply.next ∨
            ((do Build.add ⟨[⟨⟨b.supply.next⟩, ty⟩], aux, ← act⟩ : Build Unit) d).2.supply.next ≤ x.id) σ' ∧
          ∃ d : Value Dual, v = d.map Dual.primal ∧
            σ'.vars.find? ⟨b.supply.next⟩ = some (d.map Dual.tangent) ∧ Ends (basicOp run' op) τ (d.map f) τ := by
  cases derived with
  | @copied _ op' copied =>
    refine ⟨[⟨[⟨⟨b.supply.next⟩, ty⟩], aux, .basic op'⟩], congrArg (· ++ _) same,
      fun fuel σ σ' σ'' τ v run run' accord applied ends => ?_⟩
    simp only [ends_stms_cons, ends_stms_nil, exists_eq_right, ends_stm, Run.ends_basic] at ends
    obtain ⟨_, υ, ⟨v', applied', rfl⟩, -, rfl⟩ := ends
    obtain ⟨rfl, rfl, e, rfl, rfl, made⟩ := copied.follows view traces accord known applied applied' run'
    refine ⟨.bound _ _ fun x mem outside => ?_, e, rfl, Store.find_bound_single .., made⟩
    obtain rfl : x = ⟨b.supply.next⟩ := by simpa using mem
    have outside : b.supply.next < b.supply.next ∨ d.supply.next ≤ b.supply.next := outside
    omega
  | @unary op x dx here =>
    obtain ⟨new, emitted, runs⟩ := bindFormula_emits same drawn ty aux (f := (Formula.ofOperand op.ty dx).mul
      (rules.unary op (Formula.ofOperand op.ty x))) (by simp [Formula.mul])
    refine ⟨new, emitted, fun fuel σ σ' σ'' τ v run run' accord applied ends => ?_⟩
    obtain ⟨kept, t, found, came⟩ := runs fuel σ σ' ends
    simp only [basicOp, ends_bind, ends_scalar, ends_lift, ends_pure] at applied ⊢
    obtain ⟨a, _, ⟨read, rfl⟩, r, _, ⟨result, rfl⟩, rfl, rfl⟩ := applied
    obtain ⟨d, pair⟩ := accord.pairs view known here
    obtain ⟨a, rfl, rfl, seen, tangent⟩ := pair.scalar read
    have made := traces.unary here read tangent (here.small known small) result came
    exact ⟨kept, .scalar ⟨r, t⟩, rfl, found, f a, τ, ⟨seen, rfl⟩, f ⟨r, t⟩, τ, ⟨made, rfl⟩, rfl, rfl⟩
  | @binary op x dx y dy left right =>
    have known : (∀ z ∈ x.names, z ∈ scope) ∧ ∀ z ∈ y.names, z ∈ scope := by
      simpa [BasicOp.names, operandNames, or_imp, forall_and] using known
    obtain ⟨new, emitted, runs⟩ := bindFormula_emits same drawn ty aux
      (f := ((Formula.ofOperand op.ty dx).mul
          (rules.binary op (Formula.ofOperand op.ty x) (Formula.ofOperand op.ty y)).1).add
        ((Formula.ofOperand op.ty dy).mul
          (rules.binary op (Formula.ofOperand op.ty x) (Formula.ofOperand op.ty y)).2)) (by simp [Formula.add])
    refine ⟨new, emitted, fun fuel σ σ' σ'' τ v run run' accord applied ends => ?_⟩
    obtain ⟨kept, t, found, came⟩ := runs fuel σ σ' ends
    simp only [basicOp, ends_bind, ends_scalar, ends_lift, ends_pure] at applied ⊢
    obtain ⟨a, _, ⟨readX, rfl⟩, b, _, ⟨readY, rfl⟩, r, _, ⟨result, rfl⟩, rfl, rfl⟩ := applied
    obtain ⟨d, pairX⟩ := accord.pairs view known.1 left
    obtain ⟨e, pairY⟩ := accord.pairs view known.2 right
    obtain ⟨a, rfl, rfl, seenX, tangentX⟩ := pairX.scalar readX
    obtain ⟨b, rfl, rfl, seenY, tangentY⟩ := pairY.scalar readY
    have made := traces.binary left right readX tangentX readY tangentY
      (List.forall_mem_append.mpr ⟨left.small known.1 small, right.small known.2 small⟩) result came
    exact ⟨kept, .scalar ⟨r, t⟩, rfl, found, f a, τ, ⟨seenX, rfl⟩, f b, τ, ⟨seenY, rfl⟩, f ⟨r, t⟩, τ,
      ⟨made, rfl⟩, rfl, rfl⟩

/-! Emitting tangents. -/

theorem tangentExp_asks (serves : Serves bound decl scope still s) (stm : Stm) {act : Build Exp}
    (known : ∀ y ∈ op.names, y ∈ scope) (read : ∀ y ∈ op.names, y ∈ names)
    (gives : Gives (Forward.tangentExp rules stm op) s act t) :
    Asks f bound decl scope still bs names s t (fun _ _ => True) ∧ Derived rules t.companions op act := by
  have array {a c : Name} {u : DiffState} (mem : a ∈ op.names) (asked : Gives (companion a) s c u) :
      Asks f bound decl scope still bs names s u (fun _ _ => True) ∧ u.companions.find? a = some c :=
    companion_asks bs serves (known a mem) (read a mem) asked
  cases op with
  | operand x =>
    simp only [Forward.tangentExp, gives_bind, gives_pure] at gives
    obtain ⟨dx, _, asked, rfl, rfl⟩ := gives
    obtain ⟨asks, tangent⟩ := tangent_asks (f := f) bs serves known read asked
    exact ⟨asks, .copied (.operand tangent)⟩
  | arrayLit elems ty =>
    simp only [Forward.tangentExp, gives_bind, gives_pure] at gives
    obtain ⟨dxs, _, asked, rfl, rfl⟩ := gives
    obtain ⟨asks, tangents⟩ := tangents_asks (f := f) bs serves known read asked
    exact ⟨asks, .copied (.arrayLit tangents ty)⟩
  | unary op x =>
    simp only [Forward.tangentExp, gives_bind, gives_pure] at gives
    obtain ⟨dx, _, asked, rfl, rfl⟩ := gives
    obtain ⟨asks, tangent⟩ := tangent_asks (f := f) bs serves known read asked
    exact ⟨asks, .unary op tangent⟩
  | binary op x y =>
    simp only [BasicOp.names, operandNames, List.flatMap_cons, List.flatMap_nil, List.append_nil,
      List.forall_mem_append] at known read
    simp only [Forward.tangentExp, gives_bind, gives_pure] at gives
    obtain ⟨dx, u, askedX, dy, _, askedY, rfl, rfl⟩ := gives
    obtain ⟨asks, left⟩ := tangent_asks (f := f) bs serves known.1 read.1 askedX
    obtain ⟨more, right⟩ := tangent_asks (f := f) bs asks.serves known.2 read.2 askedY
    exact ⟨(asks.bind more).mono fun _ _ _ => trivial,
      .binary op (left.kept fun y mem c => more.kept (known.1 y mem)) right⟩
  | convert op x =>
    simp only [Forward.tangentExp, gives_bind, gives_pure] at gives
    obtain ⟨dx, _, asked, rfl, rfl⟩ := gives
    obtain ⟨asks, tangent⟩ := tangent_asks (f := f) bs serves known read asked
    exact ⟨asks, .copied (.convert op tangent)⟩
  | index a slice =>
    simp only [Forward.tangentExp, gives_bind, gives_pure] at gives
    obtain ⟨c, _, asked, rfl, rfl⟩ := gives
    obtain ⟨asks, found⟩ := array (by simp [BasicOp.names]) asked
    exact ⟨asks, .copied (.index found slice)⟩
  | update a slice x =>
    simp only [BasicOp.names, List.forall_mem_cons, List.forall_mem_append] at known read
    simp only [Forward.tangentExp, gives_bind, gives_pure] at gives
    obtain ⟨c, u, asked, dx, _, askedX, rfl, rfl⟩ := gives
    obtain ⟨asks, found⟩ := companion_asks (f := f) bs serves known.1 read.1 asked
    obtain ⟨more, tangent⟩ := tangent_asks (f := f) bs asks.serves known.2.2 read.2.2 askedX
    exact ⟨(asks.bind more).mono fun _ _ _ => trivial, .copied (.update (more.kept known.1 found) slice tangent)⟩
  | concat dim a rest width =>
    simp only [BasicOp.names, List.cons_append, List.forall_mem_cons, List.forall_mem_append] at known read
    simp only [Forward.tangentExp, gives_bind, gives_pure] at gives
    obtain ⟨c, u, asked, cs, _, askedRest, rfl, rfl⟩ := gives
    obtain ⟨asks, found⟩ := companion_asks (f := f) bs serves known.1 read.1 asked
    obtain ⟨more, others⟩ := companions_asks (f := f) bs asks.serves known.2.1 read.2.1 askedRest
    exact ⟨(asks.bind more).mono fun _ _ _ => trivial,
      .copied (.concat dim (more.kept known.1 found) others width)⟩
  | copy a =>
    simp only [Forward.tangentExp, gives_bind, gives_pure] at gives
    obtain ⟨c, _, asked, rfl, rfl⟩ := gives
    obtain ⟨asks, found⟩ := array (by simp [BasicOp.names]) asked
    exact ⟨asks, .copied (.copy found)⟩
  | manifest perm a =>
    simp only [Forward.tangentExp, gives_bind, gives_pure] at gives
    obtain ⟨c, _, asked, rfl, rfl⟩ := gives
    obtain ⟨asks, found⟩ := array (by simp [BasicOp.names]) asked
    exact ⟨asks, .copied (.manifest perm found)⟩
  | reshape shape a =>
    simp only [Forward.tangentExp, gives_bind, gives_pure] at gives
    obtain ⟨c, _, asked, rfl, rfl⟩ := gives
    obtain ⟨asks, found⟩ := array (by simp [BasicOp.names]) asked
    exact ⟨asks, .copied (.reshape shape found)⟩
  | rearrange perm a =>
    simp only [Forward.tangentExp, gives_bind, gives_pure] at gives
    obtain ⟨c, _, asked, rfl, rfl⟩ := gives
    obtain ⟨asks, found⟩ := array (by simp [BasicOp.names]) asked
    exact ⟨asks, .copied (.rearrange perm found)⟩
  | rotate offsets a =>
    simp only [Forward.tangentExp, gives_bind, gives_pure] at gives
    obtain ⟨c, _, asked, rfl, rfl⟩ := gives
    obtain ⟨asks, found⟩ := array (by simp [BasicOp.names]) asked
    exact ⟨asks, .copied (.rotate offsets found)⟩
  | iota count start step w =>
    obtain ⟨rfl, rfl⟩ := (gives_pure ..).mp gives
    exact ⟨.refl serves fun _ _ _ _ _ _ => trivial, .copied (.iota count start step w)⟩
  | replicate shape x =>
    simp only [BasicOp.names, List.forall_mem_append] at known read
    simp only [Forward.tangentExp, gives_bind, gives_pure] at gives
    obtain ⟨dx, _, asked, rfl, rfl⟩ := gives
    obtain ⟨asks, tangent⟩ := tangent_asks (f := f) bs serves known.2 read.2 asked
    exact ⟨asks, .copied (.replicate shape tangent)⟩
  | compare op x y => exact absurd gives (by simp [Forward.tangentExp, Forward.unsupported])
  | scratch elem shape => exact absurd gives (by simp [Forward.tangentExp, Forward.unsupported])
  | assert cond msg => exact absurd gives (by simp [Forward.tangentExp, Forward.unsupported])
  | updateAcc acc position values => exact absurd gives (by simp [Forward.tangentExp, Forward.unsupported])

end

end Tandem

end Cotangent
