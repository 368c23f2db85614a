import Cotangent.Proofs.Regions.Stores
import Cotangent.Proofs.Evaluation.Contracts
import Cotangent.Proofs.Evaluation.PlacedRuns
import Cotangent.Proofs.Evaluation.Simulation
/-!
Runs of the emitted code beside runs of the source on dual numbers. From stores in accord, wherever the
emitted code ends the source ends as well, with values that mirror those of the emitted code, and in
stores in accord. The operators of accumulators are the reason for an induction on the fuel: they are run
by updates far from where they stand.
-/
namespace Cotangent

open Run ScalarAlgebra

variable {α : Type} [ScalarAlgebra α] {f : Dual → α} {place : Value α → Value α} {ρ : Roles}
  {σ σ' σ'' : Store Scalar} {τ τ' τ'' : Store α} {fuel : Nat}

/-- Stores in accord again, with more accumulators. -/
structure Persists (ρ : Roles) (f : Dual → α) (σ : Store Scalar) (τ : Store α) (σ' : Store Scalar)
    (τ' : Store α) : Prop where
  accord : Accord ρ f σ' τ'
  more : σ.combiners <+: σ'.combiners
  more' : τ.combiners <+: τ'.combiners

omit [ScalarAlgebra α] in
theorem Persists.refl (accord : Accord ρ f σ τ) : Persists ρ f σ τ σ τ :=
  ⟨accord, List.prefix_rfl, List.prefix_rfl⟩

omit [ScalarAlgebra α] in
theorem Persists.trans (first : Persists ρ f σ τ σ' τ') (second : Persists ρ f σ' τ' σ'' τ'') :
    Persists ρ f σ τ σ'' τ'' :=
  ⟨second.accord, first.more.trans second.more, first.more'.trans second.more'⟩

omit [ScalarAlgebra α] in
theorem Persists.serves (persists : Persists ρ f σ τ σ' τ') {id : Nat} {ts : List ScalarType}
    (served : Serves ρ σ τ id ts) : Serves ρ σ' τ' id ts :=
  served.grows persists.more persists.more'

/-! Statements that bind zeros. -/

/-- Positions and sizes are read off the store. -/
theorem int_same_store {x : Operand} {n : Int} (ends : Ends (Run.int x : Run Scalar Int) σ n σ') :
    σ = σ' := by
  simp only [Run.int, ends_bind, ends_scalar, ends_lift] at ends
  obtain ⟨_, _, ⟨-, rfl⟩, -, rfl⟩ := ends
  rfl

theorem mapM_same_store {β γ : Type} {g : β → Run Scalar γ}
    (each : ∀ x c (σ σ' : Store Scalar), Ends (g x) σ c σ' → σ = σ') {xs : List β} {cs : List γ}
    (ends : Ends (xs.mapM g) σ cs σ') : σ = σ' := by
  have reads (x : β) (c : γ) (σ σ' : Store Scalar) :
      Ends (g x) σ c σ' ↔ Ends (g x) σ c σ ∧ σ = σ' := by
    constructor
    · intro ends
      obtain rfl := each x c σ σ' ends
      exact ⟨ends, rfl⟩
    · rintro ⟨ends, rfl⟩
      exact ends
  exact ((ends_reads reads).mp ends).2

theorem sizes_same_store {xs : List Operand} {ns : List Nat}
    (ends : Ends (sizes xs : Run Scalar (List Nat)) σ ns σ') : σ = σ' := by
  refine mapM_same_store (fun x n σ σ' ends => ?_) ends
  simp only [size, ends_bind, ends_lift] at ends
  obtain ⟨_, _, isInt, -, rfl⟩ := ends
  exact int_same_store isInt

theorem dims_same_store {slice : List DimIndex} {ds : List Dim}
    (ends : Ends (dims slice : Run Scalar (List Dim)) σ ds σ') : σ = σ' := by
  refine mapM_same_store (fun i d σ σ' ends => ?_) ends
  cases i with
  | fix i =>
    simp only [dim, ends_bind, ends_pure] at ends
    obtain ⟨_, _, isInt, -, rfl⟩ := ends
    exact int_same_store isInt
  | slice start len stride =>
    simp only [dim, ends_bind, ends_pure] at ends
    obtain ⟨_, _, isStart, _, _, isLen, _, _, isStride, -, rfl⟩ := ends
    obtain rfl := int_same_store isStart
    obtain rfl := int_same_store isLen
    exact int_same_store isStride

theorem aside_pads {pads : List Stm} (padded : ∀ s ∈ pads, ρ.Pads s) (skip : List Name)
    (ends : Ends (stms fuel pads) σ () σ') : Aside ρ skip σ σ' := by
  induction pads generalizing σ with
  | nil =>
    obtain rfl := (ends_stms_nil ..).mp ends
    exact .refl skip σ
  | cons s pads ih =>
    obtain ⟨here, rest⟩ := List.forall_mem_cons.mp padded
    obtain ⟨υ, first, ends⟩ := (ends_stms_cons ..).mp ends
    refine Aside.trans ?_ (ih rest ends)
    obtain ⟨vs, _, ran, -, rfl⟩ := (ends_stm ..).mp first
    cases here with
    | @zero z t ty aux role =>
      obtain ⟨v, applied, rfl⟩ := (ends_basic ..).mp ran
      obtain ⟨isZero, rfl⟩ := (ends_operand (.const (Scalar.zero t)) v σ _).mp applied
      obtain rfl : .scalar (Scalar.zero t) = v := Option.some.inj isZero
      refine ⟨rfl, fun x r known _ nonzero _ => ?_, fun x t' known => ?_⟩
      · refine σ.find_bound_of_not_mem _ ?_
        rw [List.map_singleton, List.mem_singleton]
        rintro rfl
        exact nonzero t (Option.some.inj (known.symm.trans role))
      · by_cases same : x = z
        · subst same
          obtain rfl : t = t' := by simpa [role] using known
          exact .inr (σ.find_bound_single x _)
        · exact .inl (σ.find_bound_of_not_mem _ (by simpa using same))
    | @scratch z ty aux shape s role =>
      obtain ⟨v, applied, rfl⟩ := (ends_basic ..).mp ran
      simp only [basicOp, ends_bind, ends_pure] at applied
      obtain ⟨_, _, sized, _, _, read, rfl, rfl⟩ := applied
      obtain ⟨-, rfl⟩ := (ends_operand ..).mp read
      obtain rfl := sizes_same_store sized
      have apart (x : Name) (r : Role) (known : ρ x = some r) (used : r ≠ .scratch) : x ∉ [z] := by
        rw [List.mem_singleton]
        rintro rfl
        exact used (Option.some.inj (known.symm.trans role))
      refine ⟨rfl, fun x r known used _ _ => ?_, fun x t known => .inl ?_⟩
      · exact σ.find_bound_of_not_mem _ (apart x r known used)
      · exact σ.find_bound_of_not_mem _ (apart x _ known (by simp))

/-! Operations that are copied. -/

theorem aside_bound {p : Name} {t : ScalarType} {c : Name} (role : ρ p = some (.plain t c))
    (σ : Store Scalar) (v : Value) : Aside ρ [p] σ (σ.bound [p] [v]) where
  combiners := rfl
  kept _ _ _ _ _ apart := σ.find_bound_of_not_mem _ apart
  zeros z t known := by
    refine .inl (σ.find_bound_of_not_mem _ ?_)
    rw [List.mem_singleton]
    rintro rfl
    simp [role] at known

omit [ScalarAlgebra α] in
/-- A name was bound, then zeros, and then its tangent. -/
theorem Accord.moving (accord : Accord ρ f σ τ) (coherent : ρ.Coherent) {p c : Name} {t : ScalarType}
    (role : ρ p = some (.plain t c)) {d : Value Dual} (fits : d.Every (Dual.Of t))
    (aside : Aside ρ [] (σ.bound [p] [d.map Dual.primal]) σ')
    (sets : ρ.Sets c (d.map Dual.tangent) σ' σ'') : Accord ρ f σ'' (τ.bound [p] [d.map f]) := by
  have isTangent := coherent _ _ _ role
  have apart : c ≠ p := by
    rintro rfl
    simp [role] at isTangent
  -- Zeros and scratch came in between, so the store is that of both bindings up to these.
  have both := accord.bindHeld coherent (.plain role) (.leaves fits)
  rw [Roles.echo_plain role] at both
  refine both.aside coherent ⟨?_, fun x r known used nonzero _ => ?_, fun z t' known => ?_⟩
  · rw [sets.combiners, aside.combiners]
    rfl
  · by_cases isC : x = c
    · subst isC
      rw [sets.here]
      simp [Store.bound, NameTable.insertAll, NameTable.find_insert]
    · rw [sets.kept x r known used isC, aside.kept x r known used nonzero (by simp)]
      simp [Store.bound, NameTable.insertAll, NameTable.find_insert, isC]
  · have notC : z ≠ c := by
      rintro rfl
      simp [isTangent] at known
    have notP : z ≠ p := by
      rintro rfl
      simp [role] at known
    rw [sets.kept z _ known (by simp) notC]
    refine (aside.zeros z t' known).imp_left fun same => same.trans ?_
    simp [Store.bound, NameTable.insertAll, NameTable.find_insert, notC, notP]

/-- The store keeps what stands for a name of the source. -/
theorem Aside.known {skip : List Name} (aside : Aside ρ skip σ σ') {x : Name} (known : ρ.Knows x)
    (apart : x ∉ skip) : σ'.vars.find? x = σ.vars.find? x := by
  cases known with
  | leaf leaf =>
    cases leaf with
    | plain role => exact aside.kept x _ role (by simp) (by simp) apart
    | still role => exact aside.kept x _ role (by simp) (by simp) apart
  | handle role => exact aside.kept x _ role (by simp) (by simp) apart

/-- One statement that binds a name to what an operation reads elsewhere. -/
theorem sets_single (c : Name) (σ : Store Scalar) (v : Value) :
    ρ.Sets c v σ (σ.bound [c] [v]) where
  combiners := rfl
  here := σ.find_bound_single c v
  kept _ _ _ _ apart := σ.find_bound_of_not_mem _ (by simpa using apart)

theorem Formula.eval_of_mul {read : Name → Option Scalar} {g h : Formula} {v : Scalar}
    (known : (g.mul h).eval read = some v) : ∃ s, g.eval read = some s := by
  simp only [Formula.mul, Formula.eval, Option.bind_eq_bind, Option.bind_eq_some_iff] at known
  obtain ⟨s, first, -⟩ := known
  exact ⟨s, first⟩

theorem Dual.eval_of_binaryFormula {read : Name → Option Scalar} {op : BinaryOp}
    {x y dx dy : Formula} {v : Scalar}
    (known : (Dual.binaryFormula op x y dx dy).eval read = some v) :
    (∃ s, dx.eval read = some s) ∧ ∃ s, dy.eval read = some s := by
  simp only [Dual.binaryFormula, Formula.add, Formula.eval, Option.bind_eq_bind,
    Option.bind_eq_some_iff] at known
  obtain ⟨_, left, _, right, -⟩ := known
  exact ⟨Formula.eval_of_mul left, Formula.eval_of_mul right⟩

theorem Store.value_of_eval {k : ScalarType} {x : Operand} {s : Scalar}
    (known : (Formula.ofOperand k x).eval σ.reading = some s) : σ.value x = some (.scalar s) := by
  cases x with
  | const v =>
    obtain rfl : v = s := Option.some.inj known
    rfl
  | var x =>
    have read : σ.reading x = some s := known
    obtain ⟨v, found, isScalar⟩ := Option.bind_eq_some_iff.mp read
    cases v with
    | scalar a =>
      obtain rfl : a = s := Option.some.inj isScalar
      exact found
    | array rows => cases isScalar
    | acc id arrays => cases isScalar

theorem ty_pairs {t : ScalarType} {x dx : Operand} (pair : ρ.Pairs t x dx) :
    (Formula.ofOperand t x).ty = t ∧ (Formula.ofOperand t dx).ty = t := by
  cases pair with
  | const ty => exact ⟨ty, (Scalar.ty_zero _).trans ty⟩
  | plain role => exact ⟨rfl, rfl⟩
  | still role zero => exact ⟨rfl, rfl⟩

/-- A binary operation on dual scalars, from that on the primal parts and the formula of its tangent. -/
theorem Dual.binary_of_eval {op : IntBinary} {w : IntWidth} {a b : Dual} {r v : Scalar}
    {read : Name → Option Scalar} {fx fy fdx fdy : Formula}
    (kinds : (fx.ty = .int w ∧ fdx.ty = .int w) ∧ fy.ty = .int w ∧ fdy.ty = .int w)
    (left : fx.eval read = some a.primal ∧ fdx.eval read = some a.tangent)
    (right : fy.eval read = some b.primal ∧ fdy.eval read = some b.tangent)
    (applied : (BinaryOp.int op w).apply a.primal b.primal = .ok r) (fits : a.Of (.int w))
    (known : (Dual.binaryFormula (.int op w) fx fy fdx fdy).eval read = some v) :
    ScalarAlgebra.binary (.int op w) a b = .ok (Dual.mk r v) ∧ (Dual.mk r v).Of (.int w) := by
  have tangent : Dual.binaryTangent (.int op w) a b = some v :=
    Dual.binaryTangent_of_eval ⟨kinds.1.1, kinds.2.1, kinds.1.2, kinds.2.2⟩
      ⟨left.1, right.1⟩ ⟨left.2, right.2⟩ known
  obtain ⟨_, _, -, -, isInt⟩ := Dual.eval_binaryFormula kinds.1.2 kinds.2.2 ⟨left.2, right.2⟩ known
  refine ⟨?_, (BinaryOp.ty_apply fits.1 applied : r.ty = (BinaryOp.int op w).ty), isInt ▸ rfl⟩
  simp [ScalarAlgebra.binary, Dual.plain, applied, tangent, Dual.paired]

theorem carry_eq_ok {β γ δ ε : Type} (g : β → γ) (h : δ → ε) (x : Except (Fault β) δ) (e : ε) :
    carry g h x = .ok e ↔ ∃ d, x = .ok d ∧ h d = e := by
  cases x <;> simp [carry]

/-- The operation on the source and its tangent come to the two parts of one dual value. -/
theorem Accord.derives (accord : Accord ρ f σ τ) (coherent : ρ.Coherent) (seen : Dual.Seen f place)
    {p c : Name} {t : ScalarType} (role : ρ p = some (.plain t c)) {op : BasicOp} {new : List Stm}
    (derives : ρ.Derives c t op new) (known : ∀ z ∈ op.names, ρ.Knows z) (apart : p ∉ op.names)
    {run : Body → Run Scalar (List Value)} {run' : Body → Run α (List (Value α))} {v : Value}
    {υ : Store Scalar} (applied : Ends (basicOp run op) σ v υ) (aside : Aside ρ [p] υ σ')
    (ends : Ends (stms fuel new) σ' () σ'') :
    σ = υ ∧ ∃ d : Value Dual, d.Every (Dual.Of t) ∧ v = d.map Dual.primal ∧
      ρ.Sets c (d.map Dual.tangent) σ' σ'' ∧ Ends (basicOp run' op) τ (d.map f) τ := by
  have skipped : ∀ q ∈ [p], ∃ t c, ρ q = some (.plain t c) := by simpa using ⟨t, c, role⟩
  have kept {x : Name} (mem : x ∈ op.names) : σ'.vars.find? x = υ.vars.find? x :=
    aside.known (known x mem) (by rw [List.mem_singleton]; exact fun same => apart (same ▸ mem))
  cases derives with
  | @operand _ x dx ty aux pair =>
    obtain ⟨read, rfl⟩ := (ends_operand x v σ _).mp applied
    obtain ⟨d, fits, rfl, here, tangent⟩ := accord.pair coherent seen aside skipped pair read
    simp only [ends_stms_cons, ends_stms_nil, exists_eq_right, Run.ends_stm, ends_basic] at ends
    obtain ⟨_, υ, ⟨dv, read', rfl⟩, -, rfl⟩ := ends
    obtain ⟨found, rfl⟩ := (ends_operand dx dv σ' υ).mp read'
    obtain rfl := tangent dv found
    exact ⟨rfl, d, fits, rfl, sets_single c σ' _, (ends_operand ..).mpr ⟨here, rfl⟩⟩
  | @index _ a da slice ty aux pair =>
    simp only [BasicOp.names, List.mem_cons, forall_eq_or_imp] at known
    simp only [basicOp, ends_bind, ends_lookup, ends_lift] at applied
    obtain ⟨va, _, ⟨read, rfl⟩, ds, _, sliced, indexed, rfl⟩ := applied
    obtain ⟨rfl, sliced'⟩ := accord.dims seen known.2 sliced
    obtain ⟨d, fits, rfl, here, tangent⟩ := accord.pair coherent seen aside skipped pair read
    simp only [ends_stms_cons, ends_stms_nil, exists_eq_right, Run.ends_stm, ends_basic] at ends
    obtain ⟨_, υ, ⟨dv, applied', rfl⟩, -, rfl⟩ := ends
    simp only [basicOp, ends_bind, ends_lookup, ends_lift] at applied'
    obtain ⟨dva, _, ⟨read', rfl⟩, ds', υ', resliced, indexed', rfl⟩ := applied'
    obtain rfl := tangent dva read'
    obtain rfl := dims_same_store resliced
    have agree : σ.Agree (· ∈ slice.flatMap DimIndex.names) σ' := fun x mem =>
      kept (by simp only [BasicOp.names, List.mem_cons]; exact .inr mem)
    have mimics : Mimics [] (slice.flatMap DimIndex.names) (slice.flatMap DimIndex.names)
        (Run.dims slice : Run Scalar (List Dim)) (Run.dims slice) := mimics_dims (List.Subset.refl _)
    obtain ⟨-, _, again, -⟩ := (mimics σ σ' agree).ends ds σ sliced
    obtain ⟨rfl, rfl⟩ := ends_unique again resliced
    obtain ⟨e, part, rfl⟩ := (carry_eq_ok ..).mp ((Value.index_map Dual.primal ds d).symm.trans indexed)
    rw [Value.index_map, part, carry_ok, Except.ok.injEq] at indexed'
    subst indexed'
    refine ⟨rfl, e, Value.every_index fits part, rfl, sets_single c _ _, ?_⟩
    simp only [basicOp, ends_bind, ends_lookup, ends_lift]
    refine ⟨_, τ, ⟨here, rfl⟩, ds, τ, sliced', ?_, rfl⟩
    rw [Value.index_map, part, carry_ok]
  | @binary op w x y dx dy new left right runs =>
    simp only [basicOp, ends_bind, ends_scalar, ends_lift, ends_pure] at applied
    obtain ⟨m, _, ⟨readX, rfl⟩, n, _, ⟨readY, rfl⟩, r, _, ⟨result, rfl⟩, rfl, rfl⟩ := applied
    obtain ⟨a, fitA, isA, hereA, tangentA⟩ :=
      accord.pair coherent seen aside skipped left readX
    obtain ⟨b, fitB, isB, hereB, tangentB⟩ :=
      accord.pair coherent seen aside skipped right readY
    obtain ⟨a, rfl, rfl⟩ := Value.map_eq_scalar isA.symm
    obtain ⟨b, rfl, rfl⟩ := Value.map_eq_scalar isB.symm
    obtain ⟨u, eval, sets⟩ := runs fuel σ' σ'' ends
    obtain ⟨⟨da, evalA⟩, db, evalB⟩ := Dual.eval_of_binaryFormula eval
    obtain rfl : da = a.tangent := Value.scalar.inj (tangentA _ (Store.value_of_eval evalA))
    obtain rfl : db = b.tangent := Value.scalar.inj (tangentB _ (Store.value_of_eval evalB))
    have primal {z : Operand} {s : Scalar} (inside : ∀ q ∈ z.names, q ∈ operandNames [x, y])
        (read : σ.value z = some (.scalar s)) :
        (Formula.ofOperand (.int w) z).eval σ'.reading = some s := by
      refine eval_ofOperand ?_
      cases z with
      | const v => exact read
      | var z => exact (kept (inside z (by simp [Operand.names]))).trans read
    have both := Dual.binary_of_eval ⟨ty_pairs left, ty_pairs right⟩
      ⟨primal (by simp +contextual [operandNames]) readX, evalA⟩
      ⟨primal (by simp +contextual [operandNames]) readY, evalB⟩ result fitA eval
    refine ⟨rfl, .scalar ⟨r, u⟩, both.2, rfl, sets, ?_⟩
    simp only [basicOp, ends_bind, ends_scalar, ends_lift, ends_pure]
    refine ⟨f a, τ, ⟨hereA, rfl⟩, f b, τ, ⟨hereB, rfl⟩, f ⟨r, u⟩, τ, ⟨?_, rfl⟩, rfl, rfl⟩
    exact seen.binary _ a b _ both.1

theorem Placed.ends_basic {op : BasicOp} (simple : ∀ acc position values, op ≠ .updateAcc acc position values)
    {run : Body → Run α (List (Value α))} {υ : Store α} {ws : List (Value α)} :
    Ends (Placed.exp place run fuel (.basic op)) τ ws υ ↔
      ∃ w, Ends (basicOp run op) τ w υ ∧ ws = [w] := by
  have same : Placed.exp place run fuel (.basic op) = exp run fuel (.basic op) := by
    unfold Placed.exp
    split
    · rename_i same
      exact absurd (Exp.basic.inj same) (simple _ _ _)
    · rfl
  rw [same]
  exact Run.ends_basic ..

/-- The source takes the step that the emitted code took with a copy and its tangent. -/
theorem Accord.copies (accord : Accord ρ f σ τ) (coherent : ρ.Coherent) (seen : Dual.Seen f place)
    {s : Stm} {new : List Stm} (copies : ρ.Copies s new) (ends : Ends (stms fuel new) σ () σ')
    (run' : Body → Run α (List (Value α))) :
    ∃ τ', Ends (Placed.stm place run' fuel s) τ () τ' ∧ Persists ρ f σ τ σ' τ' := by
  cases copies with
  | @still p aux op x y role known =>
    simp only [operandNames, List.flatMap_cons, List.flatMap_nil, List.append_nil,
      List.forall_mem_append] at known
    simp only [ends_stms_cons, ends_stms_nil, exists_eq_right, Run.ends_stm, Run.ends_basic] at ends
    obtain ⟨_, υ, ⟨v, applied, rfl⟩, -, rfl⟩ := ends
    simp only [basicOp, ends_bind, ends_scalar, ends_lift, ends_pure] at applied
    obtain ⟨m, _, ⟨readX, rfl⟩, n, _, ⟨readY, rfl⟩, b, _, ⟨result, rfl⟩, rfl, rfl⟩ := applied
    obtain ⟨d, rfl, hereX⟩ := accord.scalar seen known.1 readX
    obtain ⟨e, rfl, hereY⟩ := accord.scalar seen known.2 readY
    have after := accord.bindStill coherent (s := .bool b) role
    refine ⟨_, (Placed.ends_stm ..).mpr ⟨_, τ, (Placed.ends_basic (by simp)).mpr
      ⟨.scalar (f (.constant (.bool b))), ?_, rfl⟩, rfl, rfl⟩, after, List.prefix_rfl,
      List.prefix_rfl⟩
    simp only [basicOp, ends_bind, ends_scalar, ends_lift, ends_pure]
    refine ⟨f d, τ, ⟨hereX, rfl⟩, f e, τ, ⟨hereY, rfl⟩, b, τ, ⟨?_, rfl⟩, ?_, rfl⟩
    · exact seen.compare op d e b result
    · rw [seen.constant]
  | @moving p aux op t c pads new role known apart padded derives =>
    obtain ⟨_, first, rest⟩ := (ends_stms_cons ..).mp ends
    obtain ⟨_, paddedEnds, last⟩ := (ends_stms_append ..).mp rest
    obtain ⟨vs, υ, ran, -, rfl⟩ := (Run.ends_stm ..).mp first
    obtain ⟨v, applied, rfl⟩ := (Run.ends_basic ..).mp ran
    have simple : ∀ acc position values, op ≠ .updateAcc acc position values := by
      rintro acc position values rfl
      cases derives
    have bound : Aside ρ [p.name] υ (υ.bound [p.name] [v]) := aside_bound role υ v
    have aside := bound.trans (aside_pads padded [p.name] paddedEnds)
    obtain ⟨rfl, d, fits, rfl, sets, came⟩ :=
      accord.derives coherent seen role derives known apart applied aside last
    have after := accord.moving coherent role fits (aside_pads padded [] paddedEnds) sets
    refine ⟨_, (Placed.ends_stm ..).mpr ⟨_, τ, (Placed.ends_basic simple).mpr ⟨_, came, rfl⟩, rfl,
      rfl⟩, after, ?_, List.prefix_rfl⟩
    rw [sets.combiners, aside.combiners]

/-! Branches and loops, given what the bodies inside do. -/

/-- Wherever the emitted body ends with that much fuel, the body of the source does. -/
def Simulates (ρ : Roles) (f : Dual → α) (place : Value α → Value α) (fuel : Nat) : Prop :=
  ∀ layout ks b b', Body.Echoes ρ layout ks b b' → ∀ σ τ us σ', Accord ρ f σ τ →
    Ends (runBody fuel b') σ us σ' →
    ∃ ws τ', Ends (Placed.runBody place fuel b) τ ws τ' ∧ Persists ρ f σ τ σ' τ' ∧
      layout.Values f (Serves ρ σ' τ') ks us ws

/-- The names of a pattern, bound to what expressions came to. -/
def BindsTo (ρ : Roles) (f : Dual → α) (σ : Store Scalar) (τ : Store α) (names names' : List Name)
    (us : List Value) (σ' : Store Scalar) (m : Run α (List (Value α))) : Prop :=
  ∃ ws τ', Ends m τ ws τ' ∧ ws.length = names.length ∧
    Persists ρ f σ τ (σ'.bound names' us) (τ'.bound names ws)

omit [ScalarAlgebra α] in
theorem Persists.binds (persists : Persists ρ f σ τ σ' τ') (coherent : ρ.Coherent)
    {names : List Name} {ks : List Kind} (binds : ρ.Binds names ks) {us : List Value}
    {ws : List (Value α)} (bundled : Bundled f (Serves ρ σ' τ') ks us ws) :
    Persists ρ f σ τ (σ'.bound (names.flatMap ρ.echo) us) (τ'.bound names ws) :=
  ⟨(persists.accord.binds coherent binds bundled).1, persists.more, persists.more'⟩

theorem Accord.branch (accord : Accord ρ f σ τ) (coherent : ρ.Coherent) (seen : Dual.Seen f place)
    (simulates : Simulates ρ f place fuel) {cond : Operand} {yes no yes' no' : Body}
    {ret ret' : List Ty} {sort : BranchSort} {ks : List Kind} {names : List Name}
    (known : ∀ z ∈ cond.names, ρ.Knows z) (binds : ρ.Binds names ks)
    (onYes : yes.Echoes ρ .bundled ks yes') (onNo : no.Echoes ρ .bundled ks no') {us : List Value}
    (ends : Ends (exp (runBody fuel) fuel (.branch cond yes' no' ret' sort)) σ us σ') :
    BindsTo ρ f σ τ names (names.flatMap ρ.echo) us σ'
      (Placed.exp place (Placed.runBody place fuel) fuel (.branch cond yes no ret sort)) := by
  simp only [exp, ends_bind, ends_scalar, ends_lift] at ends
  obtain ⟨s, _, ⟨read, rfl⟩, taken, _, ⟨isBool, rfl⟩, ends⟩ := ends
  obtain ⟨d, rfl, here⟩ := accord.scalar seen known read
  have decided := seen.asBool isBool
  have inside : ∃ ws τ', Ends (Placed.runBody place fuel (if taken then yes else no)) τ ws τ' ∧
      Persists ρ f σ τ σ' τ' ∧ Bundled f (Serves ρ σ' τ') ks us ws := by
    cases taken with
    | true => exact simulates .bundled ks yes yes' onYes σ τ us σ' accord ends
    | false => exact simulates .bundled ks no no' onNo σ τ us σ' accord ends
  obtain ⟨ws, τ', ran, persists, bundled⟩ := inside
  refine ⟨ws, τ', ?_, (persists.accord.binds coherent binds bundled).2.2,
    persists.binds coherent binds bundled⟩
  simp only [Placed.exp, exp, ends_bind, ends_scalar, ends_lift]
  refine ⟨f d, τ, ⟨here, rfl⟩, taken, τ, ⟨decided, rfl⟩, ?_⟩
  cases taken with
  | true => exact ran
  | false => exact ran

/-- Rows of a loop, laid out for access, with those of the tangents. -/
inductive RowTables (ρ : Roles) (f : Dual → α) :
    List (Name × Table Scalar) → List (Name × Table α) → Prop
  | nil : RowTables ρ f [] []
  | cons {x c : Name} {t : ScalarType} {d : Value Dual} {rows : List (Name × Table Scalar)}
      {rows' : List (Name × Table α)} (role : ρ x = some (.plain t c)) (fits : d.Every (Dual.Of t))
      (rest : RowTables ρ f rows rows') :
      RowTables ρ f ((x, (d.map Dual.primal).table) :: (c, (d.map Dual.tangent).table) :: rows)
        ((x, (d.map f).table) :: rows')

theorem Accord.tables (accord : Accord ρ f σ τ) (coherent : ρ.Coherent) (seen : Dual.Seen f place)
    {rows rows' : List (Param × Name)} (rowed : ρ.Rows rows rows') {us : List Value}
    (ends : Ends (lookups (rows'.map (·.2))) σ us σ') :
    σ = σ' ∧ ∃ ws, Ends (lookups (rows.map (·.2))) τ ws τ ∧
      RowTables ρ f ((rows'.map (·.1.name)).zip (us.map Value.table))
        ((rows.map (·.1.name)).zip (ws.map Value.table)) := by
  unfold lookups at *
  induction rowed generalizing us with
  | nil =>
    obtain ⟨rfl, rfl⟩ := (ends_pure ..).mp ends
    exact ⟨rfl, [], (ends_pure ..).mpr ⟨rfl, rfl⟩, .nil⟩
  | @cons p q a da c t rows rows' role named source rest ih =>
    simp only [List.map_cons, List.mapM_cons, ends_bind, ends_lookup, ends_pure] at ends
    obtain ⟨v, _, ⟨read, rfl⟩, _, _, ⟨dv, _, ⟨read', rfl⟩, us, _, others, rfl, rfl⟩, rfl, rfl⟩ := ends
    obtain ⟨d, fits, rfl, here, tangent⟩ :=
      accord.pair coherent seen (.refl [] σ) (by simp) source read
    obtain rfl := tangent dv read'
    obtain ⟨rfl, ws, ran, tables⟩ := ih others
    refine ⟨rfl, d.map f :: ws, ?_, ?_⟩
    · simp only [List.map_cons, List.mapM_cons, ends_bind, ends_lookup, ends_pure]
      exact ⟨_, τ, ⟨here, rfl⟩, ws, τ, ran, rfl, rfl⟩
    · subst named
      exact .cons role fits tables

omit [ScalarAlgebra α] in
/-- The rows of one round are bound together with those of the tangents. -/
theorem RowTables.bind {rows : List (Name × Table Scalar)} {rows' : List (Name × Table α)}
    (tables : RowTables ρ f rows rows') (coherent : ρ.Coherent) (accord : Accord ρ f σ τ) {i : Nat}
    (ends : Ends (rows.forM fun r => do set r.1 (← pick (← r.2) i) : Run Scalar Unit) σ () σ') :
    ∃ τ', Ends (rows'.forM fun r => do set r.1 (← pick (← r.2) i) : Run α Unit) τ () τ' ∧
      Persists ρ f σ τ σ' τ' := by
  induction tables generalizing σ τ with
  | nil =>
    obtain ⟨-, rfl⟩ := (ends_pure ..).mp ends
    exact ⟨τ, (ends_pure ..).mpr ⟨rfl, rfl⟩, .refl accord⟩
  | @cons x c t d rows rows' role fits rest ih =>
    simp only [List.forM_eq_forM, List.forM_cons, ends_bind, exists_unit, ends_lift, ends_set] at ends
    obtain ⟨_, ⟨table, _, ⟨laid, rfl⟩, v, _, ⟨picked, rfl⟩, rfl⟩, _,
      ⟨table', _, ⟨laid', rfl⟩, dv, _, ⟨picked', rfl⟩, rfl⟩, others⟩ := ends
    rw [Value.table_map] at laid laid'
    obtain ⟨rowTable, isTable, rfl⟩ := (carry_eq_ok ..).mp laid
    rw [isTable, carry_ok, Except.ok.injEq] at laid'
    subst laid'
    rw [pick_map] at picked picked'
    obtain ⟨e, isRow, rfl⟩ := (carry_eq_ok ..).mp picked
    rw [isRow, carry_ok, Except.ok.injEq] at picked'
    subst picked'
    have fit := laid_table fits _ _ _ isTable isRow
    have bound := accord.bindHeld coherent (.plain role) (.leaves fit)
    rw [Roles.echo_plain role] at bound
    obtain ⟨τ', ran, persists⟩ := ih bound others
    refine ⟨τ', ?_, persists.accord, persists.more, persists.more'⟩
    simp only [List.forM_eq_forM, List.forM_cons, ends_bind, exists_unit, ends_lift, ends_set]
    refine ⟨_, ⟨rowTable.map (Value.map f), τ, ⟨?_, rfl⟩, e.map f, τ, ⟨?_, rfl⟩, rfl⟩, ran⟩
    · rw [Value.table_map, isTable, carry_ok]
    · rw [pick_map, isRow, carry_ok]

theorem Accord.round (accord : Accord ρ f σ τ) (coherent : ρ.Coherent) (seen : Dual.Seen f place)
    (simulates : Simulates ρ f place fuel) {names : List Name} {ks : List Kind} {counter : Name}
    {w : IntWidth} {rows : List (Name × Table Scalar)} {rows' : List (Name × Table α)} {b b' : Body}
    (binds : ρ.Binds names ks) (counts : ρ counter = some (.still (.int w)))
    (tables : RowTables ρ f rows rows') (inside : b.Echoes ρ .bundled ks b') {i : Nat}
    (ends : Ends (Run.round (runBody fuel) (names.flatMap ρ.echo) counter w rows b' i ()) σ () σ') :
    ∃ τ', Ends (Run.round (Placed.runBody place fuel) names counter w rows' b i ()) τ () τ' ∧
      Persists ρ f σ τ σ' τ' := by
  simp only [Run.round, step, ends_bind, exists_unit, ends_set, exists_eq_left', ends_bindNames] at ends
  obtain ⟨υ, rowed, us, υ', ran, -, rfl⟩ := ends
  have counted := accord.bindStill coherent (s := .int w i) counts
  obtain ⟨τ₁, rowed', first⟩ := tables.bind coherent counted rowed
  obtain ⟨ws, τ₂, ran', second, bundled⟩ :=
    simulates .bundled ks b b' inside _ _ us υ' first.accord ran
  have values : Bundled f (Serves ρ υ' τ₂) ks us ws := bundled
  have both := first.trans second
  obtain ⟨after, -, count⟩ := both.accord.binds coherent binds values
  refine ⟨τ₂.bound names ws, ?_, after, both.more, both.more'⟩
  simp only [Run.round, step, ends_bind, exists_unit, ends_set, exists_eq_left', ends_bindNames]
  rw [seen.constant]
  exact ⟨τ₁, rowed', ws, τ₂, ran', count, rfl⟩

theorem Accord.rounds (accord : Accord ρ f σ τ) (coherent : ρ.Coherent) (seen : Dual.Seen f place)
    (simulates : Simulates ρ f place fuel) {names : List Name} {ks : List Kind} {counter : Name}
    {w : IntWidth} {rows : List (Name × Table Scalar)} {rows' : List (Name × Table α)} {b b' : Body}
    (binds : ρ.Binds names ks) (counts : ρ counter = some (.still (.int w)))
    (tables : RowTables ρ f rows rows') (inside : b.Echoes ρ .bundled ks b') {n i : Nat}
    (ends : Ends (Run.rounds (Run.round (runBody fuel) (names.flatMap ρ.echo) counter w rows b') n i ()) σ ()
      σ') :
    ∃ τ', Ends (Run.rounds (Run.round (Placed.runBody place fuel) names counter w rows' b) n i ()) τ () τ' ∧
      Persists ρ f σ τ σ' τ' := by
  induction n generalizing i σ τ with
  | zero =>
    obtain ⟨-, rfl⟩ := (ends_pure ..).mp ends
    exact ⟨τ, (ends_pure ..).mpr ⟨rfl, rfl⟩, .refl accord⟩
  | succ n ih =>
    obtain ⟨_, υ, first, rest⟩ := (ends_bind ..).mp ends
    obtain ⟨τ₁, ran, once⟩ := accord.round coherent seen simulates binds counts tables inside first
    obtain ⟨τ₂, more, others⟩ := ih once.accord rest
    exact ⟨τ₂, (ends_bind ..).mpr ⟨(), τ₁, ran, more⟩, once.trans others⟩

omit [ScalarAlgebra α] in
/-- Names are looked up together with their tangents. -/
theorem Accord.lookups (accord : Accord ρ f σ τ) {names : List Name} {ks : List Kind}
    (binds : ρ.Binds names ks) {us : List Value}
    (ends : Ends (Run.lookups (names.flatMap ρ.echo)) σ us σ') :
    σ = σ' ∧ ∃ ws, Ends (Run.lookups names) τ ws τ ∧ Bundled f (Serves ρ σ τ) ks us ws := by
  have reads {xs : List Name} {vs : List Value} {υ : Store Scalar} :
      Ends (Run.lookups xs) σ vs υ ↔ List.Forall₂ (fun x v => σ.vars.find? x = some v) xs vs ∧ σ = υ :=
    ends_reads fun _ _ _ _ => ends_lookup ..
  obtain ⟨found, rfl⟩ := reads.mp ends
  refine ⟨rfl, ?_⟩
  clear ends
  induction binds generalizing us with
  | nil =>
    obtain rfl := List.forall₂_nil_left_iff.mp found
    exact ⟨[], (ends_pure ..).mpr ⟨rfl, rfl⟩, .nil⟩
  | @cons x k names ks holds rest ih =>
    rw [List.flatMap_cons] at found
    obtain ⟨vs, us, rfl, here, others⟩ := forall₂_append_left found
    obtain ⟨ws, ran, bundled⟩ := ih others
    have first : ∃ v, σ.vars.find? x = some v := by
      cases holds with
      | plain role =>
        rw [Roles.echo_plain role] at here
        obtain ⟨v, _, read, -, -⟩ := List.forall₂_cons_left_iff.mp here
        exact ⟨v, read⟩
      | handle role =>
        rw [Roles.echo_handle role] at here
        obtain ⟨v, _, read, -, -⟩ := List.forall₂_cons_left_iff.mp here
        exact ⟨v, read⟩
    obtain ⟨v, read⟩ := first
    obtain ⟨vs', w, mirrors, shown, stands⟩ := accord.held x k holds v read
    obtain rfl : vs = vs' := by
      have same : (ρ.echo x).map σ.vars.find? = vs.map some := by
        rw [← List.forall₂_eq_eq_eq, List.forall₂_map_left_iff, List.forall₂_map_right_iff]
        exact here
      exact List.map_injective_iff.mpr (Option.some_injective _) (same.symm.trans shown)
    refine ⟨w :: ws, ?_, .cons mirrors bundled⟩
    simp only [Run.lookups, List.mapM_cons, ends_bind, ends_lookup, ends_pure]
    exact ⟨w, τ, ⟨stands, rfl⟩, ws, τ, ran, rfl, rfl⟩

theorem Accord.loop (accord : Accord ρ f σ τ) (coherent : ρ.Coherent) (seen : Dual.Seen f place)
    (simulates : Simulates ρ f place fuel) {merge merge' : List (Param × Operand)} {counter : Name}
    {w : IntWidth} {limit : Operand} {rows rows' : List (Param × Name)} {b b' : Body}
    {ks : List Kind} {names : List Name} (known : ∀ z ∈ limit.names, ρ.Knows z)
    (binds : ρ.Binds names ks) (params : ρ.Binds (merge.map (·.1.name)) ks)
    (inits : ρ.Bundles ks (merge.map (·.2)) (merge'.map (·.2)))
    (params' : merge'.map (·.1.name) = (merge.map (·.1.name)).flatMap ρ.echo)
    (counts : ρ counter = some (.still (.int w))) (rowed : ρ.Rows rows rows')
    (inside : b.Echoes ρ .bundled ks b') {us : List Value}
    (ends : Ends (exp (runBody fuel) fuel (.loop merge' (.forBelow counter w limit rows') b')) σ us σ') :
    BindsTo ρ f σ τ names (names.flatMap ρ.echo) us σ'
      (Placed.exp place (Placed.runBody place fuel) fuel
        (.loop merge (.forBelow counter w limit rows) b)) := by
  simp only [exp, Run.loop, params', ends_bind, exists_unit, ends_bindNames] at ends
  obtain ⟨vs, _, read, _, ⟨-, rfl⟩, us₁, _, looked, n, _, isInt, υ', ran, last⟩ := ends
  obtain ⟨found, rfl⟩ := ends_operands.mp read
  obtain ⟨ws, here, bundled⟩ :=
    accord.results coherent seen (show Arrangement.bundled.Holds ρ ks _ _ from inits) found
  obtain ⟨started, -, count⟩ := accord.binds coherent params bundled
  obtain ⟨rfl, us', looked', tabled⟩ := started.tables coherent seen rowed looked
  obtain ⟨rfl, isInt'⟩ := started.int seen known isInt
  obtain ⟨τ₁, ran', went⟩ := started.rounds coherent seen simulates params counts tabled inside ran
  obtain ⟨rfl, ws', last', values⟩ := went.accord.lookups params last
  have persists : Persists ρ f σ τ υ' τ₁ := ⟨went.accord, went.more, went.more'⟩
  refine ⟨ws', τ₁, ?_, (went.accord.binds coherent binds values).2.2,
    persists.binds coherent binds values⟩
  simp only [Placed.exp, exp, Run.loop, ends_bind, exists_unit, ends_bindNames]
  exact ⟨ws, τ, ends_operands.mpr ⟨here, rfl⟩, _, ⟨count, rfl⟩, us', _, looked', n, _, isInt', τ₁,
    ran', last'⟩

end Cotangent
