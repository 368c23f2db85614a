import Cotangent.Proofs.Regions.Bodies
import Cotangent.Proofs.Regions.Program
import Cotangent.Proofs.Derivative.Transposition
import Cotangent.Proofs.Scope.Reserve
/-!
Forward differentiation through accumulator regions computes dual numbers. The bundled derivative of a
lambda holds both parts of what the lambda computes over dual numbers, where the operators of its regions
see the positions of updates as plain numbers.
-/
namespace Cotangent

open Outline Run ScalarAlgebra

/-! The two runs that are followed. -/

namespace Dual

/-- A position picks an element, and does not change. -/
def unchanging (d : Dual) : Dual := .constant d.primal

theorem plain_eq_ok {γ : Type} {x : Except Fault γ} {a : γ} (done : plain x = .ok a) : x = .ok a := by
  cases x with
  | ok b => exact congrArg Except.ok (Except.ok.inj done)
  | error e => exact absurd done (by simp [plain])

theorem paired_eq_ok {v : Scalar} {tangent : Option Scalar} {d : Dual} (done : paired v tangent = .ok d) :
    d.primal = v := by
  cases tangent with
  | some dv => rw [← Except.ok.inj done]
  | none => exact absurd done (by simp [paired])

/-- The run over dual numbers. -/
theorem seen_whole : Seen id (Value.map unchanging) where
  constant _ := rfl
  primal _ := rfl
  binary _ _ _ _ done := done
  compare _ _ _ _ done := by
    show plain _ = _
    rw [id, id, done]
    rfl
  place _ := rfl

/-- The plain run. -/
theorem seen_primal : Seen primal id where
  constant _ := rfl
  primal _ := rfl
  binary op x y d done := by
    obtain ⟨v, applied, made⟩ := (except_bind_ok ..).mp
      (show (plain (op.apply x.primal y.primal) >>= fun v => paired v (binaryTangent op x y)) = .ok d
        from done)
    rw [paired_eq_ok made]
    exact plain_eq_ok applied
  compare _ _ _ _ done := done
  place _ := rfl

end Dual

namespace Roles

/-- Nothing has a role at the start. -/
theorem sound_start (l : Lambda) (s : Supply) :
    Sound (s.reserve l).next (fun _ => none) ⟨.ofSupply (s.reserve l), .empty⟩ where
  coherent _ _ _ role := by simp at role
  reserved := Nat.le_refl _
  past _ _ := rfl
  apart _ _ := rfl

end Roles

/-- The bundled derivative of a lambda echoes it. -/
theorem Lambda.RegionCode.echoes {κ : Name → Kind} {l out : Lambda} (code : l.RegionCode κ)
    (valid : l.validate = .ok ()) (once : l.outline.binders.Nodup) {s : Supply}
    (made : (l.forwardBundled .standard s).1 = .ok out) :
    ∃ ρ : Roles, ρ.Coherent ∧ ρ.Binds (l.params.map (·.name)) (l.params.map (·.ty.kind)) ∧
      out.params.map (·.name) = (l.params.map (·.name)).flatMap ρ.echo ∧
      l.body.Echoes ρ .bundled (l.ret.map Ty.kind) out.body := by
  have fresh : Roles.Unborn (s.reserve l).next (fun _ => none) l.outline.binders :=
    fun x mem => ⟨rfl, binder_lt s l mem⟩
  have sound := Roles.sound_start l s
  obtain ⟨t, gives⟩ := (Diff.gives_start ..).mp made
  obtain ⟨-, accepted, -⟩ := (accepted_lambda l []).mp ((validate_iff l).mp valid)
  obtain ⟨ps, ⟨ss, result⟩, ret⟩ := l
  let b : Body := ⟨ss, result⟩
  have order : (Lambda.mk ps b ret).outline.binders = ps.map (·.name) ++ b.outline.binders := by
    simp [Lambda.outline]
  rw [order] at once fresh
  simp only [Forward.top, Diff.gives_bind, Diff.gives_pure] at gives
  obtain ⟨⟨⟩, _, declared, wide, _, forParams, b', _, inBody, rfl, rfl⟩ := gives
  have binding := Roles.params_binding sound (fun x mem => fresh x (List.mem_append_left _ mem))
    (List.nodup_append.mp once).1 code.params declared forParams
  have inside : Roles.PreparesBody (s.reserve ⟨ps, b, ret⟩).next κ _ _ _ b _ _ :=
    Roles.body_prepares b code.body accepted (List.nodup_append.mp once).2.1
  obtain ⟨ρ, _, -, sound', -, -, echoes⟩ :=
    binding.inside (inside.mono (fun _ => Roles.mem_scope_of_params) fun _ _ known => known) sound
      (by simp [Roles.Served]) fresh once inBody
  obtain ⟨-, ⟨binds, named⟩, echo⟩ := echoes ρ (.refl ρ)
  exact ⟨ρ, sound'.coherent, binds, named, echo⟩

/-! Arguments and results. -/

theorem map_map_id {α : Type} (vs : List (Value α)) : vs.map (Value.map id) = vs := by
  rw [funext Value.map_id, List.map_id']

/-- A value followed by its tangent. -/
def Value.both (d : Value Dual) : List Value := [d.map Dual.primal, d.map Dual.tangent]

/-- An accumulator of all arrays and then their tangents. -/
def Value.grouped : Value Dual → Value
  | .acc id arrays => .acc id (primals arrays ++ changes arrays)
  | d => d.map Dual.primal

/-- How a result of the type is laid out. -/
def Ty.parts (t : Ty) (d : Value Dual) : List Value := if t.isAcc then [d.grouped] else d.both

/-- Values of the types of the parameters, with tangents of the same types. -/
def Lambda.Takes (l : Lambda) (ds : List (Value Dual)) : Prop :=
  List.Forall₂ (fun p d => ∃ t, p.ty.elem? = some t ∧ d.Every (Dual.Of t)) l.params ds

section

variable {α : Type} {f : Dual → α} {serves serves' : Nat → List ScalarType → Prop}

theorem bundled_arguments {ps : List Param} {ds : List (Value Dual)}
    (typed : List.Forall₂ (fun p d => ∃ t, p.ty.elem? = some t ∧ d.Every (Dual.Of t)) ps ds) :
    Bundled f serves (ps.map (·.ty.kind)) (ds.flatMap Value.both) (ds.map (Value.map f)) := by
  induction typed with
  | nil => exact .nil
  | @cons p d ps ds typed rest ih =>
    obtain ⟨t, elem, fits⟩ := typed
    have kind : p.ty.kind = .leaves t := by
      cases ty : p.ty <;> simp_all [Ty.elem?, Ty.kind]
    rw [List.map_cons, kind]
    exact .cons (.leaves fits) ih

theorem Bundled.parts {ts : List Ty} {us : List Value} {ds : List (Value Dual)}
    (bundled : Bundled id serves (ts.map Ty.kind) us ds) : us = (List.zipWith Ty.parts ts ds).flatten := by
  induction ts generalizing us ds with
  | nil =>
    cases bundled
    rfl
  | cons t ts ih =>
    cases bundled with
    | @cons _ _ us vs d ds here rest =>
      rw [List.zipWith_cons_cons, List.flatten_cons, ← ih rest]
      congr 1
      cases acc : t.isAcc with
      | true =>
        obtain ⟨types, kind⟩ := Ty.kind_of_acc acc
        rw [kind] at here
        cases here
        simp [Ty.parts, acc, Value.grouped, map_map_id]
      | false =>
        obtain ⟨type, kind⟩ := Ty.kind_of_value acc
        rw [kind] at here
        cases here
        simp [Ty.parts, acc, Value.both, Value.map_id]

theorem Bundled.uncons {k : Kind} {ks : List Kind} {us : List Value} {ws : List (Value α)}
    (bundled : Bundled f serves (k :: ks) us ws) :
    ∃ here rest w ws', us = here ++ rest ∧ ws = w :: ws' ∧ Mirrors f serves k here w ∧
      Bundled f serves ks rest ws' := by
  cases bundled with
  | cons here rest => exact ⟨_, _, _, _, rfl, rfl, here, rest⟩

/-- What a plain run holds where a run over dual numbers holds these. -/
theorem Bundled.primal {ks : List Kind} {us : List Value} {ds : List (Value Dual)} {vs : List Value}
    (whole : Bundled id serves ks us ds) (plain : Bundled Dual.primal serves' ks us vs) :
    vs = primals ds := by
  induction ks generalizing us ds vs with
  | nil =>
    cases whole
    cases plain
    rfl
  | cons k ks ih =>
    obtain ⟨here, rest, d, ds, rfl, rfl, first, others⟩ := whole.uncons
    obtain ⟨here', rest', v, vs, same, rfl, first', others'⟩ := plain.uncons
    cases first with
    | @leaves t d fits =>
      cases first' with
      | @leaves _ d' fits' =>
        simp only [List.cons_append, List.nil_append, List.cons.injEq] at same
        obtain ⟨isPrimal, -, rfl⟩ := same
        simp [ih others others', Value.map_id, isPrimal]
    | @handle ts i ds fits served =>
      cases first' with
      | @handle _ j ds' fits' served' =>
        simp only [List.cons_append, List.nil_append, List.cons.injEq, Value.acc.injEq] at same
        obtain ⟨⟨rfl, arrays⟩, rfl⟩ := same
        have counts : (primals ds).length = (primals ds').length := by
          simpa using fits.length_eq.symm.trans fits'.length_eq
        obtain ⟨arePrimals, -⟩ := List.append_inj arrays counts
        simp [ih others others', map_map_id, Value.map, ← arePrimals]

end

/-! Whole runs. -/

theorem Store.accord_initial {α : Type} (ρ : Roles) (f : Dual → α) :
    Accord ρ f Store.initial Store.initial where
  held _ _ _ _ found := by simp [Store.initial, NameTable.find_empty] at found
  still _ _ _ _ found := by simp [Store.initial, NameTable.find_empty] at found
  zero _ _ _ _ found := by simp [Store.initial, NameTable.find_empty] at found
  counts := rfl

theorem interpPlaced_ok {α : Type} [ScalarAlgebra α] (place : Value α → Value α) (l : Lambda)
    (args vs : List (Value α)) (fuel : Nat) :
    l.interpPlaced place args fuel = some (.ok vs) ↔
      ∃ τ, Ends (applyLambda (Placed.runBody place fuel) l args) Store.initial vs τ :=
  Run.result_ok ..

/-- Where the derivative ends, the source ends as well, and what they come to is laid out alike. -/
theorem Lambda.follows {α : Type} [ScalarAlgebra α] {f : Dual → α} {place : Value α → Value α}
    (seen : Dual.Seen f place) {ρ : Roles} (coherent : ρ.Coherent) {l out : Lambda} {ks : List Kind}
    (binds : ρ.Binds (l.params.map (·.name)) (l.params.map (·.ty.kind)))
    (named : out.params.map (·.name) = (l.params.map (·.name)).flatMap ρ.echo)
    (echoes : l.body.Echoes ρ .bundled ks out.body) {ds : List (Value Dual)} (takes : l.Takes ds)
    {fuel : Nat} {us : List Value} (ran : out.interp (ds.flatMap Value.both) fuel = some (.ok us)) :
    ∃ ws serves, l.interpPlaced place (ds.map (Value.map f)) fuel = some (.ok ws) ∧
      Bundled f serves ks us ws := by
  obtain ⟨σ, ends⟩ := (interp_ok ..).mp ran
  simp only [applyLambda, ends_bind, exists_unit, ends_bindNames, named] at ends
  obtain ⟨_, ⟨-, rfl⟩, ran⟩ := ends
  obtain ⟨started, -, count⟩ :=
    (Store.accord_initial ρ f).binds coherent binds (bundled_arguments takes)
  obtain ⟨ws, τ, ran', -, values⟩ := simulates coherent seen fuel _ _ _ _ echoes _ _ _ _ started ran
  refine ⟨ws, _, (interpPlaced_ok ..).mpr ⟨τ, ?_⟩, values⟩
  simp only [applyLambda, ends_bind, exists_unit, ends_bindNames]
  exact ⟨_, ⟨count, rfl⟩, ran'⟩

/-- The bundled derivative computes dual numbers. Each result comes with its tangent, and its accumulators
    hold their tangents beside their arrays; a plain run of the source computes the primal parts. -/
theorem Lambda.RegionCode.bundled_duals {κ : Name → Kind} {l out : Lambda} (code : l.RegionCode κ)
    (valid : l.validate = .ok ()) (once : l.outline.binders.Nodup) {s : Supply}
    (made : (l.forwardBundled .standard s).1 = .ok out) {ds : List (Value Dual)} (takes : l.Takes ds)
    {fuel : Nat} {us : List Value} (ran : out.interp (ds.flatMap Value.both) fuel = some (.ok us)) :
    ∃ ws, l.interpPlaced (Value.map Dual.unchanging) ds fuel = some (.ok ws) ∧
      l.interp (primals ds) fuel = some (.ok (primals ws)) ∧
      us = (List.zipWith Ty.parts l.ret ws).flatten := by
  obtain ⟨ρ, coherent, binds, named, echoes⟩ := code.echoes valid once made
  -- The derivative is followed twice: by the run over dual numbers and by the plain one.
  obtain ⟨ws, _, whole, bundled⟩ := Lambda.follows Dual.seen_whole coherent binds named echoes takes ran
  obtain ⟨vs, _, plain, bundled'⟩ := Lambda.follows Dual.seen_primal coherent binds named echoes takes ran
  rw [map_map_id] at whole
  rw [Lambda.interpPlaced_id, bundled.primal bundled'] at plain
  exact ⟨ws, whole, plain, bundled.parts⟩

/-- An update at a parameter, under an operator that adds its position to a product. -/
def movedProduct : Lambda :=
  let t : Ty := .scalar (.int .i64)
  let row : Ty := .array (.int .i64) [.const (.int .i64 1)] false
  let handle : Ty := .acc ⟨6⟩ [.const (.int .i64 1)] [t] false
  let op : Lambda := ⟨[⟨⟨3⟩, t⟩, ⟨⟨4⟩, t⟩, ⟨⟨5⟩, t⟩],
    ⟨[⟨[⟨⟨8⟩, t⟩], .none, .basic (.binary (.int .mul .i64) (.var ⟨4⟩) (.var ⟨5⟩))⟩,
      ⟨[⟨⟨9⟩, t⟩], .none, .basic (.binary (.int .add .i64) (.var ⟨8⟩) (.var ⟨3⟩))⟩],
      [.var ⟨9⟩]⟩, [t]⟩
  ⟨[⟨⟨0⟩, row⟩, ⟨⟨1⟩, t⟩],
    ⟨[⟨[⟨⟨2⟩, row⟩], .none,
        .withAcc [⟨[.const (.int .i64 1)], [⟨0⟩], some ⟨op, [.const (.int .i64 1)]⟩⟩]
        ⟨[⟨⟨6⟩, handle⟩],
          ⟨[⟨[⟨⟨7⟩, handle⟩], .none, .basic (.updateAcc ⟨6⟩ [.var ⟨1⟩] [.const (.int .i64 5)])⟩],
            [.var ⟨7⟩]⟩, [handle]⟩⟩],
      [.var ⟨2⟩]⟩, [row]⟩

namespace movedProduct

def kinds (x : Name) : Kind := if x.id ∈ [6, 7] then .handle [.int .i64] else .leaves (.int .i64)

/-- A row and a position, which both change. -/
def arguments : List (Value Dual) :=
  [.array [.scalar ⟨.int .i64 3, .int .i64 1⟩], .scalar ⟨.int .i64 0, .int .i64 1⟩]

theorem code : movedProduct.RegionCode kinds where
  params := by simp [Kinded, movedProduct, kinds, Ty.kind]
  body := by
    simp [movedProduct, kinds, Ty.kind, Body.RegionCode, StmsRegionCode, Stm.RegionCode,
      Exp.RegionCode, AccInputsCode, BasicOp.RegionCode, Kinded, AccInput.leaves, Kind.leaf?,
      Operand.kind, Ty.elem?, Scalar.ty]

theorem takes : movedProduct.Takes arguments := by
  simp [Lambda.Takes, movedProduct, arguments, Ty.elem?, Dual.Of, Scalar.ty]

theorem runs : ∃ out us, (movedProduct.forwardBundled .standard ⟨0⟩).1 = .ok out ∧
    out.interp (arguments.flatMap Value.both) 5 = some (.ok us) := by
  have ends : runsOn (arguments.flatMap Value.both) 5
      (movedProduct.forwardBundled .standard ⟨0⟩).1 = true := by decide +kernel
  cases made : (movedProduct.forwardBundled .standard ⟨0⟩).1 with
  | error e => simp [made, runsOn] at ends
  | ok out =>
    obtain ⟨us, ran⟩ := interp_of_runsOn _ _ ends made
    exact ⟨out, us, rfl, ran⟩

theorem bundled_duals_hold : (movedProduct.RegionCode kinds ∧
    movedProduct.validate = .ok () ∧ movedProduct.outline.binders.Nodup ∧
    movedProduct.Takes arguments) ∧
    ∃ out us, (movedProduct.forwardBundled .standard ⟨0⟩).1 = .ok out ∧
      out.interp (arguments.flatMap Value.both) 5 = some (.ok us) ∧
      ∃ ws, movedProduct.interpPlaced (Value.map Dual.unchanging) arguments 5 = some (.ok ws) ∧
        movedProduct.interp (primals arguments) 5 = some (.ok (primals ws)) ∧
        us = (List.zipWith Ty.parts movedProduct.ret ws).flatten := by
  obtain ⟨out, us, made, ran⟩ := runs
  have valid : movedProduct.validate = .ok () := by decide
  have once : movedProduct.outline.binders.Nodup := by decide
  exact ⟨⟨code, valid, once, takes⟩, out, us, made, ran, code.bundled_duals valid once made takes ran⟩

/-- Over dual numbers the position that the operator adds would bring its own change along. The derivative
    adds the plain position, and its tangent is smaller by one. -/
theorem position_tangent_dropped : (movedProduct.RegionCode kinds ∧
    movedProduct.validate = .ok () ∧ movedProduct.outline.binders.Nodup ∧
    movedProduct.Takes arguments) ∧
    ∃ out us ws, (movedProduct.forwardBundled .standard ⟨0⟩).1 = .ok out ∧
      out.interp (arguments.flatMap Value.both) 5 = some (.ok us) ∧
      movedProduct.interp arguments 5 = some (.ok ws) ∧
      us = [.array [.scalar (.int .i64 15)], .array [.scalar (.int .i64 5)]] ∧
      (List.zipWith Ty.parts movedProduct.ret ws).flatten =
        [.array [.scalar (.int .i64 15)], .array [.scalar (.int .i64 6)]] := by
  obtain ⟨out, us, made, ran⟩ := runs
  have valid : movedProduct.validate = .ok () := by decide
  have once : movedProduct.outline.binders.Nodup := by decide
  have literal : movedProduct.interp arguments 5 =
      some (.ok [.array [.scalar ⟨.int .i64 15, .int .i64 6⟩]]) := rfl
  have placed : movedProduct.interpPlaced (Value.map Dual.unchanging) arguments 5 =
      some (.ok [.array [.scalar ⟨.int .i64 15, .int .i64 5⟩]]) := rfl
  -- What the derivative comes to is read off the run in which positions stand still.
  obtain ⟨ρ, coherent, binds, named, echoes⟩ := code.echoes valid once made
  obtain ⟨ws, _, whole, bundled⟩ := Lambda.follows Dual.seen_whole coherent binds named echoes takes ran
  rw [map_map_id, placed] at whole
  obtain rfl := Except.ok.inj (Option.some.inj whole)
  exact ⟨⟨code, valid, once, takes⟩, out, us, _, made, ran, literal, bundled.parts, rfl⟩

end movedProduct

end Cotangent
