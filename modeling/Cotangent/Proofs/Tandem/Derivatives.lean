import Cotangent.Proofs.Tandem.Program
/-!
Forward differentiation of whole programs without accumulators. What it makes of a program shadows the
program twice over: a run of it computes what the source computes, and it computes the changes that a run of
the source over dual numbers computes.
-/
namespace Cotangent

open Diff Run Outline ScalarAlgebra

/-- A valid program without accumulators that binds every name once, with its declared type, and whose
    scatters deal out what they return. -/
structure Lambda.Ordinary (decl : Name → Ty) (l : Lambda) : Prop where
  valid : l.validate = .ok ()
  once : l.outline.binders.Nodup
  params : Tandem.Declared decl l.params
  parts : ∀ part ∈ l.parts, part.Ordinary decl

namespace Tandem

theorem view_primal : View Dual.primal where
  constant _ := rfl
  primal _ := rfl
  compare _ _ _ _ known := known
  convert _ _ _ _ known _ := known

theorem plain_primal : Plain Dual.primal where
  blind _ _ := rfl
  unary _ _ _ _ known := known
  binary _ _ _ _ _ known := known
  call _ _ _ _ known := known
  member _ _ _ _ _ := rfl

theorem view_whole : View (id : Dual → Dual) where
  constant _ := rfl
  primal _ := rfl
  compare op a b r known := by
    show Dual.plain (op.apply a.primal b.primal) = .ok r
    rw [known]
    rfl
  convert op a r t known known' := by
    show (do
      let v ← Dual.plain (op.apply a.primal)
      let dv ← Dual.plain (op.apply a.tangent)
      return (⟨v, dv⟩ : Dual)) = _
    rw [known, known']
    rfl

theorem whole_dual : Whole .standard (id : Dual → Dual) where
  standard := rfl
  unary op a r t known known' := by
    show (do Dual.paired (← Dual.plain (op.apply a.primal)) (Dual.unaryTangent op a)) = _
    rw [known, known']
    rfl
  binary op a b r t known known' := by
    show (do Dual.paired (← Dual.plain (op.apply a.primal b.primal)) (Dual.binaryTangent op a b)) = _
    rw [known, known']
    rfl
  member _ _ _ _ := rfl

section

variable {α : Type} [ScalarAlgebra α] {f : Dual → α} {decl : Name → Ty} {rules : Rules} {l out : Lambda}
  {lay : List (Value Dual) → List Value}

theorem serves_start (decl : Name → Ty) (l : Lambda) (s : Supply) :
    Serves (s.reserve l).next decl [] [] (Forward.start l s) where
  reserved := Nat.le_refl _
  small := by simp
  typed := by simp
  drawn := by simp
  claimed := by simp
  sub := by simp

theorem awaits_start (ordinary : l.Ordinary decl) (s : Supply) :
    Awaits (s.reserve l).next [] (Forward.start l s) l.outline where
  accepted := (validate_iff l).mp ordinary.valid
  distinct := ordinary.once
  small _ := binder_lt s l
  unclaimed x _ := NameTable.find_empty x

/-- Nothing is in scope when both runs start. -/
theorem steady_initial {bound m n : Nat} {bs : List Name} {tans : NameTable Name} :
    Steady f bound [] [] bs tans m n Store.initial Store.initial Store.initial Store.initial :=
  .refl (by simp [Accord]) fun x w found => by simp [Store.initial, NameTable.find_empty] at found

/-- A run of the derivative computes dual values, which it lays out as the results were asked for. What is
    seen of them is computed by the source. -/
theorem shadows_top (view : View f) (ordinary : l.Ordinary decl)
    (traces : ∀ part ∈ l.parts, Traces rules f part.Exact) {s : Supply} {ret : List Ty}
    {result : Diff (List Operand)} (answers : Answers f (s.reserve l).next decl l.body.result result lay)
    (made : ((Forward.top rules l ret result).start (s.reserve l)).1 = .ok out) {ds : List (Value Dual)}
    {fuel : Nat} (keeps : l.KeepsTypes decl (ds.map (Value.map f)) fuel) {us : List Value}
    (ran : out.interp (doubled ds) fuel = some (.ok us)) :
    ∃ es : List (Value Dual), us = lay es ∧
      l.interp (ds.map (Value.map f)) fuel = some (.ok (es.map (Value.map f))) := by
  have serves := serves_start decl l s
  have awaits := awaits_start ordinary s
  have follows : ∀ part ∈ l.parts, Follows rules decl f part := fun part mem =>
    ⟨ordinary.parts part mem, traces part mem⟩
  have declared := ordinary.params
  obtain ⟨ps, ⟨ss, xs⟩, types⟩ := l
  simp only [Lambda.parts, Body.parts, List.forall_mem_append, List.forall_mem_cons] at follows
  obtain ⟨t, gives⟩ := (gives_start ..).mp made
  obtain ⟨-, applies⟩ := transforms_lambda view [] declared (stms_run view ss follows.1.2.2) answers [] [] [] _ _ _
    serves awaits ((gives_within ..).mpr ⟨t, gives, rfl⟩)
  obtain ⟨σ, ends⟩ := (interp_ok ..).mp ran
  have reaches (stop : Fault α) : Reaches stop (applyLambda (guardedBody (keepTypes decl stop) fuel)
      ⟨ps, ⟨ss, xs⟩, types⟩ (ds.map (Value.map f))) Store.initial fun ws _ =>
        ∃ es : List (Value Dual), us = lay es ∧ ws = es.map (Value.map f) :=
    (applies ds (by simp) _ (Later.refl _ _) stop fuel _ _ _ _ steady_initial us σ ends).mono
      fun ws _ comes => by
        obtain ⟨es, laid, seen, -⟩ := comes
        exact ⟨es, laid, seen⟩
  obtain ⟨ws, ran', es, rfl, rfl⟩ := interp_of_reaches keeps reaches
  exact ⟨es, rfl, ran'⟩

end

end Tandem

/-- The bundled derivative computes what the source computes: every other of its results is a result of the
    source, with any tangents and any rules. Where the source fails, the derivative has no results. -/
theorem Lambda.Ordinary.bundled_primals {decl : Name → Ty} {l out : Lambda} (ordinary : l.Ordinary decl)
    (rules : Rules) {s : Supply} (made : (l.forwardBundled rules s).1 = .ok out) {ds : List (Value Dual)}
    {fuel : Nat} (keeps : l.KeepsTypes decl (primals ds) fuel) {us : List Value}
    (ran : out.interp (doubled ds) fuel = some (.ok us)) :
    ∃ es : List (Value Dual), us = doubled es ∧ l.interp (primals ds) fuel = some (.ok (primals es)) :=
  Tandem.shadows_top Tandem.view_primal ordinary (fun _ _ => .inl Tandem.plain_primal)
    (Tandem.answers_bundleOperands Tandem.view_primal l.body.result) made keeps ran

/-- The squares of a row are written to its front one after the other. What is left there multiplies a
    factor in a loop, and is added up. -/
def scaledRow : Lambda :=
  let t : Ty := .scalar (.int .i64)
  let two : Operand := .const (.int .i64 2)
  let row : Ty := .array (.int .i64) [two] false
  let square : Lambda := ⟨[⟨⟨3⟩, t⟩],
    ⟨[⟨[⟨⟨4⟩, t⟩], .none, .basic (.binary (.int .mul .i64) (.var ⟨3⟩) (.var ⟨3⟩))⟩],
      [.const (.int .i64 0), .var ⟨4⟩]⟩, [t, t]⟩
  let add : Lambda := ⟨[⟨⟨11⟩, t⟩, ⟨⟨12⟩, t⟩],
    ⟨[⟨[⟨⟨13⟩, t⟩], .none, .basic (.binary (.int .add .i64) (.var ⟨11⟩) (.var ⟨12⟩))⟩], [.var ⟨13⟩]⟩, [t]⟩
  ⟨[⟨⟨0⟩, row⟩, ⟨⟨1⟩, t⟩],
    ⟨[⟨[⟨⟨2⟩, row⟩], .none, .scatter two square [⟨0⟩] [⟨[two], 1, ⟨0⟩⟩]⟩,
      ⟨[⟨⟨5⟩, t⟩], .none, .loop [(⟨⟨6⟩, t⟩, .var ⟨1⟩)] (.forBelow ⟨7⟩ .i64 two [(⟨⟨8⟩, t⟩, ⟨2⟩)])
        ⟨[⟨[⟨⟨9⟩, t⟩], .none, .basic (.binary (.int .mul .i64) (.var ⟨6⟩) (.var ⟨8⟩))⟩], [.var ⟨9⟩]⟩⟩,
      ⟨[⟨⟨10⟩, t⟩], .none, .screma two [⟨2⟩] [] [⟨true, ⟨add, [.const (.int .i64 0)]⟩⟩]
        ⟨[⟨⟨14⟩, t⟩], ⟨[], [.var ⟨14⟩]⟩, [t]⟩⟩],
      [.var ⟨5⟩, .var ⟨10⟩]⟩, [t, t]⟩

namespace scaledRow

def types (x : Name) : Ty :=
  if x.id ∈ [0, 2] then .array (.int .i64) [.const (.int .i64 2)] false else .scalar (.int .i64)

def arguments : List (Value Dual) :=
  [.array [.scalar ⟨.int .i64 3, .int .i64 1⟩, .scalar ⟨.int .i64 2, .int .i64 1⟩],
    .scalar ⟨.int .i64 5, .int .i64 1⟩]

theorem ordinary : scaledRow.Ordinary types where
  valid := by decide
  once := by decide
  params := by simp [Tandem.Declared, scaledRow, types, Ty.isAcc]
  parts := by
    simp [scaledRow, types, Lambda.parts, Body.parts, stmParts, Stm.parts, Exp.parts, loopParams, BasicOp.types,
      combinerParts, reductionParts, Combiner.parts, Part.Ordinary, Stm.ordinary_iff, Tandem.Declared,
      Exp.opens, Tandem.loopOpens, Exp.accumulates, Exp.Dealt, Ty.isAcc, scatterIndices, scatterValues, total]

theorem bundled_primals_hold : (scaledRow.Ordinary types ∧ scaledRow.KeepsTypes types (primals arguments) 4) ∧
    ∃ out us, (scaledRow.forwardBundled .standard ⟨0⟩).1 = .ok out ∧
      out.interp (doubled arguments) 4 = some (.ok us) ∧
      ∃ es, us = doubled es ∧ scaledRow.interp (primals arguments) 4 = some (.ok (primals es)) := by
  have keeps : scaledRow.KeepsTypes types (primals arguments) 4 := fun _ => rfl
  have ends : runsOn (doubled arguments) 4 (scaledRow.forwardBundled .standard ⟨0⟩).1 = true := by decide +kernel
  refine ⟨⟨ordinary, keeps⟩, ?_⟩
  cases made : (scaledRow.forwardBundled .standard ⟨0⟩).1 with
  | error e => simp [made, runsOn] at ends
  | ok out =>
    obtain ⟨us, ran⟩ := interp_of_runsOn _ _ ends made
    exact ⟨out, us, rfl, ran, ordinary.bundled_primals .standard made keeps ran⟩

end scaledRow

/-- The derivative computes dual numbers: its results are the tangents of what the source computes over
    them, where the tangents that are made of constants are right. -/
theorem Lambda.Ordinary.forward_changes {decl : Name → Ty} {l out : Lambda} (ordinary : l.Ordinary decl)
    (exact : ∀ part ∈ l.parts, part.Exact) {s : Supply} (made : (l.forward .standard s).1 = .ok out)
    {ds : List (Value Dual)} {fuel : Nat} (keeps : l.KeepsTypes decl ds fuel) {us : List Value}
    (ran : out.interp (doubled ds) fuel = some (.ok us)) :
    ∃ es : List (Value Dual), us = changes es ∧ l.interp ds fuel = some (.ok es) := by
  have keeps' : l.KeepsTypes decl (ds.map (Value.map id)) fuel := by rwa [map_map_id]
  obtain ⟨es, laid, ran'⟩ := Tandem.shadows_top Tandem.view_whole ordinary
    (fun part mem => .inr ⟨Tandem.whole_dual, exact part mem⟩)
    (Tandem.answers_tangents Tandem.view_whole l.body.result) made keeps' ran
  rw [map_map_id, map_map_id] at ran'
  exact ⟨es, laid, ran'⟩

namespace scaledRow

theorem exact : ∀ part ∈ scaledRow.parts, part.Exact := by
  simp [scaledRow, Lambda.parts, Body.parts, stmParts, Stm.parts, Exp.parts, loopParams, BasicOp.types,
    combinerParts, reductionParts, Combiner.parts, Part.Exact, Exp.Exact, BasicOp.Exact, Operand.Fits,
    operandNames, Operand.names]

theorem forward_changes_hold : (scaledRow.Ordinary types ∧ (∀ part ∈ scaledRow.parts, part.Exact) ∧
      scaledRow.KeepsTypes types arguments 4) ∧
    ∃ out us, (scaledRow.forward .standard ⟨0⟩).1 = .ok out ∧ out.interp (doubled arguments) 4 = some (.ok us) ∧
      ∃ es, us = changes es ∧ scaledRow.interp arguments 4 = some (.ok es) := by
  have keeps : scaledRow.KeepsTypes types arguments 4 := fun _ => rfl
  have ends : runsOn (doubled arguments) 4 (scaledRow.forward .standard ⟨0⟩).1 = true := by decide +kernel
  refine ⟨⟨ordinary, exact, keeps⟩, ?_⟩
  cases made : (scaledRow.forward .standard ⟨0⟩).1 with
  | error e => simp [made, runsOn] at ends
  | ok out =>
    obtain ⟨us, ran⟩ := interp_of_runsOn _ _ ends made
    exact ⟨out, us, rfl, ran, ordinary.forward_changes exact made keeps ran⟩

end scaledRow

end Cotangent
