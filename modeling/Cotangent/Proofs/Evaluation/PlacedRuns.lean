import Cotangent.Proofs.Evaluation.Ends
import Cotangent.Proofs.Evaluation.ScalarRuns
/-!
Runs in which the operator of an accumulator does not get the position of an update as it stands, but what
`place` makes of it. With nothing made of it these are the runs of the language. Over scalars that carry
more than themselves, `place` says what an operator sees of the rest: the position picks the elements
that are combined, and is no value that was written.
-/
namespace Cotangent

namespace Run.Placed

open ScalarAlgebra

variable {α : Type} [ScalarAlgebra α] (place : Value α → Value α)

/-- What an operator makes of old values and new ones; without one these are the new ones. -/
def combined (run : Body → Run α (List (Value α))) (op : Option Lambda) (idx old vs : List (Value α)) :
    Run α (List (Value α)) :=
  match op with
  | some op => applyLambda run op (idx.map place ++ old ++ vs)
  | none => pure vs

/-- An update outside the arrays changes nothing. -/
def updateAcc (run : Body → Run α (List (Value α))) (acc : Name) (position values : List Operand) :
    Run α (Value α) := do
  match ← lookup acc with
  | .acc id arrays =>
    let idx ← operands position
    let ds ← fixedDims idx
    let vs ← operands values
    match ← inBounds (arrays.mapM (Value.index ds)) with
    | none => return .acc id arrays
    | some old =>
      let new ← combined place run ((← get).combiners[id]?).join idx old vs
      checkArity (α := α) arrays.length new.length
      let arrays ← (arrays.zip new).mapM fun p => Value.update (α := α) ds p.1 p.2
      return .acc id arrays
  | v => throw (.mismatch .accumulator v)

def exp (run : Body → Run α (List (Value α))) (fuel : Nat) : Exp → Run α (List (Value α))
  | .basic (.updateAcc acc position values) => do
    return [← updateAcc place run acc position values]
  | e => Run.exp run fuel e

def stm (run : Body → Run α (List (Value α))) (fuel : Nat) (s : Stm) : Run α Unit := do
  Run.bind (s.pat.map (·.name)) (← exp place run fuel s.exp)

def runBody : Nat → Body → Run α (List (Value α))
  | 0, _ => outOfFuel
  | fuel + 1, b => do
    b.stms.forM (stm place (runBody fuel) fuel)
    operands b.result

def stms (fuel : Nat) (ss : List Stm) : Run α Unit :=
  ss.forM (stm place (runBody place fuel) fuel)

@[simp] theorem ends_stms_nil (fuel : Nat) (σ τ : Store α) :
    Ends (stms place fuel []) σ () τ ↔ σ = τ := by
  simp [stms]

@[simp] theorem ends_stms_cons (fuel : Nat) (s : Stm) (ss : List Stm) (σ υ : Store α) :
    Ends (stms place fuel (s :: ss)) σ () υ ↔
      ∃ τ, Ends (stm place (runBody place fuel) fuel s) σ () τ ∧
        Ends (stms place fuel ss) τ () υ := by
  simp [stms]

theorem ends_stm (run : Body → Run α (List (Value α))) (fuel : Nat) (s : Stm) (σ υ : Store α) :
    Ends (stm place run fuel s) σ () υ ↔ ∃ vs τ, Ends (exp place run fuel s.exp) σ vs τ ∧
      vs.length = s.pat.length ∧ τ.bound (s.pat.map (·.name)) vs = υ := by
  simp [stm]

theorem ends_runBody (fuel : Nat) (b : Body) (σ υ : Store α) (vs : List (Value α)) :
    Ends (runBody place fuel b) σ vs υ ↔ ∃ below τ, fuel = below + 1 ∧
      Ends (stms place below b.stms) σ () τ ∧ Ends (operands b.result) τ vs υ := by
  cases fuel with
  | zero => simp [runBody]
  | succ below =>
    simp only [runBody, stms, ends_bind, exists_unit]
    constructor
    · rintro ⟨τ, ran, read⟩
      exact ⟨below, τ, rfl, ran, read⟩
    · rintro ⟨_, τ, same, ran, read⟩
      obtain rfl := Nat.succ.inj same
      exact ⟨τ, ran, read⟩

/-- What an update comes to, from the arrays and from what its position and its values stand for. -/
inductive Updates (run : Body → Run α (List (Value α))) (σ : Store α) (id : Nat)
    (arrays idx : List (Value α)) (ds : List Dim) (vs : List (Value α)) :
    List (Value α) → Store α → Prop
  | outside (beyond : inBounds (arrays.mapM (Value.index ds)) = .ok none) :
    Updates run σ id arrays idx ds vs arrays σ
  | inside {old new outs : List (Value α)} {τ : Store α}
    (read : inBounds (arrays.mapM (Value.index ds)) = .ok (some old))
    (combines : Ends (combined place run (σ.combiners[id]?).join idx old vs) σ new τ)
    (count : new.length = arrays.length)
    (written : List.Forall₂ (fun p v => Value.update ds p.1 p.2 = .ok v) (arrays.zip new) outs) :
    Updates run σ id arrays idx ds vs outs τ

theorem ends_updateAcc {run : Body → Run α (List (Value α))} {acc : Name}
    {position values : List Operand} {σ υ : Store α} {v : Value α} :
    Ends (updateAcc place run acc position values) σ v υ ↔
      ∃ id arrays idx ds vs outs, σ.vars.find? acc = some (.acc id arrays) ∧
        List.Forall₂ (fun x v => σ.value x = some v) position idx ∧ fixedDims idx = .ok ds ∧
        List.Forall₂ (fun x v => σ.value x = some v) values vs ∧
        Updates place run σ id arrays idx ds vs outs υ ∧ v = .acc id outs := by
  have writes {ds : List Dim} {ps : List (Value α × Value α)} {outs : List (Value α)} {σ τ : Store α} :
      Ends (ps.mapM fun p => liftM (Value.update ds p.1 p.2) : Run α (List (Value α))) σ outs τ ↔
        List.Forall₂ (fun p v => Value.update ds p.1 p.2 = .ok v) ps outs ∧ σ = τ :=
    ends_reads fun _ _ _ _ => ends_lift ..
  simp only [updateAcc, ends_bind, ends_lookup]
  constructor
  · rintro ⟨w, _, ⟨found, rfl⟩, ends⟩
    cases w with
    | acc id arrays =>
      simp only [ends_bind, ends_operands, ends_lift] at ends
      obtain ⟨idx, _, ⟨readIdx, rfl⟩, ds, _, ⟨fixed, rfl⟩, vs, _, ⟨readVs, rfl⟩, r, _, ⟨read, rfl⟩,
        ends⟩ := ends
      cases r with
      | none =>
        obtain ⟨rfl, rfl⟩ := (ends_pure ..).mp ends
        exact ⟨id, arrays, idx, ds, vs, arrays, found, readIdx, fixed, readVs, .outside read, rfl⟩
      | some old =>
        simp only [ends_bind, ends_get, ends_checkArity, ends_pure, writes] at ends
        obtain ⟨_, _, ⟨rfl, rfl⟩, new, τ, combines, _, _, ⟨count, rfl⟩, outs, _, ⟨written, rfl⟩, rfl,
          rfl⟩ := ends
        exact ⟨id, arrays, idx, ds, vs, outs, found, readIdx, fixed, readVs,
          .inside read combines count written, rfl⟩
    | scalar a => exact (ends_throw _ _ _ _ ends).elim
    | array rows => exact (ends_throw _ _ _ _ ends).elim
  · rintro ⟨id, arrays, idx, ds, vs, outs, found, readIdx, fixed, readVs, updates, rfl⟩
    refine ⟨_, σ, ⟨found, rfl⟩, ?_⟩
    simp only [ends_bind, ends_operands, ends_lift]
    refine ⟨idx, σ, ⟨readIdx, rfl⟩, ds, σ, ⟨fixed, rfl⟩, vs, σ, ⟨readVs, rfl⟩, ?_⟩
    cases updates with
    | outside beyond => exact ⟨none, σ, ⟨beyond, rfl⟩, (ends_pure ..).mpr ⟨rfl, rfl⟩⟩
    | @inside old new _ _ read combines count written =>
      refine ⟨some old, σ, ⟨read, rfl⟩, ?_⟩
      simp only [ends_bind, ends_get, ends_checkArity, ends_pure, writes]
      exact ⟨σ, σ, ⟨rfl, rfl⟩, new, υ, combines, (), υ, ⟨count, rfl⟩, outs, υ, ⟨written, rfl⟩, rfl, rfl⟩

theorem updateAcc_id (run : Body → Run α (List (Value α))) (acc : Name)
    (position values : List Operand) :
    updateAcc id run acc position values = Run.updateAcc run acc position values := by
  refine bind_congr fun v => ?_
  cases v with
  | acc id arrays =>
    refine bind_congr fun idx => bind_congr fun ds => bind_congr fun vs => bind_congr fun r => ?_
    cases r with
    | none => rfl
    | some old =>
      refine bind_congr fun σ => ?_
      simp only [combined, List.map_id]
      cases σ.combiners[id]?.join <;> rfl
  | scalar a => rfl
  | array rows => rfl

theorem exp_id (run : Body → Run α (List (Value α))) (fuel : Nat) (e : Exp) :
    exp id run fuel e = Run.exp run fuel e := by
  unfold exp
  split
  · rw [updateAcc_id]
    rfl
  · rfl

theorem runBody_id (fuel : Nat) (b : Body) :
    (runBody id fuel b : Run α (List (Value α))) = Run.runBody fuel b := by
  induction fuel generalizing b with
  | zero => rfl
  | succ fuel ih =>
    have same : (runBody id fuel : Body → Run α (List (Value α))) = Run.runBody fuel := funext ih
    have steps : (stm id (Run.runBody fuel) fuel : Stm → Run α Unit) =
        Run.stm (Run.runBody fuel) fuel := by
      funext s
      rw [stm, exp_id, Run.stm]
    rw [runBody, Run.runBody, same, steps]

end Run.Placed

/-- The results of a lambda whose operators see positions through `place`. -/
def Lambda.interpPlaced {α : Type} [ScalarAlgebra α] (place : Value α → Value α) (l : Lambda)
    (args : List (Value α)) (fuel : Nat) : Option (Except (Fault α) (List (Value α))) :=
  (Run.applyLambda (Run.Placed.runBody place fuel) l args).run' Store.initial

/-- Where operators see positions as they are, the run is that of the language. -/
theorem Lambda.interpPlaced_id {α : Type} [ScalarAlgebra α] (l : Lambda) (args : List (Value α))
    (fuel : Nat) : l.interpPlaced id args fuel = l.interp args fuel := by
  have same : (Run.Placed.runBody id fuel : Body → Run α (List (Value α))) = Run.runBody fuel :=
    funext (Run.Placed.runBody_id fuel)
  rw [interpPlaced, same, interp]

end Cotangent
