import Cotangent.Proofs.Tandem.Derivatives
/-!
Streams of constant width, inlined. The lambda of a stream gets one chunk that spans every row, so its body may stand
in place of the stream, between statements that copy the arguments to its parameters and the results to the
pattern. Neither the program nor its derivative computes anything else then, if the stream starts from constants.
-/
namespace Cotangent

open Run ScalarAlgebra

/-- Copies operands to names, one after the other. -/
def copies (ps : List Param) (xs : List Operand) : List Stm :=
  List.zipWith (fun p x => ⟨[p], .none, .basic (.operand x)⟩) ps xs

/-- What a stream of constant width hands to its lambda. -/
def chunkArguments (n : Int) (inits : List Operand) (arrays : List Name) : List Operand :=
  .const (.int .i64 n) :: (inits ++ arrays.map .var)

/-- The statements that may take the place of a stream. No result is read under a name that was just bound in
    the pattern, as is the case where every name is bound once. -/
inductive Inlines : Stm → List Stm → Prop
  | stream {pat : List Param} (aux : Annotations) {n : Int} {arrays : List Name} (form : StreamForm)
      {inits : List Operand} {ps : List Param} {ss : List Stm} {result : List Operand} (ret : List Ty)
      (count : ps.length = (chunkArguments n inits arrays).length) (count' : pat.length = result.length)
      (apart : ∀ p ∈ pat, p.name ∉ operandNames result) :
      Inlines ⟨pat, aux, .stream (.const (.int .i64 n)) arrays form inits ⟨ps, ⟨ss, result⟩, ret⟩⟩
        (copies ps (chunkArguments n inits arrays) ++ (ss ++ copies pat result))

namespace Run

section

variable {α : Type} [ScalarAlgebra α] {ps : List Param} {xs : List Operand} {keep scope : Scope}

/-- The copies bind what the operands stand for. -/
theorem ends_copies (fuel : Nat) (count : ps.length = xs.length) (apart : ∀ p ∈ ps, p.name ∉ operandNames xs)
    (σ τ : Store α) : Ends (stms fuel (copies ps xs)) σ () τ ↔
      ∃ vs, List.Forall₂ (fun x v => σ.value x = some v) xs vs ∧ σ.bound (ps.map (·.name)) vs = τ := by
  induction ps generalizing xs σ with
  | nil =>
    obtain rfl := List.length_eq_zero_iff.mp count.symm
    simp only [copies, List.zipWith_nil_left, ends_stms_nil, List.forall₂_nil_left_iff]
    constructor
    · rintro rfl
      exact ⟨[], rfl, rfl⟩
    · rintro ⟨_, rfl, rfl⟩
      rfl
  | cons p ps ih =>
    obtain ⟨x, xs, rfl⟩ := List.exists_cons_of_length_eq_add_one count.symm
    obtain ⟨here, others⟩ := List.forall_mem_cons.mp apart
    simp only [operandNames, List.flatMap_cons, List.mem_append, not_or] at here others
    -- The first copy binds no name that the others read.
    have same (u : Value α) (vs : List (Value α)) :
        List.Forall₂ (fun x v => (σ.bound [p.name] [u]).value x = some v) xs vs ↔
          List.Forall₂ (fun x v => σ.value x = some v) xs vs := by
      have kept : σ.Agree (· ∈ operandNames xs) (σ.bound [p.name] [u]) := .bound σ [u] (by
        simpa [operandNames] using here.2)
      constructor
      · exact fun read => Tandem.forall₂_imp_mem read fun x mem v found =>
          (kept.value (mem_operandNames mem)).symm.trans found
      · exact fun read => Tandem.forall₂_imp_mem read fun x mem v found =>
          (kept.value (mem_operandNames mem)).trans found
    have rest (v : Value α) : Ends (stms fuel (copies ps xs)) (σ.bound [p.name] [v]) () τ ↔ _ :=
      ih (Nat.succ.inj count) (fun q mem => by simpa [operandNames] using (others q mem).2) _
    have first (υ : Store α) : Ends (stm (runBody fuel) fuel ⟨[p], .none, .basic (.operand x)⟩) σ () υ ↔
        ∃ v, σ.value x = some v ∧ σ.bound [p.name] [v] = υ := by
      simp only [ends_stm, ends_basic, basicOp, ends_operand]
      constructor
      · rintro ⟨_, _, ⟨v, ⟨found, rfl⟩, rfl⟩, -, rfl⟩
        exact ⟨v, found, rfl⟩
      · rintro ⟨v, found, rfl⟩
        exact ⟨[v], σ, ⟨v, ⟨found, rfl⟩, rfl⟩, rfl, rfl⟩
    simp only [copies, List.zipWith_cons_cons, ends_stms_cons, first]
    constructor
    · rintro ⟨_, ⟨v, found, rfl⟩, ends⟩
      obtain ⟨vs, read, rfl⟩ := (rest v).mp ends
      exact ⟨v :: vs, .cons found ((same v vs).mp read), rfl⟩
    · rintro ⟨_, read, rfl⟩
      cases read with
      | @cons _ v _ vs found read =>
        exact ⟨_, ⟨v, found, rfl⟩, (rest v).mpr ⟨vs, (same v vs).mpr read, rfl⟩⟩

/-- Copies do what reading all the operands and binding their values does. -/
theorem mimics_copies (fuel : Nat) (count : ps.length = xs.length) (apart : ∀ p ∈ ps, p.name ∉ operandNames xs)
    (known : operandNames xs ⊆ scope) (fresh : ∀ p ∈ ps, p.name ∉ keep) :
    Mimics keep scope (scope.opened (ps.map (·.name)))
      (operands xs >>= Run.bind (ps.map (·.name)) : Run α Unit) (stms fuel (copies ps xs)) := by
  have unkept : ∀ x ∈ ps.map (·.name), x ∉ keep := by simpa using fresh
  intro σ σ' agree
  have same {vs : List (Value α)} (read : List.Forall₂ (fun x v => σ.value x = some v) xs vs) :
      List.Forall₂ (fun x v => σ'.value x = some v) xs vs :=
    Tandem.forall₂_imp_mem read fun x mem v found =>
      (agree.value fun y inX => known (mem_operandNames mem inX)).trans found
  constructor
  · intro _ τ ends
    simp only [ends_bind, ends_operands, ends_bindNames] at ends
    obtain ⟨vs, _, ⟨read, rfl⟩, total, rfl⟩ := ends
    exact ⟨.bound σ vs unkept, _, (ends_copies fuel count apart ..).mpr ⟨vs, same read, rfl⟩, agree.opened total⟩
  · intro e failed _ τ' ends'
    obtain ⟨vs, read, rfl⟩ := (ends_copies fuel count apart ..).mp ends'
    have read : List.Forall₂ (fun x v => σ.value x = some v) xs vs := Tandem.forall₂_imp_mem read fun x mem v found =>
      (agree.value fun y inX => known (mem_operandNames mem inX)).symm.trans found
    have total : vs.length = (ps.map (·.name)).length := by
      rw [← read.length_eq, ← count, List.length_map]
    have ends : Ends (operands xs >>= Run.bind (ps.map (·.name))) σ () (σ.bound (ps.map (·.name)) vs) :=
      (ends_bind ..).mpr ⟨vs, σ, ends_operands.mpr ⟨read, rfl⟩, (ends_bindNames ..).mpr ⟨total, rfl⟩⟩
    exact not_ends_of_outcome failed _ _ ends

/-- A stream of constant width calls its lambda. -/
theorem stream_constant (faithful : ∀ v : Scalar, toScalar (ofScalar v : α) = v) (run : Body → Run α (List (Value α)))
    (n : Int) (arrays : List Name) (inits : List Operand) (l : Lambda) :
    stream run (.const (.int .i64 n)) arrays inits l =
      operands (chunkArguments n inits arrays) >>= applyLambda run l := by
  have size : (int (.const (.int .i64 n)) : Run α Int) = pure n := by
    have isInt : (asInt (ofScalar (.int .i64 n) : α) : Except (Fault α) Int) = .ok n := by
      rw [asInt, faithful]
    show (liftM (asInt (ofScalar (.int .i64 n) : α)) : Run α Int) = _
    rw [isInt]
    rfl
  rw [stream, size, pure_bind, Tandem.lookups_vars]
  simp only [chunkArguments, operands, List.mapM_cons, List.mapM_append, bind_assoc, pure_bind]
  rfl

/-- The statements that take the place of a stream do what it does. -/
theorem replaces_inlines (faithful : ∀ v : Scalar, toScalar (ofScalar v : α) = v) (on : Name → Prop) :
    Replaces α on Inlines 0 := by
  intro s new inlines scope placed fuel
  have fresh := placed.fresh.unbound
  have whole := placed.exp
  cases inlines with
  | @stream pat aux n arrays form inits ps ss result ret count count' apart =>
    obtain ⟨body, results⟩ := (whole.entered _ (.head _)).stms
    cases whole.inScope with
    | stream _ sources initials _ inside =>
      cases inside with
      | lambda entering _ _ =>
        let params : List Name := ps.map (·.name)
        let inner : Scope := scope.opened params
        have arguments : operandNames (chunkArguments n inits arrays) ⊆ scope := by
          intro x mem
          simp only [chunkArguments, operandNames, List.flatMap_cons, List.flatMap_append, Operand.names,
            List.nil_append, List.mem_append] at mem
          rcases mem with inInits | inArrays
          · exact initials inInits
          · exact sources (Tandem.operandNames_vars arrays ▸ inArrays)
        have unseen : ∀ p ∈ ps, p.name ∉ scope := fun p mem => entering.unbound p.name (List.mem_map_of_mem mem)
        have outside : ∀ p ∈ pat, p.name ∉ scope := fun p mem => fresh p.name (List.mem_map_of_mem mem)
        have split : stm (runBody fuel) fuel
            ⟨pat, aux, .stream (.const (.int .i64 n)) arrays form inits ⟨ps, ⟨ss, result⟩, ret⟩⟩ =
            ((operands (chunkArguments n inits arrays) >>= Run.bind params) >>= fun _ =>
              (runBody fuel ⟨ss, result⟩ >>= Run.bind (pat.map (·.name))) : Run α Unit) := by
          simp only [stm, exp, stream_constant faithful, applyLambda, bind_assoc, params]
        have start := mimics_copies (α := α) fuel count (fun p mem inArgs => unseen p mem (arguments inArgs)) arguments
          unseen
        rw [split, stms_append, stms_append]
        refine start.bind fun _ => ?_
        cases fuel with
        | zero => exact mimics_outOfFuel _
        | succ fuel =>
          have never : Replaces α on (fun _ _ => False) 1 := fun _ _ impossible => impossible.elim
          have middle : Mimics inner inner (inner.afterStms ss) (stms fuel ss : Run α Unit) (stms (fuel + 1) ss) :=
            mimics_stms never (fun _ _ _ here same => stands_runBody never fuel here same) body (.refl _ ss)
          have last : Mimics scope (inner.afterStms ss) ((inner.afterStms ss).opened (pat.map (·.name)))
              (operands result >>= Run.bind (pat.map (·.name)) : Run α Unit) (stms (fuel + 1) (copies pat result)) :=
            mimics_copies (fuel + 1) count' apart results outside
          have opened : scope ⊆ inner := List.subset_append_right _ _
          have around : scope ⊆ inner.afterStms ss := List.Subset.trans opened (subset_afterStms inner ss)
          rw [runBody, bind_assoc]
          refine (middle.mono opened (fun _ h => h) (fun _ h => h)).bind fun _ => ?_
          refine last.mono (fun _ h => h) (fun _ h => h) fun x mem => ?_
          rw [mem_opened] at mem ⊢
          exact mem.imp_right fun inScope => around inScope

end

end Run

theorem Lambda.Ordinary.accFree {decl : Name → Ty} {l : Lambda} (ordinary : l.Ordinary decl) : l.AccFree := by
  intro s mem
  obtain ⟨part, isPart, same⟩ := List.mem_filterMap.mp mem
  cases part with
  | stm s' =>
    obtain rfl := Option.some.inj same
    exact (ordinary.parts _ isPart).free
  | _ => cases same

/-- Streams of constant width may be inlined, wherever they stand: the program computes the same, and so does its
    derivative, if the streams start from constants. -/
theorem Lambda.Ordinary.inlined_agrees {decl : Name → Ty} {l l' : Lambda} (ordinary : l.Ordinary decl)
    (rewritten : l.Rewritten Inlines l') :
    (∀ {args : List Value} {fuel fuel' : Nat} {r r' : Except (Fault Scalar) (List Value)},
      l.interp args fuel = some r → l'.interp args fuel' = some r' → ∀ vs, r = .ok vs ↔ r' = .ok vs) ∧
    (l'.Ordinary decl → (∀ part ∈ l.parts, part.Exact) → (∀ part ∈ l'.parts, part.Exact) →
      ∀ {s s' : Supply} {out out' : Lambda}, (l.forward .standard s).1 = .ok out →
      (l'.forward .standard s').1 = .ok out' → ∀ {ds : List (Value Dual)} {fuel fuel' : Nat},
      l.KeepsTypes decl ds fuel → l'.KeepsTypes decl ds fuel' → ∀ {us us' : List Value},
      out.interp (doubled ds) fuel = some (.ok us) → out'.interp (doubled ds) fuel' = some (.ok us') → us = us') := by
  have free := ordinary.accFree
  constructor
  · intro args fuel fuel' r r' ends ends' vs
    exact interp_rewritten (Run.replaces_inlines (fun _ => rfl) l.Mentions) ordinary.valid free rewritten ends ends' vs
  · intro ordinary' exact exact' s s' out out' made made' ds fuel fuel' keeps keeps' us us' ran ran'
    -- Both derivatives are followed by runs over dual numbers, and those are runs of the two programs.
    obtain ⟨es, rfl, dual⟩ := Tandem.shadows_top Tandem.view_whole ordinary
      (fun part mem => .inr ⟨Tandem.whole_dual, exact part mem⟩)
      (Tandem.answers_tangents Tandem.view_whole l.body.result) made (by rwa [map_map_id]) ran
    obtain ⟨es', rfl, dual'⟩ := Tandem.shadows_top Tandem.view_whole ordinary'
      (fun part mem => .inr ⟨Tandem.whole_dual, exact' part mem⟩)
      (Tandem.answers_tangents Tandem.view_whole l'.body.result) made' (by rwa [map_map_id]) ran'
    rw [map_map_id, map_map_id] at dual dual'
    have same := interp_rewritten (Run.replaces_inlines (fun _ => rfl) l.Mentions) ordinary.valid free rewritten dual
      dual' es
    exact congrArg changes (Except.ok.inj (same.mp rfl)).symm

/-! The last entry of a row is multiplied with a constant, in a stream and inlined. -/

namespace LastEntry

def number (x : Nat) : Param := ⟨⟨x⟩, .scalar (.int .i64)⟩

def extent (n : Int) : Operand := .const (.int .i64 n)

def row (x : Nat) : Param := ⟨⟨x⟩, .array (.int .i64) [extent 2] false⟩

def inside : List Stm :=
  [⟨[number 5], .none, .basic (.binary (.int .sub .i64) (.var ⟨2⟩) (extent 1))⟩,
    ⟨[number 6], .none, .basic (.index ⟨4⟩ [.fix (.var ⟨5⟩)])⟩,
    ⟨[number 7], .none, .basic (.binary (.int .mul .i64) (.var ⟨3⟩) (.var ⟨6⟩))⟩]

def streamed : Lambda :=
  ⟨[row 0], ⟨[⟨[number 1], .none, .stream (extent 2) [⟨0⟩] .sequential [extent 3]
      ⟨[number 2, number 3, row 4], ⟨inside, [.var ⟨7⟩]⟩, [(number 7).ty]⟩⟩], [.var ⟨1⟩]⟩, [(number 1).ty]⟩

def inlined : Lambda :=
  ⟨[row 0], ⟨copies [number 2, number 3, row 4] (chunkArguments 2 [extent 3] [⟨0⟩]) ++
    (inside ++ copies [number 1] [.var ⟨7⟩]), [.var ⟨1⟩]⟩, [(number 1).ty]⟩

def types (x : Name) : Ty := if x.id ∈ [0, 4] then (row 0).ty else (number 0).ty

def arguments : List (Value Dual) :=
  [.array [.scalar ⟨.int .i64 4, .int .i64 1⟩, .scalar ⟨.int .i64 5, .int .i64 2⟩]]

theorem rewritten : streamed.Rewritten Inlines inlined := by
  have replaced : StmsRewritten Inlines streamed.body.stms inlined.body.stms :=
    List.append_nil inlined.body.stms ▸ .replace (.stream .none .sequential [(number 7).ty] rfl rfl (by decide)) .nil
  exact .lambda (.body replaced)

theorem ordinary_streamed : streamed.Ordinary types where
  valid := by decide
  once := by decide
  params := by simp [Tandem.Declared, streamed, types, row, Ty.isAcc]
  parts := by
    simp [streamed, inside, types, row, number, Lambda.parts, Body.parts, stmParts, Stm.parts, Exp.parts,
      StreamForm.parts, BasicOp.types, Part.Ordinary, Stm.ordinary_iff, Tandem.Declared, Exp.opens, StreamForm.opens,
      Exp.accumulates, Exp.Dealt, Ty.isAcc]

theorem ordinary_inlined : inlined.Ordinary types where
  valid := by decide
  once := by decide
  params := by simp [Tandem.Declared, inlined, types, row, Ty.isAcc]
  parts := by
    simp [inlined, inside, copies, chunkArguments, types, row, number, Lambda.parts, Body.parts, stmParts, Stm.parts,
      Exp.parts, BasicOp.types, Part.Ordinary, Stm.ordinary_iff, Tandem.Declared, Exp.opens, Exp.accumulates,
      Exp.Dealt, Ty.isAcc]

theorem exact_streamed : ∀ part ∈ streamed.parts, part.Exact := by
  simp [streamed, inside, Lambda.parts, Body.parts, stmParts, Stm.parts, Exp.parts, StreamForm.parts, BasicOp.types,
    Part.Exact, Exp.Exact, BasicOp.Exact, Operand.Fits, extent, operandNames, Operand.names, Scalar.ty, BinaryOp.ty]

theorem exact_inlined : ∀ part ∈ inlined.parts, part.Exact := by
  simp [inlined, inside, copies, chunkArguments, Lambda.parts, Body.parts, stmParts, Stm.parts, Exp.parts,
    BasicOp.types, Part.Exact, Exp.Exact, BasicOp.Exact, Operand.Fits, extent, Scalar.ty, BinaryOp.ty]

theorem keeps : streamed.KeepsTypes types arguments 3 ∧ inlined.KeepsTypes types arguments 3 :=
  ⟨fun _ => rfl, fun _ => rfl⟩

theorem inlined_agrees_here : ∃ out out' us us' r r',
    (streamed.interp (primals arguments) 3 = some r ∧ inlined.interp (primals arguments) 3 = some r' ∧
      (r = .ok [.scalar (.int .i64 15)] ↔ r' = .ok [.scalar (.int .i64 15)])) ∧
    (streamed.forward .standard ⟨0⟩).1 = .ok out ∧ (inlined.forward .standard ⟨0⟩).1 = .ok out' ∧
      out.interp (doubled arguments) 3 = some (.ok us) ∧ out'.interp (doubled arguments) 3 = some (.ok us') ∧
      us = us' := by
  obtain ⟨agree, agree'⟩ := ordinary_streamed.inlined_agrees rewritten
  have ends : runsOn (doubled arguments) 3 (streamed.forward .standard ⟨0⟩).1 = true := by decide +kernel
  have ends' : runsOn (doubled arguments) 3 (inlined.forward .standard ⟨0⟩).1 = true := by decide +kernel
  cases made : (streamed.forward .standard ⟨0⟩).1 with
  | error e => simp [made, runsOn] at ends
  | ok out =>
    cases made' : (inlined.forward .standard ⟨0⟩).1 with
    | error e => simp [made', runsOn] at ends'
    | ok out' =>
      obtain ⟨us, ran⟩ := interp_of_runsOn _ _ ends made
      obtain ⟨us', ran'⟩ := interp_of_runsOn _ _ ends' made'
      have here : streamed.interp (primals arguments) 3 = some (.ok [.scalar (.int .i64 15)]) := by rfl
      have there : inlined.interp (primals arguments) 3 = some (.ok [.scalar (.int .i64 15)]) := by rfl
      exact ⟨out, out', us, us', _, _, ⟨here, there, agree here there _⟩, rfl, rfl, ran, ran',
        agree' ordinary_inlined exact_streamed exact_inlined made made' keeps.1 keeps.2 ran ran'⟩

end LastEntry

end Cotangent
