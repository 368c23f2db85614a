import Cotangent.Proofs.Regions.Statements
/-!
Forward differentiation of programs of regions: what comes out echoes what went in. The recursion is that
of the transformation, and a scope is handed from each statement to the next.
-/
namespace Cotangent

open Outline Diff

@[simp] theorem names_paramOutline (ps : List Param) : (paramOutline ps).binders = ps.map (·.name) := by
  induction ps with
  | nil => rfl
  | cons p ps ih => simp [paramOutline, Param.outline, ih]

namespace Roles

variable {bound : Nat} {κ : Name → Kind} {scope wider on on' : List Name} {ρ : Roles} {s t u : DiffState}

/-- The order in which names are bound does not matter. -/
theorem Carries.perm {act : Diff Unit} {results : List Name} {echo : Roles → List Stm → Prop}
    (carries : Carries bound κ scope on act results echo) (same : on'.Perm on) :
    Carries bound κ scope on' act results echo :=
  fun ρ s t sound served unborn gives =>
    (carries ρ s t sound served (fun x mem => unborn x (same.mem_iff.mpr mem)) gives).mono
      (fun _ mem => same.mem_iff.mpr mem) (fun _ _ post => post) fun _ _ _ echo => echo

theorem Carries.mono {act : Diff Unit} {results : List Name} {echo : Roles → List Stm → Prop}
    (carries : Carries bound κ scope on act results echo) (sub : ∀ x ∈ scope, x ∈ wider) :
    Carries bound κ wider on act results echo :=
  fun ρ s t sound served unborn gives =>
    carries ρ s t sound (fun x mem => served x (sub x mem)) unborn gives

/-- What was read of a statement that was accepted. -/
theorem accepted_stm {pat : List Param} {aux : Annotations} {e : Exp}
    (accepted : (Stm.mk pat aux e).outline.Accepted scope) :
    (e.outline pat.length).Accepted scope ∧ (paramOutline pat).Accepted scope := by
  simp only [Stm.outline, accepted_append, accepted_readsAll, after_append, after_readsAll,
    Scope.after_exp] at accepted
  exact ⟨accepted.1.2, accepted.2⟩

theorem binders_of_stm (pat : List Param) (aux : Annotations) (e : Exp) :
    (Stm.mk pat aux e).outline.binders = (e.outline pat.length).binders ++ pat.map (·.name) := by
  simp [Stm.outline]

/-- An operation of the code binds one name. -/
theorem basic_carries {pat : List Param} {aux : Annotations} {op : BasicOp}
    (code : (Stm.mk pat aux (.basic op)).RegionCode κ)
    (accepted : (Stm.mk pat aux (.basic op)).outline.Accepted scope) :
    Carries bound κ scope (pat.map (·.name)) (Forward.stm .standard ⟨pat, aux, .basic op⟩)
      (pat.map (·.name)) fun ρ new => (Stm.mk pat aux (.basic op)).Echoes ρ new := by
  obtain ⟨kinded, ty, single, code⟩ := code
  obtain ⟨p, rfl, rfl⟩ : ∃ p, pat = [p] ∧ p.ty = ty := by
    obtain ⟨p, none, rfl, rfl, nil⟩ := List.map_eq_cons_iff.mp single
    exact ⟨p, by simpa using nil, rfl⟩
  have kind := kinded p (by simp)
  have read : ∀ z ∈ op.names, z ∈ scope := by
    have accepted := (accepted_stm accepted).1
    simp only [Exp.outline, BasicOp.outline, accepted_append, accepted_readsAll] at accepted
    exact accepted.1.1
  intro ρ s u sound served unborn gives
  have served := fun z mem => served z (read z mem)
  have copied (echoed : Echoed bound κ [p.name] ρ s u
      (fun ρ' => Stands bound κ ρ' u p.name) fun ρ'' new => ρ''.Copies ⟨[p], aux, .basic op⟩ new) :
      Echoed bound κ [p.name] ρ s u (fun ρ' => Served bound κ ρ' u [p.name])
        fun ρ new => (Stm.mk [p] aux (.basic op)).Echoes ρ new :=
    echoed.mono (fun _ mem => mem) (fun _ _ stands => by simpa [Served] using stands)
      fun _ _ _ copies => .copied copies
  cases op with
  | operand x =>
    obtain ⟨t, same, typed⟩ := code
    exact copied (operand_echoed sound served unborn kind typed same gives)
  | binary op x y =>
    cases op with
    | int op w =>
      obtain ⟨supported, left, right, typed⟩ := code
      exact copied (binary_echoed sound served unborn kind typed supported left right gives)
    | float op w => exact code.elim
    | and => exact code.elim
    | or => exact code.elim
  | compare op x y => exact copied (compare_echoed sound served unborn kind code gives)
  | index array slice =>
    obtain ⟨t, same, typed⟩ := code
    exact copied (index_echoed sound served unborn kind typed same gives)
  | updateAcc acc position values =>
    obtain ⟨ts, same, typed, positions, kinds⟩ := code
    exact updateAcc_echoed sound served unborn kind typed same positions kinds gives
  | _ => exact code.elim

theorem accepted_of_body {ss : List Stm} {result : List Operand}
    (accepted : (Body.mk ss result).outline.Accepted scope) :
    (stmOutline ss).Accepted scope ∧ ∀ z ∈ operandNames result, z ∈ (stmOutline ss).after scope := by
  simpa only [Body.outline, accepted_append, accepted_readsAll] using accepted

theorem mem_scope_of_params {ps : List Param} {z : Name} (mem : z ∈ (paramOutline ps).after scope) :
    z ∈ ps.map (·.name) ++ scope := by
  rcases (mem_after_paramOutline ps scope z).mp mem with known | ⟨p, inside, rfl⟩
  · exact List.mem_append_right _ known
  · exact List.mem_append_left _ (List.mem_map_of_mem inside)

/-- The names of a for loop over a body, in the order of the outline and in that of the roles. -/
theorem loop_order {merge : List (Param × Operand)} {counter : Name} {w : IntWidth} {limit : Operand}
    {rows : List (Param × Name)} {b : Body} (pat : List Param) (aux : Annotations) :
    (Stm.mk pat aux (.loop merge (.forBelow counter w limit rows) b)).outline.binders.Perm
      (loopNames merge counter rows ++ pat.map (·.name) ++ b.outline.binders) := by
  rw [List.perm_iff_count]
  intro x
  simp [binders_of_stm, Exp.outline, loopOutline, List.count_append, List.count_cons, Function.comp_def]
  omega

/-- What an accepted for loop reads, and the scope of its body. -/
theorem accepted_loop {merge : List (Param × Operand)} {counter : Name} {w : IntWidth} {limit : Operand}
    {rows : List (Param × Name)} {b : Body} {arity : Nat}
    (accepted : ((Exp.loop merge (.forBelow counter w limit rows) b).outline arity).Accepted scope) :
    (∀ z ∈ limit.names, z ∈ scope) ∧
      (∀ z ∈ operandNames (merge.map (·.2)) ++ rows.map (·.2), z ∈ scope) ∧
      ∃ inner, b.outline.Accepted inner ∧ ∀ z ∈ inner, z ∈ loopNames merge counter rows ++ scope := by
  simp only [Exp.outline, loopOutline, accepted_append, accepted_readsAll, after_append, after_readsAll,
    Accepted, after, List.forall_mem_append] at accepted
  obtain ⟨⟨⟨⟨inits, limits, sources⟩, ⟨-, inside, -⟩, -⟩, -⟩, -⟩ := accepted
  refine ⟨limits, List.forall_mem_append.mpr ⟨inits, sources⟩, _, inside, fun z mem => ?_⟩
  rcases List.mem_append.mp (mem_scope_of_params mem) with inRows | mem
  · rw [List.map_map] at inRows
    exact List.mem_append_left _ (List.mem_append_left _ (List.mem_append_right _ inRows))
  · rcases List.mem_cons.mp mem with rfl | mem
    · exact List.mem_append_left _ (List.mem_append_right _ (List.mem_singleton_self _))
    · rcases List.mem_append.mp (mem_scope_of_params mem) with inMerge | inScope
      · rw [List.map_map] at inMerge
        exact List.mem_append_left _ (List.mem_append_left _ (List.mem_append_left _ inMerge))
      · exact List.mem_append_right _ inScope

/-- The names of a region, in the order of the outline and in that of the roles. -/
theorem withAcc_order {inputs : List AccInput} {ps : List Param} {b : Body} {ret : List Ty}
    (pat : List Param) (aux : Annotations) :
    (Stm.mk pat aux (.withAcc inputs ⟨ps, b, ret⟩)).outline.binders.Perm
      ((accInputOutline inputs).binders ++ pat.map (·.name) ++ (ps.map (·.name) ++ b.outline.binders)) := by
  rw [List.perm_iff_count]
  intro x
  simp [binders_of_stm, Exp.outline, Lambda.outline, List.count_append]
  omega

mutual

theorem stm_carries (stm : Stm) {scope : List Name} (code : stm.RegionCode κ)
    (accepted : stm.outline.Accepted scope) (distinct : stm.outline.binders.Nodup) :
    Carries bound κ scope stm.outline.binders (Forward.stm .standard stm) (stm.pat.map (·.name))
      fun ρ new => stm.Echoes ρ new := by
  obtain ⟨pat, aux, e⟩ := stm
  have binders := binders_of_stm pat aux e
  obtain ⟨inside, -⟩ := accepted_stm accepted
  cases e with
  | basic op =>
    refine (basic_carries code accepted).perm ?_
    rw [binders, Builder.binders_basic, List.nil_append]
  | branch cond yes no ret sort =>
    obtain ⟨kinded, onYes, onNo⟩ := code
    rw [List.map_map] at onYes onNo
    simp only [Exp.outline, accepted_append, accepted_readsAll, Accepted, after_append, after_readsAll,
      after] at inside
    obtain ⟨⟨⟨⟨known, inYes, -⟩, inNo, -⟩, -⟩, -⟩ := inside
    have order : (Stm.mk pat aux (.branch cond yes no ret sort)).outline.binders =
        yes.outline.binders ++ (no.outline.binders ++ pat.map (·.name)) := by
      simp [binders, Exp.outline]
    rw [order] at distinct ⊢
    obtain ⟨ofYes, rest, -⟩ := List.nodup_append.mp distinct
    obtain ⟨ofNo, -, -⟩ := List.nodup_append.mp rest
    exact fun ρ s t sound served unborn gives => branch_echoed sound served known unborn distinct kinded
      (body_prepares yes onYes inYes ofYes) (body_prepares no onNo inNo ofNo) gives
  | loop merge form b =>
    cases form with
    | whileHolds cond => exact code.2.elim
    | forBelow counter w limit rows =>
      obtain ⟨kinded, counts, merging, rowing, kinds, inBody⟩ := code
      rw [List.map_map] at kinds
      obtain ⟨known, read, inner, acceptedBody, sub⟩ := accepted_loop inside
      have order : (Stm.mk pat aux (.loop merge (.forBelow counter w limit rows) b)).outline.binders.Perm
          _ := loop_order pat aux
      have distinct := order.nodup_iff.mp distinct
      have ofBody := (List.nodup_append.mp distinct).2.1
      refine Carries.perm (fun ρ s t sound served unborn gives => ?_) order
      exact loop_echoed sound served known read unborn distinct kinded counts merging rowing kinds
        ((body_prepares b inBody acceptedBody ofBody).mono sub fun _ _ known => known) gives
  | withAcc inputs lam =>
    obtain ⟨ps, b, ret⟩ := lam
    obtain ⟨kinded, rest, onInputs, params, handles, inBody, kinds⟩ := code
    rw [List.map_map] at kinds
    simp only [Exp.outline, accepted_append, Accepted, accepted_lambda, Scope.after_accInputOutline,
      and_true] at inside
    obtain ⟨acceptedInputs, acceptedParams, acceptedBody, -⟩ := inside
    have order : (Stm.mk pat aux (.withAcc inputs ⟨ps, b, ret⟩)).outline.binders.Perm _ :=
      withAcc_order pat aux
    have distinct := order.nodup_iff.mp distinct
    obtain ⟨front, ofLam, -⟩ := List.nodup_append.mp distinct
    have ofInputs := (List.nodup_append.mp front).1
    have ofBody := (List.nodup_append.mp ofLam).2.1
    have handles' : ps.map (·.ty.kind) = (inputs.map (·.leaves κ)).map .handle := by
      rw [handles, List.map_map]
      rfl
    rw [handles'] at inBody
    refine Carries.perm (fun ρ s t sound served unborn gives => ?_) order
    exact withAcc_echoed sound served unborn distinct kinded kinds
      (accInputs_prepares _ inputs onInputs acceptedInputs ofInputs)
      (regionLambda_prepares params handles' ofLam ((body_prepares b inBody acceptedBody ofBody).mono
        (fun _ => mem_scope_of_params) fun _ _ known => known)) gives
  | apply func args ret => exact code.2.elim
  | screma width arrays scans reduces map => exact code.2.elim
  | stream width arrays form inits lam => exact code.2.elim
  | hist width ops bucket arrays => exact code.2.elim
  | scatter width lam arrays dests => exact code.2.elim

theorem stms_carries (ss : List Stm) {scope : List Name} (code : StmsRegionCode κ ss)
    (accepted : (stmOutline ss).Accepted scope) (distinct : (stmOutline ss).binders.Nodup)
    {results : List Name} (known : ∀ z ∈ results, z ∈ (stmOutline ss).after scope) :
    Carries bound κ scope (stmOutline ss).binders (Forward.stms .standard ss) results
      fun ρ new => StmsEcho ρ ss new := by
  intro ρ s t sound served unborn gives
  cases ss with
  | nil =>
    obtain ⟨-, rfl⟩ := (gives_pure ..).mp gives
    exact echoed_refl sound (fun z mem => served z (known z mem)) fun _ _ => .nil
  | cons stm ss =>
    obtain ⟨here, there⟩ := code
    simp only [stmOutline, accepted_append, binders_append, after_append] at accepted distinct known unborn ⊢
    obtain ⟨ofFirst, ofRest, apart⟩ := List.nodup_append.mp distinct
    obtain ⟨⟨⟩, v, first, rest⟩ := (gives_bind ..).mp gives
    have unbornFirst : Unborn bound ρ stm.outline.binders := fun x mem =>
      unborn x (List.mem_append_left _ mem)
    refine ((stm_carries stm here accepted.1 ofFirst ρ s v sound served unbornFirst first).bind
      fun ρ₁ grows sound₁ bound₁ => stms_carries ss there accepted.2 ofRest known ρ₁ v t sound₁
        (fun z mem => ?_) (Unborn.grow (fun x mem => unborn x (List.mem_append_right _ mem)) sound grows
          fun x mem other => apart x other x mem rfl) rest).mono (fun _ mem => mem)
      (fun _ _ post => post) ?_
    · rw [after_stm] at mem
      rcases List.mem_append.mp (mem_scope_of_params mem) with inPat | inScope
      · exact bound₁ z inPat
      · exact (served z inScope).grow grows (Served.apart served unbornFirst z inScope)
    · rintro ρ'' _ - ⟨here, there, rfl, echoes, others⟩
      exact .cons echoes others

theorem body_prepares (b : Body) {scope : List Name} {ks : List Kind} (code : b.RegionCode κ ks)
    (accepted : b.outline.Accepted scope) (distinct : b.outline.binders.Nodup) :
    PreparesBody bound κ scope b.outline.binders (Forward.body .standard b) b .bundled ks := by
  obtain ⟨ss, result⟩ := b
  obtain ⟨inside, kinds⟩ := code
  obtain ⟨acceptedStms, known⟩ := accepted_of_body accepted
  have order : (Body.mk ss result).outline.binders = (stmOutline ss).binders := by simp [Body.outline]
  rw [order] at distinct ⊢
  exact bundledBody_prepares (b := ⟨ss, result⟩) (stms_carries ss inside acceptedStms distinct known) kinds

theorem accInputs_prepares (stm : Stm) (inputs : List AccInput) {scope : List Name}
    (code : AccInputsCode κ inputs) (accepted : (accInputOutline inputs).Accepted scope)
    (distinct : (accInputOutline inputs).binders.Nodup) :
    Prepares bound κ scope (accInputOutline inputs).binders (Forward.accInputs .standard stm inputs)
      fun inputs' ρ => AccInputsEcho ρ (inputs.map (·.leaves κ)) inputs inputs' := by
  cases inputs with
  | nil => exact prepares_pure fun _ => .nil
  | cons input rest =>
    obtain ⟨shape, arrays, combine⟩ := input
    cases combine with
    | none =>
      obtain ⟨kinds, others⟩ := code
      simp only [accInputOutline, accepted_append, accepted_readsAll, after_readsAll, binders_append,
        binders_readsAll, List.nil_append, List.forall_mem_append] at accepted distinct ⊢
      have nothing : Prepares bound κ scope [] (pure none : Diff (Option Combiner)) fun c ρ =>
          CombineEchoes ρ (arrays.filterMap fun a => (κ a).leaf?) ((none : Option Combiner).map (·.op))
            (c.map (·.op)) := prepares_pure fun _ => .none
      exact input_prepares shape none accepted.1.2 kinds nothing
        (accInputs_prepares stm rest others accepted.2 distinct) (by simp)
    | some c =>
      obtain ⟨⟨ps, ⟨ss, result⟩, ret⟩, neutral⟩ := c
      obtain ⟨kinds, ⟨kinded, positions, typed, inBody, results⟩, others⟩ := code
      have order : (accInputOutline (⟨shape, arrays, some ⟨⟨ps, ⟨ss, result⟩, ret⟩, neutral⟩⟩ ::
          rest)).binders = (ps.map (·.name) ++ (stmOutline ss).binders) ++
            (accInputOutline rest).binders := by
        simp [accInputOutline, Combiner.outline, Lambda.outline, Body.outline]
      rw [order] at distinct ⊢
      simp only [accInputOutline, Combiner.outline, accepted_append, accepted_readsAll, after_readsAll,
        List.forall_mem_append, Accepted, accepted_lambda, and_true, after_append, after] at accepted
      obtain ⟨⟨⟨-, known⟩, -, -, acceptedBody, -⟩, acceptedRest⟩ := accepted
      obtain ⟨acceptedStms, knownResults⟩ := accepted_of_body acceptedBody
      obtain ⟨ofOperator, ofRest, apart⟩ := List.nodup_append.mp distinct
      have ofBody := (List.nodup_append.mp ofOperator).2.1
      have inside : CarriesStms bound κ (ps.map (·.name) ++ scope) (stmOutline ss).binders
          (Forward.stms .standard ss) ⟨ss, result⟩ :=
        (stms_carries ss inBody acceptedStms ofBody knownResults).mono fun _ => mem_scope_of_params
      have operator := combiner_prepares neutral
        (accOperator_prepares stm ret kinded positions typed ofOperator inside results)
      have prepares := input_prepares shape (some ⟨⟨ps, ⟨ss, result⟩, ret⟩, neutral⟩) known kinds
        operator (accInputs_prepares stm rest others acceptedRest ofRest)
        fun x mem other => apart x other x mem rfl
      simpa only [Forward.accInputs, bind_assoc, pure_bind] using prepares

end

end Roles

end Cotangent
