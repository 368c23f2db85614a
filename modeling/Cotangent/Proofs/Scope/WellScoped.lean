import Cotangent.Proofs.Scope.Validity
/-!
Lexical scoping as a relation. A scope is what is bound in the scopes that are open: a binder has to
be new to it, a read has to be of a name in it, and what a nested scope binds is gone at its end. The
scope check accepts the lambdas that are well scoped, and if it rejects a statement of a body, then
that statement is the first that is not.
-/
namespace Cotangent

open Outline

namespace Scope

/-- Names that can be bound one after the other. -/
structure Fresh (scope : Scope) (xs : List Name) : Prop where
  distinct : xs.Nodup
  unbound : ∀ x ∈ xs, x ∉ scope

/-- The scope with these names bound one after the other, the last of them innermost. -/
def opened (scope : Scope) (xs : List Name) : Scope := xs.reverse ++ scope

/-- The scope after a list of statements. -/
def afterStms (scope : Scope) (ss : List Stm) : Scope :=
  ss.foldl (fun scope s => scope.opened (s.pat.map (·.name))) scope

end Scope

/-- The names that a loop binds for its body. -/
def loopNames (merge : List (Param × Operand)) : LoopForm → List Name
  | .whileHolds _ => merge.map (·.1.name)
  | .forBelow counter _ _ arrays => merge.map (·.1.name) ++ counter :: arrays.map (·.1.name)

/-- What a loop reads outside of its own scope. -/
def loopSources (merge : List (Param × Operand)) : LoopForm → List Name
  | .whileHolds _ => operandNames (merge.map (·.2))
  | .forBelow _ _ bound arrays =>
    operandNames (merge.map (·.2)) ++ (bound.names ++ arrays.map (·.2))

/-- What a loop reads in its own scope, its body apart. -/
def loopGuard : LoopForm → List Name
  | .whileHolds cond => [cond]
  | .forBelow .. => []

mutual

/-- An expression for a pattern of `arity` names. -/
inductive Exp.WellScoped : Scope → Nat → Exp → Prop
  | basic {scope arity op} : op.names ⊆ scope → arity = 1 → Exp.WellScoped scope arity (.basic op)
  | apply {scope arity func args ret} : operandNames args ⊆ scope → arity = ret.length →
      Exp.WellScoped scope arity (.apply func args ret)
  | branch {scope arity cond yes no ret sort} : cond.names ⊆ scope →
      yes.WellScoped scope → yes.result.length = ret.length →
      no.WellScoped scope → no.result.length = ret.length → arity = ret.length →
      Exp.WellScoped scope arity (.branch cond yes no ret sort)
  | loop {scope : Scope} {arity merge form body} : loopSources merge form ⊆ scope →
      scope.Fresh (loopNames merge form) →
      loopGuard form ⊆ scope.opened (loopNames merge form) →
      body.WellScoped (scope.opened (loopNames merge form)) →
      body.result.length = merge.length → arity = merge.length →
      Exp.WellScoped scope arity (.loop merge form body)
  | withAcc {scope arity inputs lam} : (∀ input ∈ inputs, input.WellScoped scope) →
      lam.WellScoped scope → Exp.WellScoped scope arity (.withAcc inputs lam)
  | screma {scope arity width arrays scans reduces map} : width.names ⊆ scope → arrays ⊆ scope →
      (∀ c ∈ scans, c.WellScoped scope) → (∀ r ∈ reduces, r.combiner.WellScoped scope) →
      map.WellScoped scope → Exp.WellScoped scope arity (.screma width arrays scans reduces map)
  | stream {scope arity width arrays form inits lam} : width.names ⊆ scope → arrays ⊆ scope →
      operandNames inits ⊆ scope → form.WellScoped scope → lam.WellScoped scope →
      Exp.WellScoped scope arity (.stream width arrays form inits lam)
  | hist {scope arity width ops bucket arrays} : width.names ⊆ scope →
      (∀ h ∈ ops, h.WellScoped scope) → bucket.WellScoped scope → arrays ⊆ scope →
      Exp.WellScoped scope arity (.hist width ops bucket arrays)
  | scatter {scope arity width lam arrays dests} : width.names ⊆ scope → lam.WellScoped scope →
      arrays ⊆ scope → (∀ d ∈ dests, d.names ⊆ scope) →
      Exp.WellScoped scope arity (.scatter width lam arrays dests)

inductive Stm.WellScoped : Scope → Stm → Prop
  | stm {scope pat aux e} : aux.certs ⊆ scope → e.WellScoped scope pat.length →
      scope.Fresh (pat.map (·.name)) → Stm.WellScoped scope ⟨pat, aux, e⟩

/-- Statements each of which is well scoped where it stands. -/
inductive StmsWellScoped : Scope → List Stm → Prop
  | nil {scope} : StmsWellScoped scope []
  | cons {scope s ss} : s.WellScoped scope →
      StmsWellScoped (scope.opened (s.pat.map (·.name))) ss → StmsWellScoped scope (s :: ss)

inductive Body.WellScoped : Scope → Body → Prop
  | body {scope ss result} : StmsWellScoped scope ss →
      operandNames result ⊆ scope.afterStms ss → Body.WellScoped scope ⟨ss, result⟩

inductive Lambda.WellScoped : Scope → Lambda → Prop
  | lambda {scope params body ret} : scope.Fresh (params.map (·.name)) →
      body.WellScoped (scope.opened (params.map (·.name))) →
      body.result.length = ret.length → Lambda.WellScoped scope ⟨params, body, ret⟩

inductive Combiner.WellScoped : Scope → Combiner → Prop
  | combiner {scope op neutral} : operandNames neutral ⊆ scope → op.WellScoped scope →
      Combiner.WellScoped scope ⟨op, neutral⟩

inductive StreamForm.WellScoped : Scope → StreamForm → Prop
  | sequential {scope} : StreamForm.WellScoped scope .sequential
  | parallel {scope order commutative op} : op.WellScoped scope →
      StreamForm.WellScoped scope (.parallel order commutative op)

inductive AccInput.WellScoped : Scope → AccInput → Prop
  | input {scope shape arrays combine} : operandNames shape ⊆ scope → arrays ⊆ scope →
      (∀ c ∈ combine, c.WellScoped scope) → AccInput.WellScoped scope ⟨shape, arrays, combine⟩

inductive Histogram.WellScoped : Scope → Histogram → Prop
  | histogram {scope shape race dests c} : operandNames shape ⊆ scope → race.names ⊆ scope →
      dests ⊆ scope → c.WellScoped scope → Histogram.WellScoped scope ⟨shape, race, dests, c⟩

end

/-! The relation against the outline. -/

namespace Scope

variable {scope : Scope}

theorem fresh_nil : scope.Fresh [] := ⟨List.nodup_nil, by simp⟩

theorem fresh_cons {x : Name} {xs : List Name} :
    scope.Fresh (x :: xs) ↔ x ∉ scope ∧ Fresh (x :: scope) xs := by
  constructor
  · intro fresh
    obtain ⟨new, distinct⟩ := List.nodup_cons.mp fresh.distinct
    refine ⟨fresh.unbound x (by simp), distinct, fun y mem known => ?_⟩
    rcases List.mem_cons.mp known with rfl | known
    · exact new mem
    · exact fresh.unbound y (by simp [mem]) known
  · intro ⟨new, rest⟩
    refine ⟨List.nodup_cons.mpr ⟨fun mem => rest.unbound x mem (by simp), rest.distinct⟩, ?_⟩
    intro y mem known
    rcases List.mem_cons.mp mem with rfl | mem
    · exact new known
    · exact rest.unbound y mem (by simp [known])

theorem opened_cons (x : Name) (xs : List Name) :
    scope.opened (x :: xs) = Scope.opened (x :: scope) xs := by
  simp [opened]

theorem opened_append (xs ys : List Name) :
    scope.opened (xs ++ ys) = (scope.opened xs).opened ys := by
  simp [opened]

theorem fresh_append {xs ys : List Name} :
    scope.Fresh (xs ++ ys) ↔ scope.Fresh xs ∧ (scope.opened xs).Fresh ys := by
  induction xs generalizing scope with
  | nil => simp [fresh_nil, opened]
  | cons x xs ih => simp only [List.cons_append, fresh_cons, ih, opened_cons, and_assoc]

theorem after_params (ps : List Param) (scope : Scope) :
    (paramOutline ps).after scope = scope.opened (ps.map (·.name)) := by
  induction ps generalizing scope with
  | nil => rfl
  | cons p ps ih => simp [paramOutline, Param.outline, ih, opened_cons]

theorem accepted_params (ps : List Param) (scope : Scope) :
    (paramOutline ps).Accepted scope ↔ scope.Fresh (ps.map (·.name)) := by
  induction ps generalizing scope with
  | nil => simp [paramOutline, Outline.Accepted, fresh_nil]
  | cons p ps ih =>
    simp [paramOutline, Param.outline, Outline.Accepted, ih, fresh_cons]

theorem after_stm (s : Stm) (scope : Scope) :
    s.outline.after scope = scope.opened (s.pat.map (·.name)) := by
  obtain ⟨pat, aux, e⟩ := s
  simp [Stm.outline, after_exp, after_params]

theorem after_stmOutline (ss : List Stm) (scope : Scope) :
    (stmOutline ss).after scope = scope.afterStms ss := by
  induction ss generalizing scope with
  | nil => rfl
  | cons s ss ih => simp [stmOutline, after_stm, ih, afterStms]

end Scope

/-- The header of a loop opens the scope of its body in one go. -/
theorem accepted_loopOutline (merge : List (Param × Operand)) (form : LoopForm) (body : Outline)
    (scope : Scope) :
    (loopOutline merge form body).Accepted scope ↔
      loopSources merge form ⊆ scope ∧ scope.Fresh (loopNames merge form) ∧
        loopGuard form ⊆ scope.opened (loopNames merge form) ∧
        body.Accepted (scope.opened (loopNames merge form)) := by
  cases form with
  | whileHolds cond =>
    simp [loopOutline, loopSources, loopNames, loopGuard, Outline.Accepted, Scope.accepted_params,
      Scope.after_params, List.subset_def, Function.comp_def, and_comm]
  | forBelow counter w bound arrays =>
    simp [loopOutline, loopSources, loopNames, loopGuard, Outline.Accepted, Scope.accepted_params,
      Scope.after_params, List.subset_def, Function.comp_def, Scope.fresh_append, Scope.fresh_cons,
      Scope.opened_append, Scope.opened_cons, or_imp, forall_and, and_assoc]

mutual

theorem exp_wellScoped (scope : Scope) (arity : Nat) (e : Exp) :
    e.WellScoped scope arity ↔ (e.outline arity).Accepted scope := by
  cases e with
  | basic op =>
    simp only [Exp.outline, BasicOp.outline, Outline.append_assoc, accepted_append,
      accepted_readsAll, accepted_mentionsAll, Accepted, and_true, true_and]
    exact ⟨fun | .basic known one => ⟨known, one⟩, fun ⟨known, one⟩ => .basic known one⟩
  | apply func args ret =>
    simp only [Exp.outline, Outline.append_assoc, accepted_append,
      accepted_readsAll, accepted_mentionsAll, Accepted, and_true, true_and]
    exact ⟨fun | .apply known fits => ⟨known, fits⟩, fun ⟨known, fits⟩ => .apply known fits⟩
  | branch cond yes no ret sort =>
    simp only [Exp.outline, Outline.append_assoc, block_append, count_append, done_append,
      accepted_append, accepted_readsAll, after_readsAll, accepted_mentionsAll, Accepted, and_true,
      true_and, ← body_wellScoped scope yes, ← body_wellScoped scope no]
    constructor
    · intro (.branch known yes yesCount no noCount fits)
      exact ⟨known, yes, yesCount, no, noCount, fits⟩
    · intro ⟨known, yes, yesCount, no, noCount, fits⟩
      exact .branch known yes yesCount no noCount fits
  | loop merge form b =>
    simp only [Exp.outline, accepted_append, accepted_loopOutline, Accepted, and_true,
      ← body_wellScoped (scope.opened (loopNames merge form)) b]
    constructor
    · intro (.loop sources fresh guard body results fits)
      exact ⟨⟨⟨sources, fresh, guard, body⟩, results⟩, fits⟩
    · intro ⟨⟨⟨sources, fresh, guard, body⟩, results⟩, fits⟩
      exact .loop sources fresh guard body results fits
  | withAcc inputs lam =>
    simp only [Exp.outline, accepted_append, Scope.after_accInputOutline, Accepted, and_true,
      ← accInputs_wellScoped scope inputs, ← lambda_wellScoped scope lam]
    exact ⟨fun | .withAcc inputs lam => ⟨inputs, lam⟩, fun ⟨inputs, lam⟩ => .withAcc inputs lam⟩
  | screma width arrays scans reduces map =>
    simp only [Exp.outline, accepted_append, accepted_readsAll, after_append, after_readsAll,
      Scope.after_combinerOutline, Scope.after_reductionOutline, Accepted, and_true,
      List.forall_mem_append, ← combiners_wellScoped scope scans,
      ← reductions_wellScoped scope reduces, ← lambda_wellScoped scope map]
    constructor
    · intro (.screma width arrays scans reduces map)
      exact ⟨⟨⟨⟨width, arrays⟩, scans⟩, reduces⟩, map⟩
    · intro ⟨⟨⟨⟨width, arrays⟩, scans⟩, reduces⟩, map⟩
      exact .screma width arrays scans reduces map
  | stream width arrays form inits lam =>
    simp only [Exp.outline, accepted_append, accepted_readsAll, after_append, after_readsAll,
      Scope.after_streamForm, Accepted, and_true, List.forall_mem_append,
      ← streamForm_wellScoped scope form, ← lambda_wellScoped scope lam]
    constructor
    · intro (.stream width arrays inits form lam)
      exact ⟨⟨⟨⟨width, arrays⟩, inits⟩, form⟩, lam⟩
    · intro ⟨⟨⟨⟨width, arrays⟩, inits⟩, form⟩, lam⟩
      exact .stream width arrays inits form lam
  | hist width ops bucket arrays =>
    simp only [Exp.outline, accepted_append, accepted_readsAll, after_append, after_readsAll,
      Scope.after_histogramOutline, Accepted, ← histograms_wellScoped scope ops,
      ← lambda_wellScoped scope bucket]
    constructor
    · intro (.hist width ops bucket arrays)
      exact ⟨⟨width, ops⟩, bucket, arrays⟩
    · intro ⟨⟨width, ops⟩, bucket, arrays⟩
      exact .hist width ops bucket arrays
  | scatter width lam arrays dests =>
    simp only [Exp.outline, accepted_append, accepted_readsAll, after_readsAll, Accepted,
      List.forall_mem_append, List.forall_mem_flatMap, ← lambda_wellScoped scope lam]
    constructor
    · intro (.scatter width lam arrays dests)
      exact ⟨width, lam, arrays, dests⟩
    · intro ⟨width, lam, arrays, dests⟩
      exact .scatter width lam arrays dests

theorem stm_wellScoped (scope : Scope) (s : Stm) :
    s.WellScoped scope ↔ s.outline.Accepted scope := by
  obtain ⟨pat, aux, e⟩ := s
  simp only [Stm.outline, accepted_append, accepted_readsAll, after_append, after_readsAll,
    Scope.after_exp, Scope.accepted_params, ← exp_wellScoped scope pat.length e]
  constructor
  · intro (.stm certs e fresh)
    exact ⟨⟨certs, e⟩, fresh⟩
  · intro ⟨⟨certs, e⟩, fresh⟩
    exact .stm certs e fresh

theorem stms_wellScoped (scope : Scope) (ss : List Stm) :
    StmsWellScoped scope ss ↔ (stmOutline ss).Accepted scope := by
  cases ss with
  | nil => exact ⟨fun _ => trivial, fun _ => .nil⟩
  | cons s ss =>
    simp only [stmOutline, accepted_append, Scope.after_stm, ← stm_wellScoped scope s,
      ← stms_wellScoped (scope.opened (s.pat.map (·.name))) ss]
    exact ⟨fun | .cons first rest => ⟨first, rest⟩, fun ⟨first, rest⟩ => .cons first rest⟩

theorem body_wellScoped (scope : Scope) (b : Body) :
    b.WellScoped scope ↔ b.outline.Accepted scope := by
  obtain ⟨ss, result⟩ := b
  simp only [Body.outline, accepted_append, accepted_readsAll, Scope.after_stmOutline,
    ← stms_wellScoped scope ss]
  exact ⟨fun | .body stms known => ⟨stms, known⟩, fun ⟨stms, known⟩ => .body stms known⟩

theorem lambda_wellScoped (scope : Scope) (l : Lambda) :
    l.WellScoped scope ↔ l.outline.Accepted scope := by
  obtain ⟨ps, b, ret⟩ := l
  simp only [Lambda.outline, accepted_append, accepted_mentionsAll, Scope.accepted_params,
    Scope.after_params, Accepted, and_true,
    ← body_wellScoped (scope.opened (ps.map (·.name))) b]
  constructor
  · intro (.lambda params body fits)
    exact ⟨⟨params, body⟩, fits⟩
  · intro ⟨⟨params, body⟩, fits⟩
    exact .lambda params body fits

theorem combiner_wellScoped (scope : Scope) (c : Combiner) :
    c.WellScoped scope ↔ c.outline.Accepted scope := by
  obtain ⟨op, neutral⟩ := c
  simp only [Combiner.outline, accepted_append, accepted_readsAll, after_readsAll, Accepted,
    and_true, ← lambda_wellScoped scope op]
  exact ⟨fun | .combiner known op => ⟨known, op⟩, fun ⟨known, op⟩ => .combiner known op⟩

theorem combiners_wellScoped (scope : Scope) (cs : List Combiner) :
    (∀ c ∈ cs, c.WellScoped scope) ↔ (combinerOutline cs).Accepted scope := by
  cases cs with
  | nil => simp [combinerOutline, Accepted]
  | cons c cs =>
    simp only [List.forall_mem_cons, combinerOutline, accepted_append, Scope.after_combiner,
      combiner_wellScoped scope c, combiners_wellScoped scope cs]

theorem reductions_wellScoped (scope : Scope) (rs : List Reduction) :
    (∀ r ∈ rs, r.combiner.WellScoped scope) ↔ (reductionOutline rs).Accepted scope := by
  cases rs with
  | nil => simp [reductionOutline, Accepted]
  | cons r rs =>
    obtain ⟨commutative, c⟩ := r
    simp only [List.forall_mem_cons, reductionOutline, accepted_append, Scope.after_combiner,
      combiner_wellScoped scope c, reductions_wellScoped scope rs]

theorem streamForm_wellScoped (scope : Scope) (form : StreamForm) :
    form.WellScoped scope ↔ form.outline.Accepted scope := by
  cases form with
  | sequential => exact ⟨fun _ => trivial, fun _ => .sequential⟩
  | parallel order commutative op =>
    simp only [StreamForm.outline, Accepted, and_true, ← lambda_wellScoped scope op]
    exact ⟨fun | .parallel op => op, fun op => .parallel op⟩

theorem accInputs_wellScoped (scope : Scope) (inputs : List AccInput) :
    (∀ input ∈ inputs, input.WellScoped scope) ↔ (accInputOutline inputs).Accepted scope := by
  cases inputs with
  | nil => simp [accInputOutline, Accepted]
  | cons input rest =>
    obtain ⟨shape, arrays, combine⟩ := input
    simp only [List.forall_mem_cons, accInputs_wellScoped scope rest]
    cases combine with
    | none =>
      simp only [accInputOutline, accepted_append, accepted_readsAll, after_readsAll,
        List.forall_mem_append]
      refine and_congr ⟨fun | .input shape arrays _ => ⟨shape, arrays⟩, ?_⟩ Iff.rfl
      exact fun ⟨shape, arrays⟩ => .input shape arrays (by simp)
    | some c =>
      simp only [accInputOutline, accepted_append, accepted_readsAll, after_append, after_readsAll,
        Scope.after_combiner, List.forall_mem_append, ← combiner_wellScoped scope c]
      refine and_congr ⟨fun | .input shape arrays c => ⟨⟨shape, arrays⟩, c _ rfl⟩, ?_⟩ Iff.rfl
      exact fun ⟨⟨shape, arrays⟩, c⟩ => .input shape arrays (by simpa using c)

theorem histograms_wellScoped (scope : Scope) (hs : List Histogram) :
    (∀ h ∈ hs, h.WellScoped scope) ↔ (histogramOutline hs).Accepted scope := by
  cases hs with
  | nil => simp [histogramOutline, Accepted]
  | cons h rest =>
    obtain ⟨shape, race, dests, c⟩ := h
    simp only [List.forall_mem_cons, histogramOutline, accepted_append, accepted_readsAll,
      after_append, after_readsAll, Scope.after_combiner, List.forall_mem_append,
      ← combiner_wellScoped scope c, ← histograms_wellScoped scope rest]
    refine and_congr ⟨fun | .histogram shape race dests c => ⟨⟨⟨shape, race⟩, dests⟩, c⟩, ?_⟩ Iff.rfl
    exact fun ⟨⟨⟨shape, race⟩, dests⟩, c⟩ => .histogram shape race dests c

end

/-! The statement that is blamed. -/

/-- Statements that fail have a first one that is not well scoped, and it is the one in the error. -/
theorem stms_blamed {scope : Scope} {ss : List Stm} {k : Nat} {e : ScopeError}
    (failed : scope.stms k ss = .error e) :
    ∃ i e' s, e = .stm (k + i) e' ∧ ss[i]? = some s ∧ StmsWellScoped scope (ss.take i) ∧
      ¬ s.WellScoped (scope.afterStms (ss.take i)) := by
  induction ss generalizing scope k with
  | nil => cases failed
  | cons s ss ih =>
    rw [Scope.stms] at failed
    cases ran : scope.stm s with
    | error e' =>
      have rejected : ¬ s.WellScoped scope := by
        intro good
        have succeeded := (Scope.stm_ok scope _ s).mpr ⟨(stm_wellScoped scope s).mp good, rfl⟩
        simp [ran] at succeeded
      rw [ran] at failed
      exact ⟨0, e', s, (Except.error.inj failed).symm, rfl, .nil, rejected⟩
    | ok inner =>
      obtain ⟨accepted, rfl⟩ := (Scope.stm_ok scope inner s).mp ran
      rw [ran] at failed
      obtain ⟨i, e', t, rfl, at_i, before, rejected⟩ := ih failed
      rw [Scope.after_stm] at before rejected
      refine ⟨i + 1, e', t, by rw [Nat.add_right_comm, Nat.add_assoc], at_i, ?_, rejected⟩
      exact .cons ((stm_wellScoped scope s).mpr accepted) before

theorem params_error {scope : Scope} {ps : List Param} {e : ScopeError}
    (failed : scope.params ps = .error e) : ∃ x, e = .param x := by
  fun_induction Scope.params scope ps with
  | case1 => cases failed
  | case2 scope p ps bound => exact ⟨p.name, (Except.error.inj failed).symm⟩
  | case3 scope p ps fresh ih => exact ih failed

theorem results_error {scope : Scope} {xs : List Operand} {e : ScopeError}
    (failed : scope.results xs = .error e) : ∃ x, e = .result x := by
  fun_induction Scope.results scope xs with
  | case1 => cases failed
  | case2 v rest ih => exact ih failed
  | case3 x rest known ih => exact ih failed
  | case4 x rest unknown => exact ⟨x, (Except.error.inj failed).symm⟩

/-- A statement is only blamed by the check of the statements themselves. -/
theorem lambda_blamed {scope : Scope} {l : Lambda} {i : Nat} {e : StmError}
    (failed : scope.lambda l = .error (.stm i e)) :
    scope.Fresh (l.params.map (·.name)) ∧
      Scope.stms (scope.opened (l.params.map (·.name))) 0 l.body.stms = .error (.stm i e) := by
  obtain ⟨ps, ⟨ss, result⟩, ret⟩ := l
  rw [Scope.lambda] at failed
  cases header : scope.params ps with
  | error e' =>
    obtain ⟨x, rfl⟩ := params_error header
    simp [header, bind, Except.bind] at failed
  | ok inner =>
    obtain ⟨fresh, rfl⟩ := (Scope.params_ok scope inner ps).mp header
    rw [Scope.accepted_params] at fresh
    rw [Scope.after_params] at header
    refine ⟨fresh, ?_⟩
    cases ran : Scope.stms (scope.opened (ps.map (·.name))) 0 ss with
    | error e' => simpa [header, Scope.body, ran, bind, Except.bind] using failed
    | ok after =>
      cases results : after.results result with
      | error e' =>
        obtain ⟨x, rfl⟩ := results_error results
        simp [header, Scope.body, ran, results, bind, Except.bind] at failed
      | ok u =>
        simp only [header, Scope.body, ran, results, bind, Except.bind] at failed
        split at failed <;> simp at failed

/-- The scope check accepts just the lambdas that are well scoped. A statement of the body that is
    blamed stands after statements that are well scoped, and is not so itself. -/
theorem validate_iff_wellScoped (l : Lambda) :
    (l.validate = .ok () ↔ l.WellScoped []) ∧
      ∀ i e, l.validate = .error (.stm i e) →
        Scope.Fresh [] (l.params.map (·.name)) ∧
          StmsWellScoped (Scope.opened [] (l.params.map (·.name))) (l.body.stms.take i) ∧
          ∃ s, l.body.stms[i]? = some s ∧
            ¬ s.WellScoped (Scope.afterStms (Scope.opened [] (l.params.map (·.name)))
              (l.body.stms.take i)) := by
  constructor
  · rw [validate_iff, lambda_wellScoped]
  · intro i e failed
    rw [validate_eq] at failed
    obtain ⟨fresh, ran⟩ := lambda_blamed failed
    obtain ⟨j, e', s, blamed, at_j, before, rejected⟩ := stms_blamed ran
    obtain ⟨rfl, rfl⟩ : i = j ∧ e = e' := by simpa using blamed
    exact ⟨fresh, before, s, at_j, rejected⟩

/-- Both arms of the branch bind the same name, and the statement after the branch reads it. -/
def readsExpired : Lambda :=
  let t : Ty := .scalar (.int .i64)
  let arm (op : IntBinary) : Body :=
    ⟨[⟨[⟨⟨3⟩, t⟩], .none, .basic (.binary (.int op .i64) (.var ⟨1⟩) (.var ⟨1⟩))⟩], [.var ⟨3⟩]⟩
  ⟨[⟨⟨0⟩, .scalar .bool⟩, ⟨⟨1⟩, t⟩],
    ⟨[⟨[⟨⟨2⟩, t⟩], .none, .branch (.var ⟨0⟩) (arm .mul) (arm .add) [t] .normal⟩,
      ⟨[⟨⟨4⟩, t⟩], .none, .basic (.operand (.var ⟨3⟩))⟩], [.var ⟨4⟩]⟩, [t]⟩

theorem readsExpired_blamed : readsExpired.validate = .error (.stm 1 (.notInScope ⟨3⟩)) ∧
    StmsWellScoped [⟨1⟩, ⟨0⟩] (readsExpired.body.stms.take 1) ∧
    ∃ s, readsExpired.body.stms[1]? = some s ∧ ¬ s.WellScoped [⟨2⟩, ⟨1⟩, ⟨0⟩] := by
  have failed : readsExpired.validate = .error (.stm 1 (.notInScope ⟨3⟩)) := by decide
  exact ⟨failed, ((validate_iff_wellScoped readsExpired).2 1 _ failed).2⟩

end Cotangent
