import Mathlib.Data.List.Forall2
import Cotangent.Proofs.Program.Nesting
import Cotangent.Proofs.Scope.Seen
import Cotangent.Proofs.Scope.WellScoped
/-!
Programs with statements replaced, each by any number of others and at whatever depth it stands. What
changes is always some body, so two expressions are compared by the bodies that a run of them enters,
and those are listed with the scopes that they stand in.
-/
namespace Cotangent

/-! Expressions that differ in their bodies only. -/

section

variable (P : Body → Body → Prop)

inductive Lambda.Over : Lambda → Lambda → Prop
  | lambda {params b b' ret} : P b b' → Lambda.Over ⟨params, b, ret⟩ ⟨params, b', ret⟩

inductive Combiner.Over : Combiner → Combiner → Prop
  | combiner {op op' neutral} : op.Over P op' → Combiner.Over ⟨op, neutral⟩ ⟨op', neutral⟩

inductive Reduction.Over : Reduction → Reduction → Prop
  | reduction {commutative c c'} : c.Over P c' →
      Reduction.Over ⟨commutative, c⟩ ⟨commutative, c'⟩

inductive Histogram.Over : Histogram → Histogram → Prop
  | histogram {shape race dests c c'} : c.Over P c' →
      Histogram.Over ⟨shape, race, dests, c⟩ ⟨shape, race, dests, c'⟩

/-- The same expression over bodies that are related one by one. -/
inductive Exp.Over : Exp → Exp → Prop
  | basic (op) : Exp.Over (.basic op) (.basic op)
  | apply (func args ret) : Exp.Over (.apply func args ret) (.apply func args ret)
  | branch {cond yes yes' no no' ret sort} : P yes yes' → P no no' →
      Exp.Over (.branch cond yes no ret sort) (.branch cond yes' no' ret sort)
  | loop {merge form b b'} : P b b' → Exp.Over (.loop merge form b) (.loop merge form b')
  | withAcc {inputs l l'} : l.Over P l' → Exp.Over (.withAcc inputs l) (.withAcc inputs l')
  | screma {width arrays scans scans' reduces reduces' map map'} :
      List.Forall₂ (Combiner.Over P) scans scans' →
      List.Forall₂ (Reduction.Over P) reduces reduces' → map.Over P map' →
      Exp.Over (.screma width arrays scans reduces map) (.screma width arrays scans' reduces' map')
  | stream {width arrays form inits l l'} : l.Over P l' →
      Exp.Over (.stream width arrays form inits l) (.stream width arrays form inits l')
  | hist {width ops ops' bucket bucket' arrays} : List.Forall₂ (Histogram.Over P) ops ops' →
      bucket.Over P bucket' → Exp.Over (.hist width ops bucket arrays) (.hist width ops' bucket' arrays)
  | scatter {width l l' arrays dests} : l.Over P l' →
      Exp.Over (.scatter width l arrays dests) (.scatter width l' arrays dests)

end

section

variable {P : Body → Body → Prop}

theorem Lambda.Over.params_eq {l l' : Lambda} (related : l.Over P l') : l'.params = l.params := by
  cases related
  rfl

theorem Lambda.Over.ret_eq {l l' : Lambda} (related : l.Over P l') : l'.ret = l.ret := by
  cases related
  rfl

theorem Lambda.Over.body {l l' : Lambda} (related : l.Over P l') : P l.body l'.body := by
  cases related
  assumption

section

variable (same : ∀ b, P b b)

include same

theorem Lambda.Over.refl : (l : Lambda) → l.Over P l
  | ⟨_, b, _⟩ => .lambda (same b)

theorem Combiner.Over.refl : (c : Combiner) → c.Over P c
  | ⟨op, _⟩ => .combiner (.refl same op)

theorem Reduction.Over.refl : (r : Reduction) → r.Over P r
  | ⟨_, c⟩ => .reduction (.refl same c)

theorem Histogram.Over.refl : (h : Histogram) → h.Over P h
  | ⟨_, _, _, c⟩ => .histogram (.refl same c)

theorem Exp.Over.refl (e : Exp) : e.Over P e := by
  cases e with
  | basic op => exact .basic op
  | apply func args ret => exact .apply func args ret
  | branch cond yes no ret sort => exact .branch (same yes) (same no)
  | loop merge form b => exact .loop (same b)
  | withAcc inputs l => exact .withAcc (.refl same l)
  | screma width arrays scans reduces map =>
    have scanned := List.forall₂_same.mpr fun c (_ : c ∈ scans) => Combiner.Over.refl same c
    have reduced := List.forall₂_same.mpr fun r (_ : r ∈ reduces) => Reduction.Over.refl same r
    exact .screma scanned reduced (.refl same map)
  | stream width arrays form inits l => exact .stream (.refl same l)
  | hist width ops bucket arrays =>
    have updated := List.forall₂_same.mpr fun h (_ : h ∈ ops) => Histogram.Over.refl same h
    exact .hist updated (.refl same bucket)
  | scatter width l arrays dests => exact .scatter (.refl same l)

end

end

/-! Statements replaced. -/

mutual

/-- Any of the statements may be replaced as `R` says, and so may those inside the others. -/
inductive StmsRewritten (R : Stm → List Stm → Prop) : List Stm → List Stm → Prop
  | nil : StmsRewritten R [] []
  | keep {pat aux e e' ss ss'} : e.Over (Body.Rewritten R) e' → StmsRewritten R ss ss' →
      StmsRewritten R (⟨pat, aux, e⟩ :: ss) (⟨pat, aux, e'⟩ :: ss')
  | replace {s new ss ss'} : R s new → StmsRewritten R ss ss' →
      StmsRewritten R (s :: ss) (new ++ ss')

inductive Body.Rewritten (R : Stm → List Stm → Prop) : Body → Body → Prop
  | same (b : Body) : Body.Rewritten R b b
  | body {ss ss' result} : StmsRewritten R ss ss' → Body.Rewritten R ⟨ss, result⟩ ⟨ss', result⟩

end

/-- The second lambda is the first with statements of its body replaced. -/
def Lambda.Rewritten (R : Stm → List Stm → Prop) : Lambda → Lambda → Prop :=
  Lambda.Over (Body.Rewritten R)

theorem StmsRewritten.refl (R : Stm → List Stm → Prop) (ss : List Stm) : StmsRewritten R ss ss := by
  induction ss with
  | nil => exact .nil
  | cons s ss ih =>
    obtain ⟨pat, aux, e⟩ := s
    exact .keep (.refl .same e) ih

theorem Body.Rewritten.stms {R : Stm → List Stm → Prop} {b b' : Body} (rewritten : b.Rewritten R b') :
    StmsRewritten R b.stms b'.stms ∧ b'.result = b.result := by
  cases rewritten with
  | same => exact ⟨.refl R b.stms, rfl⟩
  | body stms => exact ⟨stms, rfl⟩

/-! The bodies that a run enters, with the scopes that they stand in. -/

def Lambda.entered (scope : Scope) (l : Lambda) : Scope × Body :=
  (scope.opened (l.params.map (·.name)), l.body)

def Exp.entered (scope : Scope) : Exp → List (Scope × Body)
  | .basic _ => []
  | .apply .. => []
  | .branch _ yes no _ _ => [(scope, yes), (scope, no)]
  | .loop merge form b => [(scope.opened (loopNames merge form), b)]
  | .withAcc _ l => [l.entered scope]
  | .screma _ _ scans reduces map => map.entered scope ::
      (scans.map (·.op.entered scope) ++ reduces.map (·.combiner.op.entered scope))
  | .stream _ _ _ _ l => [l.entered scope]
  | .hist _ ops bucket _ => bucket.entered scope :: ops.map (·.combiner.op.entered scope)
  | .scatter _ l _ _ => [l.entered scope]

theorem Exp.entered_bodies (scope : Scope) (e : Exp) : (e.entered scope).map (·.2) = e.bodies := by
  cases e <;> simp [entered, bodies, Lambda.entered, Function.comp_def]

theorem Lambda.WellScoped.entered {scope : Scope} {l : Lambda} (inScope : l.WellScoped scope) :
    (l.entered scope).2.WellScoped (l.entered scope).1 := by
  cases inScope with
  | lambda fresh inside count => exact inside

theorem Combiner.WellScoped.neutral {scope : Scope} {c : Combiner} (inScope : c.WellScoped scope) :
    operandNames c.neutral ⊆ scope := by
  cases inScope with
  | combiner neutral op => exact neutral

theorem Combiner.WellScoped.op {scope : Scope} {c : Combiner} (inScope : c.WellScoped scope) :
    c.op.WellScoped scope := by
  cases inScope with
  | combiner neutral op => exact op

theorem Histogram.WellScoped.combiner {scope : Scope} {h : Histogram} (inScope : h.WellScoped scope) :
    h.combiner.WellScoped scope := by
  cases inScope with
  | histogram shape race dests c => exact c

theorem Exp.WellScoped.entered {scope : Scope} {arity : Nat} {e : Exp}
    (inScope : e.WellScoped scope arity) : ∀ p ∈ e.entered scope, p.2.WellScoped p.1 := by
  cases inScope with
  | basic => simp [Exp.entered]
  | apply => simp [Exp.entered]
  | branch cond yes _ no => simp [Exp.entered, yes, no]
  | loop sources fresh guard inside => simpa [Exp.entered] using inside
  | withAcc inputs lam => simpa [Exp.entered] using lam.entered
  | screma size sources scanned reduced mapped =>
    simp only [Exp.entered, List.forall_mem_cons, List.forall_mem_append, List.forall_mem_map]
    exact ⟨mapped.entered, fun c mem => (scanned c mem).op.entered,
      fun r mem => (reduced r mem).op.entered⟩
  | stream size sources inits form lam => simpa [Exp.entered] using lam.entered
  | hist size updated lam sources =>
    simp only [Exp.entered, List.forall_mem_cons, List.forall_mem_map]
    exact ⟨lam.entered, fun h mem => (updated h mem).combiner.op.entered⟩
  | scatter size lam sources dests => simpa [Exp.entered] using lam.entered

/-! Programs without accumulators. -/

/-- The expression makes accumulators or updates one. -/
def Exp.accumulates : Exp → Bool
  | .basic (.updateAcc ..) => true
  | .withAcc .. => true
  | _ => false

/-- None of the statements makes accumulators or updates one. -/
def AccFree (parts : List Part) : Prop := ∀ s, .stm s ∈ parts → s.exp.accumulates = false

def Lambda.AccFree (l : Lambda) : Prop := ∀ s ∈ l.statements, s.exp.accumulates = false

theorem AccFree.mono {ps qs : List Part} (free : AccFree qs) (sub : ps.Sublist qs) : AccFree ps :=
  fun s mem => free s (sub.subset mem)

theorem Lambda.AccFree.parts {l : Lambda} (free : l.AccFree) : Cotangent.AccFree l.parts :=
  fun s mem => free s (mem_statements.mpr mem)

/-! What is known of a body wherever a run gets to it. -/

open Occurrences

/-- The body is well scoped where it stands, has no accumulators, and `on` holds of every name in it
    and around it. -/
structure Body.Placed (on : Name → Prop) (scope : Scope) (b : Body) : Prop where
  inScope : b.WellScoped scope
  free : AccFree b.parts
  seen : Seen on b.occurrences
  around : ∀ x ∈ scope, on x

structure Lambda.Placed (on : Name → Prop) (scope : Scope) (l : Lambda) : Prop where
  inScope : l.WellScoped scope
  free : Cotangent.AccFree l.body.parts
  seen : Seen on l.occurrences
  around : ∀ x ∈ scope, on x

/-- An expression for a pattern of `arity` names. -/
structure Exp.Placed (on : Name → Prop) (scope : Scope) (arity : Nat) (e : Exp) : Prop where
  inScope : e.WellScoped scope arity
  alone : e.accumulates = false
  free : AccFree e.parts
  seen : Seen on e.occurrences
  around : ∀ x ∈ scope, on x

structure Stm.Placed (on : Name → Prop) (scope : Scope) (s : Stm) : Prop where
  inScope : s.WellScoped scope
  free : AccFree s.parts
  seen : Seen on s.occurrences
  around : ∀ x ∈ scope, on x

structure StmsPlaced (on : Name → Prop) (scope : Scope) (ss : List Stm) : Prop where
  inScope : StmsWellScoped scope ss
  free : AccFree (stmParts ss)
  seen : Seen on (stmOccurrences ss)
  around : ∀ x ∈ scope, on x

section

variable {on : Name → Prop} {scope : Scope}

theorem mem_opened {xs : List Name} {x : Name} : x ∈ scope.opened xs ↔ x ∈ xs ∨ x ∈ scope := by
  simp [Scope.opened]

theorem subset_afterStms (scope : Scope) (ss : List Stm) : scope ⊆ scope.afterStms ss := by
  induction ss generalizing scope with
  | nil => exact fun _ known => known
  | cons s ss ih => exact List.Subset.trans (List.subset_append_right _ _) (ih _)

theorem around_opened {xs : List Name} (around : ∀ x ∈ scope, on x) (names : ∀ x ∈ xs, on x) :
    ∀ x ∈ scope.opened xs, on x := by
  intro x mem
  rcases mem_opened.mp mem with new | old
  · exact names x new
  · exact around x old

theorem Lambda.seen_entered {l : Lambda} (seen : Seen on l.occurrences) (around : ∀ x ∈ scope, on x) :
    Seen on (l.entered scope).2.occurrences ∧ ∀ x ∈ (l.entered scope).1, on x := by
  obtain ⟨params, inside, -⟩ := (seen_lambda l).mp seen
  exact ⟨inside, around_opened around params.params⟩

theorem Lambda.Placed.entered {l : Lambda} (placed : l.Placed on scope) :
    l.body.Placed on (scope.opened (l.params.map (·.name))) where
  inScope := placed.inScope.entered
  free := placed.free
  seen := (Lambda.seen_entered placed.seen placed.around).1
  around := (Lambda.seen_entered placed.seen placed.around).2

theorem Lambda.Placed.fresh {l : Lambda} (placed : l.Placed on scope) :
    scope.Fresh (l.params.map (·.name)) := by
  cases placed.inScope
  assumption

/-- Names that are not seen may join the scope. -/
theorem Lambda.Placed.widen {l : Lambda} (placed : l.Placed on scope) {spare : Scope}
    (unseen : ∀ x ∈ spare, ¬ on x) : l.WellScoped (spare ++ scope) := by
  rw [lambda_wellScoped]
  refine ((lambda_wellScoped scope l).mp placed.inScope).mono (fun x => List.mem_append_right spare)
    fun x binder known => ?_
  rw [← Outline.binders_occurrences, occurrences_lambda, Occurrences.mem_binders] at binder
  exact (List.mem_append.mp known).resolve_left fun isSpare =>
    unseen x isSpare (placed.seen _ binder)

theorem Exp.seen_entered {e : Exp} (seen : Seen on e.occurrences) (around : ∀ x ∈ scope, on x) :
    ∀ p ∈ e.entered scope, Seen on p.2.occurrences ∧ ∀ x ∈ p.1, on x := by
  have lambda {l : Lambda} (seen : Seen on l.occurrences) := Lambda.seen_entered seen around
  cases e with
  | basic op => simp [Exp.entered]
  | apply func args ret => simp [Exp.entered]
  | branch cond yes no ret sort =>
    simp only [Exp.occurrences, seen_append] at seen
    simpa [Exp.entered, seen] using around
  | loop merge form b =>
    cases form with
    | whileHolds cond =>
      simp only [Exp.occurrences, loopOccurrences, seen_append] at seen
      obtain ⟨⟨⟨inits, params⟩, body⟩, guard⟩ := seen
      have names := params.params
      rw [List.map_map] at names
      simpa only [Exp.entered, List.forall_mem_singleton] using ⟨body, around_opened around names⟩
    | forBelow counter w bound arrays =>
      simp only [Exp.occurrences, loopOccurrences, seen_append, seen_cons] at seen
      obtain ⟨⟨⟨⟨⟨inits, size⟩, sources⟩, params⟩, count, rows⟩, body⟩ := seen
      have names := params.params
      have rowNames := rows.params
      rw [List.map_map] at names rowNames
      have every := List.forall_mem_append.mpr ⟨names, List.forall_mem_cons.mpr ⟨count, rowNames⟩⟩
      simpa only [Exp.entered, List.forall_mem_singleton] using ⟨body, around_opened around every⟩
  | withAcc inputs l =>
    simp only [Exp.occurrences, seen_append] at seen
    simpa [Exp.entered] using lambda seen.2
  | screma width arrays scans reduces map =>
    simp only [Exp.occurrences, seen_append, seen_combiners, seen_reductions, seen_combiner] at seen
    obtain ⟨⟨⟨-, scanned⟩, reduced⟩, mapped⟩ := seen
    simp only [Exp.entered, List.forall_mem_cons, List.forall_mem_append, List.forall_mem_map]
    exact ⟨lambda mapped, fun c mem => lambda (scanned c mem).2, fun r mem => lambda (reduced r mem).2⟩
  | stream width arrays form inits l =>
    simp only [Exp.occurrences, seen_append] at seen
    simpa [Exp.entered] using lambda seen.2
  | hist width ops bucket arrays =>
    simp only [Exp.occurrences, seen_append] at seen
    obtain ⟨⟨⟨-, updated⟩, inside⟩, -⟩ := seen
    simp only [Exp.entered, List.forall_mem_cons, List.forall_mem_map]
    exact ⟨lambda inside, fun h mem => lambda (seen_histograms updated h mem).2⟩
  | scatter width l arrays dests =>
    simp only [Exp.occurrences, seen_append] at seen
    simpa [Exp.entered] using lambda seen.1.1.2

/-- What is known of an expression is known of the bodies it enters. -/
theorem Exp.Placed.entered {arity : Nat} {e : Exp} (placed : e.Placed on scope arity) :
    ∀ p ∈ e.entered scope, p.2.Placed on p.1 := by
  intro p mem
  obtain ⟨seen, around⟩ := Exp.seen_entered placed.seen placed.around p mem
  have entered : p.2 ∈ e.bodies := by
    rw [← Exp.entered_bodies scope]
    exact List.mem_map_of_mem mem
  exact ⟨placed.inScope.entered p mem, placed.free.mono (Exp.parts_of_body entered), seen, around⟩

theorem Stm.Placed.exp {s : Stm} (placed : s.Placed on scope) :
    s.exp.Placed on scope s.pat.length where
  inScope := by
    cases placed.inScope
    assumption
  alone := placed.free s (stm_mem_parts s)
  free := placed.free.mono (Exp.parts_sublist_stm s)
  seen := ((seen_stm s).mp placed.seen).2.1
  around := placed.around

theorem Stm.Placed.pattern {s : Stm} (placed : s.Placed on scope) :
    ∀ x ∈ s.pat.map (·.name), on x :=
  ((seen_stm s).mp placed.seen).2.2.params

theorem Stm.Placed.fresh {s : Stm} (placed : s.Placed on scope) :
    scope.Fresh (s.pat.map (·.name)) := by
  cases placed.inScope
  assumption

theorem StmsPlaced.cons {s : Stm} {ss : List Stm} (placed : StmsPlaced on scope (s :: ss)) :
    s.Placed on scope ∧ StmsPlaced on (scope.opened (s.pat.map (·.name))) ss := by
  obtain ⟨inScope, free, seen, around⟩ := placed
  simp only [stmOccurrences, seen_append] at seen
  cases inScope with
  | cons first rest =>
    have here : s.Placed on scope :=
      ⟨first, free.mono (List.sublist_append_left _ _), seen.1, around⟩
    have later := free.mono (List.sublist_append_right s.parts (stmParts ss))
    exact ⟨here, rest, later, seen.2, around_opened around here.pattern⟩

theorem Body.Placed.stms {b : Body} (placed : b.Placed on scope) :
    StmsPlaced on scope b.stms ∧ operandNames b.result ⊆ scope.afterStms b.stms := by
  obtain ⟨inScope, free, seen, around⟩ := placed
  rw [b.parts_eq] at free
  cases inScope with
  | body stms result =>
    exact ⟨⟨stms, free.mono (List.sublist_cons_self _ _), ((seen_body _).mp seen).1, around⟩, result⟩

/-- Of a fused statement: the neutral operands and the lambdas. -/
theorem Exp.Placed.screma {arity : Nat} {width : Operand} {arrays : List Name}
    {scans : List Combiner} {reduces : List Reduction} {map : Lambda}
    (placed : (Exp.screma width arrays scans reduces map).Placed on scope arity) :
    width.names ⊆ scope ∧ arrays ⊆ scope ∧ map.Placed on scope ∧
      ∀ c ∈ scans ++ reduces.map (·.combiner), operandNames c.neutral ⊆ scope ∧
        c.op.Placed on scope := by
  obtain ⟨inScope, -, free, seen, around⟩ := placed
  have inside {b : Body} (mem : b ∈ (Exp.screma width arrays scans reduces map).bodies) :
      AccFree b.parts := free.mono (Exp.parts_of_body mem)
  simp only [Exp.occurrences, seen_append, seen_combiners, seen_reductions, seen_combiner] at seen
  obtain ⟨⟨⟨-, seenScans⟩, seenReduces⟩, seenMap⟩ := seen
  cases inScope with
  | screma size sources scansIn reducesIn mapIn =>
    refine ⟨size, sources, ⟨mapIn, inside (by simp [Exp.bodies]), seenMap, around⟩, ?_⟩
    rw [List.forall_mem_append, List.forall_mem_map]
    constructor
    · intro c mem
      refine ⟨(scansIn c mem).neutral, (scansIn c mem).op, inside ?_, (seenScans c mem).2, around⟩
      simp only [Exp.bodies, List.mem_cons, List.mem_append, List.mem_map]
      exact .inr (.inl ⟨c, mem, rfl⟩)
    · intro r mem
      refine ⟨(reducesIn r mem).neutral, (reducesIn r mem).op, inside ?_, (seenReduces r mem).2, around⟩
      simp only [Exp.bodies, List.mem_cons, List.mem_append, List.mem_map]
      exact .inr (.inr ⟨r, mem, rfl⟩)

end

end Cotangent
