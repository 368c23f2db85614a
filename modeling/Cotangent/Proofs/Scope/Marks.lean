import Mathlib.Tactic.Common
import Cotangent.Proofs.Scope.Lexical
import Cotangent.Proofs.Outcome
/-!
The scope check keeps marks and a stack, and the scopes are lists that each part of a program is
handed. Both agree on every program, errors included: as long as the check goes on, its stack is the
scope and holds just the names that are marked as defined. That holds also where a check fails, once
the scopes that it had opened are closed again.
-/
namespace Cotangent

theorem NameTable.mem_of_find {α : Type} {t : NameTable α} {x : Name} {v : α}
    (found : t.find? x = some v) : x ∈ t.entries.map (·.1) := by
  obtain ⟨entries⟩ := t
  simp only [find?] at found
  fun_induction findEntry x entries with
  | case1 => simp at found
  | case2 => simp
  | case3 y w rest other ih => simp [ih found]

namespace Marks

theorem mem_readable (m : Marks) (x : Name) : x ∈ m.readable ↔ m.vars.find? x = some .defined := by
  simp only [readable, List.mem_filter, decide_eq_true_eq]
  exact ⟨fun known => known.2, fun found => ⟨NameTable.mem_of_find found, found⟩⟩

/-- The stack is the scope, and it holds just the names that are marked as defined, each once. -/
structure Tracks (m : Marks) (scope : Scope) : Prop where
  stack : m.bound = scope
  defined : ∀ x, m.vars.find? x = some .defined ↔ x ∈ scope
  nodup : scope.Nodup

variable {m : Marks} {scope : Scope}

theorem tracks_empty : Marks.Tracks ⟨.empty, []⟩ [] :=
  ⟨rfl, by simp [NameTable.find_empty], List.nodup_nil⟩

theorem Tracks.bind (tracks : m.Tracks scope) {x : Name} (fresh : x ∉ scope) :
    Tracks ⟨m.vars.insert x .defined, x :: m.bound⟩ (x :: scope) where
  stack := by rw [tracks.stack]
  defined y := by
    rw [NameTable.find_insert]
    by_cases same : y = x <;> simp [same, tracks.defined]
  nodup := List.nodup_cons.mpr ⟨fresh, tracks.nodup⟩

/-- Closing a scope expires what was bound in it and nothing else. -/
theorem Tracks.close {more : Scope} (tracks : m.Tracks (more ++ scope)) :
    (Check.close scope.length m).Tracks scope := by
  obtain ⟨distinct, nodup, apart⟩ := List.nodup_append.mp tracks.nodup
  have closed : Check.close scope.length m =
      ⟨m.vars.insertAll (more.map fun x => (x, .expired)), scope⟩ := by
    have depth : (more ++ scope).length - scope.length = more.length := by simp
    simp only [Check.close, tracks.stack, depth, List.take_left, List.drop_left]
  rw [closed]
  refine ⟨rfl, fun x => ?_, nodup⟩
  dsimp only
  by_cases ended : x ∈ more
  · obtain ⟨mark, isEnded, found⟩ := NameTable.find_insertAll_of_mem m.vars
      (more.map fun x => (x, Mark.expired)) x (by simpa using ended)
    have expired : mark = .expired := by
      obtain ⟨y, -, same⟩ := List.mem_map.mp isEnded
      exact (Prod.mk.inj same).2.symm
    have outside : x ∉ scope := fun known => apart x ended x known rfl
    simp [found, expired, outside]
  · have kept := NameTable.find_insertAll_of_not_mem m.vars
      (more.map fun x => (x, Mark.expired)) x (by
        intro p isEnded same
        obtain ⟨y, mem, rfl⟩ := List.mem_map.mp isEnded
        exact ended (same ▸ mem))
    rw [kept, tracks.defined, List.mem_append, or_iff_right ended]

end Marks

/-! Reads depend on which names a scope holds, not on their order. -/

namespace Scope

variable {a b : Scope}

theorem read_congr (same : ∀ x, x ∈ a ↔ x ∈ b) : a.read = b.read := by
  funext x
  simp only [read, same]

theorem operand_congr (same : ∀ x, x ∈ a ↔ x ∈ b) : a.operand = b.operand := by
  funext x
  cases x <;> simp only [operand, read_congr same]

theorem dimIndex_congr (same : ∀ x, x ∈ a ↔ x ∈ b) : a.dimIndex = b.dimIndex := by
  funext d
  cases d <;> simp only [dimIndex, operands, operand_congr same]

theorem basicOp_congr (same : ∀ x, x ∈ a ↔ x ∈ b) : a.basicOp = b.basicOp := by
  funext op
  cases op <;> simp only [basicOp, readAll, operands, slice, read_congr same, operand_congr same,
    dimIndex_congr same]

theorem dest_congr (same : ∀ x, x ∈ a ↔ x ∈ b) : a.dest = b.dest := by
  funext d
  simp only [dest, operands, read_congr same, operand_congr same]

theorem results_congr (same : ∀ x, x ∈ a ↔ x ∈ b) : a.results = b.results := by
  funext xs
  fun_induction results a xs <;> simp_all [results]

end Scope

namespace Check

variable {ε δ : Type} {scope : Scope}

/-- The outcome of a check and the marks that it leaves. -/
def outcome {α : Type} (check : Check ε α) (m : Marks) : Except ε α × Marks := check.run.run m

theorem outcome_bind (first : Check ε Unit) (second : Check ε Unit) (m : Marks) :
    outcome (do first; second) m =
      match outcome first m with
      | (.ok (), n) => outcome second n
      | (.error e, n) => (.error e, n) := by
  have unfolded : outcome (do first; second) m =
      (first m >>= fun p => ExceptT.bindCont (fun _ => second) p.1 p.2 : Id (Except ε Unit × Marks)) := rfl
  rw [unfolded]
  show ExceptT.bindCont (fun _ => second) (outcome first m).1 (outcome first m).2 = _
  cases outcome first m with
  | mk r n => cases r <;> rfl

/-- On marks that track the scope, the check has the outcome of `result`. It leaves marks that track
    the scope with further names in front: those that `result` has, if it succeeds. -/
def Follows (check : Check ε Unit) (result : Except ε Scope) (scope : Scope) : Prop :=
  ∀ m : Marks, m.Tracks scope → ∃ n more, outcome check m = (result.map fun _ => (), n) ∧
    n.Tracks (more ++ scope) ∧ ∀ later, result = .ok later → later = more ++ scope

/-- The check has this outcome and, if it succeeds, binds nothing. -/
def Keeps (check : Check ε Unit) (result : Except ε Unit) (scope : Scope) : Prop :=
  Follows check (result.map fun _ => scope) scope

/-- The check has this outcome, whatever it binds. -/
def Gives (check : Check ε Unit) (result : Except ε Unit) (scope : Scope) : Prop :=
  ∀ m : Marks, m.Tracks scope → ∃ n more, outcome check m = (result, n) ∧ n.Tracks (more ++ scope)

variable {first second : Check ε Unit} {r r' : Except ε Unit}

theorem Follows.bind {o : Except ε Scope} {f : Scope → Except ε Scope} (here : Follows first o scope)
    (rest : ∀ later, Follows second (f later) later) :
    Follows (do first; second) (o >>= f) scope := by
  intro m tracks
  obtain ⟨n, more, ran, left, names⟩ := here m tracks
  rw [outcome_bind, ran]
  cases o with
  | error e => exact ⟨n, more, rfl, left, fun later succeeded => by cases succeeded⟩
  | ok later =>
    obtain rfl := names later rfl
    obtain ⟨o, further, ran, left, names⟩ := rest _ n left
    refine ⟨o, further ++ more, ran, by simpa using left, fun later succeeded => ?_⟩
    simpa using names later succeeded

theorem Follows.gives {o : Except ε Scope} {f : Scope → Except ε Unit} (here : Follows first o scope)
    (rest : ∀ later, Gives second (f later) later) : Gives (do first; second) (o >>= f) scope := by
  intro m tracks
  obtain ⟨n, more, ran, left, names⟩ := here m tracks
  rw [outcome_bind, ran]
  cases o with
  | error e => exact ⟨n, more, rfl, left⟩
  | ok later =>
    obtain rfl := names later rfl
    obtain ⟨o, further, ran, left⟩ := rest _ n left
    exact ⟨o, further ++ more, ran, by simpa using left⟩

theorem Keeps.follows {o : Except ε Scope} (here : Keeps first r scope)
    (rest : Follows second o scope) : Follows (do first; second) (do r; o) scope := by
  intro m tracks
  obtain ⟨n, more, ran, left, names⟩ := here m tracks
  rw [outcome_bind, ran]
  cases r with
  | error e => exact ⟨n, more, rfl, left, fun later succeeded => by cases succeeded⟩
  | ok u =>
    have same : scope = more ++ scope := names scope rfl
    exact rest n (same ▸ left)

theorem Keeps.bind (here : Keeps first r scope) (rest : Keeps second r' scope) :
    Keeps (do first; second) (do r; r') scope := by
  have both := here.follows rest
  cases r <;> exact both

theorem Keeps.gives (here : Keeps first r scope) (rest : Gives second r' scope) :
    Gives (do first; second) (do r; r') scope := by
  intro m tracks
  obtain ⟨n, more, ran, left, names⟩ := here m tracks
  rw [outcome_bind, ran]
  cases r with
  | error e => exact ⟨n, more, rfl, left⟩
  | ok u =>
    have same : scope = more ++ scope := names scope rfl
    exact rest n (same ▸ left)

theorem Gives.lift (here : Gives first r scope) (r' : Except ε Unit) :
    Gives (do first; liftM r') (do r; r') scope := by
  intro m tracks
  obtain ⟨n, more, ran, left⟩ := here m tracks
  refine ⟨n, more, ?_, left⟩
  rw [outcome_bind, ran]
  cases r with
  | error e => rfl
  | ok u => cases r' <;> rfl

theorem Keeps.outcome (here : Keeps first r scope) : Gives first r scope := by
  intro m tracks
  obtain ⟨n, more, ran, left, -⟩ := here m tracks
  refine ⟨n, more, ?_, left⟩
  rw [ran]
  cases r <;> rfl

theorem keeps_reading {check : Scope → Except ε Unit}
    (same : ∀ a b : Scope, (∀ x, x ∈ a ↔ x ∈ b) → check a = check b) (scope : Scope) :
    Keeps (reading check) (check scope) scope := by
  intro m tracks
  refine ⟨m, [], ?_, tracks, fun later succeeded => ?_⟩
  · have ran : outcome (reading check) m = (check m.readable, m) := rfl
    rw [ran, same m.readable scope fun x => (m.mem_readable x).trans (tracks.defined x)]
    cases check scope <;> rfl
  · cases known : check scope with
    | error e => simp [known, Except.map] at succeeded
    | ok u => simpa [known, Except.map, eq_comm] using succeeded

theorem keeps_lift (r : Except ε Unit) (scope : Scope) : Keeps (liftM r : Check ε Unit) r scope := by
  intro m tracks
  refine ⟨m, [], ?_, tracks, fun later succeeded => ?_⟩
  · cases r <;> rfl
  · cases r with
    | error e => cases succeeded
    | ok u => exact (Except.ok.inj succeeded).symm

theorem keeps_pure (scope : Scope) : Keeps (pure () : Check ε Unit) (.ok ()) scope :=
  keeps_lift (.ok ()) scope

theorem follows_bind (x : Name) (scope : Scope) : Follows (bind x) (scope.bind x) scope := by
  intro m tracks
  have ran : outcome (bind x) m =
      if m.vars.find? x = some .defined then (.error (.rebound x), m)
      else (.ok (), ⟨m.vars.insert x .defined, x :: m.bound⟩) := rfl
  rw [ran]
  simp only [tracks.defined, Scope.bind]
  by_cases known : x ∈ scope
  · simp only [if_pos known]
    exact ⟨m, [], rfl, tracks, fun later succeeded => by cases succeeded⟩
  · simp only [if_neg known]
    exact ⟨_, [x], rfl, tracks.bind known, fun later succeeded => (Except.ok.inj succeeded).symm⟩

theorem follows_bindAll (xs : List Name) (scope : Scope) :
    Follows (bindAll xs) (scope.bindAll xs) scope := by
  induction xs generalizing scope with
  | nil =>
    intro m tracks
    exact ⟨m, [], rfl, tracks, fun later succeeded => (Except.ok.inj succeeded).symm⟩
  | cons x xs ih =>
    simp only [bindAll, List.forM_eq_forM, List.forM_cons, Scope.bindAll, List.foldlM_cons] at ih ⊢
    exact (follows_bind x scope).bind fun later => ih later

/-- At the end of a scope, reached or not, the marks track what is around it. -/
theorem Gives.inScope {check : Check ε Unit} (gives : Gives check r scope) :
    Keeps (inScope check) r scope := by
  intro m tracks
  obtain ⟨n, more, ran, left⟩ := gives m tracks
  refine ⟨close m.bound.length n, [], ?_, ?_, fun later succeeded => ?_⟩
  · have ended : Check.outcome (Check.inScope check) m =
        ((Check.outcome check m).1, close m.bound.length (Check.outcome check m).2) := rfl
    rw [ended, ran]
    cases r <;> rfl
  · rw [tracks.stack]
    exact left.close
  · cases r with
    | error e => cases succeeded
    | ok u => exact (Except.ok.inj succeeded).symm

theorem outcome_within (f : ε → δ) (check : Check ε Unit) (m : Marks) :
    outcome (within f check) m = ((outcome check m).1.mapError f, (outcome check m).2) := rfl

theorem Follows.within {check : Check ε Unit} {o : Except ε Scope} (follows : Follows check o scope)
    (f : ε → δ) : Follows (within f check) (o.mapError f) scope := by
  intro m tracks
  obtain ⟨n, more, ran, left, names⟩ := follows m tracks
  refine ⟨n, more, ?_, left, fun later succeeded => ?_⟩
  · rw [outcome_within, ran]
    cases o <;> rfl
  · cases o with
    | error e => cases succeeded
    | ok inner => exact names later (congrArg _ (Except.ok.inj succeeded))

theorem Gives.within {check : Check ε Unit} (gives : Gives check r scope) (f : ε → δ) :
    Gives (within f check) (r.mapError f) scope := by
  intro m tracks
  obtain ⟨n, more, ran, left⟩ := gives m tracks
  exact ⟨n, more, by rw [outcome_within, ran], left⟩

/-- A nested body or lambda. -/
theorem Gives.nested {check : Check ScopeError Unit} {r : Except ScopeError Unit}
    (gives : Gives check r scope) : Keeps (nested check) (Scope.nested r) scope := by
  have inside := gives.inScope.within StmError.nested
  cases r <;> exact inside

theorem Gives.withinNested {check : Check ScopeError Unit} {r : Except ScopeError Unit}
    (gives : Gives check r scope) : Gives (Check.within .nested check) (Scope.nested r) scope := by
  have inside := gives.within StmError.nested
  cases r <;> exact inside

theorem keeps_read (x : Name) (scope : Scope) : Keeps (reading (·.read x)) (scope.read x) scope :=
  keeps_reading (fun _ _ same => congrFun (Scope.read_congr same) x) scope

theorem keeps_readAll (xs : List Name) (scope : Scope) :
    Keeps (reading (·.readAll xs)) (scope.readAll xs) scope :=
  keeps_reading (fun _ _ same => congrArg xs.forM (Scope.read_congr same)) scope

theorem keeps_operand (x : Operand) (scope : Scope) :
    Keeps (reading (·.operand x)) (scope.operand x) scope :=
  keeps_reading (fun _ _ same => congrFun (Scope.operand_congr same) x) scope

theorem keeps_operands (xs : List Operand) (scope : Scope) :
    Keeps (reading (·.operands xs)) (scope.operands xs) scope :=
  keeps_reading (fun _ _ same => congrArg xs.forM (Scope.operand_congr same)) scope

theorem keeps_basicOp (op : BasicOp) (scope : Scope) :
    Keeps (reading (·.basicOp op)) (scope.basicOp op) scope :=
  keeps_reading (fun _ _ same => congrFun (Scope.basicOp_congr same) op) scope

theorem keeps_dests (ds : List ScatterDest) (scope : Scope) :
    Keeps (reading fun scope => ds.forM scope.dest) (ds.forM scope.dest) scope :=
  keeps_reading (fun _ _ same => congrArg ds.forM (Scope.dest_congr same)) scope

theorem keeps_results (xs : List Operand) (scope : Scope) :
    Keeps (reading (·.results xs)) (scope.results xs) scope :=
  keeps_reading (fun _ _ same => congrFun (Scope.results_congr same) xs) scope

/-! Programs. -/

theorem follows_params (ps : List Param) (scope : Scope) :
    Follows (params ps) (scope.params ps) scope := by
  induction ps generalizing scope with
  | nil =>
    intro m tracks
    exact ⟨m, [], rfl, tracks, fun later succeeded => (Except.ok.inj succeeded).symm⟩
  | cons p ps ih =>
    have first := (follows_bind p.name scope).within fun _ => ScopeError.param p.name
    have both := first.bind fun later => ih later
    have same : ((scope.bind p.name).mapError (fun _ => ScopeError.param p.name) >>=
        fun later => Scope.params later ps) = scope.params (p :: ps) := by
      rw [Scope.params, Scope.bind]
      split <;> rfl
    rw [same] at both
    simpa only [params, List.forM_eq_forM, List.forM_cons] using both

theorem keeps_loop (merge : List (Param × Operand)) (form : LoopForm) {b : Body}
    {body : Check ScopeError Unit} (gives : ∀ inner, Gives body (Scope.body inner b) inner)
    (scope : Scope) :
    Keeps (loop merge form body)
      (do let inner ← scope.loopScope merge form; Scope.nested (Scope.body inner b)) scope := by
  have inside (inner : Scope) := (gives inner).withinNested
  cases form with
  | whileHolds cond =>
    have opened := (follows_bindAll (merge.map (·.1.name)) scope).gives fun inner =>
      (keeps_read cond inner).gives (inside inner)
    have whole := (keeps_operands (merge.map (·.2)) scope).bind opened.inScope
    simpa [loop, Scope.loopScope, Scope.bindParams, Function.comp_def] using whole
  | forBelow counter w bound arrays =>
    have opened := (follows_bindAll (merge.map (·.1.name)) scope).gives fun inner =>
      (follows_bind counter inner).gives fun inner =>
        (follows_bindAll (arrays.map (·.1.name)) inner).gives inside
    have whole := (keeps_operands (merge.map (·.2)) scope).bind
      ((keeps_operand bound scope).bind
        ((keeps_readAll (arrays.map (·.2)) scope).bind opened.inScope))
    simpa [loop, Scope.loopScope, Scope.bindParams, Function.comp_def] using whole

mutual

theorem keeps_exp (arity : Nat) (e : Exp) (scope : Scope) :
    Keeps (exp arity e) (scope.exp arity e) scope := by
  cases e with
  | basic op => exact (keeps_basicOp op scope).bind (keeps_lift _ scope)
  | apply func args ret => exact (keeps_operands args scope).bind (keeps_lift _ scope)
  | branch cond yes no ret sort =>
    refine (keeps_operand cond scope).bind ?_
    refine (gives_body yes scope).nested.bind ((keeps_lift _ scope).bind ?_)
    refine (gives_body no scope).nested.bind ((keeps_lift _ scope).bind ?_)
    exact keeps_lift _ scope
  | loop merge form b =>
    have looped := keeps_loop merge form (gives_body b) scope
    have whole := looped.bind ((keeps_lift (Scope.loopCount merge.length b.result.length) scope).bind
      (keeps_lift (Scope.pattern merge.length arity) scope))
    simpa [exp, Scope.exp] using whole
  | withAcc inputs lam => exact (keeps_accInputs inputs scope).bind (gives_lambda lam scope).nested
  | screma width arrays scans reduces map =>
    refine (keeps_operand width scope).bind ((keeps_readAll arrays scope).bind ?_)
    refine (keeps_combiners scans scope).bind ((keeps_reductions reduces scope).bind ?_)
    exact (gives_lambda map scope).nested
  | stream width arrays form inits lam =>
    refine (keeps_operand width scope).bind ((keeps_readAll arrays scope).bind ?_)
    refine (keeps_operands inits scope).bind ((keeps_streamForm form scope).bind ?_)
    exact (gives_lambda lam scope).nested
  | hist width ops bucket arrays =>
    refine (keeps_operand width scope).bind ((keeps_histograms ops scope).bind ?_)
    exact (gives_lambda bucket scope).nested.bind (keeps_readAll arrays scope)
  | scatter width lam arrays dests =>
    refine (keeps_operand width scope).bind ((gives_lambda lam scope).nested.bind ?_)
    exact (keeps_readAll arrays scope).bind (keeps_dests dests scope)

theorem follows_stm (s : Stm) (scope : Scope) : Follows (stm s) (scope.stm s) scope := by
  obtain ⟨pat, aux, e⟩ := s
  refine (keeps_readAll aux.certs scope).follows ((keeps_exp pat.length e scope).follows ?_)
  exact follows_bindAll _ scope

theorem follows_stms (i : Nat) (ss : List Stm) (scope : Scope) :
    Follows (stms i ss) (scope.stms i ss) scope := by
  cases ss with
  | nil => exact (keeps_pure scope)
  | cons s ss =>
    have both := ((follows_stm s scope).within (ScopeError.stm i)).bind fun later =>
      follows_stms (i + 1) ss later
    have same : ((scope.stm s).mapError (ScopeError.stm i) >>= fun later =>
        Scope.stms later (i + 1) ss) = scope.stms i (s :: ss) := by
      rw [Scope.stms]
      cases scope.stm s <;> rfl
    exact same ▸ both

theorem gives_body (b : Body) (scope : Scope) : Gives (body b) (scope.body b) scope := by
  obtain ⟨ss, result⟩ := b
  exact (follows_stms 0 ss scope).gives fun inner => (keeps_results result inner).outcome

theorem gives_lambda (l : Lambda) (scope : Scope) : Gives (lambda l) (scope.lambda l) scope := by
  obtain ⟨ps, b, ret⟩ := l
  refine (follows_params ps scope).gives fun inner => ?_
  by_cases same : b.result.length = ret.length
  · simp only [if_pos same]
    exact (gives_body b inner).lift (.ok ())
  · simp only [if_neg same]
    exact (gives_body b inner).lift (.error _)

theorem keeps_combiner (c : Combiner) (scope : Scope) :
    Keeps (combiner c) (scope.combiner c) scope := by
  obtain ⟨op, neutral⟩ := c
  exact (keeps_operands neutral scope).bind (gives_lambda op scope).nested

theorem keeps_combiners (cs : List Combiner) (scope : Scope) :
    Keeps (combiners cs) (scope.combiners cs) scope := by
  cases cs with
  | nil => exact keeps_pure scope
  | cons c cs => exact (keeps_combiner c scope).bind (keeps_combiners cs scope)

theorem keeps_reductions (rs : List Reduction) (scope : Scope) :
    Keeps (reductions rs) (scope.reductions rs) scope := by
  cases rs with
  | nil => exact keeps_pure scope
  | cons r rs =>
    obtain ⟨commutative, c⟩ := r
    exact (keeps_combiner c scope).bind (keeps_reductions rs scope)

theorem keeps_streamForm (form : StreamForm) (scope : Scope) :
    Keeps (streamForm form) (scope.streamForm form) scope := by
  cases form with
  | sequential => exact keeps_pure scope
  | parallel order commutative op => exact (gives_lambda op scope).nested

theorem keeps_accInputs (inputs : List AccInput) (scope : Scope) :
    Keeps (accInputs inputs) (scope.accInputs inputs) scope := by
  cases inputs with
  | nil => exact keeps_pure scope
  | cons input rest =>
    obtain ⟨shape, arrays, combine⟩ := input
    have opened {next : Check StmError Unit} {r : Except StmError Unit} (later : Keeps next r scope) :=
      (keeps_operands shape scope).bind ((keeps_readAll arrays scope).bind later)
    cases combine with
    | none => exact opened (keeps_accInputs rest scope)
    | some c => exact opened ((keeps_combiner c scope).bind (keeps_accInputs rest scope))

theorem keeps_histograms (hs : List Histogram) (scope : Scope) :
    Keeps (histograms hs) (scope.histograms hs) scope := by
  cases hs with
  | nil => exact keeps_pure scope
  | cons h rest =>
    obtain ⟨shape, race, dests, c⟩ := h
    refine (keeps_operands shape scope).bind ((keeps_operand race scope).bind ?_)
    refine (keeps_readAll dests scope).bind ((keeps_combiner c scope).bind ?_)
    exact keeps_histograms rest scope

end

end Check

/-- The check on marks and the one on lists of names agree, errors included. -/
theorem validate_eq (l : Lambda) : l.validate = Scope.lambda [] l := by
  obtain ⟨n, more, ran, -⟩ := Check.gives_lambda l [] _ Marks.tracks_empty
  exact congrArg Prod.fst ran

end Cotangent
