import Mathlib.Data.List.Basic
import Cotangent.Builder
import Cotangent.Proofs.Evaluation.FormulaRuns
/-!
A journal of what happens to a builder: which names it hands out, which types it is told and asked for,
which statements are put into a buffer and which lists are handed back. Statements are conserved: what was
put into a buffer is what was handed back from it, in that order, and then what is still there. The journal
of a nested collection is an entry of the one around it, since it has a buffer of its own but shares the
names and the types.
-/
namespace Cotangent

/-! What a formula is lowered to. -/

namespace Formula

/-- A run of expressions, each bound to the next name. -/
abbrev Lets := List (Ty × Exp)

/-- The operand for a formula whose outermost operation is `code`, with the first free name `n`. -/
def bound (f : Formula) (n : Nat) (code : Lets × Exp) : Lets × Operand :=
  match f with
  | .leaf x _ => ([], .var x)
  | .lit v => ([], .const v)
  | f => (code.1 ++ [(.scalar f.ty, code.2)], .var ⟨n + code.1.length⟩)

mutual

/-- The outermost operation of a formula after the bindings for its operands, from left to right. -/
def code (n : Nat) : Formula → Lets × Exp
  | .leaf x _ => ([], .basic (.operand (.var x)))
  | .lit v => ([], .basic (.operand (.const v)))
  | .unary op a =>
    let (before, x) := a.bound n (code n a)
    (before, .basic (.unary op x))
  | .binary op a b =>
    let (left, x) := a.bound n (code n a)
    let (right, y) := b.bound (n + left.length) (code (n + left.length) b)
    (left ++ right, .basic (.binary op x y))
  | .compare op a b =>
    let (left, x) := a.bound n (code n a)
    let (right, y) := b.bound (n + left.length) (code (n + left.length) b)
    (left ++ right, .basic (.compare op x y))
  | .convert op a =>
    let (before, x) := a.bound n (code n a)
    (before, .basic (.convert op x))
  | .call func args t =>
    let (before, xs) := codeAll n args
    (before, .apply func xs [.scalar t])

def codeAll (n : Nat) : List Formula → Lets × List Operand
  | [] => ([], [])
  | f :: fs =>
    let (first, x) := f.bound n (code n f)
    let (rest, xs) := codeAll (n + first.length) fs
    (first ++ rest, x :: xs)

end

end Formula

namespace Builder

/-- The builder after each of the expressions is bound to a fresh name. -/
def letAll (b : Builder) (lets : Formula.Lets) : Builder :=
  lets.foldl (fun b l => (Build.letExp l.1 l.2 b).2) b

theorem letAll_append (b : Builder) (first later : Formula.Lets) :
    b.letAll (first ++ later) = (b.letAll first).letAll later := List.foldl_append ..

theorem next_letAll (b : Builder) (lets : Formula.Lets) :
    (b.letAll lets).supply.next = b.supply.next + lets.length := by
  induction lets generalizing b with
  | nil => rfl
  | cons l lets ih =>
    calc (b.letAll (l :: lets)).supply.next
        = (Build.letExp l.1 l.2 b).2.supply.next + lets.length := ih _
      _ = b.supply.next + 1 + lets.length := rfl
      _ = b.supply.next + (l :: lets).length := by rw [List.length_cons]; omega

end Builder

namespace Build

open Formula

variable {α β γ : Type} {act : Build α} {later : Build β} {c : Nat → Lets × α} {d : Nat → Lets × β}

/-- The action binds the code at the next name and does nothing else. -/
def Lowers (act : Build α) (c : Nat → Lets × α) : Prop :=
  ∀ b : Builder, act b = ((c b.supply.next).2, b.letAll (c b.supply.next).1)

theorem lowers_pure (a : α) : Lowers (pure a) fun _ => ([], a) := fun _ => rfl

theorem Lowers.map (lowers : Lowers act c) (g : α → γ) :
    Lowers (do return g (← act)) fun n => ((c n).1, g (c n).2) := by
  intro b
  show (g (act b).1, (act b).2) = _
  rw [lowers b]

/-- The second action starts at the name after those that the first has bound. -/
theorem Lowers.both (first : Lowers act c) (second : Lowers later d) (g : α → β → γ) :
    Lowers (do return g (← act) (← later)) fun n =>
      ((c n).1 ++ (d (n + (c n).1.length)).1, g (c n).2 (d (n + (c n).1.length)).2) := by
  intro b
  show (g (act b).1 (later (act b).2).1, (later (act b).2).2) = _
  rw [first b, second, Builder.next_letAll, Builder.letAll_append]

theorem lowers_operandOf (f : Formula) {e : Build Exp} {c : Nat → Lets × Exp} (lowers : Lowers e c) :
    Lowers (operandOf f e) fun n => f.bound n (c n) := by
  have named (t : Ty) : Lowers (do return Operand.var (← letExp t (← e))) fun n =>
      ((c n).1 ++ [(t, (c n).2)], Operand.var ⟨n + (c n).1.length⟩) := by
    intro b
    show (Operand.var ⟨(e b).2.supply.next⟩, (letExp t (e b).1 (e b).2).2) = _
    rw [lowers b, Builder.next_letAll, Builder.letAll_append]
    rfl
  cases f with
  | leaf | lit => exact lowers_pure _
  | _ => exact named _

mutual

theorem lowers_expOf : ∀ f : Formula, Lowers (expOf f) fun n => f.code n
  | .leaf .. => lowers_pure _
  | .lit _ => lowers_pure _
  | .unary op a => (lowers_operandOf a (lowers_expOf a)).map fun x => Exp.basic (.unary op x)
  | .binary op a b => (lowers_operandOf a (lowers_expOf a)).both (lowers_operandOf b (lowers_expOf b))
      fun x y => Exp.basic (.binary op x y)
  | .compare op a b => (lowers_operandOf a (lowers_expOf a)).both
      (lowers_operandOf b (lowers_expOf b)) fun x y => Exp.basic (.compare op x y)
  | .convert op a => (lowers_operandOf a (lowers_expOf a)).map fun x => Exp.basic (.convert op x)
  | .call func args t => (lowers_operandsOf args).map fun xs => Exp.apply func xs [.scalar t]

theorem lowers_operandsOf : ∀ fs : List Formula, Lowers (operandsOf fs) fun n => codeAll n fs
  | [] => lowers_pure _
  | f :: fs => (lowers_operandOf f (lowers_expOf f)).both (lowers_operandsOf fs) List.cons

end

/-! Steps and their journal. -/

/-- What a client may do to a builder, and the question for a type at any time. -/
inductive Step where
  | fresh
  | param (t : Ty)
  | declare (x : Name) (t : Ty)
  | ask (x : Name)
  | add (s : Stm)
  | bind (pat : List Param) (e : Exp)
  | letExp (t : Ty) (e : Exp)
  | letBasic (t : Ty) (op : BasicOp)
  | lower (f : Formula)
  | bindFormula (p : Param) (aux : Annotations) (f : Formula)
  | take
  | replace (stms : List Stm)
  | lambda (params : List Param) (result : List Operand)
  | collect (steps : List Step)

/-- An entry of the journal. What is `handed` back has left the buffer. A collection is a single entry,
    with the journal of what happened inside and the statements that it handed back at its end. -/
inductive Event where
  | drew (x : Name)
  | told (x : Name) (t : Ty)
  | asked (x : Name) (answer : Except UnknownName Ty)
  | put (s : Stm)
  | handed (stms : List Stm)
  | collected (inner : List Event) (stms : List Stm)

/-- A statement declares what it binds. -/
def added (s : Stm) : List Event := s.pat.map (fun p => .told p.name p.ty) ++ [.put s]

/-- Each expression is bound to a name of its own, the first to `n`. -/
def letEvents (n : Nat) : Lets → List Event
  | [] => []
  | (t, e) :: lets => .drew ⟨n⟩ :: added ⟨[⟨⟨n⟩, t⟩], .none, e⟩ ++ letEvents (n + 1) lets

mutual

/-- Does the step and returns its journal. -/
def Step.journal : Step → Build (List Event)
  | .fresh => return [.drew (← Build.fresh)]
  | .param t => do
    let p ← Build.param t
    return [.drew p.name, .told p.name t]
  | .declare x t => do
    Build.declare x t
    return [.told x t]
  | .ask x => return [.asked x ((← get).ty x)]
  | .add s => do
    Build.add s
    return added s
  | .bind pat e => do
    Build.bind pat e
    return added ⟨pat, .none, e⟩
  | .letExp t e => do
    let x ← Build.letExp t e
    return .drew x :: added ⟨[⟨x, t⟩], .none, e⟩
  | .letBasic t op => do
    let x ← Build.letBasic t op
    return .drew x :: added ⟨[⟨x, t⟩], .none, .basic op⟩
  | .lower f => do
    let n := (← get).supply.next
    let _ ← Build.lower f
    return letEvents n (f.bound n (f.code n)).1
  | .bindFormula p aux f => do
    let n := (← get).supply.next
    Build.bindFormula p aux f
    return letEvents n (f.code n).1 ++ added ⟨[p], aux, (f.code n).2⟩
  | .take => return [.handed (← Build.take)]
  | .replace stms => return .handed (← Build.replace stms) :: stms.map .put
  | .lambda params result => do
    match ← Build.lambda params result with
    | .ok l => return [.handed l.body.stms]
    | .error _ => return []
  | .collect steps => do
    let (inner, stms) ← Build.collect (journals steps)
    return [.collected inner stms]

def journals : List Step → Build (List Event)
  | [] => return []
  | s :: steps => return (← s.journal) ++ (← journals steps)

end

/-! Reading a journal. -/

mutual

/-- All entries at any depth, in the order in which they were made; a collection is over after what
    happened inside. -/
def Event.timeline : Event → List Event
  | .collected inner stms => timeline inner ++ [.collected inner stms]
  | e => [e]

def timeline : List Event → List Event
  | [] => []
  | e :: es => e.timeline ++ timeline es

end

def drawn (es : List Event) : List Name := es.filterMap fun
  | .drew x => some x
  | _ => none

def typings (es : List Event) : List (Name × Ty) := es.filterMap fun
  | .told x t => some (x, t)
  | _ => none

def puts (es : List Event) : List Stm := es.filterMap fun
  | .put s => some s
  | _ => none

/-- What is handed back from the buffer that the entries are about. -/
def handed (es : List Event) : List Stm := es.flatMap fun
  | .handed stms => stms
  | _ => []

/-- What is handed back from this buffer and, at the end of collections, from theirs. -/
def handedByAll (es : List Event) : List Stm := es.flatMap fun
  | .handed stms => stms
  | .collected _ stms => stms
  | _ => []

/-- What a builder answers about a name after further types: the latest of them, if there is one. -/
def tyAfter (b : Builder) (told : List (Name × Ty)) (x : Name) : Except UnknownName Ty :=
  match told.reverse.lookup x with
  | some t => .ok t
  | none => b.ty x

/-- Entries in the order of time account for the names and the types, which all buffers share: names are
    drawn one after the other, and an answer at any time is the latest type up to then. -/
structure Records (b : Builder) (es : List Event) (c : Builder) : Prop where
  names : drawn es = namesBetween b.supply.next c.supply.next
  next_le : b.supply.next ≤ c.supply.next
  known : ∀ x, c.ty x = tyAfter b (typings es) x
  answers : ∀ before x answer later, es = before ++ .asked x answer :: later →
    answer = tyAfter b (typings before) x

/-- The journal accounts for the way from one builder to the other. In each buffer the statements that
    are handed back and those that remain are the statements put in, in the same order; over all buffers
    each statement is in one of these places. -/
structure Accounts (b : Builder) (es : List Event) (c : Builder) : Prop where
  buffer : b.stms ++ puts es = handed es ++ c.stms
  collected : ∀ inner stms, .collected inner stms ∈ timeline es → puts inner = handed inner ++ stms
  whole : (b.stms ++ puts (timeline es)).Perm (handedByAll (timeline es) ++ c.stms)
  shared : Records b (timeline es) c

/-! Composing journals. -/

theorem timeline_append (es fs : List Event) : timeline (es ++ fs) = timeline es ++ timeline fs := by
  induction es with
  | nil => rfl
  | cons e es ih => rw [List.cons_append, timeline, timeline, ih, List.append_assoc]

theorem drawn_append (es fs : List Event) : drawn (es ++ fs) = drawn es ++ drawn fs :=
  List.filterMap_append

theorem typings_append (es fs : List Event) : typings (es ++ fs) = typings es ++ typings fs :=
  List.filterMap_append

theorem puts_append (es fs : List Event) : puts (es ++ fs) = puts es ++ puts fs :=
  List.filterMap_append

theorem handed_append (es fs : List Event) : handed (es ++ fs) = handed es ++ handed fs :=
  List.flatMap_append

theorem handedByAll_append (es fs : List Event) :
    handedByAll (es ++ fs) = handedByAll es ++ handedByAll fs := List.flatMap_append

variable {b c d : Builder} {es fs : List Event}

theorem tyAfter_append {told : List (Name × Ty)} (known : ∀ x, c.ty x = tyAfter b told x)
    (later : List (Name × Ty)) (x : Name) : tyAfter c later x = tyAfter b (told ++ later) x := by
  rw [tyAfter, known, tyAfter, tyAfter, List.reverse_append, List.lookup_append]
  cases later.reverse.lookup x <;> rfl

theorem Records.append (first : Records b es c) (second : Records c fs d) :
    Records b (es ++ fs) d where
  names := by
    rw [drawn_append, first.names, second.names, namesBetween_append first.next_le second.next_le]
  next_le := Nat.le_trans first.next_le second.next_le
  known x := by rw [second.known, tyAfter_append first.known, typings_append]
  answers before x answer later split := by
    rcases List.append_eq_append_iff.mp split with ⟨mid, rfl, rest⟩ | ⟨mid, whole, rest⟩
    · rw [second.answers mid x answer later rest, tyAfter_append first.known, typings_append]
    · cases mid with
      | nil =>
        -- the question is the first entry of the second part
        have atFirst := second.answers [] x answer later rest.symm
        rwa [tyAfter_append first.known, ← typings_append, whole, List.append_nil,
          List.append_nil] at atFirst
      | cons e mid =>
        obtain ⟨rfl, rfl⟩ := List.cons.inj rest
        exact first.answers before x answer mid whole

theorem Accounts.append (first : Accounts b es c) (second : Accounts c fs d) :
    Accounts b (es ++ fs) d where
  buffer := by
    rw [puts_append, handed_append, ← List.append_assoc, first.buffer, List.append_assoc,
      second.buffer, List.append_assoc]
  collected inner stms mem := by
    rw [timeline_append] at mem
    rcases List.mem_append.mp mem with mem | mem
    · exact first.collected inner stms mem
    · exact second.collected inner stms mem
  whole := by
    have before := first.whole.append_right (puts (timeline fs))
    have after := second.whole.append_left (handedByAll (timeline es))
    rw [timeline_append, puts_append, handedByAll_append]
    simp only [List.append_assoc] at before after ⊢
    exact before.trans after
  shared := by
    rw [timeline_append]
    exact first.shared.append second.shared

/-! Single entries. -/

theorem records_entry {e : Event} (names : drawn [e] = namesBetween b.supply.next c.supply.next)
    (next_le : b.supply.next ≤ c.supply.next) (known : ∀ x, c.ty x = tyAfter b (typings [e]) x)
    (answers : ∀ x answer, e = .asked x answer → answer = b.ty x) : Records b [e] c := by
  refine ⟨names, next_le, known, fun before x answer later split => ?_⟩
  cases before with
  | nil => exact answers x answer (List.cons.inj split).1
  | cons _ _ => simp at split

/-- An entry that is about neither a name nor a type. -/
theorem records_silent {e : Event} (names : drawn [e] = []) (types : typings [e] = [])
    (unasked : ∀ x answer, e ≠ .asked x answer) (b : Builder) : Records b [e] b := by
  refine records_entry ?_ (Nat.le_refl _) ?_ fun x answer same => absurd same (unasked x answer)
  · simp [names, namesBetween]
  · rw [types]
    exact fun _ => rfl

/-- An entry outside of collections. -/
theorem Records.accounts {e : Event} (shared : Records b [e] c)
    (plain : ∀ inner stms, e ≠ .collected inner stms)
    (buffer : b.stms ++ puts [e] = handed [e] ++ c.stms) : Accounts b [e] c := by
  have alone : timeline [e] = [e] := by
    cases e with
    | collected inner stms => exact absurd rfl (plain inner stms)
    | _ => rfl
  have byAll : handedByAll [e] = handed [e] := by
    cases e with
    | collected inner stms => exact absurd rfl (plain inner stms)
    | _ => rfl
  constructor
  · exact buffer
  · rw [alone]
    exact fun inner stms mem => absurd (List.mem_singleton.mp mem).symm (plain inner stms)
  · rw [alone, byAll, buffer]
  · rwa [alone]

theorem accounts_drew (b : Builder) :
    Accounts b [.drew ⟨b.supply.next⟩] { b with supply := ⟨b.supply.next + 1⟩ } := by
  refine (records_entry ?_ (Nat.le_succ _) (fun _ => rfl) (by simp)).accounts (by simp) ?_
  · simp [drawn, namesBetween]
  · simp [puts, handed]

theorem accounts_told (b : Builder) (x : Name) (t : Ty) :
    Accounts b [.told x t] (b.declareIn x t) := by
  have types (y : Name) : (b.declareIn x t).ty y = tyAfter b [(x, t)] y := by
    rw [Builder.ty, Builder.declareIn, NameTable.find_insert]
    by_cases same : y = x
    · simp [tyAfter, same]
    · have other : (y == x) = false := by simpa using same
      simp [tyAfter, List.lookup_cons, Builder.ty, same, other]
  have shared : Records b [.told x t] (b.declareIn x t) :=
    records_entry (by simp [drawn, namesBetween, Builder.declareIn]) (Nat.le_refl _) types (by simp)
  exact shared.accounts (by simp) (by simp [puts, handed, Builder.declareIn])

theorem accounts_asked (b : Builder) (x : Name) : Accounts b [.asked x (b.ty x)] b := by
  refine (records_entry ?_ (Nat.le_refl _) (fun _ => rfl) (by simp)).accounts (by simp) ?_
  · simp [drawn, namesBetween]
  · simp [puts, handed]

theorem accounts_put (b : Builder) (s : Stm) :
    Accounts b [.put s] { b with stms := b.stms ++ [s] } := by
  have silent := records_silent (e := .put s) rfl rfl (by simp) b
  exact Records.accounts ⟨silent.names, silent.next_le, silent.known, silent.answers⟩ (by simp)
    (by simp [puts, handed])

theorem accounts_handed (b : Builder) : Accounts b [.handed b.stms] { b with stms := [] } := by
  have silent := records_silent (e := .handed b.stms) rfl rfl (by simp) b
  exact Records.accounts ⟨silent.names, silent.next_le, silent.known, silent.answers⟩ (by simp)
    (by simp [puts, handed])

theorem accounts_nil (b : Builder) : Accounts b [] b where
  buffer := by simp [puts, handed]
  collected := by simp [timeline]
  whole := by simp [timeline, puts, handedByAll]
  shared := {
    names := by simp [timeline, drawn, namesBetween]
    next_le := Nat.le_refl _
    known _ := rfl
    answers := by simp [timeline] }

/-- A collection starts with an empty buffer, and ends with the buffer from before. -/
theorem Accounts.collection (inside : Accounts { b with stms := [] } es c) :
    Accounts b [.collected es c.stms] { c with stms := b.stms } := by
  have entry : timeline [.collected es c.stms] = timeline es ++ [.collected es c.stms] := by
    simp [timeline, Event.timeline]
  refine ⟨by simp [puts, handed], ?_, ?_, ?_⟩
  · intro inner stms mem
    rw [entry] at mem
    rcases List.mem_append.mp mem with mem | mem
    · exact inside.collected inner stms mem
    · obtain ⟨rfl, rfl⟩ := Event.collected.inj (List.mem_singleton.mp mem)
      simpa using inside.buffer
  · have closed : puts [.collected es c.stms] = [] := rfl
    have given : handedByAll [.collected es c.stms] = c.stms := by simp [handedByAll]
    rw [entry, puts_append, handedByAll_append, closed, given, List.append_nil]
    have whole : (puts (timeline es)).Perm (handedByAll (timeline es) ++ c.stms) := inside.whole
    exact List.perm_append_comm.trans (whole.append_right b.stms)
  · rw [entry]
    have joined := inside.shared.append (records_silent (e := .collected es c.stms) rfl rfl (by simp) c)
    exact ⟨joined.names, joined.next_le, joined.known, joined.answers⟩

/-! Steps. -/

theorem accounts_params (b : Builder) (ps : List Param) :
    Accounts b (ps.map fun p => .told p.name p.ty) (declareParams ps b).2 := by
  induction ps generalizing b with
  | nil => exact accounts_nil b
  | cons p ps ih => exact (accounts_told b p.name p.ty).append (ih (b.declareIn p.name p.ty))

theorem accounts_added (b : Builder) (s : Stm) : Accounts b (added s) (add s b).2 :=
  (accounts_params b s.pat).append (accounts_put _ s)

theorem accounts_letExp (b : Builder) (t : Ty) (e : Exp) :
    Accounts b (.drew ⟨b.supply.next⟩ :: added ⟨[⟨⟨b.supply.next⟩, t⟩], .none, e⟩) (letExp t e b).2 :=
  (accounts_drew b).append (accounts_added _ _)

theorem accounts_letAll (b : Builder) (lets : Lets) :
    Accounts b (letEvents b.supply.next lets) (b.letAll lets) := by
  induction lets generalizing b with
  | nil => exact accounts_nil b
  | cons l lets ih => exact (accounts_letExp b l.1 l.2).append (ih (letExp l.1 l.2 b).2)

theorem accounts_puts (b : Builder) (stms : List Stm) :
    Accounts b (stms.map .put) { b with stms := b.stms ++ stms } := by
  induction stms generalizing b with
  | nil => simpa using accounts_nil b
  | cons s stms ih => simpa using (accounts_put b s).append (ih { b with stms := b.stms ++ [s] })

theorem accounts_lower (b : Builder) (f : Formula) :
    Accounts b (letEvents b.supply.next (f.bound b.supply.next (f.code b.supply.next)).1)
      (lower f b).2 := by
  rw [lower, lowers_operandOf f (lowers_expOf f) b]
  exact accounts_letAll b _

theorem accounts_bindFormula (b : Builder) (p : Param) (aux : Annotations) (f : Formula) :
    Accounts b (letEvents b.supply.next (f.code b.supply.next).1 ++
      added ⟨[p], aux, (f.code b.supply.next).2⟩) (bindFormula p aux f b).2 := by
  have whole : (bindFormula p aux f b).2 = (add ⟨[p], aux, (expOf f b).1⟩ (expOf f b).2).2 := rfl
  rw [whole, lowers_expOf f b]
  exact (accounts_letAll b _).append (accounts_added _ _)

/-- Without the type of a result nothing happens; with all of them, the statements are handed over. -/
theorem lambda_apply (params : List Param) (result : List Operand) (b : Builder) :
    lambda params result b = match result.mapM b.operandTy with
      | .error e => (.error e, b)
      | .ok ret => (.ok ⟨params, ⟨b.stms, result⟩, ret⟩, { b with stms := [] }) := by
  show (match result.mapM b.operandTy with
    | .error e => (return .error e : Build (Except UnknownName Lambda))
    | .ok ret => (return .ok ⟨params, ⟨← take, result⟩, ret⟩)) b = _
  cases result.mapM b.operandTy <;> rfl

theorem accounts_lambda (b : Builder) (params : List Param) (result : List Operand) :
    Accounts b ((Step.lambda params result).journal b).1 ((Step.lambda params result).journal b).2 := by
  cases types : result.mapM b.operandTy with
  | error e =>
    have none : (Step.lambda params result).journal b = ([], b) := by
      simp [Step.journal, lambda_apply, types]
    rw [none]
    exact accounts_nil b
  | ok ret =>
    have all : (Step.lambda params result).journal b = ([.handed b.stms], { b with stms := [] }) := by
      simp [Step.journal, lambda_apply, types]
    rw [all]
    exact accounts_handed b

mutual

theorem accounts_step : ∀ (s : Step) (b : Builder), Accounts b (s.journal b).1 (s.journal b).2
  | .fresh, b => accounts_drew b
  | .param t, b => (accounts_drew b).append (accounts_told _ _ t)
  | .declare x t, b => accounts_told b x t
  | .ask x, b => accounts_asked b x
  | .add s, b => accounts_added b s
  | .bind pat e, b => accounts_added b ⟨pat, .none, e⟩
  | .letExp t e, b => accounts_letExp b t e
  | .letBasic t op, b => accounts_letExp b t (.basic op)
  | .lower f, b => accounts_lower b f
  | .bindFormula p aux f, b => accounts_bindFormula b p aux f
  | .take, b => accounts_handed b
  | .replace stms, b => (accounts_handed b).append (accounts_puts _ stms)
  | .lambda params result, b => accounts_lambda b params result
  | .collect steps, b => (accounts_steps steps { b with stms := [] }).collection

theorem accounts_steps : ∀ (steps : List Step) (b : Builder),
    Accounts b (journals steps b).1 (journals steps b).2
  | [], b => accounts_nil b
  | s :: steps, b => (accounts_step s b).append (accounts_steps steps _)

end

theorem collect_stms {α : Type} (act : Build α) (b : Builder) : (collect act b).2.stms = b.stms := rfl

theorem lambda_error {params : List Param} {result : List Operand} {e : UnknownName}
    (failed : (lambda params result b).1 = .error e) : (lambda params result b).2 = b := by
  rw [lambda_apply] at failed ⊢
  cases types : result.mapM b.operandTy with
  | error => rfl
  | ok ret => simp [types] at failed

/-- From a builder that knows no types, just the names of the journal have one. -/
theorem known_iff {s : Supply} (shared : Records (.ofSupply s) es c) (x : Name) :
    (∃ t, c.ty x = .ok t) ↔ x ∈ (typings es).map (·.1) := by
  rw [shared.known, tyAfter]
  cases found : (typings es).reverse.lookup x with
  | none =>
    have absent : ∀ p ∈ typings es, p.1 ≠ x := fun p mem same => by
      simpa [same] using List.lookup_eq_none_iff.mp found p (List.mem_reverse.mpr mem)
    constructor
    · rintro ⟨t, impossible⟩
      cases impossible
    · intro mem
      obtain ⟨p, isIn, same⟩ := List.mem_map.mp mem
      exact absurd same (absent p isIn)
  | some t =>
    obtain ⟨before, later, whole, -⟩ := List.lookup_eq_some_iff.mp found
    have mem : (x, t) ∈ typings es := List.mem_reverse.mp (by simp [whole])
    exact ⟨fun _ => List.mem_map_of_mem mem, fun _ => ⟨t, rfl⟩⟩

/-- Whatever is done to a builder, in collections of any depth and with lambdas that fail, no statement is
    lost or doubled and no name drawn twice, and every type that was declared stays known. -/
theorem builder_conserves (steps : List Step) (b : Builder) :
    Accounts b (journals steps b).1 (journals steps b).2 ∧
    (∀ s, b = .ofSupply s → ∀ x, (∃ t, (journals steps b).2.ty x = .ok t) ↔
      x ∈ (typings (timeline (journals steps b).1)).map (·.1)) ∧
    (collect (journals steps) b).2.stms = b.stms ∧
    ∀ params result e, (lambda params result b).1 = .error e → (lambda params result b).2 = b := by
  have accounts := accounts_steps steps b
  refine ⟨accounts, ?_, collect_stms _ b, fun _ _ _ => lambda_error⟩
  rintro s rfl x
  exact known_iff accounts.shared x

/-- A collection in a collection, in which a list is replaced. -/
theorem builder_conserves_nested :
    let t : Ty := .scalar (.int .i64)
    let e : Exp := .basic (.operand (.var ⟨0⟩))
    let sum : Formula := .add (.leaf ⟨0⟩ (.int .i64)) (.leaf ⟨1⟩ (.int .i64))
    let steps : List Step := [.param t, .letExp t e, .collect [.lower sum, .ask ⟨2⟩,
      .replace [⟨[⟨⟨7⟩, t⟩], .none, e⟩], .collect [.letExp t e]], .take]
    let b := Builder.ofSupply ⟨0⟩
    let ran := journals steps b
    boundNames (handedByAll (timeline ran.1)) = [⟨2⟩, ⟨3⟩, ⟨7⟩, ⟨1⟩] ∧
      (lambda [] [.var ⟨9⟩] b).1 = .error ⟨⟨9⟩⟩ ∧ (lambda [] [.var ⟨9⟩] b).2 = b ∧
      Accounts b ran.1 ran.2 := by
  intro t e sum steps b ran
  obtain ⟨accounts, -, -, unchanged⟩ := builder_conserves steps b
  exact ⟨by decide +kernel, rfl, unchanged [] [.var ⟨9⟩] ⟨⟨9⟩⟩ rfl, accounts⟩

end Build

end Cotangent
