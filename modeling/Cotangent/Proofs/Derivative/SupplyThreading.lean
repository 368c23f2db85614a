import Cotangent.Proofs.Derivative.ForwardProvenance
import Cotangent.Proofs.Derivative.ReverseProvenance
import Cotangent.Proofs.Derivative.ScalarPasses
/-!
One supply threaded through any number of transformations, of programs that need not be valid and may
have nothing to do with each other. A call that fails hands its supply on as well, so no two calls
introduce the same name.
-/
namespace Cotangent

open Occurrences

/-- One transformation of a pipeline, with the supply that it starts from. -/
structure Call where
  pass : Pass
  input : Lambda
  before : Supply

namespace Call

def result (c : Call) : Except DiffError Lambda := (c.pass.run c.input c.before).1

def after (c : Call) : Supply := (c.pass.run c.input c.before).2

/-- The name occurs in what the call made, and not in what it was given. -/
def Introduces (c : Call) (x : Name) : Prop :=
  ∃ out, c.result = .ok out ∧ out.Mentions x ∧ ¬ c.input.Mentions x

/-- The supply only moves forward, past every name of the input, and whatever is new in the output was
    drawn on the way: after the names that were drawn before, and after those of the input. -/
structure Linear (c : Call) : Prop where
  forward : c.before.next ≤ c.after.next
  past : ∀ x, c.input.Mentions x → x.id < c.after.next
  drawn : ∀ x, c.Introduces x →
    c.before.next ≤ x.id ∧ (∀ y, c.input.Mentions y → y.id < x.id) ∧ x.id < c.after.next

/-- A later call introduces no name that an earlier one introduced or was given. -/
structure Precedes (c d : Call) : Prop where
  supply : c.after.next ≤ d.before.next
  apart : ∀ x, c.Introduces x → ¬ d.Introduces x
  uncaptured : ∀ x, c.input.Mentions x → ¬ d.Introduces x

end Call

/-- The calls for some transformations in turn. Each takes the supply that the one before left, whether
    that one succeeded or not. -/
def pipeline : List (Pass × Lambda) → Supply → List Call
  | [], _ => []
  | (p, l) :: rest, s => ⟨p, l, s⟩ :: pipeline rest (p.run l s).2

/-! One call. -/

theorem Diff.Traced.start {α : Type} {K : Origin} {act : Diff α} {names : α → Occurrences}
    {s : Supply} (traced : Diff.Traced K s.next act names) (base_le : K.base ≤ s.next) :
    s.next ≤ (act.start s).2.next ∧
      ∀ a, (act.start s).1 = .ok a → Seen (K.upTo (act.start s).2.next) (names a) := by
  have sound : DiffState.Sound K ⟨.ofSupply s, .empty⟩ :=
    ⟨⟨base_le, fun x t found => by simp [Builder.ofSupply, NameTable.find_empty] at found, seen_nil⟩,
      fun x c found => by simp [NameTable.find_empty] at found⟩
  exact (traced _ sound rfl).2

/-- A pass draws from beyond the names of its input, and everything else in its output is from there. -/
theorem Pass.run_traced (p : Pass) (l : Lambda) (s : Supply) :
    (s.reserve l).next ≤ (p.run l s).2.next ∧ ∀ out, (p.run l s).1 = .ok out →
      Seen (Origin.upTo ⟨l.Mentions, (s.reserve l).next⟩ (p.run l s).2.next) out.occurrences := by
  have source : Seen l.Mentions l.occurrences := fun o mem => ⟨o, mem, rfl⟩
  have types := ((seen_lambda l).mp source).2.2
  let K : Origin := ⟨l.Mentions, (s.reserve l).next⟩
  cases p with
  | forward =>
    have traced : Diff.Traced K (s.reserve l).next _ Lambda.occurrences :=
      Forward.traced_top local_standard l source (seen_tangentTypes l.ret types) fun _ =>
        Forward.traced_tangents l.body.result
    exact traced.start (Nat.le_refl _)
  | forwardBundled =>
    have results := ((seen_body _).mp ((seen_lambda l).mp source).2.1).2
    have traced : Diff.Traced K (s.reserve l).next _ Lambda.occurrences :=
      Forward.traced_top local_standard l source (seen_bundledTypes types) fun m =>
        Forward.traced_bundleOperands (results.ofSource m)
    exact traced.start (Nat.le_refl _)
  | reverse =>
    have traced : Diff.Traced K (s.reserve l).next _ Lambda.occurrences :=
      Reverse.traced_top local_standard l (source.ofSource (K := K) _)
    exact traced.start (Nat.le_refl _)

theorem Call.linear (c : Call) : c.Linear := by
  obtain ⟨reserved, traced⟩ := c.pass.run_traced c.input c.before
  have forward : c.before.next ≤ (c.before.reserve c.input).next := c.before.le_skip _
  have past : ∀ x, c.input.Mentions x → x.id < (c.before.reserve c.input).next := by
    rintro _ ⟨o, mem, rfl⟩
    exact lt_reserve c.before c.input mem
  refine ⟨Nat.le_trans forward reserved, fun x known => Nat.lt_of_lt_of_le (past x known) reserved, ?_⟩
  rintro x ⟨out, made, ⟨o, mem, rfl⟩, unknown⟩
  obtain known | ⟨lower, upper⟩ := traced out made o mem
  · exact absurd known unknown
  · exact ⟨Nat.le_trans forward lower, fun y known => Nat.lt_of_lt_of_le (past y known) lower, upper⟩

/-- Calls whose supplies do not overlap introduce different names. -/
theorem Call.precedes {c d : Call} (supply : c.after.next ≤ d.before.next) : c.Precedes d where
  supply := supply
  apart x first second := by
    have upper := (c.linear.drawn x first).2.2
    have lower := (d.linear.drawn x second).1
    omega
  uncaptured x known second := by
    have upper := c.linear.past x known
    have lower := (d.linear.drawn x second).1
    omega

/-! Pipelines. -/

/-- Every call of a pipeline starts from where the supply was at first, or later. -/
theorem le_before {calls : List (Pass × Lambda)} {s : Supply} {c : Call}
    (mem : c ∈ pipeline calls s) : s.next ≤ c.before.next := by
  induction calls generalizing s with
  | nil => simp [pipeline] at mem
  | cons call rest ih =>
    obtain ⟨p, l⟩ := call
    rcases List.mem_cons.mp mem with rfl | mem
    · exact Nat.le_refl _
    · exact Nat.le_trans (Call.linear ⟨p, l, s⟩).forward (ih mem)

/-- The supply stays linear over a pipeline, whatever the calls are and whichever of them fail: each
    call moves it past its input and draws what it introduces from it, and no later call introduces a
    name again. -/
theorem pipeline_linear (calls : List (Pass × Lambda)) (s : Supply) :
    (∀ c ∈ pipeline calls s, c.Linear) ∧ (pipeline calls s).Pairwise Call.Precedes := by
  refine ⟨fun c _ => c.linear, ?_⟩
  induction calls generalizing s with
  | nil => exact List.Pairwise.nil
  | cons call rest ih =>
    obtain ⟨p, l⟩ := call
    exact List.pairwise_cons.mpr ⟨fun d later => Call.precedes (le_before later), ih _⟩

-- The first call fails, since loops have no adjoints, and keeps the seed that it drew.
example : (pipeline [(.reverse, Forward.powerLoop), (.forward, Forward.powerLoop)] ⟨0⟩).map
    (fun c => (c.before.next, c.after.next)) = [(0, 7), (7, 14)] := by decide +kernel

end Cotangent
