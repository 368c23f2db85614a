import Mathlib.Tactic.Common
import Cotangent.Program.Occurrence
/-!
Programs in which a predicate holds of every name, binders and type annotations included.
-/
namespace Cotangent

@[simp] theorem Occurrence.name_binds (x : Name) : (Occurrence.binds x).name = x := rfl

@[simp] theorem Occurrence.name_reads (x : Name) : (Occurrence.reads x).name = x := rfl

/-- The name occurs somewhere in the program, bound or read. -/
def Lambda.Mentions (l : Lambda) (x : Name) : Prop := ∃ o ∈ l.occurrences, o.name = x

namespace Occurrences

variable {on : Name → Prop}

/-- The predicate holds of every name that occurs. -/
def Seen (on : Name → Prop) (os : Occurrences) : Prop := ∀ o ∈ os, on o.name

@[simp] theorem seen_nil : Seen on [] := by simp [Seen]

@[simp] theorem seen_cons (o : Occurrence) (os : Occurrences) :
    Seen on (o :: os) ↔ on o.name ∧ Seen on os := List.forall_mem_cons

@[simp] theorem seen_append (os ps : Occurrences) :
    Seen on (os ++ ps) ↔ Seen on os ∧ Seen on ps := List.forall_mem_append

theorem seen_flatMap {α : Type} (xs : List α) (f : α → Occurrences) :
    Seen on (xs.flatMap f) ↔ ∀ x ∈ xs, Seen on (f x) := List.forall_mem_flatMap

@[simp] theorem seen_names (xs : List Name) : Seen on (nameOccurrences xs) ↔ ∀ x ∈ xs, on x := by
  simp [Seen, nameOccurrences, Occurrence.name]

@[simp] theorem seen_operands (xs : List Operand) :
    Seen on (operandOccurrences xs) ↔ ∀ x ∈ xs, Seen on x.occurrences := seen_flatMap xs _

theorem seen_slice (ds : List DimIndex) :
    Seen on (sliceOccurrences ds) ↔ ∀ d ∈ ds, Seen on d.occurrences := seen_flatMap ds _

theorem Seen.mono {wider : Name → Prop} {os : Occurrences} (seen : Seen on os)
    (sub : ∀ x, on x → wider x) : Seen wider os := fun o mem => sub _ (seen o mem)

theorem seen_types (ts : List Ty) :
    Seen on (typeOccurrences ts) ↔ ∀ t ∈ ts, Seen on t.occurrences := by
  induction ts with
  | nil => simp [typeOccurrences]
  | cons t ts ih => simp [typeOccurrences, ih]

theorem seen_params (ps : List Param) :
    Seen on (paramOccurrences ps) ↔ ∀ p ∈ ps, Seen on p.occurrences := seen_flatMap ps _

theorem seen_stms (ss : List Stm) :
    Seen on (stmOccurrences ss) ↔ ∀ s ∈ ss, Seen on s.occurrences := by
  induction ss with
  | nil => simp [stmOccurrences]
  | cons s ss ih => simp [stmOccurrences, ih]

theorem seen_stm (s : Stm) : Seen on s.occurrences ↔
    (∀ x ∈ s.aux.certs, on x) ∧ Seen on s.exp.occurrences ∧ Seen on (paramOccurrences s.pat) := by
  obtain ⟨pat, aux, e⟩ := s
  simp [Stm.occurrences]

theorem seen_body (b : Body) : Seen on b.occurrences ↔
    Seen on (stmOccurrences b.stms) ∧ Seen on (operandOccurrences b.result) := by
  cases b
  simp [Body.occurrences]

theorem seen_lambda (l : Lambda) : Seen on l.occurrences ↔
    Seen on (paramOccurrences l.params) ∧ Seen on l.body.occurrences ∧
      Seen on (typeOccurrences l.ret) := by
  cases l
  simp [Lambda.occurrences]

/-- The binders of seen parameters. -/
theorem Seen.params {ps : List Param} (seen : Seen on (paramOccurrences ps)) :
    ∀ x ∈ ps.map (·.name), on x := by
  intro x mem
  obtain ⟨p, isParam, rfl⟩ := List.mem_map.mp mem
  exact seen (.binds p.name) (List.mem_flatMap.mpr ⟨p, isParam, List.mem_cons_self⟩)

theorem seen_combiners (cs : List Combiner) :
    Seen on (combinerOccurrences cs) ↔ ∀ c ∈ cs, Seen on c.occurrences := by
  induction cs with
  | nil => simp [combinerOccurrences]
  | cons c cs ih => simp [combinerOccurrences, ih]

theorem seen_reductions (rs : List Reduction) :
    Seen on (reductionOccurrences rs) ↔ ∀ r ∈ rs, Seen on r.combiner.occurrences := by
  induction rs with
  | nil => simp [reductionOccurrences]
  | cons r rs ih =>
    obtain ⟨commutative, c⟩ := r
    simp [reductionOccurrences, ih]

theorem seen_combiner (c : Combiner) :
    Seen on c.occurrences ↔ Seen on (operandOccurrences c.neutral) ∧ Seen on c.op.occurrences := by
  cases c
  simp [Combiner.occurrences]

/-- Of an input, the arrays that are opened and the operator that updates will run. -/
theorem seen_accInputs {inputs : List AccInput} (seen : Seen on (accInputOccurrences inputs)) :
    ∀ input ∈ inputs, (∀ x ∈ input.arrays, on x) ∧
      ∀ c, input.combine = some c → Seen on c.op.occurrences := by
  induction inputs with
  | nil => simp
  | cons input inputs ih =>
    obtain ⟨shape, arrays, combine⟩ := input
    cases combine with
    | none =>
      simp only [accInputOccurrences, seen_append, seen_names] at seen
      exact List.forall_mem_cons.mpr ⟨⟨seen.1.2, by simp⟩, ih seen.2⟩
    | some c =>
      simp only [accInputOccurrences, seen_append, seen_names, seen_combiner] at seen
      exact List.forall_mem_cons.mpr ⟨⟨seen.1.1.2, by simpa using seen.1.2.2⟩, ih seen.2⟩

/-- Of a histogram, the destinations and the operator. -/
theorem seen_histograms {hs : List Histogram} (seen : Seen on (histogramOccurrences hs)) :
    ∀ h ∈ hs, (∀ x ∈ h.dests, on x) ∧ Seen on h.combiner.op.occurrences := by
  induction hs with
  | nil => simp
  | cons h hs ih =>
    obtain ⟨shape, race, dests, c⟩ := h
    simp only [histogramOccurrences, seen_append, seen_names, seen_combiner] at seen
    exact List.forall_mem_cons.mpr ⟨⟨seen.1.1.2, seen.1.2.2⟩, ih seen.2⟩

end Occurrences

end Cotangent
