import Mathlib.Tactic.Common
import Cotangent.Proofs.Scope.Validity
/-!
The supply past a program: no name that occurs in the program is drawn from it.
-/
namespace Cotangent

open Outline

namespace Occurrences

theorem le_larger (x : Name) (y : Option Name) :
    x.id ≤ (larger x y).id ∧ ∀ z, y = some z → z.id ≤ (larger x y).id := by
  cases y with
  | none => simp [larger]
  | some z =>
    simp only [larger]
    split <;> simp <;> omega

theorem le_largest {os : Occurrences} {o : Occurrence} (mem : o ∈ os) :
    ∃ x, os.largest? = some x ∧ o.name.id ≤ x.id := by
  induction os with
  | nil => simp at mem
  | cons p rest ih =>
    refine ⟨_, rfl, ?_⟩
    obtain ⟨here, later⟩ := le_larger p.name (largest? rest)
    rcases List.mem_cons.mp mem with rfl | mem
    · exact here
    · obtain ⟨x, found, le⟩ := ih mem
      exact Nat.le_trans le (later x found)

end Occurrences

theorem lt_reserve (s : Supply) (l : Lambda) {o : Occurrence} (mem : o ∈ l.occurrences) :
    o.name.id < (s.reserve l).next := by
  obtain ⟨x, found, le⟩ := Occurrences.le_largest mem
  have lt := s.lt_skip x
  simp only [Supply.reserve, Lambda.largestName?, found]
  omega

theorem binder_lt (s : Supply) (l : Lambda) {x : Name} (binder : x ∈ l.outline.binders) :
    x.id < (s.reserve l).next := by
  rw [← binders_occurrences, occurrences_lambda] at binder
  exact lt_reserve s l (Occurrences.mem_binders.mp binder)

end Cotangent
