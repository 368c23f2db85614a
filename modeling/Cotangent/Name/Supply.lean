/-!
Names and the supply that hands out fresh ones. One supply is threaded through every transformation
of a program: a number handed out twice would bind two things to one name.
-/
namespace Cotangent

structure Name where
  id : Nat
  deriving DecidableEq, Repr

/-- `next` is the number of the first name the supply will hand out. -/
structure Supply where
  next : Nat
  deriving DecidableEq, Repr

namespace Supply

def fresh (s : Supply) : Name × Supply := (⟨s.next⟩, ⟨s.next + 1⟩)

/-- The supply past `x`, or past nothing. It never moves back. -/
def skip (s : Supply) : Option Name → Supply
  | none => s
  | some x => ⟨max s.next (x.id + 1)⟩

theorem le_skip (s : Supply) (x : Option Name) : s.next ≤ (s.skip x).next := by
  cases x <;> simp only [skip] <;> omega

theorem lt_skip (s : Supply) (x : Name) : x.id < (s.skip (some x)).next := by
  simp only [skip]; omega

end Supply

end Cotangent
