import Cotangent.Proofs.Scope.Validity
/-!
The free names of a body. Each is listed once, and they are the only part of a scope that the body needs.
-/
namespace Cotangent

namespace Occurrences

theorem nodup_freeFrom (known : List Name) (os : Occurrences) :
    (freeFrom known os).Nodup ∧ ∀ x ∈ freeFrom known os, x ∉ known := by
  fun_induction freeFrom known os with
  | case1 => simp
  | case2 known y rest ih =>
    exact ⟨ih.1, fun x mem => fun inKnown => ih.2 x mem (List.mem_cons_of_mem y inKnown)⟩
  | case3 known y rest _ ih => exact ih
  | case4 known y rest fresh ih =>
    refine ⟨List.nodup_cons.mpr ⟨fun mem => ih.2 y mem List.mem_cons_self, ih.1⟩, ?_⟩
    intro x mem inKnown
    rcases List.mem_cons.mp mem with rfl | mem
    · exact fresh inKnown
    · exact ih.2 x mem (List.mem_cons_of_mem y inKnown)

theorem mem_freeFrom {known : List Name} {os : Occurrences} {x : Name} (unknown : x ∉ known)
    (unbound : x ∉ os.binders) (read : .reads x ∈ os) : x ∈ freeFrom known os := by
  fun_induction freeFrom known os with
  | case1 => simp at read
  | case2 known y rest ih =>
    rw [binders, List.mem_cons, not_or] at unbound
    exact ih (by simp [unknown, unbound.1]) unbound.2 (by simpa using read)
  | case3 known y rest isKnown ih =>
    have other : x ≠ y := fun same => unknown (same ▸ isKnown)
    exact ih unknown unbound (by simpa [other] using read)
  | case4 known y rest _ ih =>
    by_cases same : x = y
    · simp [same]
    · exact List.mem_cons_of_mem y (ih (by simp [unknown, same]) unbound (by simpa [same] using read))

end Occurrences

namespace Outline

/-- A closed outline is closed in every part of the scope that holds what it reads. -/
theorem Closed.narrow {o : Outline} {scope part : Scope} (closed : o.Closed scope)
    (sub : ∀ x ∈ part, x ∈ scope) (read : ∀ x ∈ scope, .reads x ∈ o.occurrences → x ∈ part) :
    o.Closed part := by
  induction o generalizing scope part with
  | done => exact closed_done part
  | binds y rest ih =>
    obtain ⟨fresh, closed⟩ := (closed_binds ..).mp closed
    refine (closed_binds ..).mpr ⟨fun mem => fresh (sub y mem), ih closed ?_ ?_⟩
    · intro x mem
      rcases List.mem_cons.mp mem with rfl | mem
      · exact List.mem_cons_self
      · exact List.mem_cons_of_mem y (sub x mem)
    · intro x known occurs
      rcases List.mem_cons.mp known with rfl | known
      · exact List.mem_cons_self
      · exact List.mem_cons_of_mem y (read x known (List.mem_cons_of_mem _ occurs))
  | reads y rest ih =>
    obtain ⟨known, closed⟩ := (closed_reads ..).mp closed
    exact (closed_reads ..).mpr ⟨read y known List.mem_cons_self,
      ih closed sub fun x known occurs => read x known (List.mem_cons_of_mem _ occurs)⟩
  | mentions y rest ih =>
    obtain ⟨known, closed⟩ := (closed_mentions ..).mp closed
    exact (closed_mentions ..).mpr ⟨read y known List.mem_cons_self,
      ih closed sub fun x known occurs => read x known (List.mem_cons_of_mem _ occurs)⟩
  | count m n rest ih =>
    obtain ⟨same, closed⟩ := (closed_count ..).mp closed
    exact (closed_count ..).mpr ⟨same, ih closed sub read⟩
  | block inside rest insideIH ih =>
    obtain ⟨insideClosed, restClosed⟩ := (closed_block ..).mp closed
    exact (closed_block ..).mpr
      ⟨insideIH insideClosed sub fun x known occurs => read x known (List.mem_append_left _ occurs),
        ih restClosed sub fun x known occurs => read x known (List.mem_append_right _ occurs)⟩

end Outline

theorem Body.nodup_freeNames (b : Body) : b.freeNames.Nodup := (Occurrences.nodup_freeFrom [] _).1

/-- A closed body is closed in its free names, and in every part of the scope around them. -/
theorem Body.closed_freeNames {b : Body} {scope part : Scope} (closed : b.outline.Closed scope)
    (sub : ∀ x ∈ part, x ∈ scope) (free : ∀ x ∈ b.freeNames, x ∈ part) : b.outline.Closed part := by
  refine closed.narrow sub fun x known occurs => free x ?_
  rw [Body.freeNames, ← occurrences_body]
  refine Occurrences.mem_freeFrom List.not_mem_nil (fun binder => ?_) occurs
  rw [Outline.binders_occurrences] at binder
  exact Outline.not_mem_of_binder closed.1 binder known

end Cotangent
