import Cotangent.Program.Occurrence
import Cotangent.Program.Scope
/-!
The binding outline of a program: its binders and reads in order, the names in its type annotations,
the lengths that have to agree, and where scopes open and close. Everything else is left out, so what
depends on scoping alone is shown once for outlines instead of once for each construct.
-/
namespace Cotangent

namespace Occurrences

@[simp] theorem binders_append (os ps : Occurrences) :
    (os ++ ps).binders = os.binders ++ ps.binders := by
  fun_induction binders os <;> simp_all [binders]

theorem mem_binders {os : Occurrences} {x : Name} : x ∈ os.binders ↔ .binds x ∈ os := by
  induction os with
  | nil => simp [binders]
  | cons o rest ih => cases o <;> simp [binders, ih]

theorem read_of_mem_freeFrom {known : List Name} {os : Occurrences} {x : Name}
    (free : x ∈ freeFrom known os) :
    ∃ before later : Occurrences,
      os = before ++ .reads x :: later ∧ x ∉ known ∧ x ∉ before.binders := by
  fun_induction freeFrom known os with
  | case1 => simp at free
  | case2 known y rest ih =>
    obtain ⟨before, later, rfl, unknown, unbound⟩ := ih free
    have other : x ≠ y := fun same => unknown (by simp [same])
    exact ⟨.binds y :: before, later, rfl, fun h => unknown (by simp [h]),
      by simp [binders, other, unbound]⟩
  | case3 known y rest _ ih =>
    obtain ⟨before, later, rfl, unknown, unbound⟩ := ih free
    exact ⟨.reads y :: before, later, rfl, unknown, by simpa [binders] using unbound⟩
  | case4 known y rest fresh ih =>
    rcases List.mem_cons.mp free with same | free
    · exact ⟨[], rest, by simp [same], same ▸ fresh, by simp [binders]⟩
    · obtain ⟨before, later, rfl, unknown, unbound⟩ := ih free
      exact ⟨.reads y :: before, later, rfl, fun h => unknown (by simp [h]),
        by simpa [binders] using unbound⟩

end Occurrences

/-- `mentions` is a read inside a type annotation. The names bound in a block are bound for the rest
    of the block, and those of the outline around it stay bound. -/
inductive Outline where
  | done
  | binds (x : Name) (rest : Outline)
  | reads (x : Name) (rest : Outline)
  | mentions (x : Name) (rest : Outline)
  | count (expected found : Nat) (rest : Outline)
  | block (inside rest : Outline)
  deriving DecidableEq, Repr

namespace Outline

def append : Outline → Outline → Outline
  | done, p => p
  | binds x rest, p => binds x (rest.append p)
  | reads x rest, p => reads x (rest.append p)
  | mentions x rest, p => mentions x (rest.append p)
  | count m n rest, p => count m n (rest.append p)
  | block inside rest, p => block inside (rest.append p)

instance : Append Outline := ⟨append⟩

def readsAll (xs : List Name) : Outline := xs.foldr reads done

def mentionsAll (xs : List Name) : Outline := xs.foldr mentions done

@[simp] def occurrences : Outline → Occurrences
  | done => []
  | binds x rest => .binds x :: rest.occurrences
  | reads x rest => .reads x :: rest.occurrences
  | mentions x rest => .reads x :: rest.occurrences
  | count _ _ rest => rest.occurrences
  | block inside rest => inside.occurrences ++ rest.occurrences

/-- The binders at every depth. -/
@[simp] def binders : Outline → List Name
  | done => []
  | binds x rest => x :: rest.binders
  | reads _ rest => rest.binders
  | mentions _ rest => rest.binders
  | count _ _ rest => rest.binders
  | block inside rest => inside.binders ++ rest.binders

/-- The scope at the end. -/
@[simp] def after : Outline → Scope → Scope
  | done, scope => scope
  | binds x rest, scope => rest.after (x :: scope)
  | reads _ rest, scope => rest.after scope
  | mentions _ rest, scope => rest.after scope
  | count _ _ rest, scope => rest.after scope
  | block _ rest, scope => rest.after scope

/-- No binder is in scope where it stands, every read is, and the lengths agree. -/
def Accepted : Outline → Scope → Prop
  | done, _ => True
  | binds x rest, scope => x ∉ scope ∧ rest.Accepted (x :: scope)
  | reads x rest, scope => x ∈ scope ∧ rest.Accepted scope
  | mentions _ rest, scope => rest.Accepted scope
  | count m n rest, scope => n = m ∧ rest.Accepted scope
  | block inside rest, scope => inside.Accepted scope ∧ rest.Accepted scope

/-- Every name of a type annotation is in scope where the annotation stands. -/
def TypesIn : Outline → Scope → Prop
  | done, _ => True
  | binds x rest, scope => rest.TypesIn (x :: scope)
  | reads _ rest, scope => rest.TypesIn scope
  | mentions x rest, scope => x ∈ scope ∧ rest.TypesIn scope
  | count _ _ rest, scope => rest.TypesIn scope
  | block inside rest, scope => inside.TypesIn scope ∧ rest.TypesIn scope

def decideTypesIn : (o : Outline) → (scope : Scope) → Decidable (o.TypesIn scope)
  | done, _ => isTrue trivial
  | binds x rest, scope => decideTypesIn rest (x :: scope)
  | reads _ rest, scope => decideTypesIn rest scope
  | mentions x rest, scope =>
    let _ := decideTypesIn rest scope
    inferInstanceAs (Decidable (x ∈ scope ∧ rest.TypesIn scope))
  | count _ _ rest, scope => decideTypesIn rest scope
  | block inside rest, scope =>
    let _ := decideTypesIn inside scope
    let _ := decideTypesIn rest scope
    inferInstanceAs (Decidable (inside.TypesIn scope ∧ rest.TypesIn scope))

instance (o : Outline) (scope : Scope) : Decidable (o.TypesIn scope) := decideTypesIn o scope

/-- Every name of a type annotation is bound before it, in a scope that is open or in one that has
    ended. -/
def TypesBound : Outline → List Name → Prop
  | done, _ => True
  | binds x rest, known => rest.TypesBound (x :: known)
  | reads _ rest, known => rest.TypesBound known
  | mentions x rest, known => x ∈ known ∧ rest.TypesBound known
  | count _ _ rest, known => rest.TypesBound known
  | block inside rest, known => inside.TypesBound known ∧ rest.TypesBound (inside.binders ++ known)

def decideTypesBound : (o : Outline) → (known : List Name) → Decidable (o.TypesBound known)
  | done, _ => isTrue trivial
  | binds x rest, known => decideTypesBound rest (x :: known)
  | reads _ rest, known => decideTypesBound rest known
  | mentions x rest, known =>
    let _ := decideTypesBound rest known
    inferInstanceAs (Decidable (x ∈ known ∧ rest.TypesBound known))
  | count _ _ rest, known => decideTypesBound rest known
  | block inside rest, known =>
    let _ := decideTypesBound inside known
    let _ := decideTypesBound rest (inside.binders ++ known)
    inferInstanceAs (Decidable (inside.TypesBound known ∧ rest.TypesBound (inside.binders ++ known)))

instance (o : Outline) (known : List Name) : Decidable (o.TypesBound known) :=
  decideTypesBound o known

/-- Accepted, with the names of the type annotations in scope as well. -/
def Closed (o : Outline) (scope : Scope) : Prop := o.Accepted scope ∧ o.TypesIn scope

@[simp] theorem done_append (p : Outline) : done ++ p = p := rfl

@[simp] theorem binds_append (x : Name) (o p : Outline) :
    binds x o ++ p = binds x (o ++ p) := rfl

@[simp] theorem reads_append (x : Name) (o p : Outline) :
    reads x o ++ p = reads x (o ++ p) := rfl

@[simp] theorem mentions_append (x : Name) (o p : Outline) :
    mentions x o ++ p = mentions x (o ++ p) := rfl

@[simp] theorem count_append (m n : Nat) (o p : Outline) :
    count m n o ++ p = count m n (o ++ p) := rfl

@[simp] theorem block_append (inside o p : Outline) :
    block inside o ++ p = block inside (o ++ p) := rfl

@[simp] theorem append_done (o : Outline) : o ++ done = o := by
  induction o <;> simp_all

theorem append_assoc (o p q : Outline) : o ++ p ++ q = o ++ (p ++ q) := by
  induction o <;> simp_all

@[simp] theorem readsAll_nil : readsAll [] = done := rfl

@[simp] theorem readsAll_cons (x : Name) (xs : List Name) :
    readsAll (x :: xs) = reads x (readsAll xs) := rfl

@[simp] theorem mentionsAll_nil : mentionsAll [] = done := rfl

@[simp] theorem mentionsAll_cons (x : Name) (xs : List Name) :
    mentionsAll (x :: xs) = mentions x (mentionsAll xs) := rfl

@[simp] theorem occurrences_append (o p : Outline) :
    (o ++ p).occurrences = o.occurrences ++ p.occurrences := by
  induction o <;> simp_all [occurrences]

@[simp] theorem occurrences_readsAll (xs : List Name) :
    (readsAll xs).occurrences = xs.map .reads := by
  induction xs <;> simp_all [occurrences]

@[simp] theorem occurrences_mentionsAll (xs : List Name) :
    (mentionsAll xs).occurrences = xs.map .reads := by
  induction xs <;> simp_all [occurrences]

@[simp] theorem binders_append (o p : Outline) :
    (o ++ p).binders = o.binders ++ p.binders := by
  induction o <;> simp_all [binders]

@[simp] theorem binders_readsAll (xs : List Name) : (readsAll xs).binders = [] := by
  induction xs <;> simp_all [binders]

@[simp] theorem binders_mentionsAll (xs : List Name) : (mentionsAll xs).binders = [] := by
  induction xs <;> simp_all [binders]

theorem binders_occurrences (o : Outline) : o.occurrences.binders = o.binders := by
  induction o with
  | done => rfl
  | binds x rest ih => simp [occurrences, Occurrences.binders, binders, ih]
  | reads x rest ih => simpa [occurrences, Occurrences.binders, binders] using ih
  | mentions x rest ih => simpa [occurrences, Occurrences.binders, binders] using ih
  | count m n rest ih => simpa [occurrences, binders] using ih
  | block inside rest insideIH ih =>
    simp [occurrences, binders, insideIH, ih]

@[simp] theorem after_append (o p : Outline) (scope : Scope) :
    (o ++ p).after scope = p.after (o.after scope) := by
  induction o generalizing scope <;> simp_all [after]

@[simp] theorem after_readsAll (xs : List Name) (scope : Scope) :
    (readsAll xs).after scope = scope := by
  induction xs <;> simp_all [after]

@[simp] theorem after_mentionsAll (xs : List Name) (scope : Scope) :
    (mentionsAll xs).after scope = scope := by
  induction xs <;> simp_all [after]

@[simp] theorem accepted_append (o p : Outline) (scope : Scope) :
    (o ++ p).Accepted scope ↔ o.Accepted scope ∧ p.Accepted (o.after scope) := by
  induction o generalizing scope <;> simp_all [Accepted, after, and_assoc]

@[simp] theorem accepted_readsAll (xs : List Name) (scope : Scope) :
    (readsAll xs).Accepted scope ↔ ∀ x ∈ xs, x ∈ scope := by
  induction xs <;> simp_all [Accepted]

@[simp] theorem accepted_mentionsAll (xs : List Name) (scope : Scope) :
    (mentionsAll xs).Accepted scope := by
  induction xs <;> simp_all [Accepted]

@[simp] theorem typesIn_append (o p : Outline) (scope : Scope) :
    (o ++ p).TypesIn scope ↔ o.TypesIn scope ∧ p.TypesIn (o.after scope) := by
  induction o generalizing scope <;> simp_all [TypesIn, after, and_assoc]

@[simp] theorem typesIn_readsAll (xs : List Name) (scope : Scope) :
    (readsAll xs).TypesIn scope := by
  induction xs <;> simp_all [TypesIn]

@[simp] theorem typesIn_mentionsAll (xs : List Name) (scope : Scope) :
    (mentionsAll xs).TypesIn scope ↔ ∀ x ∈ xs, x ∈ scope := by
  induction xs <;> simp_all [TypesIn]

@[simp] theorem closed_done (scope : Scope) : done.Closed scope := ⟨trivial, trivial⟩

@[simp] theorem closed_binds (x : Name) (o : Outline) (scope : Scope) :
    (binds x o).Closed scope ↔ x ∉ scope ∧ o.Closed (x :: scope) := by
  simp [Closed, Accepted, TypesIn, and_assoc]

@[simp] theorem closed_reads (x : Name) (o : Outline) (scope : Scope) :
    (reads x o).Closed scope ↔ x ∈ scope ∧ o.Closed scope := by
  simp [Closed, Accepted, TypesIn, and_assoc]

@[simp] theorem closed_mentions (x : Name) (o : Outline) (scope : Scope) :
    (mentions x o).Closed scope ↔ x ∈ scope ∧ o.Closed scope := by
  simp only [Closed, Accepted, TypesIn]
  exact and_left_comm

@[simp] theorem closed_count (m n : Nat) (o : Outline) (scope : Scope) :
    (count m n o).Closed scope ↔ n = m ∧ o.Closed scope := by
  simp [Closed, Accepted, TypesIn, and_assoc]

@[simp] theorem closed_block (inside o : Outline) (scope : Scope) :
    (block inside o).Closed scope ↔ inside.Closed scope ∧ o.Closed scope := by
  simp only [Closed, Accepted, TypesIn]
  exact and_and_and_comm

@[simp] theorem closed_append (o p : Outline) (scope : Scope) :
    (o ++ p).Closed scope ↔ o.Closed scope ∧ p.Closed (o.after scope) := by
  simp only [Closed, accepted_append, typesIn_append]
  exact and_and_and_comm

@[simp] theorem closed_readsAll (xs : List Name) (scope : Scope) :
    (readsAll xs).Closed scope ↔ ∀ x ∈ xs, x ∈ scope := by
  simp [Closed]

@[simp] theorem closed_mentionsAll (xs : List Name) (scope : Scope) :
    (mentionsAll xs).Closed scope ↔ ∀ x ∈ xs, x ∈ scope := by
  simp [Closed]

theorem mem_after (o : Outline) {scope : Scope} {x : Name} (known : x ∈ scope) :
    x ∈ o.after scope := by
  induction o generalizing scope with
  | done => exact known
  | binds y rest ih => exact ih (List.mem_cons_of_mem y known)
  | _ => simp_all [after]

theorem not_mem_of_binder {o : Outline} {scope : Scope} (accepted : o.Accepted scope) {x : Name}
    (binder : x ∈ o.binders) : x ∉ scope := by
  induction o generalizing scope with
  | done => simp [binders] at binder
  | binds y rest ih =>
    rcases List.mem_cons.mp binder with same | binder
    · exact same ▸ accepted.1
    · exact fun known => ih accepted.2 binder (List.mem_cons_of_mem y known)
  | block inside rest insideIH ih =>
    rcases List.mem_append.mp binder with binder | binder
    · exact insideIH accepted.1 binder
    · exact ih accepted.2 binder
  | _ => simp_all [Accepted, binders]

/-- Names that the outline does not bind may be added to the scope. -/
theorem Accepted.mono {o : Outline} {scope wider : Scope} (accepted : o.Accepted scope)
    (sub : ∀ x ∈ scope, x ∈ wider) (apart : ∀ x ∈ o.binders, x ∈ wider → x ∈ scope) :
    o.Accepted wider := by
  induction o generalizing scope wider with
  | done => trivial
  | binds y rest ih =>
    refine ⟨fun known => accepted.1 (apart y (by simp [binders]) known),
      ih accepted.2 ?_ ?_⟩
    · intro x known
      rcases List.mem_cons.mp known with same | known
      · simp [same]
      · exact List.mem_cons_of_mem y (sub x known)
    · intro x binder known
      rcases List.mem_cons.mp known with same | known
      · simp [same]
      · exact List.mem_cons_of_mem y (apart x (List.mem_cons_of_mem y binder) known)
  | reads y rest ih => exact ⟨sub y accepted.1, ih accepted.2 sub apart⟩
  | mentions y rest ih => exact ih accepted sub apart
  | count m n rest ih => exact ⟨accepted.1, ih accepted.2 sub apart⟩
  | block inside rest insideIH ih =>
    exact ⟨insideIH accepted.1 sub fun x binder => apart x (by simp [binders, binder]),
      ih accepted.2 sub fun x binder => apart x (by simp [binders, binder])⟩

theorem TypesIn.mono {o : Outline} {scope wider : Scope} (typesIn : o.TypesIn scope)
    (sub : ∀ x ∈ scope, x ∈ wider) : o.TypesIn wider := by
  induction o generalizing scope wider with
  | done => trivial
  | binds y rest ih =>
    have inside : rest.TypesIn (y :: scope) := typesIn
    refine ih inside ?_
    intro x known
    rcases List.mem_cons.mp known with same | known
    · simp [same]
    · exact List.mem_cons_of_mem y (sub x known)
  | reads y rest ih => exact ih typesIn sub
  | mentions y rest ih => exact ⟨sub y typesIn.1, ih typesIn.2 sub⟩
  | count m n rest ih => exact ih typesIn sub
  | block inside rest insideIH ih =>
    exact ⟨insideIH typesIn.1 sub, ih typesIn.2 sub⟩

theorem Closed.mono {o : Outline} {scope wider : Scope} (closed : o.Closed scope)
    (sub : ∀ x ∈ scope, x ∈ wider) (apart : ∀ x ∈ o.binders, x ∈ wider → x ∈ scope) :
    o.Closed wider :=
  ⟨closed.1.mono sub apart, closed.2.mono sub⟩

/-- Whatever occurs in a closed outline is bound in it or comes from the scope. -/
theorem Closed.occurs {o : Outline} {scope : Scope} (closed : o.Closed scope) {p : Occurrence}
    (occurs : p ∈ o.occurrences) : p.name ∈ o.binders ∨ p.name ∈ scope := by
  induction o generalizing scope with
  | done => simp [occurrences] at occurs
  | binds y rest ih =>
    rcases List.mem_cons.mp occurs with same | occurs
    · exact Or.inl (by simp [same, binders, Occurrence.name])
    · rcases ih ((closed_binds ..).mp closed).2 occurs with binder | known
      · exact Or.inl (List.mem_cons_of_mem y binder)
      · rcases List.mem_cons.mp known with same | known
        · exact Or.inl (by simp [same, binders])
        · exact Or.inr known
  | reads y rest ih =>
    obtain ⟨known, rest⟩ := (closed_reads ..).mp closed
    rcases List.mem_cons.mp occurs with same | occurs
    · exact Or.inr (by simpa [same, Occurrence.name] using known)
    · exact ih rest occurs
  | mentions y rest ih =>
    obtain ⟨known, rest⟩ := (closed_mentions ..).mp closed
    rcases List.mem_cons.mp occurs with same | occurs
    · exact Or.inr (by simpa [same, Occurrence.name] using known)
    · exact ih rest occurs
  | count m n rest ih => exact ih ((closed_count ..).mp closed).2 occurs
  | block inside rest insideIH ih =>
    obtain ⟨insideClosed, restClosed⟩ := (closed_block ..).mp closed
    rcases List.mem_append.mp occurs with occurs | occurs
    · rcases insideIH insideClosed occurs with binder | known
      · exact Or.inl (List.mem_append.mpr (Or.inl binder))
      · exact Or.inr known
    · rcases ih restClosed occurs with binder | known
      · exact Or.inl (List.mem_append.mpr (Or.inr binder))
      · exact Or.inr known

/-- What is read was in scope or bound before, and so was what a type annotation mentions. -/
theorem Accepted.read_bound {o : Outline} {scope : Scope} {known : List Name}
    (accepted : o.Accepted scope) (typesBound : o.TypesBound known)
    (sub : ∀ x ∈ scope, x ∈ known) {before later : Occurrences} {x : Name}
    (at_x : o.occurrences = before ++ .reads x :: later) : x ∈ known ∨ x ∈ before.binders := by
  induction o generalizing scope known before later with
  | done => simp [occurrences] at at_x
  | binds y rest ih =>
    cases before with
    | nil => simp [occurrences] at at_x
    | cons first before =>
      obtain ⟨rfl, in_rest⟩ := List.cons.inj at_x
      have sub' : ∀ x ∈ y :: scope, x ∈ y :: known := fun x mem => by
        simpa using (List.mem_cons.mp mem).imp_right (sub x)
      rcases ih accepted.2 typesBound sub' in_rest with mem | earlier
      · rcases List.mem_cons.mp mem with same | mem
        · exact Or.inr (by simp [Occurrences.binders, same])
        · exact Or.inl mem
      · exact Or.inr (by simp [Occurrences.binders, earlier])
  | reads y rest ih =>
    cases before with
    | nil =>
      obtain ⟨same, -⟩ := List.cons.inj at_x
      exact Or.inl (Occurrence.reads.inj same ▸ sub y accepted.1)
    | cons first before =>
      obtain ⟨rfl, in_rest⟩ := List.cons.inj at_x
      simpa [Occurrences.binders] using ih accepted.2 typesBound sub in_rest
  | mentions y rest ih =>
    cases before with
    | nil =>
      obtain ⟨same, -⟩ := List.cons.inj at_x
      exact Or.inl (Occurrence.reads.inj same ▸ typesBound.1)
    | cons first before =>
      obtain ⟨rfl, in_rest⟩ := List.cons.inj at_x
      simpa [Occurrences.binders] using ih accepted typesBound.2 sub in_rest
  | count m n rest ih => exact ih accepted.2 typesBound sub at_x
  | block inside rest insideIH ih =>
    have sub' : ∀ x ∈ scope, x ∈ inside.binders ++ known := fun x mem => by simp [sub x mem]
    rcases List.append_eq_append_iff.mp at_x with ⟨mid, rfl, in_rest⟩ | ⟨mid, insideEq, restEq⟩
    · rcases ih accepted.2 typesBound.2 sub' in_rest with mem | earlier
      · rw [List.mem_append, ← binders_occurrences] at mem
        exact mem.symm.imp_right fun mem => by simp [Occurrences.binders_append, mem]
      · exact Or.inr (by simp [Occurrences.binders_append, earlier])
    · cases mid with
      | nil =>
        obtain rfl : inside.occurrences = before := by simpa using insideEq
        have in_rest : rest.occurrences = [] ++ .reads x :: later := restEq.symm
        rcases ih accepted.2 typesBound.2 sub' in_rest with mem | earlier
        · rwa [List.mem_append, ← binders_occurrences, or_comm] at mem
        · simp [Occurrences.binders] at earlier
      | cons first mid =>
        obtain ⟨rfl, -⟩ := List.cons.inj restEq
        exact insideIH accepted.1 typesBound.1 sub insideEq

theorem TypesIn.bound {o : Outline} {scope : Scope} {known : List Name} (typesIn : o.TypesIn scope)
    (sub : ∀ x ∈ scope, x ∈ known) : o.TypesBound known := by
  induction o generalizing scope known with
  | done => trivial
  | binds y rest ih =>
    exact ih typesIn fun x mem => by simpa using (List.mem_cons.mp mem).imp_right (sub x)
  | reads y rest ih => exact ih typesIn sub
  | mentions y rest ih => exact ⟨sub y typesIn.1, ih typesIn.2 sub⟩
  | count m n rest ih => exact ih typesIn sub
  | block inside rest insideIH ih =>
    exact ⟨insideIH typesIn.1 sub, ih typesIn.2 fun x mem => by simp [sub x mem]⟩

theorem Closed.free_mem {o : Outline} {scope : Scope} (closed : o.Closed scope) {x : Name}
    (free : x ∈ o.occurrences.free) : x ∈ scope := by
  obtain ⟨before, later, at_x, -, unbound⟩ := Occurrences.read_of_mem_freeFrom free
  have typesBound := closed.2.bound fun _ known => known
  rcases closed.1.read_bound typesBound (fun _ known => known) at_x with known | earlier
  · exact known
  · exact absurd earlier unbound

end Outline

end Cotangent
