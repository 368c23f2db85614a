import Cotangent.Name.Supply
/-!
Finite maps from names. A name that is inserted again keeps its place and takes the new value. What
a table means is given by `find?`, and `find_insert` says how the only update changes it.
-/
namespace Cotangent

structure NameTable (α : Type) where
  entries : List (Name × α)
  deriving Repr

namespace NameTable

variable {α : Type}

def empty : NameTable α := ⟨[]⟩

def findEntry (x : Name) : List (Name × α) → Option α
  | [] => none
  | (y, v) :: rest => if y = x then some v else findEntry x rest

def find? (t : NameTable α) (x : Name) : Option α := findEntry x t.entries

def insertEntry (x : Name) (v : α) : List (Name × α) → List (Name × α)
  | [] => [(x, v)]
  | (y, w) :: rest => if y = x then (x, v) :: rest else (y, w) :: insertEntry x v rest

def insert (t : NameTable α) (x : Name) (v : α) : NameTable α := ⟨insertEntry x v t.entries⟩

/-- Inserts from left to right; of two values for one name the later stays. -/
def insertAll (t : NameTable α) (pairs : List (Name × α)) : NameTable α :=
  pairs.foldl (fun t p => t.insert p.1 p.2) t

theorem find_empty (x : Name) : (empty : NameTable α).find? x = none := rfl

theorem findEntry_insertEntry (x y : Name) (v : α) (entries : List (Name × α)) :
    findEntry y (insertEntry x v entries) = if y = x then some v else findEntry y entries := by
  induction entries with
  | nil => by_cases same : y = x <;> simp [insertEntry, findEntry, same, Ne.symm]
  | cons head rest ih =>
    obtain ⟨z, w⟩ := head
    by_cases here : z = x
    · subst here
      by_cases same : y = z <;> simp [insertEntry, findEntry, same, Ne.symm]
    · by_cases same : y = x
      · subst same
        simp [insertEntry, findEntry, here, ih]
      · simp [insertEntry, findEntry, here, ih, same]

theorem find_insert (t : NameTable α) (x y : Name) (v : α) :
    (t.insert x v).find? y = if y = x then some v else t.find? y :=
  findEntry_insertEntry x y v t.entries

theorem insertAll_cons (t : NameTable α) (p : Name × α) (pairs : List (Name × α)) :
    t.insertAll (p :: pairs) = (t.insert p.1 p.2).insertAll pairs := rfl

theorem find_insertAll_of_not_mem (t : NameTable α) (pairs : List (Name × α)) (x : Name)
    (absent : ∀ p ∈ pairs, p.1 ≠ x) : (t.insertAll pairs).find? x = t.find? x := by
  induction pairs generalizing t with
  | nil => rfl
  | cons p pairs ih =>
    have other : x ≠ p.1 := fun same => absent p (by simp) same.symm
    rw [insertAll_cons, ih _ fun q later => absent q (by simp [later]), find_insert, if_neg other]

theorem find_insertAll_of_mem (t : NameTable α) (pairs : List (Name × α)) (x : Name)
    (present : x ∈ pairs.map (·.1)) :
    ∃ v, (x, v) ∈ pairs ∧ (t.insertAll pairs).find? x = some v := by
  induction pairs generalizing t with
  | nil => simp at present
  | cons p pairs ih =>
    obtain ⟨y, v⟩ := p
    by_cases later : x ∈ pairs.map (·.1)
    · obtain ⟨w, mem, found⟩ := ih (t.insert y v) later
      exact ⟨w, by simp [mem], found⟩
    · obtain rfl : x = y := by simpa [later] using present
      refine ⟨v, by simp, ?_⟩
      have absent : ∀ p ∈ pairs, p.1 ≠ x := fun p mem same => later (by
        simp only [List.mem_map]
        exact ⟨p, mem, same⟩)
      rw [insertAll_cons, find_insertAll_of_not_mem _ _ _ absent, find_insert, if_pos rfl]

end NameTable

end Cotangent
