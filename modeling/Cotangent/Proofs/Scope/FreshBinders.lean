import Mathlib.Data.List.Nodup
import Cotangent.Proofs.Scope.FreeNames
import Cotangent.Proofs.Scope.Renaming
import Cotangent.Proofs.Scope.WellScoped
/-!
What a renamed body keeps. The table of a renaming is never cleared at the end of a scope, so it holds
names of scopes that have ended. In a body of a valid lambda that does not show: an occurrence refers
to the same binder afterwards as it did before, both by the scopes that are open around it and by what
was bound last to its left.
-/
namespace Cotangent

/-- What a name refers to: the binder with this number, or what is bound outside under the name. -/
inductive Referent where
  | binder (k : Nat)
  | free (x : Name)
  deriving DecidableEq, Repr

namespace Occurrences

/-- What each occurrence refers to, if the last binder of a name to the left of an occurrence counts,
    whatever its scope. A binder refers to itself. The first binder has number `k`. -/
def refer (latest : Name → Referent) (k : Nat) : Occurrences → List Referent
  | [] => []
  | .binds x :: rest => .binder k :: refer (Function.update latest x (.binder k)) (k + 1) rest
  | .reads x :: rest => latest x :: refer latest k rest

def referents (os : Occurrences) : List Referent := os.refer .free 0

def rename : Occurrences → Renaming → Occurrences × Renaming
  | [], r => ([], r)
  | .binds x :: rest, r =>
    let bound := Rename.binder x r
    (.binds bound.1 :: (rename rest bound.2).1, (rename rest bound.2).2)
  | .reads x :: rest, r => (.reads (r.look x) :: (rename rest r).1, (rename rest r).2)

theorem rename_append (os ps : Occurrences) (r : Renaming) :
    (os ++ ps).rename r =
      ((os.rename r).1 ++ (ps.rename (os.rename r).2).1, (ps.rename (os.rename r).2).2) := by
  induction os generalizing r with
  | nil => rfl
  | cons o rest ih => cases o <;> simp [rename, ih]

/-- The new binders are the next names of the supply, in order. -/
theorem binders_rename (os : Occurrences) (r : Renaming) :
    (os.rename r).1.binders = (List.range' r.supply.next os.binders.length).map Name.mk ∧
      (os.rename r).2.supply.next = r.supply.next + os.binders.length := by
  fun_induction rename os r with
  | case1 r => simp [binders]
  | case2 x rest r bound ih =>
    obtain ⟨names, next⟩ := ih
    have drawn : bound.2.supply.next = r.supply.next + 1 := r.next_binder x
    rw [drawn] at names next
    refine ⟨?_, by rw [next, binders, List.length_cons]; omega⟩
    rw [binders, names, binders, List.length_cons, List.range'_succ, List.map_cons]
    rfl
  | case3 x rest r ih => exact ih

end Occurrences

namespace Outline

theorem occurrences_rename (o : Outline) (r : Renaming) :
    (o.rename r).1.occurrences = (o.occurrences.rename r).1 ∧
      (o.rename r).2 = (o.occurrences.rename r).2 := by
  induction o generalizing r <;>
    simp_all [rename, Occurrences.rename, Occurrences.rename_append]

/-- After a renaming every binder has a new name. -/
theorem drawn_of_binder (o : Outline) (r : Renaming) {x : Name} (binder : x ∈ o.binders) :
    r.supply.next ≤ ((o.rename r).2.look x).id := by
  induction o generalizing r with
  | done => simp at binder
  | binds y rest ih =>
    by_cases later : x ∈ rest.binders
    · have drawn := ih (Rename.binder y r).2 later
      rw [Renaming.next_binder] at drawn
      exact Nat.le_of_succ_le drawn
    · obtain rfl : x = y := by simpa [later] using binder
      refine Nat.le_of_eq ?_
      rw [rename, look_rename rest _ later, Renaming.look_binder, if_pos rfl]
  | reads y rest ih => exact ih r binder
  | mentions y rest ih => exact ih r binder
  | count m n rest ih => exact ih r binder
  | block inside rest insideIH ih =>
    by_cases later : x ∈ rest.binders
    · exact Nat.le_trans (next_le_rename inside r) (ih _ later)
    · have inInside : x ∈ inside.binders := by simpa [later] using binder
      rw [rename, look_rename rest _ later]
      exact insideIH r inInside

/-- For every read and mention the number of the binder that is open there, if there is one. The
    first binder has number `k`. -/
def openBinders (opened : Name → Option Nat) (k : Nat) : Outline → List (Option Nat)
  | done => []
  | binds x rest => rest.openBinders (Function.update opened x (some k)) (k + 1)
  | reads x rest => opened x :: rest.openBinders opened k
  | mentions x rest => opened x :: rest.openBinders opened k
  | count _ _ rest => rest.openBinders opened k
  | block inside rest =>
    inside.openBinders opened k ++ rest.openBinders opened (k + inside.binders.length)

/-- The outline without the names in type annotations. -/
def untyped : Outline → Outline
  | done => done
  | binds x rest => binds x rest.untyped
  | reads x rest => reads x rest.untyped
  | mentions _ rest => rest.untyped
  | count m n rest => count m n rest.untyped
  | block inside rest => block inside.untyped rest.untyped

theorem closed_untyped (o : Outline) (scope : Scope) :
    o.untyped.Closed scope ↔ o.Accepted scope := by
  induction o generalizing scope <;> simp_all [untyped, Accepted]

theorem rename_untyped (o : Outline) (r : Renaming) :
    o.untyped.rename r = ((o.rename r).1.untyped, (o.rename r).2) := by
  induction o generalizing r <;> simp_all [untyped, rename]

theorem Accepted.rename {o : Outline} {scope target : Scope} {r : Renaming}
    (accepted : o.Accepted scope) (into : r.Into scope target) : (o.rename r).1.Accepted target := by
  have closed := (((closed_untyped o scope).mpr accepted).rename into).1
  rwa [rename_untyped, closed_untyped] at closed

end Outline

namespace Renaming

/-- Names below the base are themselves or have new names, from the base to the supply. -/
structure Above (r : Renaming) (base : Nat) : Prop where
  base_le : base ≤ r.supply.next
  look : ∀ x : Name, x.id < base → r.look x = x ∨ base ≤ (r.look x).id
  below : ∀ x : Name, x.id < base → (r.look x).id < r.supply.next

variable {r : Renaming} {base : Nat}

theorem above_start (s : Supply) : Renaming.Above ⟨s, .empty⟩ s.next where
  base_le := Nat.le_refl _
  look _ _ := Or.inl rfl
  below _ lt := lt

theorem Above.binder (above : r.Above base) (x : Name) : (Rename.binder x r).2.Above base where
  base_le := Nat.le_succ_of_le above.base_le
  look y lt := by
    rw [look_binder]
    split
    · exact Or.inr above.base_le
    · exact above.look y lt
  below y lt := by
    rw [look_binder, next_binder]
    split
    · exact Nat.lt_succ_self _
    · exact Nat.lt_succ_of_lt (above.below y lt)

theorem Above.rename (above : r.Above base) (os : Occurrences) : (os.rename r).2.Above base := by
  fun_induction Occurrences.rename os r with
  | case1 r => exact above
  | case2 x rest r bound ih => exact ih (above.binder x)
  | case3 x rest r ih => exact ih above

/-- A name that is drawn has not been the new name of anything. -/
theorem Above.look_ne (above : r.Above base) {x : Name} (lt : x.id < base) :
    r.look x ≠ ⟨r.supply.next⟩ := by
  intro same
  have below := above.below x lt
  rw [same] at below
  exact Nat.lt_irrefl _ below

/-- Two assignments that agree through a renaming agree through it after the next binder. -/
theorem Above.update (above : r.Above base) {α : Type} {old new : Name → α}
    (agree : ∀ y : Name, y.id < base → new (r.look y) = old y) (x : Name) (a : α) (y : Name)
    (lt : y.id < base) :
    Function.update new ⟨r.supply.next⟩ a ((Rename.binder x r).2.look y) =
      Function.update old x a y := by
  rw [look_binder]
  by_cases same : y = x
  · simp [same]
  · simp only [if_neg same, Function.update_of_ne same, Function.update_of_ne (above.look_ne lt),
      agree y lt]

end Renaming

namespace Occurrences

open Renaming

variable {r : Renaming} {base : Nat}

theorem refer_rename {os : Occurrences} (above : r.Above base) (small : ∀ o ∈ os, o.name.id < base)
    {old new : Name → Referent} (agree : ∀ y : Name, y.id < base → new (r.look y) = old y)
    (k : Nat) : (os.rename r).1.refer new k = os.refer old k := by
  induction os generalizing r old new k with
  | nil => rfl
  | cons o rest ih =>
    have here := small o (by simp)
    have later : ∀ o ∈ rest, o.name.id < base := fun o mem => small o (by simp [mem])
    cases o with
    | binds x => exact congrArg _ (ih (above.binder x) later (above.update agree x _) (k + 1))
    | reads x =>
      simp only [rename, refer]
      rw [agree x here, ih above later agree k]

/-- A renamed read is listed as free where the read was, under the same name. -/
theorem freeFrom_rename {os : Occurrences} (above : r.Above base)
    (small : ∀ o ∈ os, o.name.id < base) {known known' : List Name}
    (same : ∀ y : Name, y.id < base → (r.look y ∈ known' ↔ y ∈ known))
    (kept : ∀ y : Name, y.id < base → y ∉ known → r.look y = y) :
    freeFrom known' (os.rename r).1 = freeFrom known os := by
  induction os generalizing r known known' with
  | nil => rfl
  | cons o rest ih =>
    have here := small o (by simp)
    have later : ∀ o ∈ rest, o.name.id < base := fun o mem => small o (by simp [mem])
    cases o with
    | binds x =>
      refine ih (above.binder x) later ?_ ?_
      · intro y lt
        rw [look_binder]
        by_cases isX : y = x
        · simp [isX, Rename.binder, Supply.fresh]
        · have other := above.look_ne lt
          simp [isX, Rename.binder, Supply.fresh, other, same y lt]
      · intro y lt unknown
        obtain ⟨isX, unknown⟩ := List.ne_and_not_mem_of_not_mem_cons unknown
        rw [look_binder, if_neg isX, kept y lt unknown]
    | reads x =>
      by_cases known_x : x ∈ known
      · have known_look := (same x here).mpr known_x
        simp only [rename, freeFrom, if_pos known_x, if_pos known_look]
        exact ih above later same kept
      · have look_x := kept x here known_x
        have unknown_look : r.look x ∉ known' := fun mem => known_x ((same x here).mp mem)
        simp only [rename, freeFrom, if_neg known_x, if_neg unknown_look]
        rw [look_x]
        refine congrArg _ (ih above later ?_ ?_)
        · intro y lt
          have only : r.look y = x ↔ y = x := by
            constructor
            · intro isX
              rcases above.look y lt with look_y | drawn
              · exact look_y.symm.trans isX
              · rw [isX] at drawn
                exact absurd here (Nat.not_lt.mpr drawn)
            · intro isX
              rw [isX, look_x]
          simp [only, same y lt]
        · intro y lt unknown
          exact kept y lt fun mem => unknown (by simp [mem])

end Occurrences

namespace Outline

open Renaming

variable {r : Renaming} {base : Nat}

/-- A block leaves records of binders behind that are not in scope, and nothing reads them: what may be
    read after the block keeps its record, and the names drawn in the block are not open. -/
theorem openBinders_rename {o : Outline} {scope : Scope} (accepted : o.Accepted scope)
    (above : r.Above base) (small : ∀ p ∈ o.occurrences, p.name.id < base)
    {old new : Name → Option Nat} (agree : ∀ y : Name, y.id < base → new (r.look y) = old y)
    (undrawn : ∀ y : Name, r.supply.next ≤ y.id → new y = none)
    (outside : ∀ y, y ∉ scope → old y = none) (k : Nat) :
    (o.rename r).1.openBinders new k = o.openBinders old k := by
  induction o generalizing scope r old new k with
  | done => rfl
  | binds x rest ih =>
    have later : ∀ p ∈ rest.occurrences, p.name.id < base := fun p mem => small p (by simp [mem])
    refine ih accepted.2 (above.binder x) later (above.update agree x _) ?_ ?_ (k + 1)
    · intro y drawn
      rw [next_binder] at drawn
      have other : y ≠ ⟨r.supply.next⟩ := by
        intro same
        rw [same] at drawn
        exact Nat.not_succ_le_self _ drawn
      rw [Function.update_of_ne other, undrawn y (by omega)]
    · intro y unknown
      obtain ⟨other, unknown⟩ := List.ne_and_not_mem_of_not_mem_cons unknown
      rw [Function.update_of_ne other, outside y unknown]
  | reads x rest ih =>
    have here := small (.reads x) (by simp)
    have later : ∀ p ∈ rest.occurrences, p.name.id < base := fun p mem => small p (by simp [mem])
    rw [rename, openBinders, openBinders, agree x here,
      ih accepted.2 above later agree undrawn outside k]
  | mentions x rest ih =>
    have here := small (.reads x) (by simp)
    have later : ∀ p ∈ rest.occurrences, p.name.id < base := fun p mem => small p (by simp [mem])
    rw [rename, openBinders, openBinders, agree x here,
      ih accepted above later agree undrawn outside k]
  | count m n rest ih => exact ih accepted.2 above small agree undrawn outside k
  | block inside rest insideIH ih =>
    have smallInside : ∀ p ∈ inside.occurrences, p.name.id < base :=
      fun p mem => small p (by simp [mem])
    have later : ∀ p ∈ rest.occurrences, p.name.id < base := fun p mem => small p (by simp [mem])
    have count : (inside.rename r).1.binders.length = inside.binders.length := by
      rw [← binders_occurrences, (occurrences_rename inside r).1,
        (inside.occurrences.binders_rename r).1, List.length_map, List.length_range',
        binders_occurrences]
    have agreeAfter : ∀ y : Name, y.id < base → new ((inside.rename r).2.look y) = old y := by
      intro y lt
      by_cases ended : y ∈ inside.binders
      · rw [outside y (not_mem_of_binder accepted.1 ended),
          undrawn _ (drawn_of_binder inside r ended)]
      · rw [look_rename inside r ended, agree y lt]
    have aboveAfter : (inside.rename r).2.Above base := by
      rw [(occurrences_rename inside r).2]
      exact above.rename inside.occurrences
    have undrawnAfter : ∀ y : Name, (inside.rename r).2.supply.next ≤ y.id → new y = none :=
      fun y drawn => undrawn y (Nat.le_trans (next_le_rename inside r) drawn)
    rw [rename, openBinders, openBinders, count,
      insideIH accepted.1 above smallInside agree undrawn outside k,
      ih accepted.2 aboveAfter later agreeAfter undrawnAfter outside]

end Outline

/-! Bodies. -/

/-- A body with fresh binders in place of the body of a lambda, drawn between two supplies. -/
structure Lambda.Refreshed (l : Lambda) (s s' : Supply) (b : Body) : Prop where
  distinct : b.occurrences.binders.Nodup
  drawn : ∀ x ∈ b.occurrences.binders, s.next ≤ x.id ∧ x.id < s'.next
  count : b.occurrences.binders.length = l.body.occurrences.binders.length
  clean : ∀ x ∈ l.body.occurrences.binders, ∀ o ∈ b.occurrences, o.name ≠ x
  referents : b.occurrences.referents = l.body.occurrences.referents
  openBinders : b.outline.openBinders (fun _ => none) 0 =
    l.body.outline.openBinders (fun _ => none) 0
  free : b.freeNames = l.body.freeNames
  valid : { l with body := b }.validate = .ok ()

theorem Body.occurrences_rename (b : Body) (s : Supply) :
    (b.rename s).1.occurrences = (b.occurrences.rename ⟨s, .empty⟩).1 ∧
      (b.rename s).2 = (b.occurrences.rename ⟨s, .empty⟩).2.supply := by
  have renamed := Rename.outline_body b ⟨s, .empty⟩
  have outlines := Outline.occurrences_rename b.outline ⟨s, .empty⟩
  rw [renamed, occurrences_body, occurrences_body] at outlines
  exact ⟨outlines.1, congrArg Renaming.supply outlines.2⟩

variable {l : Lambda} {s : Supply}

theorem lambda_occurrences (l : Lambda) :
    l.occurrences = paramOccurrences l.params ++ (l.body.occurrences ++ typeOccurrences l.ret) := by
  cases l
  simp [Lambda.occurrences]

/-- What the body of a valid lambda reads and does not bind before, it does not bind at all. -/
theorem Lambda.not_bound_of_free (valid : l.validate = .ok ()) (types : l.TypesBound) {x : Name}
    (free : x ∈ l.body.freeNames) : x ∉ l.body.occurrences.binders := by
  have accepted := (validate_iff l).mp valid
  obtain ⟨before, later, at_x, -, unbound⟩ := Occurrences.read_of_mem_freeFrom free
  have in_lambda : l.outline.occurrences =
      (paramOccurrences l.params ++ before) ++ .reads x :: (later ++ typeOccurrences l.ret) := by
    rw [occurrences_lambda, lambda_occurrences, at_x]
    simp
  rcases accepted.read_bound types (fun _ mem => mem) in_lambda with known | earlier
  · simp at known
  · rw [Occurrences.binders_append, List.mem_append] at earlier
    have param := earlier.resolve_right unbound
    rw [← occurrences_paramOutline, Outline.binders_occurrences, mem_binders_paramOutline] at param
    exact Lambda.param_not_bound valid (List.mem_map.mpr param)

theorem Lambda.validate_rename (valid : l.validate = .ok ())
    (below : ∀ o ∈ l.occurrences, o.name.id < s.next) :
    Lambda.validate { l with body := (l.body.rename s).1 } = .ok () := by
  obtain ⟨params, body, count⟩ := (accepted_lambda l []).mp ((validate_iff l).mp valid)
  rw [validate_iff, accepted_lambda]
  refine ⟨params, ?_, ?_⟩
  · have into : Renaming.Into ⟨s, .empty⟩ ((paramOutline l.params).after [])
        ((paramOutline l.params).after []) := by
      refine ⟨fun x mem => mem, fun x mem => ?_⟩
      obtain ⟨p, isParam, rfl⟩ :=
        ((mem_after_paramOutline l.params [] x).mp mem).resolve_left List.not_mem_nil
      refine below (.binds p.name) ?_
      rw [lambda_occurrences, List.mem_append]
      exact Or.inl (List.mem_flatMap.mpr ⟨p, isParam, List.mem_cons_self⟩)
    have renamed := body.rename into
    rw [Rename.outline_body] at renamed
    exact renamed
  · have length := Rename.body_result_length l.body ⟨s, .empty⟩
    exact length.trans count

/-- Renaming the body of a valid lambda captures nothing. -/
theorem Lambda.refreshed_rename (valid : l.validate = .ok ()) (types : l.TypesBound)
    (below : ∀ o ∈ l.occurrences, o.name.id < s.next) :
    l.Refreshed s (l.body.rename s).2 (l.body.rename s).1 := by
  obtain ⟨occurrences, supply⟩ := l.body.occurrences_rename s
  have above := Renaming.above_start s
  have small : ∀ o ∈ l.body.occurrences, o.name.id < s.next := by
    intro o mem
    refine below o ?_
    rw [lambda_occurrences]
    simp [mem]
  obtain ⟨binders, next⟩ := l.body.occurrences.binders_rename ⟨s, .empty⟩
  rw [← occurrences] at binders
  rw [← supply] at next
  have drawn : ∀ x ∈ (l.body.rename s).1.occurrences.binders,
      s.next ≤ x.id ∧ x.id < (l.body.rename s).2.next := by
    intro x mem
    rw [binders, List.mem_map] at mem
    obtain ⟨n, mem, rfl⟩ := mem
    rw [next]
    exact List.mem_range'_1.mp mem
  have free : (l.body.rename s).1.freeNames = l.body.freeNames := by
    rw [Body.freeNames, occurrences]
    exact Occurrences.freeFrom_rename above small (fun _ _ => Iff.rfl) fun _ _ _ => rfl
  constructor
  case distinct =>
    rw [binders]
    refine List.Nodup.map (fun m n same => ?_) List.nodup_range'
    exact congrArg Name.id same
  case drawn => exact drawn
  case count => rw [binders, List.length_map, List.length_range']
  case clean =>
    intro x binder o occurs same
    have old := small _ (Occurrences.mem_binders.mp binder)
    cases o with
    | binds y =>
      obtain rfl : y = x := same
      exact absurd old (Nat.not_lt.mpr (drawn y (Occurrences.mem_binders.mpr occurs)).1)
    | reads y =>
      obtain rfl : y = x := same
      have unbound : y ∉ (l.body.rename s).1.occurrences.binders := fun mem =>
        absurd old (Nat.not_lt.mpr (drawn y mem).1)
      have read_free : y ∈ (l.body.rename s).1.freeNames :=
        Occurrences.mem_freeFrom List.not_mem_nil unbound occurs
      rw [free] at read_free
      exact Lambda.not_bound_of_free valid types read_free binder
  case referents =>
    rw [occurrences]
    exact Occurrences.refer_rename above small (fun _ _ => rfl) 0
  case openBinders =>
    have accepted := ((accepted_lambda l []).mp ((validate_iff l).mp valid)).2.1
    rw [← occurrences_body] at small
    have same : (l.body.outline.rename ⟨s, .empty⟩).1.openBinders (fun _ => none) 0 =
        l.body.outline.openBinders (fun _ => none) 0 :=
      Outline.openBinders_rename accepted above small (fun _ _ => rfl) (fun _ _ => rfl)
        (fun _ _ => rfl) 0
    rwa [Rename.outline_body] at same
  case free => exact free
  case valid => exact Lambda.validate_rename valid below

/-- Three scopes bind the name 4, and the type of 5 mentions it after the first two have ended. -/
def reusesNames : Lambda :=
  let t : Ty := .scalar (.int .i64)
  let bool : Ty := .scalar .bool
  let arm (op : IntBinary) : Body :=
    ⟨[⟨[⟨⟨4⟩, t⟩], .none, .basic (.binary (.int op .i64) (.var ⟨0⟩) (.var ⟨0⟩))⟩,
      ⟨[⟨⟨3⟩, .array (.int .i64) [.var ⟨4⟩] false⟩], .none,
        .basic (.replicate [.var ⟨4⟩] (.var ⟨0⟩))⟩], [.var ⟨3⟩]⟩
  let round : Body :=
    ⟨[⟨[⟨⟨4⟩, t⟩], .none, .basic (.binary (.int .add .i64) (.var ⟨6⟩) (.var ⟨0⟩))⟩],
      [.var ⟨4⟩, .const (.bool false)]⟩
  ⟨[⟨⟨0⟩, t⟩, ⟨⟨1⟩, bool⟩],
    ⟨[⟨[⟨⟨5⟩, .array (.int .i64) [.var ⟨4⟩] false⟩], .none,
        .branch (.var ⟨1⟩) (arm .mul) (arm .add) [.array (.int .i64) [.var ⟨4⟩] false] .normal⟩,
      ⟨[⟨⟨8⟩, t⟩, ⟨⟨9⟩, bool⟩], .none,
        .loop [(⟨⟨6⟩, t⟩, .var ⟨0⟩), (⟨⟨7⟩, bool⟩, .var ⟨1⟩)] (.whileHolds ⟨7⟩) round⟩],
      [.var ⟨5⟩, .var ⟨8⟩]⟩, [.array (.int .i64) [.var ⟨4⟩] false, t]⟩

theorem reusesNames_refreshed : ¬ reusesNames.body.occurrences.binders.Nodup ∧
    reusesNames.Refreshed ⟨10⟩ (reusesNames.body.rename ⟨10⟩).2 (reusesNames.body.rename ⟨10⟩).1 :=
  ⟨by decide, Lambda.refreshed_rename (by decide) (by decide) (by decide)⟩

end Cotangent
