import Cotangent.Proofs.Derivative.TypedFormulas
/-!
Differentiation steps on well-typed code. The statements emitted so far give a table of types, which the
builder knows; every companion has the type of the name it belongs to. A step that finds this and leaves
it so succeeds, and the statements that it adds are well typed.
-/
namespace Cotangent

open NameTable

namespace Diff

variable {α β : Type} {s t : DiffState} {types later : NameTable Ty} {k : ScalarType}
  {allowed wider : Name → Prop}

/-- Lists that go with the same entries go with each other. -/
theorem exists_of_mem_zip {γ : Type} {R : γ → α → Prop} {S : γ → β → Prop} {cs : List γ}
    {xs : List α} {ys : List β} (left : List.Forall₂ R cs xs) (right : List.Forall₂ S cs ys)
    {p : α × β} (mem : p ∈ xs.zip ys) : ∃ c ∈ cs, R c p.1 ∧ S c p.2 := by
  induction left generalizing ys with
  | nil => simp at mem
  | cons here _ ih =>
    obtain ⟨y, ys, there, rest, rfl⟩ := List.forall₂_cons_left_iff.mp right
    rcases List.mem_cons.mp mem with rfl | mem
    · exact ⟨_, List.mem_cons_self, here, there⟩
    · obtain ⟨c, inList, both⟩ := ih rest mem
      exact ⟨c, List.mem_cons_of_mem _ inList, both⟩

theorem ty_of_mem_zip {ps qs : List Param} (types : qs.map (·.ty) = ps.map (·.ty)) {r : Param × Param}
    (mem : r ∈ ps.zip qs) : r.2.ty = r.1.ty := by
  have each (ps : List Param) : List.Forall₂ (fun t p => p.ty = t) (ps.map (·.ty)) ps :=
    List.forall₂_map_left_iff.mpr (List.forall₂_same.mpr fun _ _ => rfl)
  obtain ⟨t, -, first, second⟩ := exists_of_mem_zip (each ps) (types ▸ each qs) mem
  exact second.trans first.symm

/-- The builder knows the types of the table, and every companion has the type of its name. -/
structure Consistent (allowed : Name → Prop) (types : NameTable Ty) (s : DiffState) : Prop where
  knows : s.builder.Knows allowed types
  paired : ∀ x c, s.companions.find? x = some c →
    ∃ t, types.find? x = some t ∧ types.find? c = some t

/-- The action succeeds and adds well-typed statements, and what it yields has the property under the
    table that they lead to. -/
def Delivers (allowed : Name → Prop) (m : Diff α) (s : DiffState) (types : NameTable Ty)
    (P : α → NameTable Ty → Prop) : Prop :=
  ∃ a t later, Gives m s a t ∧ s.builder.Adds types t.builder later ∧ Consistent allowed later t ∧
    P a later

theorem Delivers.bind {m : Diff α} {f : α → Diff β} {P : α → NameTable Ty → Prop}
    {Q : β → NameTable Ty → Prop} (first : Delivers wider m s types P)
    (rest : ∀ a t later, s.builder.Adds types t.builder later → Consistent wider later t →
      P a later → Delivers allowed (f a) t later Q) : Delivers allowed (m >>= f) s types Q := by
  obtain ⟨a, t, middle, gives, adds, consistent, here⟩ := first
  obtain ⟨b, u, later, gives', adds', consistent', there⟩ := rest a t middle adds consistent here
  exact ⟨b, u, later, gives.bind gives', adds.trans adds', consistent', there⟩

/-- What comes first may draw names, but emits nothing. -/
theorem Delivers.prepend {m : Diff α} {f : α → Diff β} {Q : β → NameTable Ty → Prop} {a : α}
    (gives : Gives m s a t) (adds : s.builder.Adds types t.builder types)
    (rest : Delivers allowed (f a) t types Q) : Delivers allowed (m >>= f) s types Q := by
  obtain ⟨b, u, later, gives', adds', delivers⟩ := rest
  exact ⟨b, u, later, gives.bind gives', adds.trans adds', delivers⟩

/-- A question that changes nothing comes first. -/
theorem Delivers.after {m : Diff α} {f : α → Diff β} {Q : β → NameTable Ty → Prop} {a : α}
    (gives : Gives m s a s) (rest : Delivers allowed (f a) s types Q) :
    Delivers allowed (m >>= f) s types Q :=
  rest.prepend gives (.refl _ _)

theorem Delivers.mono {m : Diff α} {P Q : α → NameTable Ty → Prop}
    (delivers : Delivers allowed m s types P)
    (sub : ∀ a later, types ≤ later → P a later → Q a later) : Delivers allowed m s types Q := by
  obtain ⟨a, t, later, gives, adds, consistent, here⟩ := delivers
  exact ⟨a, t, later, gives, adds, consistent, sub a later adds.le here⟩

theorem delivers_pure {a : α} {P : α → NameTable Ty → Prop} (consistent : Consistent allowed types s)
    (here : P a types) : Delivers allowed (pure a) s types P :=
  ⟨a, s, types, .pure a s, .refl _ _, consistent, here⟩

theorem Consistent.build (consistent : Consistent allowed types s) {b : Builder}
    (le : types ≤ later) (knows : b.Knows wider later) :
    Consistent wider later { s with builder := b } where
  knows := knows
  paired x c found := by
    obtain ⟨t, name, companion⟩ := consistent.paired x c found
    exact ⟨t, le x t name, le c t companion⟩

/-- The statements before a body do not matter inside. -/
theorem Consistent.cleared (consistent : Consistent allowed types s) :
    Consistent allowed types { s with builder := { s.builder with stms := [] } } :=
  consistent.build (le_refl _) { consistent.knows with }

theorem Consistent.isolated (consistent : Consistent allowed types s) :
    Consistent allowed types ⟨{ s.builder with stms := [] }, .empty⟩ where
  knows := { consistent.knows with }
  paired x c found := by simp [find_empty] at found

theorem delivers_build {m : Build α} {P : α → NameTable Ty → Prop}
    (consistent : Consistent allowed types s) (adds : s.builder.Adds types (m s.builder).2 later)
    (knows : (m s.builder).2.Knows wider later) (here : P (m s.builder).1 later) :
    Delivers wider (build m) s types P :=
  ⟨_, _, later, .build m s, adds, consistent.build adds.le knows, here⟩

theorem delivers_setCompanion (consistent : Consistent allowed types s) {x c : Name} {t : Ty}
    (name : types.find? x = some t) (companion : types.find? c = some t) :
    Delivers allowed (setCompanion x c) s types fun _ later => later = types := by
  refine ⟨(), _, types, (gives_setCompanion ..).mpr rfl, .refl _ _, ⟨consistent.knows, ?_⟩, rfl⟩
  intro y d found
  rw [find_insert] at found
  split at found
  · rename_i same
    exact ⟨t, same ▸ name, Option.some.inj found ▸ companion⟩
  · exact consistent.paired y d found

theorem Consistent.gives_typeOf (consistent : Consistent allowed types s) {x : Name} {t : Ty}
    (found : types.find? x = some t) : Gives (typeOf x) s t s :=
  (Diff.gives_typeOf ..).mpr ⟨consistent.knows.typed x t found, rfl⟩

theorem Consistent.numeric (consistent : Consistent allowed types s) {x : Name}
    (found : types.find? x = some (.scalar k)) : k ≠ .cert :=
  isValue_scalar.mp (consistent.knows.value x _ found)

/-- The arguments of a builtin function have the type of its result. -/
theorem typed_args {func : String} {kinds : List ScalarType} {args : List Operand}
    (signature : Rules.standard.signature func = some (kinds, k))
    (typed : List.Forall₂ (fun kind x => x.HasType types (.scalar kind)) kinds args) :
    ∀ x ∈ args, x.HasType types (.scalar k) := by
  obtain ⟨-, uniform⟩ := floats_of_signature signature
  clear signature
  induction typed with
  | nil => simp
  | cons here _ ih =>
    obtain ⟨rfl, rest⟩ := List.forall_mem_cons.mp uniform
    exact List.forall_mem_cons.mpr ⟨here, ih rest⟩

theorem partials_typed {func : String} {kinds : List ScalarType} {args : List Operand}
    (signature : Rules.standard.signature func = some (kinds, k))
    (typed : List.Forall₂ (fun kind x => x.HasType types (.scalar kind)) kinds args) (s : DiffState) :
    ∃ ds, Gives (partials .standard func kinds args) s ds s ∧ ∀ d ∈ ds, d.HasKind types k := by
  obtain ⟨ds, found⟩ := complete_standard func (kinds, k)
    ((kinds.zip args).map fun a => Formula.ofOperand a.1 a.2) signature (by simp [typed.length_eq])
  refine ⟨ds, (gives_partials ..).mpr ⟨found, rfl⟩, hasKind_builtin signature found fun f mem => ?_⟩
  obtain ⟨a, inZip, rfl⟩ := List.mem_map.mp mem
  obtain ⟨inKinds, inArgs⟩ := List.of_mem_zip (show (a.1, a.2) ∈ _ from inZip)
  rw [(floats_of_signature signature).2 a.1 inKinds]
  exact Formula.hasKind_ofOperand (typed_args signature typed a.2 inArgs)

/-- The companion of a name has its type, whether it is at hand or a new zero. -/
theorem delivers_companion (consistent : Consistent allowed types s) {x : Name}
    (found : types.find? x = some (.scalar k)) :
    Delivers allowed (companion x) s types fun c later => later.find? c = some (.scalar k) := by
  refine Delivers.after ((gives_companion? ..).mpr ⟨rfl, rfl⟩) ?_
  cases isFound : s.companions.find? x with
  | some c =>
    obtain ⟨t, name, companion⟩ := consistent.paired x c isFound
    obtain rfl := Option.some.inj (found.symm.trans name)
    exact delivers_pure consistent companion
  | none =>
    have zero : (Exp.basic (.operand (.const (Scalar.zero k)))).HasTypes types [.scalar k] :=
      ⟨_, rfl, congrArg Ty.scalar (Scalar.ty_zero k).symm⟩
    have made : Delivers allowed (zeroOf x) s types fun c later =>
        later.find? c = some (.scalar k) := by
      obtain ⟨later, adds, knows, bound⟩ :=
        Builder.letExp_adds consistent.knows (consistent.numeric found) zero
      exact .after (consistent.gives_typeOf found) (delivers_build consistent adds knows bound)
    refine made.bind fun c t later adds consistent bound => ?_
    refine (delivers_setCompanion consistent (adds.le x _ found) bound).bind ?_
    rintro _ u _ - recorded rfl
    exact delivers_pure recorded bound

theorem delivers_forM {f : α → Diff Unit} {xs : List α} (consistent : Consistent allowed types s)
    (step : ∀ a ∈ xs, ∀ t later, types ≤ later → Consistent allowed later t →
      Delivers allowed (f a) t later fun _ _ => True) :
    Delivers allowed (xs.forM f) s types fun _ _ => True := by
  induction xs generalizing s types with
  | nil => exact delivers_pure consistent trivial
  | cons a xs ih =>
    rw [List.forM_eq_forM, List.forM_cons, ← List.forM_eq_forM]
    refine (step a (by simp) s types (le_refl _) consistent).bind fun _ t later adds consistent _ => ?_
    exact ih consistent fun b mem u wider le => step b (by simp [mem]) u wider (le_trans adds.le le)

theorem delivers_collect {f : α → Diff β} {xs : List α} {P : NameTable Ty → β → Prop}
    (consistent : Consistent allowed types s)
    (mono : ∀ types later b, types ≤ later → P types b → P later b)
    (step : ∀ a ∈ xs, ∀ t later, types ≤ later → Consistent allowed later t →
      Delivers allowed (f a) t later fun b wider => P wider b) :
    Delivers allowed (xs.mapM f) s types fun bs later => ∀ b ∈ bs, P later b := by
  induction xs generalizing s types with
  | nil => exact delivers_pure consistent (by simp)
  | cons a xs ih =>
    rw [List.mapM_cons]
    refine (step a (by simp) s types (le_refl _) consistent).bind fun b t middle adds consistent here => ?_
    refine (ih consistent fun b mem u wider le => step b (by simp [mem]) u wider (le_trans adds.le le)).bind
      fun bs u later more consistent rest => ?_
    exact delivers_pure consistent (List.forall_mem_cons.mpr ⟨mono _ _ _ more.le here, rest⟩)

/-- Entries that go with the elements of another list give results that do. What goes with what has to
    survive a larger table. -/
theorem delivers_mapM {γ : Type} {f : α → Diff β} {cs : List γ} {xs : List α}
    (I : NameTable Ty → γ → α → Prop) (R : NameTable Ty → γ → β → Prop)
    (monoI : ∀ types later c a, types ≤ later → I types c a → I later c a)
    (monoR : ∀ types later c b, types ≤ later → R types c b → R later c b)
    (step : ∀ c a t later, Consistent allowed later t → I later c a →
      Delivers allowed (f a) t later fun b wider => R wider c b)
    (consistent : Consistent allowed types s) (each : List.Forall₂ (I types) cs xs) :
    Delivers allowed (xs.mapM f) s types fun ys later => List.Forall₂ (R later) cs ys := by
  induction cs generalizing s types xs with
  | nil =>
    obtain rfl := List.forall₂_nil_left_iff.mp each
    exact delivers_pure consistent .nil
  | cons c cs ih =>
    obtain ⟨a, xs, here, tail, rfl⟩ := List.forall₂_cons_left_iff.mp each
    rw [List.mapM_cons]
    refine (step c a s types consistent here).bind fun b t middle adds consistent first => ?_
    refine (ih consistent (tail.imp fun _ _ => monoI _ _ _ _ adds.le)).bind
      fun bs u later more consistent rest => ?_
    exact delivers_pure consistent (.cons (monoR _ _ _ _ more.le first) rest)

/-! Bodies. -/

/-- A body is typed under the table outside. Its names are forgotten at its end, and the companions from
    before may come back. -/
theorem gives_typedBody {stms : Diff Unit} {result : Diff (List Operand)} {ts : List Ty}
    {companions : NameTable Name} (consistent : Consistent allowed types s)
    (inner : Delivers wider (do stms; result) ⟨{ s.builder with stms := [] }, companions⟩ types
      fun xs later => List.Forall₂ (Operand.HasType later) ts xs) :
    ∃ b t, Gives (bodyOf stms result) ⟨s.builder, companions⟩ b t ∧ b.HasTypes types ts ∧
      s.builder.Adds types t.builder types ∧
      Consistent allowed types { t with companions := s.companions } := by
  obtain ⟨xs, v, later, gives, adds, inside, typed⟩ := inner
  obtain ⟨_, u, first, second⟩ := (gives_bind ..).mp gives
  obtain ⟨new, stms, wellTyped, rfl⟩ := adds.emitted
  have emitted : v.builder.stms = new := stms
  refine ⟨⟨new, xs⟩, _, (gives_bodyOf ..).mpr ⟨u, v, first, second, emitted, rfl⟩,
    ⟨wellTyped, typed⟩, .aside rfl adds.next_le, ?_, consistent.paired⟩
  exact consistent.knows.draw (le_trans adds.le inside.knows.typed) adds.next_le

theorem delivers_within {stms : Diff Unit} {result : Diff (List Operand)} {ts : List Ty}
    (consistent : Consistent allowed types s)
    (inner : Delivers wider (do stms; result) ⟨{ s.builder with stms := [] }, s.companions⟩ types
      fun xs later => List.Forall₂ (Operand.HasType later) ts xs) :
    Delivers allowed (within (bodyOf stms result)) s types fun b later =>
      b.HasTypes types ts ∧ types = later := by
  obtain ⟨b, t, gives, typed, adds, consistent⟩ := gives_typedBody consistent inner
  exact ⟨b, _, types, (gives_within ..).mpr ⟨t, gives, rfl⟩, adds, consistent, typed, rfl⟩

theorem delivers_isolated {stms : Diff Unit} {result : Diff (List Operand)} {ts : List Ty}
    (consistent : Consistent allowed types s)
    (inner : Delivers wider (do stms; result) ⟨{ s.builder with stms := [] }, .empty⟩ types
      fun xs later => List.Forall₂ (Operand.HasType later) ts xs) :
    Delivers allowed (isolated (bodyOf stms result)) s types fun b later =>
      b.HasTypes types ts ∧ types = later := by
  obtain ⟨b, t, gives, typed, adds, consistent⟩ := gives_typedBody consistent inner
  exact ⟨b, _, types, (gives_isolated ..).mpr ⟨t, gives, rfl⟩, adds, consistent, typed, rfl⟩

end Diff

end Cotangent
