import Cotangent.Proofs.Regions.Roles
/-!
Roles of binders. A binder of a value gets a tangent, an accumulator stands for itself, and what has no
tangent does not change.
-/
namespace Cotangent

open Outline Diff

theorem Ty.kind_of_value {ty : Ty} (value : ty.isAcc = false) : ∃ t, ty.kind = .leaves t := by
  cases ty with
  | scalar t => exact ⟨t, rfl⟩
  | array t shape unique => exact ⟨t, rfl⟩
  | acc token shape elems unique => simp [Ty.isAcc] at value

theorem Ty.kind_of_acc {ty : Ty} (acc : ty.isAcc = true) : ∃ ts, ty.kind = .handle ts := by
  cases ty with
  | scalar t => simp [Ty.isAcc] at acc
  | array t shape unique => simp [Ty.isAcc] at acc
  | acc token shape elems unique => exact ⟨_, rfl⟩

namespace Roles

variable {bound : Nat} {κ : Name → Kind} {on on' : List Name} {ρ ρ' ρ'' : Roles} {s t u : DiffState}
  {x : Name} {r : Role}

/-- The binder has its role, but maybe no type yet. -/
def Awaits (bound : Nat) (κ : Name → Kind) (ρ : Roles) (s : DiffState) (p : Param) : Prop :=
  p.name.id < bound ∧ ∃ r, Cast κ ρ s.companions p.name r ∧ r.Suits p.ty

theorem Awaits.grow {p : Param} (awaits : Awaits bound κ ρ s p) (grows : Grows bound κ on ρ s ρ' t) :
    Awaits bound κ ρ' t p := by
  obtain ⟨small, r, cast, suits⟩ := awaits
  exact ⟨small, r, grows.casts _ r cast, suits⟩

theorem Suited.mono {ps : List Param} (suited : ρ.Suited ps) (under : ρ.Under ρ') : ρ'.Suited ps := by
  intro p mem
  obtain ⟨r, role, suits⟩ := suited p mem
  exact ⟨r, under _ _ role, suits⟩

theorem Suited.append {ps qs : List Param} (first : ρ.Suited ps) (second : ρ.Suited qs) :
    ρ.Suited (ps ++ qs) :=
  List.forall_mem_append.mpr ⟨first, second⟩

/-- Once it has a type among binders that suit their roles, the binder stands in scope. -/
theorem Awaits.stands {p : Param} (awaits : Awaits bound κ ρ s p) {ps : List Param}
    (suited : ρ.Suited ps) (mem : ∃ q ∈ ps, q.name = p.name) {types : NameTable Ty}
    (typed : s.builder.types = types.insertAll (ps.map fun q => (q.name, q.ty))) :
    Stands bound κ ρ s p.name := by
  obtain ⟨small, r, cast, suits⟩ := awaits
  obtain ⟨ty, declared, found⟩ := NameTable.find_insertAll_of_mem types
    (ps.map fun q => (q.name, q.ty)) p.name (by simpa using mem)
  obtain ⟨q, inList, same⟩ := List.mem_map.mp declared
  obtain ⟨sameName, rfl⟩ := Prod.mk.inj same
  obtain ⟨r', role, suits'⟩ := suited q inList
  obtain rfl := Option.some.inj (cast.role.symm.trans (sameName ▸ role))
  exact ⟨small, r, q.ty, cast, typed ▸ found, suits'⟩

theorem Coherent.give_plain (coherent : ρ.Coherent) {c : Name} {t : ScalarType} (unborn : ρ x = none)
    (tangent : ρ c = some (.tangent x)) : (ρ.give x (.plain t c)).Coherent := by
  intro y t' c' role
  by_cases same : y = x
  · subst same
    rw [give_self] at role
    obtain ⟨rfl, rfl⟩ := Role.plain.inj (Option.some.inj role)
    exact under_give unborn _ _ tangent
  · rw [give_of_ne ρ _ same] at role
    exact under_give unborn _ _ (coherent y t' c' role)

/-- The binders of an accumulator or of a value, beside the tangent that was made. -/
def doubled (p q : Param) : List Param := if p.ty.isAcc then [q] else [p, q]

/-- What a tangent that was made for a binder leads to. -/
structure Tangent (ρ : Roles) (p q : Param) : Prop where
  holds : ρ.Holds p.name p.ty.kind
  tan : ρ.tan p.name = q.name
  names : ρ.echo p.name = (doubled p q).map (·.name)

/-- The binder has its role. It stands in scope if it is an accumulator, or if it had a type before. -/
structure Takes (bound : Nat) (κ : Name → Kind) (ρ : Roles) (types : NameTable Ty) (u : DiffState)
    (p : Param) : Prop where
  awaits : Awaits bound κ ρ u p
  stands : p.ty.isAcc = true ∨ HasValueType types p.name → Stands bound κ ρ u p.name

/-- What becomes of a binder, and of the roles. -/
def Bound (bound : Nat) (κ : Name → Kind) (ρ : Roles) (s u : DiffState) (p q : Param) : Prop :=
  Padded bound κ [p.name] ρ s u
    (fun ρ' => Takes bound κ ρ' s.builder.types u p ∧ ρ'.Suited [p, q])
    fun ρ'' => ρ''.Tangent p q

theorem declared_of_gives {α : Type} (free : Name → Prop) {act : Diff α} {P : α → NameTable Ty → Prop}
    (declares : Declares free bound act P) (past : bound ≤ s.builder.supply.next) {a : α}
    (gives : Gives act s a u) : s.builder.Frame free bound u.builder ∧ P a u.builder.types := by
  have declared := declares s past
  rw [show outcome act s = (.ok a, u) from gives] at declared
  exact ⟨declared.1, declared.2 a rfl⟩

theorem newTangent_frame (past : bound ≤ s.builder.supply.next) {p q : Param}
    (gives : Gives (Forward.newTangent p) s q u) : s.builder.Frame (· ∈ [p.name]) bound u.builder :=
  (declared_of_gives _ (Forward.declares_newTangent fun _ => by simp) past gives).1

/-- An accumulator is its own tangent. -/
theorem newTangent_acc (sound : Sound bound ρ s) {p q : Param} (unborn : Unborn bound ρ [p.name])
    (kind : κ p.name = p.ty.kind) (acc : p.ty.isAcc = true)
    (gives : Gives (Forward.newTangent p) s q u) : Bound bound κ ρ s u p q := by
  have frame := newTangent_frame sound.reserved gives
  obtain ⟨unborn, small⟩ := unborn p.name (by simp)
  obtain ⟨ts, isHandle⟩ := Ty.kind_of_acc acc
  simp only [Forward.newTangent, acc, if_true, gives_bind, gives_pure, gives_setCompanion, gives_build]
    at gives
  obtain ⟨_, _, ⟨rfl, rfl⟩, _, _, rfl, _, _, ⟨-, rfl⟩, rfl, rfl⟩ := gives
  have role := give_self ρ p.name (.handle ts)
  have cast : Cast κ (ρ.give p.name (.handle ts)) (s.companions.insert p.name p.name) p.name
      (.handle ts) :=
    .handle (kind.trans isHandle) role (by rw [NameTable.find_insert, if_pos rfl])
  have isAcc : p.ty.tangent.isAcc = true := (isAcc_tangent p.ty).trans acc
  refine ⟨ρ.give p.name (.handle ts), [], ?_, ?_, (List.append_nil _).symm,
    ⟨⟨⟨small, _, cast, acc⟩, ?_⟩, ?_⟩,
    fun ρ'' under => ⟨by simp, ?_, ?_, ?_⟩⟩
  · refine ⟨under_give unborn, Nat.le_refl _, fun y none other _ => ?_, frame, fun y r old => ?_⟩
    · rw [give_of_ne ρ _ (by simpa using other), none]
    · refine old.mono (under_give unborn) ?_
      rw [NameTable.find_insert, if_neg]
      rintro rfl
      exact absurd (old.role.symm.trans unborn) (by simp)
  · refine ⟨sound.coherent.give unborn (by simp), sound.reserved, fun y large => ?_, fun y none => ?_⟩
    · have apart : y ≠ p.name := by
        rintro rfl
        exact absurd (Nat.lt_of_lt_of_le small sound.reserved) (Nat.not_lt.mpr large)
      rw [give_of_ne ρ _ apart]
      exact sound.past y large
    · have apart : y ≠ p.name := by
        rintro rfl
        simp at none
      rw [NameTable.find_insert, if_neg apart]
      exact sound.apart y (by rwa [give_of_ne ρ _ apart] at none)
  · refine fun _ => ⟨small, _, p.ty.tangent, cast, ?_, isAcc⟩
    exact (NameTable.find_insert ..).trans (if_pos rfl)
  · exact List.forall_mem_cons.mpr ⟨⟨_, role, acc⟩, List.forall_mem_cons.mpr ⟨⟨_, role, isAcc⟩, by simp⟩⟩
  · rw [isHandle]
    exact .handle (under _ _ role)
  · simp [tan, under _ _ role]
  · simp [echo_handle (under _ _ role), doubled, acc]

/-- A value gets a fresh name for its tangent. -/
theorem newTangent_value (sound : Sound bound ρ s) {p q : Param} (unborn : Unborn bound ρ [p.name])
    (kind : κ p.name = p.ty.kind) (value : p.ty.isAcc = false)
    (gives : Gives (Forward.newTangent p) s q u) : Bound bound κ ρ s u p q := by
  have frame := newTangent_frame sound.reserved gives
  obtain ⟨unborn, small⟩ := unborn p.name (by simp)
  obtain ⟨t, isLeaves⟩ := Ty.kind_of_value value
  obtain ⟨rfl, rfl⟩ := (Forward.gives_newTangent value s).unique gives
  let c : Name := ⟨s.builder.supply.next⟩
  have apart : p.name ≠ c := fun same =>
    Nat.lt_irrefl c.id (Nat.lt_of_lt_of_le (same ▸ small) sound.reserved)
  have fresh : ρ c = none := sound.past c (Nat.le_refl _)
  have unborn' : ρ.give c (.tangent p.name) p.name = none := (give_of_ne ρ _ apart).trans unborn
  let ρ' : Roles := (ρ.give c (.tangent p.name)).give p.name (.plain t c)
  have under : ρ.Under ρ' := (under_give fresh).trans (under_give unborn')
  have role : ρ' p.name = some (.plain t c) := give_self ..
  have isTangent : ρ' c = some (.tangent p.name) := (give_of_ne _ _ apart.symm).trans (give_self ..)
  have others {y : Name} (notP : y ≠ p.name) (notC : y ≠ c) : ρ' y = ρ y :=
    (give_of_ne _ _ notP).trans (give_of_ne ρ _ notC)
  have companions (y : Name) : (Forward.withTangents s [p]).companions.find? y =
      if y = p.name then some c else s.companions.find? y := NameTable.find_insert ..
  have cast : Cast κ ρ' (Forward.withTangents s [p]).companions p.name (.plain t c) :=
    .plain (kind.trans isLeaves) role ((companions p.name).trans (if_pos rfl))
  refine ⟨ρ', [], ?_, ?_, (List.append_nil _).symm,
    ⟨⟨⟨small, _, cast, value⟩, ?_⟩, ?_⟩,
    fun ρ'' under => ⟨by simp, ?_, ?_, ?_⟩⟩
  · refine ⟨under, Nat.le_succ _, fun y none other drawn => ?_, frame, fun y r old => ?_⟩
    · rw [others (by simpa using other), none]
      rintro rfl
      exact Nat.lt_irrefl _ drawn
    · refine old.mono under ((companions y).trans (if_neg ?_))
      rintro rfl
      exact absurd (old.role.symm.trans unborn) (by simp)
  · refine ⟨(sound.coherent.give fresh (by simp)).give_plain unborn' (give_self ..),
      Nat.le_succ_of_le sound.reserved, fun y large => ?_, fun y none => ?_⟩
    · have large : s.builder.supply.next + 1 ≤ y.id := large
      rw [others]
      · exact sound.past y (by omega)
      · rintro rfl
        have := sound.reserved
        omega
      · rintro rfl
        exact absurd large (Nat.not_le.mpr (Nat.lt_succ_self _))
    · have notP : y ≠ p.name := by
        rintro rfl
        simp [role] at none
      have notC : y ≠ c := by
        rintro rfl
        simp [isTangent] at none
      rw [companions, if_neg notP]
      exact sound.apart y (by rwa [others notP notC] at none)
  · rintro (acc | ⟨ty, found, isValue⟩)
    · simp [value] at acc
    · refine ⟨small, _, ty, cast, ?_, isValue⟩
      refine (NameTable.find_insert ..).trans ((if_neg apart).trans found)
  · exact List.forall_mem_cons.mpr ⟨⟨_, role, value⟩, List.forall_mem_cons.mpr ⟨⟨_, isTangent, trivial⟩, by simp⟩⟩
  · rw [isLeaves]
    exact .plain (under _ _ role)
  · exact tan_plain (under _ _ role)
  · simp [echo_plain (under _ _ role), doubled, value, c]

theorem newTangent_bound (sound : Sound bound ρ s) {p q : Param} (unborn : Unborn bound ρ [p.name])
    (kind : κ p.name = p.ty.kind) (gives : Gives (Forward.newTangent p) s q u) :
    Bound bound κ ρ s u p q := by
  cases acc : p.ty.isAcc with
  | true => exact newTangent_acc sound unborn kind acc gives
  | false => exact newTangent_value sound unborn kind acc gives

/-! Lists of binders. -/

/-- What becomes of binders whose tangents are made one after the other. -/
def BoundAll (bound : Nat) (κ : Name → Kind) (ρ : Roles) (s u : DiffState) (ps qs : List Param) : Prop :=
  Padded bound κ (ps.map (·.name)) ρ s u
    (fun ρ' => (∀ p ∈ ps, Takes bound κ ρ' s.builder.types u p) ∧ ρ'.Suited (ps ++ qs))
    fun ρ'' => List.Forall₂ ρ''.Tangent ps qs

theorem Suited.cons_cons {p q : Param} {ps qs : List Param} (first : ρ.Suited [p, q])
    (rest : ρ.Suited (ps ++ qs)) : ρ.Suited (p :: ps ++ q :: qs) := by
  intro r mem
  simp only [List.cons_append, List.mem_cons, List.mem_append] at mem
  rcases mem with rfl | mem | rfl | mem
  · exact first r (by simp)
  · exact rest r (List.mem_append_left _ mem)
  · exact first r (by simp)
  · exact rest r (List.mem_append_right _ mem)

theorem newTangents_bound (sound : Sound bound ρ s) {ps qs : List Param}
    (unborn : Unborn bound ρ (ps.map (·.name))) (distinct : (ps.map (·.name)).Nodup)
    (kinds : Kinded κ ps) (gives : Gives (ps.mapM Forward.newTangent) s qs u) :
    BoundAll bound κ ρ s u ps qs := by
  induction ps generalizing ρ s qs with
  | nil =>
    obtain ⟨rfl, rfl⟩ := (gives_pure ..).mp gives
    exact padded_refl sound ⟨by simp, by simp [Suited]⟩ fun ρ'' _ => .nil
  | cons p ps ih =>
    simp only [List.mapM_cons, gives_bind, gives_pure] at gives
    obtain ⟨q, v, first, qs, w, rest, rfl, rfl⟩ := gives
    obtain ⟨kind, kinds⟩ := List.forall_mem_cons.mp kinds
    obtain ⟨absent, distinct⟩ := List.nodup_cons.mp distinct
    have apart : ∀ x ∈ ps.map (·.name), x ∉ [p.name] := fun x mem same =>
      absent (by rwa [List.mem_singleton.mp same] at mem)
    have unborn' : Unborn bound ρ (ps.map (·.name)) := fun x mem => unborn x (by simp_all)
    have here := newTangent_bound sound (fun x mem => unborn x (by simp_all)) kind first
    have there : ∀ ρ₁, Grows bound κ [p.name] ρ s ρ₁ v → Sound bound ρ₁ v →
        Takes bound κ ρ₁ s.builder.types v p ∧ ρ₁.Suited [p, q] →
        Padded bound κ (ps.map (·.name)) ρ₁ v w
          (fun ρ₂ => (∀ r ∈ p :: ps, Takes bound κ ρ₂ s.builder.types w r) ∧
            ρ₂.Suited (p :: ps ++ q :: qs))
          fun ρ'' => List.Forall₂ ρ''.Tangent ps qs := by
      rintro ρ₁ grows sound₁ ⟨takes, suited⟩
      refine Padded.mono (ih sound₁ (unborn'.grow sound grows apart) distinct kinds rest)
        (fun _ mem => mem) (fun ρ₂ grows' post => ⟨List.forall_mem_cons.mpr
          ⟨⟨takes.awaits.grow grows', fun typed => (takes.stands typed).grow grows' absent⟩,
            fun r mem => ⟨(post.1 r mem).awaits, fun typed =>
              (post.1 r mem).stands (typed.imp_right ?_)⟩⟩,
          (suited.mono grows'.under).cons_cons post.2⟩) fun _ _ known => known
      rintro ⟨ty, found, value⟩
      have inside := List.mem_map_of_mem (f := (·.name)) mem
      exact ⟨ty, (grows.types.kept _ (unborn' _ inside).2 (apart _ inside)).trans found, value⟩
    exact (Padded.bind here there).mono (by simp) (fun _ _ post => post)
      fun ρ'' _ both => .cons both.1 both.2

theorem binds_of_tangents {ps qs : List Param} (tangents : List.Forall₂ ρ.Tangent ps qs) :
    ρ.Binds (ps.map (·.name)) (ps.map (·.ty.kind)) := by
  induction tangents with
  | nil => exact .nil
  | cons here rest ih => exact .cons here.holds ih

theorem tan_of_tangents {ps qs : List Param} (tangents : List.Forall₂ ρ.Tangent ps qs) :
    qs.map (·.name) = (ps.map (·.name)).map ρ.tan := by
  induction tangents with
  | nil => rfl
  | cons here rest ih => simp [here.tan, ih]

theorem echo_of_tangents {ps qs : List Param} (tangents : List.Forall₂ ρ.Tangent ps qs) :
    (List.zipWith doubled ps qs).flatten.map (·.name) = (ps.map (·.name)).flatMap ρ.echo := by
  induction tangents with
  | nil => rfl
  | cons here rest ih => simp [here.names, ih]

theorem mem_of_doubled {ps qs : List Param} {r : Param}
    (mem : r ∈ (List.zipWith doubled ps qs).flatten) : r ∈ ps ++ qs := by
  induction ps generalizing qs with
  | nil => simp at mem
  | cons p ps ih =>
    cases qs with
    | nil => simp at mem
    | cons q qs =>
      rw [List.zipWith_cons_cons, List.flatten_cons, List.mem_append] at mem
      have here : r ∈ doubled p q → r = p ∨ r = q := by
        unfold doubled
        split <;> simp_all
      rcases mem with mem | mem
      · rcases here mem with rfl | rfl <;> simp
      · rcases List.mem_append.mp (ih mem) with mem | mem <;> simp [mem]

theorem gives_bundleBinders_iff {ps wide : List Param} :
    Gives (Forward.bundleBinders ps) s wide u ↔
      ∃ qs, Gives (ps.mapM Forward.newTangent) s qs u ∧ wide = (List.zipWith doubled ps qs).flatten := by
  induction ps generalizing s wide with
  | nil =>
    simp only [Forward.bundleBinders, gives_bundled_nil_iff, List.mapM_nil, gives_pure]
    constructor
    · rintro ⟨rfl, rfl⟩
      exact ⟨[], ⟨rfl, rfl⟩, rfl⟩
    · rintro ⟨_, ⟨rfl, rfl⟩, rfl⟩
      exact ⟨rfl, rfl⟩
  | cons p ps ih =>
    simp only [Forward.bundleBinders] at ih
    simp only [Forward.bundleBinders, gives_bundled_cons_iff, List.mapM_cons, gives_bind, gives_pure, ih]
    constructor
    · rintro ⟨_, v, _, ⟨q, _, first, rfl, rfl⟩, ⟨qs, rest, rfl⟩, rfl⟩
      exact ⟨q :: qs, ⟨q, _, first, qs, _, rest, rfl, rfl⟩, by simp [doubled]⟩
    · rintro ⟨_, ⟨q, v, first, qs, _, rest, rfl, rfl⟩, rfl⟩
      exact ⟨_, v, _, ⟨q, v, first, rfl, rfl⟩, ⟨qs, rest, rfl⟩, by simp [doubled]⟩

/-- A pattern that can be emitted for the binders. -/
structure Pattern (bound : Nat) (κ : Name → Kind) (ρ : Roles) (s : DiffState) (ps wide : List Param) :
    Prop where
  awaits : ∀ p ∈ ps, Awaits bound κ ρ s p
  suited : ρ.Suited wide
  widens : Widens bound ps wide

theorem Pattern.grow {ps wide : List Param} (pattern : Pattern bound κ ρ s ps wide)
    (grows : Grows bound κ on ρ s ρ' t) : Pattern bound κ ρ' t ps wide :=
  ⟨fun p mem => (pattern.awaits p mem).grow grows, pattern.suited.mono grows.under, pattern.widens⟩

theorem bundleBinders_echoed (sound : Sound bound ρ s) {ps wide : List Param}
    (unborn : Unborn bound ρ (ps.map (·.name))) (distinct : (ps.map (·.name)).Nodup)
    (kinds : Kinded κ ps) (gives : Gives (Forward.bundleBinders ps) s wide u) :
    Padded bound κ (ps.map (·.name)) ρ s u
      (fun ρ' => Pattern bound κ ρ' u ps wide ∧ ∀ p ∈ ps, Takes bound κ ρ' s.builder.types u p)
      fun ρ'' => ρ''.Binds (ps.map (·.name)) (ps.map (·.ty.kind)) ∧
        wide.map (·.name) = (ps.map (·.name)).flatMap ρ''.echo := by
  have widens := (declared_of_gives (fun _ => True) (Forward.declares_bundleBinders fun _ _ => trivial)
    sound.reserved gives).2
  obtain ⟨qs, made, rfl⟩ := gives_bundleBinders_iff.mp gives
  exact Padded.mono (newTangents_bound sound unborn distinct kinds made) (fun _ mem => mem)
    (fun ρ' _ post => ⟨⟨fun p mem => (post.1 p mem).awaits,
      fun q mem => post.2 q (mem_of_doubled mem), widens⟩, post.1⟩)
    fun ρ'' _ tangents => ⟨binds_of_tangents tangents, echo_of_tangents tangents⟩

end Roles

end Cotangent
