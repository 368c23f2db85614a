import Cotangent.Proofs.Regions.Binders
/-!
Roles in scopes. A pattern stands once its statement is emitted, parameters stand once they are declared
and have tangents, and what a body binds keeps its roles when the companions from before come back.
-/
namespace Cotangent

open Outline Diff

namespace Roles

variable {bound : Nat} {κ : Name → Kind} {on on' : List Name} {ρ ρ' ρ'' : Roles} {s t u v : DiffState}
  {x : Name} {r : Role} {post holds holds' : Roles → Prop} {echo : Roles → List Stm → Prop}

/-- The statement is emitted that binds the pattern. -/
theorem Pattern.emit (sound : Sound bound ρ s) {ps : List Param} {stm : Stm}
    (pattern : Pattern bound κ ρ s ps stm.pat) (gives : Gives (build (Build.add stm)) s () u) :
    Echoed bound κ (ps.map (·.name)) ρ s u (fun ρ' => Served bound κ ρ' u (ps.map (·.name)))
      fun _ new => new = [stm] := by
  rw [gives_build, Build.add_apply] at gives
  obtain ⟨-, rfl⟩ := gives
  have free : ∀ q ∈ stm.pat, q.name ∈ ps.map (·.name) ∨ bound ≤ q.name.id := fun q mem =>
    (pattern.widens.origin q mem).free fun p inside => List.mem_map_of_mem inside
  refine ⟨ρ, [stm], ⟨.refl ρ, Nat.le_refl _, fun _ none _ _ => none,
    Builder.frame_declared sound.reserved _ rfl rfl free, fun _ _ cast => cast⟩,
    sound.same rfl rfl, rfl, fun x mem => ?_, fun _ _ => rfl⟩
  obtain ⟨p, inside, rfl⟩ := List.mem_map.mp mem
  obtain ⟨small, r, cast, suits⟩ := pattern.awaits p inside
  exact Awaits.stands ⟨small, r, cast, suits⟩ pattern.suited (pattern.widens.complete p inside) rfl

/-- The names are bound, and only pads are emitted. -/
def Binding (bound : Nat) (κ : Name → Kind) (xs : List Name) (ρ : Roles) (s t : DiffState)
    (holds : Roles → Prop) : Prop :=
  Padded bound κ xs ρ s t (fun ρ' => Served bound κ ρ' t xs) holds

/-- Some names are bound after others. -/
theorem Binding.both {xs ys : List Name} (first : Binding bound κ xs ρ s t holds)
    (second : ∀ ρ', Grows bound κ xs ρ s ρ' t → Sound bound ρ' t → Binding bound κ ys ρ' t u holds')
    (apart : ∀ x ∈ xs, x ∉ ys) :
    Binding bound κ (xs ++ ys) ρ s u fun ρ'' => holds ρ'' ∧ holds' ρ'' :=
  Padded.bind first fun ρ' grows sound served => Padded.mono (second ρ' grows sound)
    (fun _ mem => mem) (fun _ grows' served' => List.forall_mem_append.mpr
      ⟨Served.grow served grows' apart, served'⟩) fun _ _ known => known

theorem Binding.mono {xs : List Name} (binding : Binding bound κ xs ρ s t holds)
    (weaker : ∀ ρ'', ρ.Under ρ'' → holds ρ'' → holds' ρ'') : Binding bound κ xs ρ s t holds' :=
  Padded.mono binding (fun _ mem => mem) (fun _ _ post => post) weaker

/-- Types are declared for the names, and nothing else happens. -/
structure Declared (bound : Nat) (κ : Name → Kind) (ρ : Roles) (s t : DiffState) (ps : List Param) :
    Prop where
  sound : Sound bound ρ t
  grows : Grows bound κ (ps.map (·.name)) ρ s ρ t
  stms : t.builder.stms = s.builder.stms
  types : t.builder.types = s.builder.types.insertAll (ps.map fun p => (p.name, p.ty))

theorem declareParams_declared (sound : Sound bound ρ s) {ps : List Param}
    (gives : Gives (build (Build.declareParams ps)) s () t) : Declared bound κ ρ s t ps := by
  rw [gives_build, Build.declareParams_apply] at gives
  obtain ⟨-, rfl⟩ := gives
  refine ⟨sound.same rfl rfl, ⟨.refl ρ, Nat.le_refl _, fun _ none _ _ => none, ?_, fun _ _ cast => cast⟩,
    rfl, rfl⟩
  exact Builder.frame_declared sound.reserved _ rfl rfl fun p mem => .inl (List.mem_map_of_mem mem)

theorem Declared.binding {ps : List Param} {xs : List Name} (declared : Declared bound κ ρ s t ps)
    (sub : ∀ p ∈ ps, p.name ∈ xs) (binding : Binding bound κ xs ρ t u holds) :
    Binding bound κ xs ρ s u holds := by
  obtain ⟨ρ', new, grows, sound, emitted, served, echoes⟩ := binding
  refine ⟨ρ', new, (declared.grows.trans grows).mono ?_, sound, declared.stms ▸ emitted, served, echoes⟩
  exact List.forall_mem_append.mpr ⟨List.forall_mem_map.mpr sub, fun _ mem => mem⟩

/-- A name that has no tangent. -/
theorem still_echoed (sound : Sound bound ρ s) (unborn : Unborn bound ρ [x]) {t : ScalarType}
    (kind : κ x = .leaves t) (found : s.builder.types.find? x = some (.scalar t)) :
    Echoed bound κ [x] ρ s s (fun ρ' => Stands bound κ ρ' s x)
      fun ρ'' new => new = [] ∧ ρ'' x = some (.still t) := by
  obtain ⟨unborn, small⟩ := unborn x (by simp)
  have role := give_self ρ x (.still t)
  have cast : Cast κ (ρ.give x (.still t)) s.companions x (.still t) := by
    refine .still kind role fun z here => ?_
    simp [sound.apart x unborn] at here
  have stands : Stands bound κ (ρ.give x (.still t)) s x := ⟨small, _, _, cast, found, rfl⟩
  refine ⟨ρ.give x (.still t), [], ⟨under_give unborn, Nat.le_refl _, fun y none other _ => ?_,
    .refl sound.reserved, fun y r old => old.mono (under_give unborn) rfl⟩,
    ⟨sound.coherent.give unborn (by simp), sound.reserved, fun y large => ?_, fun y none => ?_⟩,
    (List.append_nil _).symm, stands, fun ρ'' under => ⟨rfl, under _ _ role⟩⟩
  · rw [give_of_ne ρ _ (by simpa using other), none]
  · have apart : y ≠ x := by
      rintro rfl
      exact absurd (Nat.lt_of_lt_of_le small sound.reserved) (Nat.not_lt.mpr large)
    rw [give_of_ne ρ _ apart]
    exact sound.past y large
  · have apart : y ≠ x := by
      rintro rfl
      simp at none
    exact sound.apart y (by rwa [give_of_ne ρ _ apart] at none)

theorem still_binding (sound : Sound bound ρ s) (unborn : Unborn bound ρ [x]) {t : ScalarType}
    (kind : κ x = .leaves t) (found : s.builder.types.find? x = some (.scalar t)) :
    Binding bound κ [x] ρ s s fun ρ'' => ρ'' x = some (.still t) :=
  (still_echoed sound unborn kind found).mono (fun _ mem => mem)
    (fun _ _ stands => by simpa [Served] using stands) fun _ _ _ echo => ⟨by simp [echo.1], echo.2⟩

theorem stills_binding (sound : Sound bound ρ s) {xs : List Name} (unborn : Unborn bound ρ xs)
    (distinct : xs.Nodup) {t : ScalarType} (kinds : ∀ x ∈ xs, κ x = .leaves t)
    (found : ∀ x ∈ xs, s.builder.types.find? x = some (.scalar t)) :
    Binding bound κ xs ρ s s fun ρ'' => ∀ x ∈ xs, ρ'' x = some (.still t) := by
  induction xs generalizing ρ with
  | nil => exact padded_refl sound (by simp [Served]) fun _ _ => by simp
  | cons x xs ih =>
    obtain ⟨kind, kinds⟩ := List.forall_mem_cons.mp kinds
    obtain ⟨here, found⟩ := List.forall_mem_cons.mp found
    obtain ⟨absent, distinct⟩ := List.nodup_cons.mp distinct
    have apart : ∀ y ∈ xs, y ∉ [x] := fun y mem same => absent (by rwa [List.mem_singleton.mp same] at mem)
    have unborn' : Unborn bound ρ xs := fun y mem => unborn y (List.mem_cons_of_mem x mem)
    exact ((still_binding sound (fun y mem => unborn y (by simp_all)) kind here).both
      (fun ρ₁ grows sound₁ => ih sound₁ (unborn'.grow sound grows apart) distinct kinds found)
      (by simpa using absent)).mono fun ρ'' _ both => List.forall_mem_cons.mpr both

/-- The companions from before come back. -/
theorem Echoed.within (echoed : Echoed bound κ on ρ s u post echo) (sound : Sound bound ρ s) :
    Echoed bound κ on ρ s { u with companions := s.companions } post echo := by
  obtain ⟨ρ', new, grows, sound', emitted, known, echoes⟩ := echoed
  refine ⟨ρ', new, ⟨grows.under, grows.next_le, grows.new, ⟨grows.types.next_le, grows.types.kept⟩,
    fun x r cast => cast.mono grows.under rfl⟩, ⟨sound'.coherent, sound'.reserved, sound'.past,
    fun x none => sound.apart x ?_⟩, emitted, known, echoes⟩
  -- A name without a role now had none before, and so had no companion to come back.
  cases given : ρ x with
  | none => rfl
  | some r => exact absurd ((grows.under x r given).symm.trans none) (by simp)

/-- The statements of a body are collected, and those for its results after them. -/
theorem bodyOf_echoed {stms : Diff Unit} {results : Diff (List Operand)} {b b' : Body}
    {layout : Arrangement} {ks : List Kind} (gives : Gives (bodyOf stms results) s b' u)
    (inside : ∀ t, Gives stms { s with builder := { s.builder with stms := [] } } () t →
      Echoed bound κ on ρ { s with builder := { s.builder with stms := [] } } t
        (fun ρ' => Served bound κ ρ' t (operandNames b.result)) fun ρ'' new => StmsEcho ρ'' b.stms new)
    (laid : ∀ t v ρ' ys, Sound bound ρ' t → Served bound κ ρ' t (operandNames b.result) →
      Gives results t ys v →
        Padded bound κ [] ρ' t v (fun _ => True) fun ρ'' => layout.Holds ρ'' ks b.result ys) :
    Padded bound κ on ρ s u (fun _ => True) fun ρ'' => b.Echoes ρ'' layout ks b' := by
  obtain ⟨ss, xs⟩ := b
  obtain ⟨ss', ys⟩ := b'
  obtain ⟨t, v, first, second, emitted, rfl⟩ := (gives_bodyOf ..).mp gives
  obtain ⟨ρ', new, grows, sound, emitted', -, echoes⟩ :=
    (inside t first).bind fun ρ' _ sound served => laid t v ρ' ys sound served second
  obtain rfl : new = ss' := emitted'.symm.trans emitted
  refine ⟨ρ', [], ⟨grows.under, grows.next_le, fun x none other => grows.new x none (by simpa using other),
    ⟨grows.types.next_le, fun x small other => grows.types.kept x small (by simpa using other)⟩,
    grows.casts⟩, sound.same rfl rfl,
    (List.append_nil _).symm, trivial, fun ρ'' under => ⟨by simp, ?_⟩⟩
  obtain ⟨here, there, rfl, stmsEcho, pads, known⟩ := echoes ρ'' under
  exact .mk stmsEcho pads known

/-! Parameters. -/

/-- Among distinct binders that were declared, each has its type. -/
theorem Declared.find {ps : List Param} (declared : Declared bound κ ρ s t ps)
    (distinct : (ps.map (·.name)).Nodup) {p : Param} (mem : p ∈ ps) :
    t.builder.types.find? p.name = some p.ty := by
  obtain ⟨ty, inserted, found⟩ := NameTable.find_insertAll_of_mem s.builder.types
    (ps.map fun q => (q.name, q.ty)) p.name (by simpa using ⟨p, mem, rfl⟩)
  obtain ⟨q, inList, same⟩ := List.mem_map.mp inserted
  obtain ⟨sameName, rfl⟩ := Prod.mk.inj same
  obtain rfl := List.inj_on_of_nodup_map distinct inList mem sameName
  exact declared.types ▸ found

theorem Takes.standing {types : NameTable Ty} {p : Param} (takes : Takes bound κ ρ types u p)
    (found : types.find? p.name = some p.ty) : Stands bound κ ρ u p.name := by
  refine takes.stands ?_
  cases acc : p.ty.isAcc with
  | true => exact .inl rfl
  | false => exact .inr ⟨p.ty, found, acc⟩

/-- Binders with types get tangents as a group. -/
theorem group_binding (sound : Sound bound ρ s) {ps qs : List Param}
    (unborn : Unborn bound ρ (ps.map (·.name))) (distinct : (ps.map (·.name)).Nodup)
    (kinds : Kinded κ ps) (found : ∀ p ∈ ps, s.builder.types.find? p.name = some p.ty)
    (gives : Gives (ps.mapM Forward.newTangent) s qs u) :
    Binding bound κ (ps.map (·.name)) ρ s u fun ρ'' =>
      ρ''.Binds (ps.map (·.name)) (ps.map (·.ty.kind)) ∧
        qs.map (·.name) = (ps.map (·.name)).map ρ''.tan :=
  Padded.mono (newTangents_bound sound unborn distinct kinds gives) (fun _ mem => mem)
    (fun _ _ post => List.forall_mem_map.mpr fun p mem => (post.1 p mem).standing (found p mem))
    fun _ _ tangents => ⟨binds_of_tangents tangents, tan_of_tangents tangents⟩

/-- Parameters are declared, and get tangents. -/
theorem params_binding (sound : Sound bound ρ s) {ps wide : List Param}
    (unborn : Unborn bound ρ (ps.map (·.name))) (distinct : (ps.map (·.name)).Nodup)
    (kinds : Kinded κ ps) (declared : Gives (build (Build.declareParams ps)) s () t)
    (gives : Gives (Forward.bundleBinders ps) t wide u) :
    Binding bound κ (ps.map (·.name)) ρ s u fun ρ'' =>
      ρ''.Binds (ps.map (·.name)) (ps.map (·.ty.kind)) ∧
        wide.map (·.name) = (ps.map (·.name)).flatMap ρ''.echo := by
  have declared : Declared bound κ ρ s t ps := declareParams_declared sound declared
  refine declared.binding (fun _ mem => List.mem_map_of_mem mem) ?_
  exact Padded.mono (bundleBinders_echoed declared.sound unborn distinct kinds gives) (fun _ mem => mem)
    (fun _ _ post => List.forall_mem_map.mpr fun p mem =>
      (post.2 p mem).standing (declared.find distinct mem)) fun _ _ known => known

end Roles

end Cotangent
