import Cotangent.Proofs.Regions.Scopes
/-!
Roles in the parts of loops and of regions: loop parameters with their first values, rows, the pattern
of a region, and zeros for neutral elements.
-/
namespace Cotangent

open Outline Diff

namespace Roles

variable {bound : Nat} {κ : Name → Kind} {on on' : List Name} {ρ ρ' ρ'' : Roles} {s t u v : DiffState}
  {x : Name} {r : Role} {post holds holds' : Roles → Prop} {echo : Roles → List Stm → Prop}

/-- A name gets a type, and then, after a step that binds no names, its tangent. -/
theorem declared_binding (sound : Sound bound ρ s) {p q : Param} (unborn : Unborn bound ρ [p.name])
    (kind : κ p.name = p.ty.kind) (declared : Gives (build (Build.declare p.name p.ty)) s () t)
    (step : Sound bound ρ t → (∀ x, Stands bound κ ρ s x → Stands bound κ ρ t x) →
      Padded bound κ [] ρ t u (fun _ => True) holds) (gives : Gives (Forward.newTangent p) u q v) :
    Binding bound κ [p.name] ρ s v fun ρ'' => holds ρ'' ∧ ρ''.Tangent p q := by
  have declared : Declared bound κ ρ s t [p] := declareParams_declared sound declared
  have step := step declared.sound fun x stands => stands.grow declared.grows (unborn.not_mem stands)
  refine declared.binding (by simp) (Padded.bind step fun ρ₁ grows sound₁ _ => ?_)
  refine Padded.mono (newTangent_bound sound₁ (unborn.grow declared.sound grows (by simp)) kind gives)
    (fun _ mem => mem) (fun _ _ post => ?_) fun _ _ tangent => tangent
  have found := (grows.types.kept _ (unborn _ (by simp)).2 (by simp)).trans
    (declared.find (by simp) (List.mem_singleton_self p))
  simpa [Served] using post.1.standing found

/-- One binding after another. -/
theorem Binding.cons {xs : List Name} (sound : Sound bound ρ s)
    (first : Binding bound κ [x] ρ s t holds) (unborn : Unborn bound ρ (x :: xs))
    (distinct : (x :: xs).Nodup)
    (rest : ∀ ρ', Grows bound κ [x] ρ s ρ' t → Sound bound ρ' t → Unborn bound ρ' xs →
      Binding bound κ xs ρ' t u holds') :
    Binding bound κ (x :: xs) ρ s u fun ρ'' => holds ρ'' ∧ holds' ρ'' := by
  obtain ⟨absent, -⟩ := List.nodup_cons.mp distinct
  refine first.both (fun ρ' grows sound' => rest ρ' grows sound' ?_) (by simpa using absent)
  refine Unborn.grow (fun y mem => unborn y (List.mem_cons_of_mem x mem)) sound grows fun y mem => ?_
  rw [List.mem_singleton]
  rintro rfl
  exact absent mem

/-- What a loop parameter and its first value become. -/
def Enters (ρ : Roles) (m : Param × Operand) (part : List (Param × Operand)) : Prop :=
  ρ.Holds m.1.name m.1.ty.kind ∧ part.map (·.1.name) = ρ.echo m.1.name ∧
    ∀ ks xs ys, ρ.Bundles ks xs ys →
      ρ.Bundles (m.1.ty.kind :: ks) (m.2 :: xs) (part.map (·.2) ++ ys)

theorem mergeParam_binding (sound : Sound bound ρ s) {m : Param × Operand} {part : List (Param × Operand)}
    (unborn : Unborn bound ρ [m.1.name]) (kind : κ m.1.name = m.1.ty.kind)
    (same : m.2.kind κ = m.1.ty.kind) (served : Served bound κ ρ s m.2.names)
    (gives : Gives (do
      build (Build.declare m.1.name m.1.ty)
      if m.1.ty.isAcc then
        let tan ← Forward.newTangent m.1
        return [(tan, m.2)]
      else
        let init ← Forward.tangent m.2
        let tan ← Forward.newTangent m.1
        return [m, (tan, init)]) s part u) :
    Binding bound κ [m.1.name] ρ s u fun ρ'' => ρ''.Enters m part := by
  obtain ⟨⟨⟩, v, declared, gives⟩ := (gives_bind ..).mp gives
  cases acc : m.1.ty.isAcc with
  | true =>
    simp only [acc, if_true, gives_bind, gives_pure] at gives
    obtain ⟨tan, _, made, rfl, rfl⟩ := gives
    refine (declared_binding sound unborn kind declared
      (fun sound' _ => (padded_refl sound' trivial fun _ _ => trivial :
        Padded bound κ [] ρ v v (fun _ => True) fun _ => True)) made).mono
      fun ρ'' under tangent => ?_
    obtain ⟨-, tangent⟩ := tangent
    obtain ⟨ts, isHandle⟩ := Ty.kind_of_acc acc
    refine ⟨tangent.holds, by simp [tangent.names, doubled, acc], fun ks xs ys rest => ?_⟩
    cases operand : m.2 with
    | const c => simp [operand, Operand.kind, isHandle] at same
    | var h =>
      rw [operand] at same served
      rw [isHandle] at same ⊢
      exact .handle (under _ _ ((served h (by simp [Operand.names])).handle same).1) rest
  | false =>
    simp only [acc, Bool.false_eq_true, if_false, gives_bind, gives_pure] at gives
    obtain ⟨init, w, asked, tan, _, made, rfl, rfl⟩ := gives
    obtain ⟨t, isLeaves⟩ := Ty.kind_of_value acc
    refine (declared_binding sound unborn kind declared
      (fun sound' grow => tangent_echoed sound' (fun x mem => grow x (served x mem))
        (same.trans isLeaves) asked) made).mono fun ρ'' _ both => ?_
    refine ⟨both.2.holds, by simp [both.2.names, doubled, acc], fun ks xs ys rest => ?_⟩
    rw [isLeaves]
    exact .leaf both.1 rest

theorem bundleMerge_binding (sound : Sound bound ρ s) {merge merge' : List (Param × Operand)}
    (unborn : Unborn bound ρ (merge.map (·.1.name))) (distinct : (merge.map (·.1.name)).Nodup)
    (kinds : ∀ m ∈ merge, κ m.1.name = m.1.ty.kind ∧ m.2.kind κ = m.1.ty.kind)
    (served : Served bound κ ρ s (operandNames (merge.map (·.2))))
    (gives : Gives (Forward.bundleMerge merge) s merge' u) :
    Binding bound κ (merge.map (·.1.name)) ρ s u fun ρ'' =>
      ρ''.Binds (merge.map (·.1.name)) (merge.map (·.1.ty.kind)) ∧
        merge'.map (·.1.name) = (merge.map (·.1.name)).flatMap ρ''.echo ∧
        ρ''.Bundles (merge.map (·.1.ty.kind)) (merge.map (·.2)) (merge'.map (·.2)) := by
  induction merge generalizing ρ s merge' with
  | nil =>
    obtain ⟨rfl, rfl⟩ := gives_bundled_nil_iff.mp gives
    exact padded_refl sound (by simp [Served]) fun _ _ => ⟨.nil, rfl, .nil⟩
  | cons m merge ih =>
    obtain ⟨part, v, parts, first, rest, rfl⟩ := gives_bundled_cons_iff.mp gives
    obtain ⟨⟨kind, same⟩, kinds⟩ := List.forall_mem_cons.mp kinds
    obtain ⟨inFirst, inRest⟩ := List.forall_mem_append.mp served
    have here : Unborn bound ρ [m.1.name] := fun x mem => unborn x (by simp_all)
    refine ((mergeParam_binding sound here kind same inFirst first).cons sound unborn distinct
      fun ρ₁ grows sound₁ unborn₁ => ih sound₁ unborn₁ (List.nodup_cons.mp distinct).2 kinds
        (Served.grow inRest grows (Served.apart inRest here)) rest).mono ?_
    rintro ρ'' - ⟨⟨holds, named, bundles⟩, binds, names, others⟩
    refine ⟨.cons holds binds, by simp [named, names], ?_⟩
    rw [List.map_append]
    exact bundles _ _ _ others

theorem Tangent.plain {p q : Param} (tangent : ρ.Tangent p q) {t : ScalarType}
    (kind : p.ty.kind = .leaves t) : ρ p.name = some (.plain t q.name) := by
  have holds := tangent.holds
  rw [kind] at holds
  cases holds with
  | plain role => rw [← tangent.tan, tan_plain role, role]

theorem row_binding (sound : Sound bound ρ s) {p : Param} {a : Name} {part : List (Param × Name)}
    (unborn : Unborn bound ρ [p.name]) {t : ScalarType} (kind : κ p.name = .leaves t)
    (typed : p.ty.kind = .leaves t) (same : κ a = .leaves t) (stands : Stands bound κ ρ s a)
    (gives : Gives (do
      build (Build.declare p.name p.ty)
      let source ← companion a
      let tan ← Forward.newTangent p
      return [(p, a), (tan, source)]) s part u) :
    Binding bound κ [p.name] ρ s u fun ρ'' =>
      ∀ rows rows', ρ''.Rows rows rows' → ρ''.Rows ((p, a) :: rows) (part ++ rows') := by
  simp only [gives_bind, gives_pure] at gives
  obtain ⟨⟨⟩, v, declared, source, w, asked, tan, _, made, rfl, rfl⟩ := gives
  exact (declared_binding sound unborn (kind.trans typed.symm) declared
    (fun sound' grow => companion_echoed sound' (grow a stands) same asked) made).mono
    fun ρ'' _ both rows rows' rest => .cons (both.2.plain typed) rfl both.1 rest

theorem bundleRows_binding (sound : Sound bound ρ s) {rows rows' : List (Param × Name)}
    (unborn : Unborn bound ρ (rows.map (·.1.name))) (distinct : (rows.map (·.1.name)).Nodup)
    (kinds : ∀ r ∈ rows, ∃ t, κ r.1.name = .leaves t ∧ r.1.ty.kind = .leaves t ∧ κ r.2 = .leaves t)
    (served : Served bound κ ρ s (rows.map (·.2)))
    (gives : Gives (Forward.bundleRows rows) s rows' u) :
    Binding bound κ (rows.map (·.1.name)) ρ s u fun ρ'' => ρ''.Rows rows rows' := by
  induction rows generalizing ρ s rows' with
  | nil =>
    obtain ⟨rfl, rfl⟩ := gives_bundled_nil_iff.mp gives
    exact padded_refl sound (by simp [Served]) fun _ _ => .nil
  | cons r rows ih =>
    obtain ⟨p, a⟩ := r
    obtain ⟨part, v, parts, first, rest, rfl⟩ := gives_bundled_cons_iff.mp gives
    obtain ⟨⟨t, kind, typed, same⟩, kinds⟩ := List.forall_mem_cons.mp kinds
    obtain ⟨stands, inRest⟩ := List.forall_mem_cons.mp served
    have here : Unborn bound ρ [p.name] := fun x mem => unborn x (by simp_all)
    exact ((row_binding sound here kind typed same stands first).cons sound unborn distinct
      fun ρ₁ grows sound₁ unborn₁ => ih sound₁ unborn₁ (List.nodup_cons.mp distinct).2 kinds
        (Served.grow inRest grows (Served.apart inRest here)) rest).mono
      fun ρ'' _ both => both.1 _ _ both.2

/-- The pattern of a region. -/
theorem regionPattern_echoed (sound : Sound bound ρ s) (inputs : List AccInput) {ps wide : List Param}
    (unborn : Unborn bound ρ (ps.map (·.name))) (distinct : (ps.map (·.name)).Nodup)
    (kinds : Kinded κ ps) (gives : Gives (Forward.regionPattern inputs ps) s wide u) :
    Padded bound κ (ps.map (·.name)) ρ s u (fun ρ' => Pattern bound κ ρ' u ps wide)
      fun ρ'' => ρ''.Binds (ps.map (·.name)) (ps.map (·.ty.kind)) ∧
        wide.map (·.name) = ρ''.regionNames inputs (ps.map (·.name)) := by
  induction inputs generalizing ρ s ps wide with
  | nil =>
    exact (bundleBinders_echoed sound unborn distinct kinds gives).mono (fun _ mem => mem)
      (fun _ _ post => post.1) fun _ _ known => known
  | cons i inputs ih =>
    have widens := (declared_of_gives (fun _ => True) (Forward.declares_regionPattern (i :: inputs)
      fun _ _ => trivial) sound.reserved gives).2
    simp only [Forward.regionPattern, gives_bind, gives_pure] at gives
    obtain ⟨tans, v, made, others, w, rest, rfl, rfl⟩ := gives
    generalize len : i.arrays.length = n at *
    have split : ps.take n ++ ps.drop n = ps := List.take_append_drop n ps
    have names : (ps.take n).map (·.name) ++ (ps.drop n).map (·.name) = ps.map (·.name) := by
      rw [← List.map_append, split]
    rw [← names] at unborn distinct
    obtain ⟨inFirst, inRest, apart⟩ := List.nodup_append.mp distinct
    have here : Unborn bound ρ ((ps.take n).map (·.name)) := fun x mem =>
      unborn x (List.mem_append_left _ mem)
    have there : Unborn bound ρ ((ps.drop n).map (·.name)) := fun x mem =>
      unborn x (List.mem_append_right _ mem)
    have first := newTangents_bound sound here inFirst (fun p mem => kinds p (List.mem_of_mem_take mem)) made
    have second : ∀ ρ₁, Grows bound κ ((ps.take n).map (·.name)) ρ s ρ₁ v → Sound bound ρ₁ v →
        (∀ p ∈ ps.take n, Takes bound κ ρ₁ s.builder.types v p) ∧ ρ₁.Suited (ps.take n ++ tans) →
        Padded bound κ ((ps.drop n).map (·.name)) ρ₁ v w
          (fun ρ₂ => Pattern bound κ ρ₂ w ps (ps.take n ++ tans ++ others)) fun ρ'' =>
          ρ''.Binds ((ps.drop n).map (·.name)) ((ps.drop n).map (·.ty.kind)) ∧
            others.map (·.name) = ρ''.regionNames inputs ((ps.drop n).map (·.name)) := by
      rintro ρ₁ grows sound₁ ⟨takes, suited⟩
      refine (ih sound₁ (there.grow sound grows fun x mem other => apart x other x mem rfl) inRest
        (fun p mem => kinds p (List.mem_of_mem_drop mem)) rest).mono (fun _ mem => mem)
        (fun ρ₂ grows' pattern => ⟨fun p mem => ?_, (suited.mono grows'.under).append pattern.suited,
          widens⟩) fun _ _ known => known
      rw [← split] at mem
      rcases List.mem_append.mp mem with mem | mem
      · exact (takes p mem).awaits.grow grows'
      · exact pattern.awaits p mem
    refine (Padded.bind first second).mono (fun x mem => by rwa [names] at mem) (fun _ _ post => post) ?_
    rintro ρ'' - ⟨tangents, binds, named⟩
    refine ⟨?_, ?_⟩
    · have both := List.rel_append (binds_of_tangents tangents) binds
      simpa only [← List.map_append, split] using both
    · simp only [List.map_append, tan_of_tangents tangents, named, regionNames, List.map_take,
        List.map_drop, len]

/-- A zero of the type of the operand. -/
theorem zeroOperand_echoed (sound : Sound bound ρ s) {x y : Operand}
    (gives : Gives (zeroOperand x) s y u) :
    Padded bound κ [] ρ s u (fun _ => True) fun _ => True := by
  have nothing : Padded bound κ [] ρ s s (fun _ => True) fun _ => True :=
    padded_refl sound trivial fun _ _ => trivial
  cases x with
  | const c =>
    obtain ⟨-, rfl⟩ := (gives_pure ..).mp gives
    exact nothing
  | var x =>
    obtain ⟨ty, _, asked, gives⟩ := (gives_bind ..).mp gives
    obtain ⟨found, rfl⟩ := (gives_typeOf ..).mp asked
    cases ty with
    | scalar t =>
      obtain ⟨-, rfl⟩ := (gives_pure ..).mp gives
      exact nothing
    | acc token shape elems unique => simp [zeroOf, found, zeroExp] at gives
    | array elem shape unique =>
      simp only [zeroOf, gives_bind, gives_typeOf, found, Option.some.injEq, gives_pure] at gives
      obtain ⟨z, _, ⟨_, _, ⟨rfl, rfl⟩, drawn⟩, -, rfl⟩ := gives
      simp only [zeroExp, gives_build] at drawn
      obtain ⟨rfl, rfl⟩ := drawn
      have frame : s.builder.Frame (· ∈ []) bound _ := (Build.declares_letExp (.array elem shape unique)
        (.basic (.replicate shape (.const (Scalar.zero elem)))) s.builder sound.reserved).1
      have fresh := sound.past ⟨s.builder.supply.next⟩ (Nat.le_refl _)
      refine ⟨ρ.give ⟨s.builder.supply.next⟩ .scratch, [⟨[⟨⟨s.builder.supply.next⟩,
        .array elem shape unique⟩], .none, .basic (.replicate shape (.const (Scalar.zero elem)))⟩],
        .draw sound rfl frame fun y q cast => cast.mono (under_give fresh) rfl,
        sound.draw (by simp) rfl fun y none => sound.apart y none, rfl, trivial, fun ρ'' under => ?_⟩
      simpa using .scratch (under _ _ (give_self ρ ⟨s.builder.supply.next⟩ .scratch))

/-- Zeros for neutral elements, which nothing reads. -/
theorem zeroOperands_echoed (sound : Sound bound ρ s) {xs ys : List Operand}
    (gives : Gives (xs.mapM zeroOperand) s ys u) :
    Padded bound κ [] ρ s u (fun _ => True) fun _ => True := by
  induction xs generalizing ρ s ys with
  | nil =>
    obtain ⟨rfl, rfl⟩ := (gives_pure ..).mp gives
    exact padded_refl sound trivial fun _ _ => trivial
  | cons x xs ih =>
    simp only [List.mapM_cons, gives_bind, gives_pure] at gives
    obtain ⟨y, v, first, ys, _, rest, rfl, rfl⟩ := gives
    exact ((zeroOperand_echoed sound first).bind fun ρ₁ _ sound₁ _ => ih sound₁ rest).mono (by simp)
      (fun _ _ post => post) fun _ _ _ => trivial

end Roles

end Cotangent
