import Cotangent.Proofs.Derivative.ForwardDeclarations
import Cotangent.Proofs.Derivative.ForwardScope
import Cotangent.Proofs.Regions.Stores
import Cotangent.Proofs.Evaluation.Readouts
/-!
How forward differentiation gives roles to names. Names of the source get theirs where they are bound,
fresh ones where they are drawn, and no role is ever taken back; so what was emitted under fewer roles
echoes its source under more.
-/
namespace Cotangent

open Outline Diff

/-- A name of the source in this role may have the type. -/
def Role.Suits (ty : Ty) : Role → Prop
  | .plain _ _ => ty.isAcc = false
  | .still t => ty = .scalar t
  | .handle _ => ty.isAcc = true
  | .tangent _ => True
  | .zero _ => True
  | .scratch => True

namespace Roles

/-- Every role that was given stays. -/
def Under (ρ ρ' : Roles) : Prop := ∀ x r, ρ x = some r → ρ' x = some r

/-- One more role. -/
def give (ρ : Roles) (x : Name) (r : Role) : Roles := fun y => if y = x then some r else ρ y

/-- The roles suit the types. -/
def Suited (ρ : Roles) (ps : List Param) : Prop :=
  ∀ p ∈ ps, ∃ r, ρ p.name = some r ∧ r.Suits p.ty

/-- The name has the role, and its companion is what the role says. -/
inductive Cast (κ : Name → Kind) (ρ : Roles) (companions : NameTable Name) (x : Name) : Role → Prop
  | plain {t : ScalarType} {c : Name} (kind : κ x = .leaves t) (role : ρ x = some (.plain t c))
      (here : companions.find? x = some c) : Cast κ ρ companions x (.plain t c)
  | still {t : ScalarType} (kind : κ x = .leaves t) (role : ρ x = some (.still t))
      (zero : ∀ z, companions.find? x = some z → ρ z = some (.zero t)) :
      Cast κ ρ companions x (.still t)
  | handle {ts : List ScalarType} (kind : κ x = .handle ts) (role : ρ x = some (.handle ts))
      (here : companions.find? x = some x) : Cast κ ρ companions x (.handle ts)

/-- A name of the source that is in scope. -/
structure Stands (bound : Nat) (κ : Name → Kind) (ρ : Roles) (s : DiffState) (x : Name) : Prop where
  small : x.id < bound
  cast : ∃ r ty, Cast κ ρ s.companions x r ∧ s.builder.types.find? x = some ty ∧ r.Suits ty

/-- The names stand in scope. -/
abbrev Served (bound : Nat) (κ : Name → Kind) (ρ : Roles) (s : DiffState) (xs : List Name) : Prop :=
  ∀ x ∈ xs, Stands bound κ ρ s x

/-- What holds of the roles all the time. Names of the source lie below the bound, and no name has a role
    or a companion before it was met. -/
structure Sound (bound : Nat) (ρ : Roles) (s : DiffState) : Prop where
  coherent : ρ.Coherent
  reserved : bound ≤ s.builder.supply.next
  past : ∀ x, s.builder.supply.next ≤ x.id → ρ x = none
  apart : ∀ x, ρ x = none → s.companions.find? x = none

/-- Code that binds the names `on` was transformed on the way. -/
structure Grows (bound : Nat) (κ : Name → Kind) (on : List Name) (ρ : Roles) (s : DiffState)
    (ρ' : Roles) (t : DiffState) : Prop where
  under : ρ.Under ρ'
  next_le : s.builder.supply.next ≤ t.builder.supply.next
  new : ∀ x, ρ x = none → x ∉ on → x.id < s.builder.supply.next → ρ' x = none
  types : s.builder.Frame (· ∈ on) bound t.builder
  casts : ∀ x r, Cast κ ρ s.companions x r → Cast κ ρ' t.companions x r

/-- Roles and statements were added, so that under all further roles the statements are an echo. -/
def Echoed (bound : Nat) (κ : Name → Kind) (on : List Name) (ρ : Roles) (s t : DiffState)
    (post : Roles → Prop) (echo : Roles → List Stm → Prop) : Prop :=
  ∃ ρ' new, Grows bound κ on ρ s ρ' t ∧ Sound bound ρ' t ∧ t.builder.stms = s.builder.stms ++ new ∧
    post ρ' ∧ ∀ ρ'', ρ'.Under ρ'' → echo ρ'' new

/-- Only pads were added, and under all further roles something holds. -/
def Padded (bound : Nat) (κ : Name → Kind) (on : List Name) (ρ : Roles) (s t : DiffState)
    (post holds : Roles → Prop) : Prop :=
  Echoed bound κ on ρ s t post fun ρ'' new => (∀ pad ∈ new, ρ''.Pads pad) ∧ holds ρ''

/-- Names of the source that are still to be bound. -/
def Unborn (bound : Nat) (ρ : Roles) (on : List Name) : Prop := ∀ x ∈ on, ρ x = none ∧ x.id < bound

section

variable {bound : Nat} {κ : Name → Kind} {on on' : List Name} {ρ ρ' ρ'' : Roles} {s t u : DiffState}
  {post post' holds holds' : Roles → Prop} {echo echo' : Roles → List Stm → Prop} {x : Name} {r : Role}

theorem Under.refl (ρ : Roles) : ρ.Under ρ := fun _ _ role => role

theorem Under.trans (first : ρ.Under ρ') (second : ρ'.Under ρ'') : ρ.Under ρ'' :=
  fun x r role => second x r (first x r role)

theorem under_give (unborn : ρ x = none) : ρ.Under (ρ.give x r) := by
  intro y q role
  have apart : y ≠ x := by
    rintro rfl
    simp [unborn] at role
  simpa [give, apart] using role

@[simp] theorem give_self (ρ : Roles) (x : Name) (r : Role) : ρ.give x r x = some r := by
  simp [give]

theorem give_of_ne (ρ : Roles) {x y : Name} (r : Role) (apart : y ≠ x) : ρ.give x r y = ρ y := by
  simp [give, apart]

theorem Cast.role (cast : Cast κ ρ s.companions x r) : ρ x = some r := by
  cases cast <;> assumption

/-- More roles, and the same companion. -/
theorem Cast.mono {companions companions' : NameTable Name} (cast : Cast κ ρ companions x r)
    (under : ρ.Under ρ') (same : companions'.find? x = companions.find? x) :
    Cast κ ρ' companions' x r := by
  cases cast with
  | plain kind role here => exact .plain kind (under _ _ role) (same.trans here)
  | still kind role zero =>
    exact .still kind (under _ _ role) fun z found => under _ _ (zero z (same.symm.trans found))
  | handle kind role here => exact .handle kind (under _ _ role) (same.trans here)

theorem Grows.refl (past : bound ≤ s.builder.supply.next) : Grows bound κ on ρ s ρ s :=
  ⟨.refl ρ, Nat.le_refl _, fun _ none _ _ => none, .refl past, fun _ _ cast => cast⟩

theorem Grows.trans (first : Grows bound κ on ρ s ρ' t) (second : Grows bound κ on' ρ' t ρ'' u) :
    Grows bound κ (on ++ on') ρ s ρ'' u where
  under := first.under.trans second.under
  next_le := Nat.le_trans first.next_le second.next_le
  new x none other drawn := by
    rw [List.mem_append, not_or] at other
    exact second.new x (first.new x none other.1 drawn) other.2
      (Nat.lt_of_lt_of_le drawn first.next_le)
  types := (first.types.mono fun _ mem => List.mem_append_left _ mem).trans
    (second.types.mono fun _ mem => List.mem_append_right _ mem)
  casts x r cast := second.casts x r (first.casts x r cast)

theorem Grows.mono (grows : Grows bound κ on ρ s ρ' t) (sub : ∀ x ∈ on, x ∈ on') :
    Grows bound κ on' ρ s ρ' t where
  under := grows.under
  next_le := grows.next_le
  new x none other := grows.new x none fun mem => other (sub x mem)
  types := grows.types.mono sub
  casts := grows.casts

theorem Sound.same (sound : Sound bound ρ s) (supply : t.builder.supply = s.builder.supply)
    (companions : t.companions = s.companions) : Sound bound ρ t where
  coherent := sound.coherent
  reserved := supply ▸ sound.reserved
  past := supply ▸ sound.past
  apart := companions ▸ sound.apart

theorem Stands.grow (stands : Stands bound κ ρ s x) (grows : Grows bound κ on ρ s ρ' t)
    (other : x ∉ on) : Stands bound κ ρ' t x := by
  obtain ⟨small, r, ty, cast, found, suits⟩ := stands
  exact ⟨small, r, ty, grows.casts x r cast, (grows.types.kept x small other).trans found, suits⟩

theorem Served.grow {xs : List Name} (served : Served bound κ ρ s xs)
    (grows : Grows bound κ on ρ s ρ' t) (apart : ∀ x ∈ xs, x ∉ on) : Served bound κ ρ' t xs :=
  fun x mem => (served x mem).grow grows (apart x mem)

theorem Stands.born (stands : Stands bound κ ρ s x) : ρ x ≠ none := by
  obtain ⟨-, r, -, cast, -⟩ := stands
  simp [cast.role]

theorem Unborn.grow (unborn : Unborn bound ρ on') (sound : Sound bound ρ s)
    (grows : Grows bound κ on ρ s ρ' t) (apart : ∀ x ∈ on', x ∉ on) : Unborn bound ρ' on' :=
  fun x mem => ⟨grows.new x (unborn x mem).1 (apart x mem)
    (Nat.lt_of_lt_of_le (unborn x mem).2 sound.reserved), (unborn x mem).2⟩

/-- What stands in scope is not bound again. -/
theorem Unborn.not_mem (unborn : Unborn bound ρ on) (stands : Stands bound κ ρ s x) : x ∉ on :=
  fun mem => stands.born (unborn x mem).1

theorem Served.apart {xs : List Name} (served : Served bound κ ρ s xs) (unborn : Unborn bound ρ on) :
    ∀ x ∈ xs, x ∉ on :=
  fun x mem => unborn.not_mem (served x mem)

theorem Echoed.bind (first : Echoed bound κ on ρ s t post echo)
    (second : ∀ ρ', Grows bound κ on ρ s ρ' t → Sound bound ρ' t → post ρ' →
      Echoed bound κ on' ρ' t u post' echo') :
    Echoed bound κ (on ++ on') ρ s u post' fun ρ'' new =>
      ∃ here there, new = here ++ there ∧ echo ρ'' here ∧ echo' ρ'' there := by
  obtain ⟨ρ₁, new, grows, sound, emitted, holds, echoes⟩ := first
  obtain ⟨ρ₂, more, grows', sound', emitted', holds', echoes'⟩ := second ρ₁ grows sound holds
  refine ⟨ρ₂, new ++ more, grows.trans grows', sound', ?_, holds', fun ρ'' under => ?_⟩
  · rw [emitted', emitted, List.append_assoc]
  · exact ⟨new, more, rfl, echoes ρ'' (grows'.under.trans under), echoes' ρ'' under⟩

theorem Echoed.mono (echoed : Echoed bound κ on ρ s t post echo) (sub : ∀ x ∈ on, x ∈ on')
    (weaker : ∀ ρ', Grows bound κ on ρ s ρ' t → post ρ' → post' ρ')
    (weaker' : ∀ ρ'' new, ρ.Under ρ'' → echo ρ'' new → echo' ρ'' new) :
    Echoed bound κ on' ρ s t post' echo' := by
  obtain ⟨ρ', new, grows, sound, emitted, holds, echoes⟩ := echoed
  exact ⟨ρ', new, grows.mono sub, sound, emitted, weaker ρ' grows holds, fun ρ'' under =>
    weaker' ρ'' new (grows.under.trans under) (echoes ρ'' under)⟩

/-- Nothing is done. -/
theorem echoed_refl (sound : Sound bound ρ s) (holds : post ρ)
    (echoes : ∀ ρ'', ρ.Under ρ'' → echo ρ'' []) : Echoed bound κ on ρ s s post echo :=
  ⟨ρ, [], .refl sound.reserved, sound, (List.append_nil _).symm, holds, echoes⟩

theorem Padded.bind (first : Padded bound κ on ρ s t post holds)
    (second : ∀ ρ', Grows bound κ on ρ s ρ' t → Sound bound ρ' t → post ρ' →
      Padded bound κ on' ρ' t u post' holds') :
    Padded bound κ (on ++ on') ρ s u post' fun ρ'' => holds ρ'' ∧ holds' ρ'' := by
  refine (Echoed.bind first second).mono (fun _ mem => mem) (fun _ _ post => post) ?_
  rintro ρ'' _ - ⟨here, there, rfl, ⟨pads, known⟩, pads', known'⟩
  exact ⟨List.forall_mem_append.mpr ⟨pads, pads'⟩, known, known'⟩

theorem Padded.mono (padded : Padded bound κ on ρ s t post holds) (sub : ∀ x ∈ on, x ∈ on')
    (weaker : ∀ ρ', Grows bound κ on ρ s ρ' t → post ρ' → post' ρ')
    (weaker' : ∀ ρ'', ρ.Under ρ'' → holds ρ'' → holds' ρ'') : Padded bound κ on' ρ s t post' holds' :=
  Echoed.mono padded sub weaker fun ρ'' _ under echo => ⟨echo.1, weaker' ρ'' under echo.2⟩

theorem padded_refl (sound : Sound bound ρ s) (known : post ρ) (holding : ∀ ρ'', ρ.Under ρ'' → holds ρ'') :
    Padded bound κ on ρ s s post holds :=
  echoed_refl sound known fun ρ'' under => ⟨by simp, holding ρ'' under⟩

/-! Names that stand in scope. -/

theorem Stands.knows (stands : Stands bound κ ρ s x) (under : ρ.Under ρ') : ρ'.Knows x := by
  obtain ⟨-, r, ty, cast, -, -⟩ := stands
  cases cast with
  | plain kind role here => exact .leaf (.plain (under _ _ role))
  | still kind role zero => exact .leaf (.still (under _ _ role))
  | handle kind role here => exact .handle (under _ _ role)

theorem Stands.leaf (stands : Stands bound κ ρ s x) {t : ScalarType} (kind : κ x = .leaves t)
    (under : ρ.Under ρ') : ρ'.Leaf t (.var x) := by
  obtain ⟨-, r, ty, cast, -, -⟩ := stands
  cases cast with
  | plain kind' role here =>
    obtain rfl := Kind.leaves.inj (kind.symm.trans kind')
    exact .plain (under _ _ role)
  | still kind' role zero =>
    obtain rfl := Kind.leaves.inj (kind.symm.trans kind')
    exact .still (under _ _ role)
  | handle kind' role here => cases kind.symm.trans kind'

theorem Stands.handle (stands : Stands bound κ ρ s x) {ts : List ScalarType}
    (kind : κ x = .handle ts) : ρ x = some (.handle ts) ∧ s.companions.find? x = some x ∧
      ∃ ty, s.builder.types.find? x = some ty ∧ ty.isAcc = true := by
  obtain ⟨-, r, ty, cast, found, suits⟩ := stands
  cases cast with
  | plain kind' role here => cases kind.symm.trans kind'
  | still kind' role zero => cases kind.symm.trans kind'
  | handle kind' role here =>
    obtain rfl := Kind.handle.inj (kind.symm.trans kind')
    exact ⟨role, here, ty, found, suits⟩

theorem Stands.isAcc (stands : Stands bound κ ρ s x) {t : ScalarType} (kind : κ x = .leaves t) :
    ∃ ty, s.builder.types.find? x = some ty ∧ ty.isAcc = false := by
  obtain ⟨-, r, ty, cast, found, suits⟩ := stands
  cases cast with
  | plain kind' role here => exact ⟨ty, found, suits⟩
  | still kind' role zero =>
    obtain rfl : ty = .scalar _ := suits
    exact ⟨_, found, rfl⟩
  | handle kind' role here => cases kind.symm.trans kind'

/-! Zeros. -/

theorem Coherent.give (coherent : ρ.Coherent) {z : Name} (unborn : ρ z = none)
    (other : ∀ t c, r ≠ .plain t c) : (ρ.give z r).Coherent := by
  intro y t c role
  by_cases same : y = z
  · subst same
    rw [give_self] at role
    exact absurd (Option.some.inj role) (other t c)
  · rw [give_of_ne ρ r same] at role
    exact under_give unborn _ _ (coherent y t c role)

/-- A fresh name gets a role of its own. -/
theorem Sound.draw (sound : Sound bound ρ s) (other : ∀ t c, r ≠ .plain t c)
    (next : t.builder.supply.next = s.builder.supply.next + 1)
    (apart : ∀ y, ρ y = none → t.companions.find? y = none) :
    Sound bound (ρ.give ⟨s.builder.supply.next⟩ r) t where
  coherent := sound.coherent.give (sound.past _ (Nat.le_refl _)) other
  reserved := next ▸ Nat.le_succ_of_le sound.reserved
  past y large := by
    have apart : y ≠ ⟨s.builder.supply.next⟩ := by
      rintro rfl
      simp only [next] at large
      omega
    rw [give_of_ne ρ r apart]
    exact sound.past y (by omega)
  apart y none := by
    have other : y ≠ ⟨s.builder.supply.next⟩ := by
      rintro rfl
      simp at none
    exact apart y (by rwa [give_of_ne ρ r other] at none)

theorem Grows.draw (sound : Sound bound ρ s)
    (next : t.builder.supply.next = s.builder.supply.next + 1)
    (types : s.builder.Frame (· ∈ on) bound t.builder)
    (casts : ∀ x q, Cast κ ρ s.companions x q →
      Cast κ (ρ.give ⟨s.builder.supply.next⟩ r) t.companions x q) :
    Grows bound κ on ρ s (ρ.give ⟨s.builder.supply.next⟩ r) t where
  under := under_give (sound.past _ (Nat.le_refl _))
  next_le := by omega
  new y none _ small := by
    rw [give_of_ne ρ r, none]
    rintro rfl
    exact Nat.lt_irrefl _ small
  types := types
  casts := casts

/-- The tangent of a value is asked for. If it does not change, this may emit a zero for it. -/
theorem companion_echoed (sound : Sound bound ρ s) (stands : Stands bound κ ρ s x) {t : ScalarType}
    (kind : κ x = .leaves t) {c : Name} (gives : Gives (companion x) s c u) :
    Padded bound κ [] ρ s u (fun _ => True) fun ρ'' => ρ''.Pairs t (.var x) (.var c) := by
  simp only [companion, gives_bind, gives_companion?] at gives
  obtain ⟨_, _, ⟨rfl, rfl⟩, gives⟩ := gives
  obtain ⟨small, r, ty, cast, found, suits⟩ := stands
  cases cast with
  | handle kind' role here => cases kind.symm.trans kind'
  | plain kind' role here =>
    obtain rfl := Kind.leaves.inj (kind.symm.trans kind')
    rw [here] at gives
    obtain ⟨rfl, rfl⟩ := (gives_pure ..).mp gives
    exact padded_refl sound trivial fun ρ'' under => .plain (under _ _ role)
  | still kind' role zero =>
    obtain rfl := Kind.leaves.inj (kind.symm.trans kind')
    obtain rfl : ty = .scalar t := suits
    cases known : s.companions.find? x with
    | some z =>
      rw [known] at gives
      obtain ⟨rfl, rfl⟩ := (gives_pure ..).mp gives
      exact padded_refl sound trivial fun ρ'' under =>
        .still (under _ _ role) (under _ _ (zero z known))
    | none =>
      rw [known] at gives
      simp only [zeroOf, gives_bind, gives_typeOf, found, Option.some.injEq] at gives
      obtain ⟨z, _, ⟨_, _, ⟨rfl, rfl⟩, drawn⟩, _, _, placed, rfl, rfl⟩ := gives
      simp only [zeroExp, gives_build] at drawn
      obtain ⟨rfl, rfl⟩ := drawn
      obtain rfl := (gives_setCompanion ..).mp placed
      have fresh := sound.past ⟨s.builder.supply.next⟩ (Nat.le_refl _)
      have frame : s.builder.Frame (· ∈ []) bound _ := (Build.declares_letExp (.scalar t)
        (.basic (.operand (.const (Scalar.zero t)))) s.builder sound.reserved).1
      refine ⟨ρ.give ⟨s.builder.supply.next⟩ (.zero t), [⟨[⟨⟨s.builder.supply.next⟩, .scalar t⟩], .none,
        .basic (.operand (.const (Scalar.zero t)))⟩], ?_, ?_, rfl, trivial, fun ρ'' under => ?_⟩
      · refine .draw sound rfl frame fun y q cast => ?_
        by_cases same : y = x
        · subst same
          obtain rfl : .still t = q := Option.some.inj (role.symm.trans cast.role)
          refine .still kind (under_give fresh _ _ role) fun z found => ?_
          rw [NameTable.find_insert, if_pos rfl] at found
          obtain rfl := Option.some.inj found
          exact give_self ..
        · exact cast.mono (under_give fresh) (by rw [NameTable.find_insert, if_neg same])
      · refine sound.draw (by simp) rfl fun y none => ?_
        have apart : y ≠ x := by
          rintro rfl
          simp [role] at none
        rw [NameTable.find_insert, if_neg apart]
        exact sound.apart y none
      · have isZero := under _ _ (give_self ρ ⟨s.builder.supply.next⟩ (.zero t))
        refine ⟨?_, .still (under _ _ (under_give fresh _ _ role)) isZero⟩
        simpa using .zero isZero

theorem companion_handle (stands : Stands bound κ ρ s x) {ts : List ScalarType}
    (kind : κ x = .handle ts) {c : Name} (gives : Gives (companion x) s c u) : s = u ∧ c = x := by
  obtain ⟨-, here, -⟩ := stands.handle kind
  simp only [companion, gives_bind, gives_companion?] at gives
  obtain ⟨_, _, ⟨rfl, rfl⟩, gives⟩ := gives
  rw [here] at gives
  obtain ⟨rfl, rfl⟩ := (gives_pure ..).mp gives
  exact ⟨rfl, rfl⟩

theorem tangent_echoed (sound : Sound bound ρ s) {x y : Operand} (served : Served bound κ ρ s x.names)
    {t : ScalarType} (kind : x.kind κ = .leaves t) (gives : Gives (Forward.tangent x) s y u) :
    Padded bound κ [] ρ s u (fun _ => True) fun ρ'' => ρ''.Pairs t x y := by
  cases x with
  | const v =>
    obtain ⟨rfl, rfl⟩ := (gives_pure ..).mp gives
    exact padded_refl sound trivial fun ρ'' _ => .const (Kind.leaves.inj kind)
  | var x =>
    simp only [Forward.tangent, gives_bind, gives_pure] at gives
    obtain ⟨c, _, asked, rfl, rfl⟩ := gives
    exact companion_echoed sound (served x (by simp [Operand.names])) kind asked

theorem tangents_echoed (sound : Sound bound ρ s) {xs ys : List Operand}
    (served : Served bound κ ρ s (operandNames xs)) {ts : List ScalarType}
    (kinds : xs.map (Operand.kind κ) = ts.map .leaves) (gives : Gives (Forward.tangents xs) s ys u) :
    Padded bound κ [] ρ s u (fun _ => True) fun ρ'' => ρ''.Tangents ts xs ys := by
  induction xs generalizing ρ s ts ys with
  | nil =>
    obtain rfl : ts = [] := by simpa using kinds.symm
    obtain ⟨rfl, rfl⟩ := (gives_pure ..).mp gives
    exact padded_refl sound trivial fun ρ'' _ => .nil
  | cons x xs ih =>
    obtain ⟨t, ts, rfl⟩ : ∃ t us, ts = t :: us := by
      cases ts with
      | nil => simp at kinds
      | cons t ts => exact ⟨t, ts, rfl⟩
    simp only [List.map_cons, List.cons.injEq] at kinds
    simp only [Forward.tangents, List.mapM_cons, gives_bind, gives_pure] at gives
    obtain ⟨y, v, first, ys, _, rest, rfl, rfl⟩ := gives
    obtain ⟨inFirst, inRest⟩ := List.forall_mem_append.mp served
    exact ((tangent_echoed sound inFirst kinds.1 first).bind fun ρ' grows sound' _ =>
      ih sound' (Served.grow inRest grows (by simp)) kinds.2 rest).mono (by simp) (fun _ _ _ => trivial)
      fun ρ'' _ both => .cons both.1 both.2

/-- The arrays of an input. -/
theorem companions_echoed (sound : Sound bound ρ s) {xs cs : List Name}
    (served : Served bound κ ρ s xs) (kinds : ∀ x ∈ xs, ∃ t, κ x = .leaves t)
    (gives : Gives (xs.mapM companion) s cs u) :
    Padded bound κ [] ρ s u (fun _ => True) fun ρ'' =>
      ρ''.Tangents (xs.filterMap fun x => (κ x).leaf?) (xs.map .var) (cs.map .var) := by
  have asked : Gives (Forward.tangents (xs.map .var)) s (cs.map .var) u := by
    clear sound served kinds
    induction xs generalizing s cs with
    | nil =>
      obtain ⟨rfl, rfl⟩ := (gives_pure ..).mp gives
      exact .pure [] s
    | cons x xs ih =>
      simp only [List.mapM_cons, gives_bind, gives_pure] at gives
      obtain ⟨c, v, first, cs, _, rest, rfl, rfl⟩ := gives
      simp only [Forward.tangents, List.map_cons, List.mapM_cons, Forward.tangent, gives_bind,
        gives_pure]
      exact ⟨_, v, ⟨c, v, first, rfl, rfl⟩, _, _, ih rest, rfl, rfl⟩
  have names : operandNames (xs.map .var) = xs := by
    simp [operandNames, Operand.names, List.flatMap_map]
  refine tangents_echoed sound (names.symm ▸ served) ?_ asked
  clear gives asked served names
  induction xs with
  | nil => rfl
  | cons x xs ih =>
    obtain ⟨⟨t, kind⟩, rest⟩ := List.forall_mem_cons.mp kinds
    simpa [Operand.kind, kind, Kind.leaf?] using ih rest

theorem gives_bundled_nil_iff {α β : Type} {f : α → Diff (List β)} {ys : List β} :
    Gives (Forward.bundled f []) s ys u ↔ [] = ys ∧ s = u := by
  simp [Forward.bundled]

theorem gives_bundled_cons_iff {α β : Type} {f : α → Diff (List β)} {x : α} {xs : List α} {ys : List β} :
    Gives (Forward.bundled f (x :: xs)) s ys u ↔ ∃ part v parts, Gives (f x) s part v ∧
      Gives (Forward.bundled f xs) v parts u ∧ ys = part ++ parts := by
  simp only [Forward.bundled, List.mapM_cons, gives_bind, gives_pure]
  constructor
  · rintro ⟨_, _, ⟨part, v, first, parts, _, rest, rfl, rfl⟩, rfl, rfl⟩
    exact ⟨part, v, parts.flatten, first, ⟨parts, _, rest, rfl, rfl⟩, List.flatten_cons⟩
  · rintro ⟨part, v, _, first, ⟨parts, _, rest, rfl, rfl⟩, rfl⟩
    exact ⟨part :: parts, _, ⟨part, v, first, parts, _, rest, rfl, rfl⟩, List.flatten_cons, rfl⟩

theorem bundleOperand_echoed (sound : Sound bound ρ s) {x : Operand} {part : List Operand}
    (served : Served bound κ ρ s x.names)
    (gives : Gives (do if ← Forward.isAccOperand x then return [x] else return [x, ← Forward.tangent x])
      s part u) :
    Padded bound κ [] ρ s u (fun _ => True) fun ρ'' =>
      ∀ ks xs ys, ρ''.Bundles ks xs ys → ρ''.Bundles (x.kind κ :: ks) (x :: xs) (part ++ ys) := by
  obtain ⟨acc, v, test, gives⟩ := (gives_bind ..).mp gives
  have value {t : ScalarType} (kind : x.kind κ = .leaves t) (same : acc = false ∧ s = v) :
      Padded bound κ [] ρ s u (fun _ => True) fun ρ'' =>
        ∀ ks xs ys, ρ''.Bundles ks xs ys → ρ''.Bundles (x.kind κ :: ks) (x :: xs) (part ++ ys) := by
    obtain ⟨rfl, rfl⟩ := same
    simp only [Bool.false_eq_true, if_false, gives_bind, gives_pure] at gives
    obtain ⟨y, _, asked, rfl, rfl⟩ := gives
    exact (tangent_echoed sound served kind asked).mono (by simp) (fun _ _ _ => trivial)
      fun ρ'' _ pair ks xs ys rest => kind ▸ .leaf pair rest
  cases x with
  | const c =>
    obtain ⟨rfl, rfl⟩ := (gives_pure ..).mp test
    exact value rfl ⟨rfl, rfl⟩
  | var x =>
    have stands := served x (by simp [Operand.names])
    simp only [Forward.isAccOperand, Forward.isAccName, gives_bind, gives_typeOf, gives_pure] at test
    obtain ⟨ty, _, ⟨found, rfl⟩, same, rfl⟩ := test
    cases kind : κ x with
    | leaves t =>
      obtain ⟨ty', found', isAcc⟩ := stands.isAcc kind
      obtain rfl := Option.some.inj (found.symm.trans found')
      exact value kind ⟨same.symm.trans isAcc, rfl⟩
    | handle ts =>
      obtain ⟨role, -, ty', found', isAcc⟩ := stands.handle kind
      obtain rfl := Option.some.inj (found.symm.trans found')
      rw [← same, isAcc, if_pos rfl] at gives
      obtain ⟨rfl, rfl⟩ := (gives_pure ..).mp gives
      refine padded_refl sound trivial fun ρ'' under ks xs ys rest => ?_
      rw [show (Operand.var x).kind κ = .handle ts from kind]
      exact .handle (under _ _ role) rest

/-- Results, each with its tangent, an accumulator alone. -/
theorem bundleOperands_echoed (sound : Sound bound ρ s) {xs ys : List Operand} {ks : List Kind}
    (served : Served bound κ ρ s (operandNames xs)) (kinds : xs.map (Operand.kind κ) = ks)
    (gives : Gives (Forward.bundleOperands xs) s ys u) :
    Padded bound κ [] ρ s u (fun _ => True) fun ρ'' => ρ''.Bundles ks xs ys := by
  subst kinds
  induction xs generalizing ρ s ys with
  | nil =>
    obtain ⟨rfl, rfl⟩ := gives_bundled_nil_iff.mp gives
    exact padded_refl sound trivial fun ρ'' _ => .nil
  | cons x xs ih =>
    obtain ⟨part, v, parts, first, rest, rfl⟩ := gives_bundled_cons_iff.mp gives
    obtain ⟨inFirst, inRest⟩ := List.forall_mem_append.mp served
    exact ((bundleOperand_echoed sound inFirst first).bind fun ρ' grows sound' _ =>
      ih sound' (Served.grow inRest grows (by simp)) rest).mono (by simp) (fun _ _ _ => trivial)
      fun ρ'' _ both => both.1 _ _ _ both.2

end

end Roles

end Cotangent
