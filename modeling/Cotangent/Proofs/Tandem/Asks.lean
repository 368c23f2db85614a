import Cotangent.Proofs.Regions.Roles
import Cotangent.Proofs.Tandem.Binding
/-!
Asking for tangents. A name that was given one is asked in vain; one that does not change gets a zero, which
the emitted code binds before it goes on. What was asked for stays known as long as only names change that
are drawn later.
-/
namespace Cotangent

open Run ScalarAlgebra Diff

namespace Tandem

/-- The state serves the names in scope: it knows their types, and their companions are drawn names. A name
    without a companion does not change. -/
structure Serves (bound : Nat) (decl : Name → Ty) (scope still : List Name) (s : DiffState) : Prop where
  reserved : bound ≤ s.builder.supply.next
  small : ∀ x ∈ scope, x.id < bound
  typed : ∀ x ∈ scope, s.builder.types.find? x = some (decl x) ∧ (decl x).isAcc = false
  drawn : ∀ x ∈ scope, ∀ c, s.companions.find? x = some c → bound ≤ c.id ∧ c.id < s.builder.supply.next
  claimed : ∀ x ∈ scope, s.companions.find? x = none → x ∈ still
  sub : ∀ x ∈ still, x ∈ scope

/-- Statements were emitted, types were given to names in `bs` and fresh ones, and companions to names in
    scope and in `bs`. -/
structure Passes (bound : Nat) (scope bs : List Name) (s : DiffState) (new : List Stm) (t : DiffState) :
    Prop where
  emitted : t.builder.stms = s.builder.stms ++ new
  next_le : s.builder.supply.next ≤ t.builder.supply.next
  types : ∀ x, x.id < bound → x ∉ bs → t.builder.types.find? x = s.builder.types.find? x
  free : ∀ x, x ∉ scope → x ∉ bs → t.companions.find? x = s.companions.find? x
  kept : ∀ x ∈ scope, ∀ c, s.companions.find? x = some c → t.companions.find? x = some c
  fresh : ∀ x ∈ scope, ∀ c, t.companions.find? x = some c →
    s.companions.find? x = some c ∨ s.builder.supply.next ≤ c.id

/-- Statements were emitted that bind fresh names only. Where the names in `xs` are of their types, `post`
    holds afterwards, as long as nothing changes that was drawn so far. -/
structure Asks {α : Type} [ScalarAlgebra α] (f : Dual → α) (bound : Nat) (decl : Name → Ty)
    (scope still bs xs : List Name) (s t : DiffState) (post : Store Scalar → Store α → Prop) : Prop where
  serves : Serves bound decl scope still t
  emits : ∃ new, Passes bound scope bs s new t ∧
    ∀ fuel σ σ' τ, Accord f scope still s.companions σ τ →
      (∀ x ∈ xs, Settled decl s.builder.supply.next σ x) → Ends (stms fuel new) σ () σ' →
        Accord f scope still t.companions σ' τ ∧
          σ.Agree (fun x => x.id < s.builder.supply.next ∨ t.builder.supply.next ≤ x.id) σ' ∧
          ∀ σ'', σ'.Agree (·.id < t.builder.supply.next) σ'' → post σ'' τ

/-- The second operand is the tangent of the first. -/
inductive Tangent (tans : NameTable Name) : Operand → Operand → Prop
  | const (v : Scalar) : Tangent tans (.const v) (.const (Scalar.zero v.ty))
  | var {x c : Name} (found : tans.find? x = some c) : Tangent tans (.var x) (.var c)

/-- The operands stand for dual values, and the others for their tangents. -/
inductive AllPairs {α : Type} [ScalarAlgebra α] (f : Dual → α) (σ : Store Scalar) (τ : Store α) :
    List Operand → List Operand → List (Value Dual) → Prop
  | nil : AllPairs f σ τ [] [] []
  | cons {x dx : Operand} {d : Value Dual} {xs dxs : List Operand} {ds : List (Value Dual)}
      (here : Pairs f σ τ x dx d) (rest : AllPairs f σ τ xs dxs ds) :
      AllPairs f σ τ (x :: xs) (dx :: dxs) (d :: ds)

section

variable {α : Type} [ScalarAlgebra α] {f : Dual → α} {bound : Nat} {decl : Name → Ty}
  {scope scope' still still' bs bs' names : List Name} {s t u : DiffState} {new more : List Stm}
  {post post' : Store Scalar → Store α → Prop} {σ σ' : Store Scalar} {τ : Store α} {x c : Name}
  {tans tans' : NameTable Name}

/-! Emitting. -/

theorem Passes.refl (s : DiffState) : Passes bound scope bs s [] s where
  emitted := (List.append_nil _).symm
  next_le := Nat.le_refl _
  types _ _ _ := rfl
  free _ _ _ := rfl
  kept _ _ _ found := found
  fresh _ _ _ found := .inl found

theorem Passes.trans (first : Passes bound scope bs s new t) (second : Passes bound scope' bs t more u)
    (sub : ∀ x ∈ scope, x ∈ scope') (within : ∀ x ∈ scope', x ∈ scope ∨ x ∈ bs) :
    Passes bound scope bs s (new ++ more) u where
  emitted := by rw [second.emitted, first.emitted, List.append_assoc]
  next_le := Nat.le_trans first.next_le second.next_le
  types x small other := (second.types x small other).trans (first.types x small other)
  free x outside other :=
    (second.free x (fun mem => (within x mem).elim outside other) other).trans (first.free x outside other)
  kept x mem c found := second.kept x (sub x mem) c (first.kept x mem c found)
  fresh x mem c found := by
    have := first.next_le
    rcases second.fresh x (sub x mem) c found with found | drawn
    · exact first.fresh x mem c found
    · exact .inr (by omega)

theorem Passes.mono (passes : Passes bound scope bs s new t) (sub : ∀ x ∈ bs, x ∈ bs') :
    Passes bound scope bs' s new t :=
  { passes with
    types := fun x small other => passes.types x small fun mem => other (sub x mem)
    free := fun x outside other => passes.free x outside fun mem => other (sub x mem) }

/-- What is still known of a served scope when types and companions of other names have changed. -/
theorem Serves.passes (serves : Serves bound decl scope still s) (passes : Passes bound scope bs s new t)
    (apart : ∀ x ∈ scope, x ∉ bs)
    (drawn : ∀ x ∈ scope, ∀ c, t.companions.find? x = some c → c.id < t.builder.supply.next) :
    Serves bound decl scope still t where
  reserved := Nat.le_trans serves.reserved passes.next_le
  small := serves.small
  typed x mem := by
    rw [passes.types x (serves.small x mem) (apart x mem)]
    exact serves.typed x mem
  drawn x mem c found := by
    refine ⟨?_, drawn x mem c found⟩
    rcases passes.fresh x mem c found with before | after
    · exact (serves.drawn x mem c before).1
    · exact Nat.le_trans serves.reserved after
  claimed x mem none := by
    refine serves.claimed x mem ?_
    cases found : s.companions.find? x with
    | none => rfl
    | some c => rw [passes.kept x mem c found] at none; cases none
  sub := serves.sub

/-- Nothing was emitted, and no name in scope was given anything. -/
theorem Asks.aside (serves : Serves bound decl scope still s) (passes : Passes bound scope bs s [] t)
    (apart : ∀ x ∈ scope, x ∉ bs) (same : ∀ x ∈ scope, t.companions.find? x = s.companions.find? x) :
    Asks f bound decl scope still bs names s t fun _ _ => True where
  serves := serves.passes passes apart fun x mem c found =>
    Nat.lt_of_lt_of_le (serves.drawn x mem c (same x mem ▸ found)).2 passes.next_le
  emits := by
    refine ⟨[], passes, fun fuel σ σ' τ accord typed ends => ?_⟩
    obtain rfl := (ends_stms_nil ..).mp ends
    exact ⟨accord.sub (fun _ mem => mem) (fun x mem c found => same x mem ▸ found) fun _ _ isStill => isStill,
      .refl _ σ, fun _ _ => trivial⟩

theorem Asks.refl (serves : Serves bound decl scope still s)
    (holds : ∀ σ τ, Accord f scope still s.companions σ τ →
      (∀ x ∈ names, Settled decl s.builder.supply.next σ x) →
      ∀ σ', σ.Agree (·.id < s.builder.supply.next) σ' → post σ' τ) :
    Asks f bound decl scope still bs names s s post where
  serves := serves
  emits := by
    refine ⟨[], .refl s, fun fuel σ σ' τ accord typed ends => ?_⟩
    obtain rfl := (ends_stms_nil ..).mp ends
    exact ⟨accord, .refl _ σ, holds σ τ accord typed⟩

theorem Asks.mono (asks : Asks f bound decl scope still bs names s t post)
    (weaker : ∀ σ τ, post σ τ → post' σ τ) : Asks f bound decl scope still bs names s t post' where
  serves := asks.serves
  emits := by
    obtain ⟨new, passes, runs⟩ := asks.emits
    refine ⟨new, passes, fun fuel σ σ' τ accord typed ends => ?_⟩
    obtain ⟨after, kept, holds⟩ := runs fuel σ σ' τ accord typed ends
    exact ⟨after, kept, fun σ'' later => weaker σ'' τ (holds σ'' later)⟩

theorem Asks.bind (first : Asks f bound decl scope still bs names s t post)
    (second : Asks f bound decl scope still bs names t u post') :
    Asks f bound decl scope still bs names s u fun σ τ => post σ τ ∧ post' σ τ where
  serves := second.serves
  emits := by
    obtain ⟨new, passes, runs⟩ := first.emits
    obtain ⟨more, passes', runs'⟩ := second.emits
    refine ⟨new ++ more, passes.trans passes' (fun _ mem => mem) fun _ mem => .inl mem,
      fun fuel σ υ τ accord typed ends => ?_⟩
    obtain ⟨σ', ran, ends⟩ := (ends_stms_append ..).mp ends
    obtain ⟨after, kept, holds⟩ := runs fuel σ σ' τ accord typed ran
    obtain ⟨after', kept', holds'⟩ := runs' fuel σ' υ τ after
      (fun x mem => (typed x mem).agree kept (fun y mem' => .inl ((typed x mem).2 y mem')) passes.next_le) ends
    have le := passes.next_le
    have le' := passes'.next_le
    exact ⟨after', (kept.mono fun x outside => by omega).trans (kept'.mono fun x outside => by omega),
      fun σ'' later => ⟨holds σ'' ((kept'.mono fun x small => .inl small).trans
        (later.mono fun x small => by omega)), holds' σ'' later⟩⟩

/-- What is asked for may be read off the stores in accord. -/
theorem Asks.strengthen (asks : Asks f bound decl scope still bs names s t post)
    (more : ∀ σ τ, Accord f scope still t.companions σ τ → post σ τ → post' σ τ) :
    Asks f bound decl scope still bs names s t post' where
  serves := asks.serves
  emits := by
    obtain ⟨new, passes, runs⟩ := asks.emits
    refine ⟨new, passes, fun fuel σ σ' τ accord typed ends => ?_⟩
    obtain ⟨after, kept, holds⟩ := runs fuel σ σ' τ accord typed ends
    refine ⟨after, kept, fun σ'' later => more σ'' τ ?_ (holds σ'' later)⟩
    have reserved := asks.serves.reserved
    exact after.agree later (.refl (fun _ => True) τ)
      (fun x mem => Nat.lt_of_lt_of_le (asks.serves.small x mem) reserved) (fun _ _ => trivial)
      fun x mem c found => (asks.serves.drawn x mem c found).2

theorem Asks.widen (asks : Asks f bound decl scope still bs names s t post) (sub : ∀ x ∈ bs, x ∈ bs') :
    Asks f bound decl scope still bs' names s t post where
  serves := asks.serves
  emits := by
    obtain ⟨new, passes, runs⟩ := asks.emits
    exact ⟨new, passes.mono sub, runs⟩

theorem Asks.next_le (asks : Asks f bound decl scope still bs names s t post) :
    s.builder.supply.next ≤ t.builder.supply.next := by
  obtain ⟨new, passes, -⟩ := asks.emits
  exact passes.next_le

theorem Asks.kept (asks : Asks f bound decl scope still bs names s t post) (known : x ∈ scope)
    (found : s.companions.find? x = some c) : t.companions.find? x = some c := by
  obtain ⟨new, passes, -⟩ := asks.emits
  exact passes.kept x known c found

/-! Tangents. -/

/-- Emitting the zero of the type of a name in scope. -/
theorem zeroOf_runs (bs : List Name) (serves : Serves bound decl scope still s) (known : x ∈ scope)
    (gives : Gives (zeroOf x) s c t) :
    Serves bound decl scope still t ∧ c = ⟨s.builder.supply.next⟩ ∧
      t.builder.supply.next = s.builder.supply.next + 1 ∧ t.companions = s.companions ∧
      ∃ new, Passes bound scope bs s new t ∧
        ∀ fuel (σ σ' : Store Scalar), Settled decl s.builder.supply.next σ x →
          Ends (stms fuel new) σ () σ' → σ.Agree (· ≠ c) σ' ∧
            ∀ d : Value Dual, σ.vars.find? x = some (d.map Dual.primal) → d.Every Dual.Still →
              σ'.vars.find? c = some (d.map Dual.tangent) := by
  obtain ⟨found, plain⟩ := serves.typed x known
  obtain ⟨e, zero⟩ := Forward.zeroExp_of_not_acc plain
  simp only [zeroOf, gives_bind, gives_typeOf, found, Option.some.injEq] at gives
  obtain ⟨_, _, ⟨rfl, rfl⟩, gives⟩ := gives
  rw [zero, gives_build] at gives
  obtain ⟨rfl, rfl⟩ := gives
  have passes : Passes bound scope [] s [⟨[⟨⟨s.builder.supply.next⟩, decl x⟩], .none, e⟩]
      { s with builder := (Build.letExp (decl x) e s.builder).2 } := {
    emitted := rfl
    next_le := Nat.le_succ _
    types := fun y small _ => by
      have := serves.reserved
      have absent : ∀ p ∈ [(⟨⟨s.builder.supply.next⟩, decl x⟩ : Param)], p.name ≠ y := by
        simp only [List.mem_singleton, forall_eq]
        rintro rfl
        simp only at small
        omega
      exact Builder.find_declared_of_not_mem _ absent
    free := fun _ _ _ => rfl
    kept := fun _ _ _ found => found
    fresh := fun _ _ _ found => .inl found }
  refine ⟨serves.passes passes (by simp) fun y mem c found => ?_, rfl, rfl, rfl, _,
    passes.mono (by simp), ?_⟩
  · exact Nat.lt_succ_of_lt (serves.drawn y mem c found).2
  · intro fuel σ σ' settled ends
    simp only [ends_stms_cons, ends_stms_nil, exists_eq_right, ends_stm] at ends
    obtain ⟨us, υ, ran, -, rfl⟩ := ends
    obtain ⟨v, isV, has⟩ := Store.holdsType_iff.mp settled.1
    have value (d : Value Dual) (read : σ.vars.find? x = some (d.map Dual.primal))
        (still : d.Every Dual.Still) : us = [d.map Dual.tangent] ∧ υ = σ := by
      obtain rfl : v = d.map Dual.primal := Option.some.inj (isV.symm.trans read)
      exact Store.zero_ends zero has still ran
    obtain ⟨-, rfl⟩ := value v.calm (by rw [Value.primal_calm]; exact isV) v.still_calm
    refine ⟨.bound υ us fun y mem apart => apart (List.mem_singleton.mp mem), fun d read still => ?_⟩
    obtain ⟨rfl, -⟩ := value d read still
    exact υ.find_bound_single ..

theorem companion_asks (bs : List Name) (serves : Serves bound decl scope still s) (known : x ∈ scope) (read : x ∈ names)
    (gives : Gives (companion x) s c t) :
    Asks f bound decl scope still bs names s t (fun _ _ => True) ∧ t.companions.find? x = some c := by
  simp only [companion, gives_bind, gives_companion?] at gives
  obtain ⟨_, _, ⟨rfl, rfl⟩, gives⟩ := gives
  have small := serves.small x known
  have reserved := serves.reserved
  cases found : s.companions.find? x with
  | some z =>
    rw [found] at gives
    obtain ⟨rfl, rfl⟩ := (gives_pure ..).mp gives
    exact ⟨.refl serves fun _ _ _ _ _ _ => trivial, found⟩
  | none =>
    rw [found] at gives
    simp only [gives_bind, gives_setCompanion, gives_pure] at gives
    obtain ⟨z, v, made, _, _, rfl, rfl, rfl⟩ := gives
    obtain ⟨served, rfl, next, companions, new, passes, runs⟩ :=
      zeroOf_runs bs serves known made
    have isStill := serves.claimed x known found
    have find (y : Name) : (v.companions.insert x ⟨s.builder.supply.next⟩).find? y =
        if y = x then some ⟨s.builder.supply.next⟩ else s.companions.find? y := by
      rw [NameTable.find_insert, companions]
    refine ⟨⟨?_, new, ?_, fun fuel σ σ' τ accord typed ends => ?_⟩, (find x).trans (if_pos rfl)⟩
    · exact { served with
        drawn := fun y mem c same => by
          rw [find] at same
          split at same
          · obtain rfl := Option.some.inj same
            exact ⟨reserved, by rw [next]; exact Nat.lt_succ_self _⟩
          · have := serves.drawn y mem c same
            exact ⟨this.1, by rw [next]; omega⟩
        claimed := fun y mem none => by
          rw [find] at none
          split at none
          · cases none
          · exact serves.claimed y mem none }
    · exact { passes with
        free := fun y outside _ => by
          rw [find, if_neg (by rintro rfl; exact outside known)]
        kept := fun y mem c same => by
          rw [find, if_neg (by rintro rfl; simp [found] at same)]
          exact same
        fresh := fun y mem c same => by
          rw [find] at same
          split at same
          · obtain rfl := Option.some.inj same
            exact .inr (Nat.le_refl _)
          · exact .inl same }
    · obtain ⟨kept, zero⟩ := runs fuel σ σ' (typed x read) ends
      have apart : ∀ y : Name, y.id < s.builder.supply.next ∨ v.builder.supply.next ≤ y.id →
          y ≠ ⟨s.builder.supply.next⟩ := by
        rintro y outside rfl
        simp only at outside
        omega
      have below (y : Name) (small : y.id < s.builder.supply.next) := apart y (.inl small)
      have accord' : Accord f scope still s.companions σ' τ :=
        accord.agree kept (.refl (fun _ => True) τ)
          (fun y mem => below y (by have := serves.small y mem; omega)) (fun _ _ => trivial)
          fun y mem c same => below c (serves.drawn y mem c same).2
      refine ⟨fun y mem => ?_, kept.mono apart, fun _ _ => trivial⟩
      obtain ⟨d, reads, tangent, quiet⟩ := accord' y mem
      refine ⟨d, reads, fun c same => ?_, quiet⟩
      rw [find] at same
      split at same
      · rename_i here
        subst here
        obtain rfl := Option.some.inj same
        exact zero d ((kept y (below y (by omega))).symm.trans reads.primal) (quiet isStill)
      · exact tangent c same

theorem Tangent.kept {x dx : Operand} (tangent : Tangent tans x dx)
    (kept : ∀ y ∈ x.names, ∀ c, tans.find? y = some c → tans'.find? y = some c) : Tangent tans' x dx := by
  cases tangent with
  | const v => exact .const v
  | var found => exact .var (kept _ (by simp [Operand.names]) _ found)

theorem tangent_asks (bs : List Name) (serves : Serves bound decl scope still s) {x dx : Operand}
    (known : ∀ y ∈ x.names, y ∈ scope) (read : ∀ y ∈ x.names, y ∈ names)
    (gives : Gives (Forward.tangent x) s dx t) :
    Asks f bound decl scope still bs names s t (fun _ _ => True) ∧ Tangent t.companions x dx := by
  cases x with
  | const v =>
    obtain ⟨rfl, rfl⟩ := (gives_pure ..).mp gives
    exact ⟨.refl serves fun _ _ _ _ _ _ => trivial, .const v⟩
  | var x =>
    simp only [Forward.tangent, gives_bind, gives_pure] at gives
    obtain ⟨c, _, asked, rfl, rfl⟩ := gives
    obtain ⟨asks, found⟩ := companion_asks (f := f) bs serves
      (known x (by simp [Operand.names])) (read x (by simp [Operand.names])) asked
    exact ⟨asks, .var found⟩

/-- A walk that asks for something at each entry. -/
theorem mapM_asks {β γ : Type} (bs : List Name) (keys : β → List Name) {g : β → Diff γ}
    (holds : NameTable Name → β → γ → Prop)
    (mono : ∀ {tans tans' : NameTable Name} {b c}, (∀ x ∈ keys b, ∀ z, tans.find? x = some z →
      tans'.find? x = some z) → holds tans b c → holds tans' b c)
    (each : ∀ b c s t, Serves bound decl scope still s → (∀ x ∈ keys b, x ∈ scope) →
      (∀ x ∈ keys b, x ∈ names) → Gives (g b) s c t →
      Asks f bound decl scope still bs names s t (fun _ _ => True) ∧ holds t.companions b c)
    (serves : Serves bound decl scope still s) {xs : List β} {ys : List γ}
    (known : ∀ x ∈ xs.flatMap keys, x ∈ scope) (read : ∀ x ∈ xs.flatMap keys, x ∈ names)
    (gives : Gives (xs.mapM g) s ys t) :
    Asks f bound decl scope still bs names s t (fun _ _ => True) ∧
      List.Forall₂ (holds t.companions) xs ys := by
  induction xs generalizing s ys with
  | nil =>
    obtain ⟨rfl, rfl⟩ := (gives_pure ..).mp gives
    exact ⟨.refl serves fun _ _ _ _ _ _ => trivial, .nil⟩
  | cons x xs ih =>
    simp only [List.mapM_cons, gives_bind, gives_pure] at gives
    obtain ⟨y, u, first, ys, _, rest, rfl, rfl⟩ := gives
    simp only [List.flatMap_cons, List.forall_mem_append] at known read
    obtain ⟨asks, here⟩ := each x y s u serves known.1 read.1 first
    obtain ⟨more, others⟩ := ih asks.serves known.2 read.2 rest
    exact ⟨(asks.bind more).mono fun _ _ _ => trivial,
      .cons (mono (fun z mem c => more.kept (known.1 z mem)) here) others⟩

theorem tangents_asks (bs : List Name) (serves : Serves bound decl scope still s) {xs dxs : List Operand}
    (known : ∀ y ∈ operandNames xs, y ∈ scope) (read : ∀ y ∈ operandNames xs, y ∈ names)
    (gives : Gives (Forward.tangents xs) s dxs t) :
    Asks f bound decl scope still bs names s t (fun _ _ => True) ∧
      List.Forall₂ (Tangent t.companions) xs dxs :=
  mapM_asks bs Operand.names Tangent (fun kept tangent => tangent.kept kept)
    (fun _ _ _ _ serves known read gives => tangent_asks bs serves known read gives) serves known read gives

theorem companions_asks (bs : List Name) (serves : Serves bound decl scope still s) {xs cs : List Name}
    (known : ∀ x ∈ xs, x ∈ scope) (read : ∀ x ∈ xs, x ∈ names) (gives : Gives (xs.mapM companion) s cs t) :
    Asks f bound decl scope still bs names s t (fun _ _ => True) ∧
      List.Forall₂ (fun x c => t.companions.find? x = some c) xs cs :=
  mapM_asks bs (fun x => [x]) (fun tans x c => tans.find? x = some c)
    (fun kept found => kept _ (by simp) _ found)
    (fun _ _ _ _ serves known read gives => companion_asks bs serves (known _ (by simp)) (read _ (by simp)) gives)
    serves (by simpa using known) (by simpa using read) gives

/-- Bundling asks for the second parts, where nothing is an accumulator. -/
theorem gives_bundled_pairs {β : Type} {test : β → Diff Bool} {alone : β → Diff (List β)}
    {second : β → Diff β} {xs zs : List β} (serves : Serves bound decl scope still s)
    (plain : ∀ x ∈ xs, ∀ s b t, Serves bound decl scope still s → Gives (test x) s b t → b = false ∧ s = t)
    (each : ∀ x ∈ xs, ∀ s y t, Serves bound decl scope still s → Gives (second x) s y t →
      Serves bound decl scope still t)
    (gives : Gives (Forward.bundled (fun x => do
      if ← test x then alone x else return [x, ← second x]) xs) s zs t) :
    ∃ ys, Gives (xs.mapM second) s ys t ∧ zs = interleave xs ys := by
  induction xs generalizing s zs with
  | nil =>
    obtain ⟨rfl, rfl⟩ := Roles.gives_bundled_nil_iff.mp gives
    exact ⟨[], (gives_pure ..).mpr ⟨rfl, rfl⟩, rfl⟩
  | cons x xs ih =>
    obtain ⟨part, u, parts, first, rest, rfl⟩ := Roles.gives_bundled_cons_iff.mp gives
    simp only [gives_bind] at first
    obtain ⟨b, _, tested, first⟩ := first
    obtain ⟨rfl, rfl⟩ := plain x (by simp) s b _ serves tested
    simp only [Bool.false_eq_true, if_false, gives_bind, gives_pure] at first
    obtain ⟨y, _, asked, rfl, rfl⟩ := first
    obtain ⟨ys, others, rfl⟩ := ih (each x (by simp) s y _ serves asked)
      (fun z mem => plain z (by simp [mem])) (fun z mem => each z (by simp [mem])) rest
    refine ⟨y :: ys, ?_, rfl⟩
    simp only [List.mapM_cons, gives_bind, gives_pure]
    exact ⟨y, _, asked, ys, t, others, rfl, rfl⟩

theorem isAccName_plain (serves : Serves bound decl scope still s) (known : x ∈ scope) {b : Bool}
    (gives : Gives (Forward.isAccName x) s b t) : b = false ∧ s = t := by
  obtain ⟨found, plain⟩ := serves.typed x known
  simp only [Forward.isAccName, gives_bind, gives_typeOf, gives_pure, found, Option.some.injEq] at gives
  obtain ⟨_, _, ⟨rfl, rfl⟩, rfl, rfl⟩ := gives
  exact ⟨plain, rfl⟩

theorem isAccOperand_plain (serves : Serves bound decl scope still s) {x : Operand}
    (known : ∀ y ∈ x.names, y ∈ scope) {b : Bool} (gives : Gives (Forward.isAccOperand x) s b t) :
    b = false ∧ s = t := by
  cases x with
  | const v =>
    obtain ⟨rfl, rfl⟩ := (gives_pure ..).mp gives
    exact ⟨rfl, rfl⟩
  | var x => exact isAccName_plain serves (known x (by simp [Operand.names])) gives

theorem mem_of_operand {xs : List Operand} {P : Name → Prop} (all : ∀ y ∈ operandNames xs, P y) {x : Operand}
    (mem : x ∈ xs) : ∀ y ∈ x.names, P y :=
  fun y inX => all y (List.mem_flatMap.mpr ⟨x, mem, inX⟩)

theorem bundleOperands_asks (bs : List Name) (serves : Serves bound decl scope still s) {xs zs : List Operand}
    (known : ∀ y ∈ operandNames xs, y ∈ scope) (read : ∀ y ∈ operandNames xs, y ∈ names)
    (gives : Gives (Forward.bundleOperands xs) s zs t) :
    Asks f bound decl scope still bs names s t (fun _ _ => True) ∧
      ∃ dxs, zs = interleave xs dxs ∧ List.Forall₂ (Tangent t.companions) xs dxs := by
  obtain ⟨dxs, asked, rfl⟩ := gives_bundled_pairs serves
    (fun x mem s b t serves => isAccOperand_plain serves (mem_of_operand known mem))
    (fun x mem s y t serves gives => (tangent_asks (f := f) bs serves (mem_of_operand known mem)
      (mem_of_operand read mem) gives).1.serves) gives
  obtain ⟨asks, tangents⟩ := tangents_asks (f := f) bs serves known read asked
  exact ⟨asks, dxs, rfl, tangents⟩

theorem bundleNames_asks (bs : List Name) (serves : Serves bound decl scope still s) {xs zs : List Name}
    (known : ∀ x ∈ xs, x ∈ scope) (read : ∀ x ∈ xs, x ∈ names)
    (gives : Gives (Forward.bundleNames xs) s zs t) :
    Asks f bound decl scope still bs names s t (fun _ _ => True) ∧
      ∃ cs, zs = interleave xs cs ∧ List.Forall₂ (fun x c => t.companions.find? x = some c) xs cs := by
  obtain ⟨cs, asked, rfl⟩ := gives_bundled_pairs serves
    (fun x mem s b t serves => isAccName_plain serves (known x mem))
    (fun x mem s y t serves gives => (companion_asks (f := f) bs serves (known x mem) (read x mem)
      gives).1.serves) gives
  obtain ⟨asks, found⟩ := companions_asks (f := f) bs serves known read asked
  exact ⟨asks, cs, rfl, found⟩

/-! Neutral operands. -/

omit [ScalarAlgebra α] in
/-- A view without tangents sees a value as if it did not change. -/
theorem Blind.calm (blind : Blind f) (d : Value Dual) : (d.map Dual.primal).calm.map f = d.map f := by
  rw [Value.calm, Value.map_map, Value.map_map]
  exact congrArg d.map (funext fun a => blind a _)

theorem Reads.calm (blind : Blind f) {x : Operand} {d : Value Dual} (reads : Reads f σ τ x d) :
    Reads f σ τ x (d.map Dual.primal).calm :=
  ⟨reads.primal.trans (congrArg some (Value.primal_calm _).symm),
    reads.seen.trans (congrArg some (blind.calm d).symm)⟩

/-- A neutral operand gets a zero, which is right for a constant, and for anything that no one looks at. -/
theorem zeroOperand_asks (bs : List Name) (view : View f) (serves : Serves bound decl scope still s) {x dx : Operand}
    (known : ∀ y ∈ x.names, y ∈ scope) (read : ∀ y ∈ x.names, y ∈ names)
    (gives : Gives (zeroOperand x) s dx t) :
    Asks f bound decl scope still bs names s t fun σ τ => Blind f ∨ x.names = [] → ∃ d, Pairs f σ τ x dx d := by
  cases x with
  | const v =>
    obtain ⟨rfl, rfl⟩ := (gives_pure ..).mp gives
    exact .refl serves fun _ τ _ _ σ' _ _ => ⟨_, pairs_const view σ' τ v⟩
  | var x =>
    have inScope := known x (by simp [Operand.names])
    have inNames := read x (by simp [Operand.names])
    obtain ⟨found, plain⟩ := serves.typed x inScope
    have reserved := serves.reserved
    have small := serves.small x inScope
    simp only [zeroOperand, gives_bind, gives_typeOf, found, Option.some.injEq] at gives
    obtain ⟨_, _, ⟨rfl, rfl⟩, gives⟩ := gives
    cases ty : decl x with
    | acc token shape elems unique => simp [ty, Ty.isAcc] at plain
    | scalar k =>
      simp only [ty, gives_pure] at gives
      obtain ⟨rfl, rfl⟩ := gives
      refine .refl serves fun σ τ accord typed σ' kept neutral => ?_
      have blind : Blind f := neutral.resolve_right (by simp [Operand.names])
      obtain ⟨d, reads, -⟩ := accord x inScope
      have calm := reads.calm blind
      have shaped := (typed x inNames).hasType calm
      rw [ty] at shaped
      refine ⟨_, calm.agree kept (.refl (fun _ => True) τ) ?_ fun _ _ => trivial, ?_⟩
      · simp only [Operand.names, List.mem_singleton, forall_eq]
        omega
      · have zero : (d.map Dual.primal).calm.map Dual.tangent = Value.replicate [] (.scalar (Scalar.zero k)) :=
          Value.tangent_of_still shaped (Value.still_calm _)
        exact congrArg some zero.symm
    | array k shape unique =>
      simp only [ty, gives_bind, gives_pure] at gives
      obtain ⟨c, v, made, rfl, rfl⟩ := gives
      obtain ⟨served, rfl, next, companions, new, passes, runs⟩ :=
        zeroOf_runs bs serves inScope made
      refine ⟨served, new, passes, fun fuel σ σ' τ accord typed ends => ?_⟩
      obtain ⟨kept, zero⟩ := runs fuel σ σ' (typed x inNames) ends
      have apart : ∀ y : Name, y.id < s.builder.supply.next ∨ v.builder.supply.next ≤ y.id →
          y ≠ ⟨s.builder.supply.next⟩ := by
        rintro y outside rfl
        simp only at outside
        omega
      have older (y : Name) (small : y.id < s.builder.supply.next) := apart y (.inl small)
      have accord' : Accord f scope still s.companions σ' τ :=
        accord.agree kept (.refl (fun _ => True) τ)
          (fun y mem => older y (by have := serves.small y mem; omega)) (fun _ _ => trivial)
          fun y mem c same => older c (serves.drawn y mem c same).2
      refine ⟨companions ▸ accord', kept.mono apart, fun σ'' later neutral => ?_⟩
      have blind : Blind f := neutral.resolve_right (by simp [Operand.names])
      obtain ⟨d, reads, -⟩ := accord x inScope
      have here := zero (d.map Dual.primal).calm
        (reads.primal.trans (congrArg some (Value.primal_calm _).symm)) (Value.still_calm _)
      refine ⟨_, ((reads.calm blind).agree kept (.refl (fun _ => True) τ) ?_ fun _ _ => trivial).agree later
        (.refl (fun _ => True) τ) ?_ fun _ _ => trivial, (later _ ?_).trans here⟩
      · simpa [Operand.names] using older x (by omega)
      · simp only [Operand.names, List.mem_singleton, forall_eq]
        omega
      · show s.builder.supply.next < v.builder.supply.next
        omega

theorem bundleNeutral_asks (bs : List Name) (view : View f) (serves : Serves bound decl scope still s) {xs zs : List Operand}
    (known : ∀ y ∈ operandNames xs, y ∈ scope) (read : ∀ y ∈ operandNames xs, y ∈ names)
    (gives : Gives (Forward.bundleNeutral xs) s zs t) :
    ∃ zeros, zs = interleave xs zeros ∧ Asks f bound decl scope still bs names s t fun σ τ =>
      Blind f ∨ operandNames xs = [] → ∃ ds, AllPairs f σ τ xs zeros ds := by
  simp only [Forward.bundleNeutral, gives_bind, gives_pure] at gives
  obtain ⟨zeros, _, made, rfl, rfl⟩ := gives
  refine ⟨zeros, rfl, ?_⟩
  induction xs generalizing s zeros with
  | nil =>
    obtain ⟨rfl, rfl⟩ := (gives_pure ..).mp made
    exact .refl serves fun _ _ _ _ _ _ _ => ⟨[], .nil⟩
  | cons x xs ih =>
    simp only [List.mapM_cons, gives_bind, gives_pure] at made
    obtain ⟨z, u, first, zeros, _, rest, rfl, rfl⟩ := made
    have both : operandNames (x :: xs) = x.names ++ operandNames xs := rfl
    simp only [both, List.forall_mem_append, List.append_eq_nil_iff] at known read ⊢
    have here := zeroOperand_asks bs view serves known.1 read.1 first
    have others := ih here.serves known.2 read.2 zeros rest
    refine (here.bind others).mono ?_
    rintro σ τ ⟨one, more⟩ neutral
    obtain ⟨d, pair⟩ := one (neutral.imp_right And.left)
    obtain ⟨ds, pairs⟩ := more (neutral.imp_right And.right)
    exact ⟨d :: ds, .cons pair pairs⟩

/-! Values of operands and of their tangents. -/

theorem Accord.pairs (accord : Accord f scope still tans σ τ) (view : View f) {x dx : Operand}
    (known : ∀ y ∈ x.names, y ∈ scope) (tangent : Tangent tans x dx) : ∃ d, Pairs f σ τ x dx d := by
  cases tangent with
  | const v => exact ⟨_, pairs_const view σ τ v⟩
  | @var x c found =>
    obtain ⟨d, reads, tangent, -⟩ := accord x (known x (by simp [Operand.names]))
    exact ⟨d, reads, tangent c found⟩

theorem Accord.allPairs (accord : Accord f scope still tans σ τ) (view : View f) {xs dxs : List Operand}
    (known : ∀ y ∈ operandNames xs, y ∈ scope) (tangents : List.Forall₂ (Tangent tans) xs dxs) :
    ∃ ds, AllPairs f σ τ xs dxs ds := by
  induction tangents with
  | nil => exact ⟨[], .nil⟩
  | cons here rest ih =>
    obtain ⟨first, others⟩ := List.forall_mem_append.mp known
    obtain ⟨d, pair⟩ := accord.pairs view first here
    obtain ⟨ds, pairs⟩ := ih others
    exact ⟨d :: ds, .cons pair pairs⟩

theorem operandNames_vars (xs : List Name) : operandNames (xs.map .var) = xs := by
  induction xs with
  | nil => rfl
  | cons x xs ih => exact congrArg (x :: ·) ih

theorem tangents_vars {xs cs : List Name} (found : List.Forall₂ (fun x c => tans.find? x = some c) xs cs) :
    List.Forall₂ (Tangent tans) (xs.map .var) (cs.map .var) := by
  induction found with
  | nil => exact .nil
  | cons here rest ih => exact .cons (.var here) ih

theorem tangents_kept {xs dxs : List Operand} (tangents : List.Forall₂ (Tangent tans) xs dxs)
    (kept : ∀ y ∈ operandNames xs, ∀ c, tans.find? y = some c → tans'.find? y = some c) :
    List.Forall₂ (Tangent tans') xs dxs :=
  forall₂_imp_mem tangents fun _ mem _ tangent => tangent.kept (mem_of_operand kept mem)

namespace AllPairs

variable {xs dxs : List Operand} {ds : List (Value Dual)}

theorem seen (pairs : AllPairs f σ τ xs dxs ds) :
    List.Forall₂ (fun x (d : Value Dual) => τ.value x = some (d.map f)) xs ds := by
  induction pairs with
  | nil => exact .nil
  | cons here rest ih => exact .cons here.seen ih

theorem primals (pairs : AllPairs f σ τ xs dxs ds) :
    List.Forall₂ (fun x u => σ.value x = some u) xs (primals ds) := by
  induction pairs with
  | nil => exact .nil
  | cons here rest ih => exact .cons here.primal ih

theorem changes (pairs : AllPairs f σ τ xs dxs ds) :
    List.Forall₂ (fun dx u => σ.value dx = some u) dxs (changes ds) := by
  induction pairs with
  | nil => exact .nil
  | cons here rest ih => exact .cons here.tangent ih

theorem doubled (pairs : AllPairs f σ τ xs dxs ds) :
    List.Forall₂ (fun y u => σ.value y = some u) (interleave xs dxs) (doubled ds) := by
  induction pairs with
  | nil => exact .nil
  | cons here rest ih => exact .cons here.primal (.cons here.tangent ih)

/-- The operands come to the dual values, with those of their tangents in between. -/
theorem ends_doubled (pairs : AllPairs f σ τ xs dxs ds) {us : List Value}
    (ends : Ends (operands (interleave xs dxs)) σ us σ') :
    σ' = σ ∧ us = Cotangent.doubled ds ∧ Ends (operands xs) τ (ds.map (Value.map f)) τ :=
  shadows_operands pairs.doubled pairs.seen ends

end AllPairs

/-- Names are read, with their tangents in between. -/
theorem Accord.lookups (accord : Accord f scope still tans σ τ) (view : View f) {xs cs : List Name}
    (known : ∀ x ∈ xs, x ∈ scope) (found : List.Forall₂ (fun x c => tans.find? x = some c) xs cs) {us : List Value}
    (ends : Ends (Run.lookups (interleave xs cs)) σ us σ') :
    σ' = σ ∧ ∃ ds, us = doubled ds ∧ Ends (Run.lookups xs) τ (ds.map (Value.map f)) τ := by
  rw [lookups_vars, map_interleave] at ends
  obtain ⟨ds, pairs⟩ := accord.allPairs view (by rwa [operandNames_vars]) (tangents_vars found)
  obtain ⟨rfl, rfl, seen⟩ := pairs.ends_doubled ends
  rw [← lookups_vars] at seen
  exact ⟨rfl, ds, rfl, seen⟩

end

end Tandem

end Cotangent
