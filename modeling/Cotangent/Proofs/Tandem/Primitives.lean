import Cotangent.Proofs.Tandem.Patterns
/-!
Statements without bodies. An operation whose value does not change is emitted alone. Any other one, and a
call, is followed by what computes the tangent of its value; the operands are read again for that.
-/
namespace Cotangent

open Run ScalarAlgebra Diff Outline

namespace Run

/-- A statement ends where its expression does, with its pattern bound. -/
theorem ends_stm_of_exp {α : Type} [ScalarAlgebra α] {run : Body → Run α (List (Value α))} {fuel : Nat}
    {s : Stm} {σ τ : Store α} {vs : List (Value α)} (applied : Ends (exp run fuel s.exp) σ vs τ)
    (count : vs.length = s.pat.length) : Ends (stm run fuel s) σ () (τ.bound (s.pat.map (·.name)) vs) := by
  simp only [stm, ends_bind, ends_bindNames, List.length_map]
  exact ⟨vs, τ, applied, count, rfl⟩

/-- A run that mimics itself whatever is kept changes nothing. -/
theorem agree_of_mimics {α β : Type} {scope : Scope} {m : Run α β} (mimics : ∀ keep, Mimics keep scope scope m m)
    {σ τ : Store α} {b : β} (ends : Ends m σ b τ) : σ.Agree (fun _ => True) τ := fun x _ =>
  ((mimics [x] σ σ (.refl _ σ)).ends b τ ends).1 x (by simp)

end Run

namespace Tandem

section

variable {α : Type} [ScalarAlgebra α] {f : Dual → α} {bound m n : Nat} {decl : Name → Ty}
  {scope still bs names : List Name} {s t u : DiffState} {σ σ' : Store Scalar} {τ τ' : Store α}
  {p : Param} {aux : Annotations} {e : Exp} {new : List Stm} {rules : Rules}

theorem companion_withTangent (u : DiffState) (p : Param) :
    (Forward.withTangents u [p]).companions.find? p.name = some ⟨u.builder.supply.next⟩ := by
  obtain ⟨q, mem, found⟩ := Forward.companion_withTangents_of_mem u (List.mem_singleton_self p)
  obtain rfl := List.mem_singleton.mp mem
  exact found

/-- The state after a statement and the tangent of its value were emitted. -/
theorem paired_serves (serves : Serves bound decl scope still u) (declared : Declared decl [p])
    (small : p.name.id < bound) (fresh : p.name ∉ scope) (typed : u.builder.types.find? p.name = some (decl p.name))
    {d : Builder} (next_le : u.builder.supply.next + 1 ≤ d.supply.next)
    (types : ∀ x, x.id < bound → d.types.find? x = (Forward.withTangents u [p]).builder.types.find? x) :
    Serves bound decl ((paramOutline [p]).after scope) still ⟨d, (Forward.withTangents u [p]).companions⟩ := by
  have reserved := serves.reserved
  have old (x : Name) (below : x.id < bound) : d.types.find? x = u.builder.types.find? x :=
    (types x below).trans (Forward.type_withTangents_of_lt u [p] (Nat.lt_of_lt_of_le below reserved))
  refine serves.enter (by simpa using small) (fun q mem => ?_) (Nat.le_of_succ_le next_le)
    (fun q mem => ?_) (fun x mem => old x (serves.small x mem)) (fun x mem => ?_) (fun q mem c found => ?_)
    (fun q mem none => ?_) (fun _ mem => mem) fun _ mem => .inl mem
  · rw [(declared q mem).1]
    exact (declared q mem).2
  all_goals try obtain rfl := List.mem_singleton.mp mem
  · exact (old _ small).trans typed
  · exact Forward.companion_withTangents_of_not_mem u fun q inPat same => by
      obtain rfl := List.mem_singleton.mp inPat
      exact fresh (same ▸ mem)
  · obtain rfl := Option.some.inj ((companion_withTangent u q).symm.trans found)
    exact ⟨reserved, next_le⟩
  · exact absurd ((companion_withTangent u q).symm.trans none) (by simp)

/-- A statement, what was asked for after it, and the tangent of its value. -/
theorem paired_passes {pads : List Stm} (serves : Serves bound decl scope still u)
    (fresh : p.name ∉ scope) (passes : Passes bound scope [] (Forward.added ⟨[p], aux, e⟩ s) pads u)
    {d : Builder} (emitted : d.stms = u.builder.stms ++ new) (next_le : u.builder.supply.next + 1 ≤ d.supply.next)
    (types : ∀ x, x.id < bound → d.types.find? x = (Forward.withTangents u [p]).builder.types.find? x) :
    Passes bound scope [p.name] s ([⟨[p], aux, e⟩] ++ pads ++ new) ⟨d, (Forward.withTangents u [p]).companions⟩ := by
  have first : Passes bound scope [p.name] s [⟨[p], aux, e⟩] (Forward.added ⟨[p], aux, e⟩ s) :=
    passes_added (by simp) s
  have drawn : Passes bound scope [p.name] u [] (Forward.withTangents u [p]) :=
    passes_withTangents u serves.reserved (by simpa using fresh)
  have last : Passes bound scope [p.name] (Forward.withTangents u [p]) new
      ⟨d, (Forward.withTangents u [p]).companions⟩ := {
    emitted := emitted
    next_le := next_le
    types := fun x below _ => types x below
    free := fun _ _ _ => rfl
    kept := fun _ _ _ found => found
    fresh := fun _ _ _ found => .inl found }
  exact (first.trans (passes.mono (by simp)) (fun _ mem => mem) fun _ mem => .inl mem).trans
    (drawn.trans last (fun _ mem => mem) fun _ mem => .inl mem) (fun _ mem => mem) fun _ mem => .inl mem

/-- The stores once the value was bound to its name, and its tangent to the next name that is drawn. -/
theorem paired_enters (serves : Serves bound decl scope still u) (small : p.name.id < bound) (fresh : p.name ∉ scope)
    {w : Value Dual} (primal : σ'.vars.find? p.name = some (w.map Dual.primal))
    (tangent : σ'.vars.find? ⟨u.builder.supply.next⟩ = some (w.map Dual.tangent))
    (accord : Accord f scope still u.companions σ' τ) (source : Source bound f σ τ) (reserved : bound ≤ m)
    (agree : σ.Agree (fun x => x ≠ p.name ∧ (x.id < m ∨ n ≤ x.id)) σ') :
    Accord f ((paramOutline [p]).after scope) still (Forward.withTangents u [p]).companions σ'
        (τ.bound [p.name] [w.map f]) ∧ Source bound f σ' (τ.bound [p.name] [w.map f]) := by
  have bearing : Bears f σ' (τ.bound [p.name] [w.map f]) ⟨p.name, some ⟨u.builder.supply.next⟩⟩ w := {
    primal := primal
    seen := τ.find_bound_single ..
    tangent := fun c same => Option.some.inj same ▸ tangent
    still := by simp }
  have binds : Binds f [⟨p.name, some ⟨u.builder.supply.next⟩⟩] [w] σ' τ σ' (τ.bound [p.name] [w.map f]) :=
    ⟨.cons bearing .nil, .refl _ σ', .bound τ _ (by simp [Foreign])⟩
  constructor
  · refine binds.enter_accord serves accord (by simpa using ⟨small, fresh⟩) (by simpa using serves.reserved)
      (fun x mem => ?_) (fun x isStill => .inl isStill) (fun x known c found => ?_) fun b mem c found => ?_
    · simpa [mem_after_paramOutline] using mem
    · have other : ∀ q ∈ [p], q.name ≠ x := by
        simp only [List.forall_mem_singleton]
        rintro rfl
        exact fresh known
      rw [Forward.companion_withTangents_of_not_mem u other] at found
      obtain ⟨large, below⟩ := serves.drawn x known c found
      refine ⟨found, large, fun b mem same => ?_⟩
      obtain rfl := List.mem_singleton.mp mem
      obtain rfl := Option.some.inj same
      exact Nat.lt_irrefl _ below
    · obtain rfl := List.mem_singleton.mp mem
      exact (companion_withTangent u p).symm.trans found
  · refine binds.source (by simpa using small) (by simpa using serves.reserved) fun x v foreign found => ?_
    have other : x ≠ p.name := fun same => foreign _ (List.mem_singleton_self _) same.symm
    obtain ⟨below, w', reads'⟩ := source x v found
    refine ⟨below, w', reads'.agree agree (.refl (fun _ => True) τ) ?_ fun _ _ => trivial⟩
    simp only [Operand.names, List.mem_singleton, forall_eq]
    exact ⟨other, .inl (Nat.lt_of_lt_of_le below reserved)⟩

/-- A statement is emitted as it is, and after it what binds the tangent of its value. -/
theorem paired_emits (view : View f) (serves : Serves bound decl scope still s) (declared : Declared decl [p])
    (awaits : Awaits bound scope s (Stm.outline ⟨[p], aux, e⟩)) (flat : (e.outline 1).binders = [])
    (asks : Asks f bound decl scope still [] (Stm.uses ⟨[p], aux, e⟩) (Forward.added ⟨[p], aux, e⟩ s) u
      fun _ _ => True) {d : Builder} (emitted : d.stms = u.builder.stms ++ new)
    (next_le : u.builder.supply.next + 1 ≤ d.supply.next)
    (types : ∀ x, x.id < bound → d.types.find? x = (Forward.withTangents u [p]).builder.types.find? x)
    (reads : ∀ fuel keep, Mimics keep scope scope (exp (runBody fuel) fuel e : Run Scalar (List Value))
      (exp (runBody fuel) fuel e))
    (follows : ∀ fuel run σ σ' σ'' (τ : Store α) vs, Accord f scope still u.companions σ τ →
      Ends (exp (runBody fuel) fuel e) σ vs σ'' → Ends (stms fuel new) σ () σ' →
        σ.Agree (fun x => x.id < u.builder.supply.next ∨ d.supply.next ≤ x.id) σ' ∧
          ∃ w : Value Dual, vs = [w.map Dual.primal] ∧
            σ'.vars.find? ⟨u.builder.supply.next⟩ = some (w.map Dual.tangent) ∧
            Ends (exp run fuel e) τ [w.map f] τ) :
    Emits f bound decl scope still (Stm.outline ⟨[p], aux, e⟩).binders s
      (fun stop fuel => guardedStm decl ⟨[p], aux, e⟩ stop fuel) ((Stm.outline ⟨[p], aux, e⟩).after scope) still
      ⟨d, (Forward.withTangents u [p]).companions⟩ := by
  obtain ⟨-, pattern, -, -⟩ := awaits.stm
  obtain ⟨small, fresh, unclaimed, -⟩ := pattern.params
  simp only [List.forall_mem_singleton] at small fresh unclaimed
  have binders : (Stm.outline ⟨[p], aux, e⟩).binders = [p.name] := by
    rw [binders_stm]
    simp [flat, paramOutline, Param.outline]
  have uses := Stm.uses_known awaits.accepted
  have reserved := serves.reserved
  obtain ⟨pads, passes, runs⟩ := asks.emits
  have le := passes.next_le
  rw [next_added] at le
  have typed : u.builder.types.find? p.name = some (decl p.name) := by
    rw [passes.types _ small (by simp), Forward.added, Build.add_apply]
    refine find_declared_type s.builder.types (List.mem_singleton_self p) fun r mem _ => ?_
    obtain rfl := List.mem_singleton.mp mem
    exact (declared _ mem).1.symm
  rw [after_stm, binders]
  refine ⟨paired_serves asks.serves declared small fresh typed next_le types,
    [⟨[p], aux, e⟩] ++ pads ++ new, paired_passes asks.serves fresh passes emitted next_le types,
    fun stop fuel σ τ accord source => ?_⟩
  have apart (x : Name) (known : x ∈ scope) : x ≠ p.name := by
    rintro rfl
    exact fresh known
  rw [stms_append, stms_append, stms_singleton, bind_assoc]
  refine .guarded fun typed => fun _ σ₄ ends => ?_
  simp only [ends_bind, exists_unit, ends_stm] at ends
  obtain ⟨_, ⟨vs, σ₁, applied, count, rfl⟩, σ₂, asked, last⟩ := ends
  have unchanged := agree_of_mimics (reads fuel) applied
  -- after the statement itself only its binder has a new value
  have agree₁ : σ.Agree (· ≠ p.name) (σ₁.bound [p.name] vs) :=
    (unchanged.mono fun _ _ => trivial).trans (.bound σ₁ vs (by simp))
  have settled : ∀ x ∈ Stm.uses ⟨[p], aux, e⟩, Settled decl s.builder.supply.next (σ₁.bound [p.name] vs) x := by
    intro x read
    refine (source.settled view (typed x read).1 reserved).agree agree₁ (fun y mem => ?_) (Nat.le_refl _)
    rcases List.mem_cons.mp mem with rfl | mem
    · exact apart y (uses y read)
    · rintro rfl
      exact (typed x read).2 _ mem (by rw [binders]; simp)
  have accord₁ : Accord f scope still s.companions (σ₁.bound [p.name] vs) τ :=
    accord.agree agree₁ (.refl (fun _ => True) τ) apart (fun _ _ => trivial) fun x mem c found => by
      rintro rfl
      have := (serves.drawn x mem _ found).1
      omega
  simp only [next_added] at runs
  obtain ⟨accord₂, agree₂, -⟩ := runs fuel _ σ₂ τ accord₁ settled asked
  have inScope : σ.Agree (· ∈ scope) σ₂ := (agree₁.mono apart).trans (agree₂.mono fun x known =>
    .inl (Nat.lt_of_lt_of_le (serves.small x known) reserved))
  obtain ⟨-, σ₃, again, -⟩ := (reads fuel [] σ σ₂ inScope).ends vs σ₁ applied
  obtain ⟨agree₃, w, rfl, tangent, seen⟩ := follows fuel (guardedBody (keepTypes decl stop) fuel) σ₂ σ₄ σ₃ τ vs accord₂
    again last
  have accord₄ : Accord f scope still u.companions σ₄ τ := accord₂.agree agree₃ (.refl (fun _ => True) τ)
    (fun x known => .inl (Nat.lt_of_lt_of_le (asks.serves.small x known) asks.serves.reserved)) (fun _ _ => trivial)
    fun x known c found => .inl (asks.serves.drawn x known c found).2
  have agree : σ.Agree (fun x => x ≠ p.name ∧ (x.id < s.builder.supply.next ∨ d.supply.next ≤ x.id)) σ₄ :=
    ((agree₁.mono fun x outside => outside.1).trans (agree₂.mono fun x outside => by omega)).trans
      (agree₃.mono fun x outside => by omega)
  have primal : σ₄.vars.find? p.name = some (w.map Dual.primal) := by
    have small' : p.name.id < s.builder.supply.next := Nat.lt_of_lt_of_le small reserved
    calc σ₄.vars.find? p.name
        = σ₂.vars.find? p.name := agree₃ p.name (.inl (by omega))
      _ = (σ₁.bound [p.name] [w.map Dual.primal]).vars.find? p.name := agree₂ p.name (.inl small')
      _ = some (w.map Dual.primal) := σ₁.find_bound_single ..
  obtain ⟨accord₅, source₅⟩ := paired_enters asks.serves small fresh primal tangent accord₄ source reserved agree
  exact reaches_of_ends (ends_stm_of_exp seen rfl) ⟨accord₅, agree.mono (by simp), .bound τ _ (by simp), source₅⟩

/-! Operations. -/

theorem flat_basic (op : BasicOp) (arity : Nat) :
    ((Exp.basic op).outline arity).binders = [] ∧ ∀ y ∈ op.names, y ∈ ((Exp.basic op).outline arity).uses := by
  simp +contextual [Exp.outline, BasicOp.outline]

/-- What an operation reads is in scope, and is looked at before the statement runs. -/
theorem Awaits.operation {pat : List Param} {op : BasicOp}
    (awaits : Awaits bound scope s (Stm.outline ⟨pat, aux, .basic op⟩)) :
    (∀ y ∈ op.names, y ∈ scope) ∧ ∀ y ∈ op.names, y ∈ Stm.uses ⟨pat, aux, .basic op⟩ := by
  have known : ∀ y ∈ op.names, y ∈ scope := by
    obtain ⟨inside, -, -, -⟩ := awaits.stm
    rw [Exp.outline, BasicOp.outline] at inside
    exact (Awaits.first (Awaits.first inside)).reads
  refine ⟨known, fun y mem => Stm.mem_uses awaits.accepted ?_ (known y mem)⟩
  simp [Stm.outline, (flat_basic op pat.length).2 y mem]

/-- An operation whose value does not change is emitted as it is. -/
theorem constant_stands (view : View f) {pat : List Param} (declared : Declared decl pat) {op : BasicOp}
    (constant : Forward.isConstant op = true) :
    Stands f bound decl (Forward.basicOp rules ⟨pat, aux, .basic op⟩ op) ⟨pat, aux, .basic op⟩ := by
  intro scope still s t serves awaits gives
  obtain ⟨-, pattern, -, binders⟩ := awaits.stm
  obtain ⟨small, fresh, unclaimed, distinct⟩ := pattern.params
  have known := awaits.operation.1
  have reserved := serves.reserved
  obtain rfl : Forward.added ⟨pat, aux, .basic op⟩ s = t := by
    simpa [Forward.basicOp, constant, Forward.added] using gives
  have patNames (p : Param) (mem : p ∈ pat) : p.name ∈ (Stm.outline ⟨pat, aux, .basic op⟩).binders :=
    (binders _).mpr (.inr ⟨p, mem, rfl⟩)
  rw [after_stm]
  refine ⟨pat.map (·.name) ++ still, serves_added serves declared small fresh (fun _ mem => .inl mem)
      (fun _ mem => mem) (fun p mem c found => absurd (found.symm.trans (unclaimed p mem)) (by simp))
      (fun p mem _ => List.mem_append_left _ (List.mem_map_of_mem mem)) (fun x mem => List.mem_append_right _ mem)
      (fun x mem => (List.mem_append.mp mem).symm.imp_right List.mem_map.mp),
    [⟨pat, aux, .basic op⟩], passes_added (fun p mem => .inl (patNames p mem)) s,
    fun stop fuel σ τ accord source => ?_⟩
  rw [stms_singleton]
  refine .guarded fun _ => shadows_of_ends fun _ σ' ends => ?_
  obtain ⟨vs, σ₁, applied, count, rfl⟩ := (ends_stm ..).mp ends
  simp only [exp, ends_bind, ends_pure] at applied
  obtain ⟨v, σ₁, applied, rfl, rfl⟩ := applied
  obtain ⟨rfl, d, rfl, calm, seen⟩ := basicOp_still view constant (accord.known known) applied
    (guardedBody (keepTypes decl stop) fuel)
  have count : [d].length = (pat.map (·.name)).length := by simpa using count
  have binds : Binds f (Binder.calm (pat.map (·.name))) [d] σ₁ τ (σ₁.bound (pat.map (·.name)) (primals [d]))
      (τ.bound (pat.map (·.name)) ([d].map (Value.map f))) :=
    binds_calm count distinct (by simpa using calm) σ₁ τ
  have came : Ends (exp (guardedBody (keepTypes decl stop) fuel) fuel (.basic op)) τ [d.map f] τ :=
    (ends_bind ..).mpr ⟨_, τ, seen, (ends_pure ..).mpr ⟨rfl, rfl⟩⟩
  refine ⟨(), _, ends_stm_of_exp came (by simpa using count), ?_⟩
  refine binds.enter serves accord source (fun b mem => ?_) (fun b mem c same => ?_) (fun x mem => ?_)
    (fun x isStill => ?_) (fun x mem c found => ?_) fun b mem c found => ?_
  · obtain ⟨p, inPat, name⟩ := List.mem_map.mp (mem_calm mem).1
    rw [← name]
    exact ⟨patNames p inPat, small p inPat, fresh p inPat⟩
  · simp [(mem_calm mem).2] at same
  · refine ((mem_after_paramOutline ..).mp mem).imp_right fun ⟨p, inPat, name⟩ => ⟨⟨x, none⟩, ?_, rfl⟩
    exact List.mem_map_of_mem (List.mem_map.mpr ⟨p, inPat, name⟩)
  · refine (List.mem_append.mp isStill).symm.imp_right fun isName => ?_
    obtain ⟨p, inPat, rfl⟩ := List.mem_map.mp isName
    exact ⟨fresh p inPat, fun b mem _ => (mem_calm mem).2⟩
  · exact ⟨found, (serves.drawn x mem c found).1, fun b inBs same => by simp [(mem_calm inBs).2] at same⟩
  · obtain ⟨p, inPat, name⟩ := List.mem_map.mp (mem_calm mem).1
    exact absurd (found.symm.trans (name ▸ unclaimed p inPat)) (by simp)

omit [ScalarAlgebra α] in
/-- Only fresh names are declared behind an operation. -/
theorem Derived.declares {tans : NameTable Name} {op : BasicOp} {act : Build Exp}
    (derived : Derived rules tans op act) (tan : Param) (aux : Annotations) (n : Nat) :
    Build.Declares (· = tan.name) n (do Build.add ⟨[tan], aux, ← act⟩) fun _ => True := by
  have add (e : Exp) : Build.Declares (· = tan.name) n (Build.add ⟨[tan], aux, e⟩) fun _ => True :=
    Build.declares_add (by simp)
  cases derived with
  | copied => exact (Build.declares_pure (P := fun _ => True) trivial).bind fun e _ => add e
  | unary => exact (Build.declares_expOf _).bind fun e _ => add e
  | binary => exact (Build.declares_expOf _).bind fun e _ => add e

/-- What is in scope is served after a statement was emitted as it is. -/
theorem Serves.emitted {pat : List Param} (serves : Serves bound decl scope still s)
    (awaits : Awaits bound scope s (Stm.outline ⟨pat, aux, e⟩)) :
    Serves bound decl scope still (Forward.added ⟨pat, aux, e⟩ s) := by
  obtain ⟨-, pattern, -, -⟩ := awaits.stm
  have binders : ∀ p ∈ pat, p.name ∈ pat.map (·.name) ∨ bound ≤ p.name.id := fun p mem =>
    .inl (List.mem_map_of_mem mem)
  have passes : Passes bound scope (pat.map (·.name)) s [⟨pat, aux, e⟩] (Forward.added ⟨pat, aux, e⟩ s) :=
    passes_added binders s
  refine serves.passes passes (fun x known isName => ?_) fun x known c found => ?_
  · obtain ⟨p, mem, rfl⟩ := List.mem_map.mp isName
    exact pattern.params.2.1 p mem known
  · rw [next_added]
    exact (serves.drawn x known c found).2

/-- Any other operation is emitted with what computes its tangent. -/
theorem basicOp_stands (view : View f) {pat : List Param} (declared : Declared decl pat) {op : BasicOp}
    (moving : Forward.isConstant op = false) (alone : (Exp.basic op).accumulates = false)
    (traces : Traces rules f op.Exact) :
    Stands f bound decl (Forward.basicOp rules ⟨pat, aux, .basic op⟩ op) ⟨pat, aux, .basic op⟩ := by
  intro scope still s t serves awaits gives
  simp only [Forward.basicOp, moving, Bool.not_false, if_true, gives_bind, gives_single] at gives
  obtain ⟨_, _, added, p, _, ⟨rfl, rfl⟩, act, u, derived, tan, _, drawn, emitted⟩ := gives
  obtain rfl := ((gives_build ..).mp added).2
  obtain ⟨rfl, rfl⟩ := (gives_of_outcome (Forward.gives_newTangent (declared p (by simp)).2 u) ..).mp drawn
  obtain rfl := ((gives_build ..).mp emitted).2
  obtain ⟨known, read⟩ := awaits.operation
  obtain ⟨asks, derives⟩ := tangentExp_asks (f := f) (serves.emitted awaits) _ known read derived
  obtain ⟨next_le, kept⟩ := (derives.declares ⟨⟨u.builder.supply.next⟩, p.ty⟩ aux
    (Forward.withTangents u [p]).builder.supply.next _ (Nat.le_refl _)).1
  obtain ⟨new, stms, follows⟩ := derives.follows (b := u.builder) (d := (Forward.withTangents u [p]).builder)
    rfl rfl p.ty aux view traces known fun y mem => ⟨Nat.lt_of_lt_of_le (asks.serves.small y mem) asks.serves.reserved,
      fun c found => (asks.serves.drawn y mem c found).2⟩
  refine ⟨still, paired_emits view serves declared awaits (flat_basic op 1).1 asks stms next_le
    (fun x below => kept x ?_ ?_) (fun fuel keep => ?_) fun fuel run σ σ' σ'' τ vs accord applied last => ?_⟩
  · exact Nat.lt_of_lt_of_le below (Nat.le_trans asks.serves.reserved (Nat.le_add_right _ _))
  · rintro rfl
    exact absurd below (Nat.not_lt.mpr asks.serves.reserved)
  · exact (mimics_basicOp known alone _ _).bind fun v => mimics_pure _
  · simp only [exp, ends_bind, ends_pure] at applied
    obtain ⟨v, _, applied, rfl, rfl⟩ := applied
    obtain ⟨agree, w, rfl, tangent, seen⟩ := follows fuel σ σ' _ τ v _ run accord applied last
    exact ⟨agree, w, rfl, tangent, (ends_bind ..).mpr ⟨_, τ, seen, (ends_pure ..).mpr ⟨rfl, rfl⟩⟩⟩

/-! Calls. -/

/-- The sum of the terms of a tangent is not a name. -/
theorem sum_composite {terms : List Formula} (composite : ∀ g ∈ terms, ∀ x t, g ≠ .leaf x t) (ret : ScalarType) :
    ∀ x t, (match terms with
      | [] => Formula.zero ret
      | g :: gs => gs.foldl Formula.add g) ≠ .leaf x t := by
  have grows (gs : List Formula) {g : Formula} (here : ∀ x t, g ≠ .leaf x t) :
      ∀ x t, gs.foldl Formula.add g ≠ .leaf x t := by
    induction gs generalizing g with
    | nil => exact here
    | cons h gs ih => exact ih nofun
  cases terms with
  | nil => exact nofun
  | cons g gs => exact grows gs (composite g (by simp))

/-- A call of a function is seen by views without tangents. -/
theorem apply_stands (view : View f) (plain : Plain f) {pat : List Param} (declared : Declared decl pat)
    {func : String} {args : List Operand} {ret : List Ty} :
    Stands f bound decl (Forward.apply rules ⟨pat, aux, .apply func args ret⟩ func args)
      ⟨pat, aux, .apply func args ret⟩ := by
  intro scope still s t serves awaits gives
  simp only [Forward.apply, gives_bind, gives_single, gives_signature, gives_partials] at gives
  obtain ⟨sig, _, ⟨-, rfl⟩, p, _, ⟨rfl, rfl⟩, _, _, added, ds, _, ⟨-, rfl⟩, terms, u, multiplied, tan, _, drawn,
    emitted⟩ := gives
  obtain rfl := ((gives_build ..).mp added).2
  obtain ⟨rfl, rfl⟩ := (gives_of_outcome (Forward.gives_newTangent (declared p (by simp)).2 u) ..).mp drawn
  obtain rfl := ((gives_build ..).mp emitted).2
  have flat : ((Exp.apply func args ret).outline 1).binders = [] := by simp [Exp.outline]
  have known : ∀ y ∈ operandNames args, y ∈ scope := by
    obtain ⟨inside, -, -, -⟩ := awaits.stm
    rw [Exp.outline] at inside
    exact (Awaits.first (Awaits.first inside)).reads
  have read (y : Name) (mem : y ∈ operandNames args) : y ∈ Stm.uses ⟨[p], aux, .apply func args ret⟩ :=
    Stm.mem_uses awaits.accepted (by simp [Stm.outline, Exp.outline, mem]) (known y mem)
  have inArgs (y : Name) (mem : y ∈ ((sig.1.zip args).zip ds).flatMap fun a => a.1.2.names) :
      y ∈ operandNames args := by
    obtain ⟨a, inZip, inNames⟩ := List.mem_flatMap.mp mem
    exact List.mem_flatMap.mpr ⟨a.1.2, (List.of_mem_zip (List.of_mem_zip inZip).1).2, inNames⟩
  obtain ⟨asks, products⟩ := mapM_asks (f := f) [] (fun a : (ScalarType × Operand) × Formula => a.1.2.names)
    (fun _ _ (g : Formula) => ∀ x t, g ≠ .leaf x t) (fun _ composite => composite)
    (fun a g s t serves known read gives => by
      simp only [gives_bind, gives_pure] at gives
      obtain ⟨dx, _, asked, rfl, rfl⟩ := gives
      refine ⟨(tangent_asks [] serves known read asked).1, fun x t same => ?_⟩
      cases same)
    (serves.emitted awaits) (fun y mem => known y (inArgs y mem)) (fun y mem => read y (inArgs y mem)) multiplied
  have composite : ∀ g ∈ terms, ∀ x t, g ≠ .leaf x t := fun g mem => by
    obtain ⟨a, -, holds⟩ := exists_of_forall₂ products mem
    exact holds
  obtain ⟨next_le, kept⟩ := (Build.declares_bindFormula (n := (Forward.withTangents u [p]).builder.supply.next)
    (p := ⟨⟨u.builder.supply.next⟩, p.ty⟩) (.inl rfl) aux _ _ (Nat.le_refl _)).1
  obtain ⟨new, stms, binds⟩ := bindFormula_emits (b := u.builder) (d := (Forward.withTangents u [p]).builder) rfl rfl
    p.ty aux (sum_composite composite sig.2)
  refine ⟨still, paired_emits view serves declared awaits flat asks stms next_le
    (fun x below => kept x ?_ ?_) (fun fuel keep => ?_) fun fuel run σ σ' σ'' τ vs accord applied last => ?_⟩
  · exact Nat.lt_of_lt_of_le below (Nat.le_trans asks.serves.reserved (Nat.le_add_right _ _))
  · rintro rfl
    exact absurd below (Nat.not_lt.mpr asks.serves.reserved)
  · exact (mimics_each fun x mem => mimics_scalar fun y inX => known y (mem_operandNames mem inX)).bind fun as =>
      (mimics_lift _).bind fun r => mimics_pure _
  · simp only [exp, ends_bind, ends_lift, ends_pure] at applied ⊢
    obtain ⟨as, _, readArgs, r, _, ⟨called, rfl⟩, rfl, rfl⟩ := applied
    obtain ⟨rfl, es, rfl, seen⟩ := (accord.known known).scalars view readArgs
    obtain ⟨agree, v, tangent, -⟩ := binds fuel _ σ' last
    exact ⟨agree, .scalar ⟨r, v⟩, rfl, tangent, _, τ, seen, _, τ, ⟨plain.call func es r v called, rfl⟩, rfl, rfl⟩

end

end Tandem

end Cotangent
