import Cotangent.Proofs.Derivative.AdjointSweep
import Cotangent.Proofs.Derivative.CopyAdjoints
/-!
The backward sweep over copy code. Going back over a statement passes the adjoints of what it binds on to
what they are copies of, so what the copies of a parameter add up to stays the same until it is all in the
adjoint of the parameter.
-/
namespace Cotangent

open Outline Run

namespace Reverse

open Diff

variable {sizes : List Name} {s t u : DiffState} {scope wide middle later inner : Scope} {A : Account}
  {o o' : Origins} {σ τ υ : Store Scalar}

/-! Patterns. -/

/-- The origins of names in scope are all that the books are about. -/
theorem Books.rebase (books : Books A sizes s σ o' inner) (kept : ∀ x ∈ inner, o'.find? x = o.find? x) :
    Books A sizes s σ o inner where
  sizes := books.sizes
  copies x known := have ⟨src, is, copies⟩ := books.copies x known; ⟨src, (kept x known).symm.trans is, copies⟩
  adjoints x known src c is := books.adjoints x known src c ((kept x known).trans is)

/-- What adjoints amount to, as adjoints for copies of the operands. -/
def worth (A : Account) (σ : Store Scalar) (srcs : List Operand) (cs : List Name) :
    List Nat → ZMod A.width.modulus :=
  ((srcs.zip cs).map fun r => if r.1 = .var A.param then σ.entries A.width r.2 else 0).sum

/-- What a pattern binds comes on top of what was in scope before. -/
theorem balance_pattern {ps : List Param} {srcs : List Operand} (length : srcs.length = ps.length)
    (accepted : (paramOutline ps).Accepted inner) :
    balance A s σ (o.insertAll ((ps.map (·.name)).zip srcs)) ((paramOutline ps).after inner) =
      balance A s σ o inner +
        ((ps.zip srcs).map fun r => if r.2 = .var A.param then share A s σ r.1.name else 0).sum := by
  induction ps generalizing inner o srcs with
  | nil => simp [paramOutline, NameTable.insertAll]
  | cons p ps ih =>
    obtain ⟨src, srcs, rfl⟩ := List.exists_cons_of_length_eq_add_one length
    simp only [paramOutline, Param.outline, accepted_append, after_append, Accepted, after,
      after_mentionsAll] at accepted ⊢
    have fresh : p.name ∉ inner.toFinset := by simpa using accepted.1.1
    have others : balance A s σ (o.insert p.name src) inner = balance A s σ o inner :=
      Finset.sum_congr rfl fun x mem => by
        have other : x ≠ p.name := fun same => fresh (same ▸ mem)
        simp [counted, NameTable.find_insert, other]
    have here : counted A s σ (o.insert p.name src) p.name =
        if src = .var A.param then share A s σ p.name else 0 := by
      simp [counted, NameTable.find_insert]
    rw [List.map_cons, List.zip_cons_cons, NameTable.insertAll_cons,
      ih (by simpa using length) accepted.2, balance, List.toFinset_cons, Finset.sum_insert fresh, here,
      ← balance, others, List.zip_cons_cons, List.map_cons, List.sum_cons, add_assoc, add_left_comm]

theorem worth_of_records {ps : List Param} {cs : List Name} {srcs : List Operand}
    (records : List.Forall₂ (fun p c => s.companions.find? p.name = some c) ps cs) :
    ((ps.zip srcs).map fun r => if r.2 = .var A.param then share A s σ r.1.name else 0).sum =
      worth A σ srcs cs := by
  rw [worth]
  induction records generalizing srcs with
  | nil => simp
  | cons here rest ih =>
    cases srcs with
    | nil => simp
    | cons src srcs =>
      rw [List.zip_cons_cons, List.zip_cons_cons, List.map_cons, List.map_cons, List.sum_cons, List.sum_cons,
        ih, share_of_companion here]

/-! Statements. -/

/-- What a statement of copy code may rely on where the sweep comes back to it. -/
structure Revisited (sizes : List Name) (stm : Stm) (s : DiffState) (scope wide inner : Scope) : Prop where
  code : stm.CopyCode sizes
  sub : ∀ x ∈ wide, x ∈ scope
  known : ∀ x ∈ sizes, x ∈ wide
  closed : stm.outline.Closed wide
  inside : ∀ x ∈ inner, x ∈ wide
  narrow : stm.outline.Closed inner
  typed : Typed s ((paramOutline stm.pat).after inner)
  pattern : ∀ p ∈ stm.pat, p.name ∈ scope

/-- Runs of what was emitted take the books after the statement to those before it. -/
def Settles (sizes : List Name) (stm : Stm) (s : DiffState) (scope : Scope) (t : DiffState)
    (inner : Scope) : Prop :=
  ∀ A o o' σ, stm.origins? A.inputs o = some o' →
    Books A sizes s σ o' ((paramOutline stm.pat).after inner) →
    ∃ τ, RunsTo s scope t σ τ ∧ Books A sizes t τ o inner ∧
      balance A t τ o inner = balance A s σ o' ((paramOutline stm.pat).after inner)

/-- Going back over a statement passes the adjoints of what it binds on to what they are copies of. -/
def PassesOn (sizes : List Name) (back : Stm → Diff Unit) (depth : Nat) : Prop :=
  ∀ stm s scope wide inner, Fit sizes s scope → Revisited sizes stm s scope wide inner →
    stm.branchDepth ≤ depth →
    ∃ t later, Gives (back stm) s () t ∧ Advances sizes s scope t later ∧ Settles sizes stm s scope t inner

theorem Revisited.after_sub {stm : Stm} (placed : Revisited sizes stm s scope wide inner) :
    ∀ x ∈ (paramOutline stm.pat).after inner, x ∈ scope := by
  intro x known
  rcases (mem_after_paramOutline ..).mp known with known | ⟨p, mem, rfl⟩
  · exact placed.sub x (placed.inside x known)
  · exact placed.pattern p mem

/-- Names that a pattern does not bind keep their origins. -/
theorem origins_kept {pat : List Param} {srcs : List Operand} (accepted : (paramOutline pat).Accepted inner) :
    ∀ x ∈ inner, (o.insertAll ((pat.map (·.name)).zip srcs)).find? x = o.find? x := by
  intro x known
  refine NameTable.find_insertAll_of_not_mem _ _ _ fun r mem same => ?_
  obtain ⟨p, inPat, here⟩ := List.mem_map.mp (List.of_mem_zip mem).1
  exact Builder.not_mem_of_params accepted inPat (here.trans same ▸ known)

/-- Copies pass their adjoint on. -/
theorem operand_passesOn {pat : List Param} {aux : Annotations} {x : Operand} (fit : Fit sizes s scope)
    (placed : Revisited sizes ⟨pat, aux, .basic (.operand x)⟩ s scope wide inner) :
    ∃ t later, Gives (basicOp .standard ⟨pat, aux, .basic (.operand x)⟩ (.operand x)) s () t ∧
      Advances sizes s scope t later ∧ Settles sizes ⟨pat, aux, .basic (.operand x)⟩ s scope t inner := by
  obtain ⟨-, closedExp, closedPat⟩ := (closed_stm _ _).mp placed.narrow
  simp only [Exp.outline, BasicOp.outline, closed_append, closed_count, closed_readsAll] at closedExp
  obtain ⟨⟨reads, -⟩, alone, -⟩ := closedExp
  obtain ⟨p, rfl⟩ := List.length_eq_one_iff.mp alone
  have sub := placed.after_sub
  have inScope : ∀ x ∈ inner, x ∈ scope := fun x known => sub x (mem_after _ known)
  have kept {o : Origins} {src : Operand} :
      ∀ x ∈ inner, (o.insertAll ([p.name].zip [src])).find? x = o.find? x :=
    origins_kept closedPat.1
  have assigned {A : Account} {o o' : Origins}
      (are : Stm.origins? A.inputs o ⟨[p], aux, .basic (.operand x)⟩ = some o') :
      ∃ src, x.origin? o = some src ∧ o' = o.insertAll ([p.name].zip [src]) := by
    simp only [Stm.origins?, Exp.origins?, BasicOp.origins?] at are
    split at are
    · rename_i srcs known
      obtain ⟨src, is, rfl⟩ := Option.map_eq_some_iff.mp known
      exact ⟨src, is, (Origins.assign_iff.mp are).2.symm⟩
    · cases are
  cases x with
  | const v =>
    refine ⟨s, scope, .pure () s, fit.refl, fun A o o' σ are books => ⟨σ, runsTo_of_stms rfl, ?_⟩⟩
    obtain ⟨src, is, rfl⟩ := assigned are
    obtain rfl := Option.some.inj is
    refine ⟨(books.mono fun x known => mem_after _ known).rebase kept, ?_⟩
    have same : [Operand.const v].length = [p].length := rfl
    exact .trans (by simp) (balance_pattern same closedPat.1).symm
  | var x =>
    have inside : p.name ∈ (paramOutline [p]).after inner :=
      (mem_after_paramOutline ..).mpr (.inr ⟨p, by simp, rfl⟩)
    obtain ⟨c, u, middle, gives, quiet⟩ := companion_works fit sub placed.typed inside
    have found := (companion_recorded gives).1
    have wider {x : Name} (mem : x ∈ scope) : x ∈ middle := quiet.advances.extends_.sub mem
    obtain ⟨t, later, gives', gains⟩ := contributeTo_works (quiet.advances.fit fit)
      (fun x mem => wider (inScope x mem))
      (quiet.advances.typed (fun x known => placed.typed x (mem_after _ known)) inScope) (x := .var x) (d := c)
      reads (quiet.advances.extends_.companion_mem p.name trivial c found)
    refine ⟨t, later, ?_, quiet.advances.trans gains.advances, fun A o o' σ are books => ?_⟩
    · simp only [basicOp, gives_bind, gives_single]
      exact ⟨p, s, ⟨rfl, rfl⟩, c, u, gives, gives'⟩
    · obtain ⟨src, is, rfl⟩ := assigned are
      obtain ⟨τ, ran, books, balanced⟩ := quiet.run A _ σ books trivial
      have here : (o.insertAll ([p.name].zip [src])).find? p.name = some src := by
        simp [NameTable.insertAll, NameTable.find_insert]
      obtain ⟨υ, ran', books', balanced'⟩ := gains.run A o τ
        ((books.mono fun x known => mem_after _ known).rebase kept) fun src' is' => by
          obtain rfl := Option.some.inj (is.symm.trans is')
          exact books.adjoints p.name inside src c here found
      refine ⟨υ, ran.trans ran' fun _ => wider, books', ?_⟩
      have same : [src].length = [p].length := rfl
      have pattern := balance_pattern (A := A) (s := u) (σ := τ) (o := o) same closedPat.1
      rw [balanced', ← add_zero (balance A s σ _ _), ← balanced]
      refine .trans ?_ pattern.symm
      simp [Account.credit, is, share_of_companion found]

/-- The sweep over statements takes the books after them to the books before them. -/
theorem stms_passOn {back : Stm → Diff Unit} {depth : Nat} (passesOn : PassesOn sizes back depth)
    (ss : List Stm) (code : ∀ stm ∈ ss, stm.CopyCode sizes) (nested : ∀ stm ∈ ss, stm.branchDepth ≤ depth)
    (fit : Fit sizes s scope) (sub : ∀ x ∈ (stmOutline ss).after wide, x ∈ scope)
    (known : ∀ x ∈ sizes, x ∈ wide) (closed : (stmOutline ss).Closed wide)
    (inside : ∀ x ∈ inner, x ∈ wide) (narrow : (stmOutline ss).Closed inner)
    (typed : Typed s ((stmOutline ss).after inner)) :
    ∃ t later, Gives (ss.reverse.forM back) s () t ∧ Advances sizes s scope t later ∧
      ∀ A o o' σ, stmsOrigins? A.inputs o ss = some o' →
        Books A sizes s σ o' ((stmOutline ss).after inner) →
        ∃ τ, RunsTo s scope t σ τ ∧ Books A sizes t τ o inner ∧
          balance A t τ o inner = balance A s σ o' ((stmOutline ss).after inner) := by
  induction ss using List.reverseRecOn generalizing s scope with
  | nil =>
    refine ⟨s, scope, .pure () s, fit.refl, fun A o o' σ are books => ⟨σ, runsTo_of_stms rfl, ?_⟩⟩
    obtain rfl := Option.some.inj are
    exact ⟨books, rfl⟩
  | append_singleton ss stm ih =>
    simp only [Builder.stmOutline_append, closed_append, after_append, stmOutline, append_done, after_stm]
      at closed narrow sub typed ⊢
    have inPattern {base : Scope} : ∀ x ∈ (stmOutline ss).after base,
        x ∈ (paramOutline stm.pat).after ((stmOutline ss).after base) := fun x mem => mem_after _ mem
    have insideAfter : ∀ x ∈ (stmOutline ss).after inner, x ∈ (stmOutline ss).after wide := by
      intro x mem
      rw [mem_after_stmOutline] at mem ⊢
      exact mem.imp_left (inside x)
    obtain ⟨u, middle, gives, advances, settles⟩ := passesOn stm s scope ((stmOutline ss).after wide)
      ((stmOutline ss).after inner) fit {
        code := code stm (by simp)
        sub := fun x mem => sub x (inPattern x mem)
        known := fun x mem => mem_after _ (known x mem)
        closed := closed.2
        inside := insideAfter
        narrow := narrow.2
        typed := typed
        pattern := fun p mem => sub _ ((mem_after_paramOutline ..).mpr (.inr ⟨p, mem, rfl⟩)) }
      (nested stm (by simp))
    have wider {x : Name} (mem : x ∈ scope) : x ∈ middle := advances.extends_.sub mem
    have innerSub : ∀ x ∈ (stmOutline ss).after inner, x ∈ scope := fun x mem =>
      sub x (inPattern x (insideAfter x mem))
    obtain ⟨t, later, gives', advances', back⟩ := ih (fun s mem => code s (by simp [mem]))
      (fun s mem => nested s (by simp [mem])) (advances.fit fit)
      (fun x mem => wider (sub x (inPattern x mem))) closed.1 narrow.1
      (advances.typed (fun x mem => typed x (inPattern x mem)) innerSub)
    refine ⟨t, later, ?_, advances.trans advances', fun A o o' σ are books => ?_⟩
    · rw [List.reverse_append]
      exact gives.bind gives'
    · rw [stmsOrigins?_append] at are
      obtain ⟨mid, before, are⟩ := Option.bind_eq_some_iff.mp are
      have here : stm.origins? A.inputs mid = some o' := by
        simp only [stmsOrigins?] at are
        split at are
        · rename_i after known
          exact known.trans are
        · cases are
      obtain ⟨τ, ran, books, same⟩ := settles A mid o' σ here books
      obtain ⟨υ, ran', books, same'⟩ := back A o mid τ before books
      exact ⟨υ, ran.trans ran' fun _ => wider, books, same'.trans same⟩

/-! Bodies. -/

/-- What the adjoints of names amount to, as far as the names are copies of the parameter. -/
def collected (A : Account) (o : Origins) (xs : List Name) (vs : List Value) :
    List Nat → ZMod A.width.modulus :=
  ((xs.zip vs).map fun r => if o.find? r.1 = some (.var A.param) then r.2.entries A.width else 0).sum

/-- Wherever the names are copies and the seeds are adjoints for what the body returns, the new body has a
    run. It returns adjoints of the names, which amount to what the seeds do. -/
def Distributed (sizes : List Name) (types : NameTable Ty) (scope : Scope) (xs seeds : List Name)
    (body b : Body) : Prop :=
  ∀ A o σ srcs, A.inputs.store.Agree (· ∈ sizes) σ → A.inputs.Tracks types σ o xs →
    body.origins? A.inputs o = some srcs → List.Forall₂ (A.Holds σ) seeds srcs →
    ∃ fuel vs τ, Ends (runBody fuel b) σ vs τ ∧ σ.Agree (· ∈ scope) τ ∧
      List.Forall₂ (A.AdjointOf o) xs vs ∧ collected A o xs vs = worth A σ srcs seeds

/-- The values of the adjoints at the end. -/
theorem adjoints_stand {xs cs : List Name} (books : Books A sizes s σ o xs)
    (records : List.Forall₂ (fun x c => s.companions.find? x = some c) xs cs) :
    ∃ vs, List.Forall₂ (fun y v => σ.value y = some v) (cs.map .var) vs ∧
      List.Forall₂ (A.AdjointOf o) xs vs ∧
      List.Forall₂ (fun x v => share A s σ x = v.entries A.width) xs vs := by
  induction records with
  | nil => exact ⟨[], .nil, .nil, .nil⟩
  | @cons x c xs cs here rest ih =>
    obtain ⟨vs, read, adjoints, shares⟩ := ih (books.mono fun y mem => List.mem_cons_of_mem x mem)
    obtain ⟨src, is, -⟩ := books.copies x List.mem_cons_self
    obtain ⟨v, found, adjoint⟩ := books.adjoints x List.mem_cons_self src c is here
    refine ⟨v :: vs, .cons found read, .cons (fun src' is' => ?_) adjoints, .cons ?_ shares⟩
    · obtain rfl := Option.some.inj (is.symm.trans is')
      exact adjoint
    · rw [share_of_companion here, Store.entries_of_find found]

theorem balance_eq_collected {xs : List Name} {vs : List Value} (distinct : xs.Nodup)
    (shares : List.Forall₂ (fun x v => share A s σ x = v.entries A.width) xs vs) :
    balance A s σ o xs = collected A o xs vs := by
  rw [balance, List.sum_toFinset _ distinct, collected]
  clear distinct
  induction shares with
  | nil => rfl
  | cons here rest ih =>
    rw [List.map_cons, List.sum_cons, List.zip_cons_cons, List.map_cons, List.sum_cons, ih, counted, here]

/-- Contributions to results count as what these are copies of. -/
theorem credits_eq_worth {results srcs : List Operand} {cs : List Name}
    (are : List.Forall₂ (fun x src => x.origin? o = some src) results srcs) :
    ((results.zip cs).map fun r => A.credit σ o r.1 r.2).sum = worth A σ srcs cs := by
  rw [worth]
  induction are generalizing cs with
  | nil => simp
  | cons here rest ih =>
    cases cs with
    | nil => simp
    | cons c cs =>
      rw [List.zip_cons_cons, List.zip_cons_cons, List.map_cons, List.map_cons, List.sum_cons, List.sum_cons,
        ih, Account.credit, here]
      simp only [Option.some.injEq]

theorem suits_of_holds {results srcs : List Operand} {cs : List Name}
    (are : List.Forall₂ (fun x src => x.origin? o = some src) results srcs)
    (held : List.Forall₂ (A.Holds σ) cs srcs) :
    ∀ r ∈ results.zip cs, Suits r.1 r.2 A o σ := by
  induction are generalizing cs with
  | nil => simp
  | cons here rest ih =>
    obtain ⟨c, cs, holds, tail, rfl⟩ := List.forall₂_cons_right_iff.mp held
    rw [List.zip_cons_cons, List.forall_mem_cons]
    exact ⟨fun src is => Option.some.inj (here.symm.trans is) ▸ holds, ih tail⟩

theorem balance_of_empty (empty : s.companions = .empty) : balance A s σ o inner = 0 :=
  Finset.sum_eq_zero fun x _ => by
    rw [counted, share_of_none (by rw [empty, NameTable.find_empty]), ite_self]

/-- Amounts are read off the names in scope. -/
theorem worth_agree {srcs : List Operand} {cs : List Name} (agree : σ.Agree (· ∈ scope) τ)
    (known : ∀ c ∈ cs, c ∈ scope) : worth A τ srcs cs = worth A σ srcs cs := by
  rw [worth, worth]
  congr 1
  exact List.map_congr_left fun r mem => by rw [agree.entries (known _ (List.of_mem_zip mem).2)]

theorem holds_agree {srcs : List Operand} {cs : List Name} (held : List.Forall₂ (A.Holds σ) cs srcs)
    (agree : σ.Agree (· ∈ scope) τ) (known : ∀ c ∈ cs, c ∈ scope) : List.Forall₂ (A.Holds τ) cs srcs := by
  induction held with
  | nil => exact .nil
  | cons here rest ih =>
    rw [List.forall_mem_cons] at known
    exact .cons (here.agree agree known.1) (ih known.2)

/-- A body that is emitted as it is, followed by the sweep over it. -/
theorem sweepBody_works {back : Stm → Diff Unit} {depth : Nat} (passesOn : PassesOn sizes back depth)
    (body : Body) {seeds xs : List Name} (code : body.CopyCode sizes) (nested : body.branchDepth ≤ depth)
    (fit : Fit sizes s scope) (empty : s.companions = .empty) (sub : ∀ x ∈ wide, x ∈ scope)
    (known : ∀ x ∈ sizes, x ∈ wide) (inside : ∀ x ∈ xs, x ∈ wide) (distinct : xs.Nodup)
    (typed : Typed s xs) (closed : body.outline.Closed scope) (closedWide : body.outline.Closed wide)
    (narrow : body.outline.Closed xs)
    (below : Scope.Below (body.outline.after scope) s.builder.supply.next)
    (seeded : ∀ c ∈ seeds, c ∈ scope) :
    ∃ b t, Gives (bodyOf (sweep back body.stms (seed body.result seeds)) (adjoints xs)) s b t ∧
      (∀ x ty, t.builder.types.find? x = some ty → ty.Sized sizes) ∧
      Distributed sizes s.builder.types scope xs seeds body b := by
  obtain ⟨ss, result⟩ := body
  have code := (stmsCopyCode_iff ss).mp code
  simp only [Body.outline, closed_append, closed_readsAll, after_append, after_readsAll]
    at closed closedWide narrow below
  obtain ⟨closed, -⟩ := closed
  obtain ⟨closedWide, -⟩ := closedWide
  obtain ⟨narrow, reads⟩ := narrow
  let opened : DiffState := { s with builder := { s.builder with stms := [] }.emit ss }
  have fitOpened : Fit sizes opened ((stmOutline ss).after scope) := {
    ready := {
      builder := Builder.ready_emit fit.ready.builder.below
        (fun x here ty found y inType => mem_after _ (fit.ready.builder.typesIn x here ty found y inType))
        closed fun p mem => below _ ((mem_after_stmOutline _ _ _).mpr (.inr ⟨p, mem, rfl⟩))
      companion_mem := fun x _ c found => by simp [opened, empty, NameTable.find_empty] at found }
    types := fun x ty found => by
      rcases Builder.find_declared found with mem | ⟨-, found⟩
      · obtain ⟨stm, inStms, inPat⟩ := List.mem_flatMap.mp mem
        exact (code stm inStms).pattern _ inPat
      · exact fit.types x ty found
    known := fun x mem => mem_after _ (fit.known x mem) }
  have afterXs : ∀ x ∈ (stmOutline ss).after xs, x ∈ (stmOutline ss).after wide := by
    intro x mem
    rw [mem_after_stmOutline] at mem ⊢
    exact mem.imp_left (inside x)
  have afterWide : ∀ x ∈ (stmOutline ss).after wide, x ∈ (stmOutline ss).after scope := by
    intro x mem
    rw [mem_after_stmOutline] at mem ⊢
    exact mem.imp_left (sub x)
  have inScope : ∀ x ∈ (stmOutline ss).after xs, x ∈ (stmOutline ss).after scope := fun x mem =>
    afterWide x (afterXs x mem)
  have typedOpened : Typed opened ((stmOutline ss).after xs) := by
    intro x mem
    refine Builder.typed_of_declared ?_
    exact ((mem_after_stmOutline ..).mp mem).elim (fun outer => .inr (typed x outer)) .inl
  obtain ⟨u, first, seeding, gains⟩ := contributions_work (result.zip seeds) fitOpened inScope typedOpened
    (fun r mem y inR => reads y (List.mem_flatMap.mpr ⟨r.1, (List.of_mem_zip mem).1, inR⟩))
    fun r mem => mem_after _ (seeded r.2 (List.of_mem_zip mem).2)
  have wider {x : Name} (mem : x ∈ (stmOutline ss).after scope) : x ∈ first :=
    gains.advances.extends_.sub mem
  obtain ⟨v, second, back, advances, settles⟩ := stms_passOn passesOn ss code
    (fun stm mem => Nat.le_trans (branchDepth_le mem) nested) (gains.advances.fit fitOpened)
    (fun x mem => wider (afterWide x mem)) known closedWide inside narrow
    (gains.advances.typed typedOpened inScope)
  have outer : ∀ x ∈ xs, x ∈ first := fun x mem => wider (inScope x (mem_after _ mem))
  obtain ⟨cs, t, third, recorded, quiet, -, records⟩ := companions_work (f := fun x => do
      return .var (← companion x)) (fun x : Name => x) Operand.var
    (fun x s c t found => found.bind (.pure _ t)) xs (advances.fit (gains.advances.fit fitOpened))
    (fun x mem => advances.extends_.sub (outer x mem))
    (advances.typed (gains.advances.typed (fun x mem => typedOpened x (mem_after _ mem))
      fun x mem => inScope x (mem_after _ mem)) outer) fun x mem => mem
  refine ⟨⟨t.builder.stms, cs.map .var⟩, _, (gives_bodyOf ..).mpr ⟨v, t, ?_, recorded, rfl, rfl⟩,
    quiet.advances.types, fun A o σ srcs sized tracks are held => ?_⟩
  · simp only [sweep, gives_bind, gives_emit]
    exact ⟨(), opened, rfl, (), u, seeding, back⟩
  · simp only [Body.origins?] at are
    split at are
    · rename_i o' known
      have origins := option_mapM_iff.mp are
      obtain ⟨m, ρ, primal, kept, tracks⟩ := runs_copyStms ss narrow tracks known
      have agree : σ.Agree (· ∈ scope) ρ :=
        kept.mono fun x mem binder => not_mem_of_binder closed.1 binder mem
      have books : Books A sizes opened ρ o' ((stmOutline ss).after xs) :=
        ⟨sized.trans (agree.mono fit.known), tracks, fun x _ src c _ found => by
          simp [opened, empty, NameTable.find_empty] at found⟩
      obtain ⟨ρ₁, ran₁, books, seedsIn⟩ := gains.run A o' ρ books
        (suits_of_holds origins (holds_agree held agree seeded))
      obtain ⟨ρ₂, ran₂, books, passed⟩ := settles A o o' ρ₁ known books
      obtain ⟨ρ₃, ran₃, books, still⟩ := quiet.run A o ρ₂ books trivial
      have ran : RunsTo opened ((stmOutline ss).after scope) t ρ ρ₃ :=
        (ran₁.trans ran₂ fun _ => wider).trans ran₃ fun x mem => advances.extends_.sub (wider mem)
      obtain ⟨vs, read, adjoints, shares⟩ := adjoints_stand books records
      obtain ⟨n, new, emitted, ends⟩ := ran.traces
      refine ⟨max m n + 1, vs, ρ₃, (ends_runBody ..).mpr ⟨max m n, ρ₃, rfl, ?_, ?_⟩,
        agree.trans (ran.agree.mono fun x mem => mem_after _ mem), adjoints, ?_⟩
      · rw [emitted]
        exact (ends_stms_append ..).mpr ⟨ρ, extends_stms (Nat.le_max_left m n) ss σ _ primal,
          extends_stms (Nat.le_max_right m n) new ρ _ ends⟩
      · exact ends_operands.mpr ⟨read, rfl⟩
      · calc collected A o xs vs
            = balance A t ρ₃ o xs := (balance_eq_collected distinct shares).symm
          _ = balance A u ρ₁ o' ((stmOutline ss).after xs) := by rw [still, add_zero, passed]
          _ = worth A ρ srcs seeds := by
              rw [seedsIn, balance_of_empty (s := opened) empty, zero_add, credits_eq_worth origins]
          _ = worth A σ srcs seeds := worth_agree agree seeded
    · cases are

/-- A branch that is computed again under fresh names, from an empty table of adjoints. -/
theorem branchBody_works {back : Stm → Diff Unit} {depth : Nat} (accounts : Accounts back)
    (passesOn : PassesOn sizes back depth) {seeds xs : List Name} {body : Body}
    (code : body.CopyCode sizes) (nested : body.branchDepth ≤ depth) (fit : Fit sizes s scope)
    (sub : ∀ x ∈ wide, x ∈ scope) (known : ∀ x ∈ sizes, x ∈ wide) (inside : ∀ x ∈ xs, x ∈ wide)
    (distinct : xs.Nodup) (typed : Typed s xs) (closed : body.outline.Closed wide)
    (narrow : body.outline.Closed xs) (seeded : ∀ c ∈ seeds, c ∈ scope) :
    ∃ b t, Gives (branchBody back seeds xs body) s b t ∧ Advances sizes s scope t scope ∧
      b.outline.Closed scope ∧ b.result.length = xs.length ∧
      Scope.Below b.outline.binders t.builder.supply.next ∧
      Distributed sizes s.builder.types scope xs seeds body b := by
  have inScope : ∀ x ∈ xs, x ∈ scope := fun x mem => sub x (inside x mem)
  have below : Scope.Below wide s.builder.supply.next := fun x mem => fit.ready.builder.below x (sub x mem)
  obtain ⟨outer, bound, -, next_le⟩ := Body.closed_rename (s := s.builder.supply) closed sub
    fit.ready.builder.below
  have middle := (Body.closed_rename (s := s.builder.supply) closed (fun _ mem => mem) below).1
  have inner := (Body.closed_rename (s := s.builder.supply) narrow (fun _ mem => mem) fun x mem =>
    below x (inside x mem)).1
  obtain ⟨codeCopy, sameDepth, sameOrigins⟩ := code.rename closed below known
  have drawn : s.builder.Grows scope (Build.renamed body s.builder).2 scope :=
    .aside fit.ready.builder rfl next_le fun _ _ => rfl
  have fitCopy : Fit sizes ⟨(Build.renamed body s.builder).2, .empty⟩ scope :=
    ⟨⟨drawn.ready, fun x _ c found => by simp [NameTable.find_empty] at found⟩, fit.types, fit.known⟩
  obtain ⟨b, t, gives, types, distributed⟩ := sweepBody_works passesOn _ codeCopy
    (Nat.le_trans (Nat.le_of_eq sameDepth) nested) fitCopy rfl sub known inside distinct typed outer middle
    inner bound seeded
  have whole : Gives (branchBody back seeds xs body) s b { t with companions := s.companions } := by
    simp only [branchBody, gives_bind, gives_build, gives_isolated]
    exact ⟨_, _, ⟨rfl, rfl⟩, t, gives, rfl⟩
  obtain ⟨extends_, closedCopy, length, bounded⟩ := branchBody_extends accounts fit.ready sub closed seeded
    inScope whole
  refine ⟨b, _, whole, ⟨extends_, types⟩, closedCopy, length, bounded,
    fun A o σ srcs sized tracks are held => distributed A o σ srcs sized tracks ?_ held⟩
  exact (sameOrigins A.inputs o).trans are

/-! Branches. -/

theorem typed_works (xs : List Name) (typed : Typed s xs) :
    ∃ ps, Gives (xs.mapM fun x => return Param.mk x (← typeOf x)) s ps s := by
  induction xs with
  | nil => exact ⟨[], .pure [] s⟩
  | cons x xs ih =>
    obtain ⟨ty, found⟩ := typed x (by simp)
    obtain ⟨ps, gives⟩ := ih fun y mem => typed y (by simp [mem])
    refine ⟨⟨x, ty⟩ :: ps, ?_⟩
    rw [List.mapM_cons]
    have here : Gives (do return Param.mk x (← typeOf x)) s ⟨x, ty⟩ s :=
      ((gives_typeOf ..).mpr ⟨found, rfl⟩ : Gives (typeOf x) s ty s).bind (.pure _ s)
    exact here.bind (gives.bind (.pure _ s))

theorem drawn_works (ps : List Param) (s : DiffState) :
    ∃ pat t, Gives (ps.mapM fun p => return { p with name := ← build Build.fresh }) s pat t := by
  induction ps generalizing s with
  | nil => exact ⟨[], s, .pure [] s⟩
  | cons p ps ih =>
    obtain ⟨pat, t, gives⟩ := ih { s with builder := (Build.fresh s.builder).2 }
    refine ⟨{ p with name := (Build.fresh s.builder).1 } :: pat, t, ?_⟩
    rw [List.mapM_cons]
    have here : Gives (do return { p with name := ← build Build.fresh }) s
        { p with name := (Build.fresh s.builder).1 } { s with builder := (Build.fresh s.builder).2 } :=
      (Gives.build Build.fresh s).bind (.pure _ _)
    exact here.bind (gives.bind (.pure _ t))

/-- What a conditional copies is what the body that its condition picks returns. -/
theorem branch_origins {I : Inputs} {pat : List Param} {aux : Annotations} {cond : Operand} {yes no : Body}
    {ret : List Ty} {sort : BranchSort}
    (are : Stm.origins? I o ⟨pat, aux, .branch cond yes no ret sort⟩ = some o') :
    ∃ b srcs, (cond.origin? o).bind I.truth? = some b ∧
      (if b then yes else no).origins? I o = some srcs ∧ o.assign I pat srcs = some o' := by
  simp only [Stm.origins?, Exp.origins?] at are
  split at are
  · rename_i srcs known
    split at known
    · rename_i truth
      exact ⟨true, srcs, truth, known, are⟩
    · rename_i truth
      exact ⟨false, srcs, truth, known, are⟩
    · cases known
  · cases are

/-- The adjoints of a pattern are adjoints for copies of what the pattern copies. -/
theorem holds_of_records {ps : List Param} {cs : List Name} {srcs : List Operand}
    (books : Books A sizes s σ o scope)
    (records : List.Forall₂ (fun p c => s.companions.find? p.name = some c) ps cs)
    (origins : List.Forall₂ (fun p src => o.find? p.name = some src) ps srcs)
    (known : ∀ p ∈ ps, p.name ∈ scope) : List.Forall₂ (A.Holds σ) cs srcs := by
  induction records generalizing srcs with
  | nil =>
    obtain rfl := List.forall₂_nil_left_iff.mp origins
    exact .nil
  | cons here rest ih =>
    obtain ⟨src, srcs, is, tail, rfl⟩ := List.forall₂_cons_left_iff.mp origins
    rw [List.forall_mem_cons] at known
    exact .cons (books.adjoints _ known.1 src _ is here) (ih tail known.2)

/-- What was returned and bound suits the names that it is contributed to. -/
theorem suits_of_bound {xs pat : List Param} {vs : List Value}
    (bound : List.Forall₂ (fun p v => σ.vars.find? p.name = some v) pat vs)
    (adjoints : List.Forall₂ (A.AdjointOf o) (xs.map (·.name)) vs) :
    ∀ r ∈ (xs.zip pat).map fun r => (Operand.var r.1.name, r.2.name), Suits r.1 r.2 A o σ := by
  induction bound generalizing xs with
  | nil => simp
  | @cons p v pat vs here rest ih =>
    cases xs with
    | nil => simp
    | cons x xs =>
      obtain ⟨first, tail⟩ := List.forall₂_cons.mp adjoints
      rw [List.zip_cons_cons, List.map_cons, List.forall_mem_cons]
      exact ⟨fun src is => ⟨v, here, first src is⟩, ih tail⟩

theorem credits_eq_collected {xs pat : List Param} {vs : List Value}
    (bound : List.Forall₂ (fun p v => σ.vars.find? p.name = some v) pat vs) :
    (((xs.zip pat).map fun r => (Operand.var r.1.name, r.2.name)).map fun r => A.credit σ o r.1 r.2).sum =
      collected A o (xs.map (·.name)) vs := by
  rw [collected]
  induction bound generalizing xs with
  | nil => simp
  | cons here rest ih =>
    cases xs with
    | nil => rfl
    | cons x xs =>
      rw [List.zip_cons_cons, List.map_cons, List.map_cons, List.sum_cons, ih, List.map_cons,
        List.zip_cons_cons, List.map_cons, List.sum_cons, Account.credit, Store.entries_of_find here]
      rfl

/-- The conditional over the copies of two branches. -/
theorem branchStm_works {aux : Annotations} {cond : Operand} {body yes' no' : Body} {tys : List Ty}
    {sort : BranchSort} {pat : List Param} {xs seeds : List Name} {types : NameTable Ty} {b : Bool}
    {srcs : List Operand}
    (distributed : Distributed sizes types scope xs seeds body (if b then yes' else no'))
    (sized : A.inputs.store.Agree (· ∈ sizes) σ) (tracks : A.inputs.Tracks types σ o xs)
    (holds : σ.value cond = some (.scalar (.bool b))) (are : body.origins? A.inputs o = some srcs)
    (held : List.Forall₂ (A.Holds σ) seeds srcs) (closed : (paramOutline pat).Accepted scope)
    (length : pat.length = xs.length) :
    ∃ fuel vs τ, Ends (stms fuel [⟨pat, aux, .branch cond yes' no' tys sort⟩]) σ () τ ∧
      σ.Agree (· ∈ scope) τ ∧ List.Forall₂ (fun p v => τ.vars.find? p.name = some v) pat vs ∧
      List.Forall₂ (A.AdjointOf o) xs vs ∧ collected A o xs vs = worth A σ srcs seeds := by
  obtain ⟨fuel, vs, τ, ran, agree, adjoints, amount⟩ := distributed A o σ srcs sized tracks are held
  have arity : vs.length = pat.length := by rw [length, adjoints.length_eq]
  refine ⟨fuel, vs, τ.bound (pat.map (·.name)) vs, ?_, agree.trans (.bound τ vs fun x mem known => ?_), ?_,
    adjoints, amount⟩
  · refine (ends_stms_cons ..).mpr ⟨_, (ends_stm ..).mpr ⟨vs, τ, ends_taken holds ran, arity, rfl⟩, ?_⟩
    exact (ends_stms_nil ..).mpr rfl
  · obtain ⟨p, inPat, rfl⟩ := List.mem_map.mp mem
    exact Builder.not_mem_of_params closed inPat known
  · exact List.forall₂_map_left_iff.mp <|
      NameTable.find_insertAll_zip τ.vars vs (nodup_of_accepted closed) (by simpa using arity)

theorem Distributed.congr {types types' : NameTable Ty} {xs seeds : List Name} {body b : Body}
    (distributed : Distributed sizes types' scope xs seeds body b)
    (same : ∀ x ∈ xs, types'.find? x = types.find? x) : Distributed sizes types scope xs seeds body b :=
  fun A o σ srcs sized tracks => distributed A o σ srcs sized fun x mem =>
    have ⟨src, is, copies⟩ := tracks x mem
    ⟨src, is, copies.agree (.refl (fun _ => True) σ) trivial (same x mem)⟩

/-- The adjoints of what a conditional binds go through its branches to what they copy. -/
theorem branch_passesOn {back : Stm → Diff Unit} {depth : Nat} (accounts : Accounts back)
    (passesOn : PassesOn sizes back depth) {pat : List Param} {aux : Annotations} {cond : Operand}
    {yes no : Body} {ret : List Ty} {sort : BranchSort} (fit : Fit sizes s scope)
    (placed : Revisited sizes ⟨pat, aux, .branch cond yes no ret sort⟩ s scope wide inner)
    (nestedYes : yes.branchDepth ≤ depth) (nestedNo : no.branchDepth ≤ depth) :
    ∃ t later, Gives (branch back ⟨pat, aux, .branch cond yes no ret sort⟩ cond yes no sort) s () t ∧
      Advances sizes s scope t later ∧
      Settles sizes ⟨pat, aux, .branch cond yes no ret sort⟩ s scope t inner := by
  obtain ⟨-, codeYes, codeNo, -⟩ := placed.code
  obtain ⟨certs, closedExp, -⟩ := (closed_stm _ _).mp placed.closed
  obtain ⟨-, narrowExp, closedPat⟩ := (closed_stm _ _).mp placed.narrow
  simp only [Exp.outline, closed_append, after_append, closed_readsAll, after_readsAll,
    closed_block, closed_mentionsAll, after_mentionsAll, closed_count, closed_done, after]
    at closedExp narrowExp
  obtain ⟨⟨⟨⟨-, wideYes, -⟩, wideNo, -⟩, -⟩, -⟩ := closedExp
  obtain ⟨⟨⟨⟨knownCond, narrowYes, -⟩, narrowNo, -⟩, -⟩, -⟩ := narrowExp
  have innerSub : ∀ x ∈ inner, x ∈ scope := fun x mem => placed.sub x (placed.inside x mem)
  -- the adjoints of the pattern, and the names that the bodies read
  obtain ⟨seeds, u, middle, seeded, quiet, -, records⟩ := companions_work (fun p : Param => p.name)
    (fun c => c) (fun p s c t found => found) pat fit placed.after_sub placed.typed fun p mem =>
      (mem_after_paramOutline ..).mpr (.inr ⟨p, mem, rfl⟩)
  rw [List.map_id'] at seeded
  have wider {x : Name} (mem : x ∈ scope) : x ∈ middle := quiet.advances.extends_.sub mem
  have fitHere := quiet.advances.fit fit
  have typedHere : Typed u inner :=
    quiet.advances.typed (fun x mem => placed.typed x (mem_after _ mem)) innerSub
  have knownFree : ∀ x ∈ freeNames yes no, x ∈ inner := mem_freeNames narrowYes narrowNo
  obtain ⟨free, collects⟩ := typed_works (freeNames yes no) fun x mem => typedHere x (knownFree x mem)
  obtain ⟨-, names, found⟩ := gives_typed _ _ _ _ collects
  have sizedFree : ∀ p ∈ free, p.ty.Sized sizes := fun p mem => fitHere.types _ _ (found p mem)
  have allKept : (free.filter fun p => !p.ty.isAcc) = free :=
    List.filter_eq_self.mpr fun p mem => by simp [(sizedFree p mem).isAcc]
  have inFree : ∀ x ∈ free.map (·.name), x ∈ inner := names ▸ knownFree
  have freeYes : ∀ z ∈ yes.freeNames, z ∈ free.map (·.name) := fun z mem =>
    names ▸ List.mem_append_left _ mem
  have freeNo : ∀ z ∈ no.freeNames, z ∈ free.map (·.name) := names ▸ mem_freeNames_right
  have distinct : (free.map (·.name)).Nodup := names ▸ nodup_freeNames yes no
  have knownSeeds : ∀ c ∈ seeds, c ∈ middle := by
    intro c mem
    obtain ⟨p, -, here⟩ := exists_of_forall₂ records mem
    exact quiet.advances.extends_.companion_mem p.name trivial c here
  have wideSub : ∀ x ∈ wide, x ∈ middle := fun x mem => wider (placed.sub x mem)
  have insideFree : ∀ x ∈ free.map (·.name), x ∈ wide := fun x mem => placed.inside x (inFree x mem)
  have typedFree : Typed u (free.map (·.name)) := fun x mem => typedHere x (inFree x mem)
  -- the two branches again
  obtain ⟨yes', v, givesYes, advancesYes, closedYes, lengthYes, belowYes, inYes⟩ := branchBody_works accounts
    passesOn codeYes nestedYes fitHere wideSub placed.known insideFree distinct typedFree wideYes
    (Body.closed_freeNames narrowYes inFree freeYes) knownSeeds
  have middleFree : ∀ x ∈ free.map (·.name), x ∈ middle := fun x mem => wideSub x (insideFree x mem)
  obtain ⟨no', x, givesNo, advancesNo, closedNo, lengthNo, belowNo, inNo⟩ := branchBody_works accounts
    passesOn codeNo nestedNo (advancesYes.fit fitHere) wideSub placed.known insideFree distinct
    (advancesYes.typed typedFree middleFree) wideNo (Body.closed_freeNames narrowNo inFree freeNo) knownSeeds
  have inNo := inNo.congr fun x mem => advancesYes.extends_.grows.kept x (middleFree x mem)
  -- what is known in a run once the adjoints of the pattern are there
  have start {A : Account} {o o' : Origins} {σ : Store Scalar}
      (are : Stm.origins? A.inputs o ⟨pat, aux, .branch cond yes no ret sort⟩ = some o')
      (books : Books A sizes s σ o' ((paramOutline pat).after inner)) :
      ∃ τ b srcs, RunsTo s scope u σ τ ∧ Books A sizes u τ o inner ∧
        τ.value cond = some (.scalar (.bool b)) ∧
        (if b then yes else no).origins? A.inputs o = some srcs ∧
        List.Forall₂ (A.Holds τ) seeds srcs ∧
        balance A s σ o' ((paramOutline pat).after inner) = balance A u τ o inner + worth A τ srcs seeds := by
    obtain ⟨b, srcs, truth, taken, assigned⟩ := branch_origins are
    obtain ⟨declared, rfl⟩ := Origins.assign_iff.mp assigned
    have length : srcs.length = pat.length := declared.length_eq.symm
    obtain ⟨τ, ran, books, balanced⟩ := quiet.run A _ σ books trivial
    have origins := NameTable.find_insertAll_zip o srcs (nodup_of_accepted closedPat.1)
      (by simpa using length)
    have held := holds_of_records books records (List.forall₂_map_left_iff.mp origins) fun p mem =>
      (mem_after_paramOutline ..).mpr (.inr ⟨p, mem, rfl⟩)
    have inside := (books.mono fun x known => mem_after _ known).rebase (origins_kept closedPat.1)
    refine ⟨τ, b, srcs, ran, inside, inside.copies.truth knownCond truth, taken, held, ?_⟩
    rw [← add_zero (balance A s σ _ _), ← balanced, balance_pattern length closedPat.1,
      worth_of_records records]
  have picked (b : Bool) : Distributed sizes u.builder.types middle (free.map (·.name)) seeds
      (if b then yes else no) (if b then yes' else no') := by
    cases b with
    | true => exact inYes
    | false => exact inNo
  cases isEmpty : free.isEmpty with
  | true =>
    refine ⟨u, middle, ?_, quiet.advances, fun A o o' σ are books => ?_⟩
    · simp only [branch, gives_bind]
      refine ⟨seeds, u, seeded, free, u, collects, ?_⟩
      rw [allKept]
      simp [isEmpty]
    · obtain ⟨τ, b, srcs, ran, books, holds, are, held, split⟩ := start are books
      obtain ⟨fuel, vs, ρ, -, -, adjoints, amount⟩ := picked b A o τ srcs books.sizes
        (fun x mem => books.copies x (inFree x mem)) are held
      have nothing : worth A τ srcs seeds = 0 := by
        rw [← amount, List.isEmpty_iff.mp isEmpty]
        rfl
      exact ⟨τ, ran, books, by rw [split, nothing, add_zero]⟩
  | false =>
    obtain ⟨pat', y, drawn⟩ := drawn_works free x
    have typeNames : ∀ p ∈ free, ∀ y ∈ p.ty.names, y ∈ middle := fun p mem y inType =>
      fitHere.known y ((sizedFree p mem).names y inType)
    have last := (advancesNo.fit (advancesYes.fit fitHere)).ready
    obtain ⟨rfl, types, closedPat', fresh⟩ :=
      gives_drawn free pat' x y middle last.builder.below typeNames drawn
    have length : pat'.length = free.length := by simpa using congrArg List.length types
    have grows := branchStm_grows aux sort last.builder
      (fun z mem => wideSub z (certs z mem)) (fun z mem => wider (innerSub z (knownCond z mem))) closedYes
      closedNo (by simp [lengthYes]) (by simp [lengthNo]) typeNames length closedPat' fresh
      ((belowYes.mono advancesNo.extends_.grows.next_le).append belowNo)
    let emitted : Stm := ⟨pat', aux, .branch cond yes' no' (free.map (·.ty)) sort⟩
    let z : DiffState := { x with builder := (Build.add emitted
      { x.builder with supply := ⟨x.builder.supply.next + free.length⟩ }).2 }
    have advancesStm : Advances sizes x middle z ((paramOutline pat').after middle) := by
      refine ⟨last.build grows, fun n ty found => ?_⟩
      simp only [z, Build.add_apply] at found
      rcases Builder.find_declared found with mem | ⟨-, found⟩
      · have inTypes := List.mem_map_of_mem (f := (·.ty)) mem
        rw [types] at inTypes
        obtain ⟨q, inFree, rfl⟩ : ∃ q ∈ free, q.ty = ty := List.mem_map.mp inTypes
        exact sizedFree q inFree
      · exact advancesNo.types n ty found
    have advances := (advancesYes.trans advancesNo).trans advancesStm
    have outer : ∀ x ∈ inner, x ∈ middle := fun x mem => wider (innerSub x mem)
    obtain ⟨t, later, contributed, gains⟩ := contributions_work
      ((free.zip pat').map fun r => (Operand.var r.1.name, r.2.name)) (advances.fit fitHere)
      (fun x mem => advances.extends_.sub (outer x mem)) (advances.typed typedHere outer)
      (by
        simp only [List.forall_mem_map, Operand.names, List.mem_singleton, forall_eq]
        exact fun r mem => inFree _ (List.mem_map_of_mem (List.of_mem_zip mem).1))
      (by
        simp only [List.forall_mem_map]
        exact fun r mem => (mem_after_paramOutline ..).mpr (.inr ⟨r.2, (List.of_mem_zip mem).2, rfl⟩))
    refine ⟨t, later, ?_, (quiet.advances.trans advances).trans gains.advances, fun A o o' σ are books => ?_⟩
    · simp only [branch, gives_bind]
      refine ⟨seeds, u, seeded, free, u, collects, ?_⟩
      rw [allKept]
      simp only [isEmpty, Bool.not_false, if_true, gives_bind, gives_build]
      refine ⟨yes', v, givesYes, no', x, givesNo, pat', _, drawn, (), z, ⟨trivial, rfl⟩, ?_⟩
      rw [List.forM_eq_forM, List.forM_map] at contributed
      exact contributed
    · obtain ⟨τ, b, srcs, ran, books, holds, are, held, split⟩ := start are books
      obtain ⟨fuel, vs, ρ, ends, agree, bound, adjoints, amount⟩ := branchStm_works (picked b)
        books.sizes (fun x mem => books.copies x (inFree x mem)) holds are held closedPat'.1
        (by simpa using length)
      obtain ⟨keptYes, companionsYes⟩ := branchBody_kept givesYes
      obtain ⟨keptNo, companionsNo⟩ := branchBody_kept givesNo
      have ran' : RunsTo u middle z τ ρ :=
        ⟨⟨fuel, [emitted], by simp [z, Build.add_apply, keptYes, keptNo], ends⟩, agree⟩
      obtain ⟨books, same⟩ := books.kept fitHere advances ran' outer (companionsNo.trans companionsYes)
      obtain ⟨υ, ran'', books, balanced⟩ := gains.run A o ρ books (suits_of_bound bound adjoints)
      refine ⟨υ, (ran.trans ran' fun _ => wider).trans ran'' fun x mem => advances.extends_.sub (wider mem),
        books, ?_⟩
      rw [balanced, same, credits_eq_collected bound, amount, split]

/-- Every statement of copy code passes its adjoints on, with branches nested as deeply as the number
    says. -/
theorem passesOn_stm (depth : Nat) : PassesOn sizes (stm .standard depth) depth := by
  induction depth with
  | zero =>
    rintro ⟨pat, aux, e⟩ s scope wide inner fit placed nested
    cases e with
    | basic op =>
      cases op with
      | operand x => exact operand_passesOn fit placed
      | _ => exact placed.code.2.elim
    | branch cond yes no ret sort => simp [Stm.branchDepth, Exp.branchDepth] at nested
    | _ => exact placed.code.2.elim
  | succ depth ih =>
    rintro ⟨pat, aux, e⟩ s scope wide inner fit placed nested
    cases e with
    | basic op =>
      cases op with
      | operand x => exact operand_passesOn fit placed
      | _ => exact placed.code.2.elim
    | branch cond yes no ret sort =>
      simp only [Stm.branchDepth, Exp.branchDepth] at nested
      exact branch_passesOn (accounts_stm local_standard depth) ih fit placed (by omega) (by omega)
    | _ => exact placed.code.2.elim

end Reverse

end Cotangent
