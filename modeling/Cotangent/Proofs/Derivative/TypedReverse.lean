import Cotangent.Proofs.Derivative.TypedForward
/-!
Reverse differentiation of well-typed code. The adjoint of a name has the type of the name. Going back
over a statement needs the types of what the statement read and bound, which the table keeps; a branch
is typed again under its fresh names. Together with the forward modes, every pass keeps code well typed.
-/
namespace Cotangent

open Outline NameTable Diff

/-- Reverse differentiation may use every name. -/
abbrev Any (_ : Name) : Prop := True

namespace Reverse

variable {s t : DiffState} {types later known : NameTable Ty} {k : ScalarType} {scope : Scope}

/-! Contributions. -/

theorem delivers_contribute (consistent : Consistent Any types s) {x d : Name}
    (target : types.find? x = some (.scalar k)) (amount : types.find? d = some (.scalar k)) :
    Delivers Any (contribute x d) s types fun _ _ => True := by
  have record {s : DiffState} {later : NameTable Ty} (consistent : Consistent Any later s) {c : Name}
      (le : types ≤ later) (found : later.find? c = some (.scalar k)) :
      Delivers Any (setCompanion x c) s later fun _ _ => True :=
    (delivers_setCompanion consistent (le x _ target) found).mono fun _ _ _ _ => trivial
  refine .after ((gives_companion? ..).mpr ⟨rfl, rfl⟩) ?_
  cases isFound : s.companions.find? x with
  | none => exact .after (.pure d s) (record consistent (le_refl _) amount)
  | some old =>
    obtain ⟨t, name, companion⟩ := consistent.paired x old isFound
    obtain rfl := Option.some.inj (target.symm.trans name)
    have leaf {y : Name} (found : types.find? y = some (.scalar k)) :
        (Formula.leaf y k).HasKind types k := ⟨rfl, found⟩
    have numeric := consistent.numeric target
    have sum := (leaf companion).add numeric (leaf amount)
    obtain ⟨later, adds, knows, bound⟩ := Builder.letFormula_adds sum numeric consistent.knows
    have added : Delivers Any (build (Build.sum k false [] old d)) s types fun c later =>
        later.find? c = some (.scalar k) := delivers_build consistent adds knows bound
    refine .after (consistent.gives_typeOf target) ?_
    exact added.bind fun c t later adds consistent found => record consistent adds.le found

theorem delivers_contributeTo (consistent : Consistent Any types s) {x : Operand} {d : Name}
    (target : x.HasType types (.scalar k)) (amount : types.find? d = some (.scalar k)) :
    Delivers Any (contributeTo x d) s types fun _ _ => True := by
  cases x with
  | const v => exact delivers_pure consistent trivial
  | var x => exact delivers_contribute consistent target amount

theorem delivers_contributeFormula (consistent : Consistent Any types s) {x : Operand} {f : Formula}
    (target : x.HasType types (.scalar k)) (amount : f.HasKind types k) :
    Delivers Any (contributeFormula x f) s types fun _ _ => True := by
  cases x with
  | const v => exact delivers_pure consistent trivial
  | var x =>
    obtain ⟨later, adds, knows, bound⟩ :=
      Builder.letFormula_adds amount (consistent.numeric target) consistent.knows
    have made : Delivers Any (build (Build.letFormula f)) s types fun d later =>
        later.find? d = some (.scalar k) := delivers_build consistent adds knows bound
    exact made.bind fun d t later adds consistent bound =>
      delivers_contribute consistent (adds.le x _ target) bound

/-- The names have the types, which are types of values. -/
abbrev NamesHave (types : NameTable Ty) (ts : List Ty) (xs : List Name) : Prop :=
  List.Forall₂ (fun t x => t.IsValue ∧ types.find? x = some t) ts xs

theorem NamesHave.mono {ts : List Ty} {xs : List Name} (typed : NamesHave types ts xs)
    (le : types ≤ later) : NamesHave later ts xs :=
  typed.imp fun _ x here => ⟨here.1, le x _ here.2⟩

theorem delivers_seed (consistent : Consistent Any types s) {ts : List Ty} {results : List Operand}
    {seeds : List Name} (typed : List.Forall₂ (Operand.HasType types) ts results)
    (amounts : NamesHave types ts seeds) :
    Delivers Any (seed results seeds) s types fun _ _ => True := by
  refine delivers_forM consistent fun r mem t later le consistent => ?_
  obtain ⟨ty, -, target, ⟨k, rfl, -⟩, amount⟩ := exists_of_mem_zip typed amounts mem
  exact delivers_contributeTo consistent (target.mono le) (le _ _ amount)

theorem delivers_adjoints (consistent : Consistent Any types s) {ts : List Ty} {xs : List Name}
    (names : NamesHave types ts xs) :
    Delivers Any (adjoints xs) s types fun ys later => List.Forall₂ (Operand.HasType later) ts ys := by
  refine delivers_mapM (fun types t x => t.IsValue ∧ types.find? x = some t) Operand.HasType
    (fun _ _ _ x le typed => ⟨typed.1, le x _ typed.2⟩) (fun _ _ _ _ le typed => typed.mono le)
    (fun t x s later consistent typed => ?_) consistent names
  obtain ⟨⟨k, rfl, -⟩, found⟩ := typed
  exact (delivers_companion consistent found).bind fun c t later _ consistent bound =>
    delivers_pure consistent bound

/-! Basic operations and calls. -/

theorem delivers_adjoint (consistent : Consistent Any types s) {stm : Stm} {p : Param}
    (alone : stm.pat = [p]) (bound : types.find? p.name = some (.scalar k)) {next : Name → Diff Unit}
    (rest : ∀ adjoint t later, types ≤ later → Consistent Any later t →
      (Formula.leaf adjoint k).HasKind later k → Delivers Any (next adjoint) t later fun _ _ => True) :
    Delivers Any (do next (← companion (← single .reverse stm).name)) s types fun _ _ => True := by
  refine .after ((gives_single ..).mpr ⟨alone, rfl⟩) ?_
  exact (delivers_companion consistent bound).bind fun adjoint t later adds consistent found =>
    rest adjoint t later adds.le consistent ⟨rfl, found⟩

theorem delivers_comparison (consistent : Consistent Any types s) {b : Name} {x y : Operand}
    (outcome : types.find? b = some (.scalar .bool)) (left : x.HasType types (.scalar k))
    (right : y.HasType types (.scalar k)) :
    Delivers Any (comparison k b x y) s types fun _ _ => True := by
  have both (d : Name) (t : DiffState) (later : NameTable Ty) (le : types ≤ later)
      (consistent : Consistent Any later t) (amount : later.find? d = some (.scalar k)) :
      Delivers Any (do contributeTo x d; contributeTo y d) t later fun _ _ => True := by
    refine (delivers_contributeTo consistent (left.mono le) amount).bind
      fun _ u wider adds consistent _ => ?_
    exact delivers_contributeTo consistent (right.mono (le_trans le adds.le)) (adds.le d _ amount)
  have bound {e : Exp} (numeric : k ≠ .cert) (typed : e.HasTypes types [.scalar k]) :
      Delivers Any (some <$> build (Build.letExp (.scalar k) e)) s types fun d later =>
        ∃ c, d = some c ∧ later.find? c = some (.scalar k) := by
    obtain ⟨later, adds, knows, here⟩ := Builder.letExp_adds consistent.knows numeric typed
    have made : Delivers Any (build (Build.letExp (.scalar k) e)) s types fun c later =>
        later.find? c = some (.scalar k) := delivers_build consistent adds knows here
    obtain ⟨c, t, later, gives, adds, consistent, found⟩ := made
    exact ⟨some c, t, later, (gives_map ..).mpr ⟨c, gives, rfl⟩, adds, consistent, c, rfl, found⟩
  cases k with
  | float w =>
    have made := bound (e := .branch (.var b) ⟨[], [.const (.float w 1.0)]⟩
      ⟨[], [.const (.float w 0.0)]⟩ [.scalar (.float w)] .normal) (by simp)
      ⟨outcome, rfl, ⟨trivial, .cons rfl .nil⟩, ⟨trivial, .cons rfl .nil⟩⟩
    refine made.bind ?_
    rintro _ t later adds consistent ⟨c, rfl, found⟩
    exact both c t later adds.le consistent found
  | int w =>
    have made := bound (e := .basic (.convert (.boolToInt w) (.var b))) (by simp)
      ⟨_, rfl, rfl, outcome⟩
    refine made.bind ?_
    rintro _ t later adds consistent ⟨c, rfl, found⟩
    exact both c t later adds.le consistent found
  | bool => exact .after (.pure (some b) s) (both b s types (le_refl _) consistent outcome)
  | cert => exact .after (.pure none s) (delivers_pure consistent trivial)

theorem delivers_basicOp (consistent : Consistent Any types s) {stm : Stm} {op : BasicOp} {p : Param}
    (alone : stm.pat = [p]) (value : p.ty.IsValue) (bound : types.find? p.name = some p.ty)
    (typed : op.HasType types p.ty) :
    Delivers Any (basicOp .standard stm op) s types fun _ _ => True := by
  obtain ⟨k, isScalar, numeric⟩ := value
  rw [isScalar] at bound typed
  cases op with
  | operand x =>
    cases x with
    | const v => exact delivers_pure consistent trivial
    | var x =>
      exact delivers_adjoint consistent alone bound fun adjoint t later le consistent amount =>
        delivers_contributeTo (x := .var x) consistent (Operand.HasType.mono typed le) amount.2
  | unary op x =>
    obtain ⟨same, typed⟩ := typed
    obtain rfl := Ty.scalar.inj same
    refine delivers_adjoint consistent alone bound fun adjoint t later le consistent amount => ?_
    have typed := typed.mono le
    exact delivers_contributeFormula consistent typed
      (amount.mul numeric (hasKind_unary op (Formula.hasKind_ofOperand typed)))
  | binary op x y =>
    obtain ⟨same, left, right⟩ := typed
    obtain rfl := Ty.scalar.inj same
    refine delivers_adjoint consistent alone bound fun adjoint t later le consistent amount => ?_
    have left := left.mono le
    have right := right.mono le
    obtain ⟨px, py⟩ := hasKind_binary op (Formula.hasKind_ofOperand left)
      (Formula.hasKind_ofOperand right)
    refine (delivers_contributeFormula consistent left (amount.mul numeric px)).bind
      fun _ u wider adds consistent _ => ?_
    exact delivers_contributeFormula consistent (right.mono adds.le)
      ((amount.mul numeric py).mono adds.le)
  | compare op x y =>
    obtain ⟨same, left, right⟩ := typed
    obtain rfl := Ty.scalar.inj same
    exact .after ((gives_single ..).mpr ⟨alone, rfl⟩) (delivers_comparison consistent bound left right)
  | convert op x =>
    obtain ⟨same, typed⟩ := typed
    obtain rfl := Ty.scalar.inj same
    refine delivers_adjoint consistent alone bound fun adjoint t later le consistent amount => ?_
    cases op with
    | floatToFloat source target =>
      exact delivers_contributeFormula consistent (typed.mono le) ⟨rfl, amount⟩
    | _ => exact delivers_pure consistent trivial
  | _ => exact absurd typed (by simp [BasicOp.HasType])

theorem delivers_apply (consistent : Consistent Any types s) {stm : Stm} {func : String}
    {args : List Operand} {kinds : List ScalarType} {p : Param} (alone : stm.pat = [p])
    (bound : types.find? p.name = some (.scalar k))
    (signature : Rules.standard.signature func = some (kinds, k))
    (typed : List.Forall₂ (fun kind x => x.HasType types (.scalar kind)) kinds args) :
    Delivers Any (apply .standard stm func args) s types fun _ _ => True := by
  obtain ⟨ds, gives, inPartials⟩ := partials_typed signature typed s
  refine .after ((gives_signature ..).mpr ⟨signature, rfl⟩) (.after gives ?_)
  refine delivers_adjoint consistent alone bound fun adjoint t later le consistent amount => ?_
  refine delivers_forM consistent fun a mem u wider further consistent => ?_
  obtain ⟨inArgs, inDs⟩ := List.of_mem_zip (show (a.1, a.2) ∈ _ from mem)
  have le := le_trans le further
  exact delivers_contributeFormula consistent ((typed_args signature typed a.1 inArgs).mono le)
    ((amount.mono further).mul (consistent.numeric (le _ _ bound)) ((inPartials a.2 inDs).mono le))

/-! Statements and the table they are found in. -/

/-- The table has a type for each name of the scope, and for no other. -/
def Fits (known : NameTable Ty) (scope : Scope) : Prop :=
  ∀ x, x ∈ scope ↔ ∃ t, known.find? x = some t

theorem Fits.absent (fits : Fits known scope) {x : Name} (new : x ∉ scope) :
    known.find? x = none := by
  cases found : known.find? x with
  | none => rfl
  | some t => exact absurd ((fits x).mpr ⟨t, found⟩) new

theorem Fits.declare (fits : Fits known scope) (ps : List Param) :
    Fits (known.declare ps) ((paramOutline ps).after scope) := by
  intro x
  rw [mem_after_paramOutline]
  constructor
  · intro member
    by_cases bound : x ∈ (ps.map fun p => (p.name, p.ty)).map (·.1)
    · obtain ⟨t, -, found⟩ := find_insertAll_of_mem known _ x bound
      exact ⟨t, found⟩
    · have absent : ∀ p ∈ ps, p.name ≠ x := by
        rintro p mem rfl
        exact bound (by simpa using ⟨p, mem, rfl⟩)
      rcases member with outer | ⟨p, mem, same⟩
      · obtain ⟨t, found⟩ := (fits x).mp outer
        exact ⟨t, (Builder.find_declared_of_not_mem known absent).trans found⟩
      · exact absurd same (absent p mem)
  · rintro ⟨t, found⟩
    rcases Builder.find_declared found with mem | ⟨-, outer⟩
    · exact .inr ⟨_, mem, rfl⟩
    · exact .inl ((fits x).mpr ⟨t, outer⟩)

theorem Fits.le_declare {ps : List Param} (fits : Fits known scope)
    (accepted : (paramOutline ps).Accepted scope) : known ≤ known.declare ps :=
  NameTable.le_declare fun _ mem => fits.absent (Builder.not_mem_of_params accepted mem)

theorem Fits.le_pattern {ss : List Stm} (fits : Fits known scope)
    (accepted : (stmOutline ss).Accepted scope) : known ≤ known.declare (ss.flatMap (·.pat)) :=
  NameTable.le_declare fun p mem => fits.absent (not_mem_of_pattern accepted p mem)

/-- The statement is well typed where it comes from, and the table has the types of what it may read
    and of what it binds. -/
structure Placed (types : NameTable Ty) (stm : Stm) : Prop where
  source : ∃ known scope, Fits known scope ∧ known ≤ types ∧ stm.outline.Closed scope ∧
    stm.WellTyped known
  pattern : ∀ p ∈ stm.pat, types.find? p.name = some p.ty

theorem Placed.mono {stm : Stm} (placed : Placed types stm) (le : types ≤ later) :
    Placed later stm := by
  obtain ⟨⟨known, scope, fits, inside, closed, typed⟩, pattern⟩ := placed
  exact ⟨⟨known, scope, fits, le_trans inside le, closed, typed⟩,
    fun p mem => le _ _ (pattern p mem)⟩

/-- Statements are placed where all of them have been bound. -/
theorem placed_of_mem {ss : List Stm} (fits : Fits known scope)
    (closed : (stmOutline ss).Closed scope) (typed : StmsWellTyped known ss) {stm : Stm}
    (mem : stm ∈ ss) : Placed (known.declare (ss.flatMap (·.pat))) stm := by
  induction ss generalizing known scope with
  | nil => simp at mem
  | cons first ss ih =>
    rw [stmOutline, closed_append, after_stm] at closed
    obtain ⟨closed, rest⟩ := closed
    obtain ⟨-, -, closedPat⟩ := (closed_stm _ _).mp closed
    have inner := fits.declare first.pat
    have le := inner.le_pattern rest.1
    rw [List.flatMap_cons, declare_append]
    rcases List.mem_cons.mp mem with rfl | mem
    · refine ⟨⟨known, scope, fits, le_trans (fits.le_declare closedPat.1) le, closed, typed.1⟩,
        fun p inPat => ?_⟩
      exact le _ _ (find_declare_of_mem (nodup_of_accepted closedPat.1) inPat)
    · exact ih inner rest typed.2 mem

/-! Sweeps. -/

/-- Going back over a statement succeeds wherever it is placed. -/
def Returns (back : Stm → Diff Unit) (depth : Nat) : Prop :=
  ∀ (stm : Stm) (s : DiffState) (types : NameTable Ty), stm.branchDepth ≤ depth → Placed types stm →
    Consistent Any types s → Delivers Any (back stm) s types fun _ _ => True

theorem delivers_sweep {back : Stm → Diff Unit} {depth : Nat} (returns : Returns back depth)
    {b : Body} {ts us : List Ty} {seeds xs : List Name} (nested : b.branchDepth ≤ depth)
    (fits : Fits known scope) (le : known ≤ types) (closed : b.outline.Closed scope)
    (typed : b.HasTypes known ts) (new : Builder.New Any types s.builder (b.stms.flatMap (·.pat)))
    (consistent : Consistent Any types s) (amounts : NamesHave types ts seeds)
    (names : NamesHave types us xs) :
    Delivers Any (do sweep back b.stms (seed b.result seeds); adjoints xs) s types
      fun ys later => List.Forall₂ (Operand.HasType later) us ys := by
  obtain ⟨wellTyped, inResult⟩ := (body_hasTypes b ts).mp typed
  rw [body_outline, closed_append] at closed
  rw [branchDepth_body] at nested
  obtain ⟨adds, knows⟩ := consistent.knows.emit (fun _ _ => trivial)
    (stmsWellTyped_mono b.stms wellTyped le) new
  have emitted : Delivers Any (b.stms.forM fun stm => build (Build.add stm)) s types fun _ later =>
      later = types.declare (b.stms.flatMap (·.pat)) :=
    ⟨(), _, _, (gives_emit ..).mpr rfl, adds, consistent.build adds.le knows, rfl⟩
  have swept : Delivers Any (sweep back b.stms (seed b.result seeds)) s types fun _ _ => True := by
    refine emitted.bind ?_
    rintro _ t _ - consistent rfl
    have inside := declare_mono le (b.stms.flatMap (·.pat))
    refine (delivers_seed consistent (operands_mono inResult inside) (amounts.mono adds.le)).bind
      fun _ u later adds consistent _ => ?_
    refine delivers_forM consistent fun stm mem v wider further consistent => ?_
    have mem := List.mem_reverse.mp mem
    have placed := placed_of_mem fits closed.1 wellTyped mem
    exact returns stm v wider (Nat.le_trans (branchDepth_le mem) nested)
      (placed.mono (le_trans inside (le_trans adds.le further))) consistent
  exact swept.bind fun _ t later adds consistent _ => delivers_adjoints consistent (names.mono adds.le)

/-- A branch is typed again under fresh names. -/
theorem delivers_branchBody {back : Stm → Diff Unit} {depth : Nat} (returns : Returns back depth)
    {b : Body} {ts us : List Ty} {seeds xs : List Name} (nested : b.branchDepth ≤ depth)
    (fits : Fits known scope) (le : known ≤ types) (closed : b.outline.Closed scope)
    (typed : b.HasTypes known ts) (consistent : Consistent Any types s)
    (amounts : NamesHave types ts seeds) (names : NamesHave types us xs) :
    Delivers Any (branchBody back seeds xs b) s types fun b later =>
      b.HasTypes types us ∧ types = later := by
  have below : scope.Below s.builder.supply.next := by
    intro x known
    obtain ⟨t, found⟩ := (fits x).mp known
    exact consistent.knows.drawn x t (le x t found)
  obtain ⟨renamedClosed, -, fresh, next_le⟩ :=
    Body.closed_rename (s := s.builder.supply) closed (fun _ known => known) below
  have renamedTyped := typed.rename closed (fun x t found => (fits x).mpr ⟨t, found⟩) below
  have sameDepth := ((scalarCode_of_typedBody b typed).rename s.builder.supply).2
  refine .prepend (.build (Build.renamed b) s) (.aside rfl next_le) ?_
  have new : Builder.New Any types (Build.renamed b s.builder).2
      ((b.rename s.builder.supply).1.stms.flatMap (·.pat)) := by
    have range (p : Param) (mem : p ∈ (b.rename s.builder.supply).1.stms.flatMap (·.pat)) :
        s.builder.supply.next ≤ p.name.id ∧ p.name.id < (b.rename s.builder.supply).2.next := by
      refine fresh p.name ?_
      rw [body_outline, binders_append]
      exact List.mem_append_left _ (pattern_binder p mem)
    exact {
      absent := fun p mem => consistent.knows.absent (range p mem).1
      drawn := fun p mem => (range p mem).2
      named := fun _ _ => trivial
      value := value_of_wellTyped ((body_hasTypes _ _).mp renamedTyped).1 }
  have knows := consistent.knows.draw (c := (Build.renamed b s.builder).2) consistent.knows.typed next_le
  have consistent := consistent.build (le_refl _) knows
  exact delivers_isolated consistent (delivers_sweep returns (Nat.le_trans (Nat.le_of_eq sameDepth) nested)
    fits le renamedClosed renamedTyped { new with } consistent.isolated amounts names)

/-! Branches. -/

/-- A copy of a pattern with names drawn one after the other. -/
theorem gives_copies (ps : List Param) (s : DiffState) :
    Gives (ps.mapM fun p => return { p with name := ← build Build.fresh }) s
      (paramsFrom s.builder.supply.next (ps.map (·.ty)))
      { s with builder := { s.builder with supply := ⟨s.builder.supply.next + ps.length⟩ } } := by
  induction ps generalizing s with
  | nil => exact .pure _ _
  | cons p ps ih =>
    rw [List.mapM_cons]
    have rest := ih { s with builder := { s.builder with supply := ⟨s.builder.supply.next + 1⟩ } }
    have first : Gives (do return { p with name := ← build Build.fresh }) s
        ⟨⟨s.builder.supply.next⟩, p.ty⟩
        { s with builder := { s.builder with supply := ⟨s.builder.supply.next + 1⟩ } } :=
      Gives.bind (.build Build.fresh s) (.pure _ _)
    rw [List.length_cons, Nat.add_comm ps.length, ← Nat.add_assoc]
    exact first.bind (rest.bind (.pure _ _))

theorem namesHave_params {ps : List Param} (values : ∀ p ∈ ps, p.ty.IsValue)
    (found : ∀ p ∈ ps, types.find? p.name = some p.ty) :
    NamesHave types (ps.map (·.ty)) (ps.map (·.name)) := by
  refine List.forall₂_map_left_iff.mpr (List.forall₂_map_right_iff.mpr (List.forall₂_same.mpr ?_))
  exact fun p mem => ⟨values p mem, found p mem⟩

/-- The adjoints of a pattern, as seeds for what it stands for. -/
theorem delivers_companions (consistent : Consistent Any types s) {ps : List Param}
    (values : ∀ p ∈ ps, p.ty.IsValue) (found : ∀ p ∈ ps, types.find? p.name = some p.ty) :
    Delivers Any (ps.mapM fun p => companion p.name) s types fun seeds later =>
      NamesHave later (ps.map (·.ty)) seeds := by
  refine delivers_mapM (fun types t (p : Param) => t.IsValue ∧ types.find? p.name = some t)
    (fun types t x => t.IsValue ∧ types.find? x = some t)
    (fun _ _ _ p le typed => ⟨typed.1, le p.name _ typed.2⟩)
    (fun _ _ _ x le typed => ⟨typed.1, le x _ typed.2⟩) (fun t p s later consistent typed => ?_)
    consistent (List.forall₂_map_left_iff.mpr (List.forall₂_same.mpr fun p mem =>
      ⟨values p mem, found p mem⟩))
  obtain ⟨⟨k, rfl, numeric⟩, bound⟩ := typed
  exact (delivers_companion consistent bound).mono fun c later _ bound =>
    ⟨isValue_scalar.mpr numeric, bound⟩

theorem delivers_typed (consistent : Consistent Any types s) {xs : List Name}
    (known : ∀ x ∈ xs, ∃ t, types.find? x = some t) :
    Delivers Any (xs.mapM fun x => return Param.mk x (← typeOf x)) s types
      fun (ps : List Param) later => ∀ p ∈ ps, p.ty.IsValue ∧ later.find? p.name = some p.ty := by
  refine delivers_collect
    (P := fun types (p : Param) => p.ty.IsValue ∧ types.find? p.name = some p.ty) consistent
    (fun _ _ p le typed => ⟨typed.1, le p.name _ typed.2⟩) fun x mem u later le consistent => ?_
  obtain ⟨t, found⟩ := known x mem
  have found := le x t found
  exact .after (consistent.gives_typeOf found)
    (delivers_pure consistent ⟨consistent.knows.value x t found, found⟩)

/-- An expression is bound to new names, whose values go to the adjoints of names of their types. -/
theorem delivers_credits (consistent : Consistent Any types s) {ps : List Param} {e : Exp}
    (typed : e.HasTypes types (ps.map (·.ty))) (values : ∀ p ∈ ps, p.ty.IsValue)
    (found : ∀ p ∈ ps, types.find? p.name = some p.ty) (aux : Annotations) :
    Delivers Any (do
      let pat ← ps.mapM fun p => return { p with name := ← build Build.fresh }
      build (Build.add ⟨pat, aux, e⟩)
      (ps.zip pat).forM fun p => contribute p.1.name p.2.name) s types fun _ _ => True := by
  refine .prepend (gives_copies ps s) (.aside rfl (Nat.le_add_right _ _)) ?_
  have drawn := consistent.knows.draw
    (c := { s.builder with supply := ⟨s.builder.supply.next + ps.length⟩ }) consistent.knows.typed
    (Nat.le_add_right _ _)
  have new : Builder.New Any types { s.builder with supply := ⟨s.builder.supply.next + ps.length⟩ }
      (paramsFrom s.builder.supply.next (ps.map (·.ty))) :=
    consistent.knows.new_paramsFrom (by simpa using values) (by simp)
  have sameTypes := types_paramsFrom s.builder.supply.next (ps.map (·.ty))
  have distinct := nodup_paramsFrom s.builder.supply.next (ps.map (·.ty))
  generalize paramsFrom s.builder.supply.next (ps.map (·.ty)) = pat at new sameTypes distinct
  have whole : (Stm.mk pat aux e).WellTyped types := ⟨new.value, sameTypes ▸ typed⟩
  obtain ⟨adds, knows⟩ := drawn.add (fun _ _ => trivial) whole new
  have emitted := delivers_build (P := fun _ later => later = types.declare pat)
    (consistent.build (le_refl _) drawn) adds knows rfl
  refine emitted.bind ?_
  rintro _ t _ - consistent rfl
  refine delivers_forM consistent fun r mem u later le consistent => ?_
  obtain ⟨source, copy⟩ := List.of_mem_zip (show (r.1, r.2) ∈ _ from mem)
  obtain ⟨k, isScalar, -⟩ := values r.1 source
  have target := le _ _ (adds.le _ _ (found r.1 source))
  have amount := le _ _ (find_declare_of_mem distinct copy)
  rw [ty_of_mem_zip sameTypes mem] at amount
  rw [isScalar] at target amount
  exact delivers_contribute consistent target amount

theorem delivers_branch {back : Stm → Diff Unit} {depth : Nat} (returns : Returns back depth)
    {pat : List Param} {aux : Annotations} {cond : Operand} {yes no : Body} {ret : List Ty}
    {sort sort' : BranchSort} (nestedYes : yes.branchDepth ≤ depth) (nestedNo : no.branchDepth ≤ depth)
    (placed : Placed types ⟨pat, aux, .branch cond yes no ret sort⟩)
    (consistent : Consistent Any types s) :
    Delivers Any (branch back ⟨pat, aux, .branch cond yes no ret sort⟩ cond yes no sort') s types
      fun _ _ => True := by
  obtain ⟨known, scope, fits, le, closed, values, isBool, rfl, yesTyped, noTyped⟩ := placed.source
  have closedExp := ((closed_stm _ _).mp closed).2.1
  simp only [Exp.outline, closed_append, after_append, closed_readsAll, after_readsAll, closed_block,
    closed_mentionsAll, after_mentionsAll, closed_count, closed_done, after] at closedExp
  obtain ⟨⟨⟨⟨-, closedYes, -⟩, closedNo, -⟩, -⟩, -⟩ := closedExp
  refine (delivers_companions consistent values placed.pattern).bind
    fun seeds t later adds consistent amounts => ?_
  have le := le_trans le adds.le
  have inScope : ∀ x ∈ freeNames yes no, ∃ t, later.find? x = some t := by
    intro x mem
    obtain ⟨t, found⟩ := (fits x).mp (mem_freeNames closedYes closedNo x mem)
    exact ⟨t, le x t found⟩
  refine (delivers_typed consistent inScope).bind fun params u wider more consistent inParams => ?_
  have le := le_trans le more.le
  have amounts := amounts.mono more.le
  have inFree : ∀ p ∈ params.filter fun p => !p.ty.isAcc,
      p.ty.IsValue ∧ wider.find? p.name = some p.ty := fun p mem =>
    inParams p (List.mem_filter.mp mem).1
  dsimp only
  generalize (params.filter fun p => !p.ty.isAcc) = free at inFree
  cases isEmpty : free.isEmpty with
  | true => exact delivers_pure consistent trivial
  | false =>
    have freeValues : ∀ p ∈ free, p.ty.IsValue := fun p mem => (inFree p mem).1
    have found : ∀ p ∈ free, wider.find? p.name = some p.ty := fun p mem => (inFree p mem).2
    have names := namesHave_params freeValues found
    refine (delivers_branchBody returns nestedYes fits le closedYes yesTyped consistent amounts
      names).bind ?_
    rintro b v _ - consistent ⟨inYes, rfl⟩
    refine (delivers_branchBody returns nestedNo fits le closedNo noTyped consistent amounts
      names).bind ?_
    rintro c w _ - consistent ⟨inNo, rfl⟩
    have typed : (Exp.branch cond b c (free.map (·.ty)) sort').HasTypes wider (free.map (·.ty)) :=
      ⟨isBool.mono le, rfl, inYes, inNo⟩
    exact delivers_credits consistent typed freeValues found aux

/-! Programs. -/

/-- Basic operations and calls need no depth. -/
theorem delivers_flat (depth : Nat) {stm : Stm}
    (notBranch : ∀ cond yes no ret sort, stm.exp ≠ .branch cond yes no ret sort)
    (placed : Placed types stm) (consistent : Consistent Any types s) :
    Delivers Any (Reverse.stm .standard depth stm) s types fun _ _ => True := by
  obtain ⟨pat, aux, e⟩ := stm
  obtain ⟨known, scope, -, le, -, values, typed⟩ := placed.source
  have typed := expHasTypes_mono e typed le
  cases e with
  | basic op =>
    obtain ⟨t, returns, typed⟩ := typed
    obtain ⟨p, rfl, rfl⟩ := List.map_eq_singleton_iff.mp returns
    rw [Reverse.stm]
    exact delivers_basicOp consistent rfl (values p (by simp)) (placed.pattern p (by simp)) typed
  | apply func args ret =>
    obtain ⟨kinds, k, found, inArgs, rfl, returns⟩ := typed
    obtain ⟨p, rfl, isScalar⟩ := List.map_eq_singleton_iff.mp returns.symm
    rw [Reverse.stm]
    exact delivers_apply consistent rfl (isScalar ▸ placed.pattern p (by simp)) found inArgs
  | branch cond yes no ret sort => exact absurd rfl (notBranch cond yes no ret sort)
  | _ => exact absurd typed (by simp [Exp.HasTypes])

theorem returns_stm (depth : Nat) : Returns (stm .standard depth) depth := by
  induction depth with
  | zero =>
    rintro ⟨pat, aux, e⟩ s types nested placed consistent
    refine delivers_flat 0 ?_ placed consistent
    rintro cond yes no ret sort rfl
    simp [Stm.branchDepth, Exp.branchDepth] at nested
  | succ depth ih =>
    rintro ⟨pat, aux, e⟩ s types nested placed consistent
    cases e with
    | branch cond yes no ret sort =>
      simp only [Stm.branchDepth, Exp.branchDepth] at nested
      exact delivers_branch ih (by omega) (by omega) placed consistent
    | _ => exact delivers_flat (depth + 1) (by simp) placed consistent

/-! Whole lambdas. -/

section

variable {l : Lambda}

/-- Both parameters and seeds, in the order in which they are declared. -/
abbrev inputs (l : Lambda) (s : Supply) : NameTable Ty :=
  (NameTable.declare .empty l.params).declare (paramsFrom (s.reserve l).next l.ret)

theorem knows_params (typed : l.WellTyped) (s : Supply) :
    (Builder.mk (s.reserve l) (.declare .empty l.params) []).Knows Any (.declare .empty l.params) := by
  have small (p : Param) (mem : p ∈ l.params) : p.name.id < (s.reserve l).next := by
    refine binder_lt s l ?_
    rw [lambda_binders]
    exact List.mem_append_left _ ((mem_binders_paramOutline ..).mpr ⟨p, mem, rfl⟩)
  have new : Builder.New Any .empty (.ofSupply (s.reserve l)) l.params := {
    absent := fun _ _ => find_empty _
    drawn := small
    named := fun _ _ => trivial
    value := typed.params }
  have empty : (Builder.ofSupply (s.reserve l)).Knows Any .empty :=
    Builder.knows_empty fun _ _ => trivial
  exact empty.declare (fun _ _ => trivial) new (le_refl _) rfl

theorem new_seeds (typed : l.WellTyped) (s : Supply) :
    Builder.New Any (.declare .empty l.params) (opened l s).builder
      (paramsFrom (s.reserve l).next l.ret) :=
  (knows_params typed s).new_paramsFrom typed.ret (Nat.le_refl _)

theorem consistent_opened (typed : l.WellTyped) (s : Supply) :
    Consistent Any (inputs l s) (opened l s) := by
  have drawn := (knows_params typed s).draw
    (c := ⟨(opened l s).builder.supply, .declare .empty l.params, []⟩) (le_refl _) (Nat.le_add_right _ _)
  have knows : (opened l s).builder.Knows Any (inputs l s) :=
    drawn.declare (fun _ _ => trivial) { new_seeds typed s with } (le_refl _) rfl
  exact ⟨knows, fun x c found => by simp [opened, find_empty] at found⟩

/-- What the body binds is neither a parameter nor a seed. -/
theorem new_body (typed : l.WellTyped) (s : Supply)
    (closed : l.body.outline.Closed ((paramOutline l.params).after []))
    (fits : Fits (.declare .empty l.params) ((paramOutline l.params).after [])) :
    Builder.New Any (inputs l s) (opened l s).builder (l.body.stms.flatMap (·.pat)) := by
  have small (p : Param) (mem : p ∈ l.body.stms.flatMap (·.pat)) : p.name.id < (s.reserve l).next := by
    refine binder_lt s l ?_
    rw [lambda_binders, body_outline, binders_append]
    exact List.mem_append_right _ (List.mem_append_left _ (pattern_binder p mem))
  rw [body_outline, closed_append] at closed
  exact {
    absent := fun p mem => by
      have notParam := fits.absent (not_mem_of_pattern closed.1.1 p mem)
      have notSeed : ∀ q ∈ paramsFrom (s.reserve l).next l.ret, q.name ≠ p.name := by
        intro q inSeeds same
        have undrawn := (bounds_paramsFrom inSeeds).1
        rw [same] at undrawn
        exact absurd (small p mem) (Nat.not_lt.mpr undrawn)
      exact (Builder.find_declared_of_not_mem _ notSeed).trans notParam
    drawn := fun p mem => Nat.lt_of_lt_of_le (small p mem) (Nat.le_add_right _ _)
    named := fun _ _ => trivial
    value := value_of_wellTyped ((body_hasTypes _ _).mp typed.body).1 }

end

end Reverse

namespace Lambda.WellTyped

open Reverse

variable {l : Lambda}

theorem reverse (typed : l.WellTyped) (valid : l.validate = .ok ()) (s : Supply) :
    ∃ out, (l.reverse .standard s).1 = .ok out ∧ out.WellTyped := by
  obtain ⟨closedParams, closedBody, -⟩ :=
    (closed_lambda l []).mp (Elementary.mk valid typed.scalarCode).closed
  have fits : Fits (.declare .empty l.params) ((paramOutline l.params).after []) :=
    Fits.declare (fun x => by simp [find_empty]) l.params
  have seeds := new_seeds typed s
  have le : NameTable.declare .empty l.params ≤ inputs l s := NameTable.le_declare seeds.absent
  have amounts : NamesHave (inputs l s) l.ret ((paramsFrom (s.reserve l).next l.ret).map (·.name)) := by
    have bound : ∀ p ∈ paramsFrom (s.reserve l).next l.ret, (inputs l s).find? p.name = some p.ty :=
      fun p mem => find_declare_of_mem (nodup_paramsFrom _ _) mem
    have amounts := namesHave_params seeds.value bound
    rwa [types_paramsFrom] at amounts
  have names : NamesHave (inputs l s) (l.params.map (·.ty)) (l.params.map (·.name)) :=
    namesHave_params typed.params fun p mem =>
      le _ _ (find_declare_of_mem (nodup_of_accepted closedParams.1) mem)
  have consistent := consistent_opened typed s
  have inner := delivers_sweep (returns_stm l.body.branchDepth) (Nat.le_refl _) fits le closedBody
    typed.body (new_body typed s closedBody fits) consistent.cleared amounts names
  obtain ⟨b, t, gives, bodyTyped, -⟩ := gives_typedBody consistent inner
  refine ⟨_, (gives_start _ _ _).mpr ⟨t, (gives_top ..).mpr ⟨b, gives, rfl⟩⟩, ?_, ?_, ?_⟩
  · exact List.forall_mem_append.mpr ⟨typed.params, seeds.value⟩
  · simpa using typed.params
  · rw [declare_append]
    exact bodyTyped

end Lambda.WellTyped

/-- Every pass succeeds on well-typed code and makes well-typed code of it. -/
theorem Pass.run_wellTyped (p : Pass) (l : Lambda) (s : Supply) (valid : l.validate = .ok ())
    (typed : l.WellTyped) : ∃ out, (p.run l s).1 = .ok out ∧ out.WellTyped := by
  cases p with
  | forward => exact typed.forward valid s
  | forwardBundled => exact typed.forwardBundled valid s
  | reverse => exact typed.reverse valid s

/-- The root of a power under a condition, in single precision. -/
def roundedRoot : Lambda :=
  let t : Ty := .scalar (.float .f64)
  let u : Ty := .scalar (.float .f32)
  let bool : Ty := .scalar .bool
  ⟨[⟨⟨0⟩, t⟩, ⟨⟨1⟩, t⟩],
    ⟨[⟨[⟨⟨2⟩, bool⟩], .none, .basic (.compare (.float .lt .f64) (.var ⟨0⟩) (.var ⟨1⟩))⟩,
      ⟨[⟨⟨3⟩, t⟩], .none, .branch (.var ⟨2⟩)
        ⟨[⟨[⟨⟨4⟩, t⟩], .none, .basic (.binary (.float .pow .f64) (.var ⟨0⟩) (.var ⟨1⟩))⟩], [.var ⟨4⟩]⟩
        ⟨[], [.var ⟨1⟩]⟩ [t] .normal⟩,
      ⟨[⟨⟨5⟩, t⟩], .none, .apply "sqrt64" [.var ⟨3⟩] [t]⟩,
      ⟨[⟨⟨6⟩, u⟩], .none, .basic (.convert (.floatToFloat .f64 .f32) (.var ⟨5⟩))⟩],
      [.var ⟨6⟩]⟩, [u]⟩

theorem run_roundedRoot : roundedRoot.validate = .ok () ∧ roundedRoot.WellTyped ∧
    ∀ p : Pass, ∃ out, (p.run roundedRoot ⟨0⟩).1 = .ok out ∧ out.WellTyped := by
  have valid : roundedRoot.validate = .ok () := by decide
  have sqrt : Rules.standard.signature "sqrt64" = some ([.float .f64], .float .f64) :=
    signature_name .sqrt .f64
  have typed : roundedRoot.WellTyped := by
    refine ⟨?_, ?_, ?_⟩
    · simp [roundedRoot, isValue_scalar]
    · simp [roundedRoot, isValue_scalar]
    · simp [roundedRoot, Body.HasTypes, StmsWellTyped, Stm.WellTyped, Exp.HasTypes, BasicOp.HasType,
        Operand.HasType, NameTable.declare, NameTable.insertAll, find_insert, isValue_scalar, sqrt,
        Comparison.ty, BinaryOp.ty, Conversion.source, Conversion.target]
  exact ⟨valid, typed, fun p => p.run_wellTyped roundedRoot ⟨0⟩ valid typed⟩

end Cotangent
