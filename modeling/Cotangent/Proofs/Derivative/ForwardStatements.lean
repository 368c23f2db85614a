import Cotangent.Proofs.Derivative.ForwardParts
/-!
Forward differentiation of statements. Each construct is shown to emit statements that are closed and
to leave the tangents of other names alone, given that its parts do so; the recursion over programs
at the end puts the constructs together.
-/
namespace Cotangent

open Outline

/-- The names of loop parameters. Their tangents stay recorded after the loop has closed their scope. -/
def Stm.leaks : Stm → List Name
  | ⟨_, _, .loop merge form _⟩ => (loopParams merge form).map (·.name)
  | _ => []

/-- The pattern of a statement shares no name with what is bound inside its expression. -/
def Stm.Apart (s : Stm) : Prop := ∀ p ∈ s.pat, p.name ∉ (s.exp.outline s.pat.length).binders

/-- The statement is not about accumulators, a call is one of a builtin function with as many arguments
    as it takes, and the lambda of a stream has a parameter for the width. -/
def Stm.Supported (s : Stm) : Prop :=
  match s.exp with
  | .basic (.updateAcc ..) => False
  | .withAcc .. => False
  | .apply func args _ =>
    s.pat.length = 1 ∧ ∃ sig, Rules.standard.signature func = some sig ∧ args.length = sig.1.length
  | .stream _ _ _ _ lam => lam.params ≠ []
  | _ => True

def Part.Supported : Part → Prop
  | .ty t => t.isAcc = false
  | .stm s => s.Supported
  | .body _ => True

/-- The tangents of a pattern are drawn before the bodies inside are transformed, except in a
    conditional. -/
def Stm.Shielded (s : Stm) : Prop :=
  match s.exp with
  | .branch .. => True
  | _ => s.Apart

/-- What forward differentiation needs of each part. Names that are bound once in the whole program
    are more than enough: sibling scopes may share names unless a loop or a pattern interferes. -/
def Part.Fine : Part → Prop
  | .ty t => t.isAcc = false
  | .stm s => s.Supported ∧ s.Shielded
  | .body b => b.stms.Pairwise fun first later => ∀ x ∈ first.leaks, x ∉ later.outline.binders

namespace Forward

open Diff

variable {s t u : DiffState} {source scope middle later : Scope} {bound : Nat} {o p : Outline}

/-- The state after a statement was added. -/
def added (stm : Stm) (s : DiffState) : DiffState :=
  { s with builder := (Build.add stm s.builder).2 }

theorem gives_add (stm : Stm) (s : DiffState) : Gives (build (Build.add stm)) s () (added stm s) :=
  Gives.build _ _

theorem pending_stm (stm : Stm) : Pending bound source s stm.outline ↔
    (∀ x ∈ stm.aux.certs, x ∈ source) ∧
      Pending bound source s (stm.exp.outline stm.pat.length) ∧
      Pending bound source s (paramOutline stm.pat) := by
  obtain ⟨pat, aux, e⟩ := stm
  simp [Stm.outline, Scope.after_exp, and_assoc]

/-! Statements with one tangent. -/

/-- The tangent of a name is drawn, bound to what the action yields, and recorded. -/
theorem bindTangent_goes (serves : Serves bound source scope s) (q : Param) (aux : Annotations)
    {act : Build Exp} (key : q.name ∈ source) (plain : q.ty.isAcc = false)
    (typed : ∀ y ∈ q.ty.names, y ∈ scope) (certs : ∀ x ∈ aux.certs, x ∈ scope)
    (yields : Yields act scope) :
    ∃ t later, Gives (do
        let tan ← newTangent q
        build do Build.add ⟨[tan], aux, ← act⟩) s () t ∧
      Goes bound source s scope t later := by
  have drawn : Aside s scope (withTangents s [q]) := {
    stms := rfl
    next_le := by simp [withTangents]
    types := fun x known => type_withTangents_of_lt s [q] (serves.ready.below x known) }
  have start := drawn.grows serves.ready
  obtain ⟨middle, emits, closed, flat⟩ := yields _ scope start.ready fun _ known => known
  have grows := start.trans emits
  have fresh : (⟨s.builder.supply.next⟩ : Name) ∉ middle := fun known => by
    rcases emits.fresh _ known with known | later
    · exact serves.ready.below.fresh known
    · simp only [withTangents, List.length_singleton] at later
      omega
  have closed : (Stm.mk [⟨⟨s.builder.supply.next⟩, q.ty⟩] aux
      (act (withTangents s [q]).builder).1).outline.Closed middle := by
    refine (closed_stm _ _).mpr ⟨fun x mem => grows.sub (certs x mem), closed, ?_⟩
    rw [closed_cons_param]
    exact ⟨fresh, fun y mem => Or.inr (grows.sub (typed y mem)), closed_done _⟩
  have grown := grows.add closed (by
    have := emits.next_le
    simpa [withTangents, Nat.succ_le_iff] using this) (by simp [flat, Scope.Below])
  have built := serves.build grown
  have recorded := built.serves.setCompanion (c := ⟨s.builder.supply.next⟩) key
    (by simp [paramOutline, Param.outline])
  have whole := built.trans recorded.toGoes
  exact ⟨_, _, (gives_newTangent plain s).bind (Gives.build _ _), whole⟩

/-- A statement is emitted as it is. -/
theorem add_emits (serves : Serves bound source scope s) {stm : Stm}
    (pending : Pending bound source s stm.outline) (plain : ∀ q ∈ stm.pat, q.ty.isAcc = false) :
    Emits bound source scope s ((paramOutline stm.pat).after source)
      ((paramOutline stm.pat).after scope) (added stm s) := by
  obtain ⟨certs, inside, pattern⟩ := (pending_stm stm).mp pending
  obtain ⟨pat, aux, e⟩ := stm
  have small := small_of_pending pattern
  refine (Goes.refl serves).emits.bind [] (serves.within.after pat)
    (serves.within.closed pattern.closed pattern.small) small plain (fun _ mem => mem) (by simp)
    (fun q mem => Nat.lt_of_lt_of_le (small q mem) serves.reserved) ?_
    (fun x mem => serves.sub x (certs x mem)) (serves.within.closed inside.closed inside.small)
    (inside.small.mono serves.reserved)
  intro q mem c found
  exact absurd ((unclaimed_of_pending pattern q mem).symm.trans found) (by simp)

/-- What follows a statement that was emitted as it is. -/
theorem Emits.runs {stm : Stm} {act : Diff Unit}
    (emits : Emits bound source scope s ((paramOutline stm.pat).after source) middle (added stm s))
    (goes : Goes bound ((paramOutline stm.pat).after source) (added stm s) middle t later)
    (gives : Gives act s () t) :
    ∃ t later, Gives act s () t ∧ Emits bound source scope s (stm.outline.after source) later t ∧
      ∀ x, x ∉ stm.outline.after source → x ∉ ([] : List Name) →
        t.companions.find? x = s.companions.find? x := by
  refine ⟨t, later, gives, ?_, fun x other _ => ?_⟩
  · rw [after_stm]
    exact emits.trans goes.emits
  · rw [after_stm] at other
    exact goes.kept x other

variable {rules : Rules} {pat : List Param} {aux : Annotations}

theorem basicOp_runs (localRules : rules.Local) {op : BasicOp}
    (plain : ∀ q ∈ pat, q.ty.isAcc = false)
    (value : ∀ acc position values, op ≠ .updateAcc acc position values) :
    Runs bound (basicOp rules ⟨pat, aux, .basic op⟩ op) (Stm.outline ⟨pat, aux, .basic op⟩) [] := by
  intro source scope s serves pending
  have emits := add_emits serves pending plain
  obtain ⟨certs, inside, pattern⟩ := (pending_stm _).mp pending
  simp only [Exp.outline, BasicOp.outline, pending_append, pending_readsAll, pending_mentionsAll,
    pending_count, after_append, after_readsAll, after_mentionsAll] at inside
  obtain ⟨⟨reads, types⟩, arity, -⟩ := inside
  obtain ⟨q, rfl⟩ := List.length_eq_one_iff.mp arity
  by_cases constant : isConstant op = true
  · refine emits.runs (.refl emits.serves) ?_
    simpa [basicOp, constant] using (gives_add _ s).bind (.pure () _)
  · have varies : isConstant op = false := by simpa using constant
    obtain ⟨act, t, middle, gives, asks, yields⟩ := tangentExp_asks localRules emits.serves
      ⟨[q], aux, .basic op⟩ (fun x mem => mem_after _ (reads x mem))
      (fun x mem => mem_after _ (types x mem)) varies value
    have closed := serves.within.closed pattern.closed pattern.small
    obtain ⟨u, later, gives', goes⟩ := bindTangent_goes asks.serves q aux
      ((mem_after_paramOutline ..).mpr (Or.inr ⟨q, by simp, rfl⟩)) (plain q (by simp))
      (fun y mem => asks.sub (typesIn_params closed.2 q (by simp) y mem))
      (fun x mem => asks.sub (emits.sub (serves.sub x (certs x mem)))) yields
    refine emits.runs (asks.toGoes.trans goes) ?_
    have alone : Gives (single .forward ⟨[q], aux, .basic op⟩) (added ⟨[q], aux, .basic op⟩ s) q
        (added ⟨[q], aux, .basic op⟩ s) := (gives_single ..).mpr ⟨rfl, rfl⟩
    simp only [basicOp, varies, Bool.not_false, if_true]
    exact (gives_add _ s).bind (alone.bind (gives.bind gives'))

/-- The terms of a call's tangent: the tangent of each argument times its partial. -/
theorem terms_asks (serves : Serves bound source scope s) {args : List (ScalarType × Operand)}
    (ds : List Formula) (known : ∀ a ∈ args, Known source a.2)
    (partials : ∀ f ∈ ds, ∀ x ∈ f.names, x ∈ source) :
    ∃ terms t later, Gives ((args.zip ds).mapM fun a => do
        return (Formula.ofOperand a.1.1 (← tangent a.1.2)).mul a.2) s terms t ∧
      Asks bound source s scope t later ∧ terms.length = (args.zip ds).length ∧
      ∀ f ∈ terms, ∀ x ∈ f.names, x ∈ later := by
  refine mapM_asks (fun later f => ∀ x ∈ Formula.names f, x ∈ later) serves
    (fun sub inside x mem => sub x (inside x mem)) ?_
  intro a mem s scope serves
  obtain ⟨inArgs, inPartials⟩ := List.of_mem_zip (show (a.1, a.2) ∈ args.zip ds from mem)
  obtain ⟨y, t, later, gives, asks, inside⟩ := tangent_asks serves (known a.1 inArgs)
  refine ⟨_, t, later, gives.bind (.pure _ _), asks, ?_⟩
  rw [names_mul, List.forall_mem_append, names_ofOperand]
  exact ⟨inside, fun x inF => asks.serves.sub x (partials a.2 inPartials x inF)⟩

theorem yields_sum (scope : Scope) (terms : List Formula) (ret : ScalarType) :
    (∀ x ∈ formulaNames terms, x ∈ scope) →
      Yields (Build.expOf (match terms with
        | [] => Formula.zero ret
        | f :: fs => fs.foldl Formula.add f)) scope := by
  intro known
  refine yields_formula ?_
  cases terms with
  | nil => simp [Formula.zero, Formula.names]
  | cons f fs =>
    simp only [names_foldl_add]
    exact known

theorem apply_runs (localRules : rules.Local) (complete : rules.Complete) {func : String}
    {args : List Operand} {ret : List Ty} {sig : List ScalarType × ScalarType}
    (plain : ∀ q ∈ pat, q.ty.isAcc = false) (single_ : pat.length = 1)
    (known : rules.signature func = some sig) (arity : args.length = sig.1.length) :
    Runs bound (apply rules ⟨pat, aux, .apply func args ret⟩ func args)
      (Stm.outline ⟨pat, aux, .apply func args ret⟩) [] := by
  intro source scope s serves pending
  have emits := add_emits serves pending plain
  obtain ⟨certs, inside, pattern⟩ := (pending_stm _).mp pending
  simp only [Exp.outline, pending_append, pending_readsAll, pending_mentionsAll,
    pending_count, after_append, after_readsAll, after_mentionsAll] at inside
  obtain ⟨⟨reads, -⟩, -⟩ := inside
  obtain ⟨q, rfl⟩ := List.length_eq_one_iff.mp single_
  obtain ⟨ds, found⟩ := complete func sig
    ((sig.1.zip args).map fun a => Formula.ofOperand a.1 a.2) known (by simp [arity])
  have operands : ∀ a ∈ sig.1.zip args, Known ((paramOutline [q]).after source) a.2 :=
    fun a mem y inA => mem_after _
      (known_of_mem reads (List.of_mem_zip (show (a.1, a.2) ∈ sig.1.zip args from mem)).2 y inA)
  obtain ⟨terms, t, middle, gives, asks, -, inTerms⟩ := terms_asks emits.serves ds operands
    fun f mem x inF => by
      have inArgs := localRules.builtin _ _ _ found x ((mem_formulaNames ..).mpr ⟨f, mem, inF⟩)
      rw [names_formulas] at inArgs
      obtain ⟨y, inList, inY⟩ := List.mem_flatMap.mp inArgs
      obtain ⟨a, inZip, rfl⟩ := List.mem_map.mp inList
      exact operands a inZip x inY
  have yields := yields_sum middle terms sig.2 fun x mem => by
    obtain ⟨f, inList, inF⟩ := (mem_formulaNames ..).mp mem
    exact inTerms f inList x inF
  have closed := serves.within.closed pattern.closed pattern.small
  obtain ⟨u, later, gives', goes⟩ := bindTangent_goes asks.serves q aux
    ((mem_after_paramOutline ..).mpr (Or.inr ⟨q, by simp, rfl⟩)) (plain q (by simp))
    (fun y mem => asks.sub (typesIn_params closed.2 q (by simp) y mem))
    (fun x mem => asks.sub (emits.sub (serves.sub x (certs x mem)))) yields
  refine emits.runs (asks.toGoes.trans goes) ?_
  have signed : Gives (signature rules func) s sig s := (gives_signature ..).mpr ⟨known, rfl⟩
  have alone : Gives (single .forward ⟨[q], aux, .apply func args ret⟩) s q s :=
    (gives_single ..).mpr ⟨rfl, rfl⟩
  have ruled : Gives (partials rules func sig.1 args) (added ⟨[q], aux, .apply func args ret⟩ s) ds
      (added ⟨[q], aux, .apply func args ret⟩ s) := (gives_partials ..).mpr ⟨found, rfl⟩
  exact signed.bind (alone.bind ((gives_add _ s).bind (ruled.bind (gives.bind gives'))))

/-! Statements whose pattern is bound together with its tangents. -/

/-- A layout of binders and tangents that is closed wherever the binders are. -/
def Layout (bound : Nat) (source : Scope) (pat tans qs : List Param) : Prop :=
  (∀ q, q ∈ qs ↔ q ∈ pat ∨ q ∈ tans) ∧
    ∀ scope, Within bound source scope → Twins bound scope pat tans →
      (paramOutline qs).Closed scope ∧
        Within bound ((paramOutline pat).after source) ((paramOutline qs).after scope)

theorem layout_interleave {tans : List Param} (pattern : Pending bound source s (paramOutline pat))
    (length : tans.length = pat.length) : Layout bound source pat tans (interleave pat tans) := by
  refine ⟨mem_interleave_iff length, fun scope within twins => ?_⟩
  exact closed_interleave within pattern.closed (small_of_pending pattern) twins

theorem closed_twins (tans : List Param) (within : Within bound source scope)
    (typed : ∀ q ∈ tans, ∀ y ∈ q.ty.names, y ∈ scope) (nodup : (tans.map (·.name)).Nodup)
    (absent : ∀ q ∈ tans, q.name ∉ scope) (large : ∀ q ∈ tans, bound ≤ q.name.id) :
    (paramOutline tans).Closed scope ∧ Within bound source ((paramOutline tans).after scope) := by
  induction tans generalizing scope with
  | nil => simpa [paramOutline] using within
  | cons q tans ih =>
    obtain ⟨other, nodup⟩ := List.nodup_cons.mp nodup
    have step := ih (within.large (large q (by simp)))
      (fun r mem y inType => List.mem_cons_of_mem _ (typed r (by simp [mem]) y inType)) nodup
      (fun r mem known => by
        rcases List.mem_cons.mp known with same | known
        · exact other (List.mem_map.mpr ⟨r, mem, same⟩)
        · exact absent r (by simp [mem]) known)
      fun r mem => large r (by simp [mem])
    rw [closed_cons_param, after_cons_param]
    exact ⟨⟨absent q (by simp), fun y mem => Or.inr (typed q (by simp) y mem), step.1⟩, step.2⟩

theorem layout_append {tans : List Param} (pattern : Pending bound source s (paramOutline pat)) :
    Layout bound source pat tans (pat ++ tans) := by
  refine ⟨fun q => List.mem_append, fun scope within twins => ?_⟩
  have closed := within.closed pattern.closed pattern.small
  have typed := typesIn_params closed.2
  rw [paramOutline_append, closed_append, after_append]
  have tangents := closed_twins tans (within.after pat) (fun q mem => by
    have inTypes : q.ty ∈ pat.map (·.ty) := twins.types ▸ List.mem_map_of_mem mem
    obtain ⟨r, inPattern, same⟩ := List.mem_map.mp inTypes
    exact same ▸ typed r inPattern) twins.nodup (fun q mem known => by
      rcases (mem_after_paramOutline ..).mp known with known | ⟨r, inPattern, same⟩
      · exact twins.absent q mem known
      · have lower := twins.large q mem
        have upper := small_of_pending pattern r inPattern
        rw [same] at upper
        omega) twins.large
  exact ⟨⟨closed, tangents.1⟩, tangents.2⟩

/-- The tangents of a pattern are drawn, parts are transformed, and a statement is added that binds
    the pattern with its tangents. -/
theorem bindPattern_emits (serves : Serves bound source scope s) {qs : List Param} (aux : Annotations)
    {e : Exp} (pattern : Pending bound source s (paramOutline pat)) (plain : ∀ q ∈ pat, q.ty.isAcc = false)
    (layout : Layout bound source pat (tangentsOf s pat) qs)
    (goes : Goes bound source (withTangents s pat) scope t later)
    (certs : ∀ x ∈ aux.certs, x ∈ later) (sealed : Sealed t later (e.outline qs.length)) :
    Emits bound source scope s ((paramOutline pat).after source) ((paramOutline qs).after later)
        (added ⟨qs, aux, e⟩ t) ∧
      ∀ x ∉ (paramOutline pat).after source,
        (added ⟨qs, aux, e⟩ t).companions.find? x = s.companions.find? x := by
  have apart : ∀ q ∈ pat, q.name ∉ source := fun q =>
    Builder.not_mem_of_params pattern.closed.1
  obtain ⟨drawn, aside⟩ := serves.withTangents apart
  have small := small_of_pending pattern
  have tans := twins_tangentsOf serves pat
  have twins := tans.mono later fun q mem known => by
    have drawnHere := drawn_withTangents s mem
    rcases goes.grows.fresh q.name known with known | above
    · exact tans.absent q mem known
    · omega
  obtain ⟨closed, within⟩ := layout.2 later goes.serves.within twins
  have start : Emits bound source scope s source scope (withTangents s pat) := {
    emitted := (aside.grows serves.ready).emitted
    next_le := aside.next_le
    types := aside.types
    serves := drawn }
  refine ⟨(start.trans goes.emits).bind (tangentsOf s pat) within closed small ?_ ?_ ?_ ?_ ?_
    certs sealed.closed sealed.bounded, ?_⟩
  · intro q mem
    rcases (layout.1 q).mp mem with mem | mem
    · exact plain q mem
    · exact tans.plain plain q mem
  · exact fun q mem => (layout.1 q).mpr (Or.inl mem)
  · exact fun q mem => (layout.1 q).mpr (Or.inr mem)
  · intro q mem
    rcases (layout.1 q).mp mem with mem | mem
    · exact Nat.lt_of_lt_of_le (small q mem) goes.serves.reserved
    · exact Nat.lt_of_lt_of_le (drawn_withTangents s mem).2 goes.grows.next_le
  · intro q mem c found
    obtain ⟨r, inTangents, recorded⟩ := companion_withTangents_of_mem s mem
    rw [goes.kept q.name (apart q mem), recorded] at found
    exact ⟨r, inTangents, Option.some.inj found⟩
  · intro x other
    have unbound : ∀ q ∈ pat, q.name ≠ x := fun q mem same =>
      other ((mem_after_paramOutline ..).mpr (Or.inr ⟨q, mem, same⟩))
    have outside : x ∉ source := fun known => other (mem_after _ known)
    exact (goes.kept x outside).trans (companion_withTangents_of_not_mem s unbound)

/-- The tangents of the pattern are drawn before the expression is transformed. -/
theorem Serves.pattern (serves : Serves bound source scope s) {stm : Stm} (apart : stm.Apart)
    (pending : Pending bound source s stm.outline) :
    Serves bound source scope (Forward.withTangents s stm.pat) ∧
      Pending bound source (Forward.withTangents s stm.pat) (stm.exp.outline stm.pat.length) := by
  obtain ⟨-, inside, pattern⟩ := (pending_stm stm).mp pending
  refine ⟨(serves.withTangents fun q => Builder.not_mem_of_params pattern.closed.1).1, ?_⟩
  refine inside.next fun x binder => companion_withTangents_of_not_mem _ fun q mem same => ?_
  exact apart q mem (same ▸ binder)

/-- The expression was transformed after that, and the statement was added. -/
theorem Goes.runs (goes : Goes bound source (withTangents s pat) scope t later)
    (serves : Serves bound source scope s) {e : Exp} (f : Exp) {act : Diff Unit}
    {leaks : List Name} (pending : Pending bound source s (Stm.outline ⟨pat, aux, e⟩))
    (plain : ∀ q ∈ pat, q.ty.isAcc = false)
    (sealed : Sealed t later (f.outline (2 * pat.length)))
    (gives : Gives act s () (added ⟨interleave pat (tangentsOf s pat), aux, f⟩ t)) :
    ∃ t later, Gives act s () t ∧
      Emits bound source scope s ((Stm.outline ⟨pat, aux, e⟩).after source) later t ∧
      ∀ x, x ∉ (Stm.outline ⟨pat, aux, e⟩).after source → x ∉ leaks →
        t.companions.find? x = s.companions.find? x := by
  obtain ⟨certs, -, pattern⟩ := (pending_stm _).mp pending
  have length := length_tangentsOf s pat
  rw [← length_interleave length] at sealed
  obtain ⟨emits, kept⟩ := bindPattern_emits serves aux pattern plain (layout_interleave pattern length)
    goes (fun x mem => goes.serves.sub x (certs x mem)) sealed
  simp only [after_stm]
  exact ⟨_, _, gives, emits, fun x other _ => kept x other⟩

theorem screma_runs {width : Operand} {arrays : List Name} {scans : List Combiner}
    {reduces : List Reduction} {map : Lambda} {scanAct : Diff (List Combiner)}
    {reduceAct : Diff (List Reduction)} {mapAct : Diff Lambda}
    (plain : ∀ q ∈ pat, q.ty.isAcc = false)
    (apart : Stm.Apart ⟨pat, aux, .screma width arrays scans reduces map⟩)
    (scanned : Transforms bound scanAct (combinerOutline scans) combinerOutline)
    (reduced : Transforms bound reduceAct (reductionOutline reduces) reductionOutline)
    (mapped : Transforms bound mapAct map.outline Lambda.outline) :
    Runs bound (screma ⟨pat, aux, .screma width arrays scans reduces map⟩ width arrays scanAct
      reduceAct mapAct) (Stm.outline ⟨pat, aux, .screma width arrays scans reduces map⟩) [] := by
  intro source scope s serves pending
  obtain ⟨drawn, inside⟩ := serves.pattern apart pending
  simp only [Exp.outline, pending_append, pending_readsAll, pending_block, after_append,
    after_readsAll, Scope.after_combinerOutline, Scope.after_reductionOutline,
    List.forall_mem_append] at inside
  obtain ⟨⟨⟨⟨knownWidth, knownArrays⟩, scans⟩, reduces⟩, map, -⟩ := inside
  obtain ⟨cs, t₁, l₁, gives₁, asks, -, known⟩ := bundleNames_asks drawn knownArrays
  obtain ⟨scans', t₂, l₂, gives₂, goes₂, sealed₂⟩ := scanned _ _ _ asks.serves (scans.goes asks.toGoes)
  have goes := asks.toGoes.trans goes₂
  obtain ⟨reduces', t₃, l₃, gives₃, goes₃, sealed₃⟩ := reduced _ _ _ goes.serves (reduces.goes goes)
  have goes := goes.trans goes₃
  obtain ⟨map', t₄, l₄, gives₄, goes₄, sealed₄⟩ := mapped _ _ _ goes.serves (map.goes goes)
  have later := goes₃.trans goes₄
  refine (goes.trans goes₄).runs serves
    (.screma width (interleave arrays cs) scans' reduces' map') pending plain ?_ ?_
  · simp only [Exp.outline, sealed_append, sealed_readsAll, sealed_block, sealed_done, after_append,
      after_readsAll, Scope.after_combinerOutline, Scope.after_reductionOutline,
      List.forall_mem_append]
    refine ⟨⟨⟨⟨fun x mem => goes₄.serves.sub x (knownWidth x mem), ?_⟩, sealed₂.grows later.grows⟩,
      sealed₃.grows goes₄.grows⟩, sealed₄, trivial⟩
    exact forall_mem_interleave (fun x mem => goes₄.serves.sub x (knownArrays x mem))
      fun x mem => (goes₂.trans later).sub (known x mem)
  · exact (gives_bundleBinders plain s).bind (gives₁.bind (gives₂.bind (gives₃.bind
      (gives₄.bind (gives_add _ _)))))

theorem stream_runs {width : Operand} {arrays : List Name} {form : StreamForm}
    {inits : List Operand} {lam : Lambda} {formAct : Diff StreamForm} {lamAct : Diff Lambda}
    (plain : ∀ q ∈ pat, q.ty.isAcc = false)
    (apart : Stm.Apart ⟨pat, aux, .stream width arrays form inits lam⟩)
    (formed : Transforms bound formAct form.outline StreamForm.outline)
    (streamed : Transforms bound lamAct lam.outline Lambda.outline) :
    Runs bound (stream ⟨pat, aux, .stream width arrays form inits lam⟩ width arrays formAct inits
      lamAct) (Stm.outline ⟨pat, aux, .stream width arrays form inits lam⟩) [] := by
  intro source scope s serves pending
  obtain ⟨drawn, inside⟩ := serves.pattern apart pending
  simp only [Exp.outline, pending_append, pending_readsAll, pending_block, after_append,
    after_readsAll, Scope.after_streamForm, List.forall_mem_append] at inside
  obtain ⟨⟨⟨⟨knownWidth, knownArrays⟩, knownInits⟩, form⟩, lam, -⟩ := inside
  obtain ⟨lam', t₁, l₁, gives₁, goes₁, sealed₁⟩ := streamed _ _ _ drawn lam
  obtain ⟨cs, t₂, l₂, gives₂, asks₂, -, known₂⟩ := bundleNames_asks goes₁.serves knownArrays
  obtain ⟨zeros, t₃, l₃, gives₃, asks₃, -, known₃⟩ := bundleNeutral_asks asks₂.serves knownInits
  have goes := goes₁.trans (asks₂.toGoes.trans asks₃.toGoes)
  obtain ⟨form', t₄, l₄, gives₄, goes₄, sealed₄⟩ := formed _ _ _ goes.serves (form.goes goes)
  have later := asks₃.toGoes.trans goes₄
  refine (goes.trans goes₄).runs serves
    (.stream width (interleave arrays cs) form' (interleave inits zeros) lam') pending plain ?_ ?_
  · simp only [Exp.outline, sealed_append, sealed_readsAll, sealed_block, sealed_done, after_append,
      after_readsAll, Scope.after_streamForm, List.forall_mem_append]
    refine ⟨⟨⟨⟨fun x mem => goes₄.serves.sub x (knownWidth x mem), ?_⟩, ?_⟩, sealed₄⟩,
      sealed₁.grows (asks₂.toGoes.trans later).grows, trivial⟩
    · exact forall_mem_interleave (fun x mem => goes₄.serves.sub x (knownArrays x mem))
        fun x mem => later.sub (known₂ x mem)
    · exact names_interleave (fun x mem => goes₄.serves.sub x (knownInits x mem))
        fun x mem => goes₄.sub (known₃ x mem)
  · exact (gives_bundleBinders plain s).bind (gives₁.bind (gives₂.bind (gives₃.bind
      (gives₄.bind (gives_add _ _)))))

theorem hist_runs {width : Operand} {ops : List Histogram} {bucket : Lambda} {arrays : List Name}
    {opsAct : Diff (List Histogram)} {bucketAct : Diff Lambda}
    (plain : ∀ q ∈ pat, q.ty.isAcc = false)
    (apart : Stm.Apart ⟨pat, aux, .hist width ops bucket arrays⟩)
    (combined : Transforms bound opsAct (histogramOutline ops) histogramOutline)
    (sorted : Transforms bound bucketAct bucket.outline Lambda.outline) :
    Runs bound (hist ⟨pat, aux, .hist width ops bucket arrays⟩ width opsAct bucketAct arrays)
      (Stm.outline ⟨pat, aux, .hist width ops bucket arrays⟩) [] := by
  intro source scope s serves pending
  obtain ⟨drawn, inside⟩ := serves.pattern apart pending
  simp only [Exp.outline, pending_append, pending_readsAll, pending_block, after_append,
    after_readsAll, Scope.after_histogramOutline] at inside
  obtain ⟨⟨knownWidth, ops⟩, bucket, knownArrays⟩ := inside
  obtain ⟨ops', t₁, l₁, gives₁, goes₁, sealed₁⟩ := combined _ _ _ drawn ops
  obtain ⟨bucket', t₂, l₂, gives₂, goes₂, sealed₂⟩ := sorted _ _ _ goes₁.serves (bucket.goes goes₁)
  obtain ⟨cs, t₃, l₃, gives₃, asks₃, -, known₃⟩ := bundleNames_asks goes₂.serves knownArrays
  have last := asks₃.toGoes
  have later := goes₂.trans last
  refine (goes₁.trans later).runs serves
    (.hist width ops' bucket' (interleave arrays cs)) pending plain ?_ ?_
  · simp only [Exp.outline, sealed_append, sealed_readsAll, sealed_block, after_append,
      after_readsAll, Scope.after_histogramOutline]
    refine ⟨⟨fun x mem => last.serves.sub x (knownWidth x mem), sealed₁.grows later.grows⟩,
      sealed₂.grows last.grows, ?_⟩
    exact forall_mem_interleave (fun x mem => last.serves.sub x (knownArrays x mem)) known₃
  · exact (gives_bundleBinders plain s).bind (gives₁.bind (gives₂.bind (gives₃.bind
      (gives_add _ _))))

theorem scatterDests_asks (serves : Serves bound source scope s) {dests : List ScatterDest}
    (known : ∀ x ∈ dests.flatMap ScatterDest.names, x ∈ source) :
    ∃ tans t later, Gives (dests.mapM fun d => do return { d with array := ← companion d.array }) s
        tans t ∧
      Asks bound source s scope t later ∧ tans.length = dests.length ∧
      ∀ d ∈ tans, ∀ x ∈ d.names, x ∈ later := by
  refine mapM_asks (fun later d => ∀ x ∈ ScatterDest.names d, x ∈ later) serves
    (fun sub inside x mem => sub x (inside x mem)) ?_
  intro d mem s scope serves
  have here : ∀ x ∈ d.names, x ∈ source := fun x inD =>
    known x (List.mem_flatMap.mpr ⟨d, mem, inD⟩)
  simp only [ScatterDest.names, List.forall_mem_append, List.forall_mem_singleton] at here
  obtain ⟨c, t, later, gives, asks, mem⟩ := companion_asks serves here.2
  refine ⟨_, t, later, gives.bind (.pure _ _), asks, ?_⟩
  simp only [ScatterDest.names, List.forall_mem_append, List.forall_mem_singleton]
  exact ⟨fun x inShape => asks.serves.sub x (here.1 x inShape), mem⟩

theorem scatter_runs {width : Operand} {lam : Lambda} {arrays : List Name}
    {dests : List ScatterDest} {lamAct : Diff Lambda} (plain : ∀ q ∈ pat, q.ty.isAcc = false)
    (apart : Stm.Apart ⟨pat, aux, .scatter width lam arrays dests⟩)
    (placed : Transforms bound lamAct lam.outline Lambda.outline) :
    Runs bound (scatter ⟨pat, aux, .scatter width lam arrays dests⟩ width lamAct arrays dests)
      (Stm.outline ⟨pat, aux, .scatter width lam arrays dests⟩) [] := by
  intro source scope s serves pending
  obtain ⟨certs, whole, pattern⟩ := (pending_stm _).mp pending
  have inside := whole
  simp only [Exp.outline, pending_append, pending_readsAll, pending_block, after_readsAll,
    List.forall_mem_append] at inside
  obtain ⟨knownWidth, -, knownArrays, knownDests⟩ := inside
  obtain ⟨dests', t₀, l₀, gives₀, asks₀, -, known₀⟩ := scatterDests_asks serves knownDests
  obtain ⟨drawn, inside⟩ := asks₀.serves.pattern apart (pending.goes asks₀.toGoes)
  simp only [Exp.outline, pending_append, pending_readsAll, pending_block, after_readsAll] at inside
  obtain ⟨-, lam, -⟩ := inside
  obtain ⟨cs, t₁, l₁, gives₁, asks₁, -, known₁⟩ := bundleNames_asks drawn knownArrays
  obtain ⟨lam', t₂, l₂, gives₂, goes₂, sealed₂⟩ := placed _ _ _ asks₁.serves (lam.goes asks₁.toGoes)
  have goes := asks₁.toGoes.trans goes₂
  have pattern₀ := pattern.goes asks₀.toGoes
  obtain ⟨emits, kept⟩ := bindPattern_emits asks₀.serves aux pattern₀ plain (layout_append pattern₀) goes
    (fun x mem => goes.serves.sub x (certs x mem))
    (e := .scatter width lam' (interleave arrays cs) (dests ++ dests')) (by
      simp only [Exp.outline, sealed_append, sealed_readsAll, sealed_block, after_readsAll,
        List.forall_mem_append, List.flatMap_append]
      refine ⟨fun x mem => goes.serves.sub x (knownWidth x mem), sealed₂, ?_, ?_, ?_⟩
      · exact forall_mem_interleave (fun x mem => goes.serves.sub x (knownArrays x mem))
          fun x mem => goes₂.sub (known₁ x mem)
      · exact fun x mem => goes.serves.sub x (knownDests x mem)
      · intro x mem
        obtain ⟨d, inList, inD⟩ := List.mem_flatMap.mp mem
        exact goes.sub (known₀ d inList x inD))
  simp only [after_stm]
  refine ⟨_, _, ?_, asks₀.toGoes.emits.trans emits, fun x other _ => ?_⟩
  · exact gives₀.bind ((gives_newTangents plain _).bind (gives₁.bind (gives₂.bind (gives_add _ _))))
  · rw [kept x other, asks₀.kept x fun known => other (mem_after _ known)]

/-- The action transforms a body, whose results it doubles. Inside, tangents may be recorded. -/
def TransformsBody (bound : Nat) (act : Diff Body) (b : Body) : Prop :=
  ∀ source scope s, Serves bound source scope s → Pending bound source s b.outline →
    ∃ b' t, Gives act s b' t ∧ Aside s scope t ∧ Sealed t scope b'.outline ∧
      b'.result.length = 2 * b.result.length

theorem TransformsBody.within {act : Diff Body} {b : Body} (transforms : TransformsBody bound act b)
    (serves : Serves bound source scope s) (pending : Pending bound source s b.outline) :
    ∃ b' t, Gives (within act) s b' t ∧ Goes bound source s scope t scope ∧
      Sealed t scope b'.outline ∧ b'.result.length = 2 * b.result.length := by
  obtain ⟨b', t, gives, aside, sealed, length⟩ := transforms source scope s serves pending
  exact ⟨b', _, (gives_within ..).mpr ⟨t, gives, rfl⟩, aside.goes serves,
    ⟨sealed.closed, sealed.bounded⟩, length⟩

theorem branch_runs {cond : Operand} {yes no : Body} {ret : List Ty} {sort : BranchSort}
    {yesAct noAct : Diff Body} (plain : ∀ q ∈ pat, q.ty.isAcc = false)
    (plainRet : ∀ t ∈ ret, t.isAcc = false) (onYes : TransformsBody bound yesAct yes)
    (onNo : TransformsBody bound noAct no) :
    Runs bound (branch ⟨pat, aux, .branch cond yes no ret sort⟩ cond yesAct noAct ret sort)
      (Stm.outline ⟨pat, aux, .branch cond yes no ret sort⟩) [] := by
  intro source scope s serves pending
  obtain ⟨certs, inside, pattern⟩ := (pending_stm _).mp pending
  simp only [Exp.outline, pending_append, pending_readsAll, pending_mentionsAll, pending_block,
    pending_count, after_append, after_readsAll, after, after_mentionsAll] at inside
  obtain ⟨⟨⟨⟨knownCond, yes, yesCount, -⟩, no, noCount, -⟩, types⟩, arity, -⟩ := inside
  obtain ⟨yes', t₁, gives₁, goes₁, sealed₁, length₁⟩ := onYes.within serves yes
  obtain ⟨no', t₂, gives₂, goes₂, sealed₂, length₂⟩ := onNo.within goes₁.serves (no.goes goes₁)
  have goes := goes₁.trans goes₂
  have pattern₂ := pattern.goes goes
  have apart : ∀ q ∈ pat, q.name ∉ source := fun q =>
    Builder.not_mem_of_params pattern.closed.1
  obtain ⟨drawn, aside⟩ := goes.serves.withTangents apart
  have length := length_tangentsOf t₂ pat
  have retLength := length_bundledTypes plainRet
  have closes {o : Outline} (sealed : Sealed t₂ scope o) : Sealed (withTangents t₂ pat) scope o :=
    sealed.grows (aside.grows goes.serves.ready)
  obtain ⟨emits, kept⟩ := bindPattern_emits goes.serves aux pattern₂ plain
    (layout_interleave pattern₂ length) (Goes.refl drawn)
    (fun x mem => serves.sub x (certs x mem))
    (e := .branch cond yes' no' (bundledTypes ret) sort) (by
      simp only [Exp.outline, sealed_append, sealed_readsAll, sealed_mentionsAll, sealed_block,
        sealed_count, sealed_done, after_append, after_readsAll, after, after_mentionsAll, and_true]
      have arity : pat.length = ret.length := arity
      refine ⟨⟨⟨⟨fun x mem => serves.sub x (knownCond x mem), closes (sealed₁.grows goes₂.grows),
        ?_⟩, closes sealed₂, ?_⟩, ?_⟩, ?_⟩
      · omega
      · omega
      · exact fun x mem => serves.sub x (types x (names_bundledTypes plainRet x mem))
      · rw [length_interleave length]
        omega)
  simp only [after_stm]
  refine ⟨_, _, ?_, goes.emits.trans emits, fun x other _ => ?_⟩
  · exact gives₁.bind (gives₂.bind ((gives_bundleBinders plain _).bind (gives_add _ _)))
  · rw [kept x other, goes.kept x fun known => other (mem_after _ known)]

end Forward

end Cotangent
