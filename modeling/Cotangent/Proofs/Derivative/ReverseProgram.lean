import Mathlib.Data.List.Forall2
import Cotangent.Proofs.Derivative.ReverseScope
import Cotangent.Proofs.Scope.Reserve
/-!
Reverse differentiation of a closed lambda. The result passes the scope check, computes everything the
lambda computes before it turns back, and returns one adjoint per parameter.
-/
namespace Cotangent

open Outline

/-! The seeds. -/

theorem params_apply (ts : List Ty) (b : Builder) :
    ts.mapM Build.param b =
      (paramsFrom b.supply.next ts,
        { b with
          supply := ⟨b.supply.next + ts.length⟩
          types := b.types.insertAll
            ((paramsFrom b.supply.next ts).map fun p => (p.name, p.ty)) }) := by
  induction ts generalizing b with
  | nil => rfl
  | cons t ts ih =>
    rw [List.mapM_cons]
    simp only [state_bind_apply, state_pure_apply, ih]
    simp [Build.param, Build.fresh, Supply.fresh, Build.declare, Builder.declareIn, paramsFrom,
      NameTable.insertAll_cons, Nat.add_assoc, Nat.add_comm 1]

/-! The transformation of a closed lambda. -/

/-- What reverse differentiation makes of a lambda. The results come in the order of the parameters:
    the result for a parameter is the adjoint that stands for it at the end of the sweep. -/
structure Reversed (l : Lambda) (s : Supply) (out : Lambda) (seeds : List Param) : Prop where
  valid : out.validate = .ok ()
  primal : l.body.stms <+: out.body.stms
  params : out.params = l.params ++ seeds
  seed_types : seeds.map (·.ty) = l.ret
  seed_nodup : (seeds.map (·.name)).Nodup
  seed_fresh : ∀ p ∈ seeds, s.next ≤ p.name.id ∧ ∀ o ∈ l.occurrences, o.name ≠ p.name
  ret : out.ret = l.params.map (·.ty)
  adjoints : ∃ t, Diff.Gives (Reverse.top .standard l) ⟨.ofSupply (s.reserve l), .empty⟩ out t ∧
    List.Forall₂ (fun p r => ∃ d, t.companions.find? p.name = some d ∧ r = .var d)
      l.params out.body.result
  constant_unread : ∀ r ∈ l.body.result.zip seeds, r.1.name? = none →
    ∀ o ∈ out.body.occurrences, o.name ≠ r.2.name

namespace Reverse

open Diff

/-- The state in which the body is transformed: parameters and seeds are declared. -/
def opened (l : Lambda) (s : Supply) : DiffState :=
  let seeds := paramsFrom (s.reserve l).next l.ret
  ⟨⟨⟨(s.reserve l).next + l.ret.length⟩,
    (NameTable.empty.insertAll (l.params.map fun p => (p.name, p.ty))).insertAll
      (seeds.map fun p => (p.name, p.ty)), []⟩, .empty⟩

theorem gives_top (rules : Rules) (l : Lambda) (s : Supply) (out : Lambda) (t : DiffState) :
    Gives (top rules l) ⟨.ofSupply (s.reserve l), .empty⟩ out t ↔
      ∃ b, Gives (bodyOf
          (sweep (stm rules l.body.branchDepth) l.body.stms
            (seed l.body.result ((paramsFrom (s.reserve l).next l.ret).map (·.name))))
          (adjoints (l.params.map (·.name)))) (opened l s) b t ∧
        ⟨l.params ++ paramsFrom (s.reserve l).next l.ret, b, l.params.map (·.ty)⟩ = out := by
  simp only [top, gives_bind, gives_build, gives_pure, Build.declareParams_apply, params_apply]
  constructor
  · rintro ⟨_, _, ⟨-, rfl⟩, _, _, ⟨rfl, rfl⟩, b, _, body, same, rfl⟩
    exact ⟨b, body, same⟩
  · rintro ⟨b, body, same⟩
    exact ⟨(), _, ⟨trivial, rfl⟩, _, _, ⟨rfl, rfl⟩, b, _, body, same, rfl⟩

section

variable {l : Lambda} {s : Supply} {scope : Scope}

/-- A scope of the parameters and some of the seeds. -/
structure UnderSeeds (l : Lambda) (s : Supply) (scope : Scope) : Prop where
  params : ∀ x ∈ (paramOutline l.params).after [], x ∈ scope
  names : ∀ x ∈ scope, x ∈ (paramOutline l.params).after [] ∨
    ∃ p ∈ paramsFrom (s.reserve l).next l.ret, p.name = x

theorem pattern_binder {ss : List Stm} : ∀ p ∈ ss.flatMap (·.pat), p.name ∈ (stmOutline ss).binders := by
  induction ss with
  | nil => simp
  | cons stm ss ih =>
    intro p mem
    rcases List.mem_append.mp mem with mem | mem
    · obtain ⟨pat, aux, e⟩ := stm
      simp [stmOutline, Stm.outline, (mem_binders_paramOutline pat _).mpr ⟨p, mem, rfl⟩]
    · simp [stmOutline, ih p mem]

theorem lambda_binders (l : Lambda) :
    l.outline.binders = (paramOutline l.params).binders ++ l.body.outline.binders := by
  obtain ⟨ps, b, ret⟩ := l
  simp [Lambda.outline]

theorem UnderSeeds.closed (under : UnderSeeds l s scope) (closed : l.outline.Closed []) :
    l.body.outline.Closed scope := by
  obtain ⟨-, body, -, -⟩ := (closed_lambda l []).mp closed
  refine body.mono under.params ?_
  intro x binder known
  rcases under.names x known with known | ⟨p, mem, rfl⟩
  · exact known
  · have lt := binder_lt s l (x := p.name) (by simp [lambda_binders, binder])
    have ge := (bounds_paramsFrom mem).1
    omega

theorem UnderSeeds.below (under : UnderSeeds l s scope) :
    scope.Below ((s.reserve l).next + l.ret.length) := by
  intro x known
  rcases under.names x known with known | ⟨p, mem, rfl⟩
  · rcases (mem_after_paramOutline ..).mp known with known | ⟨p, mem, rfl⟩
    · simp at known
    · have lt := binder_lt s l (x := p.name) (by
        simp [lambda_binders, (mem_binders_paramOutline l.params _).mpr ⟨p, mem, rfl⟩])
      omega
  · exact (bounds_paramsFrom mem).2

theorem UnderSeeds.ready (under : UnderSeeds l s scope) (closed : l.outline.Closed []) :
    Ready All { opened l s with
        builder := { (opened l s).builder with stms := [] }.emit l.body.stms }
      ((stmOutline l.body.stms).after scope) where
  builder := by
    obtain ⟨params, body, ret, -⟩ := (closed_lambda l []).mp closed
    have stms := under.closed closed
    rw [body_outline] at stms ret
    have below := under.below
    refine Builder.ready_emit below ?_ ((closed_append ..).mp stms).1 ?_
    · -- a seed may have a type that speaks of what the body binds
      intro x known ty found y inType
      rcases Builder.find_declared found with mem | ⟨-, found⟩
      · have inRet : y ∈ typeNames l.ret := by
          refine (mem_typeNames _ _).mpr ⟨ty, ?_, inType⟩
          rw [← types_paramsFrom (s.reserve l).next l.ret]
          exact List.mem_map_of_mem mem
        have after := ret y inRet
        rw [after_append, after_readsAll, mem_after_stmOutline] at after
        rw [mem_after_stmOutline]
        exact after.imp_left (under.params y)
      · rcases Builder.find_declared found with mem | ⟨-, found⟩
        · exact mem_after _ (under.params y (typesIn_params params.2 _ mem y inType))
        · simp [NameTable.find_empty] at found
    · intro p mem
      have binder : p.name ∈ l.outline.binders := by
        rw [lambda_binders, body_outline, binders_append]
        simp [pattern_binder p mem]
      exact Nat.lt_of_lt_of_le (binder_lt s l binder) (Nat.le_add_right _ _)
  companion_mem x _ c found := by simp [opened, NameTable.find_empty] at found

theorem UnderSeeds.sweep (under : UnderSeeds l s scope) (closed : l.outline.Closed [])
    (localRules : rules.Local)
    (seeded : ∀ r ∈ l.body.result.zip ((paramsFrom (s.reserve l).next l.ret).map (·.name)),
      r.1.name?.isSome → r.2 ∈ scope) {b : Body} {t : DiffState}
    (gives : Gives (bodyOf
      (sweep (stm rules l.body.branchDepth) l.body.stms
        (seed l.body.result ((paramsFrom (s.reserve l).next l.ret).map (·.name))))
      (adjoints (l.params.map (·.name)))) (opened l s) b t) :
    (∃ new, b.stms = l.body.stms ++ new) ∧ b.outline.Closed scope ∧
      b.result.length = l.params.length := by
  have body := under.closed closed
  rw [body_outline] at body
  obtain ⟨stms, reads⟩ := (closed_append ..).mp body
  have known : ∀ x ∈ l.params.map (·.name), x ∈ (stmOutline l.body.stms).after scope := by
    intro x mem
    refine mem_after _ (under.params x ((mem_after_paramOutline ..).mpr (Or.inr ?_)))
    simpa using mem
  obtain ⟨primal, closedBody, length, -⟩ := sweepBody_closed (accounts_stm localRules _) stms
    ((closed_readsAll ..).mp reads) (under.ready closed) seeded known gives
  exact ⟨primal, closedBody, by simpa using length⟩

end

theorem zip_unique {α β : Type} {xs : List α} {ys : List β} (nodup : ys.Nodup) {a b : α} {y : β}
    (first : (a, y) ∈ xs.zip ys) (second : (b, y) ∈ xs.zip ys) : a = b := by
  induction xs generalizing ys with
  | nil => simp at first
  | cons x xs ih =>
    cases ys with
    | nil => simp at first
    | cons z ys =>
      obtain ⟨absent, nodup⟩ := List.nodup_cons.mp nodup
      simp only [List.zip_cons_cons, List.mem_cons, Prod.mk.injEq] at first second
      rcases first with ⟨rfl, rfl⟩ | first
      · rcases second with ⟨rfl, -⟩ | second
        · rfl
        · exact absurd (List.of_mem_zip second).2 absent
      · rcases second with ⟨rfl, rfl⟩ | second
        · exact absurd (List.of_mem_zip first).2 absent
        · exact ih nodup first second

/-- Reverse differentiation keeps scoping and the primal computation. -/
theorem reversed_of_ok (l : Lambda) (s : Supply) (out : Lambda) (valid : l.validate = .ok ())
    (typesInScope : l.TypesInScope) (succeeded : (l.reverse .standard s).1 = .ok out) :
    ∃ seeds, Reversed l s out seeds := by
  have closed : l.outline.Closed [] := ⟨(validate_iff l).mp valid, typesInScope⟩
  have closedParams := ((closed_lambda l []).mp closed).1
  obtain ⟨t, gives⟩ := (gives_start _ _ _).mp succeeded
  obtain ⟨b, body, rfl⟩ := (gives_top ..).mp gives
  let seeds := paramsFrom (s.reserve l).next l.ret
  let params := (paramOutline l.params).after []
  have below : params.Below (s.reserve l).next := by
    intro x known
    rcases (mem_after_paramOutline ..).mp known with known | ⟨p, mem, rfl⟩
    · simp at known
    · exact binder_lt s l (by
        simp [lambda_binders, (mem_binders_paramOutline l.params _).mpr ⟨p, mem, rfl⟩])
  have inZip : ∀ r ∈ l.body.result.zip seeds,
      (r.1, r.2.name) ∈ l.body.result.zip (seeds.map (·.name)) := by
    intro r mem
    rw [List.zip_map_right]
    exact List.mem_map.mpr ⟨r, mem, rfl⟩
  have ofZip : ∀ r ∈ l.body.result.zip (seeds.map (·.name)),
      ∃ p, (r.1, p) ∈ l.body.result.zip seeds ∧ p.name = r.2 := by
    intro r mem
    rw [List.zip_map_right] at mem
    obtain ⟨q, inZip, rfl⟩ := List.mem_map.mp mem
    exact ⟨q.2, inZip, rfl⟩
  -- the sweep is followed twice: under all seeds, and under those of results that are not constant
  have all : UnderSeeds l s ((paramOutline seeds).after params) :=
    ⟨fun x known => mem_after _ known, fun x known => (mem_after_paramOutline ..).mp known⟩
  have inAll : ∀ p ∈ seeds, p.name ∈ (paramOutline seeds).after params := fun p mem =>
    (mem_after_paramOutline ..).mpr (Or.inr ⟨p, mem, rfl⟩)
  obtain ⟨⟨new, primal⟩, closedAll, length⟩ := all.sweep closed local_standard (fun r mem _ => by
    obtain ⟨p, mem, same⟩ := ofZip r mem
    exact same ▸ inAll p (List.of_mem_zip mem).2) body
  let read := (l.body.result.zip seeds).filter fun r => r.1.name?.isSome
  have some : UnderSeeds l s (read.map (·.2.name) ++ params) := by
    refine ⟨fun x known => List.mem_append_right _ known, fun x known => ?_⟩
    rcases List.mem_append.mp known with known | known
    · obtain ⟨r, mem, rfl⟩ := List.mem_map.mp known
      exact Or.inr ⟨r.2, (List.of_mem_zip (List.mem_filter.mp mem).1).2, rfl⟩
    · exact Or.inl known
  obtain ⟨-, closedSome, -⟩ := some.sweep closed local_standard (fun r mem isVar => by
    obtain ⟨p, mem, same⟩ := ofZip r mem
    refine List.mem_append_left _ (List.mem_map.mpr ⟨(r.1, p), ?_, same⟩)
    exact List.mem_filter.mpr ⟨mem, isVar⟩) body
  refine ⟨seeds, {
    valid := ?_
    primal := ⟨new, primal.symm⟩
    params := rfl
    seed_types := types_paramsFrom _ _
    seed_nodup := nodup_paramsFrom _ _
    seed_fresh := ?_
    ret := rfl
    adjoints := ⟨t, gives, ?_⟩
    constant_unread := ?_ }⟩
  · rw [validate_iff, accepted_lambda, paramOutline_append, accepted_append, after_append]
    exact ⟨⟨closedParams.1, accepted_paramsFrom below _⟩, closedAll.1, by simp [length]⟩
  · intro p mem
    have lower := (bounds_paramsFrom mem).1
    refine ⟨Nat.le_trans (s.le_skip _) lower, fun o occurs same => ?_⟩
    have lt := lt_reserve s l occurs
    rw [same] at lt
    omega
  · obtain ⟨u, v, -, adjoints, -, rfl⟩ := (gives_bodyOf ..).mp body
    have recorded := (adjoints_recorded adjoints).2
    exact List.forall₂_map_left_iff.mp recorded
  · intro r mem constant o occurs same
    rw [← occurrences_body] at occurs
    have inSeeds := (List.of_mem_zip mem).2
    rcases closedSome.occurs occurs with binder | known
    · exact not_mem_of_binder closedAll.1 binder (same ▸ inAll r.2 inSeeds)
    · rcases List.mem_append.mp known with known | known
      · obtain ⟨r', mem', same'⟩ := List.mem_map.mp known
        obtain ⟨mem', isVar⟩ := List.mem_filter.mp mem'
        have position := inZip r' mem'
        rw [same', same] at position
        have equal := zip_unique (nodup_paramsFrom _ _) position (inZip r mem)
        rw [equal, constant] at isVar
        simp at isVar
      · have lt := below _ known
        have ge := (bounds_paramsFrom inSeeds).1
        rw [same] at lt
        omega

/-- A conditional whose two bodies bind the same name. -/
def squareOrDouble : Lambda :=
  let t : Ty := .scalar (.int .i64)
  let arm (op : IntBinary) : Body :=
    ⟨[⟨[⟨⟨3⟩, t⟩], .none, .basic (.binary (.int op .i64) (.var ⟨1⟩) (.var ⟨1⟩))⟩], [.var ⟨3⟩]⟩
  ⟨[⟨⟨0⟩, .scalar .bool⟩, ⟨⟨1⟩, t⟩],
    ⟨[⟨[⟨⟨2⟩, t⟩], .none, .branch (.var ⟨0⟩) (arm .mul) (arm .add) [t] .normal⟩], [.var ⟨2⟩]⟩, [t]⟩

theorem reversed_squareOrDouble : ∃ out seeds,
    (squareOrDouble.reverse .standard ⟨0⟩).1 = .ok out ∧ Reversed squareOrDouble ⟨0⟩ out seeds := by
  have succeeds : (squareOrDouble.reverse .standard ⟨0⟩).1.isOk = true := by decide +kernel
  cases result : (squareOrDouble.reverse .standard ⟨0⟩).1 with
  | error e => simp [result, Except.isOk, Except.toBool] at succeeds
  | ok out =>
    obtain ⟨seeds, reversed⟩ :=
      reversed_of_ok squareOrDouble ⟨0⟩ out (by decide) (by decide) result
    exact ⟨out, seeds, rfl, reversed⟩

end Reverse

end Cotangent
