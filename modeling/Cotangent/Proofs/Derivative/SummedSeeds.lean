import Cotangent.Proofs.Derivative.CopySweep
import Cotangent.Proofs.Derivative.CopyTyping
import Cotangent.Proofs.Derivative.Transposition
/-!
Reverse differentiation of copy code. What it returns for a parameter is the sum, entry by entry, of the
seeds of those results that are copies of the parameter.
-/
namespace Cotangent

open Outline Run

/-- The seeds of the results that are copies of the parameter. -/
def seedsOf (x : Name) (srcs : List Operand) (seeds : List Value) : List Value :=
  ((srcs.zip seeds).filter (·.1 = .var x)).map (·.2)

namespace Reverse

open Diff

variable {A : Account} {o : Origins} {σ : Store Scalar} {l out : Lambda} {s : Supply}

/-! One parameter. -/

theorem worth_eq_entries {cs : List Name} {seeds : List Value} (srcs : List Operand)
    (stand : List.Forall₂ (fun c v => σ.vars.find? c = some v) cs seeds) (i : List Nat) :
    worth A σ srcs cs i = (((seedsOf A.param srcs seeds).map (·.entry i)).sum : Int) := by
  rw [worth, seedsOf]
  induction stand generalizing srcs with
  | nil => simp
  | @cons c v cs seeds here rest ih =>
    cases srcs with
    | nil => simp
    | cons src srcs =>
      rw [List.zip_cons_cons, List.zip_cons_cons, List.map_cons, List.sum_cons, Pi.add_apply, ih]
      by_cases counts : src = .var A.param
      · simp [counts, Store.entries_of_find here, Value.entries]
      · simp [counts]

theorem holds_of_seeds {cs : List Name} {seeds : List Value} {srcs : List Operand}
    (stand : List.Forall₂ (fun c v => σ.vars.find? c = some v) cs seeds)
    (fits : List.Forall₂ (fun src v => ∃ L, A.inputs.layout? src = some L ∧ v.Fits L) srcs seeds)
    (leaf : ∀ v ∈ seedsOf A.param srcs seeds, v.Every A.leaf) : List.Forall₂ (A.Holds σ) cs srcs := by
  induction stand generalizing srcs with
  | nil =>
    obtain rfl := List.forall₂_nil_right_iff.mp fits
    exact .nil
  | @cons c v cs seeds here rest ih =>
    obtain ⟨src, srcs, fit, tail, rfl⟩ := List.forall₂_cons_right_iff.mp fits
    refine .cons ⟨v, here, fit, fun counts => leaf v (by simp [seedsOf, counts])⟩ (ih tail fun u mem => ?_)
    refine leaf u ?_
    simp only [seedsOf, List.zip_cons_cons, List.filter_cons] at mem ⊢
    split
    · exact List.mem_cons_of_mem v mem
    · exact mem

/-- Where names are copies of themselves, the adjoint of the parameter is all that is collected. -/
theorem collected_eq_entries {xs : List Name} {vs : List Value} {v : Value} (distinct : xs.Nodup)
    (own : ∀ x ∈ xs, o.find? x = some (.var x)) (mem : (A.param, v) ∈ xs.zip vs) :
    collected A o xs vs = v.entries A.width := by
  rw [collected]
  induction xs generalizing vs with
  | nil => simp at mem
  | cons x xs ih =>
    cases vs with
    | nil => simp at mem
    | cons u vs =>
      obtain ⟨absent, distinct⟩ := List.nodup_cons.mp distinct
      rw [List.forall_mem_cons] at own
      rw [List.zip_cons_cons, List.map_cons, List.sum_cons, own.1]
      simp only [Option.some.injEq, Operand.var.injEq]
      rcases List.mem_cons.mp mem with here | mem
      · obtain ⟨rfl, rfl⟩ := Prod.mk.inj here
        have others : ((xs.zip vs).map fun r =>
            if o.find? r.1 = some (.var A.param) then r.2.entries A.width else 0).sum = 0 := by
          refine List.sum_eq_zero fun g mem => ?_
          obtain ⟨r, inZip, rfl⟩ := List.mem_map.mp mem
          have inside := (List.of_mem_zip inZip).1
          rw [own.2 _ inside, if_neg]
          simp only [Option.some.injEq, Operand.var.injEq]
          rintro same
          exact absent (same ▸ inside)
        rw [if_pos rfl, others, add_zero]
      · have other : x ≠ A.param := fun same => absent (same ▸ (List.of_mem_zip mem).1)
        rw [if_neg other, zero_add, ih distinct own.2 mem]

/-! The run. -/

theorem body_origins_length {I : Inputs} {b : Body} {srcs : List Operand} (are : b.origins? I o = some srcs) :
    srcs.length = b.result.length := by
  obtain ⟨ss, result⟩ := b
  simp only [Body.origins?] at are
  split at are
  · exact (option_mapM_iff.mp are).length_eq.symm
  · cases are

/-- The result of reverse differentiation has a run for every account. -/
theorem reverse_settles (valid : l.validate = .ok ()) (code : l.CopyCode) (s : Supply) :
    ∃ out, (l.reverse .standard s).1 = .ok out ∧
      ∀ (A : Account) args seeds srcs, A.inputs = l.inputs args → l.Accepts args →
        l.origins? args = some srcs →
        List.Forall₂ (fun src v => ∃ L, A.inputs.layout? src = some L ∧ v.Fits L) srcs seeds →
        (∀ v ∈ seedsOf A.param srcs seeds, v.Every A.leaf) →
        ∃ fuel vs, out.interp (args ++ seeds) fuel = some (.ok vs) ∧
          List.Forall₂ (fun p v => A.Adjoint (.var p.name) v) l.params vs ∧
          ∀ v, (A.param, v) ∈ (l.params.map (·.name)).zip vs → ∀ i,
            (v.entry i : ZMod A.width.modulus) =
              (((seedsOf A.param srcs seeds).map (·.entry i)).sum : Int) := by
  have closed : l.outline.Closed [] := ⟨(validate_iff l).mp valid, code.typesInScope⟩
  obtain ⟨header, body, -, count⟩ := (closed_lambda l []).mp closed
  let drawn := paramsFrom (s.reserve l).next l.ret
  let opened := Reverse.opened l s
  let sizes := l.params.map (·.name)
  let scope := (paramOutline drawn).after ((paramOutline l.params).after [])
  have under : UnderSeeds l s scope :=
    ⟨fun x known => mem_after _ known, fun x known => (mem_after_paramOutline ..).mp known⟩
  have inParams : ∀ x, x ∈ (paramOutline l.params).after [] ↔ x ∈ sizes := fun x => by
    simp [sizes, mem_after_paramOutline]
  have sub : ∀ x ∈ sizes, x ∈ scope := fun x mem => under.params x ((inParams x).mpr mem)
  have narrow : l.body.outline.Closed sizes :=
    body.mono (fun x known => (inParams x).mp known) fun x _ known => (inParams x).mpr known
  have types : ∀ x ty, opened.builder.types.find? x = some ty → ty.Sized sizes := by
    intro x ty found
    rcases Builder.find_declared found with mem | ⟨-, found⟩
    · have inTypes := List.mem_map_of_mem (f := (·.ty)) mem
      rw [types_paramsFrom] at inTypes
      exact code.ret ty inTypes
    · rcases Builder.find_declared found with mem | ⟨-, found⟩
      · exact code.params _ mem
      · simp [NameTable.find_empty] at found
  have fit : Fit sizes opened scope := ⟨{
    builder := ⟨under.below, fun x _ t found y inType => sub y ((types x t found).names y inType)⟩
    companion_mem := fun x _ c found => by simp [opened, Reverse.opened, NameTable.find_empty] at found },
    types, sub⟩
  have distinct : sizes.Nodup := nodup_of_accepted header.1
  have typed : Typed opened sizes := fun x known =>
    Builder.typed_of_declared (.inr (Builder.typed_of_declared (.inl (by simpa [sizes] using known))))
  have below : Scope.Below (l.body.outline.after scope) opened.builder.supply.next := by
    intro x known
    rw [body_outline, after_append, after_readsAll, mem_after_stmOutline] at known
    rcases known with known | ⟨p, mem, rfl⟩
    · exact under.below x known
    · exact Nat.lt_of_lt_of_le (small_body l s _ (pattern_binder p mem)) (Nat.le_add_right _ _)
  have seeded : ∀ c ∈ drawn.map (·.name), c ∈ scope := fun c mem =>
    (mem_after_paramOutline ..).mpr (.inr (List.mem_map.mp mem))
  obtain ⟨b, t, gives, -, distributed⟩ := sweepBody_works (passesOn_stm l.body.branchDepth) l.body
    code.body (Nat.le_refl _) fit rfl sub (fun _ mem => mem) (fun _ mem => mem) distinct typed
    (under.closed closed) narrow narrow below seeded
  refine ⟨_, (gives_start ..).mpr ⟨_, (gives_top ..).mpr ⟨b, gives, rfl⟩⟩,
    fun A args seeds srcs inputs accepts are fits leaf => ?_⟩
  have argCount : args.length = sizes.length := by simpa [sizes] using accepts.length_eq.symm
  have sourceCount := body_origins_length are
  have seedCount : seeds.length = (drawn.map (·.name)).length := by
    have drawnCount := congrArg List.length (types_paramsFrom (s.reserve l).next l.ret)
    rw [List.length_map] at drawnCount
    rw [List.length_map, ← fits.length_eq, sourceCount, count, drawnCount]
  let σ := (l.inputs args).store.bound (drawn.map (·.name)) seeds
  have split : Store.initial.bound ((l.params ++ drawn).map (·.name)) (args ++ seeds) = σ := by
    rw [List.map_append]
    exact Store.bound_append Store.initial (drawn.map (·.name)) seeds argCount
  have apart : ∀ p ∈ drawn, p.name ∉ sizes := fun p mem known => by
    obtain ⟨q, inParams, same⟩ := List.mem_map.mp known
    have small := small_params l s q inParams
    have large := (bounds_paramsFrom mem).1
    rw [same] at small
    omega
  have agree : (l.inputs args).store.Agree (· ∈ sizes) σ := .bound _ _ fun x mem known => by
    obtain ⟨p, inDrawn, rfl⟩ := List.mem_map.mp mem
    exact apart p inDrawn known
  have tracks : (l.inputs args).Tracks opened.builder.types σ l.ownOrigins sizes := by
    refine accepts.tracks distinct agree fun p mem => ?_
    refine (Builder.find_declared_of_not_mem _ fun q inDrawn same => ?_).trans
      (Lambda.find_inputs args distinct p mem)
    exact apart q inDrawn (same ▸ List.mem_map_of_mem mem)
  have stand := NameTable.find_insertAll_zip (l.inputs args).store.vars seeds
    (nodup_paramsFrom (s.reserve l).next l.ret) seedCount
  obtain ⟨fuel, vs, τ, ran, -, adjoints, amount⟩ := distributed A _ σ srcs (inputs ▸ agree) (inputs ▸ tracks)
    (inputs ▸ are) (holds_of_seeds stand fits leaf)
  have own := Lambda.find_ownOrigins distinct
  refine ⟨fuel, vs, (interp_ok ..).mpr ⟨τ, ?_⟩, ?_, fun v mem i => ?_⟩
  · simp only [applyLambda, ends_bind, ends_bindNames]
    refine ⟨(), σ, ⟨?_, split⟩, ran⟩
    rw [List.map_append, List.length_append, List.length_append, argCount, seedCount]
  · rw [List.forall₂_map_left_iff, List.forall₂_iff_zip] at adjoints
    exact List.forall₂_iff_zip.mpr ⟨adjoints.1, fun {p v} mem =>
      adjoints.2 mem (.var p.name) (own p (List.of_mem_zip mem).1)⟩
  · have amount := congrFun amount i
    rw [collected_eq_entries distinct (by simpa [sizes] using own) mem, worth_eq_entries srcs stand] at amount
    exact amount

end Reverse

/-- Seeds of the declared layouts have the layouts of what the results are copies of. -/
theorem Lambda.AcceptsSeeds.fits {l : Lambda} {args seeds : List Value} {srcs : List Operand}
    (accepts : l.AcceptsSeeds args seeds) (laid : List.Forall₂ (l.inputs args).LaidOut l.ret srcs) :
    List.Forall₂ (fun src v => ∃ L, (l.inputs args).layout? src = some L ∧ v.Fits L) srcs seeds := by
  rw [AcceptsSeeds] at accepts
  generalize l.ret = ts at accepts laid
  induction laid generalizing seeds with
  | nil =>
    obtain rfl := List.forall₂_nil_left_iff.mp accepts
    exact .nil
  | cons here rest ih =>
    obtain ⟨v, seeds, ⟨L, layout, fits⟩, tail, rfl⟩ := List.forall₂_cons_left_iff.mp accepts
    obtain ⟨M, layout', layoutSrc⟩ := here
    obtain rfl := Option.some.inj (layout.symm.trans layout')
    exact .cons ⟨L, layoutSrc, fits⟩ (ih tail)

/-- Reverse differentiation of copy code returns, for each parameter that is an integer or an array of
    integers, the sum of the seeds of the results that are copies of it. -/
theorem reverse_sums_seeds (l : Lambda) (valid : l.validate = .ok ()) (code : l.CopyCode) (s : Supply) :
    ∃ out, (l.reverse .standard s).1 = .ok out ∧
      ∀ args seeds, l.Accepts args → l.AcceptsSeeds args seeds →
        ∃ srcs, l.origins? args = some srcs ∧
          (∃ fuel us, l.interp args fuel = some (.ok us) ∧
            List.Forall₂ (fun src u => (l.inputs args).store.value src = some u) srcs us) ∧
          ∃ fuel vs, out.interp (args ++ seeds) fuel = some (.ok vs) ∧
            List.Forall₂ (fun p v => ∀ w dims,
              p.ty.layout? (l.inputs args).store = some ⟨.int w, dims⟩ →
                Value.IsSum w dims (seedsOf p.name srcs seeds) v) l.params vs := by
  obtain ⟨out, made, settles⟩ := Reverse.reverse_settles valid code s
  refine ⟨out, made, fun args seeds accepts acceptsSeeds => ?_⟩
  have distinct : (l.params.map (·.name)).Nodup :=
    nodup_of_accepted ((accepted_lambda l []).mp ((validate_iff l).mp valid)).1
  obtain ⟨srcs, are, laid⟩ := code.origins accepts distinct
  have fits := acceptsSeeds.fits laid
  -- an account of a name that is no parameter shows that there is a run
  let spare : Account := {
    inputs := l.inputs args
    param := ⟨(s.reserve l).next⟩
    width := .i64
    leaf := fun _ => True
    kind := fun L layout => by
      obtain ⟨t, found, -⟩ := Option.bind_eq_some_iff.mp layout
      rcases Builder.find_declared found with mem | ⟨-, found⟩
      · exact absurd (small_params l s _ mem) (Nat.lt_irrefl _)
      · simp [NameTable.find_empty] at found
    zero := fun _ => trivial
    plus := fun _ _ _ _ => trivial }
  obtain ⟨fuel, vs, ran, adjoints, -⟩ := settles spare args seeds srcs rfl accepts are fits fun v _ =>
    Value.every_of_forall (fun _ => trivial) v
  refine ⟨srcs, are, accepts.interp valid code.typesInScope are, fuel, vs, ran, ?_⟩
  refine List.forall₂_iff_zip.mpr ⟨adjoints.length_eq, fun {p v} mem w dims layout => ?_⟩
  have inParams := (List.of_mem_zip mem).1
  have layoutParam : (l.inputs args).layout? (.var p.name) = some ⟨.int w, dims⟩ := by
    rw [Inputs.layout?, Lambda.find_inputs args distinct p inParams]
    exact layout
  -- what an account of the parameter says of its adjoint in that run
  have settled (leaf : Scalar → Prop) (zero : ∀ k, leaf (.zero k))
      (plus : ∀ a b, leaf a → leaf b → leaf (a.plus b))
      (inSeeds : ∀ u ∈ seedsOf p.name srcs seeds, u.Every leaf) :
      v.Fits ⟨.int w, dims⟩ ∧ v.Every leaf ∧ ∀ i, (v.entry i : ZMod w.modulus) =
        (((seedsOf p.name srcs seeds).map (·.entry i)).sum : Int) := by
    let A : Account := {
      inputs := l.inputs args
      param := p.name
      width := w
      leaf := leaf
      kind := fun L layout => congrArg Layout.elem (Option.some.inj (layout.symm.trans layoutParam))
      zero := zero
      plus := plus }
    obtain ⟨fuel', us, ran', adjoints', amounts⟩ := settles A args seeds srcs rfl accepts are fits inSeeds
    obtain rfl : vs = us := Except.ok.inj (interp_unique ran ran')
    obtain ⟨⟨L, layout', fitsAdjoint⟩, every⟩ := (List.forall₂_iff_zip.mp adjoints').2 mem
    obtain rfl := Option.some.inj (layoutParam.symm.trans layout')
    refine ⟨fitsAdjoint, every rfl, amounts v ?_⟩
    rw [List.zip_map_left]
    exact List.mem_map_of_mem (f := Prod.map (·.name) id) mem
  obtain ⟨fitsHere, -, amounts⟩ := settled (fun _ => True) (fun _ => trivial)
    (fun _ _ _ _ => trivial) fun u _ => Value.every_of_forall (fun _ => trivial) u
  exact {
    laid := fitsHere
    entries := fun i => (ZMod.intCast_eq_intCast_iff _ _ _).mp (amounts i)
    canonical := fun inSeeds =>
      (settled _ Scalar.canonical_zero (fun a b left _ => Scalar.canonical_plus left) inSeeds).2.1
    zero := fun none => by
      refine Value.eq_zero_of_every fitsHere
        (settled (fun a => ∃ k, a = .zero k) (fun k => ⟨k, rfl⟩) ?_ (by simp [none])).2.1
      rintro _ _ ⟨k, rfl⟩ ⟨j, rfl⟩
      exact ⟨k, Scalar.zero_plus_zero k j⟩ }

/-- Rows of the first array or of the second one, and the first array again. -/
def pickedRows : Lambda :=
  let rows : Ty := .array (.int .i8) [.var ⟨0⟩, .const (.int .i64 2)] false
  ⟨[⟨⟨0⟩, .scalar (.int .i64)⟩, ⟨⟨1⟩, rows⟩, ⟨⟨2⟩, rows⟩, ⟨⟨3⟩, .scalar .bool⟩],
    ⟨[⟨[⟨⟨4⟩, rows⟩], .none, .branch (.var ⟨3⟩)
        ⟨[⟨[⟨⟨5⟩, rows⟩], .none, .basic (.operand (.var ⟨1⟩))⟩], [.var ⟨5⟩]⟩ ⟨[], [.var ⟨2⟩]⟩ [rows] .normal⟩],
      [.var ⟨4⟩, .var ⟨1⟩, .var ⟨4⟩, .var ⟨0⟩]⟩,
    [rows, rows, rows, .scalar (.int .i64)]⟩

/-- One row of two. -/
def oneRow (m n : Int) : Value := .array [.array [.scalar (.int .i8 m), .scalar (.int .i8 n)]]

theorem sums_pickedRows :
    pickedRows.validate = .ok () ∧ pickedRows.CopyCode ∧
      ∃ out fuel size first second cond, (pickedRows.reverse .standard ⟨0⟩).1 = .ok out ∧
        out.interp ([.scalar (.int .i64 1), oneRow 5 6, oneRow 7 8, .scalar (.bool true)] ++
          [oneRow 100 1, oneRow 100 2, oneRow 100 3, .scalar (.int .i64 9)]) fuel =
            some (.ok [size, first, second, cond]) ∧
        Value.IsSum .i8 [1, 2] [oneRow 100 1, oneRow 100 2, oneRow 100 3] first ∧
        Value.IsSum .i8 [1, 2] [] second ∧ Value.IsSum .i64 [] [.scalar (.int .i64 9)] size := by
  have valid : pickedRows.validate = .ok () := by decide
  have code : pickedRows.CopyCode := by
    constructor
    · simp [pickedRows, Ty.Sized, ScalarType.Exact, operandNames, Operand.names]
    · decide
    · simp [pickedRows, Body.CopyCode, StmsCopyCode, Stm.CopyCode, Exp.CopyCode, BasicOp.CopyCode, Ty.Sized,
        ScalarType.Exact, operandNames, Operand.names]
    · simp [pickedRows, Ty.Sized, ScalarType.Exact, operandNames, Operand.names]
    · simp [pickedRows, Body.CopiesAt, StmsDeclare, Stm.Declares, Exp.CopiesAt, BasicOp.CopiesAt,
        Operand.CopiesAt, Ty.Alike, NameTable.declare, NameTable.insertAll, NameTable.find_insert]
  let args : List Value := [.scalar (.int .i64 1), oneRow 5 6, oneRow 7 8, .scalar (.bool true)]
  let seeds : List Value := [oneRow 100 1, oneRow 100 2, oneRow 100 3, .scalar (.int .i64 9)]
  have fits (m n : Int) : (oneRow m n).Fits ⟨.int .i8, [1, 2]⟩ := by
    have row : Value.Laid (.int .i8) [2] (.array [.scalar (.int .i8 m), .scalar (.int .i8 n)]) :=
      ⟨rfl, by simp [Value.Laid, Scalar.ty]⟩
    exact ⟨rfl, by simpa using row⟩
  have accepts : pickedRows.Accepts args :=
    .cons ⟨⟨.int .i64, []⟩, rfl, rfl⟩ (.cons ⟨⟨.int .i8, [1, 2]⟩, rfl, fits 5 6⟩
      (.cons ⟨⟨.int .i8, [1, 2]⟩, rfl, fits 7 8⟩ (.cons ⟨⟨.bool, []⟩, rfl, rfl⟩ .nil)))
  have acceptsSeeds : pickedRows.AcceptsSeeds args seeds :=
    .cons ⟨⟨.int .i8, [1, 2]⟩, rfl, fits 100 1⟩ (.cons ⟨⟨.int .i8, [1, 2]⟩, rfl, fits 100 2⟩
      (.cons ⟨⟨.int .i8, [1, 2]⟩, rfl, fits 100 3⟩ (.cons ⟨⟨.int .i64, []⟩, rfl, rfl⟩ .nil)))
  obtain ⟨out, made, sums⟩ := reverse_sums_seeds pickedRows valid code ⟨0⟩
  obtain ⟨srcs, are, -, fuel, vs, ran, all⟩ := sums args seeds accepts acceptsSeeds
  have known : pickedRows.origins? args = some [.var ⟨1⟩, .var ⟨1⟩, .var ⟨1⟩, .var ⟨0⟩] := by
    decide +kernel
  obtain rfl := Option.some.inj (known.symm.trans are)
  obtain ⟨size, _, ofSize, arrays, rfl⟩ := List.forall₂_cons_left_iff.mp all
  obtain ⟨first, _, ofFirst, others, rfl⟩ := List.forall₂_cons_left_iff.mp arrays
  obtain ⟨second, _, ofSecond, last, rfl⟩ := List.forall₂_cons_left_iff.mp others
  obtain ⟨cond, _, -, none, rfl⟩ := List.forall₂_cons_left_iff.mp last
  obtain rfl := List.forall₂_nil_left_iff.mp none
  exact ⟨valid, code, out, fuel, size, first, second, cond, made, ran, ofFirst _ _ rfl, ofSecond _ _ rfl,
    ofSize _ _ rfl⟩

end Cotangent
