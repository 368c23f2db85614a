import Cotangent.Proofs.Derivative.CopyCode
import Cotangent.Proofs.Derivative.ReverseScope
/-!
Runs of the zeros and the sums that reverse differentiation emits. The sum of two arrays is a map for
each dimension, with the sum of two rows inside it; whatever the rank, it binds the sum entry by entry.
-/
namespace Cotangent

open Outline Run

variable {σ τ : Store Scalar} {fuel : Nat} {k : ScalarType} {dims : List Nat}

/-! Extents. -/

theorem Store.Agree.extent? {on : Name → Prop} (agree : σ.Agree on τ) {x : Operand}
    (known : ∀ y ∈ x.names, on y) : τ.extent? x = σ.extent? x := by
  rw [Store.extent?, agree.value known, Store.extent?]

theorem Store.Agree.extents {on : Name → Prop} (agree : σ.Agree on τ) {shape : List Operand}
    (known : ∀ y ∈ operandNames shape, on y) : shape.mapM τ.extent? = shape.mapM σ.extent? :=
  option_mapM_congr fun x mem => agree.extent? fun y inX =>
    known y (List.mem_flatMap.mpr ⟨x, mem, inX⟩)

theorem Store.Agree.layout? {on : Name → Prop} (agree : σ.Agree on τ) {t : Ty}
    (known : ∀ y ∈ t.names, on y) : t.layout? τ = t.layout? σ := by
  cases t with
  | array k shape unique => rw [Ty.layout?, agree.extents known, Ty.layout?]
  | _ => rfl

namespace Run

theorem ends_size {x : Operand} {n : Nat} (extent : σ.extent? x = some n) : Ends (size x) σ n σ := by
  unfold Store.extent? at extent
  split at extent
  · rename_i w m found
    split at extent
    · rename_i positive
      obtain rfl := Option.some.inj extent
      have number : ScalarAlgebra.asInt (Scalar.int w m) = .ok m := rfl
      simp only [size, int, ends_bind, ends_scalar, ends_lift]
      refine ⟨m, σ, ⟨.int w m, σ, ⟨found, rfl⟩, number, rfl⟩, ?_, rfl⟩
      rw [asSize, if_neg (by omega)]
    · cases extent
  · cases extent

theorem ends_sizes {shape : List Operand} (extents : shape.mapM σ.extent? = some dims) :
    Ends (sizes shape) σ dims σ := by
  rw [option_mapM_iff] at extents
  induction extents with
  | nil => exact (ends_pure ..).mpr ⟨rfl, rfl⟩
  | cons here rest ih =>
    simp only [sizes, List.mapM_cons, ends_bind, ends_pure]
    exact ⟨_, σ, ends_size here, _, σ, ih, rfl, rfl⟩

/-- The zero of a type comes to the zero of its layout. -/
theorem ends_zeroExp {t : Ty} {e : Exp} {L : Layout} (zero : Diff.zeroExp t = some e)
    (layout : t.layout? σ = some L) (run : Body → Run Scalar (List Value)) :
    Ends (exp run fuel e) σ [L.zero] σ := by
  cases t with
  | scalar k =>
    obtain rfl := Option.some.inj zero
    obtain rfl := Option.some.inj layout
    simp only [exp, basicOp, ends_bind, ends_operand, ends_pure]
    exact ⟨_, σ, ⟨rfl, rfl⟩, rfl, rfl⟩
  | array k shape unique =>
    obtain rfl := Option.some.inj zero
    obtain ⟨dims, extents, rfl⟩ := Option.map_eq_some_iff.mp layout
    simp only [exp, basicOp, ends_bind, ends_operand, ends_pure]
    exact ⟨_, σ, ⟨dims, σ, ends_sizes extents, _, σ, ⟨rfl, rfl⟩, rfl, rfl⟩, rfl, rfl⟩
  | acc token shape elems unique => cases zero

/-! A map over two arrays. -/

/-- Called with two rows in any store like this one, the lambda returns what `f` makes of them. -/
def Combines (run : Body → Run Scalar (List Value)) (on : Name → Prop) (l : Lambda)
    (f : Value → Value → Value) (P : Value → Prop) (σ : Store Scalar) : Prop :=
  ∀ σ₁ a b, σ.Agree on σ₁ → P a → P b →
    ∃ τ, Ends (applyLambda run l [a, b]) σ₁ [f a b] τ ∧ σ₁.Agree on τ

variable {run : Body → Run Scalar (List Value)} {on : Name → Prop} {l : Lambda}
  {f : Value → Value → Value} {P : Value → Prop}

theorem rowsAt_pair {rows more : List Value} {i : Nat} {a b : Value} (here : rows[i]? = some a)
    (there : more[i]? = some b) :
    rowsAt [(Value.array rows).table, (Value.array more).table] i = .ok [a, b] := by
  have row {rows : List Value} {a : Value} (found : rows[i]? = some a) :
      pick rows.toArray i = .ok a := by
    simp [pick, found]
  simp [rowsAt, Value.table, Value.rows, row here, row there]

theorem ends_map_rounds {rows more : List Value} (combines : Combines run on l f P σ)
    (inRows : ∀ r ∈ rows, P r) (inMore : ∀ r ∈ more, P r) (count : rows.length = more.length)
    (n i : Nat) (rest : i + n = rows.length) (s : Fused Scalar) (scans : s.scans = [])
    (reduces : s.reduces = []) (σ₁ : Store Scalar) (agree : σ.Agree on σ₁) :
    ∃ s' τ, Ends (rounds (fusedRow run
        [(Value.array rows).table, (Value.array more).table] [] [] l 1) n i s) σ₁ s' τ ∧
      σ₁.Agree on τ ∧ s'.reduces = [] ∧
      s'.mapped.reverse = s.mapped.reverse ++ ((List.zipWith f rows more).drop i).map ([·]) := by
  induction n generalizing i s σ₁ with
  | zero =>
    refine ⟨s, σ₁, (ends_pure ..).mpr ⟨rfl, rfl⟩, .refl on σ₁, reduces, ?_⟩
    have done : (List.zipWith f rows more).length ≤ i := by
      rw [List.length_zipWith]
      omega
    simp [List.drop_eq_nil_of_le done]
  | succ n ih =>
    obtain ⟨a, here⟩ : ∃ a, rows[i]? = some a := ⟨_, List.getElem?_eq_getElem (by omega)⟩
    obtain ⟨b, there⟩ : ∃ b, more[i]? = some b := ⟨_, List.getElem?_eq_getElem (by omega)⟩
    obtain ⟨ρ, called, kept⟩ := combines σ₁ a b agree (inRows a (List.mem_of_getElem? here))
      (inMore b (List.mem_of_getElem? there))
    obtain ⟨s', τ, ran, kept', reduces', mapped⟩ := ih (i + 1) (by omega)
      ⟨[], [], [] :: s.scanned, [f a b] :: s.mapped⟩ rfl rfl ρ (agree.trans kept)
    refine ⟨s', τ, ?_, kept.trans kept', reduces', ?_⟩
    · refine (ends_bind ..).mpr ⟨_, ρ, ?_, ran⟩
      simp only [fusedRow, scans, reduces, rowsAt_pair here there, List.map_nil, List.flatten_nil,
        List.length_nil, ends_bind, ends_lift, Except.ok.injEq]
      refine ⟨_, σ₁, ⟨rfl, rfl⟩, _, ρ, called, ([], [f a b]), ρ, ⟨rfl, rfl⟩, ([], [f a b]), ρ,
        ⟨rfl, rfl⟩, ?_⟩
      simp only [combineGroups, ends_pure]
      exact ⟨_, ρ, ⟨rfl, rfl⟩, _, ρ, ⟨rfl, rfl⟩, (), ρ, ⟨rfl, rfl⟩, rfl, rfl⟩
    · have at_i : (List.zipWith f rows more)[i]? = some (f a b) := by
        simp [List.getElem?_zipWith, here, there]
      have split : (List.zipWith f rows more).drop i =
          f a b :: (List.zipWith f rows more).drop (i + 1) := by
        obtain ⟨inside, same⟩ := List.getElem?_eq_some_iff.mp at_i
        rw [List.drop_eq_getElem_cons inside, same]
      rw [mapped, split]
      simp

/-- A map over two arrays of one length returns one array. -/
theorem ends_maps {rows more : List Value} {width : Operand} {x y : Name}
    (combines : Combines run on l f P σ) (inRows : ∀ r ∈ rows, P r) (inMore : ∀ r ∈ more, P r)
    (count : rows.length = more.length) (extent : σ.extent? width = some rows.length)
    (left : σ.vars.find? x = some (.array rows)) (right : σ.vars.find? y = some (.array more))
    (ret : l.ret.length = 1) :
    ∃ τ, Ends (exp run fuel (.screma width [x, y] [] [] l)) σ [.array (List.zipWith f rows more)] τ ∧
      σ.Agree on τ := by
  obtain ⟨s, τ, ran, kept, reduces, mapped⟩ := ends_map_rounds combines inRows inMore count rows.length 0
    (by omega) ⟨[], [], [], []⟩ rfl rfl σ (.refl on σ)
  refine ⟨τ, ?_, kept⟩
  have found : Ends (lookups [x, y]) σ [.array rows, .array more] σ := by
    simp [lookups, left, right]
  simp only [exp, screma, ends_bind, ends_pure, List.mapM_nil]
  refine ⟨_, σ, ends_size extent, _, σ, found, [], σ, ⟨rfl, rfl⟩, [], σ, ⟨rfl, rfl⟩, s, τ, ?_, ?_, rfl⟩
  · simpa [ret] using ran
  · have alone (vs : List Value) : columns 1 (vs.map ([·])) = [.array vs] := by
      simp [columns, List.range_succ, List.filterMap_map]
    rw [mapped, reduces, ret]
    exact alone _

/-- A statement that binds one name to the value of its expression. -/
theorem ends_bound {x : Name} {t : Ty} {e : Exp} {v : Value}
    (ends : Ends (exp (runBody fuel) fuel e) σ [v] τ) :
    Ends (stms fuel [⟨[⟨x, t⟩], .none, e⟩]) σ () (τ.bound [x] [v]) ∧
      (τ.bound [x] [v]).vars.find? x = some v := by
  refine ⟨(ends_stms_cons ..).mpr ⟨_, (ends_stm ..).mpr ⟨[v], τ, ends, rfl, rfl⟩, ?_⟩, ?_⟩
  · exact (ends_stms_nil ..).mpr rfl
  · simp [Store.bound, NameTable.insertAll, NameTable.find_insert]

variable {b : Builder} {scope : Scope}

/-- The sum is bound to the sum of the values, given fuel for one body in each dimension. -/
theorem ends_sum (exact : k.Exact) (unique : Bool) (shape : List Operand) (ready : b.Ready scope)
    {x y : Name} (left : x ∈ scope) (right : y ∈ scope)
    (known : ∀ z ∈ operandNames shape, z ∈ scope) :
    ∃ new, (Build.sum k unique shape x y b).2.stms = b.stms ++ new ∧
      ∀ fuel, shape.length ≤ fuel → ∀ (σ : Store Scalar) (dims : List Nat) (u v : Value),
        shape.mapM σ.extent? = some dims → σ.vars.find? x = some u → σ.vars.find? y = some v →
        u.Laid k dims → v.Laid k dims → ∃ τ, Ends (stms fuel new) σ () τ ∧ σ.Agree (· ∈ scope) τ ∧
          τ.vars.find? (Build.sum k unique shape x y b).1 = some (.plus dims u v) := by
  induction shape generalizing b scope x y with
  | nil =>
    let z : Name := ⟨b.supply.next⟩
    let sum : Exp := .basic (.binary (.add k) (.var x) (.var y))
    refine ⟨[⟨[⟨z, .scalar (BinaryOp.add k).ty⟩], .none, sum⟩],
      rfl, fun fuel _ σ dims u v extents foundLeft foundRight laidLeft laidRight => ?_⟩
    obtain rfl : [] = dims := Option.some.inj extents
    obtain ⟨a, rfl, kindLeft⟩ := laidLeft.exists_scalar
    obtain ⟨c, rfl, kindRight⟩ := laidRight.exists_scalar
    have ends : Ends (exp (runBody fuel) fuel sum) σ [.scalar (a.plus c)] σ := by
      refine (ends_basic ..).mpr ⟨_, ?_, rfl⟩
      simp only [basicOp, ends_bind, ends_scalar, ends_lift, ends_pure]
      exact ⟨a, σ, ⟨foundLeft, rfl⟩, c, σ, ⟨foundRight, rfl⟩, _, σ,
        ⟨Scalar.apply_add exact kindLeft kindRight, rfl⟩, rfl, rfl⟩
    obtain ⟨ran, found⟩ := ends_bound (x := z) (t := .scalar (BinaryOp.add k).ty) ends
    refine ⟨_, ran, .bound _ _ ?_, found⟩
    simpa [z] using ready.below.fresh
  | cons width shape ih =>
    have split : operandNames (width :: shape) = width.names ++ operandNames shape := rfl
    rw [split, List.forall_mem_append] at known
    let row := Ty.ofShape k unique shape
    have inRow : ∀ z ∈ row.names, z ∈ scope := by simpa [row, Builder.names_ofShape] using known.2
    have inside := Builder.ready_rowBuilder ready inRow
    have sub (z : Name) (mem : z ∈ scope) :
        z ∈ (paramOutline (Builder.rowParams b row)).after scope := mem_after _ mem
    have first : (⟨b.supply.next⟩ : Name) ∈ (paramOutline (Builder.rowParams b row)).after scope := by
      simp [Builder.rowParams, paramOutline, Param.outline]
    have second : (⟨b.supply.next + 1⟩ : Name) ∈
        (paramOutline (Builder.rowParams b row)).after scope := by
      simp [Builder.rowParams, paramOutline, Param.outline]
    obtain ⟨new, emitted, runs⟩ := ih inside first second fun z mem => sub z (known.2 z mem)
    obtain ⟨_, grows, _⟩ := Builder.sum_grows k unique shape inside first second
      fun z mem => sub z (known.2 z mem)
    let opened := Build.sum k unique shape ⟨b.supply.next⟩ ⟨b.supply.next + 1⟩
      (Builder.rowBuilder b row)
    have emitted : opened.2.stms = new := emitted.trans (List.nil_append new)
    let op : Lambda := ⟨Builder.rowParams b row, ⟨opened.2.stms, [.var opened.1]⟩, [row]⟩
    let z : Name := ⟨opened.2.supply.next⟩
    refine ⟨[⟨[⟨z, .ofShape k unique (width :: shape)⟩], .none, .screma width [x, y] [] [] op⟩], rfl,
      fun fuel enough σ dims u v extents foundLeft foundRight laidLeft laidRight => ?_⟩
    obtain ⟨below, rfl⟩ : ∃ below, fuel = below + 1 := ⟨fuel - 1, by simp at enough; omega⟩
    obtain ⟨n, dims, extent, inner, rfl⟩ := List.forall₂_cons_left_iff.mp (option_mapM_iff.mp extents)
    obtain ⟨rows, rfl, count, inRows⟩ := laidLeft.exists_rows
    obtain ⟨more, rfl, count', inMore⟩ := laidRight.exists_rows
    have combines : Combines (runBody (below + 1)) (· ∈ scope) op (.plus dims) (·.Laid k dims) σ := by
      intro σ₁ a c agree laidA laidC
      let σ₂ := σ₁.bound [⟨b.supply.next⟩, ⟨b.supply.next + 1⟩] [a, c]
      have apart : ∀ p ∈ Builder.rowParams b row, p.name ∉ scope := fun p mem =>
        Builder.not_mem_of_params (Builder.closed_rowParams ready inRow).1 mem
      have opens : σ₁.Agree (· ∈ scope) σ₂ := .bound _ _ (by simpa [Builder.rowParams] using apart)
      have isFirst : σ₂.vars.find? ⟨b.supply.next⟩ = some a := by
        simp [σ₂, Store.bound, NameTable.insertAll, NameTable.find_insert]
      have isSecond : σ₂.vars.find? ⟨b.supply.next + 1⟩ = some c := by
        simp [σ₂, Store.bound, NameTable.insertAll, NameTable.find_insert]
      have same : shape.mapM σ₂.extent? = some dims :=
        ((agree.trans opens).extents known.2).trans (option_mapM_iff.mpr inner)
      obtain ⟨τ, ran, kept, found⟩ := runs below (by simpa using enough) σ₂ dims a c same isFirst isSecond
        laidA laidC
      refine ⟨τ, ?_, opens.trans (kept.mono sub)⟩
      simp only [applyLambda, ends_bind, ends_bindNames]
      refine ⟨(), σ₂, ⟨rfl, rfl⟩, (ends_runBody ..).mpr ⟨below, τ, rfl, ?_, ?_⟩⟩
      · have isNew : op.body.stms = new := emitted
        rwa [isNew]
      · have reads : Ends (operands [.var opened.1]) τ [.plus dims a c] τ := by
          simpa [operands, Store.value] using found
        exact reads
    obtain ⟨τ, ran, kept⟩ := ends_maps combines inRows inMore (count.trans count'.symm)
      (count ▸ extent) foundLeft foundRight rfl
    obtain ⟨ran, found⟩ := ends_bound (x := z) (t := .ofShape k unique (width :: shape)) ran
    have fresh : z ∉ scope := by
      intro mem
      have lt := ready.below z mem
      have le : b.supply.next + 2 ≤ opened.2.supply.next := grows.next_le
      simp only [z] at lt
      omega
    exact ⟨_, ran, kept.trans (.bound _ _ (by simpa using fresh)), found⟩

end Run

end Cotangent
