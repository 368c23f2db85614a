import Mathlib.Data.List.Nodup
import Mathlib.Data.List.Perm.Subperm
import Cotangent.Proofs.Value.Rectangular
/-!
Rearranging. The dimensions of a rectangular value are taken in another order, given by a permutation:
dimension `k` of the result runs along dimension `p[k]` of the source. A value is a function of its
positions, so this composes that function with a map of positions; one order after another comes to the
order in which the second picks from the first.
-/
namespace Cotangent

namespace Value

variable {α : Type} {v : Value α} {shape idx src p q : List Nat} {r : Nat}

/-- The list holds every dimension below `r` once. -/
def Permutes (r : Nat) (p : List Nat) : Prop := p.Perm (List.range r)

/-- The position in the source that the position `idx` of the result comes from. -/
structure Sources (p idx src : List Nat) : Prop where
  count : src.length = p.length
  entries : ∀ k d : Nat, p[k]? = some d → src[d]? = idx[k]?

/-- `xs[p[0]]`, `xs[p[1]]`, and so on. -/
def entriesAt (p xs : List Nat) : List Nat := p.map fun d => xs.getD d 0

/-- The order that puts the dimensions back that `p` takes. -/
def inverse (p : List Nat) : List Nat := (List.range p.length).map fun d => p.idxOf d

/-! Permutations. -/

namespace Permutes

theorem length (perm : Permutes r p) : p.length = r := by
  simpa using List.Perm.length_eq perm

theorem nodup (perm : Permutes r p) : p.Nodup := (List.Perm.nodup_iff perm).mpr List.nodup_range

theorem mem (perm : Permutes r p) {d : Nat} : d ∈ p ↔ d < r := by
  rw [List.Perm.mem_iff perm, List.mem_range]

theorem lt (perm : Permutes r p) {k d : Nat} (at_k : p[k]? = some d) : d < r :=
  perm.mem.mp (List.mem_of_getElem? at_k)

/-- Every dimension is taken somewhere. -/
theorem exists_at (perm : Permutes r p) {d : Nat} (below : d < r) : ∃ k : Nat, p[k]? = some d :=
  List.mem_iff_getElem?.mp (perm.mem.mpr below)

end Permutes

theorem getElem?_entriesAt {xs : List Nat} {k d : Nat} (at_k : p[k]? = some d) (inside : d < xs.length) :
    (entriesAt p xs)[k]? = xs[d]? := by
  simp [entriesAt, at_k, inside]

theorem entriesAt_range (xs : List Nat) : entriesAt (List.range xs.length) xs = xs :=
  List.ext_getElem (by simp [entriesAt]) fun d _ inside => by simp [entriesAt, inside]

theorem permutes_entriesAt (first : Permutes r p) (second : Permutes r q) :
    Permutes r (entriesAt q p) := by
  have picked : (entriesAt q p).Perm (entriesAt (List.range r) p) := second.map _
  rw [← first.length, entriesAt_range] at picked
  exact picked.trans first

theorem entriesAt_inverse (perm : Permutes r p) : entriesAt (inverse p) p = List.range r := by
  refine List.ext_getElem (by simp [entriesAt, inverse, perm.length]) fun d _ below => ?_
  have inside : p.idxOf d < p.length :=
    List.idxOf_lt_length_of_mem (perm.mem.mpr (by simpa using below))
  simp [entriesAt, inverse, inside]

theorem permutes_inverse (perm : Permutes r p) : Permutes r (inverse p) := by
  have distinct : (inverse p).Nodup := by
    refine List.Nodup.map_on (fun d here e there same => ?_) List.nodup_range
    rw [perm.length, List.mem_range] at here there
    exact (List.idxOf_inj (perm.mem.mpr here)).mp same
  have below : inverse p ⊆ List.range r := fun k mem => by
    obtain ⟨d, inRange, rfl⟩ := List.mem_map.mp mem
    rw [perm.length, List.mem_range] at inRange
    rw [List.mem_range, ← perm.length]
    exact List.idxOf_lt_length_of_mem (perm.mem.mpr inRange)
  exact (List.subperm_of_subset distinct below).perm_of_length_le (by simp [inverse, perm.length])

/-! Positions. -/

theorem Sources.unique {src' : List Nat} (perm : Permutes r p) (one : Sources p idx src)
    (other : Sources p idx src') : src = src' := by
  refine List.ext_getElem? fun d => ?_
  by_cases below : d < r
  · obtain ⟨k, at_k⟩ := perm.exists_at below
    rw [one.entries k d at_k, other.entries k d at_k]
  · have past : r ≤ d := Nat.le_of_not_lt below
    rw [List.getElem?_eq_none, List.getElem?_eq_none]
    · rwa [other.count, perm.length]
    · rwa [one.count, perm.length]

/-- Setting the entries one after the other gives the source, whatever was there before. -/
theorem sourceIndex_ok {table : List Nat} (distinct : p.Nodup) (inside : ∀ d ∈ p, d < table.length)
    (count : idx.length = p.length) :
    ∃ src, (sourceIndex idx p table : Except (Fault α) (List Nat)) = .ok src ∧
      src.length = table.length ∧ (∀ k d : Nat, p[k]? = some d → src[d]? = idx[k]?) ∧
      ∀ d, d ∉ p → src[d]? = table[d]? := by
  induction p generalizing idx table with
  | nil =>
    obtain rfl := List.length_eq_zero_iff.mp count
    exact ⟨table, rfl, rfl, by simp, fun _ _ => rfl⟩
  | cons d p ih =>
    obtain ⟨i, idx, rfl⟩ := List.exists_cons_of_length_eq_add_one count
    obtain ⟨here, later⟩ := List.forall_mem_cons.mp inside
    obtain ⟨absent, distinct⟩ := List.nodup_cons.mp distinct
    have inside' : ∀ e ∈ p, e < (table.set d i).length := by simpa using later
    obtain ⟨src, ran, length, entries, others⟩ := ih distinct inside' (Nat.succ.inj count)
    refine ⟨src, by rw [sourceIndex, if_pos here, ran], by simpa using length, fun k e at_k => ?_,
      fun e notIn => ?_⟩
    · cases k with
      | zero =>
        obtain rfl : d = e := by simpa using at_k
        rw [others d absent, List.getElem?_set_self here, List.getElem?_cons_zero]
      | succ k => exact entries k e (by simpa using at_k)
    · obtain ⟨other, notLater⟩ := not_or.mp (List.mem_cons.not.mp notIn)
      rw [others e notLater, List.getElem?_set_ne (Ne.symm other)]

theorem exists_sources (perm : Permutes r p) (count : idx.length = r) :
    ∃ src, (sourceIndex idx p (List.replicate idx.length 0) : Except (Fault α) (List Nat)) = .ok src ∧
      Sources p idx src := by
  have inside : ∀ d ∈ p, d < (List.replicate idx.length 0).length := fun d mem => by
    rw [List.length_replicate, count]
    exact perm.mem.mp mem
  obtain ⟨src, ran, length, entries, -⟩ := sourceIndex_ok perm.nodup inside
    (count.trans perm.length.symm)
  rw [List.length_replicate, count, ← perm.length] at length
  exact ⟨src, ran, length, entries⟩

theorem Sources.within (perm : Permutes shape.length p) (sources : Sources p idx src)
    (within : Within idx (entriesAt p shape)) : Within src shape := by
  refine List.forall₂_iff_get.mpr ⟨sources.count.trans perm.length, fun d here there => ?_⟩
  obtain ⟨k, at_k⟩ := perm.exists_at there
  have extent := getElem?_entriesAt at_k there
  have entry := sources.entries k d at_k
  rw [List.getElem?_eq_getElem there] at extent
  rw [List.getElem?_eq_getElem here] at entry
  obtain ⟨inResult, same⟩ := List.getElem?_eq_some_iff.mp extent
  obtain ⟨inIdx, same'⟩ := List.getElem?_eq_some_iff.mp entry.symm
  have below := (List.forall₂_iff_get.mp within).2 k inIdx inResult
  simpa [same, same'] using below

/-- Positions are taken back through the second order and then through the first. -/
theorem Sources.trans {mid : List Nat} (first : Permutes r p) (second : Permutes r q)
    (inner : Sources p mid src) (outer : Sources q idx mid) : Sources (entriesAt q p) idx src := by
  refine ⟨?_, fun k d at_k => ?_⟩
  · rw [inner.count, first.length, (permutes_entriesAt first second).length]
  · obtain ⟨m, at_m⟩ : ∃ m, q[k]? = some m := by
      have inside := (List.getElem?_eq_some_iff.mp at_k).1
      exact ⟨_, List.getElem?_eq_getElem (by simpa [entriesAt] using inside)⟩
    rw [getElem?_entriesAt at_m (first.length ▸ second.lt at_m)] at at_k
    rw [inner.entries m d at_k, outer.entries k m at_m]

theorem Sources.refl (count : idx.length = r) : Sources (List.range r) idx idx := by
  refine ⟨by simpa using count, fun k d at_k => ?_⟩
  obtain ⟨inside, rfl⟩ := List.getElem?_eq_some_iff.mp at_k
  rw [List.getElem_range]

/-! Rearranging. -/

theorem gather_ok {element : List Nat → Except (Fault α) (Value α)} {g : List Nat → Value α}
    (each : ∀ rest, Within rest shape → ∃ src,
      (sourceIndex (idx ++ rest) p (List.replicate (idx ++ rest).length 0) : Except (Fault α) _) = .ok src ∧
        element src = .ok (g rest)) :
    gather element p idx shape = .ok (generate shape g) := by
  induction shape generalizing idx g with
  | nil =>
    obtain ⟨src, ran, found⟩ := each [] (within_nil.mpr rfl)
    rw [List.append_nil] at ran
    simp only [gather, except_bind_ok]
    exact ⟨src, ran, found⟩
  | cons n shape ih =>
    have rows : tabulate (fun k => gather element p (idx ++ [k]) shape) n = .ok ((List.range n).map
        fun k => generate shape fun rest => g (k :: rest)) :=
      tabulate_of_ok fun k below => ih fun rest within => by
        simpa using each (k :: rest) (within.cons below)
    simp only [gather, except_bind_ok, except_pure_ok]
    exact ⟨_, rows, rfl⟩

/-- A rectangular value is rearranged into the one that has at each position what stands at the source
    of the position. -/
theorem Rectangular.rearrange_ok (rect : v.Rectangular shape) (positive : ∀ n ∈ shape, 0 < n)
    (perm : Permutes shape.length p) :
    ∃ w, v.rearrange p = .ok w ∧ w.Rectangular (entriesAt p shape) ∧
      ∀ idx src, Within idx (entriesAt p shape) → Sources p idx src → w.part idx = v.part src := by
  have each (idx : List Nat) : ∃ x, Within idx (entriesAt p shape) → ∃ src,
      (sourceIndex idx p (List.replicate idx.length 0) : Except (Fault α) (List Nat)) = .ok src ∧
        Sources p idx src ∧ v.part src = .ok x ∧ x.IsLeaf := by
    by_cases within : Within idx (entriesAt p shape)
    · have count : idx.length = shape.length := by
        simpa [entriesAt, perm.length] using List.Forall₂.length_eq within
      obtain ⟨src, ran, sources⟩ := exists_sources (α := α) perm count
      obtain ⟨f, leaf, rfl⟩ := rect.exists_generate
      have inSource := sources.within perm within
      exact ⟨f src, fun _ => ⟨src, ran, sources, part_generate inSource, leaf src inSource⟩⟩
    · exact ⟨v, fun inside => absurd inside within⟩
  choose g known using each
  refine ⟨generate (entriesAt p shape) g, ?_, rectangular_generate fun idx within => ?_,
    fun idx src within sources => ?_⟩
  · have gathered : gather (v.element v.table) p [] (entriesAt p shape) =
        .ok (generate (entriesAt p shape) g) :=
      gather_ok fun rest within => by
        obtain ⟨src, ran, -, found, -⟩ := known rest within
        exact ⟨src, ran, (element_table v src).trans found⟩
    rw [rearrange, except_bind_ok]
    refine ⟨entriesAt p shape, except_mapM_of_ok fun d mem => ?_, gathered⟩
    have below := perm.mem.mp mem
    simp [rect.extents_eq positive, below]
  · obtain ⟨src, -, -, -, leaf⟩ := known idx within
    exact leaf
  · obtain ⟨src', -, sources', found, -⟩ := known idx within
    rw [part_generate within, sources.unique perm sources', found]

/-- Rearranging acts by permutations. The result has the extents of the source in the new order, it has at
    each position what the source has where the position comes from, and rearranging it again comes to
    rearranging the source at once, by the order in which the second permutation picks from the first. -/
theorem rearrange_permutes (rect : v.Rectangular shape) (positive : ∀ n ∈ shape, 0 < n)
    (first : Permutes shape.length p) (second : Permutes shape.length q) :
    ∃ w, v.rearrange p = .ok w ∧ w.Rectangular w.extents ∧ w.extents.length = shape.length ∧
      (∀ k d : Nat, p[k]? = some d → w.extents[k]? = v.extents[d]?) ∧
      (∀ idx, Within idx w.extents → (∃ src, Sources p idx src) ∧ ∀ src, Sources p idx src →
        ∃ x, x.IsLeaf ∧ w.part idx = .ok x ∧ v.part src = .ok x) ∧
      w.rearrange q = v.rearrange (entriesAt q p) ∧ w.rearrange (inverse p) = .ok v := by
  obtain ⟨w, ran, rectW, parts⟩ := rect.rearrange_ok positive first
  have lengthW : (entriesAt p shape).length = shape.length := by simp [entriesAt, first.length]
  have positiveW : ∀ n ∈ entriesAt p shape, 0 < n := fun n mem => by
    obtain ⟨d, inP, rfl⟩ := List.mem_map.mp mem
    have below := first.mem.mp inP
    simpa [below] using positive _ (List.getElem_mem below)
  have extentsW := rectW.extents_eq positiveW
  have composed {q : List Nat} (second : Permutes shape.length q) :
      w.rearrange q = v.rearrange (entriesAt q p) := by
    have second' : Permutes (entriesAt p shape).length q := lengthW.symm ▸ second
    have both := permutes_entriesAt first second
    obtain ⟨x, ranX, rectX, partsX⟩ := rectW.rearrange_ok positiveW second'
    obtain ⟨y, ranY, rectY, partsY⟩ := rect.rearrange_ok positive both
    have sameShape : entriesAt q (entriesAt p shape) = entriesAt (entriesAt q p) shape := by
      refine List.ext_getElem (by simp [entriesAt]) fun k here _ => ?_
      have inside : k < q.length := by simpa [entriesAt] using here
      have below : q[k] < p.length := first.length ▸ second.lt (List.getElem?_eq_getElem inside)
      simp [entriesAt, below]
    rw [ranX, ranY]
    refine congrArg Except.ok (rectX.ext (sameShape ▸ rectY) fun idx within => ?_)
    have count : idx.length = shape.length := by
      simpa [entriesAt, second.length] using List.Forall₂.length_eq within
    obtain ⟨mid, -, outer⟩ := exists_sources (α := α) second count
    obtain ⟨src, -, inner⟩ := exists_sources (α := α) first (outer.count.trans second.length)
    rw [partsX idx mid within outer, parts mid src (outer.within second' within) inner,
      partsY idx src (sameShape ▸ within) (inner.trans first second outer)]
  refine ⟨w, ran, extentsW.symm ▸ rectW, extentsW ▸ lengthW, fun k d at_k => ?_, fun idx within => ?_,
    composed second, ?_⟩
  · rw [extentsW, rect.extents_eq positive]
    exact getElem?_entriesAt at_k (first.lt at_k)
  · rw [extentsW] at within
    have count : idx.length = shape.length := (List.Forall₂.length_eq within).trans lengthW
    obtain ⟨src, -, sources⟩ := exists_sources (α := α) first count
    refine ⟨⟨src, sources⟩, fun src sources => ?_⟩
    obtain ⟨f, leaf, rfl⟩ := rect.exists_generate
    have inSource := sources.within first within
    exact ⟨f src, leaf src inSource, (parts idx src within sources).trans (part_generate inSource),
      part_generate inSource⟩
  · rw [composed (permutes_inverse first), entriesAt_inverse first]
    have same : Permutes shape.length (List.range shape.length) := List.Perm.refl _
    obtain ⟨u, ranU, rectU, partsU⟩ := rect.rearrange_ok positive same
    rw [entriesAt_range] at rectU partsU
    rw [ranU]
    refine congrArg Except.ok (rectU.ext rect fun idx within => ?_)
    exact partsU idx idx within (.refl (List.Forall₂.length_eq within))

/-- A value of rank three and a permutation that is not its own inverse. -/
theorem rearrange_cycles :
    let v : Value := .array [.array [.array [.scalar (.int .i8 1), .scalar (.int .i8 2)]],
      .array [.array [.scalar (.int .i8 3), .scalar (.int .i8 4)]]]
    Permutes 3 [1, 2, 0] ∧ Permutes 3 [0, 2, 1] ∧ ∃ w, v.rearrange [1, 2, 0] = .ok w ∧
      w.part [0, 1, 0] = v.part [0, 0, 1] ∧ w.rearrange [0, 2, 1] = v.rearrange [1, 0, 2] ∧
      w.rearrange [2, 0, 1] = .ok v := by
  intro v
  have rect : v.Rectangular [2, 1, 2] := by simp [v, Rectangular, IsLeaf]
  have first : Permutes 3 [1, 2, 0] := by unfold Permutes; decide
  have second : Permutes 3 [0, 2, 1] := by unfold Permutes; decide
  obtain ⟨w, ran, -, -, -, parts, composed, back⟩ :=
    rearrange_permutes rect (by decide) first second
  have extents : w.extents = [1, 2, 2] := by
    obtain rfl := Except.ok.inj (ran.symm.trans rfl)
    rfl
  have sources : Sources [1, 2, 0] [0, 1, 0] [0, 0, 1] :=
    ⟨rfl, fun k d at_k => by
      rcases k with _ | _ | _ | k
      · obtain rfl := Option.some.inj at_k
        rfl
      · obtain rfl := Option.some.inj at_k
        rfl
      · obtain rfl := Option.some.inj at_k
        rfl
      · simp at at_k⟩
  have within : Within [0, 1, 0] w.extents := by
    rw [extents]
    exact .cons (by decide) (.cons (by decide) (.cons (by decide) .nil))
  obtain ⟨x, -, left, right⟩ := (parts [0, 1, 0] within).2 _ sources
  exact ⟨first, second, w, ran, left.trans right.symm, composed, back⟩

end Value

end Cotangent
