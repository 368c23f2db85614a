import Cotangent.Proofs.Evaluation.DirectRuns
import Cotangent.Proofs.Evaluation.Fuel
/-!
Loops that update arrays at computed positions. In a tally each row gives a position, and a value for each
array; an operator combines those with the parts found there, or they replace them, and a position outside
of an array changes nothing. A histogram with one operator is a tally, and so is a scatter with one
destination and one value a row, which finds out by writing, and not by reading, whether a position is inside.
-/
namespace Cotangent

/-- The rows of `arrays` go through the bucket. The input says which arrays are updated, at positions of how
    many dimensions, and with what operator if any. -/
structure Tally where
  width : Operand
  arrays : List Name
  bucket : Lambda
  input : AccInput

namespace Tally

def rank (t : Tally) : Nat := t.input.shape.length

def op (t : Tally) : Option Lambda := t.input.combine.map (·.op)

/-- The tally as an expression: a histogram if there is an operator, else a scatter. -/
inductive Written : Tally → Exp → Prop
  | hist (width : Operand) (arrays : List Name) (bucket : Lambda) (shape : List Operand) (race : Operand)
      (dests : List Name) (c : Combiner) :
      Written ⟨width, arrays, bucket, ⟨shape, dests, some c⟩⟩
        (.hist width [⟨shape, race, dests, c⟩] bucket arrays)
  | scatter (width : Operand) (arrays : List Name) (bucket : Lambda) (shape : List Operand)
      (dest : Name) :
      Written ⟨width, arrays, bucket, ⟨shape, [dest], none⟩⟩
        (.scatter width bucket arrays [⟨shape, 1, dest⟩])

/-- The bucket takes one row of each array, and returns a position and a value for each updated array. -/
structure Fits (t : Tally) : Prop where
  params : t.bucket.params.length = t.arrays.length
  results : t.bucket.body.result.length = t.rank + t.input.arrays.length

end Tally

/-- A position is inside for writing if it is for reading, and else both end in the same fault. -/
theorem Value.index_or_update {α : Type} {ds : List Dim} (fixed : ∀ d ∈ ds, ∃ i, d = .fix i) (v x : Value α) :
    (∃ part w, v.index ds = .ok part ∧ v.update ds x = .ok w) ∨
      ∃ e, v.index ds = .error e ∧ v.update ds x = .error e := by
  induction ds generalizing v with
  | nil => exact .inl ⟨v, x, rfl, rfl⟩
  | cons d ds ih =>
    obtain ⟨⟨i, rfl⟩, later⟩ := List.forall_mem_cons.mp fixed
    cases v with
    | scalar a => exact .inr ⟨_, rfl, rfl⟩
    | acc id arrays => exact .inr ⟨_, rfl, rfl⟩
    | array rows =>
      simp only [Value.index, Value.update, Value.row, Value.rows, Direct.ok_bind]
      cases pickRow rows i with
      | error e => exact .inr ⟨e, rfl, rfl⟩
      | ok row =>
        simp only [Direct.ok_bind]
        rcases ih later row with ⟨part, w, read, written⟩ | ⟨e, read, written⟩
        · exact .inl ⟨part, .array (rows.set i.toNat w), read, by rw [written]; rfl⟩
        · exact .inr ⟨e, read, by rw [written]; rfl⟩

namespace Run

variable {α : Type}

/-- What comes in the place of old values: new ones, combined with the old if there is an operator. -/
def replacement (run : Body → Run α (List (Value α))) (op : Option Lambda) (old vs : List (Value α)) :
    Run α (List (Value α)) :=
  match op with
  | some op => applyLambda run op (old ++ vs)
  | none => return vs

/-- The arrays with their parts at a position replaced by as many values. -/
def writeAt (ds : List Dim) (outs new : List (Value α)) : Run α (List (Value α)) := do
  checkArity (α := α) outs.length new.length
  (outs.zip new).mapM fun p => Value.update (α := α) ds p.1 p.2

/-- The arrays with their parts at a position replaced; they stay if one of them has no such part. -/
def updateAt (run : Body → Run α (List (Value α))) (op : Option Lambda) (ds : List Dim)
    (vs outs : List (Value α)) : Run α (List (Value α)) := do
  match ← inBounds (outs.mapM (Value.index ds)) with
  | none => return outs
  | some old => do writeAt ds outs (← replacement run op old vs)

theorem ends_updateAt_length {run : Body → Run α (List (Value α))} {op : Option Lambda} {ds : List Dim}
    {vs outs outs' : List (Value α)} {σ τ : Store α}
    (ends : Ends (updateAt run op ds vs outs) σ outs' τ) : outs'.length = outs.length := by
  simp only [updateAt, ends_bind] at ends
  obtain ⟨found, _, -, ends⟩ := ends
  cases found with
  | none =>
    obtain ⟨rfl, -⟩ := (ends_pure ..).mp ends
    rfl
  | some old =>
    simp only [writeAt, ends_bind, ends_checkArity] at ends
    obtain ⟨new, _, -, _, _, ⟨same, -⟩, written⟩ := ends
    rw [ends_mapM_length written, List.length_zip, same, Nat.min_self]

variable [ScalarAlgebra α]

/-- One row of a tally. The bucket and the operator may have different fuel. -/
def tallyRound (runBucket runOp : Body → Run α (List (Value α))) (t : Tally) (tables : List (Table α))
    (i : Nat) (outs : List (Value α)) : Run α (List (Value α)) := do
  let new ← applyLambda runBucket t.bucket (← rowsAt tables i)
  let ds ← fixedDims (new.take t.rank)
  updateAt runOp t.op ds (new.drop t.rank) outs

def tally (runBucket runOp : Body → Run α (List (Value α))) (t : Tally) : Run α (List (Value α)) := do
  let n ← size t.width
  let tables := (← lookups t.arrays).map Value.table
  let outs ← lookups t.input.arrays
  rounds (tallyRound runBucket runOp t tables) n 0 outs

theorem ends_tallyRound_length {runBucket runOp : Body → Run α (List (Value α))} {t : Tally}
    {tables : List (Table α)} {i : Nat} {outs outs' : List (Value α)} {σ τ : Store α}
    (ends : Ends (tallyRound runBucket runOp t tables i outs) σ outs' τ) :
    outs'.length = outs.length := by
  simp only [tallyRound, ends_bind] at ends
  obtain ⟨_, _, -, _, _, -, _, _, -, updated⟩ := ends
  exact ends_updateAt_length updated

theorem extends_tally {runBucket runBucket' runOp runOp' : Body → Run α (List (Value α))}
    (bucket : ∀ b, Extends (runBucket b) (runBucket' b)) (op : ∀ b, Extends (runOp b) (runOp' b))
    (t : Tally) : Extends (tally runBucket runOp t) (tally runBucket' runOp' t) := by
  refine .next _ fun n => .next _ fun vs => .next _ fun outs => ?_
  refine .rounds (fun i outs => ?_) n 0 outs
  refine .next _ fun rows => (extends_applyLambda bucket t.bucket rows).bind fun new => ?_
  refine .next _ fun ds => .next _ fun old => ?_
  cases old with
  | none => exact .refl _
  | some old =>
    refine Extends.before ?_ _
    cases t.op with
    | none => exact .refl _
    | some l => exact extends_applyLambda op l _

/-! Histograms and scatters as tallies. -/

section

variable {t : Tally} {fuel : Nat}

theorem ends_bucket_length (fits : t.Fits) {args new : List (Value α)} {σ τ : Store α}
    (ends : Ends (applyLambda (runBody fuel) t.bucket args) σ new τ) :
    new.length = t.rank + t.input.arrays.length := by
  simp only [applyLambda, ends_bind, ends_runBody] at ends
  obtain ⟨_, _, -, _, _, -, -, read⟩ := ends
  rw [ends_mapM_length read, fits.results]

/-- The only histogram takes all indices and all values. -/
theorem histRow_singleton (run : Body → Run α (List (Value α))) (h : Histogram)
    (outs idxs vs : List (Value α)) (indices : idxs.length ≤ h.shape.length)
    (values : vs.length ≤ outs.length) :
    histRow run [h] [outs] idxs vs =
      (do
        let ds ← fixedDims idxs
        let new ← updateAt run (some h.combiner.op) ds vs outs
        return [new]) := by
  simp only [histRow, updateAt, writeAt, replacement, combine, List.take_of_length_le indices,
    List.take_of_length_le values, bind_assoc]
  refine bind_congr fun ds => Direct.bind_congr_of_ok fun found known => ?_
  cases found with
  | none => rfl
  | some old =>
    have same : old.length = outs.length := (except_mapM_iff.mp (inBounds_some known)).length_eq.symm
    simp only [same, bind_assoc, pure_bind]

theorem histRound_eq_tally (fuel : Nat) (fits : t.Fits) (h : Histogram) (shape : h.shape = t.input.shape)
    (op : t.op = some h.combiner.op) (tables : List (Table α)) (i : Nat) {outs : List (Value α)}
    (count : outs.length = t.input.arrays.length) :
    histRound (runBody fuel) [h] t.bucket tables (bucketIndices [h]) i [outs] =
      (fun outs => [outs]) <$> tallyRound (runBody fuel) (runBody fuel) t tables i outs := by
  have indices : bucketIndices [h] = t.rank := by simp [bucketIndices, total, Tally.rank, shape]
  simp only [histRound, tallyRound, map_bind, indices]
  refine bind_congr fun rows => Direct.bind_congr_of_ends fun new _ _ ends => ?_
  have length := ends_bucket_length fits ends
  have split : splitValues new t.rank = .ok (new.take t.rank, new.drop t.rank) :=
    if_neg (by omega)
  have row := histRow_singleton (runBody fuel) h outs (new.take t.rank) (new.drop t.rank)
    (by rw [shape]; exact List.length_take_le ..) (by simp [length, count])
  rw [split, Direct.lift_ok, pure_bind, row, op]
  simp only [map_eq_pure_bind]

theorem hist_eq_tally (width : Operand) (arrays : List Name) (bucket : Lambda) (shape : List Operand)
    (race : Operand) (dests : List Name) (c : Combiner)
    (fits : Tally.Fits ⟨width, arrays, bucket, ⟨shape, dests, some c⟩⟩) :
    hist (runBody fuel : Body → Run α _) width [⟨shape, race, dests, c⟩] bucket arrays =
      tally (runBody fuel) (runBody fuel) ⟨width, arrays, bucket, ⟨shape, dests, some c⟩⟩ := by
  simp only [hist, tally, List.mapM_cons, List.mapM_nil, bind_assoc, pure_bind]
  refine bind_congr fun n => bind_congr fun vs => Direct.bind_congr_of_ends fun outs _ _ found => ?_
  have rounds := Direct.rounds_map (fun outs => [outs]) (fun outs => outs.length = dests.length)
    (fun i _ count => histRound_eq_tally fuel fits ⟨shape, race, dests, c⟩ rfl rfl (vs.map Value.table) i count)
    (fun _ _ _ _ _ count ends => (ends_tallyRound_length ends).trans count) n 0 outs
    (ends_lookups_length found)
  rw [rounds, bind_map_left]
  simp

theorem fixed_of_fixedDims {vs : List (Value α)} {ds : List Dim} (known : fixedDims vs = .ok ds) :
    ∀ d ∈ ds, ∃ i, d = .fix i := by
  intro d mem
  obtain ⟨v, -, read⟩ := except_mapM_mem known d mem
  simp only [except_bind_ok, except_pure_ok] at read
  obtain ⟨_, -, i, -, rfl⟩ := read
  exact ⟨i, rfl⟩

/-- The only destination takes the only value. -/
theorem scatterRow_singleton (run : Body → Run α (List (Value α))) (d : ScatterDest)
    (single : d.count = 1) (out v : Value α) (idxs : List (Value α))
    (indices : idxs.length ≤ d.shape.length) :
    (liftM (scatterRow [d] [out] idxs [v]) : Run α _) =
      liftM (fixedDims idxs) >>= fun ds => updateAt run none ds [v] [out] := by
  cases known : (fixedDims idxs : Except (Fault α) _) with
  | error e => simp [scatterRow, scatterInto, single, List.take_of_length_le indices, known]; rfl
  | ok ds =>
    simp only [scatterRow, scatterInto, single, List.take_of_length_le indices, known, updateAt,
      writeAt, replacement, List.mapM_cons, List.mapM_nil, Direct.ok_bind, Direct.lift_ok, pure_bind]
    rcases Value.index_or_update (fixed_of_fixedDims known) out v with
      ⟨part, w, read, written⟩ | ⟨e, read, written⟩
    · simp [read, written, inBounds, checkArity]
    · cases e with
      | outOfBounds i n => simp [read, written, inBounds]
      | _ => simp [read, written, inBounds]; rfl

theorem scatterRound_eq_tally (fuel : Nat) (fits : t.Fits) (d : ScatterDest) (shape : d.shape = t.input.shape)
    (single : d.count = 1) (op : t.op = none) (tables : List (Table α)) (i : Nat) {outs : List (Value α)}
    (count : outs.length = 1) (one : t.input.arrays.length = 1) :
    scatterRound (runBody fuel) [d] t.bucket tables (scatterIndices [d]) i outs =
      tallyRound (runBody fuel) (runBody fuel) t tables i outs := by
  have indices : scatterIndices [d] = t.rank := by
    simp [scatterIndices, total, Tally.rank, shape, single]
  obtain ⟨out, rfl⟩ := List.length_eq_one_iff.mp count
  simp only [scatterRound, tallyRound, indices]
  refine bind_congr fun rows => Direct.bind_congr_of_ends fun new _ _ ends => ?_
  have length := ends_bucket_length fits ends
  have split : splitValues new t.rank = .ok (new.take t.rank, new.drop t.rank) :=
    if_neg (by omega)
  obtain ⟨v, value⟩ : ∃ v, new.drop t.rank = [v] :=
    List.length_eq_one_iff.mp (by rw [List.length_drop, length, one, Nat.add_sub_cancel_left])
  rw [split, Direct.lift_ok, pure_bind, value, op]
  refine scatterRow_singleton (runBody fuel) d single out v (new.take t.rank) ?_
  rw [shape]
  exact List.length_take_le ..

theorem scatter_eq_tally (width : Operand) (arrays : List Name) (bucket : Lambda) (shape : List Operand)
    (dest : Name) (fits : Tally.Fits ⟨width, arrays, bucket, ⟨shape, [dest], none⟩⟩) :
    scatter (runBody fuel : Body → Run α _) width bucket arrays [⟨shape, 1, dest⟩] =
      tally (runBody fuel) (runBody fuel) ⟨width, arrays, bucket, ⟨shape, [dest], none⟩⟩ := by
  simp only [scatter, tally, List.map_cons, List.map_nil]
  refine bind_congr fun n => bind_congr fun vs => Direct.bind_congr_of_ends fun outs _ _ found => ?_
  have rounds := Direct.rounds_map id (fun outs => outs.length = 1)
    (fun i outs count => (scatterRound_eq_tally fuel fits ⟨shape, 1, dest⟩ rfl rfl rfl
      (vs.map Value.table) i count rfl).trans (id_map _).symm)
    (fun _ _ _ _ _ count ends => (ends_tallyRound_length ends).trans count) n 0 outs
    (ends_lookups_length found)
  rwa [id_map] at rounds

/-- Written either way, a tally runs like one. -/
theorem exp_eq_tally {e : Exp} (written : t.Written e) (fits : t.Fits) :
    exp (runBody fuel : Body → Run α _) fuel e = tally (runBody fuel) (runBody fuel) t := by
  cases written with
  | hist width arrays bucket shape race dests c =>
    exact hist_eq_tally width arrays bucket shape race dests c fits
  | scatter width arrays bucket shape dest =>
    exact scatter_eq_tally width arrays bucket shape dest fits

end

end Run

end Cotangent
