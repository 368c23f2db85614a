import Cotangent.Proofs.Evaluation.Simulation
/-!
Fused loops taken apart. What a call comes to depends on its scope only, so it is a relation between
arguments and results that no other call disturbs. In terms of it a fused loop is one loop for the map
and one for each operator: the rows of the map come first, and every operator folds over its own part
of them.
-/
namespace Cotangent

variable {α β γ : Type}

namespace Run

/-- The run can end with this value. -/
def Gives (m : Run α β) (σ : Store α) (b : β) : Prop := ∃ τ, Ends m σ b τ

theorem Gives.unique {m : Run α β} {σ : Store α} {b c : β} (first : Gives m σ b)
    (second : Gives m σ c) : b = c := by
  obtain ⟨_, ends⟩ := first
  obtain ⟨_, ends'⟩ := second
  exact (ends_unique ends ends').1

/-! Runs as relations. -/

/-- From every store that agrees with `σ` on the scope, the run ends with the values that satisfy `P`
    and with no others. It leaves the scope and the spare names as they are. -/
structure Means (spare scope : Scope) (σ : Store α) (m : Run α β) (P : β → Prop) : Prop where
  sound : ∀ σ₁ b τ, σ.Agree (· ∈ scope) σ₁ → Ends m σ₁ b τ →
    P b ∧ σ₁.Agree (· ∈ spare ++ scope) τ
  complete : ∀ σ₁ b, σ.Agree (· ∈ scope) σ₁ → P b → ∃ τ, Ends m σ₁ b τ

namespace Means

variable {spare scope : Scope} {σ : Store α}

theorem pure (b : β) : Means spare scope σ (pure b) (b = ·) where
  sound σ₁ c τ _ ends := by
    obtain ⟨rfl, rfl⟩ := (ends_pure ..).mp ends
    exact ⟨rfl, .refl _ σ₁⟩
  complete σ₁ c _ same := ⟨σ₁, (ends_pure ..).mpr ⟨same, rfl⟩⟩

theorem lift (m : Except (Fault α) β) : Means spare scope σ (liftM m) (m = .ok ·) where
  sound σ₁ c τ _ ends := by
    obtain ⟨known, rfl⟩ := (ends_lift ..).mp ends
    exact ⟨known, .refl _ σ₁⟩
  complete σ₁ c _ known := ⟨σ₁, (ends_lift ..).mpr ⟨known, rfl⟩⟩

theorem bind {m : Run α β} {f : β → Run α γ} {P : β → Prop} {Q : β → γ → Prop}
    (first : Means spare scope σ m P) (rest : ∀ b, Means spare scope σ (f b) (Q b)) :
    Means spare scope σ (m >>= f) (fun c => ∃ b, P b ∧ Q b c) where
  sound σ₁ c υ agree ends := by
    obtain ⟨b, τ, ran, ends⟩ := (ends_bind ..).mp ends
    obtain ⟨holds, kept⟩ := first.sound σ₁ b τ agree ran
    have inScope : σ₁.Agree (· ∈ scope) τ := kept.mono fun x known => by simp [known]
    obtain ⟨holds', kept'⟩ := (rest b).sound τ c υ (agree.trans inScope) ends
    exact ⟨⟨b, holds, holds'⟩, kept.trans kept'⟩
  complete σ₁ c agree known := by
    obtain ⟨b, holds, holds'⟩ := known
    obtain ⟨τ, ran⟩ := first.complete σ₁ b agree holds
    have kept := (first.sound σ₁ b τ agree ran).2
    have inScope : σ₁.Agree (· ∈ scope) τ := kept.mono fun x known => by simp [known]
    obtain ⟨υ, ends⟩ := (rest b).complete τ c (agree.trans inScope) holds'
    exact ⟨υ, (ends_bind ..).mpr ⟨b, τ, ran, ends⟩⟩

theorem congr {m : Run α β} {P Q : β → Prop} (means : Means spare scope σ m P)
    (same : ∀ b, P b ↔ Q b) : Means spare scope σ m Q where
  sound σ₁ b τ agree ends := by
    obtain ⟨holds, kept⟩ := means.sound σ₁ b τ agree ends
    exact ⟨(same b).mp holds, kept⟩
  complete σ₁ b agree holds := means.complete σ₁ b agree ((same b).mpr holds)

/-- What a run comes to does not change when spare names that are not in scope are bound. -/
theorem weaken {m : Run α β} {P : β → Prop} (means : Means spare scope σ m P) {xs : List Name}
    (spared : xs ⊆ spare) (apart : ∀ x ∈ xs, x ∉ scope) (vs : List (Value α)) :
    Means spare (scope.opened xs) (σ.bound xs vs) m P := by
  have base {σ₁ : Store α} (agree : (σ.bound xs vs).Agree (· ∈ scope.opened xs) σ₁) :
      σ.Agree (· ∈ scope) σ₁ :=
    (Store.Agree.bound σ vs apart).trans (agree.mono fun x known => mem_opened.mpr (.inr known))
  refine ⟨fun σ₁ b τ agree ends => ?_, fun σ₁ b agree => means.complete σ₁ b (base agree)⟩
  obtain ⟨holds, kept⟩ := means.sound σ₁ b τ (base agree) ends
  refine ⟨holds, kept.mono fun x known => ?_⟩
  rcases List.mem_append.mp known with isSpare | opened
  · exact List.mem_append_left _ isSpare
  · rcases mem_opened.mp opened with new | old
    · exact List.mem_append_left _ (spared new)
    · exact List.mem_append_right _ old

theorem of_mimics {m : Run α β} (here : Mimics scope scope scope m m)
    (wide : Mimics (spare ++ scope) (spare ++ scope) (spare ++ scope) m m) :
    Means spare scope σ m (Gives m σ) where
  sound σ₁ b τ agree ends := by
    obtain ⟨-, υ, ran, -⟩ := (here σ₁ σ agree.symm).ends b τ ends
    exact ⟨⟨υ, ran⟩, ((wide σ₁ σ₁ (.refl _ _)).ends b τ ends).1⟩
  complete σ₁ b agree known := by
    obtain ⟨υ, ran⟩ := known
    obtain ⟨-, τ, ends, -⟩ := (here σ σ₁ agree).ends b υ ran
    exact ⟨τ, ends⟩

theorem mapM {f : β → Run α γ} {P : β → γ → Prop} {xs : List β}
    (each : ∀ x ∈ xs, Means spare scope σ (f x) (P x)) :
    Means spare scope σ (xs.mapM f) (List.Forall₂ P xs) := by
  induction xs with
  | nil =>
    refine (Means.pure []).congr fun ys => ?_
    rw [List.forall₂_nil_left_iff, eq_comm]
  | cons x xs ih =>
    rw [List.mapM_cons]
    have rest := ih fun z later => each z (by simp [later])
    refine ((each x (by simp)).bind fun y => rest.bind fun ys => Means.pure (y :: ys)).congr ?_
    intro zs
    rw [List.forall₂_cons_left_iff]
    constructor
    · rintro ⟨y, holds, ys, all, rfl⟩
      exact ⟨y, ys, holds, all, rfl⟩
    · rintro ⟨y, ys, holds, all, rfl⟩
      exact ⟨y, holds, ys, all, rfl⟩

end Means

/-- The relation of `n` rounds from number `i` on. -/
def Iterates (S : Nat → β → β → Prop) : Nat → Nat → β → β → Prop
  | 0, _, b, c => b = c
  | n + 1, i, b, c => ∃ d, S i b d ∧ Iterates S n (i + 1) d c

theorem means_rounds {spare scope : Scope} {σ : Store α} {step : Nat → β → Run α β}
    {S : Nat → β → β → Prop} (each : ∀ i b, Means spare scope σ (step i b) (S i b)) (n i : Nat)
    (b : β) : Means spare scope σ (rounds step n i b) (Iterates S n i b) := by
  induction n generalizing i b with
  | zero => exact Means.pure b
  | succ n ih => exact (each i b).bind fun d => ih (i + 1) d

end Run

/-! Fused loops as relations between values, given what calls come to. -/

namespace Fission

open Run

variable (call : Lambda → List (Value α) → List (Value α) → Prop)

/-- Each operator combines its group of running values with as many of the new ones. -/
def Groups : List Lambda → List (List (Value α)) → List (Value α) → List (List (Value α)) → Prop
  | op :: ops, acc :: accs, vs, news => ∃ new rest, call op (acc ++ vs.take acc.length) new ∧
      new.length = acc.length ∧ Groups ops accs (vs.drop acc.length) rest ∧ news = new :: rest
  | _, accs, _, news => accs = news

/-- The rows that `n` calls of the map return from number `i` on, each of `count` values. -/
def Rows (tables : List (Table α)) (map : Lambda) (count : Nat) :
    Nat → Nat → List (List (Value α)) → Prop
  | 0, _, news => news = []
  | n + 1, i, news => ∃ row new rest, rowsAt tables i = .ok row ∧ call map row new ∧
      new.length = count ∧ Rows tables map count n (i + 1) rest ∧ news = new :: rest

/-- Operators fold over rows: the groups of running values after each row, and those at the end. -/
def Sweep (ops : List Lambda) : List (List (Value α)) → List (List (Value α)) →
    List (List (List (Value α))) → List (List (Value α)) → Prop
  | accs, [], steps, last => steps = [] ∧ last = accs
  | accs, row :: rows, steps, last => ∃ next rest, Groups call ops accs row next ∧
      Sweep ops next rows rest last ∧ steps = next :: rest

variable {call}

section

variable {ops : List Lambda} {accs news : List (List (Value α))} {vs : List (Value α)}

theorem Groups.lengths (groups : Groups call ops accs vs news) :
    news.map List.length = accs.map List.length := by
  induction ops generalizing accs vs news with
  | nil =>
    obtain rfl : accs = news := groups
    rfl
  | cons op ops ih =>
    cases accs with
    | nil =>
      obtain rfl : [] = news := groups
      rfl
    | cons acc accs =>
      obtain ⟨new, rest, -, same, groups, rfl⟩ := groups
      simp [same, ih groups]

theorem Groups.count (groups : Groups call ops accs vs news) :
    news.flatten.length = accs.flatten.length := by
  rw [List.length_flatten, List.length_flatten, groups.lengths]

/-- Values past those of the groups do not matter. -/
theorem groups_take {n : Nat} (enough : accs.flatten.length ≤ n) :
    Groups call ops accs (vs.take n) news ↔ Groups call ops accs vs news := by
  induction ops generalizing accs vs news n with
  | nil => rfl
  | cons op ops ih =>
    cases accs with
    | nil => rfl
    | cons acc accs =>
      rw [List.flatten_cons, List.length_append] at enough
      have fits : min acc.length n = acc.length := by omega
      have left : accs.flatten.length ≤ n - acc.length := by omega
      simp only [Groups, List.take_take, fits, List.drop_take, ih left]

theorem groups_nil (row : List (Value α)) : Groups call [] [] row news ↔ news = [] := by
  simp [Groups, eq_comm]

end

/-- A loop of several operators is a loop of the first and one of the others. -/
theorem sweep_cons (op : Lambda) (ops : List Lambda) (acc : List (Value α))
    (accs rows : List (List (Value α))) (steps : List (List (List (Value α))))
    (last : List (List (Value α))) :
    Sweep call (op :: ops) (acc :: accs) rows steps last ↔ ∃ first end₁ others end₂,
      Sweep call [op] [acc] rows first end₁ ∧
      Sweep call ops accs (rows.map (·.drop acc.length)) others end₂ ∧
      steps = List.zipWith (· ++ ·) first others ∧ last = end₁ ++ end₂ := by
  induction rows generalizing acc accs steps last with
  | nil =>
    constructor
    · rintro ⟨rfl, rfl⟩
      exact ⟨[], [acc], [], accs, ⟨rfl, rfl⟩, ⟨rfl, rfl⟩, rfl, rfl⟩
    · rintro ⟨_, _, _, _, ⟨rfl, rfl⟩, ⟨rfl, rfl⟩, rfl, rfl⟩
      exact ⟨rfl, rfl⟩
  | cons row rows ih =>
    constructor
    · rintro ⟨_, rest, ⟨new, news, called, same, groups, rfl⟩, swept, rfl⟩
      obtain ⟨first, end₁, others, end₂, here, there, rfl, rfl⟩ := (ih ..).mp swept
      rw [same] at there
      refine ⟨[new] :: first, end₁, news :: others, end₂, ?_, ⟨news, others, groups, there, rfl⟩, rfl,
        rfl⟩
      exact ⟨[new], first, ⟨new, [], called, same, rfl, rfl⟩, here, rfl⟩
    · rintro ⟨_, end₁, _, end₂, ⟨_, first, ⟨new, _, called, same, rfl, rfl⟩, here, rfl⟩,
        ⟨news, others, groups, there, rfl⟩, rfl, rfl⟩
      refine ⟨new :: news, _, ⟨new, news, called, same, groups, rfl⟩, ?_, rfl⟩
      rw [ih, same]
      exact ⟨first, end₁, others, end₂, here, there, rfl, rfl⟩

theorem sweep_nil (rows : List (List (Value α))) (steps : List (List (List (Value α))))
    (last : List (List (Value α))) :
    Sweep call [] [] rows steps last ↔ steps = rows.map (fun _ => []) ∧ last = [] := by
  induction rows generalizing steps last with
  | nil => rfl
  | cons row rows ih =>
    constructor
    · rintro ⟨next, rest, groups, swept, rfl⟩
      obtain rfl := (groups_nil row).mp groups
      obtain ⟨rfl, rfl⟩ := (ih ..).mp swept
      exact ⟨rfl, rfl⟩
    · rintro ⟨rfl, rfl⟩
      exact ⟨[], _, (groups_nil row).mpr rfl, (ih ..).mpr ⟨rfl, rfl⟩, rfl⟩

/-- An operator looks at its own part of the rows only. -/
theorem sweep_take {op : Lambda} {acc : List (Value α)} {n : Nat} (enough : acc.length = n)
    (rows : List (List (Value α))) (steps : List (List (List (Value α))))
    (last : List (List (Value α))) :
    Sweep call [op] [acc] (rows.map (·.take n)) steps last ↔
      Sweep call [op] [acc] rows steps last := by
  induction rows generalizing acc steps last with
  | nil => rfl
  | cons row rows ih =>
    have part (next : List (List (Value α))) :
        Groups call [op] [acc] (row.take n) next ↔ Groups call [op] [acc] row next :=
      groups_take (by simp [enough])
    simp only [List.map_cons, Sweep, part]
    refine exists_congr fun next => exists_congr fun rest => and_congr_right fun groups => ?_
    obtain ⟨new, _, -, same, rfl, rfl⟩ := groups
    rw [ih (same.trans enough)]

theorem Sweep.steps {ops : List Lambda} {accs rows last : List (List (Value α))}
    {steps : List (List (List (Value α)))} (swept : Sweep call ops accs rows steps last) :
    steps.length = rows.length ∧ ∀ s ∈ steps, s.flatten.length = accs.flatten.length := by
  induction rows generalizing accs steps with
  | nil =>
    obtain ⟨rfl, -⟩ := swept
    simp
  | cons row rows ih =>
    obtain ⟨next, rest, groups, swept, rfl⟩ := swept
    obtain ⟨length, counts⟩ := ih swept
    refine ⟨by simp [length], List.forall_mem_cons.mpr ⟨groups.count, fun s mem => ?_⟩⟩
    rw [counts s mem, groups.count]

theorem Sweep.last {ops : List Lambda} {accs rows last : List (List (Value α))}
    {steps : List (List (List (Value α)))} (swept : Sweep call ops accs rows steps last) :
    last.flatten.length = accs.flatten.length := by
  induction rows generalizing accs steps with
  | nil =>
    obtain ⟨-, rfl⟩ := swept
    rfl
  | cons row rows ih =>
    obtain ⟨next, rest, groups, swept, rfl⟩ := swept
    rw [ih swept, groups.count]

/-! Columns of rows. -/

theorem columns_add (m n : Nat) (rows : List (List (Value α))) :
    columns (m + n) rows = columns m (rows.map (·.take m)) ++ columns n (rows.map (·.drop m)) := by
  simp only [columns, List.range_add, List.map_append, List.map_map, List.filterMap_map]
  congr 1
  · refine List.map_congr_left fun j mem => ?_
    have inside : j < m := List.mem_range.mp mem
    simp [inside]
  · simp [Function.comp_def]

theorem take_columns (m n : Nat) (rows : List (List (Value α))) :
    (columns (m + n) rows).take m = columns m (rows.map (·.take m)) := by
  rw [columns_add, List.take_left' (by simp [columns])]

theorem drop_columns (m n : Nat) (rows : List (List (Value α))) :
    (columns (m + n) rows).drop m = columns n (rows.map (·.drop m)) := by
  rw [columns_add, List.drop_left' (by simp [columns])]

/-- Rows of equal width are read back from their columns. -/
theorem rowsAt_columns {m : Nat} {rows : List (List (Value α))} (widths : ∀ r ∈ rows, r.length = m)
    {i : Nat} {row : List (Value α)} (at_i : rows[i]? = some row) :
    rowsAt ((columns m rows).map Value.table) i = .ok row := by
  have width : row.length = m := widths row (List.mem_of_getElem? at_i)
  have entry (j : Nat) (inside : j < m) : (rows.filterMap (·[j]?))[i]? = row[j]? := by
    clear width
    induction rows generalizing i with
    | nil => simp at at_i
    | cons r rows ih =>
      obtain ⟨first, widths⟩ := List.forall_mem_cons.mp widths
      have here : r[j]? = some r[j] := List.getElem?_eq_getElem (first ▸ inside)
      simp only [List.filterMap_cons, here]
      cases i with
      | zero =>
        obtain rfl : r = row := by simpa using at_i
        simp [first, inside]
      | succ i => simpa using ih widths (by simpa using at_i)
  rw [rowsAt, List.mapM_map, except_mapM_iff, columns, List.forall₂_map_left_iff,
    List.forall₂_iff_get]
  refine ⟨by simp [width], fun j inRange inRow => ?_⟩
  have read := entry j (width ▸ inRow)
  rw [List.getElem?_eq_getElem inRow] at read
  simp [Value.table, Value.rows, pick, read]

/-- The columns of steps that two loops made side by side. -/
theorem columns_zipWith {m : Nat} (n : Nat) {first others : List (List (List (Value α)))}
    (count : first.length = others.length) (widths : ∀ s ∈ first, s.flatten.length = m) :
    columns (m + n) ((List.zipWith (· ++ ·) first others).map List.flatten) =
      columns m (first.map List.flatten) ++ columns n (others.map List.flatten) := by
  have parts : ((List.zipWith (· ++ ·) first others).map List.flatten).map (·.take m) =
        first.map List.flatten ∧
      ((List.zipWith (· ++ ·) first others).map List.flatten).map (·.drop m) =
        others.map List.flatten := by
    induction first generalizing others with
    | nil =>
      obtain rfl := List.length_eq_zero_iff.mp count.symm
      exact ⟨rfl, rfl⟩
    | cons s first ih =>
      obtain ⟨t, others, rfl⟩ := List.exists_cons_of_length_eq_add_one count.symm
      obtain ⟨width, widths⟩ := List.forall_mem_cons.mp widths
      obtain ⟨taken, dropped⟩ := ih (Nat.succ.inj count) widths
      simp only [List.zipWith_cons_cons, List.map_cons, List.flatten_append, taken, dropped]
      rw [List.take_left' width, List.drop_left' width]
      exact ⟨rfl, rfl⟩
  rw [columns_add, parts.1, parts.2]

end Fission

/-- An operator of a fused loop. -/
inductive Fold where
  | scan (c : Combiner)
  | reduce (r : Reduction)

def Fold.combiner : Fold → Combiner
  | .scan c => c
  | .reduce r => r.combiner

def folds (scans : List Combiner) (reduces : List Reduction) : List Fold :=
  scans.map .scan ++ reduces.map .reduce

/-- What a loop of the operator alone returns: a scan the columns of its steps, a reduction its last
    values. -/
def Fold.results (count : Nat) (steps : List (List (List (Value α)))) (last : List (List (Value α))) :
    Fold → List (Value α)
  | .scan _ => columns count (steps.map List.flatten)
  | .reduce _ => last.flatten

namespace Fission

open Run

variable (call : Lambda → List (Value α) → List (Value α) → Prop)

/-- One loop for each operator, all over the same rows. -/
def Parted : List Fold → List (List (Value α)) → List (List (Value α)) → List (Value α) → Prop
  | k :: ks, acc :: accs, rows, vs => ∃ steps last rest,
      Sweep call [k.combiner.op] [acc] rows steps last ∧
      Parted ks accs (rows.map (·.drop acc.length)) rest ∧ vs = k.results acc.length steps last ++ rest
  | _, _, _, vs => vs = []

variable {call}

theorem length_results {k : Fold} {op : Lambda} {acc : List (Value α)}
    {rows last : List (List (Value α))} {steps : List (List (List (Value α)))}
    (swept : Sweep call [op] [acc] rows steps last) :
    (k.results acc.length steps last).length = acc.length := by
  cases k with
  | scan c => simp [Fold.results, columns]
  | reduce r => simpa [Fold.results] using swept.last

theorem parted_reduces {reduces : List Reduction} {accs : List (List (Value α))}
    (count : accs.length = reduces.length) (rows : List (List (Value α))) (vs : List (Value α)) :
    Parted call (reduces.map .reduce) accs rows vs ↔ ∃ steps last,
      Sweep call (reduces.map (·.combiner.op)) accs rows steps last ∧ vs = last.flatten := by
  induction reduces generalizing accs rows vs with
  | nil =>
    obtain rfl := List.length_eq_zero_iff.mp count
    simp [Parted, sweep_nil]
  | cons r reduces ih =>
    obtain ⟨acc, accs, rfl⟩ := List.exists_cons_of_length_eq_add_one count
    simp only [List.map_cons, Parted, ih (Nat.succ.inj count)]
    constructor
    · rintro ⟨first, end₁, _, here, ⟨others, end₂, there, rfl⟩, rfl⟩
      have swept := (sweep_cons ..).mpr ⟨first, end₁, others, end₂, here, there, rfl, rfl⟩
      exact ⟨_, _, swept, List.flatten_append.symm⟩
    · rintro ⟨_, _, swept, rfl⟩
      obtain ⟨first, end₁, others, end₂, here, there, rfl, rfl⟩ := (sweep_cons ..).mp swept
      exact ⟨first, end₁, _, here, ⟨others, end₂, there, rfl⟩, List.flatten_append⟩

/-- The loop of all operators is the loops of the operators one by one. -/
theorem parted_iff {scans : List Combiner} {reduces : List Reduction}
    {accs others : List (List (Value α))} (scanned : accs.length = scans.length)
    (reduced : others.length = reduces.length) (rows : List (List (Value α)))
    (vs : List (Value α)) :
    Parted call (folds scans reduces) (accs ++ others) rows vs ↔
      ∃ steps last steps' last', Sweep call (scans.map (·.op)) accs rows steps last ∧
        Sweep call (reduces.map (·.combiner.op)) others
          (rows.map (·.drop accs.flatten.length)) steps' last' ∧
        vs = columns accs.flatten.length (steps.map List.flatten) ++ last'.flatten := by
  unfold folds
  induction scans generalizing accs rows vs with
  | nil =>
    obtain rfl := List.length_eq_zero_iff.mp scanned
    simp [parted_reduces reduced, sweep_nil, columns]
  | cons c scans ih =>
    obtain ⟨acc, accs, rfl⟩ := List.exists_cons_of_length_eq_add_one scanned
    have dropped : (rows.map (·.drop acc.length)).map (·.drop accs.flatten.length) =
        rows.map (·.drop (acc :: accs).flatten.length) := by
      simp [Function.comp_def]
    simp only [List.map_cons, List.cons_append, Parted, ih (Nat.succ.inj scanned), dropped]
    have both {first steps : List (List (List (Value α)))} {end₁ last : List (List (Value α))}
        (here : Sweep call [c.op] [acc] rows first end₁)
        (there : Sweep call (scans.map (·.op)) accs (rows.map (·.drop acc.length)) steps last) :
        columns (acc :: accs).flatten.length ((List.zipWith (· ++ ·) first steps).map List.flatten) =
          columns acc.length (first.map List.flatten) ++
            columns accs.flatten.length (steps.map List.flatten) := by
      obtain ⟨length, widths⟩ := here.steps
      rw [List.flatten_cons, List.length_append]
      refine columns_zipWith _ ?_ (by simpa using widths)
      rw [length, there.steps.1, List.length_map]
    constructor
    · rintro ⟨first, end₁, _, here, ⟨steps, last, steps', last', there, reduced, rfl⟩, rfl⟩
      have swept := (sweep_cons ..).mpr ⟨first, end₁, steps, last, here, there, rfl, rfl⟩
      refine ⟨_, _, steps', last', swept, reduced, ?_⟩
      rw [both here there, List.append_assoc]
      rfl
    · rintro ⟨_, _, steps', last', swept, reduced, rfl⟩
      obtain ⟨first, end₁, steps, last, here, there, rfl, rfl⟩ := (sweep_cons ..).mp swept
      refine ⟨first, end₁, _, here, ⟨steps, last, steps', last', there, reduced, rfl⟩, ?_⟩
      rw [both here there, List.append_assoc]
      rfl

end Fission

/-! Runs of fused loops. -/

namespace Run

open Fission

theorem checkArity_ok (m n : Nat) :
    (checkArity m n : Except (Fault α) Unit) = .ok () ↔ n = m := by
  unfold checkArity
  by_cases same : n = m <;> simp [same]

theorem splitValues_iff (vs : List (Value α)) (n : Nat) (p : List (Value α) × List (Value α)) :
    splitValues vs n = .ok p ↔ n ≤ vs.length ∧ p = (vs.take n, vs.drop n) := by
  refine ⟨splitValues_ok, fun ⟨enough, same⟩ => ?_⟩
  rw [splitValues, if_neg (Nat.not_lt.mpr enough), same]

/-- A loop over rows, given the relation of calls and what it has computed at the beginning. -/
structure Loops (call : Lambda → List (Value α) → List (Value α) → Prop) (tables : List (Table α))
    (scans reduces : List Lambda) (map : Lambda) (mapCount n i : Nat) (s s' : Fused α)
    (news : List (List (Value α))) (steps steps' : List (List (List (Value α)))) : Prop where
  rows : Rows call tables map (s.scans.flatten.length + s.reduces.flatten.length + mapCount) n i news
  scanned : Sweep call scans s.scans news steps s'.scans
  reduced : Sweep call reduces s.reduces (news.map (·.drop s.scans.flatten.length)) steps' s'.reduces
  scanRows : s'.scanned = (steps.map List.flatten).reverse ++ s.scanned
  mapRows : s'.mapped =
    (news.map (·.drop (s.scans.flatten.length + s.reduces.flatten.length))).reverse ++ s.mapped

/-- One row of a fused loop. -/
structure FusesRow (call : Lambda → List (Value α) → List (Value α) → Prop)
    (tables : List (Table α)) (scans reduces : List Lambda) (map : Lambda) (mapCount i : Nat)
    (s s' : Fused α) (new : List (Value α)) : Prop where
  row : ∃ row, rowsAt tables i = .ok row ∧ call map row new
  count : new.length = s.scans.flatten.length + s.reduces.flatten.length + mapCount
  scanned : Groups call scans s.scans new s'.scans
  reduced : Groups call reduces s.reduces (new.drop s.scans.flatten.length) s'.reduces
  scanRows : s'.scanned = s'.scans.flatten :: s.scanned
  mapRows : s'.mapped =
    new.drop (s.scans.flatten.length + s.reduces.flatten.length) :: s.mapped

/-- The rounds of a fused loop are a loop of the map and loops of the operators over its rows. -/
theorem iterates_fusesRow (call : Lambda → List (Value α) → List (Value α) → Prop)
    (tables : List (Table α)) (scans reduces : List Lambda) (map : Lambda) (mapCount n i : Nat)
    (s s' : Fused α) :
    Iterates (fun i s s' => ∃ new, FusesRow call tables scans reduces map mapCount i s s' new)
        n i s s' ↔
      ∃ news steps steps', Loops call tables scans reduces map mapCount n i s s' news steps steps' := by
  induction n generalizing i s with
  | zero =>
    constructor
    · rintro rfl
      exact ⟨[], [], [], rfl, ⟨rfl, rfl⟩, ⟨rfl, rfl⟩, rfl, rfl⟩
    · rintro ⟨_, _, _, rfl, ⟨rfl, scanned⟩, ⟨rfl, reduced⟩, scanRows, mapRows⟩
      cases s
      cases s'
      simp_all [Iterates]
  | succ n ih =>
    constructor
    · rintro ⟨mid, ⟨new, first⟩, later⟩
      obtain ⟨news, steps, steps', rest⟩ := (ih ..).mp later
      obtain ⟨row, isRow, called⟩ := first.row
      have scanCount := first.scanned.count
      have reduceCount := first.reduced.count
      have rows := rest.rows
      have reduced := rest.reduced
      have mapRows := rest.mapRows
      rw [scanCount, reduceCount] at rows mapRows
      rw [scanCount] at reduced
      refine ⟨new :: news, mid.scans :: steps, mid.reduces :: steps',
        ⟨row, new, news, isRow, called, first.count, rows, rfl⟩,
        ⟨mid.scans, steps, first.scanned, rest.scanned, rfl⟩,
        ⟨mid.reduces, steps', first.reduced, reduced, rfl⟩, ?_, ?_⟩
      · rw [rest.scanRows, first.scanRows]
        simp
      · rw [mapRows, first.mapRows]
        simp
    · rintro ⟨_, _, _, ⟨row, new, news, isRow, called, count, rows, rfl⟩,
        ⟨scanAccs, steps, scanned, scanRest, rfl⟩, ⟨reduceAccs, steps', reduced, reduceRest, rfl⟩,
        scanRows, mapRows⟩
      have scanCount := scanned.count
      have reduceCount := reduced.count
      let mid : Fused α := ⟨scanAccs, reduceAccs, scanAccs.flatten :: s.scanned,
        new.drop (s.scans.flatten.length + s.reduces.flatten.length) :: s.mapped⟩
      refine ⟨mid, ⟨new, ⟨row, isRow, called⟩, count, scanned, reduced, rfl, rfl⟩, ?_⟩
      refine (ih ..).mpr ⟨news, steps, steps', ?_, scanRest, ?_, ?_, ?_⟩
      · simpa only [mid, scanCount, reduceCount] using rows
      · simpa only [mid, scanCount] using reduceRest
      · simpa [mid] using scanRows
      · simpa [mid, scanCount, reduceCount] using mapRows

section

variable {run : Body → Run α (List (Value α))} {spare scope : Scope} {σ : Store α}
  {call : Lambda → List (Value α) → List (Value α) → Prop}

/-- The relation is what calls of the lambda come to. -/
def Answers (run : Body → Run α (List (Value α))) (spare scope : Scope) (σ : Store α)
    (call : Lambda → List (Value α) → List (Value α) → Prop) (l : Lambda) : Prop :=
  ∀ args, Means spare scope σ (applyLambda run l args) (call l args)

theorem means_combine {l : Lambda} (answers : Answers run spare scope σ call l)
    (acc vs : List (Value α)) :
    Means spare scope σ (combine run l acc vs)
      (fun new => call l (acc ++ vs) new ∧ new.length = acc.length) := by
  refine ((answers (acc ++ vs)).bind fun new =>
    (Means.lift (checkArity acc.length new.length)).bind fun _ => Means.pure new).congr fun new => ?_
  simp only [exists_unit, checkArity_ok]
  constructor
  · rintro ⟨_, called, same, rfl⟩
    exact ⟨called, same⟩
  · rintro ⟨called, same⟩
    exact ⟨new, called, same, rfl⟩

theorem means_combineGroups {ops : List Lambda}
    (answers : ∀ op ∈ ops, Answers run spare scope σ call op) (accs : List (List (Value α)))
    (vs : List (Value α)) :
    Means spare scope σ (combineGroups run ops accs vs) (Groups call ops accs vs) := by
  induction ops generalizing accs vs with
  | nil => exact Means.pure accs
  | cons op ops ih =>
    cases accs with
    | nil => exact Means.pure []
    | cons acc accs =>
      obtain ⟨first, later⟩ := List.forall_mem_cons.mp answers
      refine ((means_combine first acc _).bind fun new =>
        (ih later accs _).bind fun rest => Means.pure (new :: rest)).congr fun news => ?_
      constructor
      · rintro ⟨new, ⟨called, same⟩, rest, groups, rfl⟩
        exact ⟨new, rest, called, same, groups, rfl⟩
      · rintro ⟨new, rest, called, same, groups, rfl⟩
        exact ⟨new, ⟨called, same⟩, rest, groups, rfl⟩

theorem means_fusedRow {scans : List Combiner} {reduces : List Reduction} {map : Lambda}
    (scanned : ∀ op ∈ scans.map (·.op), Answers run spare scope σ call op)
    (reduced : ∀ op ∈ reduces.map (·.combiner.op), Answers run spare scope σ call op)
    (mapped : Answers run spare scope σ call map) (tables : List (Table α)) (mapCount i : Nat)
    (s : Fused α) :
    Means spare scope σ (fusedRow run tables scans reduces map mapCount i s) fun s' =>
      ∃ new, FusesRow call tables (scans.map (·.op)) (reduces.map (·.combiner.op)) map mapCount i
        s s' new := by
  have means := (Means.lift (rowsAt tables i)).bind fun row => (mapped row).bind fun new =>
    (Means.lift (splitValues new s.scans.flatten.length)).bind fun p =>
    (Means.lift (splitValues p.2 s.reduces.flatten.length)).bind fun q =>
    (means_combineGroups scanned s.scans p.1).bind fun scanAccs =>
    (means_combineGroups reduced s.reduces q.1).bind fun reduceAccs =>
    (Means.lift (checkArity mapCount q.2.length)).bind fun _ =>
    Means.pure (⟨scanAccs, reduceAccs, scanAccs.flatten :: s.scanned, q.2 :: s.mapped⟩ : Fused α)
  refine Means.congr means fun s' => ?_
  simp only [exists_unit, checkArity_ok, splitValues_iff]
  constructor
  · rintro ⟨row, isRow, new, called, p, ⟨enough, rfl⟩, q, ⟨enough', rfl⟩, scanAccs, scans, reduceAccs,
      reduces, count, rfl⟩
    rw [groups_take (Nat.le_refl _)] at scans reduces
    simp only [List.length_drop] at enough' count
    exact ⟨new, ⟨row, isRow, called⟩, by omega, scans, reduces, rfl, by simp⟩
  · rintro ⟨new, ⟨row, isRow, called⟩, count, scans, reduces, scanRows, mapRows⟩
    refine ⟨row, isRow, new, called, _, ⟨by omega, rfl⟩, _,
      ⟨by simp only [List.length_drop]; omega, rfl⟩,
      s'.scans, (groups_take (Nat.le_refl _)).mpr scans, s'.reduces,
      (groups_take (Nat.le_refl _)).mpr reduces, by simp only [List.length_drop]; omega, ?_⟩
    cases s'
    simp_all

/-- What a fused loop of `n` rows returns: the map goes through all rows first, then each operator on
    its own starts from its group of neutral values, and the columns past theirs are left. -/
def Outcome (call : Lambda → List (Value α) → List (Value α) → Prop) (tables : List (Table α))
    (ks : List Fold) (map : Lambda) (n : Nat) (accs : List (List (Value α)))
    (vs : List (Value α)) : Prop :=
  let count := accs.flatten.length
  let others := map.ret.length - count
  ∃ news front, Rows call tables map (count + others) n 0 news ∧ Parted call ks accs news front ∧
    vs = front ++ columns others (news.map (·.drop count))

theorem outcome_of_loops {scans : List Combiner} {reduces : List Reduction} {map : Lambda}
    {accs others : List (List (Value α))} (scanned : accs.length = scans.length)
    (reduced : others.length = reduces.length) (tables : List (Table α)) (n : Nat)
    (vs : List (Value α)) :
    (∃ s' news steps steps', Loops call tables (scans.map (·.op)) (reduces.map (·.combiner.op)) map
        (map.ret.length - (accs.flatten.length + others.flatten.length)) n 0 ⟨accs, others, [], []⟩ s'
        news steps steps' ∧
      columns accs.flatten.length s'.scanned.reverse ++ s'.reduces.flatten ++
        columns (map.ret.length - (accs.flatten.length + others.flatten.length))
          s'.mapped.reverse = vs) ↔
      Outcome call tables (folds scans reduces) map n (accs ++ others) vs := by
  simp only [Outcome, List.flatten_append, List.length_append, parted_iff scanned reduced]
  constructor
  · rintro ⟨⟨last, last', _, _⟩, news, steps, steps', ⟨rows, scans, reduces, rfl, rfl⟩, rfl⟩
    refine ⟨news, _, rows, ⟨steps, last, steps', last', scans, reduces, rfl⟩, ?_⟩
    simp
  · rintro ⟨news, _, rows, ⟨steps, last, steps', last', scans, reduces, rfl⟩, rfl⟩
    refine ⟨⟨last, last', (steps.map List.flatten).reverse,
        (news.map (·.drop (accs.flatten.length + others.flatten.length))).reverse⟩, news, steps, steps',
      ⟨rows, scans, reduces, by simp, by simp⟩, ?_⟩
    simp

theorem forall₂_folds {scans : List Combiner} {reduces : List Reduction} {P : Combiner → β → Prop}
    {all : List β} : List.Forall₂ (fun k => P k.combiner) (folds scans reduces) all ↔
      ∃ accs others, all = accs ++ others ∧ List.Forall₂ P scans accs ∧
        List.Forall₂ (fun r => P r.combiner) reduces others := by
  constructor
  · intro holds
    have first := List.forall₂_take scans.length holds
    have second := List.forall₂_drop scans.length holds
    rw [folds, List.take_left' (by simp), List.forall₂_map_left_iff] at first
    rw [folds, List.drop_left' (by simp), List.forall₂_map_left_iff] at second
    exact ⟨_, _, (List.take_append_drop scans.length all).symm, first, second⟩
  · rintro ⟨accs, others, rfl, first, second⟩
    have scanned : List.Forall₂ (fun k : Fold => P k.combiner) (scans.map .scan) accs :=
      List.forall₂_map_left_iff.mpr first
    exact List.rel_append scanned (List.forall₂_map_left_iff.mpr second)

theorem Means.screma [ScalarAlgebra α] {width : Operand} {arrays : List Name}
    {scans : List Combiner} {reduces : List Reduction} {map : Lambda}
    {N : Nat → Prop} {A : List (Value α) → Prop} (neutral : Combiner → List (Value α) → Prop)
    (sized : Means spare scope σ (size width) N) (sources : Means spare scope σ (lookups arrays) A)
    (neutrals : ∀ k ∈ folds scans reduces,
      Means spare scope σ (operands k.combiner.neutral) (neutral k.combiner))
    (combined : ∀ k ∈ folds scans reduces, Answers run spare scope σ call k.combiner.op)
    (mapped : Answers run spare scope σ call map) :
    Means spare scope σ (Run.screma run width arrays scans reduces map) fun vs =>
      ∃ n vals accs, N n ∧ A vals ∧
        List.Forall₂ (fun k => neutral k.combiner) (folds scans reduces) accs ∧
        Outcome call (vals.map Value.table) (folds scans reduces) map n accs vs := by
  simp only [folds, List.forall_mem_append, List.forall_mem_map] at neutrals combined
  have scanned : ∀ op ∈ scans.map (·.op), Answers run spare scope σ call op :=
    List.forall_mem_map.mpr combined.1
  have reduced : ∀ op ∈ reduces.map (·.combiner.op), Answers run spare scope σ call op :=
    List.forall_mem_map.mpr combined.2
  have means := sized.bind fun n => sources.bind fun vals =>
    (Means.mapM neutrals.1).bind fun accs => (Means.mapM neutrals.2).bind fun others =>
    (means_rounds (fun i s => means_fusedRow scanned reduced mapped (vals.map Value.table)
      (map.ret.length - (accs.flatten.length + others.flatten.length)) i s) n 0
      ⟨accs, others, [], []⟩).bind fun s =>
    Means.pure (columns accs.flatten.length s.scanned.reverse ++ s.reduces.flatten ++
      columns (map.ret.length - (accs.flatten.length + others.flatten.length)) s.mapped.reverse)
  refine Means.congr means fun vs => ?_
  simp only [iterates_fusesRow]
  constructor
  · rintro ⟨n, isSize, vals, read, accs, starts, others, starts', s', ⟨news, steps, steps', loops⟩,
      same⟩
    refine ⟨n, vals, accs ++ others, isSize, read, ?_, ?_⟩
    · exact forall₂_folds.mpr ⟨accs, others, rfl, starts, starts'⟩
    · exact (outcome_of_loops starts.length_eq.symm starts'.length_eq.symm _ n vs).mp
        ⟨s', news, steps, steps', loops, same⟩
  · rintro ⟨n, vals, _, isSize, read, starts, outcome⟩
    obtain ⟨accs, others, rfl, starts, starts'⟩ := forall₂_folds.mp starts
    obtain ⟨s', news, steps, steps', loops, same⟩ :=
      (outcome_of_loops starts.length_eq.symm starts'.length_eq.symm _ n vs).mpr outcome
    exact ⟨n, isSize, vals, read, accs, starts, others, starts', s', ⟨news, steps, steps', loops⟩, same⟩

end

end Run

end Cotangent
