import Cotangent.Proofs.Evaluation.FusedLoops
import Cotangent.Proofs.Tandem.Patterns
/-!
Fused loops and streams. Operators are transformed as lambdas, and their neutral operands get zeros. In each
round, groups of values that stand for dual values are combined to such groups again.
-/
namespace Cotangent

open Run ScalarAlgebra Diff Outline

namespace Run

/-- What has been computed so far, as the emitted loop holds it. -/
def Fused.doubled (s : Fused Dual) : Fused Scalar :=
  ⟨s.scans.map Cotangent.doubled, s.reduces.map Cotangent.doubled, s.scanned.map Cotangent.doubled,
    s.mapped.map Cotangent.doubled⟩

/-- The same as it is seen. -/
def Fused.seen {α : Type} (f : Dual → α) (s : Fused Dual) : Fused α :=
  ⟨s.scans.map (List.map (Value.map f)), s.reduces.map (List.map (Value.map f)),
    s.scanned.map (List.map (Value.map f)), s.mapped.map (List.map (Value.map f))⟩

end Run

namespace Tandem

/-- The action transforms the lambda, so that calls shadow calls. -/
def Transforms {α : Type} [ScalarAlgebra α] (f : Dual → α) (bound : Nat) (decl : Name → Ty) (act : Diff Lambda)
    (k : Nat) (lay : List (Value Dual) → List Value) (l : Lambda) : Prop :=
  ∀ scope still names s l' t, Serves bound decl scope still s → Awaits bound scope s l.outline →
    Gives act s l' t → Asks f bound decl scope still l.outline.binders names s t (fun _ _ => True) ∧
      Applies f bound decl scope still l.outline.binders s.builder.supply.next t k lay l l'

/-- The operands come to dual values, with those of their tangents in between. -/
def Neutral {α : Type} [ScalarAlgebra α] (f : Dual → α) (σ : Store Scalar) (τ : Store α)
    (xs ys : List Operand) : Prop :=
  ∃ zeros ds, ys = interleave xs zeros ∧ AllPairs f σ τ xs zeros ds

/-- Between the states, operators were transformed, and zeros were made for their neutral operands. -/
structure Operators {α : Type} [ScalarAlgebra α] (f : Dual → α) (bound : Nat) (decl : Name → Ty)
    (scope still bs names : List Name) (s t : DiffState) (ops ops' : List Lambda)
    (neutrals neutrals' : List (List Operand)) : Prop where
  asks : Asks f bound decl scope still bs names s t fun σ τ => List.Forall₂ (Neutral f σ τ) neutrals neutrals'
  applies : List.Forall₂ (Applies f bound decl scope still bs s.builder.supply.next t 0 doubled) ops ops'

/-- The action transforms a list whose entries hold operators. -/
def Gathers {α β : Type} [ScalarAlgebra α] (f : Dual → α) (bound : Nat) (decl : Name → Ty)
    (part : β → Combiner) (act : Diff (List β)) (xs : List β) (o : Outline) : Prop :=
  ∀ scope still names s ys t, Serves bound decl scope still s → Awaits bound scope s o →
    (∀ x ∈ o.uses, x ∈ scope → x ∈ names) → Gives act s ys t →
      Operators f bound decl scope still o.binders names s t (xs.map fun x => (part x).op)
        (ys.map fun y => (part y).op) (xs.map fun x => (part x).neutral) (ys.map fun y => (part y).neutral)

/-- What both runs hold, in stores that stayed steady: something made of dual values, as it is laid out and
    as it is seen. -/
def Holds {α β γ δ : Type} [ScalarAlgebra α] (f : Dual → α) (bound : Nat) (scope still bs : List Name)
    (tans : NameTable Name) (m n : Nat) (lay : δ → β) (see : δ → γ) (σ : Store Scalar) (τ : Store α) (b : β)
    (σ' : Store Scalar) (c : γ) (τ' : Store α) : Prop :=
  ∃ d, b = lay d ∧ c = see d ∧ Steady f bound scope still bs tans m n σ τ σ' τ'

section

variable {α : Type} [ScalarAlgebra α] {f : Dual → α} {bound m n : Nat} {decl : Name → Ty}
  {scope still bs bs' names : List Name} {s t u : DiffState} {σ₀ σ σ' : Store Scalar} {τ₀ τ τ' : Store α}
  {stop : Fault α} {fuel : Nat}

theorem Onward.refl (scope : List Name) (t : DiffState) : Onward scope t t :=
  ⟨.refl scope t, Nat.le_refl _⟩

/-! Transforming operators. -/

theorem operators_nil (serves : Serves bound decl scope still s) :
    Operators f bound decl scope still bs names s s [] [] [] [] :=
  ⟨.refl serves fun _ _ _ _ _ _ => .nil, .nil⟩

theorem Operators.append {ops ops' more more' : List Lambda} {xs xs' ys ys' : List (List Operand)}
    (first : Operators f bound decl scope still bs names s t ops ops' xs xs')
    (second : Operators f bound decl scope still bs' names t u more more' ys ys') :
    Operators f bound decl scope still (bs ++ bs') names s u (ops ++ more) (ops' ++ more') (xs ++ ys)
      (xs' ++ ys') where
  asks := ((first.asks.widen fun _ mem => List.mem_append_left _ mem).bind
    (second.asks.widen fun _ mem => List.mem_append_right _ mem)).mono fun _ _ both =>
      List.rel_append both.1 both.2
  applies := List.rel_append
    (first.applies.imp fun _ _ applies =>
      applies.mono (Nat.le_refl _) (fun _ mem => List.mem_append_left _ mem) second.asks.onward)
    (second.applies.imp fun _ _ applies =>
      applies.mono first.asks.next_le (fun _ mem => List.mem_append_right _ mem) (.refl scope u))

/-- One operator. Its neutral operands may only be names if no one looks at tangents. -/
theorem combiner_operators (view : View f) {act : Diff Lambda} {op : Lambda} {neutral : List Operand} {c : Combiner}
    (onOp : Transforms f bound decl act 0 doubled op) (fixed : Blind f ∨ operandNames neutral = [])
    (serves : Serves bound decl scope still s) (awaits : Awaits bound scope s (Combiner.outline ⟨op, neutral⟩))
    (read : ∀ x ∈ (Combiner.outline ⟨op, neutral⟩).uses, x ∈ scope → x ∈ names)
    (gives : Gives (do
      let op ← act
      return ⟨op, ← Forward.bundleNeutral neutral⟩) s c t) :
    Operators f bound decl scope still (Combiner.outline ⟨op, neutral⟩).binders names s t [op] [c.op] [neutral]
      [c.neutral] := by
  have binders : (Combiner.outline ⟨op, neutral⟩).binders = op.outline.binders := by simp [Combiner.outline]
  have known := (Awaits.first awaits).reads
  have inside := Awaits.second awaits
  rw [after_readsAll] at inside
  simp only [gives_bind, gives_pure] at gives
  obtain ⟨op', u, made, ys, _, bundled, rfl, rfl⟩ := gives
  obtain ⟨asks, applies⟩ := onOp scope still names s op' u serves inside.block.1 made
  obtain ⟨zeros, rfl, asks'⟩ := bundleNeutral_asks (f := f) op.outline.binders view asks.serves known
    (fun y mem => read y (by simp [Combiner.outline, mem]) (known y mem)) bundled
  rw [binders]
  refine ⟨(asks.bind asks').mono fun σ τ both => ?_,
    .cons (applies.mono (Nat.le_refl _) (fun _ mem => mem) asks'.onward) .nil⟩
  obtain ⟨ds, pairs⟩ := both.2 fixed
  exact .cons ⟨zeros, ds, rfl, pairs⟩ .nil

theorem gathers_nil {β : Type} {part : β → Combiner} : Gathers f bound decl part (pure []) [] done := by
  intro scope still names s ys t serves _ _ gives
  obtain ⟨rfl, rfl⟩ := (gives_pure ..).mp gives
  exact operators_nil serves

/-- The entries are transformed one after the other. -/
theorem gathers_cons {β : Type} {part : β → Combiner} (make : Combiner → β) (same : ∀ c, part (make c) = c)
    {one : Diff Combiner} {more : Diff (List β)} {act : Diff Lambda} {op : Lambda} {neutral : List Operand}
    {xs : List β} {o : Outline} (view : View f) (onOp : Transforms f bound decl act 0 doubled op)
    (fixed : Blind f ∨ operandNames neutral = [])
    (split : one = (do
      let op ← act
      return ⟨op, ← Forward.bundleNeutral neutral⟩)) (rest : Gathers f bound decl part more xs o) :
    Gathers f bound decl part (do
      let c ← one
      return make c :: (← more)) (make ⟨op, neutral⟩ :: xs) (Combiner.outline ⟨op, neutral⟩ ++ o) := by
  intro scope still names s ys t serves awaits read gives
  subst split
  obtain ⟨c, u, first, gives⟩ := (gives_bind ..).mp gives
  obtain ⟨cs, _, others, last⟩ := (gives_bind ..).mp gives
  obtain ⟨rfl, rfl⟩ := (gives_pure ..).mp last
  have here := combiner_operators view onOp fixed serves (Awaits.first awaits)
    (fun x mem => read x (by simp [mem])) first
  have there := rest scope still names u cs _ here.asks.serves
    (awaits.carry (Scope.after_combiner _ _) here.asks fun _ mem => mem) (fun x mem => read x (by simp [mem])) others
  simp only [List.map_cons, same, binders_append]
  exact here.append there

/-! Calls. -/

theorem Applies.call {k : Nat} {lay : List (Value Dual) → List Value} {l l' : Lambda}
    (applies : Applies f bound decl scope still bs m t k lay l l') (stop : Fault α) (fuel : Nat) (ds : List (Value Dual))
    (calm : ∀ d ∈ ds.take k, d.Every Dual.Still)
    (steady : Steady f bound scope still bs t.companions m t.builder.supply.next σ₀ τ₀ σ τ) :
    Shadows stop (applyLambda (runBody fuel) l' (partly k ds)) σ
      (applyLambda (guardedBody (keepTypes decl stop) fuel) l (ds.map (Value.map f))) τ
      (Comes f bound scope still bs t.companions m t.builder.supply.next lay σ₀ τ₀) :=
  applies ds calm _ (.refl scope t) stop fuel σ₀ τ₀ σ τ steady

/-- A call where all arguments have tangents. -/
theorem Applies.call_all {lay : List (Value Dual) → List Value} {l l' : Lambda}
    (applies : Applies f bound decl scope still bs m t 0 lay l l') (ds : List (Value Dual))
    (steady : Steady f bound scope still bs t.companions m t.builder.supply.next σ₀ τ₀ σ τ) :
    Shadows stop (applyLambda (runBody fuel) l' (doubled ds)) σ
      (applyLambda (guardedBody (keepTypes decl stop) fuel) l (ds.map (Value.map f))) τ
      (Comes f bound scope still bs t.companions m t.builder.supply.next lay σ₀ τ₀) := by
  have call := applies.call stop fuel ds (by simp) steady
  rwa [partly_zero] at call

/-! Combining groups. -/

section

variable {δ ε : Type} {last : δ → Store Scalar → ε → Store α → Prop}

omit [ScalarAlgebra α]

/-- A list of dual values is taken apart. -/
theorem split_shadows (es : List (Value Dual)) (k : Nat) {g' : List Value × List Value → Run Scalar δ}
    {g : List (Value α) × List (Value α) → Run α ε}
    (rest : Shadows stop (g' (doubled (es.take k), doubled (es.drop k))) σ
      (g ((es.take k).map (Value.map f), (es.drop k).map (Value.map f))) τ last) :
    Shadows stop (liftM (splitValues (doubled es) (2 * k)) >>= g') σ
      (liftM (splitValues (es.map (Value.map f)) k) >>= g) τ last := by
  refine .lift (fun p q => p = (doubled (es.take k), doubled (es.drop k)) ∧
    q = ((es.take k).map (Value.map f), (es.drop k).map (Value.map f))) (fun p split => ?_) ?_
  · obtain ⟨enough, rfl⟩ := (splitValues_iff ..).mp split
    rw [length_doubled] at enough
    rw [doubled_take, doubled_drop, List.map_take, List.map_drop]
    exact ⟨_, (splitValues_iff ..).mpr ⟨by rw [List.length_map]; omega, rfl⟩, rfl, rfl⟩
  · rintro _ _ ⟨rfl, rfl⟩
    exact rest

/-- Twice as many are expected, and twice as many are found. -/
theorem arity_shadows (k l : Nat) {g' : Unit → Run Scalar δ} {g : Unit → Run α ε}
    (rest : Shadows stop (g' ()) σ (g ()) τ last) :
    Shadows stop (liftM (checkArity (α := Scalar) (2 * k) (2 * l)) >>= g') σ
      (liftM (checkArity (α := α) k l) >>= g) τ last := by
  refine .lift (fun _ _ => True) (fun _ checked => ?_) fun _ _ _ => rest
  have := (checkArity_ok ..).mp checked
  exact ⟨(), (checkArity_ok ..).mpr (by omega), trivial⟩

/-- The rows at a position. -/
theorem rowsAt_shadows (ds : List (Value Dual)) (i : Nat) {g' : List Value → Run Scalar δ}
    {g : List (Value α) → Run α ε}
    (rest : ∀ rs : List (Value Dual), Shadows stop (g' (doubled rs)) σ (g (rs.map (Value.map f))) τ last) :
    Shadows stop (liftM (rowsAt ((doubled ds).map Value.table) i) >>= g') σ
      (liftM (rowsAt ((ds.map (Value.map f)).map Value.table) i) >>= g) τ last := by
  refine .lift (fun us ws => ∃ rs : List (Value Dual), us = doubled rs ∧ ws = rs.map (Value.map f))
    (fun us rows => ?_) ?_
  · rw [rowsAt_doubled] at rows
    obtain ⟨rs, here, rfl⟩ := (carry_eq_ok ..).mp rows
    exact ⟨_, by rw [rowsAt_map, here, carry_ok], rs, rfl, rfl⟩
  · rintro _ _ ⟨rs, rfl, rfl⟩
    exact rest rs

end

/-- An operator that is applied to two groups. -/
theorem combine_shadows {l l' : Lambda}
    (applies : Applies f bound decl scope still bs m t 0 doubled l l') (ds es : List (Value Dual))
    (steady : Steady f bound scope still bs t.companions m t.builder.supply.next σ₀ τ₀ σ τ) :
    Shadows stop (combine (runBody fuel) l' (doubled ds) (doubled es)) σ
      (combine (guardedBody (keepTypes decl stop) fuel) l (ds.map (Value.map f)) (es.map (Value.map f))) τ
      (Comes f bound scope still bs t.companions m t.builder.supply.next doubled σ₀ τ₀) := by
  unfold combine
  rw [← doubled_append, ← List.map_append]
  refine (applies.call_all (ds ++ es) steady).bind ?_
  rintro _ σ' _ τ' ⟨fs, rfl, rfl, after⟩
  rw [length_doubled, length_doubled, List.length_map, List.length_map]
  exact arity_shadows _ _ (shadows_pure ⟨fs, rfl, rfl, after⟩)

/-- A group in front of others. -/
theorem group_shadows {tans : NameTable Name} {others' : Run Scalar (List (List Value))}
    {others : Run α (List (List (Value α)))} (news : List (Value Dual))
    (rest : Shadows stop others' σ others τ (Holds f bound scope still bs tans m n (List.map doubled)
      (List.map (List.map (Value.map f))) σ₀ τ₀)) :
    Shadows stop (do return doubled news :: (← others')) σ (do return news.map (Value.map f) :: (← others)) τ
      (Holds f bound scope still bs tans m n (List.map doubled) (List.map (List.map (Value.map f))) σ₀ τ₀) := by
  refine rest.bind ?_
  rintro _ σ' _ τ' ⟨dss, rfl, rfl, after⟩
  exact shadows_pure ⟨news :: dss, rfl, rfl, after⟩

/-- Each operator takes its group and as many of the new values. -/
theorem combineGroups_shadows {ops ops' : List Lambda}
    (applies : List.Forall₂ (Applies f bound decl scope still bs m t 0 doubled) ops ops')
    (dss : List (List (Value Dual))) (es : List (Value Dual))
    (steady : Steady f bound scope still bs t.companions m t.builder.supply.next σ₀ τ₀ σ τ) :
    Shadows stop (combineGroups (runBody fuel) ops' (dss.map doubled) (doubled es)) σ
      (combineGroups (guardedBody (keepTypes decl stop) fuel) ops (dss.map (List.map (Value.map f)))
        (es.map (Value.map f))) τ
      (Holds f bound scope still bs t.companions m t.builder.supply.next (List.map doubled)
        (List.map (List.map (Value.map f))) σ₀ τ₀) := by
  induction applies generalizing dss es σ τ with
  | nil =>
    simp only [combineGroups]
    exact shadows_pure ⟨dss, rfl, rfl, steady⟩
  | cons here rest ih =>
    cases dss with
    | nil => exact shadows_pure ⟨[], rfl, rfl, steady⟩
    | cons ds dss =>
      simp only [List.map_cons, combineGroups, length_doubled, doubled_take, doubled_drop, List.length_map,
        ← List.map_take, ← List.map_drop]
      refine (combine_shadows here ds (es.take ds.length) steady).bind ?_
      rintro _ σ₁ _ τ₁ ⟨fs, rfl, rfl, steady₁⟩
      exact group_shadows fs (ih dss (es.drop ds.length) steady₁)

/-! Fused loops. -/

omit [ScalarAlgebra α] in
theorem length_groups (dss : List (List (Value Dual))) :
    (dss.map doubled).flatten.length = 2 * dss.flatten.length ∧
      (dss.map (List.map (Value.map f))).flatten.length = dss.flatten.length := by
  rw [← doubled_flatten, length_doubled, ← List.map_flatten, List.length_map]
  exact ⟨rfl, rfl⟩

theorem fusedRow_shadows {scans scans' : List Combiner} {reduces reduces' : List Reduction} {map map' : Lambda}
    (onScans : List.Forall₂ (Applies f bound decl scope still bs m t 0 doubled) (scans.map (·.op)) (scans'.map (·.op)))
    (onReduces : List.Forall₂ (Applies f bound decl scope still bs m t 0 doubled) (reduces.map (·.combiner.op))
      (reduces'.map (·.combiner.op)))
    (onMap : Applies f bound decl scope still bs m t 0 doubled map map') (ds : List (Value Dual)) (mapCount i : Nat)
    {b : Fused Scalar} {c : Fused α} (holds : Holds f bound scope still bs t.companions m t.builder.supply.next
      Fused.doubled (Fused.seen f) σ₀ τ₀ b σ c τ) :
    Shadows stop
      (fusedRow (runBody fuel) ((doubled ds).map Value.table) scans' reduces' map' (2 * mapCount) i b) σ
      (fusedRow (guardedBody (keepTypes decl stop) fuel) ((ds.map (Value.map f)).map Value.table) scans reduces map
        mapCount i c) τ
      (Holds f bound scope still bs t.companions m t.builder.supply.next Fused.doubled (Fused.seen f) σ₀ τ₀) := by
  obtain ⟨s, rfl, rfl, steady⟩ := holds
  unfold fusedRow
  refine rowsAt_shadows ds i fun rs => ?_
  refine (onMap.call_all rs steady).bind ?_
  rintro _ σ₁ _ τ₁ ⟨es, rfl, rfl, steady₁⟩
  let rest := (es.drop s.scans.flatten.length).drop s.reduces.flatten.length
  simp only [Fused.doubled, Fused.seen, (length_groups (f := f) _).1, (length_groups (f := f) _).2]
  refine split_shadows es _ (split_shadows _ _ ?_)
  refine (combineGroups_shadows onScans s.scans _ steady₁).bind ?_
  rintro _ σ₂ _ τ₂ ⟨scanned, rfl, rfl, steady₂⟩
  refine (combineGroups_shadows onReduces s.reduces _ steady₂).bind ?_
  rintro _ σ₃ _ τ₃ ⟨reduced, rfl, rfl, steady₃⟩
  rw [length_doubled, List.length_map]
  refine arity_shadows _ _ (shadows_pure ⟨⟨scanned, reduced, scanned.flatten :: s.scanned, rest :: s.mapped⟩, ?_, ?_, steady₃⟩)
  · simp [Fused.doubled, doubled_flatten, rest]
  · simp [Fused.seen, List.map_flatten, rest]

/-- Groups of neutral operands. -/
theorem ends_neutral {xss yss : List (List Operand)} (neutral : List.Forall₂ (Neutral f σ τ) xss yss)
    {uss : List (List Value)} (ends : Ends (yss.mapM operands) σ uss σ') :
    σ' = σ ∧ ∃ dss : List (List (Value Dual)), uss = dss.map doubled ∧
      Ends (xss.mapM operands) τ (dss.map (List.map (Value.map f))) τ := by
  induction neutral generalizing uss σ' with
  | nil =>
    obtain ⟨rfl, rfl⟩ := (ends_pure ..).mp ends
    exact ⟨rfl, [], rfl, (ends_pure ..).mpr ⟨rfl, rfl⟩⟩
  | cons here rest ih =>
    obtain ⟨zeros, ds, rfl, pairs⟩ := here
    simp only [List.mapM_cons, ends_bind, ends_pure] at ends ⊢
    obtain ⟨us, _, first, uss, _, others, rfl, rfl⟩ := ends
    obtain ⟨rfl, rfl, seen⟩ := pairs.ends_doubled first
    obtain ⟨rfl, dss, rfl, seen'⟩ := ih others
    exact ⟨rfl, ds :: dss, rfl, _, τ, seen, _, τ, seen', rfl, rfl⟩

/-- The neutral operands are read at the beginning. -/
theorem neutral_shadows {β δ ε : Type} {xs ys : List β} {part : β → Combiner}
    (neutral : List.Forall₂ (Neutral f σ τ) (xs.map fun x => (part x).neutral) (ys.map fun y => (part y).neutral))
    {g' : List (List Value) → Run Scalar δ} {g : List (List (Value α)) → Run α ε}
    {last : δ → Store Scalar → ε → Store α → Prop}
    (rest : ∀ dss : List (List (Value Dual)), Shadows stop (g' (dss.map doubled)) σ
      (g (dss.map (List.map (Value.map f)))) τ last) :
    Shadows stop ((ys.mapM fun y => operands (part y).neutral) >>= g') σ
      ((xs.mapM fun x => operands (part x).neutral) >>= g) τ last := by
  have walk {δ : Type} [ScalarAlgebra δ] (zs : List β) : (zs.mapM fun z => operands (part z).neutral : Run δ _) =
      (zs.map fun z => (part z).neutral).mapM operands := List.mapM_map.symm
  rw [walk, walk]
  refine .reads (fun uss wss => ∃ dss : List (List (Value Dual)), uss = dss.map doubled ∧
    wss = dss.map (List.map (Value.map f))) (fun uss σ' ends => ?_) ?_
  · obtain ⟨rfl, dss, rfl, seen⟩ := ends_neutral neutral ends
    exact ⟨rfl, _, seen, dss, rfl, rfl⟩
  · rintro _ _ ⟨dss, rfl, rfl⟩
    exact rest dss

/-- A size that is read, and arrays with their tangents. -/
theorem arrays_shadows (view : View f) {width : Operand} {arrays cs : List Name} {δ ε : Type}
    {last : δ → Store Scalar → ε → Store α → Prop} {tans : NameTable Name} (accord : Accord f scope still tans σ τ)
    (known : ∀ x ∈ width.names ++ arrays, x ∈ scope)
    (found : List.Forall₂ (fun x c => tans.find? x = some c) arrays cs)
    {g' : Nat → List Value → Run Scalar δ} {g : Nat → List (Value α) → Run α ε}
    (rest : ∀ k (ds : List (Value Dual)), Shadows stop (g' k (doubled ds)) σ (g k (ds.map (Value.map f))) τ last) :
    Shadows stop (do g' (← size width) (← lookups (interleave arrays cs))) σ
      (do g (← size width) (← lookups arrays)) τ last := by
  refine .reads (· = ·) (fun k σ' ends => ?_) fun k _ same => ?_
  · obtain ⟨rfl, sized⟩ := (accord.known fun x mem => known x (List.mem_append_left _ mem)).size view ends
    exact ⟨rfl, k, sized, rfl⟩
  subst same
  refine .reads (fun us ws => ∃ ds : List (Value Dual), us = doubled ds ∧ ws = ds.map (Value.map f))
    (fun us σ' ends => ?_) ?_
  · obtain ⟨rfl, ds, rfl, seen⟩ := accord.lookups view (fun x mem => known x (List.mem_append_right _ mem)) found ends
    exact ⟨rfl, _, seen, ds, rfl, rfl⟩
  · rintro _ _ ⟨ds, rfl, rfl⟩
    exact rest k ds

theorem screma_shadows (view : View f) {width : Operand} {arrays cs : List Name} {scans scans' : List Combiner}
    {reduces reduces' : List Reduction} {map map' : Lambda} (known : ∀ x ∈ width.names ++ arrays, x ∈ scope)
    (found : List.Forall₂ (fun x c => t.companions.find? x = some c) arrays cs)
    (onScans : List.Forall₂ (Applies f bound decl scope still bs m t 0 doubled) (scans.map (·.op)) (scans'.map (·.op)))
    (onReduces : List.Forall₂ (Applies f bound decl scope still bs m t 0 doubled) (reduces.map (·.combiner.op))
      (reduces'.map (·.combiner.op)))
    (onMap : Applies f bound decl scope still bs m t 0 doubled map map') (wide : map'.ret.length = 2 * map.ret.length)
    (scanNeutral : List.Forall₂ (Neutral f σ τ) (scans.map (·.neutral)) (scans'.map (·.neutral)))
    (reduceNeutral : List.Forall₂ (Neutral f σ τ) (reduces.map (·.combiner.neutral)) (reduces'.map (·.combiner.neutral)))
    (steady : Steady f bound scope still bs t.companions m t.builder.supply.next σ₀ τ₀ σ τ) :
    Shadows stop (screma (runBody fuel) width (interleave arrays cs) scans' reduces' map') σ
      (screma (guardedBody (keepTypes decl stop) fuel) width arrays scans reduces map) τ
      (Comes f bound scope still bs t.companions m t.builder.supply.next doubled σ₀ τ₀) := by
  refine arrays_shadows view steady.accord known found fun k ds => ?_
  refine neutral_shadows scanNeutral fun scanned => neutral_shadows reduceNeutral fun reduced => ?_
  have groups (dss : List (List (Value Dual))) := length_groups (f := f) dss
  have count (a b : Nat) : map'.ret.length - (2 * a + 2 * b) = 2 * (map.ret.length - (a + b)) := by
    rw [wide]
    omega
  simp only [(groups _).1, (groups _).2, count]
  generalize scanned.flatten.length = scanCount
  generalize map.ret.length - (scanCount + reduced.flatten.length) = mapCount
  have start : Holds f bound scope still bs t.companions m t.builder.supply.next Fused.doubled (Fused.seen f) σ₀ τ₀
      ⟨scanned.map doubled, reduced.map doubled, [], []⟩ σ
      ⟨scanned.map (List.map (Value.map f)), reduced.map (List.map (Value.map f)), [], []⟩ τ :=
    ⟨⟨scanned, reduced, [], []⟩, rfl, rfl, steady⟩
  refine (shadows_rounds (fun i _ _ _ _ => fusedRow_shadows onScans onReduces onMap ds mapCount i) k 0 start).bind ?_
  rintro _ σ' _ τ' ⟨s, rfl, rfl, after⟩
  refine shadows_pure ⟨columns scanCount s.scanned.reverse ++ s.reduces.flatten ++ columns mapCount s.mapped.reverse,
    ?_, ?_, after⟩
  · simp only [Fused.doubled, doubled_append, doubled_flatten, ← List.map_reverse, columns_doubled]
  · simp only [Fused.seen, List.map_append, List.map_flatten, ← List.map_reverse, columns_map]

/-! Streams. -/

theorem stream_shadows (view : View f) {width : Operand} {arrays cs : List Name} {inits inits' : List Operand}
    {lay : List (Value Dual) → List Value} {l l' : Lambda} (known : ∀ x ∈ width.names ++ arrays, x ∈ scope)
    (found : List.Forall₂ (fun x c => t.companions.find? x = some c) arrays cs) (neutral : Neutral f σ τ inits inits')
    (applies : Applies f bound decl scope still bs m t 1 lay l l')
    (steady : Steady f bound scope still bs t.companions m t.builder.supply.next σ₀ τ₀ σ τ) :
    Shadows stop (stream (runBody fuel) width (interleave arrays cs) inits' l') σ
      (stream (guardedBody (keepTypes decl stop) fuel) width arrays inits l) τ
      (Comes f bound scope still bs t.companions m t.builder.supply.next lay σ₀ τ₀) := by
  obtain ⟨zeros, es, rfl, pairs⟩ := neutral
  refine .reads (· = ·) (fun k σ' ends => ?_) fun k _ same => ?_
  · obtain ⟨rfl, isInt⟩ := (steady.accord.known fun x mem => known x (List.mem_append_left _ mem)).int view ends
    exact ⟨rfl, k, isInt, rfl⟩
  subst same
  refine .reads (fun us ws => us = doubled es ∧ ws = es.map (Value.map f)) (fun us σ' ends => ?_) ?_
  · obtain ⟨rfl, rfl, seen⟩ := pairs.ends_doubled ends
    exact ⟨rfl, _, seen, rfl, rfl⟩
  rintro _ _ ⟨rfl, rfl⟩
  refine .reads (fun us ws => ∃ ds : List (Value Dual), us = doubled ds ∧ ws = ds.map (Value.map f))
    (fun us σ' ends => ?_) ?_
  · obtain ⟨rfl, ds, rfl, seen⟩ :=
      steady.accord.lookups view (fun x mem => known x (List.mem_append_right _ mem)) found ends
    exact ⟨rfl, _, seen, ds, rfl, rfl⟩
  rintro _ _ ⟨ds, rfl, rfl⟩
  -- the chunk spans all rows, and its size does not change
  let chunk : Value Dual := .scalar (.constant (.int .i64 k))
  have size : (Dual.constant (.int .i64 k)).primal = ofScalar (.int .i64 k) := rfl
  have call := applies.call stop fuel (chunk :: es ++ ds)
    (by simpa [chunk] using Dual.still_constant _) steady
  simpa [chunk, partly, primals, Value.map, view.constant, size] using call

/-! Statements. -/

/-- What is inside a statement is left as it was when the tangents of the pattern were drawn. -/
theorem Awaits.drawn {o : Outline} {pat : List Param} {post : Store Scalar → Store α → Prop}
    (inside : Awaits bound scope s o) (drawn : Asks f bound decl scope still (pat.map (·.name)) names s t post)
    (apart : ∀ p ∈ pat, p.name ∉ o.binders) : Awaits bound scope t o := by
  obtain ⟨new, passes, -⟩ := drawn.emits
  refine inside.passes passes fun x mem => ⟨inside.fresh x mem, fun isName => ?_⟩
  obtain ⟨p, inPat, rfl⟩ := List.mem_map.mp isName
  exact apart p inPat mem

theorem screma_stands (view : View f) {pat : List Param} {aux : Annotations} {width : Operand} {arrays : List Name}
    {scans : List Combiner} {reduces : List Reduction} {map : Lambda} {scansAct : Diff (List Combiner)}
    {reducesAct : Diff (List Reduction)} {mapAct : Diff Lambda} (declared : Declared decl pat)
    (onScans : Gathers f bound decl id scansAct scans (combinerOutline scans))
    (onReduces : Gathers f bound decl Reduction.combiner reducesAct reduces (reductionOutline reduces))
    (onMap : Transforms f bound decl mapAct 0 doubled map)
    (wide : ∀ s l' t, Gives mapAct s l' t → l'.ret.length = 2 * map.ret.length) :
    Stands f bound decl
      (Forward.screma ⟨pat, aux, .screma width arrays scans reduces map⟩ width arrays scansAct reducesAct mapAct)
      ⟨pat, aux, .screma width arrays scans reduces map⟩ := by
  intro scope still s t serves awaits gives
  obtain ⟨inside, pattern, apart, -⟩ := awaits.stm
  simp only [Forward.screma, gives_bind] at gives
  obtain ⟨qs, u₁, bundled, arrays', u₂, asked, scans', u₃, madeScans, reduces', u₄, madeReduces, map', u₅, madeMap,
    added⟩ := gives
  obtain ⟨rfl, rfl⟩ := (gives_of_outcome (Forward.gives_bundleBinders declared.plain s) ..).mp bundled
  obtain rfl := ((gives_build ..).mp added).2
  let e : Exp := .screma width arrays scans reduces map
  let uses := Stm.uses ⟨pat, aux, e⟩
  have read (x : Name) (mem : x ∈ (e.outline pat.length).uses) (known : x ∈ scope) : x ∈ uses :=
    awaits.looked mem known
  have drawn : Asks f bound decl scope still _ uses s _ _ := withTangents_asks serves pattern.params.2.1
  have whole : Awaits bound scope (Forward.withTangents s pat) (e.outline pat.length) := inside.drawn drawn apart
  simp only [e, Exp.outline] at whole read
  have known := (Awaits.first (Awaits.first (Awaits.first whole))).reads
  obtain ⟨asks₂, cs, rfl, found⟩ := bundleNames_asks (f := f) [] drawn.serves
    (fun x mem => known x (by simp [mem])) (fun x mem => read x (by simp [mem]) (known x (by simp [mem]))) asked
  have scansDone := onScans scope still uses u₂ scans' u₃ asks₂.serves
    ((Awaits.first (Awaits.first whole)).carry (by simp) asks₂ (by simp)) (fun x mem => read x (by simp [mem])) madeScans
  have asks₃ : Asks f bound decl scope still (combinerOutline scans).binders uses _ u₃ _ :=
    (asks₂.widen (by simp)).bind scansDone.asks
  have reducesDone := onReduces scope still uses u₃ reduces' u₄ asks₃.serves
    ((Awaits.first whole).carry (by simp [Scope.after_combinerOutline]) asks₃ (by simp))
    (fun x mem => read x (by simp [mem])) madeReduces
  have asks₄ : Asks f bound decl scope still
      ((combinerOutline scans).binders ++ (reductionOutline reduces).binders) uses _ u₄ _ :=
    (asks₃.widen (by simp +contextual)).bind (reducesDone.asks.widen (by simp +contextual))
  obtain ⟨asks₅, onMap⟩ := onMap scope still uses u₄ map' u₅ asks₄.serves
    (whole.carry (by simp [Scope.after_combinerOutline, Scope.after_reductionOutline]) asks₄ (by simp)).block.1 madeMap
  let inner := (combinerOutline scans).binders ++ (reductionOutline reduces).binders ++ map.outline.binders
  have binders : (e.outline pat.length).binders = inner := by simp [e, Exp.outline, inner]
  have inScans : ∀ x ∈ (combinerOutline scans).binders, x ∈ inner := by simp +contextual [inner]
  have inReduces : ∀ x ∈ (reductionOutline reduces).binders, x ∈ inner := by simp +contextual [inner]
  have inMap : ∀ x ∈ map.outline.binders, x ∈ inner := by simp +contextual [inner]
  have asks : Asks f bound decl scope still inner uses _ u₅ _ :=
    (asks₄.widen fun x mem => (List.mem_append.mp mem).elim (inScans x) (inReduces x)).bind (asks₅.widen inMap)
  have begin₂ := asks₂.next_le
  have begin₃ := scansDone.asks.next_le
  have begin₄ := reducesDone.asks.next_le
  have le : s.builder.supply.next ≤ (Forward.withTangents s pat).builder.supply.next := Nat.le_add_right _ _
  have onward₃ := reducesDone.asks.onward.trans asks₅.onward
  refine ⟨still, emits_bundled view serves declared awaits binders (.refl serves fun _ _ _ _ _ _ => trivial) asks
    fun stop fuel σ₀ τ₀ σ τ steady holds => ?_⟩
  obtain ⟨⟨⟨-, scanNeutral⟩, reduceNeutral⟩, -⟩ := holds
  exact screma_shadows view known
    (forall₂_imp_mem found fun x mem c here => (scansDone.asks.onward.trans onward₃).later.kept x (known x (by simp [mem])) c here)
    (scansDone.applies.imp fun _ _ applies => applies.mono (by omega) inScans onward₃)
    (reducesDone.applies.imp fun _ _ applies => applies.mono (by omega) inReduces asks₅.onward)
    (onMap.mono (by omega) inMap (.refl ..)) (wide _ _ _ madeMap) scanNeutral reduceNeutral steady

theorem stream_stands (view : View f) {pat : List Param} {aux : Annotations} {width : Operand} {arrays : List Name}
    {form : StreamForm} {inits : List Operand} {lam : Lambda} {formAct : Diff StreamForm} {lamAct : Diff Lambda}
    (declared : Declared decl pat) (onLam : Transforms f bound decl lamAct 1 doubled lam)
    (onForm : ∀ scope still names s form' t, Serves bound decl scope still s → Awaits bound scope s form.outline →
      Gives formAct s form' t → Asks f bound decl scope still form.outline.binders names s t fun _ _ => True)
    (fixed : Blind f ∨ operandNames inits = []) :
    Stands f bound decl
      (Forward.stream ⟨pat, aux, .stream width arrays form inits lam⟩ width arrays formAct inits lamAct)
      ⟨pat, aux, .stream width arrays form inits lam⟩ := by
  intro scope still s t serves awaits gives
  obtain ⟨inside, pattern, apart, -⟩ := awaits.stm
  simp only [Forward.stream, gives_bind] at gives
  obtain ⟨qs, u₁, bundled, lam', u₂, madeLam, arrays', u₃, asked, inits', u₄, madeInits, form', u₅, madeForm, added⟩ := gives
  obtain ⟨rfl, rfl⟩ := (gives_of_outcome (Forward.gives_bundleBinders declared.plain s) ..).mp bundled
  obtain rfl := ((gives_build ..).mp added).2
  let e : Exp := .stream width arrays form inits lam
  let uses := Stm.uses ⟨pat, aux, e⟩
  have read (x : Name) (mem : x ∈ (e.outline pat.length).uses) (known : x ∈ scope) : x ∈ uses :=
    awaits.looked mem known
  have drawn : Asks f bound decl scope still _ uses s _ _ := withTangents_asks serves pattern.params.2.1
  have whole : Awaits bound scope (Forward.withTangents s pat) (e.outline pat.length) := inside.drawn drawn apart
  simp only [e, Exp.outline] at whole read
  have known := (Awaits.first (Awaits.first whole)).reads
  have lamAwaits := Awaits.second whole
  rw [after_append, after_readsAll, Scope.after_streamForm] at lamAwaits
  have formAwaits := Awaits.second (Awaits.first whole)
  rw [after_readsAll] at formAwaits
  obtain ⟨asks₂, onLam⟩ := onLam scope still uses _ lam' u₂ drawn.serves lamAwaits.block.1 madeLam
  obtain ⟨asks₃, cs, rfl, found⟩ := bundleNames_asks (f := f) lam.outline.binders asks₂.serves
    (fun x mem => known x (by simp [mem])) (fun x mem => read x (by simp [mem]) (known x (by simp [mem]))) asked
  obtain ⟨zeros, rfl, asks₄⟩ := bundleNeutral_asks (f := f) lam.outline.binders view asks₃.serves
    (fun x mem => known x (by simp [mem])) (fun x mem => read x (by simp [mem]) (known x (by simp [mem]))) madeInits
  have sofar := (asks₂.bind asks₃).bind asks₄
  obtain ⟨new, passes, -⟩ := sofar.emits
  have asks₅ := onForm scope still uses u₄ form' u₅ asks₄.serves (formAwaits.passes passes fun x mem =>
    ⟨formAwaits.fresh x mem, fun inLam => Awaits.apart whole x (by simp [inLam]) (by simp [mem])⟩) madeForm
  let inner := form.outline.binders ++ lam.outline.binders
  have binders : (e.outline pat.length).binders = inner := by simp [e, Exp.outline, inner]
  have inLam : ∀ x ∈ lam.outline.binders, x ∈ inner := by simp +contextual [inner]
  have asks : Asks f bound decl scope still inner uses _ u₅ _ :=
    (sofar.widen inLam).bind (asks₅.widen (by simp +contextual [inner]))
  have le : s.builder.supply.next ≤ (Forward.withTangents s pat).builder.supply.next := Nat.le_add_right _ _
  have onward₄ := asks₄.onward.trans asks₅.onward
  refine ⟨still, emits_bundled view serves declared awaits binders (.refl serves fun _ _ _ _ _ _ => trivial) asks
    fun stop fuel σ₀ τ₀ σ τ steady holds => ?_⟩
  obtain ⟨⟨-, neutral⟩, -⟩ := holds
  obtain ⟨ds, pairs⟩ := neutral fixed
  exact stream_shadows view (fun x mem => known x (by simp only [List.mem_append] at mem ⊢; tauto))
    (forall₂_imp_mem found fun x mem c here => onward₄.later.kept x (known x (by simp [mem])) c here)
    ⟨zeros, ds, rfl, pairs⟩ (onLam.mono le inLam (asks₃.onward.trans onward₄)) steady

end

end Tandem

end Cotangent
