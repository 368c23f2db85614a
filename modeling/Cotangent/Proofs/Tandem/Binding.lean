import Cotangent.Proofs.Tandem.Accord
/-!
Binding names in both stores at once. A binder of the source is bound to a dual value: to what is seen of it
on one side, and to its primal part on the other, where its tangent is bound as well unless the value does
not change.
-/
namespace Cotangent

open Run ScalarAlgebra

namespace Tandem

/-- A name that is bound, with the name of its tangent if it gets one. -/
structure Binder where
  name : Name
  tangent : Option Name

/-- Binders that all get tangents. -/
def Binder.moving (xs cs : List Name) : List Binder := (xs.zip cs).map fun p => ⟨p.1, some p.2⟩

/-- Binders that get no tangents. -/
def Binder.calm (xs : List Name) : List Binder := xs.map fun x => ⟨x, none⟩

/-- The name is not that of a binder. -/
def Foreign (bs : List Binder) (x : Name) : Prop := ∀ b ∈ bs, b.name ≠ x

/-- The name is not bound, neither by a binder nor as its tangent. -/
def Apart (bs : List Binder) (x : Name) : Prop := ∀ b ∈ bs, b.name ≠ x ∧ b.tangent ≠ some x

/-- The stores hold the dual value under the name and its tangent. -/
structure Bears {α : Type} [ScalarAlgebra α] (f : Dual → α) (σ : Store Scalar) (τ : Store α) (b : Binder)
    (d : Value Dual) : Prop extends Reads f σ τ (.var b.name) d where
  tangent : ∀ c, b.tangent = some c → σ.vars.find? c = some (d.map Dual.tangent)
  still : b.tangent = none → d.Every Dual.Still

/-- The names were bound to dual values, and nothing else changed. -/
structure Binds {α : Type} [ScalarAlgebra α] (f : Dual → α) (bs : List Binder) (ds : List (Value Dual))
    (σ : Store Scalar) (τ : Store α) (σ' : Store Scalar) (τ' : Store α) : Prop where
  bears : List.Forall₂ (Bears f σ' τ') bs ds
  left : σ.Agree (Apart bs) σ'
  right : τ.Agree (Foreign bs) τ'

section

variable {α : Type} [ScalarAlgebra α] {f : Dual → α} {bound m n : Nat}
  {scope scope' still still' : List Name} {tans tans' : NameTable Name} {bs bs' : List Binder}
  {ds ds' : List (Value Dual)} {σ σ' σ'' : Store Scalar} {τ τ' τ'' : Store α} {b : Binder} {d : Value Dual}

/-- A relation between the entries of two lists may be weakened by what is known of the first. -/
theorem forall₂_imp_mem {β γ : Type} {R S : β → γ → Prop} {as : List β} {cs : List γ}
    (all : List.Forall₂ R as cs) (weaker : ∀ a ∈ as, ∀ c, R a c → S a c) : List.Forall₂ S as cs := by
  induction all with
  | nil => exact .nil
  | cons here rest ih =>
    obtain ⟨first, others⟩ := List.forall_mem_cons.mp weaker
    exact .cons (first _ here) (ih others)

@[simp] theorem moving_nil (cs : List Name) : Binder.moving [] cs = [] := rfl

@[simp] theorem moving_cons (x c : Name) (xs cs : List Name) :
    Binder.moving (x :: xs) (c :: cs) = ⟨x, some c⟩ :: Binder.moving xs cs := rfl

theorem mem_moving {xs cs : List Name} (mem : b ∈ Binder.moving xs cs) :
    b.name ∈ xs ∧ ∃ c ∈ cs, b.tangent = some c := by
  obtain ⟨p, inZip, rfl⟩ := List.mem_map.mp mem
  exact ⟨(List.of_mem_zip inZip).1, p.2, (List.of_mem_zip inZip).2, rfl⟩

theorem exists_moving {xs cs : List Name} (counts : cs.length = xs.length) {x : Name} (mem : x ∈ xs) :
    ∃ b ∈ Binder.moving xs cs, b.name = x := by
  have firsts : (xs.zip cs).map Prod.fst = xs := List.map_fst_zip (Nat.le_of_eq counts.symm)
  obtain ⟨p, inZip, rfl⟩ := List.mem_map.mp (firsts.symm ▸ mem)
  exact ⟨_, List.mem_map_of_mem inZip, rfl⟩

/-- The tangents of moving binders are those that a table has for them. -/
theorem moving_found {xs cs : List Name} (found : List.Forall₂ (fun x c => tans.find? x = some c) xs cs) :
    ∀ b ∈ Binder.moving xs cs, ∀ c, tans.find? b.name = some c → b.tangent = some c := by
  intro b mem c here
  obtain ⟨⟨x, c'⟩, inZip, rfl⟩ := List.mem_map.mp mem
  have isTangent := (List.forall₂_iff_zip.mp found).2 inZip
  exact isTangent.symm.trans here

theorem mem_calm {xs : List Name} (mem : b ∈ Binder.calm xs) : b.name ∈ xs ∧ b.tangent = none := by
  obtain ⟨x, inXs, rfl⟩ := List.mem_map.mp mem
  exact ⟨inXs, rfl⟩

theorem Apart.foreign {x : Name} (apart : Apart bs x) : Foreign bs x := fun b mem => (apart b mem).1

theorem Bears.agree {left right : Name → Prop} (bears : Bears f σ τ b d) (kept : σ.Agree left σ')
    (kept' : τ.Agree right τ') (name : left b.name ∧ right b.name)
    (tangent : ∀ c, b.tangent = some c → left c) : Bears f σ' τ' b d where
  toReads := bears.toReads.agree kept kept' (by simpa [Operand.names] using name.1)
    (by simpa [Operand.names] using name.2)
  tangent c isTangent := (kept c (tangent c isTangent)).trans (bears.tangent c isTangent)
  still := bears.still

/-- Further names are bound. -/
theorem Binds.append (first : Binds f bs ds σ τ σ' τ') (second : Binds f bs' ds' σ' τ' σ'' τ'')
    (apart : ∀ b ∈ bs, Apart bs' b.name ∧ ∀ c, b.tangent = some c → Apart bs' c) :
    Binds f (bs ++ bs') (ds ++ ds') σ τ σ'' τ'' where
  bears := by
    refine List.rel_append (forall₂_imp_mem first.bears fun b mem d bears => ?_) second.bears
    exact bears.agree second.left second.right ⟨(apart b mem).1, (apart b mem).1.foreign⟩ (apart b mem).2
  left := (first.left.mono fun x known b mem => known b (List.mem_append_left _ mem)).trans
    (second.left.mono fun x known b mem => known b (List.mem_append_right _ mem))
  right := (first.right.mono fun x known b mem => known b (List.mem_append_left _ mem)).trans
    (second.right.mono fun x known b mem => known b (List.mem_append_right _ mem))

theorem binds_nil (σ : Store Scalar) (τ : Store α) : Binds f [] [] σ τ σ τ :=
  ⟨.nil, .refl _ σ, .refl _ τ⟩

/-- A name that does not change. -/
theorem binds_still (x : Name) (still : d.Every Dual.Still) (σ : Store Scalar) (τ : Store α) :
    Binds f [⟨x, none⟩] [d] σ τ (σ.bound [x] [d.map Dual.primal]) (τ.bound [x] [d.map f]) where
  bears := .cons ⟨⟨σ.find_bound_single x _, τ.find_bound_single x _⟩, by simp, fun _ => still⟩ .nil
  left := .bound σ _ (by simp [Apart])
  right := .bound τ _ (by simp [Foreign])

/-- A name and its tangent. -/
theorem binds_pair {x c : Name} (apart : x ≠ c) (d : Value Dual) (σ : Store Scalar) (τ : Store α) :
    Binds f [⟨x, some c⟩] [d] σ τ (σ.bound [x, c] [d.map Dual.primal, d.map Dual.tangent])
      (τ.bound [x] [d.map f]) where
  bears := by
    have distinct : [x, c].Nodup := by simpa using apart
    refine .cons ⟨⟨σ.find_bound distinct (by simp), τ.find_bound_single x _⟩, fun y same => ?_, by simp⟩ .nil
    obtain rfl := Option.some.inj same
    exact σ.find_bound distinct (by simp)
  left := .bound σ _ fun y mem apart => by
    have := apart ⟨x, some c⟩ (by simp)
    simp only [List.mem_cons, List.not_mem_nil, or_false] at mem
    rcases mem with rfl | rfl
    · exact this.1 rfl
    · exact this.2 rfl
  right := .bound τ _ (by simp [Foreign])

theorem binds_interleave {xs cs : List Name} (counts : cs.length = xs.length) (counts' : ds.length = xs.length)
    (distinct : xs.Nodup) (distinct' : cs.Nodup) (apart : ∀ x ∈ xs, x ∉ cs) (σ : Store Scalar) (τ : Store α) :
    Binds f (Binder.moving xs cs) ds σ τ (σ.bound (interleave xs cs) (doubled ds))
      (τ.bound xs (ds.map (Value.map f))) := by
  induction xs generalizing cs ds σ τ with
  | nil =>
    obtain rfl := List.length_eq_zero_iff.mp counts'
    exact binds_nil σ τ
  | cons x xs ih =>
    obtain ⟨c, cs, rfl⟩ : ∃ c cs', cs = c :: cs' := List.exists_cons_of_length_eq_add_one counts
    obtain ⟨d, ds, rfl⟩ : ∃ d ds', ds = d :: ds' := List.exists_cons_of_length_eq_add_one counts'
    obtain ⟨absent, distinct⟩ := List.nodup_cons.mp distinct
    obtain ⟨absent', distinct'⟩ := List.nodup_cons.mp distinct'
    have first := binds_pair (f := f) (show x ≠ c by rintro rfl; exact apart x (by simp) (by simp)) d σ τ
    have rest := @ih ds cs (by simpa using counts) (by simpa using counts') distinct distinct'
      (fun y mem other => apart y (by simp [mem]) (by simp [other]))
      (σ.bound [x, c] [d.map Dual.primal, d.map Dual.tangent]) (τ.bound [x] [d.map f])
    have both := first.append rest ?_
    · exact both
    · intro b mem
      obtain rfl := List.mem_singleton.mp mem
      refine ⟨fun b' mem' => ?_, fun y same b' mem' => ?_⟩
      · obtain ⟨inXs, c', inCs, isTangent⟩ := mem_moving mem'
        refine ⟨fun same : b'.name = x => absent (same ▸ inXs), fun same => apart x (by simp) ?_⟩
        obtain rfl := Option.some.inj (isTangent.symm.trans same)
        simp [inCs]
      · obtain rfl := Option.some.inj same
        obtain ⟨inXs, c', inCs, isTangent⟩ := mem_moving mem'
        refine ⟨fun same => apart b'.name (by simp [inXs]) (by simp [same]), fun same => absent' ?_⟩
        obtain rfl := Option.some.inj (isTangent.symm.trans same)
        exact inCs

/-- Names and then their tangents. -/
theorem binds_apart {xs cs : List Name} (counts : cs.length = xs.length) (counts' : ds.length = xs.length)
    (distinct : (xs ++ cs).Nodup) (σ : Store Scalar) (τ : Store α) :
    Binds f (Binder.moving xs cs) ds σ τ (σ.bound (xs ++ cs) (primals ds ++ changes ds))
      (τ.bound xs (ds.map (Value.map f))) where
  bears := by
    have left (x : Name) (v : Value) (mem : (x, v) ∈ xs.zip (primals ds)) :
        (σ.bound (xs ++ cs) (primals ds ++ changes ds)).vars.find? x = some v :=
      σ.find_bound distinct (by rw [List.zip_append (by simp [counts'])]; simp [mem])
    have right (c : Name) (v : Value) (mem : (c, v) ∈ cs.zip (changes ds)) :
        (σ.bound (xs ++ cs) (primals ds ++ changes ds)).vars.find? c = some v :=
      σ.find_bound distinct (by rw [List.zip_append (by simp [counts'])]; simp [mem])
    have seen (x : Name) (v : Value α) (mem : (x, v) ∈ xs.zip (ds.map (Value.map f))) :
        (τ.bound xs (ds.map (Value.map f))).vars.find? x = some v :=
      τ.find_bound (List.nodup_append.mp distinct).1 mem
    generalize σ.bound (xs ++ cs) (primals ds ++ changes ds) = σ' at *
    generalize τ.bound xs (ds.map (Value.map f)) = τ' at *
    clear distinct
    induction xs generalizing cs ds with
    | nil =>
      obtain rfl := List.length_eq_zero_iff.mp counts'
      exact .nil
    | cons x xs ih =>
      obtain ⟨c, cs, rfl⟩ : ∃ c cs', cs = c :: cs' := List.exists_cons_of_length_eq_add_one counts
      obtain ⟨d, ds, rfl⟩ : ∃ d ds', ds = d :: ds' := List.exists_cons_of_length_eq_add_one counts'
      refine .cons ⟨⟨left x _ (by simp), seen x _ (by simp)⟩, fun y same => ?_, by simp⟩
        (ih (by simpa using counts) (by simpa using counts') (fun y v mem => left y v ?_)
          (fun y v mem => right y v ?_) fun y v mem => seen y v ?_)
      · obtain rfl := Option.some.inj same
        exact right c _ (by simp)
      all_goals simpa using .inr mem
  left := .bound σ _ fun y mem apart => by
    rcases List.mem_append.mp mem with mem | mem
    · obtain ⟨b, inBs, rfl⟩ := exists_moving counts mem
      exact (apart b inBs).1 rfl
    · obtain ⟨x, inZip⟩ : ∃ x, (x, y) ∈ xs.zip cs := by
        have seconds : (xs.zip cs).map Prod.snd = cs := List.map_snd_zip (Nat.le_of_eq counts)
        obtain ⟨⟨x, _⟩, inZip, rfl⟩ := List.mem_map.mp (seconds.symm ▸ mem)
        exact ⟨x, inZip⟩
      exact (apart ⟨x, some y⟩ (List.mem_map.mpr ⟨_, inZip, rfl⟩)).2 rfl
  right := .bound τ _ fun y mem foreign => by
    obtain ⟨b, inBs, rfl⟩ := exists_moving counts mem
    exact foreign b inBs rfl

/-- Names that do not change. -/
theorem binds_calm {xs : List Name} (count : ds.length = xs.length) (distinct : xs.Nodup)
    (still : ∀ d ∈ ds, d.Every Dual.Still) (σ : Store Scalar) (τ : Store α) :
    Binds f (Binder.calm xs) ds σ τ (σ.bound xs (primals ds)) (τ.bound xs (ds.map (Value.map f))) := by
  induction xs generalizing ds σ τ with
  | nil =>
    obtain rfl := List.length_eq_zero_iff.mp count
    exact binds_nil σ τ
  | cons x xs ih =>
    obtain ⟨d, ds, rfl⟩ : ∃ d ds', ds = d :: ds' := List.exists_cons_of_length_eq_add_one count
    obtain ⟨absent, distinct⟩ := List.nodup_cons.mp distinct
    refine (binds_still x (still d (by simp)) σ τ).append (ih (by simpa using count) distinct
      (fun d mem => still d (by simp [mem])) (σ.bound [x] [d.map Dual.primal]) (τ.bound [x] [d.map f])) ?_
    intro b mem
    obtain rfl := List.mem_singleton.mp mem
    refine ⟨fun b' mem' => ⟨?_, by simp [(mem_calm mem').2]⟩, by simp⟩
    exact fun same : b'.name = x => absent (same ▸ (mem_calm mem').1)

/-- Names that do not change, and then names with their tangents. -/
theorem binds_partly {chunk rest cs : List Name} (counts : cs.length = rest.length)
    (count : ds.length = chunk.length + rest.length) (distinct : (chunk ++ rest).Nodup) (distinct' : cs.Nodup)
    (apart : ∀ x ∈ chunk ++ rest, x ∉ cs) (still : ∀ d ∈ ds.take chunk.length, d.Every Dual.Still)
    (σ : Store Scalar) (τ : Store α) :
    Binds f (Binder.calm chunk ++ Binder.moving rest cs) ds σ τ
      (σ.bound (chunk ++ interleave rest cs) (partly chunk.length ds))
      (τ.bound (chunk ++ rest) (ds.map (Value.map f))) := by
  obtain ⟨first, second, disjoint⟩ := List.nodup_append.mp distinct
  have split : ds = ds.take chunk.length ++ ds.drop chunk.length := (List.take_append_drop ..).symm
  have here : (ds.take chunk.length).length = chunk.length := by simp [count]
  have both := (binds_calm (f := f) here first still σ τ).append
    (binds_interleave counts (show (ds.drop chunk.length).length = rest.length by simp [count]) second distinct'
      (fun x mem => apart x (by simp [mem])) (σ.bound chunk (primals (ds.take chunk.length)))
      (τ.bound chunk ((ds.take chunk.length).map (Value.map f)))) fun b mem => ?_
  · rw [← split, ← Store.bound_append _ _ _ (by simpa [primals] using here),
      ← Store.bound_append _ _ _ (by simpa using here), ← List.map_append, ← split] at both
    exact both
  · obtain ⟨inChunk, none⟩ := mem_calm mem
    refine ⟨fun b' mem' => ?_, by simp [none]⟩
    obtain ⟨inRest, c, inCs, isTangent⟩ := mem_moving mem'
    refine ⟨fun same => disjoint _ inChunk _ inRest same.symm, fun same => ?_⟩
    obtain rfl := Option.some.inj (isTangent.symm.trans same)
    exact apart _ (by simp [inChunk]) inCs

/-! What binding means for the stores. -/

/-- The names and their tangents come into scope. -/
theorem Binds.accord (binds : Binds f bs ds σ τ σ' τ') (accord : Accord f scope still tans σ τ)
    (within : ∀ x ∈ scope', x ∈ scope ∨ ∃ b ∈ bs, b.name = x)
    (calm : ∀ x ∈ still', (x ∈ scope → x ∈ still) ∧ ∀ b ∈ bs, b.name = x → b.tangent = none)
    (old : ∀ x ∈ scope, Apart bs x ∧ ∀ c, tans'.find? x = some c → tans.find? x = some c ∧ Apart bs c)
    (new : ∀ b ∈ bs, ∀ c, tans'.find? b.name = some c → b.tangent = some c) :
    Accord f scope' still' tans' σ' τ' := by
  intro x mem
  by_cases fresh : ∃ b ∈ bs, b.name = x
  · obtain ⟨b, inBs, rfl⟩ := fresh
    obtain ⟨d, -, bears⟩ := exists_of_forall₂ binds.bears.flip inBs
    exact ⟨d, bears.toReads, fun c found => bears.tangent c (new b inBs c found),
      fun isStill => bears.still ((calm _ isStill).2 b inBs rfl)⟩
  · obtain known := (within x mem).resolve_right fresh
    obtain ⟨d, reads, tangent, quiet⟩ := accord x known
    obtain ⟨apart, kept⟩ := old x known
    refine ⟨d, reads.agree binds.left binds.right (by simpa [Operand.names] using apart)
      (by simpa [Operand.names] using apart.foreign), fun c found => ?_,
      fun isStill => quiet ((calm x isStill).1 known)⟩
    obtain ⟨before, apart⟩ := kept c found
    exact (binds.left c apart).trans (tangent c before)

theorem Binds.source (binds : Binds f bs ds σ τ σ' τ') (small : ∀ b ∈ bs, b.name.id < bound)
    (large : ∀ b ∈ bs, ∀ c, b.tangent = some c → bound ≤ c.id)
    (old : ∀ x w, Foreign bs x → τ.vars.find? x = some w → x.id < bound ∧ ∃ d, Reads f σ τ (.var x) d) :
    Source bound f σ' τ' := by
  intro x w found
  by_cases fresh : ∃ b ∈ bs, b.name = x
  · obtain ⟨b, inBs, rfl⟩ := fresh
    obtain ⟨d, -, bears⟩ := exists_of_forall₂ binds.bears.flip inBs
    exact ⟨small b inBs, d, bears.toReads⟩
  · have foreign : Foreign bs x := fun b inBs same => fresh ⟨b, inBs, same⟩
    obtain ⟨isSmall, d, reads⟩ := old x w foreign ((binds.right x foreign).symm.trans found)
    refine ⟨isSmall, d, reads.agree binds.left binds.right ?_ (by simpa [Operand.names] using foreign)⟩
    simp only [Operand.names, List.mem_singleton, forall_eq]
    intro b inBs
    refine ⟨foreign b inBs, fun same => ?_⟩
    have := large b inBs x same
    omega

/-- Binding is among what a statement may do. -/
theorem Binds.keeps (binds : Binds f bs ds σ τ σ' τ') {names : List Name}
    (small : ∀ b ∈ bs, b.name ∈ names ∧ b.name.id < bound)
    (drawn : ∀ b ∈ bs, ∀ c, b.tangent = some c → bound ≤ c.id ∧ m ≤ c.id ∧ c.id < n)
    (source : Source bound f σ τ) : Keeps bound f names m n σ τ σ' τ' where
  left := binds.left.mono fun x known b mem => by
    refine ⟨fun same => known.1 (same ▸ (small b mem).1), fun same => ?_⟩
    have := drawn b mem x same
    omega
  right := binds.right.mono fun x known b mem same => known (same ▸ (small b mem).1)
  source := binds.source (fun b mem => (small b mem).2) (fun b mem c same => (drawn b mem c same).1)
    fun x w _ found => source x w found

end

end Tandem

end Cotangent
