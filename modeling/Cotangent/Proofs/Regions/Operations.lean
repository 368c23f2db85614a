import Cotangent.Proofs.Regions.Operators
/-!
Statements of one operation. The operation is emitted as it was, the zeros that its tangent reads after
it, and the tangent last.
-/
namespace Cotangent

open Outline Diff Run

namespace Roles

variable {bound : Nat} {κ : Name → Kind} {scope on on' : List Name} {ρ ρ' ρ'' : Roles}
  {s t u v : DiffState} {x : Name} {post holds : Roles → Prop}

/-- Names drawn on the way serve nothing that lasts. -/
def giveScratch (ρ : Roles) (m n : Nat) : Roles :=
  fun y => if m ≤ y.id ∧ y.id < n then some .scratch else ρ y

theorem under_giveScratch {m n : Nat} (past : ∀ y, m ≤ y.id → ρ y = none) :
    ρ.Under (ρ.giveScratch m n) := by
  intro y r role
  have before : ¬ (m ≤ y.id ∧ y.id < n) := fun inside => by simp [past y inside.1] at role
  simpa [giveScratch, before] using role

theorem giveScratch_of_past {m n : Nat} {y : Name} (large : n ≤ y.id) : ρ.giveScratch m n y = ρ y :=
  if_neg fun inside => absurd large (Nat.not_le.mpr inside.2)

theorem giveScratch_of_before {m n : Nat} {y : Name} (small : y.id < m) : ρ.giveScratch m n y = ρ y :=
  if_neg fun inside => absurd inside.1 (Nat.not_le.mpr small)

theorem Coherent.giveScratch (coherent : ρ.Coherent) {m n : Nat} (past : ∀ y, m ≤ y.id → ρ y = none) :
    (ρ.giveScratch m n).Coherent := by
  intro y t c role
  unfold Roles.giveScratch at role
  split at role
  · simp at role
  · exact under_giveScratch past _ _ (coherent y t c role)

/-- What has a role was drawn. -/
theorem Sound.drawn (sound : Sound bound ρ s) {y : Name} {r : Role} (role : ρ y = some r) :
    y.id < s.builder.supply.next := by
  by_contra large
  simp [sound.past y (Nat.not_lt.mp large)] at role

/-- The formula of a tangent is bound. -/
theorem bindFormula_echoed (sound : Sound bound ρ s) {p : Param} {aux : Annotations} {op : BinaryOp}
    {f g : Formula} (left : f.Arithmetic) (right : g.Arithmetic) (fresh : bound ≤ p.name.id)
    (below : ∀ z ∈ (Formula.binary op f g).names, z.id < s.builder.supply.next)
    (gives : Gives (build (Build.bindFormula p aux (.binary op f g))) s () u) :
    Echoed bound κ [] ρ s u (fun _ => True) fun ρ'' new => ∀ fuel σ τ, Ends (Run.stms fuel new) σ () τ →
      ∃ v, (Formula.binary op f g).eval σ.reading = some v ∧ ρ''.Sets p.name (.scalar v) σ τ := by
  obtain ⟨new, c, emitted, supply, next_le, types, ends⟩ := bindFormula_tells op left right p aux below
  obtain ⟨-, rfl⟩ := (gives_build ..).mp gives
  have under := under_giveScratch (n := c.next) sound.past
  refine ⟨ρ.giveScratch s.builder.supply.next c.next, new, ⟨under, supply ▸ next_le, fun y none _ small =>
    (giveScratch_of_before small).trans none, ⟨supply ▸ Nat.le_trans sound.reserved next_le,
    fun y small _ => types y (Nat.lt_of_lt_of_le small sound.reserved) ?_⟩,
    fun y r cast => cast.mono under rfl⟩, ⟨sound.coherent.giveScratch sound.past,
    supply ▸ Nat.le_trans sound.reserved next_le, fun y large => ?_, fun y none => sound.apart y ?_⟩,
    emitted, trivial, fun ρ'' further fuel σ τ ended => ?_⟩
  · rintro rfl
    exact absurd small (Nat.not_lt.mpr fresh)
  · have large : c.next ≤ y.id := supply ▸ large
    rw [giveScratch_of_past large]
    exact sound.past y (Nat.le_trans next_le large)
  · cases role : ρ y with
    | none => rfl
    | some r => exact absurd ((under y r role).symm.trans none) (by simp)
  · obtain ⟨v, eval, same, here, kept⟩ := ends fuel σ τ ended
    refine ⟨v, eval, same, here, fun y r role lasting other => kept y ?_ other⟩
    by_contra inside
    have inside : s.builder.supply.next ≤ y.id ∧ y.id < c.next := by omega
    have scratch := further y .scratch (if_pos inside)
    exact lasting (Option.some.inj (role.symm.trans scratch))

/-- What holds of all further roles may be used by the steps that come after. -/
theorem Padded.keep (padded : Padded bound κ on ρ s t post holds) :
    Padded bound κ on ρ s t (fun ρ' => post ρ' ∧ ∀ ρ'', ρ'.Under ρ'' → holds ρ'') holds := by
  obtain ⟨ρ', new, grows, sound, emitted, known, echoes⟩ := padded
  exact ⟨ρ', new, grows, sound, emitted, ⟨known, fun ρ'' under => (echoes ρ'' under).2⟩, echoes⟩

/-- A statement was emitted as it was. -/
structure Copied (bound : Nat) (κ : Name → Kind) (ρ : Roles) (s t : DiffState) (stm : Stm) : Prop where
  sound : Sound bound ρ t
  grows : Grows bound κ (stm.pat.map (·.name)) ρ s ρ t
  emitted : t.builder.stms = s.builder.stms ++ [stm]
  types : t.builder.types = s.builder.types.insertAll (stm.pat.map fun p => (p.name, p.ty))

theorem add_copied (sound : Sound bound ρ s) {stm : Stm} (gives : Gives (build (Build.add stm)) s () t) :
    Copied bound κ ρ s t stm := by
  rw [gives_build, Build.add_apply] at gives
  obtain ⟨-, rfl⟩ := gives
  refine ⟨sound.same rfl rfl, ⟨.refl ρ, Nat.le_refl _, fun _ none _ _ => none, ?_, fun _ _ cast => cast⟩,
    rfl, rfl⟩
  exact Builder.frame_declared sound.reserved _ rfl rfl fun p mem => .inl (List.mem_map_of_mem mem)

theorem Copied.echoed {stm : Stm} {echo : Roles → List Stm → Prop} (copied : Copied bound κ ρ s t stm)
    (sub : ∀ p ∈ stm.pat, p.name ∈ on) (echoed : Echoed bound κ on ρ t u post echo) :
    Echoed bound κ on ρ s u post fun ρ'' new => ∃ rest, new = stm :: rest ∧ echo ρ'' rest := by
  obtain ⟨ρ', rest, grows, sound, emitted, known, echoes⟩ := echoed
  refine ⟨ρ', stm :: rest, (copied.grows.trans grows).mono ?_, sound, ?_, known, fun ρ'' under =>
    ⟨rest, rfl, echoes ρ'' under⟩⟩
  · exact List.forall_mem_append.mpr ⟨List.forall_mem_map.mpr sub, fun _ mem => mem⟩
  · rw [emitted, copied.emitted, List.append_assoc]
    rfl

/-- The only binder has its type. -/
theorem Copied.find {p : Param} {aux : Annotations} {e : Exp} (copied : Copied bound κ ρ s t ⟨[p], aux, e⟩) :
    t.builder.types.find? p.name = some p.ty := by
  simp [copied.types, NameTable.insertAll, NameTable.find_insert]

/-- The tangent is computed by what was asked for the operation. -/
abbrev BindsTangent (bound : Nat) (κ : Name → Kind) (aux : Annotations) (op : BasicOp) (t : ScalarType)
    (e : Build Exp) (reads : Roles → Prop) : Prop :=
  ∀ ρ s u q, Sound bound ρ s → (∀ ρ'', ρ.Under ρ'' → reads ρ'') → bound ≤ q.name.id →
    Gives (build do Build.add ⟨[q], aux, ← e⟩) s () u →
      Echoed bound κ [] ρ s u (fun _ => True) fun ρ'' new => ρ''.Derives q.name t op new

/-- An operation with a tangent. -/
theorem moving_echoed (reads : Build Exp → Roles → Prop) (sound : Sound bound ρ s) {rules : Rules}
    {p : Param} {aux : Annotations} {op : BasicOp} {t : ScalarType}
    (served : Served bound κ ρ s op.names) (unborn : Unborn bound ρ [p.name])
    (kind : κ p.name = p.ty.kind) (typed : p.ty.kind = .leaves t)
    (moves : Forward.isConstant op = false)
    (asks : ∀ ρ s e u, Sound bound ρ s → Served bound κ ρ s op.names →
      Gives (Forward.tangentExp rules ⟨[p], aux, .basic op⟩ op) s e u →
        Padded bound κ [] ρ s u (fun _ => True) (reads e))
    (binds : ∀ e, BindsTangent bound κ aux op t e (reads e))
    (gives : Gives (Forward.basicOp rules ⟨[p], aux, .basic op⟩ op) s () u) :
    Echoed bound κ [p.name] ρ s u (fun ρ' => Stands bound κ ρ' u p.name)
      fun ρ'' new => ρ''.Copies ⟨[p], aux, .basic op⟩ new := by
  have apart := Served.apart served unborn
  simp only [Forward.basicOp, moves, Bool.not_false, if_true, gives_bind, gives_single] at gives
  obtain ⟨⟨⟩, s₁, copied, q, _, ⟨same, rfl⟩, e, s₂, asked, tan, s₃, made, last⟩ := gives
  obtain rfl : p = q := by simpa using same
  have copied : Copied bound κ ρ s s₁ ⟨[p], aux, .basic op⟩ := add_copied sound copied
  have value : p.ty.isAcc = false := by
    cases acc : p.ty.isAcc with
    | false => rfl
    | true =>
      obtain ⟨ts, isHandle⟩ := Ty.kind_of_acc acc
      rw [isHandle] at typed
      cases typed
  have tangent : Padded bound κ [p.name] ρ s₁ s₃ (fun ρ₃ => Stands bound κ ρ₃ s₃ p.name ∧
      bound ≤ tan.name.id ∧ ∀ ρ'', ρ₃.Under ρ'' → reads e ρ'') fun ρ'' => ρ''.Tangent p tan := by
    refine Padded.mono (Padded.bind
      (asks ρ s₁ e s₂ copied.sound (Served.grow served copied.grows apart) asked).keep
      fun ρ₂ grows₂ sound₂ known => Padded.mono (newTangent_bound sound₂ (unborn.grow copied.sound grows₂
        (by simp)) kind made) (fun _ mem => mem) (fun ρ₃ grows₃ post => ?_) fun _ _ tangent => tangent)
      (by simp) (fun _ _ post => post) fun _ _ both => both.2
    have recorded := (grows₂.types.kept p.name (unborn _ (by simp)).2 (by simp)).trans copied.find
    have drawn := (declared_of_gives (fun _ => True) (Forward.declares_newTangent fun _ => trivial)
      sound₂.reserved made).2
    exact ⟨post.1.stands (.inr ⟨p.ty, recorded, value⟩), by simpa [value] using drawn,
      fun ρ'' under => known.2 ρ'' (grows₃.under.trans under)⟩
  refine (copied.echoed (by simp) (Echoed.bind tangent fun ρ₃ _ sound₃ post =>
    (binds e ρ₃ s₃ u tan sound₃ post.2.2 post.2.1 last).mono (fun _ mem => mem)
      (fun ρ₄ grows₄ _ => post.1.grow grows₄ (by simp)) fun _ _ _ echo => echo)).mono
    (by simp) (fun _ _ post => post) ?_
  rintro ρ'' _ under ⟨_, rfl, pads, more, rfl, ⟨padded, tangent⟩, derives⟩
  exact .moving (tangent.plain typed) (fun z mem => (served z mem).knows under)
    (fun mem => apart _ mem (by simp)) padded derives

/-! Copies, elements of arrays, and arithmetic. -/

theorem addFresh_echoed (sound : Sound bound ρ s) {q : Param} {aux : Annotations} {e : Exp}
    (fresh : bound ≤ q.name.id) (gives : Gives (build (Build.add ⟨[q], aux, e⟩)) s () u) :
    Echoed bound κ [] ρ s u (fun _ => True) fun _ new => new = [⟨[q], aux, e⟩] := by
  rw [gives_build, Build.add_apply] at gives
  obtain ⟨-, rfl⟩ := gives
  refine ⟨ρ, [_], ⟨.refl ρ, Nat.le_refl _, fun _ none _ _ => none, ?_, fun _ _ cast => cast⟩,
    sound.same rfl rfl, rfl, trivial, fun _ _ => rfl⟩
  exact Builder.frame_declared sound.reserved _ rfl rfl (by simpa using fresh)

theorem Pairs.mono {t : ScalarType} {x dx : Operand} (pair : ρ.Pairs t x dx) (under : ρ.Under ρ') :
    ρ'.Pairs t x dx := by
  cases pair with
  | const ty => exact .const ty
  | plain role => exact .plain (under _ _ role)
  | still role zero => exact .still (under _ _ role) (under _ _ zero)

theorem Pairs.drawn {t : ScalarType} {x dx : Operand} (pair : ρ.Pairs t x dx) (sound : Sound bound ρ s) :
    (∀ z ∈ x.names, z.id < s.builder.supply.next) ∧ ∀ z ∈ dx.names, z.id < s.builder.supply.next := by
  cases pair with
  | const ty => simp [Operand.names]
  | plain role =>
    simpa [Operand.names] using And.intro (sound.drawn role) (sound.drawn (sound.coherent _ _ _ role))
  | still role zero => simpa [Operand.names] using And.intro (sound.drawn role) (sound.drawn zero)

section

variable {rules : Rules} {p : Param} {aux : Annotations} {t : ScalarType}

theorem operand_echoed (sound : Sound bound ρ s) {x : Operand} (served : Served bound κ ρ s x.names)
    (unborn : Unborn bound ρ [p.name]) (kind : κ p.name = p.ty.kind) (typed : p.ty.kind = .leaves t)
    (same : x.kind κ = .leaves t)
    (gives : Gives (Forward.basicOp rules ⟨[p], aux, .basic (.operand x)⟩ (.operand x)) s () u) :
    Echoed bound κ [p.name] ρ s u (fun ρ' => Stands bound κ ρ' u p.name)
      fun ρ'' new => ρ''.Copies ⟨[p], aux, .basic (.operand x)⟩ new := by
  refine moving_echoed (fun e ρ'' => ∃ dx, e = pure (.basic (.operand dx)) ∧ ρ''.Pairs t x dx)
    sound served unborn kind typed rfl
    (fun ρ s e u sound served asked => ?_) (fun e ρ s u q sound reads fresh last => ?_) gives
  · simp only [Forward.tangentExp, gives_bind, gives_pure] at asked
    obtain ⟨dx, _, asked, rfl, rfl⟩ := asked
    exact (tangent_echoed sound served same asked).mono (fun _ mem => mem) (fun _ _ post => post)
      fun ρ'' _ pair => ⟨dx, rfl, pair⟩
  · obtain ⟨dx, rfl, pair⟩ := reads ρ (.refl ρ)
    refine (addFresh_echoed sound fresh last).mono (fun _ mem => mem) (fun _ _ post => post) ?_
    rintro ρ'' _ under rfl
    exact .operand (pair.mono under)

theorem index_echoed (sound : Sound bound ρ s) {a : Name} {slice : List DimIndex}
    (served : Served bound κ ρ s (BasicOp.index a slice).names) (unborn : Unborn bound ρ [p.name])
    (kind : κ p.name = p.ty.kind) (typed : p.ty.kind = .leaves t) (same : κ a = .leaves t)
    (gives : Gives (Forward.basicOp rules ⟨[p], aux, .basic (.index a slice)⟩ (.index a slice)) s () u) :
    Echoed bound κ [p.name] ρ s u (fun ρ' => Stands bound κ ρ' u p.name)
      fun ρ'' new => ρ''.Copies ⟨[p], aux, .basic (.index a slice)⟩ new := by
  refine moving_echoed
    (fun e ρ'' => ∃ da, e = pure (.basic (.index da slice)) ∧ ρ''.Pairs t (.var a) (.var da))
    sound served unborn kind typed rfl
    (fun ρ s e u sound served asked => ?_) (fun e ρ s u q sound reads fresh last => ?_) gives
  · simp only [Forward.tangentExp, gives_bind, gives_pure] at asked
    obtain ⟨da, _, asked, rfl, rfl⟩ := asked
    exact (companion_echoed sound (served a (by simp [BasicOp.names])) same asked).mono
      (fun _ mem => mem) (fun _ _ post => post) fun ρ'' _ pair => ⟨da, rfl, pair⟩
  · obtain ⟨da, rfl, pair⟩ := reads ρ (.refl ρ)
    refine (addFresh_echoed sound fresh last).mono (fun _ mem => mem) (fun _ _ post => post) ?_
    rintro ρ'' _ under rfl
    exact .index (pair.mono under)

/-- The partials of sums, differences and products are arithmetic. -/
theorem arithmetic_partials {op : IntBinary} {w : IntWidth} {f g : Formula}
    (supported : op ∈ [IntBinary.add, .sub, .mul]) (left : f.Arithmetic) (right : g.Arithmetic) :
    (op.partials w f g).1.Arithmetic ∧ (op.partials w f g).2.Arithmetic := by
  simp only [List.mem_cons, List.not_mem_nil, or_false] at supported
  rcases supported with rfl | rfl | rfl
  · exact ⟨.lit _, .lit _⟩
  · exact ⟨.lit _, .binary _ (.lit _) (.lit _)⟩
  · exact ⟨right, left⟩

theorem names_partials {op : IntBinary} {w : IntWidth} {f g : Formula}
    (supported : op ∈ [IntBinary.add, .sub, .mul]) :
    ∀ z ∈ (op.partials w f g).1.names ++ (op.partials w f g).2.names, z ∈ f.names ++ g.names := by
  simp only [List.mem_cons, List.not_mem_nil, or_false] at supported
  rcases supported with rfl | rfl | rfl
  · simp [IntBinary.partials, Formula.one, Formula.names]
  · simp [IntBinary.partials, Formula.one, Formula.neg, Formula.sub, Formula.zero, Formula.names]
  · simp [IntBinary.partials, or_comm]

theorem binary_echoed (sound : Sound bound ρ s) {op : IntBinary} {w : IntWidth} {x y : Operand}
    (served : Served bound κ ρ s (BasicOp.binary (.int op w) x y).names)
    (unborn : Unborn bound ρ [p.name])
    (kind : κ p.name = p.ty.kind) (typed : p.ty.kind = .leaves (.int w))
    (supported : op ∈ [IntBinary.add, .sub, .mul])
    (left : x.kind κ = .leaves (.int w)) (right : y.kind κ = .leaves (.int w))
    (gives : Gives (Forward.basicOp .standard ⟨[p], aux, .basic (.binary (.int op w) x y)⟩
      (.binary (.int op w) x y)) s () u) :
    Echoed bound κ [p.name] ρ s u (fun ρ' => Stands bound κ ρ' u p.name)
      fun ρ'' new => ρ''.Copies ⟨[p], aux, .basic (.binary (.int op w) x y)⟩ new := by
  have ofOperand := Formula.arithmetic_ofOperand (.int w)
  refine moving_echoed
    (fun e ρ'' => ∃ dx dy, e = Build.expOf (Dual.binaryFormula (.int op w)
      (.ofOperand (.int w) x) (.ofOperand (.int w) y) (.ofOperand (.int w) dx) (.ofOperand (.int w) dy)) ∧
      ρ''.Pairs (.int w) x dx ∧ ρ''.Pairs (.int w) y dy)
    sound served unborn kind typed rfl
    (fun ρ s e u sound served asked => ?_) (fun e ρ s u q sound reads fresh last => ?_) gives
  · obtain ⟨inLeft, inRight⟩ : Served bound κ ρ s x.names ∧ Served bound κ ρ s y.names := by
      simpa [Served, BasicOp.names, operandNames, or_imp, forall_and] using served
    simp only [Forward.tangentExp, gives_bind, gives_pure] at asked
    obtain ⟨dx, v, first, dy, _, second, rfl, rfl⟩ := asked
    exact ((tangent_echoed sound inLeft left first).bind fun ρ₁ grows sound₁ _ =>
      tangent_echoed sound₁ (Served.grow inRight grows (by simp)) right second).mono (by simp)
      (fun _ _ post => post) fun ρ'' _ pairs => ⟨dx, dy, rfl, pairs⟩
  · obtain ⟨dx, dy, rfl, pairLeft, pairRight⟩ := reads ρ (.refl ρ)
    have partials := arithmetic_partials (w := w) supported (ofOperand x) (ofOperand y)
    refine (bindFormula_echoed sound (.binary _ (ofOperand dx) partials.1)
      (.binary _ (ofOperand dy) partials.2) fresh (fun z mem => ?_) last).mono (fun _ mem => mem)
      (fun _ _ post => post) fun ρ'' new under runs =>
        .binary (pairLeft.mono under) (pairRight.mono under) runs
    obtain ⟨ofX, ofDx⟩ := pairLeft.drawn sound
    obtain ⟨ofY, ofDy⟩ := pairRight.drawn sound
    have ofPartials := names_partials (w := w) (f := .ofOperand (.int w) x) (g := .ofOperand (.int w) y)
      supported z
    simp only [Formula.names, names_ofOperand, List.mem_append] at mem ofPartials
    rcases mem with (ofLeft | inPartial) | ofRight | inPartial
    · exact ofDx z ofLeft
    · exact (ofPartials (.inl inPartial)).elim (ofX z) (ofY z)
    · exact ofDy z ofRight
    · exact (ofPartials (.inr inPartial)).elim (ofX z) (ofY z)

theorem compare_echoed (sound : Sound bound ρ s) {op : Comparison} {x y : Operand}
    (served : Served bound κ ρ s (operandNames [x, y])) (unborn : Unborn bound ρ [p.name])
    (kind : κ p.name = p.ty.kind) (typed : p.ty = .scalar .bool)
    (gives : Gives (Forward.basicOp rules ⟨[p], aux, .basic (.compare op x y)⟩ (.compare op x y)) s () u) :
    Echoed bound κ [p.name] ρ s u (fun ρ' => Stands bound κ ρ' u p.name)
      fun ρ'' new => ρ''.Copies ⟨[p], aux, .basic (.compare op x y)⟩ new := by
  simp only [Forward.basicOp, Forward.isConstant, Bool.not_true, Bool.false_eq_true, if_false, gives_bind,
    gives_pure] at gives
  obtain ⟨⟨⟩, _, copied, -, rfl⟩ := gives
  have copied : Copied bound κ ρ s _ ⟨[p], aux, .basic (.compare op x y)⟩ := add_copied sound copied
  have still := still_echoed (κ := κ) (t := .bool) copied.sound unborn (by rw [kind, typed]; rfl)
    (by rw [copied.find, typed])
  refine (copied.echoed (by simp) still).mono (fun _ mem => mem) (fun _ _ stands => stands) ?_
  rintro ρ'' _ under ⟨_, rfl, rfl, role⟩
  exact .still role fun z mem => (served z mem).knows under

end

/-! Statements that bind a widened pattern. -/

/-- After pads, a statement is emitted for the pattern. -/
theorem Padded.emit {ps : List Param} {aux : Annotations} {e : Exp} {stm : Stm}
    (padded : Padded bound κ on ρ s t (fun ρ' => Pattern bound κ ρ' t ps stm.pat) holds)
    (sub : ∀ p ∈ ps, p.name ∈ on) (gives : Gives (build (Build.add stm)) t () u)
    (echoes : ∀ ρ'', ρ.Under ρ'' → holds ρ'' →
      e.Echoes ρ'' (ps.map (·.name)) stm.exp (stm.pat.map (·.name))) :
    Echoed bound κ on ρ s u (fun ρ' => Served bound κ ρ' u (ps.map (·.name)))
      fun ρ'' new => Stm.Echoes ρ'' ⟨ps, aux, e⟩ new := by
  refine (Echoed.bind padded fun ρ' grows sound pattern => pattern.emit sound gives).mono ?_
    (fun _ _ post => post) ?_
  · exact List.forall_mem_append.mpr ⟨fun _ mem => mem, List.forall_mem_map.mpr sub⟩
  · rintro ρ'' _ under ⟨pads, _, rfl, ⟨padding, known⟩, rfl⟩
    obtain ⟨pat, aux', e'⟩ := stm
    exact .doubled padding (echoes ρ'' under known)

theorem updateAcc_echoed (sound : Sound bound ρ s) {p : Param} {aux : Annotations} {acc : Name}
    {position values : List Operand} {ts : List ScalarType}
    (served : Served bound κ ρ s (BasicOp.updateAcc acc position values).names)
    (unborn : Unborn bound ρ [p.name]) (kind : κ p.name = p.ty.kind) (typed : p.ty.kind = .handle ts)
    (same : κ acc = .handle ts) (positions : ∀ x ∈ position, x.kind κ = .leaves (.int .i64))
    (kinds : values.map (Operand.kind κ) = ts.map .leaves)
    (gives : Gives (Forward.updateAcc ⟨[p], aux, .basic (.updateAcc acc position values)⟩ acc position
      values) s () u) :
    Echoed bound κ [p.name] ρ s u (fun ρ' => Served bound κ ρ' u [p.name])
      fun ρ'' new => Stm.Echoes ρ'' ⟨[p], aux, .basic (.updateAcc acc position values)⟩ new := by
  obtain ⟨inAcc, inPosition, inValues⟩ : Stands bound κ ρ s acc ∧
      Served bound κ ρ s (operandNames position) ∧ Served bound κ ρ s (operandNames values) := by
    simpa [Served, BasicOp.names, or_imp, forall_and] using served
  have apart := Served.apart served unborn
  simp only [Forward.updateAcc, gives_bind] at gives
  obtain ⟨wide, s₁, bundled, tans, s₂, asked, acc', s₃, handed, last⟩ := gives
  have unbornPat : Unborn bound ρ ([p].map (·.name)) := unborn
  have pattern := bundleBinders_echoed sound unbornPat (by simp) (by simpa [Kinded] using kind) bundled
  have widened : Padded bound κ [p.name] ρ s s₂ (fun ρ' => Pattern bound κ ρ' s₂ [p] wide ∧
      s₂ = s₃ ∧ acc' = acc) fun ρ'' => (ρ''.Binds [p.name] [p.ty.kind] ∧
        wide.map (·.name) = [p.name].flatMap ρ''.echo) ∧ ρ''.Tangents ts values tans := by
    refine (Padded.bind pattern fun ρ₁ grows₁ sound₁ post => (tangents_echoed sound₁
      (Served.grow inValues grows₁ fun x mem => apart x (by simp [BasicOp.names, mem])) kinds asked).mono
      (fun _ mem => mem) (fun ρ₂ grows₂ _ => ⟨post.1.grow grows₂, ?_⟩) fun _ _ known => known).mono
      (by simp) (fun _ _ post => post) fun _ _ known => known
    have stands := (inAcc.grow grows₁ (apart acc (by simp [BasicOp.names]))).grow grows₂ (by simp)
    exact companion_handle stands same handed
  obtain ⟨rfl, rfl⟩ : s₂ = s₃ ∧ acc' = acc := by
    obtain ⟨_, _, _, _, _, ⟨_, known⟩, _⟩ := widened
    exact known
  refine (widened.mono (fun _ mem => mem) (fun _ _ post => post.1) fun _ _ known => known).emit (by simp)
    last fun ρ'' under known => ?_
  obtain ⟨⟨binds, named⟩, written⟩ := known
  rw [typed] at binds
  cases binds with
  | cons holds _ =>
    cases holds with
    | handle role =>
      rw [named, List.flatMap_singleton, echo_handle role]
      refine .updateAcc (under _ _ (inAcc.handle same).1) role (fun x mem => ?_) written
      have inside : Served bound κ ρ s x.names := fun z ofX =>
        inPosition z (List.mem_flatMap.mpr ⟨x, mem, ofX⟩)
      cases x with
      | const c => exact .const (Kind.leaves.inj (positions _ mem))
      | var z => exact (inside z (by simp [Operand.names])).leaf (positions _ mem) under

end Roles

end Cotangent
