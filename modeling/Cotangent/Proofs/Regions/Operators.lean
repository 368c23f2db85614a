import Cotangent.Proofs.Regions.Parts
/-!
Bodies, operators and the inputs of regions. An action prepares such a part if it gives roles to the
names that the part binds and emits only pads on the way, from wherever the names of its scope stand.
-/
namespace Cotangent

open Outline Diff

namespace Roles

variable {α β : Type} {bound : Nat} {κ : Name → Kind} {scope wider on on' : List Name}
  {ρ ρ' ρ'' : Roles} {s t u v : DiffState} {holds holds' : Roles → Prop}

/-- The action prepares a part of a statement. -/
def Prepares (bound : Nat) (κ : Name → Kind) (scope on : List Name) (act : Diff α)
    (prepared : α → Roles → Prop) : Prop :=
  ∀ ρ s a t, Sound bound ρ s → Served bound κ ρ s scope → Unborn bound ρ on → Gives act s a t →
    Padded bound κ on ρ s t (fun _ => True) (prepared a)

theorem Prepares.mono {act : Diff α} {prepared prepared' : α → Roles → Prop}
    (prepares : Prepares bound κ scope on act prepared) (sub : ∀ x ∈ scope, x ∈ wider)
    (weaker : ∀ a ρ, prepared a ρ → prepared' a ρ) : Prepares bound κ wider on act prepared' :=
  fun ρ s a t sound served unborn gives =>
    (prepares ρ s a t sound (fun x mem => served x (sub x mem)) unborn gives).mono (fun _ mem => mem)
      (fun _ _ post => post) fun ρ'' _ => weaker a ρ''

theorem Prepares.within {act : Diff α} {prepared : α → Roles → Prop}
    (prepares : Prepares bound κ scope on act prepared) :
    Prepares bound κ scope on (within act) prepared := by
  intro ρ s a t sound served unborn gives
  obtain ⟨u, inner, rfl⟩ := (gives_within ..).mp gives
  exact Echoed.within (prepares ρ s a u sound served unborn inner) sound

/-- The rest of an action still finds its scope, and its own names unbound. -/
theorem Prepares.rest {act : Diff α} {prepared : α → Roles → Prop}
    (prepares : Prepares bound κ scope on' act prepared) (sound : Sound bound ρ s)
    (served : Served bound κ ρ s scope) (unborn : Unborn bound ρ (on ++ on'))
    (apart : ∀ x ∈ on', x ∉ on) (grows : Grows bound κ on ρ s ρ' t) (sound' : Sound bound ρ' t)
    {a : α} (gives : Gives act t a u) :
    Padded bound κ on' ρ' t u (fun _ => True) (prepared a) := by
  have before : Unborn bound ρ on := fun x mem => unborn x (List.mem_append_left _ mem)
  have later : Unborn bound ρ on' := fun x mem => unborn x (List.mem_append_right _ mem)
  exact prepares ρ' t a u sound' (Served.grow served grows (Served.apart served before))
    (later.grow sound grows apart) gives

theorem Prepares.bind {act : Diff α} {f : α → Diff β} {first : α → Roles → Prop}
    {second : α → β → Roles → Prop} (prepares : Prepares bound κ scope on act first)
    (more : ∀ a, Prepares bound κ scope on' (f a) (second a)) (apart : ∀ x ∈ on', x ∉ on) :
    Prepares bound κ scope (on ++ on') (act >>= f) fun b ρ => ∃ a, first a ρ ∧ second a b ρ := by
  intro ρ s b u sound served unborn gives
  obtain ⟨a, t, here, there⟩ := (gives_bind ..).mp gives
  refine Padded.mono (Padded.bind (prepares ρ s a t sound served
    (fun x mem => unborn x (List.mem_append_left _ mem)) here) fun ρ' grows sound' _ =>
      (more a).rest sound served unborn apart grows sound' there) (fun _ mem => mem)
    (fun _ _ post => post) fun ρ'' _ both => ⟨a, both⟩

theorem prepares_pure {a : α} {prepared : α → Roles → Prop} (known : ∀ ρ, prepared a ρ) :
    Prepares bound κ scope [] (pure a) prepared := by
  intro ρ s b t sound _ _ gives
  obtain ⟨rfl, rfl⟩ := (gives_pure ..).mp gives
  exact padded_refl sound trivial fun ρ'' _ => known ρ''

theorem Prepares.map {act : Diff α} {f : α → β} {prepared : α → Roles → Prop}
    (prepares : Prepares bound κ scope on act prepared) :
    Prepares bound κ scope on (do return f (← act)) fun b ρ => ∃ a, prepared a ρ ∧ b = f a := by
  intro ρ s b t sound served unborn gives
  simp only [gives_bind, gives_pure] at gives
  obtain ⟨a, _, inner, rfl, rfl⟩ := gives
  exact (prepares ρ s a _ sound served unborn inner).mono (fun _ mem => mem) (fun _ _ post => post)
    fun ρ'' _ known => ⟨a, known, rfl⟩

/-! Bodies. -/

/-- The statements are carried on to where the results stand. -/
def Carries (bound : Nat) (κ : Name → Kind) (scope on : List Name) (act : Diff Unit)
    (results : List Name) (echo : Roles → List Stm → Prop) : Prop :=
  ∀ ρ s t, Sound bound ρ s → Served bound κ ρ s scope → Unborn bound ρ on → Gives act s () t →
    Echoed bound κ on ρ s t (fun ρ' => Served bound κ ρ' t results) echo

abbrev CarriesStms (bound : Nat) (κ : Name → Kind) (scope on : List Name) (act : Diff Unit) (b : Body) :
    Prop :=
  Carries bound κ scope on act (operandNames b.result) fun ρ new => StmsEcho ρ b.stms new

abbrev PreparesBody (bound : Nat) (κ : Name → Kind) (scope on : List Name) (act : Diff Body) (b : Body)
    (layout : Arrangement) (ks : List Kind) : Prop :=
  Prepares bound κ scope on act fun b' ρ => b.Echoes ρ layout ks b'

/-- Results are laid out by an action that follows the statements. -/
theorem bodyOf_prepares {stms : Diff Unit} {results : Diff (List Operand)} {b : Body}
    {layout : Arrangement} {ks : List Kind} (inside : CarriesStms bound κ scope on stms b)
    (laid : ∀ t v ρ' ys, Sound bound ρ' t → Served bound κ ρ' t (operandNames b.result) →
      Gives results t ys v →
        Padded bound κ [] ρ' t v (fun _ => True) fun ρ'' => layout.Holds ρ'' ks b.result ys) :
    PreparesBody bound κ scope on (bodyOf stms results) b layout ks := by
  intro ρ s b' u sound served unborn gives
  refine bodyOf_echoed gives (fun t first => inside ρ _ t (sound.same rfl rfl) ?_ unborn first) laid
  exact fun x mem => ⟨(served x mem).small, (served x mem).cast⟩

theorem bundledBody_prepares {stms : Diff Unit} {b : Body} {ks : List Kind}
    (inside : CarriesStms bound κ scope on stms b) (kinds : b.result.map (Operand.kind κ) = ks) :
    PreparesBody bound κ scope on (Forward.bundledBody stms b.result) b .bundled ks :=
  bodyOf_prepares inside fun _ _ _ _ sound served gives => bundleOperands_echoed sound served kinds gives

/-- Results are followed by their tangents as a group. -/
theorem groupedBody_prepares {stms : Diff Unit} {b : Body} {ts : List ScalarType}
    (inside : CarriesStms bound κ scope on stms b)
    (kinds : b.result.map (Operand.kind κ) = ts.map .leaves) :
    PreparesBody bound κ scope on
      (bodyOf stms do return b.result ++ (← Forward.tangents b.result)) b .grouped (ts.map .leaves) := by
  refine bodyOf_prepares inside fun t v ρ' ys sound served gives => ?_
  simp only [gives_bind, gives_pure] at gives
  obtain ⟨dxs, _, asked, rfl, rfl⟩ := gives
  exact (tangents_echoed sound served kinds asked).mono (by simp) (fun _ _ post => post)
    fun ρ'' _ pairs => ⟨ts, dxs, rfl, pairs, rfl⟩

/-- A part in the scope of names that were bound for it. -/
theorem Binding.inside {xs : List Name} (binding : Binding bound κ xs ρ s t holds)
    {act : Diff α} {prepared : α → Roles → Prop}
    (prepares : Prepares bound κ (xs ++ scope) on act prepared) (sound : Sound bound ρ s)
    (served : Served bound κ ρ s scope) (unborn : Unborn bound ρ (xs ++ on))
    (distinct : (xs ++ on).Nodup) {a : α} (gives : Gives act t a u) :
    Padded bound κ (xs ++ on) ρ s u (fun _ => True) fun ρ'' => holds ρ'' ∧ prepared a ρ'' := by
  have before : Unborn bound ρ xs := fun x mem => unborn x (List.mem_append_left _ mem)
  have later : Unborn bound ρ on := fun x mem => unborn x (List.mem_append_right _ mem)
  have apart := (List.nodup_append.mp distinct).2.2
  refine Padded.bind binding fun ρ' grows sound' known =>
    prepares ρ' t a u sound' (List.forall_mem_append.mpr ⟨known, ?_⟩)
      (later.grow sound grows fun x mem other => apart x other x mem rfl) gives
  exact Served.grow served grows (Served.apart served before)

/-! Operators. -/

/-- The parameters of an operator are the position, the old values and the new ones. -/
theorem operator_params {ps : List Param} {rank : Nat} {ts : List ScalarType}
    (kinds : ps.map (·.ty.kind) =
      (List.replicate rank (ScalarType.int .i64) ++ ts ++ ts).map Kind.leaves) :
    ∃ is olds news, ps = is ++ olds ++ news ∧ is.length = rank ∧
      olds.map (·.ty.kind) = ts.map .leaves ∧ news.map (·.ty.kind) = ts.map .leaves := by
  simp only [List.map_append] at kinds
  obtain ⟨front, news, rfl, front', news'⟩ := List.map_eq_append_iff.mp kinds
  obtain ⟨is, olds, rfl, is', olds'⟩ := List.map_eq_append_iff.mp front'
  exact ⟨is, olds, news, rfl, by simpa using congrArg List.length is', olds', news'⟩

theorem operatorParams_binding (sound : Sound bound ρ s) {is olds news oldTans newTans : List Param}
    {ts : List ScalarType} (unborn : Unborn bound ρ ((is ++ olds ++ news).map (·.name)))
    (distinct : ((is ++ olds ++ news).map (·.name)).Nodup) (kinded : Kinded κ (is ++ olds ++ news))
    (positions : ∀ p ∈ is, p.ty = .scalar (.int .i64)) (olds' : olds.map (·.ty.kind) = ts.map .leaves)
    (news' : news.map (·.ty.kind) = ts.map .leaves)
    (declared : Gives (build (Build.declareParams (is ++ olds ++ news))) s () t)
    (forOlds : Gives (olds.mapM Forward.newTangent) t oldTans u)
    (forNews : Gives (news.mapM Forward.newTangent) u newTans v) :
    Binding bound κ ((is ++ olds ++ news).map (·.name)) ρ s v fun ρ'' =>
      ρ''.OperatorNames ts ((is ++ olds ++ news).map (·.name))
        ((is ++ olds ++ oldTans ++ news ++ newTans).map (·.name)) := by
  have declared : Declared bound κ ρ s t (is ++ olds ++ news) := declareParams_declared sound declared
  have found := fun p mem => declared.find distinct (p := p) mem
  refine declared.binding (fun _ mem => List.mem_map_of_mem mem) ?_
  simp only [List.map_append] at unborn distinct ⊢
  obtain ⟨front, ofNews, newsApart⟩ := List.nodup_append.mp distinct
  obtain ⟨ofIs, ofOlds, oldsApart⟩ := List.nodup_append.mp front
  have forIs := stills_binding (κ := κ) (t := .int .i64) declared.sound
    (fun x mem => unborn x (by simp [mem])) ofIs
    (List.forall_mem_map.mpr fun p mem => by rw [kinded p (by simp [mem]), positions p mem]; rfl)
    (List.forall_mem_map.mpr fun p mem => by rw [found p (by simp [mem]), positions p mem])
  refine ((forIs.both (fun ρ₁ grows sound₁ => group_binding sound₁ (Unborn.grow
    (fun x mem => unborn x (by simp [mem])) declared.sound grows fun x mem other =>
      oldsApart x other x mem rfl) ofOlds (fun p mem => kinded p (by simp [mem]))
    (fun p mem => found p (by simp [mem])) forOlds) fun x mem other => oldsApart x mem x other rfl).both
    (fun ρ₂ grows sound₂ => group_binding sound₂ (Unborn.grow
      (fun x mem => unborn x (by simp [mem])) declared.sound grows fun x mem other =>
        newsApart x other x mem rfl) ofNews (fun p mem => kinded p (by simp [mem]))
    (fun p mem => (grows.types.kept _ (unborn p.name ?_).2 ?_).trans (found p (by simp [mem]))) forNews)
    fun x mem other => newsApart x mem x other rfl).mono ?_
  · exact List.mem_append_right _ (List.mem_map_of_mem mem)
  · exact fun other => newsApart _ other _ (List.mem_map_of_mem mem) rfl
  · rintro ρ'' - ⟨⟨still, oldsBind, oldsTan⟩, newsBind, newsTan⟩
    rw [oldsTan, newsTan]
    exact .mk still (olds' ▸ oldsBind) (news' ▸ newsBind)

theorem accOperator_prepares (stm : Stm) (ret : List Ty) {rank : Nat} {ps : List Param} {b : Body}
    {ts : List ScalarType} {stms : Diff Unit} (kinded : Kinded κ ps)
    (positions : ∀ p ∈ ps.take rank, p.ty = .scalar (.int .i64))
    (kinds : ps.map (·.ty.kind) =
      (List.replicate rank (ScalarType.int .i64) ++ ts ++ ts).map Kind.leaves)
    (distinct : (ps.map (·.name) ++ on).Nodup)
    (inside : CarriesStms bound κ (ps.map (·.name) ++ scope) on stms b)
    (results : b.result.map (Operand.kind κ) = ts.map .leaves) :
    Prepares bound κ scope (ps.map (·.name) ++ on) (Forward.accOperator stm rank ps stms b.result ret)
      fun op ρ => CombineEchoes ρ ts (some ⟨ps, b, ret⟩) (some op) := by
  obtain ⟨is, olds, news, rfl, rfl, olds', news'⟩ := operator_params kinds
  have sizes : olds.length = ts.length ∧ news.length = ts.length :=
    ⟨by simpa using congrArg List.length olds', by simpa using congrArg List.length news'⟩
  have values : (is ++ olds ++ news).drop is.length = olds ++ news := by
    rw [List.append_assoc, List.drop_left]
  have half : (olds ++ news).length / 2 = olds.length := by
    rw [List.length_append]
    omega
  have position : (is ++ olds ++ news).take is.length = is := by
    rw [List.append_assoc, List.take_left]
  rw [position] at positions
  rw [Forward.accOperator, if_neg (by simp; omega)]
  refine Prepares.within fun ρ s op u sound served unborn gives => ?_
  simp only [values, half, position, List.take_left, List.drop_left, gives_bind, gives_pure] at gives
  obtain ⟨⟨⟩, s₁, declared, oldTans, s₂, forOlds, newTans, s₃, forNews, b', _, inBody, rfl, rfl⟩ := gives
  have binding := operatorParams_binding sound (fun x mem => unborn x (List.mem_append_left _ mem))
    (List.nodup_append.mp distinct).1 kinded positions olds' news' declared forOlds forNews
  exact (binding.inside (groupedBody_prepares inside results) sound served unborn distinct inBody).mono
    (fun _ mem => mem) (fun _ _ post => post) fun ρ'' _ both => .some both.1 both.2

/-- Accumulators are bound alone. -/
theorem echo_handles {xs : List Name} {tss : List (List ScalarType)}
    (binds : ρ.Binds xs (tss.map .handle)) : xs.flatMap ρ.echo = xs := by
  induction tss generalizing xs with
  | nil =>
    cases binds
    rfl
  | cons ts tss ih =>
    cases binds with
    | cons here rest =>
      cases here with
      | handle role => simp [echo_handle role, ih rest]

/-- The lambda of a region. -/
theorem regionLambda_prepares {ps : List Param} {b : Body} {ret : List Ty} {ks : List Kind}
    {tss : List (List ScalarType)} {body : Diff Body} (kinded : Kinded κ ps)
    (handles : ps.map (·.ty.kind) = tss.map .handle) (distinct : (ps.map (·.name) ++ on).Nodup)
    (inside : PreparesBody bound κ (ps.map (·.name) ++ scope) on body b .bundled ks) :
    Prepares bound κ scope (ps.map (·.name) ++ on) (Forward.lambdaOf ps ret body) fun l ρ =>
      ρ.Binds (ps.map (·.name)) (tss.map .handle) ∧ l.params.map (·.name) = ps.map (·.name) ∧
        b.Echoes ρ .bundled ks l.body := by
  refine Prepares.within fun ρ s l u sound served unborn gives => ?_
  simp only [gives_bind, gives_pure] at gives
  obtain ⟨⟨⟩, s₁, declared, wide, s₂, forParams, b', _, inBody, rfl, rfl⟩ := gives
  have binding := params_binding sound (fun x mem => unborn x (List.mem_append_left _ mem))
    (List.nodup_append.mp distinct).1 kinded declared forParams
  refine (binding.inside inside sound served unborn distinct inBody).mono (fun _ mem => mem)
    (fun _ _ post => post) ?_
  rintro ρ'' - ⟨⟨binds, named⟩, echoes⟩
  rw [handles] at binds
  exact ⟨binds, named.trans (echo_handles binds), echoes⟩

/-! Inputs of regions. -/

theorem accArrays_prepares {arrays : List Name} (known : ∀ a ∈ arrays, a ∈ scope)
    (kinds : ∀ a ∈ arrays, ∃ t, κ a = .leaves t) :
    Prepares bound κ scope [] (Forward.accArrays arrays) fun all ρ => ∃ tans, all = arrays ++ tans ∧
      ρ.Tangents (arrays.filterMap fun a => (κ a).leaf?) (arrays.map .var) (tans.map .var) := by
  intro ρ s all t sound served _ gives
  simp only [Forward.accArrays, gives_bind, gives_pure] at gives
  obtain ⟨tans, _, asked, rfl, rfl⟩ := gives
  exact (companions_echoed sound (fun a mem => served a (known a mem)) kinds asked).mono (by simp)
    (fun _ _ post => post) fun ρ'' _ paired => ⟨tans, rfl, paired⟩

/-- One more input of a region. -/
theorem input_prepares (shape : List Operand) {arrays : List Name} (combine : Option Combiner)
    {op : Diff (Option Combiner)} {inputs : List AccInput} {rest : Diff (List AccInput)}
    (known : ∀ a ∈ arrays, a ∈ scope) (kinds : ∀ a ∈ arrays, ∃ t, κ a = .leaves t)
    (combined : Prepares bound κ scope on op fun c ρ => CombineEchoes ρ
      (arrays.filterMap fun a => (κ a).leaf?) (combine.map (·.op)) (c.map (·.op)))
    (others : Prepares bound κ scope on' rest fun inputs' ρ =>
      AccInputsEcho ρ (inputs.map (·.leaves κ)) inputs inputs')
    (apart : ∀ x ∈ on', x ∉ on) :
    Prepares bound κ scope (on ++ on') (do
        let arrays ← Forward.accArrays arrays
        let c ← op
        return ⟨shape, arrays, c⟩ :: (← rest)) fun inputs' ρ =>
      AccInputsEcho ρ ((⟨shape, arrays, combine⟩ :: inputs : List AccInput).map (·.leaves κ))
        (⟨shape, arrays, combine⟩ :: inputs) inputs' := by
  refine ((accArrays_prepares known kinds).bind (fun all => combined.bind (fun c => others.map) apart)
    (by simp)).mono (fun _ mem => mem) ?_
  rintro _ ρ ⟨_, ⟨tans, rfl, paired⟩, c, echoes, inputs', rest, rfl⟩
  exact .cons paired echoes rest

/-- The operator of an input, with zeros beside its neutral elements. -/
theorem combiner_prepares (neutral : List Operand) {l : Lambda} {operator : Diff Lambda}
    {ts : List ScalarType} (inside : Prepares bound κ scope on operator fun op ρ =>
      CombineEchoes ρ ts (some l) (some op)) :
    Prepares bound κ scope on (do
        let op ← operator
        let zeros ← neutral.mapM zeroOperand
        return some ⟨op, neutral ++ zeros⟩ : Diff (Option Combiner)) fun c ρ =>
      CombineEchoes ρ ts (some l) (c.map (·.op)) := by
  have zeros : Prepares bound κ scope [] (neutral.mapM zeroOperand) fun _ _ => True :=
    fun ρ s _ t sound _ _ gives => zeroOperands_echoed sound gives
  have both := inside.bind (fun op => zeros.map (f := fun zs => some (Combiner.mk op (neutral ++ zs))))
    (by simp)
  rw [List.append_nil] at both
  refine both.mono (fun _ mem => mem) ?_
  rintro _ ρ ⟨op, echoes, _, -, rfl⟩
  exact echoes

end Roles

end Cotangent
