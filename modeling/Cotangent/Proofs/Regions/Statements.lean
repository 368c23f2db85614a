import Cotangent.Proofs.Regions.Operations
/-!
Branches, loops and regions. Each is emitted once its parts are prepared and its pattern is widened.
-/
namespace Cotangent

open Outline Diff

namespace Roles

variable {α : Type} {bound : Nat} {κ : Name → Kind} {scope on on' xs : List Name} {ρ ρ' ρ'' : Roles}
  {s t u v : DiffState} {x : Name} {post holds : Roles → Prop}

/-- A part is prepared after the pattern was. -/
theorem Padded.part {ps wide : List Param}
    (padded : Padded bound κ on ρ s t
      (fun ρ' => Pattern bound κ ρ' t ps wide ∧ Served bound κ ρ' t xs) holds)
    {act : Diff α} {prepared : α → Roles → Prop} (prepares : Prepares bound κ xs on' act prepared)
    (sound : Sound bound ρ s) (unborn : Unborn bound ρ on') (apart : ∀ x ∈ on', x ∉ on) {a : α}
    (gives : Gives act t a u) :
    Padded bound κ (on ++ on') ρ s u (fun ρ' => Pattern bound κ ρ' u ps wide)
      fun ρ'' => holds ρ'' ∧ prepared a ρ'' :=
  Padded.bind padded fun ρ₁ grows₁ sound₁ post =>
    (prepares ρ₁ t a u sound₁ post.2 (unborn.grow sound grows₁ apart) gives).mono (fun _ mem => mem)
      (fun _ grows₂ _ => post.1.grow grows₂) fun _ _ known => known

theorem branch_echoed (sound : Sound bound ρ s) {pat : List Param} {aux : Annotations} {cond : Operand}
    {yes no : Body} {yes' no' : Diff Body} {ret : List Ty} {sort : BranchSort} {onYes onNo : List Name}
    (served : Served bound κ ρ s scope) (known : ∀ z ∈ cond.names, z ∈ scope)
    (unborn : Unborn bound ρ (onYes ++ (onNo ++ pat.map (·.name))))
    (distinct : (onYes ++ (onNo ++ pat.map (·.name))).Nodup) (kinded : Kinded κ pat)
    (inYes : PreparesBody bound κ scope onYes yes' yes .bundled (pat.map (·.ty.kind)))
    (inNo : PreparesBody bound κ scope onNo no' no .bundled (pat.map (·.ty.kind)))
    (gives : Gives (Forward.branch ⟨pat, aux, .branch cond yes no ret sort⟩ cond yes' no' ret sort) s () u) :
    Echoed bound κ (onYes ++ (onNo ++ pat.map (·.name))) ρ s u
      (fun ρ' => Served bound κ ρ' u (pat.map (·.name)))
      fun ρ'' new => Stm.Echoes ρ'' ⟨pat, aux, .branch cond yes no ret sort⟩ new := by
  simp only [Forward.branch, gives_bind] at gives
  obtain ⟨yes₁, s₁, forYes, no₁, s₂, forNo, wide, s₃, forPat, last⟩ := gives
  obtain ⟨-, ofRest, apartYes⟩ := List.nodup_append.mp distinct
  obtain ⟨-, ofPat, apartNo⟩ := List.nodup_append.mp ofRest
  have unbornYes : Unborn bound ρ onYes := fun x mem => unborn x (by simp [mem])
  have unbornNo : Unborn bound ρ onNo := fun x mem => unborn x (by simp [mem])
  have unbornPat : Unborn bound ρ (pat.map (·.name)) := fun x mem =>
    unborn x (List.mem_append_right _ (List.mem_append_right _ mem))
  have widened := Padded.bind (inYes.within ρ s yes₁ s₁ sound served unbornYes forYes)
    fun ρ₁ grows₁ sound₁ _ => Padded.bind (inNo.within.rest sound served
      (List.forall_mem_append.mpr ⟨unbornYes, unbornNo⟩)
      (fun x mem other => apartYes x other x (by simp [mem]) rfl) grows₁ sound₁ forNo)
      fun ρ₂ grows₂ sound₂ _ => Padded.mono (bundleBinders_echoed sound₂ (Unborn.grow
        (Unborn.grow unbornPat sound grows₁ fun x mem other =>
          apartYes x other x (List.mem_append_right _ mem) rfl) sound₁ grows₂ fun x mem other =>
          apartNo x other x mem rfl) ofPat kinded forPat) (fun _ mem => mem)
        (fun _ _ post => post.1) fun _ _ known => known
  refine widened.emit (fun p mem => ?_) last fun ρ'' under parts => ?_
  · exact List.mem_append_right _ (List.mem_append_right _ (List.mem_map_of_mem mem))
  · obtain ⟨onYes, onNo, binds, named⟩ := parts
    exact .branch (fun z mem => (served z (known z mem)).knows under) binds named onYes onNo

theorem counter_binding (sound : Sound bound ρ s) {counter : Name} {t : ScalarType}
    (unborn : Unborn bound ρ [counter]) (kind : κ counter = .leaves t)
    (gives : Gives (build (Build.declare counter (.scalar t))) s () u) :
    Binding bound κ [counter] ρ s u fun ρ'' => ρ'' counter = some (.still t) := by
  have declared : Declared bound κ ρ s u [⟨counter, .scalar t⟩] := declareParams_declared sound gives
  exact declared.binding (by simp) (still_binding declared.sound unborn kind
    (declared.find (p := ⟨counter, .scalar t⟩) (by simp) (by simp)))

/-- The names of a for loop, in the order in which they get their roles. -/
abbrev loopNames (merge : List (Param × Operand)) (counter : Name) (rows : List (Param × Name)) :
    List Name :=
  merge.map (·.1.name) ++ rows.map (·.1.name) ++ [counter]

/-- What binds the names of a for loop. -/
theorem loop_binding (sound : Sound bound ρ s) {merge merge' : List (Param × Operand)} {counter : Name}
    {w : IntWidth} {rows rows' : List (Param × Name)}
    (served : Served bound κ ρ s (operandNames (merge.map (·.2)) ++ rows.map (·.2)))
    (unborn : Unborn bound ρ (loopNames merge counter rows))
    (distinct : (loopNames merge counter rows).Nodup) (counts : κ counter = .leaves (.int w))
    (merging : ∀ m ∈ merge, κ m.1.name = m.1.ty.kind ∧ m.2.kind κ = m.1.ty.kind)
    (rowing : ∀ r ∈ rows, ∃ t, κ r.1.name = .leaves t ∧ r.1.ty.kind = .leaves t ∧ κ r.2 = .leaves t)
    (forMerge : Gives (Forward.bundleMerge merge) s merge' t)
    (forRows : Gives (Forward.bundleRows rows) t rows' u)
    (forCounter : Gives (build (Build.declare counter (.scalar (.int w)))) u () v) :
    Binding bound κ (loopNames merge counter rows) ρ s v fun ρ'' =>
      ((ρ''.Binds (merge.map (·.1.name)) (merge.map (·.1.ty.kind)) ∧
        merge'.map (·.1.name) = (merge.map (·.1.name)).flatMap ρ''.echo ∧
        ρ''.Bundles (merge.map (·.1.ty.kind)) (merge.map (·.2)) (merge'.map (·.2))) ∧
        ρ''.Rows rows rows') ∧ ρ'' counter = some (.still (.int w)) := by
  obtain ⟨inInits, inRows⟩ := List.forall_mem_append.mp served
  obtain ⟨front, -, apartCounter⟩ := List.nodup_append.mp distinct
  obtain ⟨ofMerge, ofRows, apartRows⟩ := List.nodup_append.mp front
  have unbornMerge : Unborn bound ρ (merge.map (·.1.name)) := fun x mem =>
    unborn x (List.mem_append_left _ (List.mem_append_left _ mem))
  have unbornRows : Unborn bound ρ (rows.map (·.1.name)) := fun x mem =>
    unborn x (List.mem_append_left _ (List.mem_append_right _ mem))
  have unbornCounter : Unborn bound ρ [counter] := fun x mem => unborn x (List.mem_append_right _ mem)
  refine ((bundleMerge_binding sound unbornMerge ofMerge merging inInits forMerge).both
    (fun ρ₁ grows₁ sound₁ => bundleRows_binding sound₁ (unbornRows.grow sound grows₁ fun x mem other =>
      apartRows x other x mem rfl) ofRows rowing (Served.grow inRows grows₁
      (Served.apart inRows unbornMerge)) forRows) fun x mem other => apartRows x mem x other rfl).both
    (fun ρ₂ grows₂ sound₂ => counter_binding sound₂ (unbornCounter.grow sound grows₂ fun x mem other =>
      apartCounter x other x mem rfl) counts forCounter) fun x mem other => apartCounter x mem x other rfl

theorem loop_echoed (sound : Sound bound ρ s) {pat : List Param} {aux : Annotations}
    {merge : List (Param × Operand)} {counter : Name} {w : IntWidth} {limit : Operand}
    {rows : List (Param × Name)} {b : Body} {body : Diff Body}
    (served : Served bound κ ρ s scope) (known : ∀ z ∈ limit.names, z ∈ scope)
    (read : ∀ z ∈ operandNames (merge.map (·.2)) ++ rows.map (·.2), z ∈ scope)
    (unborn : Unborn bound ρ (loopNames merge counter rows ++ pat.map (·.name) ++ on))
    (distinct : (loopNames merge counter rows ++ pat.map (·.name) ++ on).Nodup) (kinded : Kinded κ pat)
    (counts : κ counter = .leaves (.int w))
    (merging : ∀ m ∈ merge, κ m.1.name = m.1.ty.kind ∧ m.2.kind κ = m.1.ty.kind)
    (rowing : ∀ r ∈ rows, ∃ t, κ r.1.name = .leaves t ∧ r.1.ty.kind = .leaves t ∧ κ r.2 = .leaves t)
    (kinds : pat.map (·.ty.kind) = merge.map (·.1.ty.kind))
    (inside : PreparesBody bound κ (loopNames merge counter rows ++ scope) on body b .bundled
      (merge.map (·.1.ty.kind)))
    (gives : Gives (Forward.loop ⟨pat, aux, .loop merge (.forBelow counter w limit rows) b⟩ merge
      (.forBelow counter w limit rows) body) s () u) :
    Echoed bound κ (loopNames merge counter rows ++ pat.map (·.name) ++ on) ρ s u
      (fun ρ' => Served bound κ ρ' u (pat.map (·.name)))
      fun ρ'' new => Stm.Echoes ρ'' ⟨pat, aux, .loop merge (.forBelow counter w limit rows) b⟩ new := by
  simp only [Forward.loop, gives_bind, gives_pure] at gives
  obtain ⟨merge', s₁, forMerge, rows', s₂, forRows, ⟨⟩, s₃, forCounter, _, _, ⟨rfl, rfl⟩, wide, s₄, forPat,
    b', s₅, forBody, last⟩ := gives
  obtain ⟨front, -, apartBody⟩ := List.nodup_append.mp distinct
  obtain ⟨ofLoop, ofPat, apartPat⟩ := List.nodup_append.mp front
  have unbornLoop : Unborn bound ρ (loopNames merge counter rows) := fun x mem =>
    unborn x (List.mem_append_left _ (List.mem_append_left _ mem))
  have unbornPat : Unborn bound ρ (pat.map (·.name)) := fun x mem =>
    unborn x (List.mem_append_left _ (List.mem_append_right _ mem))
  have unbornBody : Unborn bound ρ on := fun x mem => unborn x (List.mem_append_right _ mem)
  have binding := loop_binding sound (fun z mem => served z (read z mem)) unbornLoop ofLoop counts merging
    rowing forMerge forRows forCounter
  have widened : Padded bound κ (loopNames merge counter rows ++ pat.map (·.name)) ρ s s₄
      (fun ρ' => Pattern bound κ ρ' s₄ pat wide ∧
        Served bound κ ρ' s₄ (loopNames merge counter rows ++ scope)) _ :=
    Padded.bind binding fun ρ₁ grows₁ sound₁ bound₁ => Padded.mono (bundleBinders_echoed sound₁
      (unbornPat.grow sound grows₁ fun x mem other => apartPat x other x mem rfl) ofPat kinded forPat)
      (fun _ mem => mem) (fun _ grows₂ post => ⟨post.1, Served.grow (List.forall_mem_append.mpr
        ⟨bound₁, Served.grow served grows₁ (Served.apart served unbornLoop)⟩) grows₂ ?_⟩)
      fun _ _ known => known
  -- The roles of the loop stay when its body ends, and so do those that the body gave.
  · refine (widened.part inside.within sound unbornBody (fun x mem other => apartBody x other x mem rfl)
      forBody).emit (fun p mem => ?_) last fun ρ'' under parts => ?_
    · exact List.mem_append_left _ (List.mem_append_right _ (List.mem_map_of_mem mem))
    · obtain ⟨⟨⟨⟨⟨params, params', inits⟩, rowed⟩, counts⟩, binds, named⟩, echoes⟩ := parts
      exact .loop (fun z mem => (served z (known z mem)).knows under) (kinds ▸ binds) named params inits
        params' counts rowed echoes
  · exact List.forall_mem_append.mpr ⟨fun x mem other => apartPat x mem x other rfl,
      Served.apart served unbornPat⟩

theorem withAcc_echoed (sound : Sound bound ρ s) {pat : List Param} {aux : Annotations}
    {inputs : List AccInput} {ps : List Param} {b : Body} {ret : List Ty} {bundled : Diff (List AccInput)}
    {lam : Diff Lambda} {rest : List Kind} {onInputs : List Name} (served : Served bound κ ρ s scope)
    (unborn : Unborn bound ρ (onInputs ++ pat.map (·.name) ++ on))
    (distinct : (onInputs ++ pat.map (·.name) ++ on).Nodup) (kinded : Kinded κ pat)
    (kinds : pat.map (·.ty.kind) = inputs.flatMap (fun i => (i.leaves κ).map .leaves) ++ rest)
    (opened : Prepares bound κ scope onInputs bundled fun inputs' ρ =>
      AccInputsEcho ρ (inputs.map (·.leaves κ)) inputs inputs')
    (inside : Prepares bound κ scope on lam fun l ρ =>
      ρ.Binds (ps.map (·.name)) ((inputs.map (·.leaves κ)).map .handle) ∧
        l.params.map (·.name) = ps.map (·.name) ∧
        b.Echoes ρ .bundled ((inputs.map (·.leaves κ)).map .handle ++ rest) l.body)
    (gives : Gives (Forward.withAcc ⟨pat, aux, .withAcc inputs ⟨ps, b, ret⟩⟩ inputs bundled lam) s () u) :
    Echoed bound κ (onInputs ++ pat.map (·.name) ++ on) ρ s u
      (fun ρ' => Served bound κ ρ' u (pat.map (·.name)))
      fun ρ'' new => Stm.Echoes ρ'' ⟨pat, aux, .withAcc inputs ⟨ps, b, ret⟩⟩ new := by
  rw [Forward.withAcc] at gives
  split at gives
  · simp at gives
  · simp only [gives_bind] at gives
    obtain ⟨inputs', s₁, forInputs, wide, s₂, forPat, ⟨ps', b', ret'⟩, s₃, forLam, last⟩ := gives
    obtain ⟨front, -, apartLam⟩ := List.nodup_append.mp distinct
    obtain ⟨-, ofPat, apartPat⟩ := List.nodup_append.mp front
    have unbornInputs : Unborn bound ρ onInputs := fun x mem =>
      unborn x (List.mem_append_left _ (List.mem_append_left _ mem))
    have unbornPat : Unborn bound ρ (pat.map (·.name)) := fun x mem =>
      unborn x (List.mem_append_left _ (List.mem_append_right _ mem))
    have unbornLam : Unborn bound ρ on := fun x mem => unborn x (List.mem_append_right _ mem)
    have widened : Padded bound κ (onInputs ++ pat.map (·.name)) ρ s s₂
        (fun ρ' => Pattern bound κ ρ' s₂ pat wide ∧ Served bound κ ρ' s₂ scope) _ :=
      Padded.bind (opened ρ s inputs' s₁ sound served unbornInputs forInputs) fun ρ₁ grows₁ sound₁ _ =>
        Padded.mono (regionPattern_echoed sound₁ inputs (unbornPat.grow sound grows₁ fun x mem other =>
          apartPat x other x mem rfl) ofPat kinded forPat) (fun _ mem => mem)
          (fun _ grows₂ pattern => ⟨pattern, Served.grow (Served.grow served grows₁
            (Served.apart served unbornInputs)) grows₂ (Served.apart served unbornPat)⟩)
          fun _ _ known => known
    refine (widened.part inside sound unbornLam (fun x mem other => apartLam x other x mem rfl)
      forLam).emit (fun p mem => ?_) last fun ρ'' under parts => ?_
    · exact List.mem_append_left _ (List.mem_append_right _ (List.mem_map_of_mem mem))
    · obtain ⟨⟨echoes, binds, named⟩, params, params', body⟩ := parts
      refine .withAcc echoes params params' body ?_ named
      have flat : (inputs.map (·.leaves κ)).flatten.map Kind.leaves =
          inputs.flatMap fun i => (i.leaves κ).map .leaves := by
        simp [List.flatMap, List.map_flatten, Function.comp_def]
      rw [flat, ← kinds]
      exact binds

end Roles

end Cotangent
