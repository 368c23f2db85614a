import Cotangent.Proofs.Scope.Validity
/-!
Code of accumulator regions: sums, differences and products of integers, comparisons, indexing, branches,
for loops, and regions with their updates. Its values are told apart by kind, which is what a type says
apart from its shape. Every name has one kind in all of a program, so a program is well kinded under an
assignment of kinds to names; nothing is asked of shapes.
-/
namespace Cotangent

/-- A value has leaves of one type of scalars. An accumulator is over arrays, each with leaves of its
    own type. -/
inductive Kind where
  | leaves (t : ScalarType)
  | handle (ts : List ScalarType)
  deriving DecidableEq, Repr

def Ty.kind : Ty → Kind
  | .scalar t => .leaves t
  | .array t _ _ => .leaves t
  | .acc _ _ elems _ => .handle (elems.filterMap Ty.elem?)

def Kind.leaf? : Kind → Option ScalarType
  | .leaves t => some t
  | .handle _ => none

def Operand.kind (κ : Name → Kind) : Operand → Kind
  | .const v => .leaves v.ty
  | .var x => κ x

/-- The names have the kinds of their declared types. -/
def Kinded (κ : Name → Kind) (ps : List Param) : Prop := ∀ p ∈ ps, κ p.name = p.ty.kind

/-- The types of the leaves of an input's arrays. -/
def AccInput.leaves (κ : Name → Kind) (i : AccInput) : List ScalarType :=
  i.arrays.filterMap fun a => (κ a).leaf?

/-- The operation makes a value of the type. -/
def BasicOp.RegionCode (κ : Name → Kind) (ty : Ty) : BasicOp → Prop
  | .operand x => ∃ t, x.kind κ = .leaves t ∧ ty.kind = .leaves t
  | .binary (.int op w) x y => op ∈ [IntBinary.add, .sub, .mul] ∧ x.kind κ = .leaves (.int w) ∧
      y.kind κ = .leaves (.int w) ∧ ty.kind = .leaves (.int w)
  | .compare _ _ _ => ty = .scalar .bool
  | .index array _ => ∃ t, κ array = .leaves t ∧ ty.kind = .leaves t
  | .updateAcc acc position values => ∃ ts, κ acc = .handle ts ∧ ty.kind = .handle ts ∧
      (∀ x ∈ position, x.kind κ = .leaves (.int .i64)) ∧
      values.map (Operand.kind κ) = ts.map .leaves
  | _ => False

mutual

/-- The expression makes values of the types. -/
def Exp.RegionCode (κ : Name → Kind) (types : List Ty) : Exp → Prop
  | .basic op => ∃ ty, types = [ty] ∧ op.RegionCode κ ty
  | .branch _ yes no _ _ =>
    yes.RegionCode κ (types.map Ty.kind) ∧ no.RegionCode κ (types.map Ty.kind)
  | .loop merge (.forBelow counter w _ rows) b =>
    κ counter = .leaves (.int w) ∧
      (∀ m ∈ merge, κ m.1.name = m.1.ty.kind ∧ m.2.kind κ = m.1.ty.kind) ∧
      (∀ r ∈ rows, ∃ t, κ r.1.name = .leaves t ∧ r.1.ty.kind = .leaves t ∧ κ r.2 = .leaves t) ∧
      types.map Ty.kind = merge.map (·.1.ty.kind) ∧ b.RegionCode κ (merge.map (·.1.ty.kind))
  | .withAcc inputs ⟨ps, b, _⟩ => ∃ rest, AccInputsCode κ inputs ∧ Kinded κ ps ∧
      ps.map (·.ty.kind) = inputs.map (.handle <| ·.leaves κ) ∧
      b.RegionCode κ (ps.map (·.ty.kind) ++ rest) ∧
      types.map Ty.kind = inputs.flatMap (fun i => (i.leaves κ).map .leaves) ++ rest
  | .loop _ (.whileHolds _) _ => False
  | .apply .. => False
  | .screma .. => False
  | .stream .. => False
  | .hist .. => False
  | .scatter .. => False

def Stm.RegionCode (κ : Name → Kind) : Stm → Prop
  | ⟨pat, _, e⟩ => Kinded κ pat ∧ e.RegionCode κ (pat.map (·.ty))

def StmsRegionCode (κ : Name → Kind) : List Stm → Prop
  | [] => True
  | s :: ss => s.RegionCode κ ∧ StmsRegionCode κ ss

/-- The results have the kinds. -/
def Body.RegionCode (κ : Name → Kind) (ks : List Kind) : Body → Prop
  | ⟨ss, result⟩ => StmsRegionCode κ ss ∧ result.map (Operand.kind κ) = ks

/-- An operator takes one integer for each dimension, and then the old values and the new ones. -/
def AccInputsCode (κ : Name → Kind) : List AccInput → Prop
  | [] => True
  | ⟨_, arrays, none⟩ :: rest =>
    (∀ a ∈ arrays, ∃ t, κ a = .leaves t) ∧ AccInputsCode κ rest
  | ⟨shape, arrays, some ⟨⟨ps, b, _⟩, _⟩⟩ :: rest =>
    let ts := arrays.filterMap fun a => (κ a).leaf?
    (∀ a ∈ arrays, ∃ t, κ a = .leaves t) ∧
      (Kinded κ ps ∧ (∀ p ∈ ps.take shape.length, p.ty = .scalar (.int .i64)) ∧
        ps.map (·.ty.kind) =
          (List.replicate shape.length (ScalarType.int .i64) ++ ts ++ ts).map .leaves ∧
        b.RegionCode κ (ts.map .leaves)) ∧
      AccInputsCode κ rest

end

/-- A lambda of such code. -/
structure Lambda.RegionCode (κ : Name → Kind) (l : Lambda) : Prop where
  params : Kinded κ l.params
  body : l.body.RegionCode κ (l.ret.map Ty.kind)

end Cotangent
