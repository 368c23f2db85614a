import Mathlib.Data.List.Forall2
import Cotangent.Proofs.Derivative.Dual
import Cotangent.Proofs.Evaluation.Lowering
import Cotangent.Proofs.Regions.Code
/-!
What forward differentiation makes of code of accumulator regions. Each name of the emitted code has a
role: it stands for a name of the source, for the tangent of one, for a zero, or for nothing that lasts.
Statements echo a statement of the source if they bind the names of these roles and read the right ones:
a value is followed by its tangent, an accumulator is alone, and the arrays and the operator of an
accumulator come in groups.
-/
namespace Cotangent

open Run

/-- What a name of emitted code is for. A name of the source has a tangent, or does not change, or is an
    accumulator. -/
inductive Role where
  | plain (t : ScalarType) (tan : Name)
  | still (t : ScalarType)
  | handle (ts : List ScalarType)
  | tangent (x : Name)
  | zero (t : ScalarType)
  | scratch

/-- The roles given so far. -/
abbrev Roles := Name → Option Role

namespace Roles

variable (ρ : Roles)

/-- The name is bound to values of the kind, with its tangent if there is one. -/
inductive Holds : Name → Kind → Prop
  | plain {x c : Name} {t : ScalarType} (role : ρ x = some (.plain t c)) : Holds x (.leaves t)
  | handle {x : Name} {ts : List ScalarType} (role : ρ x = some (.handle ts)) : Holds x (.handle ts)

/-- The names that are bound for a name of the source. -/
def echo (x : Name) : List Name :=
  match ρ x with
  | some (.plain _ c) => [x, c]
  | _ => [x]

/-- The name of the tangent; a name without one is its own. -/
def tan (x : Name) : Name :=
  match ρ x with
  | some (.plain _ c) => c
  | _ => x

/-- The operand has leaves of the type. -/
inductive Leaf (t : ScalarType) : Operand → Prop
  | const {v : Scalar} (ty : v.ty = t) : Leaf t (.const v)
  | plain {x c : Name} (role : ρ x = some (.plain t c)) : Leaf t (.var x)
  | still {x : Name} (role : ρ x = some (.still t)) : Leaf t (.var x)

/-- The second operand is the tangent of the first. What does not change has a zero for it. -/
inductive Pairs (t : ScalarType) : Operand → Operand → Prop
  | const {v : Scalar} (ty : v.ty = t) : Pairs t (.const v) (.const (Scalar.zero v.ty))
  | plain {x c : Name} (role : ρ x = some (.plain t c)) : Pairs t (.var x) (.var c)
  | still {x z : Name} (role : ρ x = some (.still t)) (zero : ρ z = some (.zero t)) :
      Pairs t (.var x) (.var z)

/-- A name of the source. -/
inductive Knows (x : Name) : Prop
  | leaf {t : ScalarType} (leaf : ρ.Leaf t (.var x))
  | handle {ts : List ScalarType} (role : ρ x = some (.handle ts))

/-- Operands of these types and their tangents. -/
inductive Tangents : List ScalarType → List Operand → List Operand → Prop
  | nil : Tangents [] [] []
  | cons {t : ScalarType} {ts : List ScalarType} {x dx : Operand} {xs dxs : List Operand}
      (here : ρ.Pairs t x dx) (rest : Tangents ts xs dxs) : Tangents (t :: ts) (x :: xs) (dx :: dxs)

/-- Operands of these kinds, each followed by its tangent, an accumulator by nothing. -/
inductive Bundles : List Kind → List Operand → List Operand → Prop
  | nil : Bundles [] [] []
  | handle {h : Name} {ts : List ScalarType} {ks : List Kind} {xs ys : List Operand}
      (role : ρ h = some (.handle ts)) (rest : Bundles ks xs ys) :
      Bundles (.handle ts :: ks) (.var h :: xs) (.var h :: ys)
  | leaf {t : ScalarType} {x dx : Operand} {ks : List Kind} {xs ys : List Operand}
      (here : ρ.Pairs t x dx) (rest : Bundles ks xs ys) :
      Bundles (.leaves t :: ks) (x :: xs) (x :: dx :: ys)

/-- Names that are bound to values of these kinds. -/
abbrev Binds (names : List Name) (ks : List Kind) : Prop := List.Forall₂ ρ.Holds names ks

/-- A tangent is that of one name. -/
def Coherent : Prop := ∀ x t c, ρ x = some (.plain t c) → ρ c = some (.tangent x)

/-- Statements that bind zeros, or nothing of interest. -/
inductive Pads : Stm → Prop
  | zero {z : Name} {t : ScalarType} {ty : Ty} {aux : Annotations} (role : ρ z = some (.zero t)) :
      Pads ⟨[⟨z, ty⟩], aux, .basic (.operand (.const (Scalar.zero t)))⟩
  | scratch {z : Name} {ty : Ty} {aux : Annotations} {shape : List Operand} {v : Scalar}
      (role : ρ z = some .scratch) : Pads ⟨[⟨z, ty⟩], aux, .basic (.replicate shape (.const v))⟩

/-- The second store is the first with a value for the name, scratch apart. -/
structure Sets (c : Name) (w : Value) (σ τ : Store Scalar) : Prop where
  combiners : τ.combiners = σ.combiners
  here : τ.vars.find? c = some w
  kept : ∀ x r, ρ x = some r → r ≠ .scratch → x ≠ c → τ.vars.find? x = σ.vars.find? x

/-- The statements bind the name to the tangent of the operation. -/
inductive Derives (c : Name) : ScalarType → BasicOp → List Stm → Prop
  | operand {t : ScalarType} {x dx : Operand} {ty : Ty} {aux : Annotations} (pair : ρ.Pairs t x dx) :
      Derives c t (.operand x) [⟨[⟨c, ty⟩], aux, .basic (.operand dx)⟩]
  | index {t : ScalarType} {a da : Name} {slice : List DimIndex} {ty : Ty} {aux : Annotations}
      (pair : ρ.Pairs t (.var a) (.var da)) :
      Derives c t (.index a slice) [⟨[⟨c, ty⟩], aux, .basic (.index da slice)⟩]
  | binary {op : IntBinary} {w : IntWidth} {x y dx dy : Operand} {new : List Stm}
      (left : ρ.Pairs (.int w) x dx) (right : ρ.Pairs (.int w) y dy)
      (runs : ∀ fuel σ τ, Ends (stms fuel new) σ () τ →
        ∃ v, (Dual.binaryFormula (.int op w) (.ofOperand (.int w) x) (.ofOperand (.int w) y)
            (.ofOperand (.int w) dx) (.ofOperand (.int w) dy)).eval σ.reading = some v ∧
          ρ.Sets c (.scalar v) σ τ) :
      Derives c (.int w) (.binary (.int op w) x y) new

/-- An operation that is copied, with the statements for its tangent behind it. A comparison has none. -/
inductive Copies : Stm → List Stm → Prop
  | still {p : Param} {aux : Annotations} {op : Comparison} {x y : Operand}
      (role : ρ p.name = some (.still .bool)) (known : ∀ z ∈ operandNames [x, y], ρ.Knows z) :
      Copies ⟨[p], aux, .basic (.compare op x y)⟩ [⟨[p], aux, .basic (.compare op x y)⟩]
  | moving {p : Param} {aux : Annotations} {op : BasicOp} {t : ScalarType} {c : Name}
      {pads new : List Stm} (role : ρ p.name = some (.plain t c)) (known : ∀ z ∈ op.names, ρ.Knows z)
      (apart : p.name ∉ op.names) (padded : ∀ s ∈ pads, ρ.Pads s) (derives : ρ.Derives c t op new) :
      Copies ⟨[p], aux, .basic op⟩ (⟨[p], aux, .basic op⟩ :: (pads ++ new))

/-- Rows of a loop, each with that of the tangent. -/
inductive Rows : List (Param × Name) → List (Param × Name) → Prop
  | nil : Rows [] []
  | cons {p q : Param} {a da c : Name} {t : ScalarType} {rows rows' : List (Param × Name)}
      (role : ρ p.name = some (.plain t c)) (named : q.name = c)
      (source : ρ.Pairs t (.var a) (.var da)) (rest : Rows rows rows') :
      Rows ((p, a) :: rows) ((p, a) :: (q, da) :: rows')

/-- The names of a region's pattern: the arrays of each input and their tangents, then the rest. -/
def regionNames : List AccInput → List Name → List Name
  | [], xs => xs.flatMap ρ.echo
  | i :: inputs, xs =>
    let group := xs.take i.arrays.length
    group ++ group.map ρ.tan ++ regionNames inputs (xs.drop i.arrays.length)

/-- The names of the parameters of an operator: the position, then the old values and the new ones, each
    group with its tangents. -/
inductive OperatorNames (ts : List ScalarType) : List Name → List Name → Prop
  | mk {is xs ys : List Name} (positions : ∀ i ∈ is, ρ i = some (.still (.int .i64)))
      (olds : ρ.Binds xs (ts.map .leaves)) (news : ρ.Binds ys (ts.map .leaves)) :
      OperatorNames ts (is ++ xs ++ ys) (is ++ xs ++ xs.map ρ.tan ++ ys ++ ys.map ρ.tan)

end Roles

/-- How a list of results is laid out. -/
inductive Arrangement where
  | bundled | grouped

def Arrangement.Holds (ρ : Roles) (ks : List Kind) (xs ys : List Operand) : Arrangement → Prop
  | .bundled => ρ.Bundles ks xs ys
  | .grouped => ∃ ts dxs, ks = ts.map .leaves ∧ ρ.Tangents ts xs dxs ∧ ys = xs ++ dxs

mutual

/-- The second expression computes for its names what the first does for those of the source. -/
inductive Exp.Echoes (ρ : Roles) : Exp → List Name → Exp → List Name → Prop
  | updateAcc {acc h : Name} {ts : List ScalarType} {position values tans : List Operand}
      (role : ρ acc = some (.handle ts)) (bound : ρ h = some (.handle ts))
      (positions : ∀ x ∈ position, ρ.Leaf (.int .i64) x) (written : ρ.Tangents ts values tans) :
      Exp.Echoes ρ (.basic (.updateAcc acc position values)) [h]
        (.basic (.updateAcc acc position (values ++ tans))) [h]
  | branch {cond : Operand} {yes no yes' no' : Body} {ret ret' : List Ty} {sort : BranchSort}
      {ks : List Kind} {names names' : List Name} (known : ∀ z ∈ cond.names, ρ.Knows z)
      (bound : ρ.Binds names ks) (named : names' = names.flatMap ρ.echo)
      (onYes : yes.Echoes ρ .bundled ks yes') (onNo : no.Echoes ρ .bundled ks no') :
      Exp.Echoes ρ (.branch cond yes no ret sort) names (.branch cond yes' no' ret' sort) names'
  | loop {merge merge' : List (Param × Operand)} {counter : Name} {w : IntWidth} {limit : Operand}
      {rows rows' : List (Param × Name)} {b b' : Body} {ks : List Kind} {names names' : List Name}
      (known : ∀ z ∈ limit.names, ρ.Knows z) (bound : ρ.Binds names ks)
      (named : names' = names.flatMap ρ.echo) (params : ρ.Binds (merge.map (·.1.name)) ks)
      (inits : ρ.Bundles ks (merge.map (·.2)) (merge'.map (·.2)))
      (params' : merge'.map (·.1.name) = (merge.map (·.1.name)).flatMap ρ.echo)
      (counts : ρ counter = some (.still (.int w))) (rowed : ρ.Rows rows rows')
      (inside : b.Echoes ρ .bundled ks b') :
      Exp.Echoes ρ (.loop merge (.forBelow counter w limit rows) b) names
        (.loop merge' (.forBelow counter w limit rows') b') names'
  | withAcc {inputs inputs' : List AccInput} {ps ps' : List Param} {b b' : Body}
      {ret ret' : List Ty} {tss : List (List ScalarType)} {rest : List Kind}
      {names names' : List Name} (opened : AccInputsEcho ρ tss inputs inputs')
      (params : ρ.Binds (ps.map (·.name)) (tss.map .handle))
      (params' : ps'.map (·.name) = ps.map (·.name))
      (inside : b.Echoes ρ .bundled (tss.map .handle ++ rest) b')
      (bound : ρ.Binds names (tss.flatten.map .leaves ++ rest))
      (named : names' = ρ.regionNames inputs names) :
      Exp.Echoes ρ (.withAcc inputs ⟨ps, b, ret⟩) names (.withAcc inputs' ⟨ps', b', ret'⟩) names'

/-- The statements compute what the statement does, together with its tangents. -/
inductive Stm.Echoes (ρ : Roles) : Stm → List Stm → Prop
  | copied {s : Stm} {new : List Stm} (copies : ρ.Copies s new) : Stm.Echoes ρ s new
  | doubled {pat pat' : List Param} {aux aux' : Annotations} {e e' : Exp} {pads : List Stm}
      (padded : ∀ s ∈ pads, ρ.Pads s)
      (echoes : e.Echoes ρ (pat.map (·.name)) e' (pat'.map (·.name))) :
      Stm.Echoes ρ ⟨pat, aux, e⟩ (pads ++ [⟨pat', aux', e'⟩])

inductive StmsEcho (ρ : Roles) : List Stm → List Stm → Prop
  | nil : StmsEcho ρ [] []
  | cons {s : Stm} {ss here rest : List Stm} (first : s.Echoes ρ here) (others : StmsEcho ρ ss rest) :
      StmsEcho ρ (s :: ss) (here ++ rest)

/-- The results have the kinds and are laid out as asked. -/
inductive Body.Echoes (ρ : Roles) : Arrangement → List Kind → Body → Body → Prop
  | mk {layout : Arrangement} {ks : List Kind} {ss new pads : List Stm} {result result' : List Operand}
      (inside : StmsEcho ρ ss new) (padded : ∀ s ∈ pads, ρ.Pads s)
      (results : layout.Holds ρ ks result result') :
      Body.Echoes ρ layout ks ⟨ss, result⟩ ⟨new ++ pads, result'⟩

/-- Inputs with arrays of the types, each group followed by its tangents. -/
inductive AccInputsEcho (ρ : Roles) : List (List ScalarType) → List AccInput → List AccInput → Prop
  | nil : AccInputsEcho ρ [] [] []
  | cons {ts : List ScalarType} {tss : List (List ScalarType)} {shape shape' : List Operand}
      {arrays tans : List Name} {combine combine' : Option Combiner} {inputs inputs' : List AccInput}
      (paired : ρ.Tangents ts (arrays.map .var) (tans.map .var))
      (combined : CombineEchoes ρ ts (combine.map (·.op)) (combine'.map (·.op)))
      (rest : AccInputsEcho ρ tss inputs inputs') :
      AccInputsEcho ρ (ts :: tss) (⟨shape, arrays, combine⟩ :: inputs)
        (⟨shape', arrays ++ tans, combine'⟩ :: inputs')

/-- The operators of an accumulator of these types. -/
inductive CombineEchoes (ρ : Roles) : List ScalarType → Option Lambda → Option Lambda → Prop
  | none {ts : List ScalarType} : CombineEchoes ρ ts none none
  | some {ts : List ScalarType} {ps ps' : List Param} {b b' : Body} {ret ret' : List Ty}
      (params : ρ.OperatorNames ts (ps.map (·.name)) (ps'.map (·.name)))
      (inside : b.Echoes ρ .grouped (ts.map .leaves) b') :
      CombineEchoes ρ ts (some ⟨ps, b, ret⟩) (some ⟨ps', b', ret'⟩)

end

end Cotangent
