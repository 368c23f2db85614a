import Mathlib.Data.List.Forall2
import Cotangent.Proofs.Program.ScalarCode
/-!
Well-typed code over the integers of one width and the bools: copies, unary and binary operations, and
conditionals. Every operand has the kind that its operator expects, and every pattern and every list of
results has the types that are declared for it.
-/
namespace Cotangent

/-- The type of the integers of a width, or that of the bools. -/
def Ty.Within (w : IntWidth) (t : Ty) : Prop := t = .scalar (.int w) ∨ t = .scalar .bool

/-- The types of names, with those of further parameters. -/
def NameTable.declare (types : NameTable Ty) (ps : List Param) : NameTable Ty :=
  types.insertAll (ps.map fun p => (p.name, p.ty))

def Operand.HasType (types : NameTable Ty) (t : Ty) : Operand → Prop
  | .const v => t = .scalar v.ty
  | .var x => types.find? x = some t

def BasicOp.Returns (types : NameTable Ty) (t : Ty) : BasicOp → Prop
  | .operand x => x.HasType types t
  | .unary op x => t = .scalar op.ty ∧ x.HasType types t
  | .binary op x y => t = .scalar op.ty ∧ x.HasType types t ∧ y.HasType types t
  | _ => False

mutual

/-- The expression is well-typed integer code and returns values of the types. -/
def Exp.Returns (w : IntWidth) (types : NameTable Ty) (ts : List Ty) : Exp → Prop
  | .basic op => ∃ t, ts = [t] ∧ op.Returns types t
  | .branch cond yes no ret _ =>
    cond.HasType types (.scalar .bool) ∧ ret = ts ∧ yes.Returns w types ts ∧ no.Returns w types ts
  | .apply .. => False
  | .loop .. => False
  | .withAcc .. => False
  | .screma .. => False
  | .stream .. => False
  | .hist .. => False
  | .scatter .. => False

def Stm.IntegerCode (w : IntWidth) (types : NameTable Ty) : Stm → Prop
  | ⟨pat, _, e⟩ => (∀ p ∈ pat, p.ty.Within w) ∧ e.Returns w types (pat.map (·.ty))

def StmsIntegerCode (w : IntWidth) (types : NameTable Ty) : List Stm → Prop
  | [] => True
  | s :: ss => s.IntegerCode w types ∧ StmsIntegerCode w (types.declare s.pat) ss

def Body.Returns (w : IntWidth) (types : NameTable Ty) (ts : List Ty) : Body → Prop
  | ⟨ss, result⟩ =>
    StmsIntegerCode w types ss ∧
      List.Forall₂ (Operand.HasType (types.declare (ss.flatMap (·.pat)))) ts result

end

structure Lambda.IntegerCode (w : IntWidth) (l : Lambda) : Prop where
  params : ∀ p ∈ l.params, p.ty.Within w
  ret : ∀ t ∈ l.ret, t.Within w
  body : l.body.Returns w (.declare .empty l.params) l.ret

variable {w : IntWidth} {types : NameTable Ty}

theorem Ty.Within.isScalar {t : Ty} (within : t.Within w) : t.IsScalar := by
  rcases within with rfl | rfl
  · exact ⟨_, rfl⟩
  · exact ⟨_, rfl⟩

theorem Ty.Within.not_cert {k : ScalarType} (within : (Ty.scalar k).Within w) : k ≠ .cert := by
  rintro rfl
  simp [Ty.Within] at within

mutual

theorem scalarCode_of_integerStms (ss : List Stm) {types : NameTable Ty}
    (code : StmsIntegerCode w types ss) : StmsScalarCode ss := by
  cases ss with
  | nil => trivial
  | cons s ss =>
    obtain ⟨pat, aux, e⟩ := s
    obtain ⟨⟨pattern, returns⟩, rest⟩ := code
    refine ⟨⟨fun p mem => (pattern p mem).isScalar, ?_⟩, scalarCode_of_integerStms ss rest⟩
    cases e with
    | basic op =>
      obtain ⟨t, -, returns⟩ := returns
      cases op <;> trivial
    | branch cond yes no ret sort =>
      obtain ⟨-, rfl, inYes, inNo⟩ := returns
      refine ⟨scalarCode_of_integerBody yes inYes, scalarCode_of_integerBody no inNo, ?_⟩
      simpa using fun p mem => (pattern p mem).isScalar
    | _ => exact absurd returns (by simp [Exp.Returns])

theorem scalarCode_of_integerBody (b : Body) {types : NameTable Ty} {ts : List Ty}
    (returns : b.Returns w types ts) : b.ScalarCode := by
  obtain ⟨ss, result⟩ := b
  exact scalarCode_of_integerStms ss returns.1

end

theorem Lambda.IntegerCode.scalarCode {l : Lambda} (code : l.IntegerCode w) : l.ScalarCode where
  params p mem := (code.params p mem).isScalar
  body := scalarCode_of_integerBody l.body code.body
  ret t mem := (code.ret t mem).isScalar

end Cotangent
