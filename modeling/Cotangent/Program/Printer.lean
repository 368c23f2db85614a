import Cotangent.Program.Basic
import Cotangent.Scalar.Printer
import Cotangent.Text.Quoted
/-!
Program listings. Names are written `x0`, `x1`, and so on. A body stands between braces with one
statement to a line; the lines of a nested body are not indented further.
-/
namespace Cotangent

def commaSeparated (items : List String) : String := String.intercalate ", " items

def Name.text (x : Name) : String := "x" ++ toString x.id

def Operand.text : Operand → String
  | .const v => v.text
  | .var x => x.text

def operandsText (xs : List Operand) : String := commaSeparated (xs.map Operand.text)

def namesText (xs : List Name) : String := commaSeparated (xs.map Name.text)

def shapeText (shape : List Operand) : String :=
  String.join (shape.map fun d => "[" ++ d.text ++ "]")

def uniqueMark (unique : Bool) : String := if unique then "*" else ""

mutual

def Ty.text : Ty → String
  | .scalar t => t.text
  | .array elem shape unique => uniqueMark unique ++ shapeText shape ++ elem.text
  | .acc token shape elems unique =>
    uniqueMark unique ++ "acc(" ++ token.text ++ ", " ++ shapeText shape ++ ", (" ++
      commaSeparated (tyTexts elems) ++ "))"

def tyTexts : List Ty → List String
  | [] => []
  | t :: ts => t.text :: tyTexts ts

end

def typesText (ts : List Ty) : String := commaSeparated (tyTexts ts)

def Param.text (p : Param) : String := p.name.text ++ ": " ++ p.ty.text

def paramsText (ps : List Param) : String := commaSeparated (ps.map Param.text)

def DimIndex.text : DimIndex → String
  | .fix i => i.text
  | .slice start len stride => start.text ++ ":+" ++ len.text ++ "*" ++ stride.text

def sliceText (slice : List DimIndex) : String := commaSeparated (slice.map DimIndex.text)

def permText (perm : List Nat) : String := "[" ++ commaSeparated (perm.map toString) ++ "]"

def BasicOp.text : BasicOp → String
  | .operand x => x.text
  | .arrayLit elems ty => "[" ++ operandsText elems ++ "]: []" ++ ty.text
  | .unary op x => op.tagged ++ "(" ++ x.text ++ ")"
  | .binary op x y => op.tagged ++ "(" ++ x.text ++ ", " ++ y.text ++ ")"
  | .compare op x y => op.tagged ++ "(" ++ x.text ++ ", " ++ y.text ++ ")"
  | .convert op x => op.tagged ++ "(" ++ x.text ++ ")"
  | .index array slice => array.text ++ "[" ++ sliceText slice ++ "]"
  | .update array slice value =>
    array.text ++ " with [" ++ sliceText slice ++ "] = " ++ value.text
  | .concat dim first rest width =>
    "concat@" ++ toString dim ++ "(" ++ namesText (first :: rest) ++ "): [" ++ width.text ++ "]"
  | .copy array => "copy(" ++ array.text ++ ")"
  | .manifest perm array => "manifest(" ++ permText perm ++ ", " ++ array.text ++ ")"
  | .reshape shape array => "reshape(" ++ shapeText shape ++ ", " ++ array.text ++ ")"
  | .rearrange perm array => "rearrange(" ++ permText perm ++ ", " ++ array.text ++ ")"
  | .rotate offsets array => "rotate((" ++ operandsText offsets ++ "), " ++ array.text ++ ")"
  | .iota count start step w =>
    "iota" ++ toString w.bits ++ "(" ++ operandsText [count, start, step] ++ ")"
  | .replicate shape value => "replicate(" ++ shapeText shape ++ ", " ++ value.text ++ ")"
  | .scratch elem shape =>
    "scratch(" ++ commaSeparated (elem.text :: shape.map Operand.text) ++ ")"
  | .assert cond msg => "assert(" ++ cond.text ++ ", " ++ Quoted.quote msg ++ ")"
  | .updateAcc acc position values =>
    "update_acc(" ++ acc.text ++ ", (" ++ operandsText position ++ "), (" ++
      operandsText values ++ "))"

def LoopForm.text : LoopForm → String
  | .whileHolds cond => "while " ++ cond.text
  | .forBelow counter _ bound arrays =>
    "for " ++ counter.text ++ " < " ++ bound.text ++
      String.join (arrays.map fun a => ", " ++ a.1.text ++ " in " ++ a.2.text)

def mergeText (merge : List (Param × Operand)) : String :=
  commaSeparated (merge.map fun m => m.1.text ++ " = " ++ m.2.text)

def ScatterDest.text (d : ScatterDest) : String :=
  ", (" ++ shapeText d.shape ++ ", " ++ toString d.count ++ ", " ++ d.array.text ++ ")"

def certsText (certs : List Name) : String :=
  if certs.isEmpty then "" else "<" ++ namesText certs ++ "> "

def ChunkOrder.text : ChunkOrder → String
  | .inOrder => "InOrder"
  | .anyOrder => "Disorder"

mutual

def Exp.text : Exp → String
  | .basic op => op.text
  | .apply func args _ => func ++ "(" ++ operandsText args ++ ")"
  | .branch cond yes no _ _ =>
    "if " ++ cond.text ++ " then " ++ yes.text ++ " else " ++ no.text
  | .loop merge form body =>
    "loop (" ++ mergeText merge ++ ") " ++ form.text ++ " do " ++ body.text
  | .withAcc inputs lam => "with_acc(" ++ accInputsText inputs ++ lam.text ++ ")"
  | .screma width arrays scans reduces map =>
    "screma(" ++ width.text ++ ", (" ++ namesText arrays ++ ")" ++ scansText scans ++
      reducesText reduces ++ ", " ++ map.text ++ ")"
  | .stream width arrays form inits lam =>
    "stream(" ++ width.text ++ ", (" ++ namesText arrays ++ "), " ++ form.text ++ ", (" ++
      operandsText inits ++ "), " ++ lam.text ++ ")"
  | .hist width ops bucket arrays =>
    "hist(" ++ width.text ++ histogramsText ops ++ ", " ++ bucket.text ++ ", (" ++
      namesText arrays ++ "))"
  | .scatter width lam arrays dests =>
    "scatter(" ++ width.text ++ ", " ++ lam.text ++ ", (" ++ namesText arrays ++ ")" ++
      String.join (dests.map ScatterDest.text) ++ ")"

def Stm.text : Stm → String
  | ⟨pat, aux, exp⟩ => "let (" ++ paramsText pat ++ ") = " ++ certsText aux.certs ++ exp.text

def Body.text : Body → String
  | ⟨stms, result⟩ =>
    "\x7b\n" ++ stmLines stms ++ "  in (" ++ operandsText result ++ ") \x7d"

def Lambda.text : Lambda → String
  | ⟨params, body, ret⟩ =>
    "\\(" ++ paramsText params ++ "): (" ++ typesText ret ++ ") -> " ++ body.text

def stmLines : List Stm → String
  | [] => ""
  | s :: ss => "  " ++ s.text ++ "\n" ++ stmLines ss

def Combiner.text : Combiner → String
  | ⟨op, neutral⟩ => op.text ++ ", (" ++ operandsText neutral ++ ")"

def scansText : List Combiner → String
  | [] => ""
  | c :: cs => ", scan(" ++ c.text ++ ")" ++ scansText cs

def reducesText : List Reduction → String
  | [] => ""
  | ⟨_, c⟩ :: rs => ", reduce(" ++ c.text ++ ")" ++ reducesText rs

def StreamForm.text : StreamForm → String
  | .sequential => "sequential"
  | .parallel order commutative op =>
    "parallel(" ++ order.text ++ ", " ++ toString commutative ++ ", " ++ op.text ++ ")"

def accInputsText : List AccInput → String
  | [] => ""
  | ⟨shape, arrays, none⟩ :: rest =>
    "(" ++ shapeText shape ++ ", (" ++ namesText arrays ++ ")), " ++ accInputsText rest
  | ⟨shape, arrays, some c⟩ :: rest =>
    "(" ++ shapeText shape ++ ", (" ++ namesText arrays ++ "), " ++ c.text ++ "), " ++
      accInputsText rest

def histogramsText : List Histogram → String
  | [] => ""
  | ⟨shape, race, dests, ⟨op, neutral⟩⟩ :: rest =>
    ", op(" ++ shapeText shape ++ ", " ++ race.text ++ ", (" ++ namesText dests ++ "), (" ++
      operandsText neutral ++ "), " ++ op.text ++ ")" ++ histogramsText rest

end

end Cotangent
