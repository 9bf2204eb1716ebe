import ValueFlow.Value.Basic
import ValueFlow.Expr.Render

/-!
# The text of values

How values are shown. The parts of a set are shown in the order of their texts.
-/

namespace ValueFlow

/-- Doubles that are values have names for what is not a number. -/
def Constant.layout : Double.Layout :=
  { Literal.layout with nan := "NaN", infinity := "Infinity" }

/-- A two-byte integer is shown as a character if it is one. -/
def Constant.text : Constant → String
  | .null => "null"
  | .bool b => if b then "true" else "false"
  | .int n width =>
    if width = charWidth ∧ 0 ≤ n ∧ n ≤ 0x10FFFF then Text.quotedCodes [n.toNat] else toString n
  | .double x => layout.write x
  | .entry e => e.qualifiedName
  | .typeLiteral name => name ++ ".class"

def Reference.render : Reference → String
  | .node e => if e.isNode then e.render else "???"
  | .text _ => "???"

namespace Value

def listed (texts : List String) : String :=
  ", ".intercalate (texts.mergeSort fun a b => decide (a ≤ b))

def dependingText (texts : List String) : String :=
  " (depending on: " ++ listed texts ++ ")"

mutual

def text : Value → Except Fault String
  | .const c => .ok c.text
  | .dependent v D => do
    let t ← v.text
    return t ++ dependingText (← texts D)
  | .var x v D _ => do
    let t ← v.text
    let ds ← texts D
    let t := if ds.isEmpty then t else t ++ dependingText ds
    return "(var " ++ orElse x.name "<unnamed>" ++ " = " ++ t ++ ")"
  | .external r => .ok ("external " ++ r.render)
  | .phi members => do return "Phi(" ++ listed (← texts members) ++ ")"
  | .nothing => .ok "Nothing"
  | .undetermined => .ok "Undetermined"
  | .foreign id => .error (.unexpected (Foreign.object id).label)

def texts : List Value → Except Fault (List String)
  | [] => .ok []
  | v :: vs => do
    let t ← v.text
    return t :: (← texts vs)

end

end Value

end ValueFlow
