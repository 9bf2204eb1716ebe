import ValueFlow.Expr.Basic
import ValueFlow.Number.Layout

/-!
# Rendered expressions

An expression as one line of text that looks like its source.
-/

namespace ValueFlow

/-- Doubles in source have a decimal point or an exponent; from `10 ^ 16` on they have an exponent. -/
def Literal.layout : Double.Layout :=
  { positionalFrom := -4
    positionalBelow := 16
    exponentWidth := 2
    nan := "nan"
    infinity := "inf" }

def Literal.render (isChar : Bool) : Literal → String
  | .null => "null"
  | .bool b => if b then "true" else "false"
  | .int n => toString n
  | .double x => layout.write x
  | .text s => if isChar then "'" ++ s ++ "'" else "\"" ++ s ++ "\""
  | .unit => "()"

def orElse (s fallback : String) : String := if s = "" then fallback else s

namespace Expr

mutual

def render : Expr → String
  | .literal _ value isChar => value.render isChar
  | .classLiteral _ typeName => orElse (typeName.getD "") "<unresolved>" ++ ".class"
  | .ret _ none => "return"
  | .ret _ (some e) => "return " ++ e.render
  | .brk _ none => "break"
  | .brk _ (some label) => "break@" ++ label
  | .cont _ none => "continue"
  | .cont _ (some label) => "continue@" ++ label
  | .raise _ e => "throw " ++ renderOption e
  | .reference _ name _ => name
  | .qualified _ receiver selector access _ =>
    receiver.render ++ access.symbol ++ selector.render
  | .call _ callee args => callee ++ "(" ++ ", ".intercalate (renderAll args) ++ ")"
  | .binary _ left op right _ => left.render ++ " " ++ op.symbol ++ " " ++ right.render
  | .prefixed _ op operand _ => op.symbol ++ operand.render
  | .postfixed _ operand op _ => operand.render ++ op.symbol
  | .cond _ condition thenBranch elseBranch true =>
    "(" ++ condition.render ++ ") ? (" ++ renderOption thenBranch ++ ") : ("
      ++ renderOption elseBranch ++ ")"
  | .cond _ condition thenBranch elseBranch false =>
    "if (" ++ condition.render ++ ") " ++ renderOption thenBranch
      ++ (match elseBranch with
        | none => ""
        | some e => " else " ++ e.render)
  | .block _ body => "\x7b " ++ "; ".intercalate (renderAll body) ++ " \x7d"
  | .declare _ target none => "var " ++ target.name
  | .declare _ target (some e) => "var " ++ target.name ++ " = " ++ e.render
  | .paren _ inner => "(" ++ inner.render ++ ")"
  | .unmodelled _ description => orElse description "<opaque>"
  | .foreign .absent => "<noexpr>"
  | .foreign (.object _) => "???"

def renderOption : Option Expr → String
  | none => "<noexpr>"
  | some e => e.render

def renderAll : List Expr → List String
  | [] => []
  | e :: es => e.render :: renderAll es

end

end Expr

end ValueFlow
