import ValueFlow.Expr.Basic
import ValueFlow.Number.Line

/-!
# Values

What an expression can evaluate to. Besides known constants there are values with provenance
(`dependent`, `var`), the result of something not evaluated (`external`), the join of several values
(`phi`), the result of a path that does not go on (`nothing`) and a value that is not computed
(`undetermined`). Dependencies and members are sets, kept in the order in which they came in.
-/

namespace ValueFlow

inductive Constant where
  | null
  | bool (b : Bool)
  /-- The width is the storage size in bytes, kept as it is given; characters have two. -/
  | int (n width : Int)
  | double (x : Double)
  | entry (e : EnumEntry)
  | typeLiteral (name : String)
  deriving DecidableEq

namespace Constant

def intWidth : Int := 8
def charWidth : Int := 2

/-- Numbers are the same by value and width, NaN is the same as itself and both zeros are the same;
enumeration entries are the same by token. -/
def same : Constant → Constant → Bool
  | .null, .null => true
  | .bool a, .bool b => a == b
  | .int m v, .int n w => m == n && v == w
  | .double x, .double y => x.same y
  | .entry a, .entry b => a.same b
  | .typeLiteral a, .typeLiteral b => a == b
  | _, _ => false

def numeric? : Constant → Option Numeric
  | .int n _ => some (.int n)
  | .double x => some (.double x)
  | _ => none

end Constant

/-- What an external value refers to: an occurrence of an expression, or a text. -/
inductive Reference where
  | node (e : Expr)
  | text (s : String)

/-- Nodes are the same by identity. -/
def Reference.same : Reference → Reference → Bool
  | .node a, .node b => a.id? == b.id?
  | .text a, .text b => a == b
  | _, _ => false

inductive Value where
  | const (c : Constant)
  /-- A value computed from others, with those it was computed from. -/
  | dependent (value : Value) (deps : List Value)
  /-- The value a symbol is bound to; `source` is the expression it came from. -/
  | var (symbol : Symbol) (value : Value) (deps : List Value) (source : Option Expr)
  | external (ref : Reference)
  | phi (members : List Value)
  | nothing
  | undetermined
  /-- Something that is not a value, the same only as itself. -/
  | foreign (id : Nat)

namespace Value

def null : Value := .const .null
def bool (b : Bool) : Value := .const (.bool b)
def int (n : Int) : Value := .const (.int n Constant.intWidth)
def char (code : Int) : Value := .const (.int code Constant.charWidth)
def double (x : Double) : Value := .const (.double x)

/-- The character of a text that has exactly one. -/
def ofCharacter (s : String) : Except Fault Value :=
  match s.toList with
  | [c] => .ok (.char c.toNat)
  | cs => .error (.notOneCharacter cs.length)

def constant? : Value → Option Constant
  | .const c => some c
  | _ => none

def isConstant (v : Value) : Bool := v.constant?.isSome

/-- Holds of values that carry provenance. -/
def isDependent : Value → Bool
  | .dependent .. => true
  | .var .. => true
  | _ => false

def isVar : Value → Bool
  | .var .. => true
  | _ => false

def isExternal : Value → Bool
  | .external _ => true
  | _ => false

def isPhi : Value → Bool
  | .phi _ => true
  | _ => false

def isNothing : Value → Bool
  | .nothing => true
  | _ => false

def isUndetermined : Value → Bool
  | .undetermined => true
  | _ => false

def isReachable (v : Value) : Bool := !v.isNothing

/-- Holds of what other values can depend on. -/
def isDependency (v : Value) : Bool := v.isVar || v.isExternal

/-- The name of a value's kind. -/
def kind : Value → String
  | .const .null => "null"
  | .const (.bool _) => "bool"
  | .const (.int ..) => "int"
  | .const (.double _) => "float"
  | .const (.entry _) => "enum"
  | .const (.typeLiteral _) => "type"
  | .dependent .. => "dependent"
  | .var .. => "variable"
  | .external _ => "external"
  | .phi _ => "phi"
  | .nothing => "nothing"
  | .undetermined => "undetermined"
  | .foreign _ => "alien"

/-- The value under all provenance. -/
def core : Value → Value
  | .dependent v _ => v.core
  | .var _ v _ _ => v.core
  | v => v

def coreConstant? (v : Value) : Option Constant := v.core.constant?

/-- The outermost variable a value is or is computed as. -/
def outerVar? : Value → Option Value
  | .dependent v _ => v.outerVar?
  | .var x v deps source => some (.var x v deps source)
  | _ => none

/-- What a variable is bound to. -/
def symbol? : Value → Option Symbol
  | .var x _ _ _ => some x
  | _ => none

def numeric? (v : Value) : Option Numeric := v.constant?.bind Constant.numeric?

end Value

end ValueFlow
