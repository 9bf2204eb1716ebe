import ValueFlow.Declaration
import ValueFlow.Expr.Operator
import ValueFlow.Number.Double

/-!
# Expressions

The trees that are evaluated. Every node has an identity: two nodes of the same shape at different
places are different occurrences. Statements are expressions too.
-/

namespace ValueFlow

inductive Literal where
  | null
  | bool (b : Bool)
  | int (n : Int)
  | double (x : Double)
  | text (s : String)
  /-- A literal that evaluates to nothing known. -/
  | unit
  deriving DecidableEq

/-- What may stand in the place of an expression without being one. -/
inductive Foreign where
  | absent
  | object (id : Nat)
  deriving DecidableEq, Repr

namespace Foreign

def label : Foreign → String
  | .absent => "None"
  | .object _ => "alien"

end Foreign

inductive Expr where
  | literal (id : Nat) (value : Literal) (isChar : Bool)
  | classLiteral (id : Nat) (typeName : Option String)
  | ret (id : Nat) (value : Option Expr)
  | brk (id : Nat) (label : Option String)
  | cont (id : Nat) (label : Option String)
  | raise (id : Nat) (value : Option Expr)
  | reference (id : Nat) (name : String) (target : Option Symbol)
  | qualified (id : Nat) (receiver selector : Expr) (access : Access) (language : Option String)
  | call (id : Nat) (callee : String) (args : List Expr)
  | binary (id : Nat) (left : Expr) (op : BinaryOp) (right : Expr) (language : Option String)
  | prefixed (id : Nat) (op : PrefixOp) (operand : Expr) (language : Option String)
  | postfixed (id : Nat) (operand : Expr) (op : StepOp) (language : Option String)
  | cond (id : Nat) (condition : Expr) (thenBranch elseBranch : Option Expr) (ternary : Bool)
  | block (id : Nat) (body : List Expr)
  | declare (id : Nat) (target : Symbol) (init : Option Expr)
  | paren (id : Nat) (inner : Expr)
  /-- A construct that is kept only by its description. -/
  | unmodelled (id : Nat) (description : String)
  | foreign (what : Foreign)

namespace Expr

/-- The identity of an occurrence; what is absent has none. -/
def id? : Expr → Option Nat
  | .literal id _ _ => some id
  | .classLiteral id _ => some id
  | .ret id _ => some id
  | .brk id _ => some id
  | .cont id _ => some id
  | .raise id _ => some id
  | .reference id _ _ => some id
  | .qualified id _ _ _ _ => some id
  | .call id _ _ => some id
  | .binary id _ _ _ _ => some id
  | .prefixed id _ _ _ => some id
  | .postfixed id _ _ _ => some id
  | .cond id _ _ _ _ => some id
  | .block id _ => some id
  | .declare id _ _ => some id
  | .paren id _ => some id
  | .unmodelled id _ => some id
  | .foreign .absent => none
  | .foreign (.object id) => some id

def isNode : Expr → Bool
  | .foreign _ => false
  | _ => true

/-- The name of a node's kind. -/
def kind : Expr → String
  | .literal .. => "literal"
  | .classLiteral .. => "classLiteral"
  | .ret .. => "return"
  | .brk .. => "break"
  | .cont .. => "continue"
  | .raise .. => "throw"
  | .reference .. => "reference"
  | .qualified .. => "qualified"
  | .call .. => "call"
  | .binary .. => "binary"
  | .prefixed .. => "prefix"
  | .postfixed .. => "postfix"
  | .cond .. => "if"
  | .block .. => "block"
  | .declare .. => "declaration"
  | .paren .. => "parenthesized"
  | .unmodelled .. => "opaque"
  | .foreign what => what.label

/-- What a node names, through parentheses and the selector of a qualified expression. -/
def resolve? : Expr → Option Symbol
  | .reference _ _ target => target
  | .qualified _ _ selector _ _ => selector.resolve?
  | .paren _ inner => inner.resolve?
  | _ => none

/-- The variable a node names, if it names one. -/
def target? (e : Expr) : Option Symbol := e.resolve?.filter Symbol.isVariable

end Expr

end ValueFlow
