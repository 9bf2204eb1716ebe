import ValueFlow.Fault

/-!
# Operator symbols

The operators that expressions are written with, each known by its symbol.
-/

namespace ValueFlow

inductive BinaryOp where
  | assign
  | plus | minus | times | div | mod
  | eq | ne | gt | lt | ge | le
  | bitAnd | bitOr | bitXor
  | and | or
  | plusAssign | minusAssign | timesAssign | divAssign | modAssign
  | andAssign | orAssign | xorAssign
  deriving DecidableEq, Repr

namespace BinaryOp

def all : List BinaryOp :=
  [assign, plus, minus, times, div, mod, eq, ne, gt, lt, ge, le, bitAnd, bitOr, bitXor, and, or,
    plusAssign, minusAssign, timesAssign, divAssign, modAssign, andAssign, orAssign, xorAssign]

def symbol : BinaryOp → String
  | .assign => "="
  | .plus => "+"
  | .minus => "-"
  | .times => "*"
  | .div => "/"
  | .mod => "%"
  | .eq => "=="
  | .ne => "!="
  | .gt => ">"
  | .lt => "<"
  | .ge => ">="
  | .le => "<="
  | .bitAnd => "&"
  | .bitOr => "|"
  | .bitXor => "^"
  | .and => "&&"
  | .or => "||"
  | .plusAssign => "+="
  | .minusAssign => "-="
  | .timesAssign => "*="
  | .divAssign => "/="
  | .modAssign => "%="
  | .andAssign => "&="
  | .orAssign => "|="
  | .xorAssign => "^="

/-- The operator that a compound assignment applies before it assigns. -/
def compound? : BinaryOp → Option BinaryOp
  | .plusAssign => some .plus
  | .minusAssign => some .minus
  | .timesAssign => some .times
  | .divAssign => some .div
  | .modAssign => some .mod
  | .andAssign => some .bitAnd
  | .orAssign => some .bitOr
  | .xorAssign => some .bitXor
  | _ => none

def ofSymbol : String → Except Fault BinaryOp := Vocabulary.read .binaryOperator all symbol

end BinaryOp

/-- The two operators that change what they are applied to. -/
inductive StepOp where
  | inc
  | dec
  deriving DecidableEq, Repr

namespace StepOp

def symbol : StepOp → String
  | .inc => "++"
  | .dec => "--"

def ofSymbol : String → Except Fault StepOp := Vocabulary.read .postfixOperator [inc, dec] symbol

end StepOp

inductive PrefixOp where
  | minus
  | plus
  | not
  | bitNot
  | step (op : StepOp)
  deriving DecidableEq, Repr

namespace PrefixOp

def all : List PrefixOp := [minus, plus, not, bitNot, step .inc, step .dec]

def symbol : PrefixOp → String
  | .minus => "-"
  | .plus => "+"
  | .not => "!"
  | .bitNot => "~"
  | .step op => op.symbol

def ofSymbol : String → Except Fault PrefixOp := Vocabulary.read .prefixOperator all symbol

end PrefixOp

/-- How a member is selected: always, or only of a receiver that is there. -/
inductive Access where
  | plain
  | safe
  deriving DecidableEq, Repr

namespace Access

def symbol : Access → String
  | .plain => "."
  | .safe => "?."

def ofSymbol : String → Except Fault Access := Vocabulary.read .access [plain, safe] symbol

end Access

end ValueFlow
