import ValueFlow.Operator.Table
import ValueFlow.State

/-!
# Dialects

What the operators of one source language mean. A dialect with a table of operators applies them,
and `++`, `--` and the compound assignments bind their target anew. A dialect without a table knows
nothing: all its results are `undetermined`, and states pass through it unchanged.
-/

namespace ValueFlow

structure Dialect where
  language : String
  operators : Option OperatorTable

namespace Dialect

def text (d : Dialect) : String :=
  (if d.operators.isSome then "StandardExtension(" else "EvaluatorExtension(")
    ++ Text.quoted d.language ++ ")"

/-- What an updating operator binds: the named target, else the variable its operand is. -/
def updated? (operand : Value) (target : Option Symbol) : Option Symbol :=
  target <|> operand.outerVar?.bind Value.symbol?

/-- The outcome `value`, with `new` bound to what the operator updates. -/
def update (value new : Value) (s : State) (x : Option Symbol) : Outcome :=
  match x with
  | none => ⟨value, s⟩
  | some x => ⟨value, s.assign x new none⟩

/-- Applies a step. A step written before its operand has the new value, one written after it the
old. -/
def step (table : OperatorTable) (op : StepOp) (after : Bool) (operand : Value) (s : State)
    (target : Option Symbol) : Except Fault Outcome := do
  let new ← table.call "unary" op.symbol [operand]
  return update (if after then operand else new) new s (updated? operand target)

/-- Applies the operator with a symbol, if there is one. -/
def apply (table : OperatorTable) (ns symbol : String) (args : List Value) (s : State) :
    Except Fault Outcome :=
  match table.lookup? ns symbol with
  | none => .ok ⟨.undetermined, s⟩
  | some op => do return ⟨← op.run args, s⟩

def evalPrefix (d : Dialect) (op : PrefixOp) (operand : Value) (s : State)
    (target : Option Symbol) : Except Fault Outcome :=
  match d.operators with
  | none => .ok ⟨.undetermined, s⟩
  | some table =>
    match op with
    | .step op => step table op false operand s target
    | op => apply table "unary" op.symbol [operand] s

def evalPostfix (d : Dialect) (op : StepOp) (operand : Value) (s : State)
    (target : Option Symbol) : Except Fault Outcome :=
  match d.operators with
  | none => .ok ⟨.undetermined, s⟩
  | some table => step table op true operand s target

/-- A compound assignment without anything to assign to does not compute. -/
def evalBinary (d : Dialect) (op : BinaryOp) (left right : Value) (s : State)
    (target : Option Symbol) : Except Fault Outcome :=
  match d.operators with
  | none => .ok ⟨.undetermined, s⟩
  | some table =>
    match op.compound? with
    | none => apply table "binary" op.symbol [left, right] s
    | some op =>
      match updated? left target with
      | none => .ok ⟨.undetermined, s⟩
      | some x => do
        let new ← table.call "binary" op.symbol [left, right]
        return update .undetermined new s (some x)

/-- A constant selector decides the value alone, whatever the receiver. -/
def evalQualified (d : Dialect) (selector : Outcome) : Outcome :=
  if d.operators.isSome && selector.value.core.isConstant then selector
  else ⟨.undetermined, selector.state⟩

end Dialect

end ValueFlow
