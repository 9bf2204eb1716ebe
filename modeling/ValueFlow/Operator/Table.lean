import ValueFlow.Keyed
import ValueFlow.Value.Basic

/-!
# Operator tables

Operators by qualified name, in the order in which they were registered. A qualified name is the
namespace and the name with a colon between them, and a table holds each one once.
-/

namespace ValueFlow

def qualify (ns name : String) : String := ns ++ ":" ++ name

structure Operator where
  ns : String
  name : String
  /-- The number of operands it takes. With a negative arity it takes none that there can be. -/
  arity : Int
  run : List Value → Except Fault Value

namespace Operator

def qualifiedName (op : Operator) : String := qualify op.ns op.name

def takes (op : Operator) (count : Nat) : Bool := op.arity == count

def text (op : Operator) : String := s!"Operator({op.qualifiedName}/{op.arity})"

/-- An operator all of whose parts are given. -/
def ofParts (ns name : String) (arity : Option Int)
    (run : Option (List Value → Except Fault Value)) : Except Fault Operator :=
  match arity, run with
  | none, _ => .error (.missingArity ns name)
  | some _, none => .error (.missingMeaning ns name)
  | some arity, some run => .ok ⟨ns, name, arity, run⟩

def unary (name : String) (f : Value → Except Fault Value) : Operator where
  ns := "unary"
  name := name
  arity := 1
  run
    | [a] => f a
    | args => .error (.operandCount 1 args.length)

def binary (name : String) (f : Value → Value → Except Fault Value) : Operator where
  ns := "binary"
  name := name
  arity := 2
  run
    | [a, b] => f a b
    | args => .error (.operandCount 2 args.length)

end Operator

abbrev OperatorTable := Keyed Operator Operator.qualifiedName

namespace OperatorTable

def lookup? (t : OperatorTable) (ns name : String) : Option Operator := t.find? (qualify ns name)

def has (t : OperatorTable) (ns name : String) : Bool := t.contains (qualify ns name)

def get (t : OperatorTable) (ns name : String) : Except Fault Operator :=
  match t.lookup? ns name with
  | some op => .ok op
  | none => .error (.unknownOperator ns name)

def register (t : OperatorTable) (op : Operator) : Except Fault OperatorTable :=
  match t.push? op with
  | some t => .ok t
  | none => .error (.duplicateOperator op.ns op.name)

/-- Registers operators in order up to the first that is refused; those before it stay. -/
def registerAll (t : OperatorTable) : List Operator → OperatorTable × Except Fault Unit
  | [] => (t, .ok ())
  | op :: ops =>
    match t.register op with
    | .ok t => t.registerAll ops
    | .error e => (t, .error e)

/-- Applies an operator to as many operands as it takes. -/
def call (t : OperatorTable) (ns name : String) (args : List Value) : Except Fault Value := do
  let op ← t.get ns name
  if op.takes args.length then op.run args
  else .error (.arityMismatch ns name op.arity args.length)

/-- What follows a namespace and a colon in a qualified name that starts so. -/
def nameIn? (ns key : String) : Option String :=
  let lead := (qualify ns "").toList
  if lead.isPrefixOf key.toList then some (String.ofList (key.toList.drop lead.length)) else none

def namesIn (t : OperatorTable) (ns : String) : List String :=
  t.entries.filterMap fun op => nameIn? ns op.qualifiedName

end OperatorTable

end ValueFlow
