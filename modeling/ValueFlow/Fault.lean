import ValueFlow.Text.Quoted

/-!
# Faults

Every way in which a computation of this library can fail, with the wording of each.
-/

namespace ValueFlow

/-- The closed sets of words that texts are read into. -/
inductive Vocabulary where
  | binaryOperator
  | prefixOperator
  | postfixOperator
  | access
  | storage
  deriving DecidableEq, Repr

def Vocabulary.label : Vocabulary → String
  | .binaryOperator => "BinaryOperator"
  | .prefixOperator => "PrefixOperator"
  | .postfixOperator => "PostfixOperator"
  | .access => "AccessType"
  | .storage => "DeclarationKind"

inductive Fault where
  /-- A phi was left with fewer than two distinct members. -/
  | phiArity
  /-- Something that is neither an expression nor a value was met where one is needed. -/
  | unexpected (what : String)
  | duplicateDialect (language : String)
  | duplicateOperator (ns name : String)
  | unknownOperator (ns name : String)
  /-- An operator was called with a number of operands that is not its arity. -/
  | arityMismatch (ns name : String) (arity : Int) (given : Nat)
  | missingArity (ns name : String)
  | missingMeaning (ns name : String)
  /-- A function of values was applied to a number of operands it is not defined for. -/
  | operandCount (expected given : Nat)
  /-- An integer next to a double has no finite double near it. -/
  | tooLargeForDouble
  | divisionByZero
  /-- A character was asked of a text that does not have exactly one. -/
  | notOneCharacter (length : Nat)
  | notInVocabulary (word : String) (vocabulary : Vocabulary)
  deriving DecidableEq, Repr

def Fault.message : Fault → String
  | .phiArity => "Phi should contain two or more values"
  | .unexpected what => s!"Unexpected value: {what}"
  | .duplicateDialect language => s!"Evaluator extension for language '{language}' already registered"
  | .duplicateOperator ns name => s!"Operator {ns}:{name} already registered"
  | .unknownOperator ns name => s!"Unknown operator: {ns}:{name}"
  | .arityMismatch ns name arity given =>
    s!"Arity error: {ns}:{name} expects {arity} arguments, got {given}"
  | .missingArity ns name => s!"Operator {ns}:{name} missing arity"
  | .missingMeaning ns name => s!"Operator {ns}:{name} missing implementation"
  | .operandCount expected given => s!"expected {expected} operands, got {given}"
  | .tooLargeForDouble => "int too large to convert to float"
  | .divisionByZero => "integer division or modulo by zero"
  | .notOneCharacter length => s!"ord() expected a character, but string of length {length} found"
  | .notInVocabulary word vocabulary =>
    Text.quoted word ++ " is not a valid " ++ vocabulary.label

/-- The member of a vocabulary with a given word. -/
def Vocabulary.read {α : Type} (v : Vocabulary) (members : List α) (wordOf : α → String)
    (word : String) : Except Fault α :=
  match members.find? (wordOf · == word) with
  | some a => .ok a
  | none => .error (.notInVocabulary word v)

end ValueFlow
