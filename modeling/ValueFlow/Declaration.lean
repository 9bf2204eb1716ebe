import ValueFlow.Fault

/-!
# Declarations

What a name can stand for: a variable of some storage, or an entry of an enumeration. A declaration
is identified by its token alone, so that every occurrence of a variable finds the same binding; its
name is only shown.

* `Symbol.same_eq_rank`: symbols are the same when they have one rank.
-/

namespace ValueFlow

inductive Storage where
  | block
  | parameter
  | field
  deriving DecidableEq, Repr

namespace Storage

def word : Storage → String
  | .block => "local"
  | .parameter => "parameter"
  | .field => "field"

def ofWord : String → Except Fault Storage :=
  Vocabulary.read .storage [block, parameter, field] word

end Storage

structure Declaration where
  token : Nat
  name : String
  storage : Storage
  deriving DecidableEq, Repr

namespace Declaration

def same (x y : Declaration) : Bool := x.token == y.token

def text (x : Declaration) : String := s!"Declaration({x.name}#{x.token})"

end Declaration

structure EnumEntry where
  token : Nat
  name : String
  enumType : String
  deriving DecidableEq, Repr

namespace EnumEntry

def same (x y : EnumEntry) : Bool := x.token == y.token

def qualifiedName (x : EnumEntry) : String :=
  if x.enumType = "" then x.name else x.enumType ++ "." ++ x.name

def text (x : EnumEntry) : String := s!"EnumConstant({x.qualifiedName}#{x.token})"

end EnumEntry

/-- What a name resolves to. -/
inductive Symbol where
  | decl (x : Declaration)
  | entry (e : EnumEntry)
  deriving DecidableEq, Repr

namespace Symbol

def token : Symbol → Nat
  | .decl x => x.token
  | .entry e => e.token

def name : Symbol → String
  | .decl x => x.name
  | .entry e => e.name

def text : Symbol → String
  | .decl x => x.text
  | .entry e => e.text

def isVariable : Symbol → Bool
  | .decl _ => true
  | .entry _ => false

/-- A variable is never the same as an enumeration entry. -/
def same : Symbol → Symbol → Bool
  | .decl x, .decl y => x.same y
  | .entry x, .entry y => x.same y
  | _, _ => false

/-- The place of a symbol in order: by token, and a variable before an entry with its token. -/
def rank : Symbol → Nat
  | .decl x => 2 * x.token
  | .entry e => 2 * e.token + 1

theorem same_eq_rank (x y : Symbol) : x.same y = (x.rank == y.rank) := by
  rw [Bool.eq_iff_iff, beq_iff_eq]
  cases x with
  | decl x =>
    cases y with
    | decl y =>
      simp only [same, rank, Declaration.same, beq_iff_eq]
      omega
    | entry y =>
      simp only [same, rank, Bool.false_eq_true, false_iff]
      omega
  | entry x =>
    cases y with
    | decl y =>
      simp only [same, rank, Bool.false_eq_true, false_iff]
      omega
    | entry y =>
      simp only [same, rank, EnumEntry.same, beq_iff_eq]
      omega

end Symbol

end ValueFlow
