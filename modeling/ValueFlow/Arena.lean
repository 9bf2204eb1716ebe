import ValueFlow.Declaration

/-!
# Arenas

An arena holds the declarations issued in it, in order of issue. All arenas draw their tokens from
one counter, so a token is issued once, whatever the arena.
-/

namespace ValueFlow

structure Arena where
  records : List Symbol

namespace Arena

def empty : Arena := ⟨[]⟩

def size (a : Arena) : Nat := a.records.length

def get? (a : Arena) (token : Nat) : Option Symbol :=
  a.records.find? (·.token == token)

/-- Only the token counts. -/
def contains (a : Arena) (s : Symbol) : Bool := (a.get? s.token).isSome

def push (a : Arena) (s : Symbol) : Arena := ⟨a.records ++ [s]⟩

def text (a : Arena) : String := s!"DeclarationArena({a.size} records)"

end Arena

/-- The arenas of a program, by number, with the count of the tokens they have issued. -/
structure Arenas where
  issued : Nat
  arenas : List Arena

namespace Arenas

def empty : Arenas := ⟨0, []⟩

/-- A new arena takes the next number. -/
def addArena (s : Arenas) : Nat × Arenas :=
  (s.arenas.length, { s with arenas := s.arenas ++ [Arena.empty] })

def get? (s : Arenas) (arena : Nat) : Option Arena := s.arenas[arena]?

/-- The token that is issued next. -/
def next (s : Arenas) : Nat := s.issued + 1

/-- Records the symbol that the next token is issued to. -/
def issue (s : Arenas) (arena : Nat) (symbol : Symbol) : Arenas :=
  { issued := s.next
    arenas := s.arenas.modify arena (·.push symbol) }

def declare (s : Arenas) (arena : Nat) (name : String) (storage : Storage) :
    Declaration × Arenas :=
  let x : Declaration := ⟨s.next, name, storage⟩
  (x, s.issue arena (.decl x))

def declareEntry (s : Arenas) (arena : Nat) (name enumType : String) : EnumEntry × Arenas :=
  let e : EnumEntry := ⟨s.next, name, enumType⟩
  (e, s.issue arena (.entry e))

end Arenas

end ValueFlow
