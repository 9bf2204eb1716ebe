import ValueFlow.Operator.Standard
import ValueFlow.Trace

/-!
# Dialects by language

At most one dialect for each language. A language that has none is answered by a dialect that knows
nothing.
-/

namespace ValueFlow

abbrev Dialects := Keyed Dialect Dialect.language

namespace Dialects

def get (r : Dialects) (language : String) : Traced Dialect :=
  match r.find? language with
  | some d => pure d
  | none => do
    Traced.emit (.unknownLanguage language)
    return ⟨language, none⟩

def languages (r : Dialects) : List String :=
  (r.entries.map Dialect.language).mergeSort fun a b => decide (a ≤ b)

def register (r : Dialects) (d : Dialect) : Traced Dialects :=
  match r.push? d with
  | some r => do
    Traced.emit (.registered d)
    return r
  | none => .fail (.duplicateDialect d.language)

/-- Registers dialects in order up to the first that is refused; those before it stay. -/
def registerAll (r : Dialects) : List Dialect → Dialects × Traced Unit
  | [] => (r, pure ())
  | d :: ds =>
    let step := r.register d
    match step.result with
    | .ok r =>
      let (r, rest) := r.registerAll ds
      (r, ⟨step.events ++ rest.events, rest.result⟩)
    | .error e => (r, ⟨step.events, .error e⟩)

def defaultLanguage : String := "generic"

/-- The standard operators for the default language. -/
def standard : Dialects where
  entries := [⟨defaultLanguage, some .standard⟩]
  distinct := by simp

end Dialects

end ValueFlow
