import ValueFlow.Value.Build

/-!
# Lifting operators over provenance

An operator is defined on values without provenance. Lifted, it computes on the cores of its
operands and records what the operands hand on.
-/

namespace ValueFlow

abbrev UnaryCore := Value → Except Fault Value
abbrev BinaryCore := Value → Value → Except Fault Value

def lift1 (f : UnaryCore) (a : Value) : Except Fault Value :=
  if a.isDependent then do
    let r ← f a.core
    return r.dependingOn a.provenance
  else f a

def lift2 (f : BinaryCore) (a b : Value) : Except Fault Value :=
  if a.isDependent || b.isDependent then do
    let r ← f a.core b.core
    return r.dependingOn (Value.union a.provenance b.provenance)
  else f a b

end ValueFlow
