import ValueFlow.Operator.Arithmetic
import ValueFlow.Operator.Comparison
import ValueFlow.Operator.Logic
import ValueFlow.Operator.Table

/-!
# The standard operators

The operators common to languages of the C family, lifted over provenance.
-/

namespace ValueFlow

namespace Arithmetic

def operators : List Operator :=
  [.binary "+" plus,
    .binary "-" minus,
    .binary "*" (lift2 timesCore),
    .binary "/" (lift2 divCore),
    .binary "%" (lift2 modCore),
    .unary "-" (lift1 negateCore),
    .unary "+" (lift1 identityCore),
    .unary "++" (lift1 incCore),
    .unary "--" (lift1 decCore)]

end Arithmetic

namespace Comparison

def operators : List Operator :=
  [.binary "==" (lift2 eqCore),
    .binary "!=" (lift2 neCore),
    .binary ">" (lift2 gtCore),
    .binary "<" (lift2 ltCore),
    .binary ">=" (lift2 geCore),
    .binary "<=" (lift2 leCore)]

end Comparison

namespace Logic

def operators : List Operator :=
  [.unary "!" (lift1 notCore),
    .unary "~" (lift1 bitNotCore),
    .binary "&" (lift2 bitAndCore),
    .binary "|" (lift2 bitOrCore),
    .binary "^" (lift2 bitXorCore),
    .binary "&&" (lift2 andCore),
    .binary "||" (lift2 orCore)]

end Logic

namespace OperatorTable

def standard : OperatorTable where
  entries := Arithmetic.operators ++ Comparison.operators ++ Logic.operators
  distinct := by decide +kernel

end OperatorTable

end ValueFlow
