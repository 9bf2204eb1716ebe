import ValueFlow.Number.Double

/-!
# The number line

Integers and doubles are compared by the place of their exact values on one line, so that no
comparison rounds. NaN has no place; both zeros have the same.
-/

namespace ValueFlow

/-- A place on the number line, between the infinities in units of `2 ^ -1074`. -/
inductive Line where
  | below
  | point (units : Int)
  | above
  deriving DecidableEq

namespace Line

def lt : Line → Line → Bool
  | .below, .below => false
  | .below, _ => true
  | .point m, .point n => m < n
  | .point _, .above => true
  | _, _ => false

def le (p q : Line) : Bool := p == q || p.lt q

end Line

def Double.line? : Double → Option Line
  | .nan => none
  | .infinite s => some (if s then .below else .above)
  | .finite s u _ => some (.point (if s then -(u : Int) else u))

/-- Equality that counts NaN equal to itself and ignores the sign of zero. -/
def Double.same (x y : Double) : Bool := x.line? == y.line?

/-- An operand of an arithmetic operator. -/
inductive Numeric where
  | int (n : Int)
  | double (x : Double)
  deriving DecidableEq

namespace Numeric

def line? : Numeric → Option Line
  | .int n => some (.point (n * Double.scale))
  | .double x => x.line?

/-- Holds of two places in the given relation, so never of NaN. -/
def compare (holds : Line → Line → Bool) (x y : Numeric) : Bool :=
  match x.line?, y.line? with
  | some p, some q => holds p q
  | _, _ => false

def eq : Numeric → Numeric → Bool := compare (· == ·)
def lt : Numeric → Numeric → Bool := compare Line.lt
def le : Numeric → Numeric → Bool := compare Line.le

end Numeric

end ValueFlow
