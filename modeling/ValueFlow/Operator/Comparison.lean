import ValueFlow.Operator.Lift

/-!
# Comparison

Any two constants are equal or not; only numbers are ordered. Numbers are compared by their exact
values, whatever their kinds and widths.
-/

namespace ValueFlow

/-- Equality by numeric value where both are numbers, and sameness otherwise. -/
def Constant.equal (c d : Constant) : Bool :=
  match c.numeric?, d.numeric? with
  | some x, some y => x.eq y
  | _, _ => c.same d

namespace Comparison

def onConstants (test : Constant → Constant → Bool) : BinaryCore
  | .const c, .const d => .ok (.bool (test c d))
  | _, _ => .ok .undetermined

def onNumbers (test : Numeric → Numeric → Bool) : BinaryCore := fun a b =>
  match a.numeric?, b.numeric? with
  | some x, some y => .ok (.bool (test x y))
  | _, _ => .ok .undetermined

def eqCore : BinaryCore := onConstants Constant.equal
def neCore : BinaryCore := onConstants fun c d => !c.equal d
def ltCore : BinaryCore := onNumbers Numeric.lt
def leCore : BinaryCore := onNumbers Numeric.le
def gtCore : BinaryCore := onNumbers fun x y => y.lt x
def geCore : BinaryCore := onNumbers fun x y => y.le x

end Comparison

end ValueFlow
