import ValueFlow.Number.Word
import ValueFlow.Operator.Lift

/-!
# Arithmetic

Two integers give an integer reduced to 64 bits; if one operand is a double, the other is rounded to
one. What is not a number gives `undetermined`, as does an integer divided by zero.
-/

namespace ValueFlow

/-- The nearest double. -/
def Numeric.toDouble : Numeric → Except Fault Double
  | .double x => .ok x
  | .int n => (Double.ofInt? n).elim (.error .tooLargeForDouble) .ok

def Numeric.isZero : Numeric → Bool
  | .int n => n == 0
  | .double x => x.isZero

namespace Arithmetic

def onDoubles (f : Double → Double → Double) (x y : Numeric) : Except Fault Double := do
  let x ← x.toDouble
  let y ← y.toDouble
  return f x y

/-- A zero divisor gives NaN before anything is rounded. The dividend is rounded next, and the divisor
last, unless the dividend is infinite. -/
def remainder (x y : Numeric) : Except Fault Double :=
  if y.isZero then .ok .nan
  else do
    let x ← x.toDouble
    if x.isInfinite then return .nan
    else return x.rem (← y.toDouble)

/-- An operator given by its results on integers, where there may be none, and on numbers of which
at least one is a double. -/
def binary (ints : Int → Int → Option Int) (doubles : Numeric → Numeric → Except Fault Double) :
    BinaryCore := fun a b =>
  match a.numeric?, b.numeric? with
  | some (.int m), some (.int n) =>
    match ints m n with
    | some r => .ok (.int (Word.wrap r))
    | none => .ok .undetermined
  | some x, some y => do return .double (← doubles x y)
  | _, _ => .ok .undetermined

def plusCore : BinaryCore := binary (fun m n => some (m + n)) (onDoubles Double.add)
def minusCore : BinaryCore := binary (fun m n => some (m - n)) (onDoubles Double.sub)
def timesCore : BinaryCore := binary (fun m n => some (m * n)) (onDoubles Double.mul)
def divCore : BinaryCore :=
  binary (fun m n => (Word.truncDiv m n).toOption) (onDoubles Double.div)
def modCore : BinaryCore := binary (fun m n => (Word.truncMod m n).toOption) remainder

/-- An operator given by its results on an integer with its width, and on a double. -/
def unary (ints : Int → Int → Constant) (doubles : Double → Double) : UnaryCore
  | .const (.int n width) => .ok (.const (ints n width))
  | .const (.double x) => .ok (.double (doubles x))
  | _ => .ok .undetermined

def negateCore : UnaryCore :=
  unary (fun n _ => .int (Word.wrap (-n)) Constant.intWidth) Double.neg
def identityCore : UnaryCore := unary (fun n _ => .int n Constant.intWidth) id
def incCore : UnaryCore := unary (fun n width => .int (Word.wrap (n + 1)) width) (·.add Double.one)
def decCore : UnaryCore := unary (fun n width => .int (Word.wrap (n - 1)) width) (·.sub Double.one)

def plus : BinaryCore := lift2 plusCore
def minus : BinaryCore := lift2 minusCore

end Arithmetic

end ValueFlow
