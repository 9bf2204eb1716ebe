import ValueFlow.Number.Word
import ValueFlow.Operator.Lift

/-!
# Logic

`&`, `|` and `^` act on two truth values or on the digits of two integers. `&&` and `||` are for
truth values only, and a left operand that decides them does so whatever the right one is.
-/

namespace ValueFlow.Logic

def notCore : UnaryCore
  | .const (.bool b) => .ok (.bool !b)
  | _ => .ok .undetermined

def bitNotCore : UnaryCore
  | .const (.int n _) => .ok (.int (Word.wrap (Word.not n)))
  | _ => .ok .undetermined

def binary (bools : Bool → Bool → Bool) (ints : Int → Int → Int) : BinaryCore
  | .const (.bool a), .const (.bool b) => .ok (.bool (bools a b))
  | .const (.int m _), .const (.int n _) => .ok (.int (Word.wrap (ints m n)))
  | _, _ => .ok .undetermined

def bitAndCore : BinaryCore := binary (· && ·) Word.and
def bitOrCore : BinaryCore := binary (· || ·) Word.or
def bitXorCore : BinaryCore := binary (· ^^ ·) Word.xor

/-- The left operand if it is `decider`, else the right one if both are truth values. -/
def shortCircuit (decider : Bool) : BinaryCore
  | .const (.bool a), b =>
    if a = decider then .ok (.bool a)
    else
      match b with
      | .const (.bool b) => .ok (.bool b)
      | _ => .ok .undetermined
  | _, _ => .ok .undetermined

def andCore : BinaryCore := shortCircuit false
def orCore : BinaryCore := shortCircuit true

end ValueFlow.Logic
