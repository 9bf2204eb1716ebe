import ValueFlow.Fault

/-!
# Machine integers

Integers are unbounded while they are held and are reduced to 64-bit two's complement when an
operator produces them. The bitwise operations act on the two's complement digits of unbounded
integers, where a negative number has ones without end.
-/

namespace ValueFlow.Word

/-- The signed reading of the low 64 bits. -/
def wrap (n : Int) : Int := n.bmod 0x10000000000000000

/-- The quotient rounded toward zero. -/
def truncDiv (a b : Int) : Except Fault Int :=
  if b = 0 then .error .divisionByZero else .ok (a.tdiv b)

/-- The remainder that goes with `truncDiv`, signed like the dividend. -/
def truncMod (a b : Int) : Except Fault Int :=
  if b = 0 then .error .divisionByZero else .ok (a.tmod b)

/-- The digits of `m` that are not digits of `n`. -/
def butNot (m n : Nat) : Nat := m ^^^ (m &&& n)

def and : Int → Int → Int
  | .ofNat m, .ofNat n => .ofNat (m &&& n)
  | .ofNat m, .negSucc n => .ofNat (butNot m n)
  | .negSucc m, .ofNat n => .ofNat (butNot n m)
  | .negSucc m, .negSucc n => .negSucc (m ||| n)

def or : Int → Int → Int
  | .ofNat m, .ofNat n => .ofNat (m ||| n)
  | .ofNat m, .negSucc n => .negSucc (butNot n m)
  | .negSucc m, .ofNat n => .negSucc (butNot m n)
  | .negSucc m, .negSucc n => .negSucc (m &&& n)

def xor : Int → Int → Int
  | .ofNat m, .ofNat n => .ofNat (m ^^^ n)
  | .ofNat m, .negSucc n => .negSucc (m ^^^ n)
  | .negSucc m, .ofNat n => .negSucc (m ^^^ n)
  | .negSucc m, .negSucc n => .ofNat (m ^^^ n)

def not (n : Int) : Int := -n - 1

end ValueFlow.Word
