import ValueFlow.Number.Shortest

/-!
# How doubles are written

A layout fixes everything about the text of a double that its shortest digits leave open.
-/

namespace ValueFlow.Double

structure Layout where
  /-- Numbers whose leading digit counts `10 ^ e` are written without an exponent from this `e` on. -/
  positionalFrom : Int
  /-- From this `e` on they are written with an exponent again. -/
  positionalBelow : Int
  /-- The least number of digits of a written exponent. -/
  exponentWidth : Nat
  nan : String
  infinity : String

def zeros (n : Nat) : String := String.ofList (List.replicate n '0')

/-- Digits with a point after the first `point` of them and a digit on each side of it. -/
def positional (digits : List Char) (point : Int) : String :=
  if point ≤ 0 then "0." ++ zeros (-point).toNat ++ String.ofList digits
  else if digits.length ≤ point.toNat then
    String.ofList digits ++ zeros (point.toNat - digits.length) ++ ".0"
  else String.ofList (digits.take point.toNat) ++ "." ++ String.ofList (digits.drop point.toNat)

/-- One digit before the point, and a point only if more follow. -/
def mantissa : List Char → String
  | [] => ""
  | [d] => d.toString
  | d :: ds => d.toString ++ "." ++ String.ofList ds

def Layout.exponent (l : Layout) (e : Int) : String :=
  let digits := toString e.natAbs
  (if e < 0 then "e-" else "e+") ++ zeros (l.exponentWidth - digits.length) ++ digits

def Layout.decimal (l : Layout) (d : Decimal) : String :=
  let digits := Nat.toDigits 10 d.digits
  let leading := d.exponent + digits.length - 1
  if l.positionalFrom ≤ leading ∧ leading < l.positionalBelow then positional digits (leading + 1)
  else mantissa digits ++ l.exponent leading

def sign (negative : Bool) : String := if negative then "-" else ""

def Layout.write (l : Layout) : Double → String
  | .nan => l.nan
  | .infinite s => sign s ++ l.infinity
  | .finite s u _ => sign s ++ if u = 0 then "0.0" else l.decimal (shortest u)

end ValueFlow.Double
