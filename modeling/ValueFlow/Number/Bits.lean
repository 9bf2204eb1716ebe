import ValueFlow.Number.Double

/-!
# The 64-bit form of a double

A sign bit, eleven bits of exponent and 52 bits of fraction, as a number below `2 ^ 64`. In units of
`2 ^ -1074` a subnormal number is its fraction, and a normal one its fraction with the hidden bit,
shifted by its exponent less one.
-/

namespace ValueFlow.Double

theorem fits_subnormal {f : Nat} (hf : f < 1 <<< 52) : Fits f :=
  ⟨Nat.lt_of_lt_of_le hf (shiftLeft_le_limit (by decide)), f, 0, by omega, rfl⟩

theorem fits_normal {f e : Nat} (hf : f < 1 <<< 52) (he : e < 2046) :
    Fits ((1 <<< 52 + f) <<< e) := by
  have hm : 1 <<< 52 + f < 1 <<< 53 := by omega
  refine ⟨?_, 1 <<< 52 + f, e, hm, rfl⟩
  calc (1 <<< 52 + f) <<< e < (1 <<< 53) <<< e := by
        rw [Nat.shiftLeft_eq (1 <<< 52 + f), Nat.shiftLeft_eq (1 <<< 53)]
        exact Nat.mul_lt_mul_of_pos_right hm (Nat.two_pow_pos e)
    _ = 1 <<< (53 + e) := (Nat.shiftLeft_add 1 53 e).symm
    _ ≤ limit := shiftLeft_le_limit (by unfold places; omega)

def ofBits (bits : Nat) : Double :=
  let negative := bits >>> 63 % 2 == 1
  let exponent := bits >>> 52 % 2048
  let fraction := bits % 1 <<< 52
  have hf : fraction < 1 <<< 52 := Nat.mod_lt _ (by decide)
  if exponent = 0 then .finite negative fraction (fits_subnormal hf)
  else if h : exponent < 2047 then
    .finite negative ((1 <<< 52 + fraction) <<< (exponent - 1)) (fits_normal hf (by omega))
  else if fraction = 0 then .infinite negative
  else .nan

/-- The bits below the sign of a finite magnitude. -/
def magnitudeBits (u : Nat) : Nat :=
  if u < 1 <<< 52 then u
  else (excess u + 1) <<< 52 + (u >>> excess u - 1 <<< 52)

def signBit (negative : Bool) : Nat := if negative then 1 <<< 63 else 0

/-- There is no one form of NaN. -/
def toBits? : Double → Option Nat
  | .nan => none
  | .infinite s => some (signBit s + 2047 <<< 52)
  | .finite s u _ => some (signBit s + magnitudeBits u)

end ValueFlow.Double
