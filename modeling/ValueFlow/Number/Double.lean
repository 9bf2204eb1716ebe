/-!
# Double-precision numbers

A finite double is a whole number of units of `2 ^ -1074`, the least positive double, together with
a sign; the sign of zero is kept. Each operation computes its exact result in those units and rounds
it once, to the nearest double, ties to the one with an even significand. There is one NaN.
-/

namespace ValueFlow

/-- The binary digits after the point of a unit. -/
def Double.places : Nat := 1074

/-- How many units make one. -/
def Double.scale : Nat := 1 <<< Double.places

/-- The magnitude `2 ^ 1024`, from which on numbers are out of range, in units. -/
def Double.limit : Nat := 1 <<< (1024 + Double.places)

/-- A magnitude in units is that of a double: in range, with at most 53 significant bits. -/
def Double.Fits (u : Nat) : Prop :=
  u < Double.limit ∧ ∃ m e, m < 1 <<< 53 ∧ u = m <<< e

inductive Double where
  | nan
  | infinite (negative : Bool)
  | finite (negative : Bool) (units : Nat) (fits : Double.Fits units)
  deriving DecidableEq

namespace Double

/-- The quotient rounded to the nearest integer, a tie to the even one. -/
def roundDiv (n d : Nat) : Nat :=
  let q := n / d
  let r := n % d
  if 2 * r < d then q else if d < 2 * r then q + 1 else q + q % 2

theorem roundDiv_le (n d : Nat) : roundDiv n d ≤ n / d + 1 := by
  unfold roundDiv
  dsimp only
  split
  · omega
  · split <;> omega

/-- How many low bits of a magnitude do not fit its 53 significant ones. -/
def excess (u : Nat) : Nat := u.log2 - 52

/-- The magnitude of `n / d` units, rounded to 53 significant bits. -/
def roundUnits (n d : Nat) : Nat :=
  let k := excess (n / d)
  roundDiv n (d <<< k) <<< k

theorem shiftRight_excess_lt (u : Nat) : u >>> excess u < 1 <<< 53 := by
  rw [Nat.shiftRight_eq_div_pow, Nat.one_shiftLeft, Nat.div_lt_iff_lt_mul (Nat.two_pow_pos _),
    ← Nat.pow_add]
  have h : u < 2 ^ (u.log2 + 1) := Nat.lt_log2_self
  refine Nat.lt_of_lt_of_le h (Nat.pow_le_pow_right (by decide) ?_)
  unfold excess
  omega

theorem roundUnits_significant (n d : Nat) :
    ∃ m e, m < 1 <<< 53 ∧ roundUnits n d = m <<< e := by
  have hq : n / (d <<< excess (n / d)) < 1 <<< 53 := by
    rw [Nat.shiftLeft_eq, ← Nat.div_div_eq_div_mul, ← Nat.shiftRight_eq_div_pow]
    exact shiftRight_excess_lt (n / d)
  have hm := roundDiv_le n (d <<< excess (n / d))
  rcases Nat.lt_or_ge (roundDiv n (d <<< excess (n / d))) (1 <<< 53) with h | h
  · exact ⟨_, _, h, rfl⟩
  · have heq : roundDiv n (d <<< excess (n / d)) = 1 <<< 53 := by omega
    refine ⟨1, 53 + excess (n / d), by decide, ?_⟩
    simp only [roundUnits, heq, Nat.shiftLeft_add]

/-- The double nearest to `n / d` units; out of range it is infinite. -/
def ofUnits (negative : Bool) (n d : Nat) : Double :=
  if h : roundUnits n d < limit then
    .finite negative (roundUnits n d) ⟨h, roundUnits_significant n d⟩
  else .infinite negative

theorem shiftLeft_le_limit {k : Nat} (hk : k ≤ 1024 + places) : 1 <<< k ≤ limit := by
  rw [limit, Nat.one_shiftLeft, Nat.one_shiftLeft]
  exact Nat.pow_le_pow_right (by decide) hk

theorem limit_pos : 0 < limit := @shiftLeft_le_limit 0 (Nat.zero_le _)

theorem fits_zero : Fits 0 :=
  ⟨limit_pos, 0, 0, by decide, rfl⟩

def zero (negative : Bool) : Double := .finite negative 0 fits_zero

def one : Double := ofUnits false scale 1

def finite? : Double → Option Double
  | .finite negative units fits => some (.finite negative units fits)
  | _ => none

/-- The double nearest to an integer, if that is finite. -/
def ofInt? (n : Int) : Option Double := (ofUnits (n < 0) (n.natAbs * scale) 1).finite?

def isInfinite : Double → Bool
  | .infinite _ => true
  | _ => false

def isZero : Double → Bool
  | .finite _ units _ => units == 0
  | _ => false

def neg : Double → Double
  | .nan => .nan
  | .infinite s => .infinite !s
  | .finite s u h => .finite (!s) u h

/-- A sum of zeros is negative only if both are; opposite numbers sum to the positive zero. -/
def add : Double → Double → Double
  | .nan, _ => .nan
  | _, .nan => .nan
  | .infinite s, .infinite t => if s = t then .infinite s else .nan
  | .infinite s, .finite .. => .infinite s
  | .finite .., .infinite t => .infinite t
  | .finite s u _, .finite t v _ =>
    if s = t then ofUnits s (u + v) 1
    else if u < v then ofUnits t (v - u) 1
    else if v < u then ofUnits s (u - v) 1
    else zero false

def sub (x y : Double) : Double := x.add y.neg

def mul : Double → Double → Double
  | .nan, _ => .nan
  | _, .nan => .nan
  | .infinite s, .infinite t => .infinite (s ^^ t)
  | .infinite s, .finite t v _ => if v = 0 then .nan else .infinite (s ^^ t)
  | .finite s u _, .infinite t => if u = 0 then .nan else .infinite (s ^^ t)
  | .finite s u _, .finite t v _ => ofUnits (s ^^ t) (u * v) scale

/-- A number other than zero divided by zero is infinite. -/
def div : Double → Double → Double
  | .nan, _ => .nan
  | _, .nan => .nan
  | .infinite _, .infinite _ => .nan
  | .infinite s, .finite t _ _ => .infinite (s ^^ t)
  | .finite s _ _, .infinite t => zero (s ^^ t)
  | .finite s u _, .finite t v _ =>
    if v = 0 then (if u = 0 then .nan else .infinite (s ^^ t))
    else ofUnits (s ^^ t) (u * scale) v

theorem shiftLeft_mod_shiftLeft (m n k : Nat) : m <<< k % n <<< k = (m % n) <<< k := by
  rw [Nat.shiftLeft_eq, Nat.shiftLeft_eq, Nat.shiftLeft_eq, Nat.mul_mod_mul_right]

theorem fits_mod {u v : Nat} (hu : Fits u) (hv : Fits v) : Fits (u % v) := by
  obtain ⟨hu, m, e, hm, rfl⟩ := hu
  obtain ⟨_, n, f, hn, rfl⟩ := hv
  refine ⟨Nat.lt_of_le_of_lt (Nat.mod_le _ _) hu, ?_⟩
  rcases Nat.le_total e f with h | h
  · refine ⟨m % (n <<< (f - e)), e, Nat.lt_of_le_of_lt (Nat.mod_le _ _) hm, ?_⟩
    have hf : n <<< f = n <<< (f - e) <<< e := by
      rw [← Nat.shiftLeft_add, Nat.sub_add_cancel h]
    rw [hf, shiftLeft_mod_shiftLeft]
  · have he : m <<< e = m <<< (e - f) <<< f := by
      rw [← Nat.shiftLeft_add, Nat.sub_add_cancel h]
    rcases Nat.eq_zero_or_pos n with rfl | hpos
    · exact ⟨m, e, hm, by rw [Nat.zero_shiftLeft, Nat.mod_zero]⟩
    · refine ⟨m <<< (e - f) % n, f, Nat.lt_trans (Nat.mod_lt _ hpos) hn, ?_⟩
      rw [he, shiftLeft_mod_shiftLeft]

/-- The exact remainder of the division rounded toward zero, signed like the dividend. -/
def rem : Double → Double → Double
  | .finite s u hu, .finite _ v hv =>
    if v = 0 then .nan else .finite s (u % v) (fits_mod hu hv)
  | .finite s u hu, .infinite _ => .finite s u hu
  | _, _ => .nan

end Double

end ValueFlow
