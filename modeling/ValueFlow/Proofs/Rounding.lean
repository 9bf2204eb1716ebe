import ValueFlow.Number.Double

/-!
# Where rounding leaves the range

A magnitude that lies between two doubles is rounded to the nearer one, and to the one with an even
significand if it lies in the middle. Just below a power of two the upper neighbour is the power
itself, and its significand is even, so from the middle on magnitudes are rounded up to it. At the
power with which the range ends this gives the least integer that has no finite double near it.

* `roundUnits_le`, `le_roundUnits`: rounding neither goes below the leading power of two nor more
  than doubles a magnitude.
* `roundUnits_lt_iff`: the magnitudes that are not rounded up to a power of two.
* `ofInt?_eq_none_iff`: the integers without a finite double near them.
-/

namespace ValueFlow.Double

theorem roundUnits_one (u : Nat) :
    roundUnits u 1 = roundDiv u (1 <<< excess u) <<< excess u := by
  simp only [roundUnits, Nat.div_one]

theorem le_roundDiv (n d : Nat) : n / d ≤ roundDiv n d := by
  unfold roundDiv
  dsimp only
  split
  · omega
  · split <;> omega

/-- With an odd quotient a tie is rounded up. -/
theorem roundDiv_of_odd {n d : Nat} (odd : n / d % 2 = 1) :
    roundDiv n d = if 2 * (n % d) < d then n / d else n / d + 1 := by
  unfold roundDiv
  dsimp only
  split
  · rfl
  · split
    · rfl
    · rw [odd]

/-- Rounding to 53 bits at most doubles a magnitude. -/
theorem roundUnits_le (n : Nat) : roundUnits n 1 ≤ 2 * n + 1 := by
  have hk : 2 ^ excess n ≤ n + 1 := by
    rcases Nat.eq_zero_or_pos n with rfl | hpos
    · decide
    · have hle : 2 ^ excess n ≤ 2 ^ n.log2 :=
        Nat.pow_le_pow_right (by decide) (Nat.sub_le _ _)
      have hlog := Nat.log2_self_le (Nat.ne_of_gt hpos)
      omega
  have hround := roundDiv_le n (2 ^ excess n)
  calc roundUnits n 1 = roundDiv n (2 ^ excess n) * 2 ^ excess n := by
        rw [roundUnits_one, Nat.one_shiftLeft, Nat.shiftLeft_eq]
    _ ≤ (n / 2 ^ excess n + 1) * 2 ^ excess n := Nat.mul_le_mul_right _ hround
    _ = n / 2 ^ excess n * 2 ^ excess n + 2 ^ excess n := by rw [Nat.add_mul, Nat.one_mul]
    _ ≤ n + 2 ^ excess n := Nat.add_le_add_right (Nat.div_mul_le_self _ _) _
    _ ≤ 2 * n + 1 := by omega

theorem le_roundUnits {u : Nat} (long : 52 ≤ u.log2) : 1 <<< u.log2 ≤ roundUnits u 1 := by
  have nonzero : u ≠ 0 := by
    rintro rfl
    simp at long
  have leading : 2 ^ u.log2 = 2 ^ 52 * 2 ^ excess u := by
    rw [← Nat.pow_add, excess, Nat.add_sub_cancel' long]
  have significand : 2 ^ 52 ≤ u / 2 ^ excess u := by
    rw [Nat.le_div_iff_mul_le (Nat.two_pow_pos _), ← leading]
    exact Nat.log2_self_le nonzero
  calc 1 <<< u.log2 = 2 ^ 52 * 2 ^ excess u := by rw [Nat.one_shiftLeft, leading]
    _ ≤ u / 2 ^ excess u * 2 ^ excess u := Nat.mul_le_mul_right _ significand
    _ ≤ roundDiv u (2 ^ excess u) * 2 ^ excess u := Nat.mul_le_mul_right _ (le_roundDiv _ _)
    _ = roundUnits u 1 := by rw [roundUnits_one, Nat.one_shiftLeft, Nat.shiftLeft_eq]

/-- A significand of 53 ones is odd, so that a tie above it is rounded up to a power of two. -/
theorem roundDiv_lt_iff {u d : Nat} (hd : 0 < d) (short : u / d < 1 <<< 53) :
    roundDiv u d < 1 <<< 53 ↔ 2 * u + d < 1 <<< 54 * d := by
  have parts := Nat.div_add_mod u d
  have rest := Nat.mod_lt u hd
  simp only [Nat.reduceShiftLeft] at short ⊢
  by_cases ones : u / d = 0x1fffffffffffff
  · rw [roundDiv_of_odd (by omega)]
    rw [ones] at parts ⊢
    split <;> omega
  · have below : d * (u / d) ≤ d * 0x1ffffffffffffe := Nat.mul_le_mul_left d (by omega)
    have upper := roundDiv_le u d
    omega

theorem roundUnits_lt_iff (u k : Nat) :
    roundUnits u 1 < 1 <<< (53 + k) ↔ 2 * u + 1 <<< k < 1 <<< (54 + k) := by
  have hpos : 0 < 2 ^ k := Nat.two_pow_pos k
  -- Only a magnitude with as many bits as the greatest one below the power is decided by how it is
  -- rounded: shorter ones stay below the power, and longer ones are at least the power.
  rcases Nat.lt_trichotomy u.log2 (52 + k) with short | same | long
  · have hu : u < 2 ^ (52 + k) :=
      Nat.lt_of_lt_of_le Nat.lt_log2_self (Nat.pow_le_pow_right (by decide) short)
    have hround := roundUnits_le u
    simp only [Nat.one_shiftLeft, Nat.pow_add] at hu ⊢
    omega
  · have hk : excess u = k := by
      unfold excess
      omega
    have significand := shiftRight_excess_lt u
    rw [hk, Nat.shiftRight_eq_div_pow, ← Nat.one_shiftLeft] at significand
    rw [roundUnits_one, hk, Nat.shiftLeft_eq, Nat.shiftLeft_add, Nat.shiftLeft_add,
      Nat.shiftLeft_eq (1 <<< 53), Nat.shiftLeft_eq (1 <<< 54), Nat.mul_lt_mul_right hpos,
      ← Nat.one_shiftLeft]
    exact roundDiv_lt_iff (Nat.one_shiftLeft k ▸ hpos) significand
  · have nonzero : u ≠ 0 := by
      rintro rfl
      simp at long
    have hround := @le_roundUnits u (by omega)
    have hu := Nat.log2_self_le nonzero
    have power : 2 ^ (53 + k) ≤ 2 ^ u.log2 := Nat.pow_le_pow_right (by decide) (by omega)
    simp only [Nat.one_shiftLeft, Nat.pow_add] at hround power ⊢
    omega

theorem ofUnits_of_lt {negative : Bool} {n d : Nat} (h : roundUnits n d < limit) :
    ofUnits negative n d = .finite negative (roundUnits n d) ⟨h, roundUnits_significant n d⟩ :=
  dif_pos h

/-- The magnitude `2 ^ 1024 - 2 ^ 970`, in the middle between the greatest double and the end of the
range. -/
def overflowFrom : Nat := 1 <<< 1024 - 1 <<< 970

theorem roundUnits_lt_limit_iff (n : Nat) :
    roundUnits (n * scale) 1 < limit ↔ n < overflowFrom := by
  have positive : 0 < scale := by
    rw [scale, Nat.one_shiftLeft]
    exact Nat.two_pow_pos _
  have ulp : 1 <<< 2045 = 2 * 1 <<< 970 * scale := by decide +kernel
  have power : 1 <<< (54 + 2045) = 2 * 1 <<< 1024 * scale := by decide +kernel
  have units : 2 * (n * scale) + 1 <<< 2045 < 1 <<< (54 + 2045) ↔
      2 * n + 2 * 1 <<< 970 < 2 * 1 <<< 1024 := by
    rw [ulp, power, ← Nat.mul_assoc, ← Nat.add_mul, Nat.mul_lt_mul_right positive]
  refine (roundUnits_lt_iff (n * scale) 2045).trans (units.trans ?_)
  unfold overflowFrom
  generalize 1 <<< 1024 = a
  generalize 1 <<< 970 = b
  omega

/-- The integers without a finite double near them. -/
theorem ofInt?_eq_none_iff (n : Int) : ofInt? n = none ↔ overflowFrom ≤ n.natAbs := by
  rw [← Nat.not_lt, ← roundUnits_lt_limit_iff, ofInt?]
  by_cases inside : roundUnits (n.natAbs * scale) 1 < limit
  · rw [ofUnits_of_lt inside]
    exact iff_of_false nofun (not_not_intro inside)
  · rw [ofUnits, dif_neg inside]
    exact iff_of_true rfl inside

end ValueFlow.Double
