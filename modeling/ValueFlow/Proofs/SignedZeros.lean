import ValueFlow.Proofs.StandardOperators

/-!
# The two zeros

Doubles that are the same are equal, or zeros of opposite sign. Sums, differences, products and
remainders of doubles that are the same are the same; the sign of a zero shows in them only if the
result is a zero itself. A quotient is the exception: a number other than zero, divided by the two
zeros, gives the two infinities.

* `Double.eq_or_zero_of_same`: what sameness of doubles identifies.
* `Double.add_same`, `Double.mul_same`, `Double.rem_same`: operations that do not show it.
* `Double.div_same`, `Double.div_zero_of_isSigned`: when a quotient does, and how.
* `Arithmetic.binary_concur`: from doubles to operators.
-/

namespace ValueFlow

namespace Double

/-- Doubles that are the same are equal, or both zeros. -/
theorem eq_or_zero_of_same {x y : Double} (h : x.same y = true) :
    x = y ∨ ∃ s t, x = zero s ∧ y = zero t := by
  have places : x.line? = y.line? := beq_iff_eq.mp h
  cases x with
  | nan =>
    cases y with
    | nan => exact Or.inl rfl
    | _ => cases places
  | infinite s =>
    cases y with
    | infinite t => cases s <;> cases t <;> simp_all [line?]
    | finite t v hv => cases s <;> simp [line?] at places
    | nan => cases places
  | finite s u hu =>
    cases y with
    | finite t v hv =>
      have signed : (if s then -(u : Int) else u) = if t then -(v : Int) else v :=
        Line.point.inj (Option.some.inj places)
      have magnitude : u = v := by
        cases s <;> cases t <;> simp at signed <;> omega
      subst magnitude
      by_cases sign : s = t
      · exact Or.inl (by rw [sign])
      · have none : u = 0 := by
          cases s <;> cases t <;> simp at signed sign <;> omega
        subst none
        exact Or.inr ⟨s, t, rfl, rfl⟩
    | infinite t => cases t <;> simp [line?] at places
    | nan => cases places

theorem same_refl (x : Double) : x.same x = true := beq_self_eq_true _

theorem same_zero (s t : Bool) : (zero s).same (zero t) = true := by
  cases s <;> cases t <;> rfl

/-- An operation that tells the two zeros apart on neither side does not tell doubles apart that are
the same. -/
theorem same_of_zeros {f : Double → Double → Double}
    (left : ∀ y s t, (f (zero s) y).same (f (zero t) y) = true)
    (right : ∀ x s t, (f x (zero s)).same (f x (zero t)) = true) {x x' y y' : Double}
    (hx : x.same x' = true) (hy : y.same y' = true) : (f x y).same (f x' y') = true := by
  have first : (f x y).same (f x' y) = true := by
    rcases eq_or_zero_of_same hx with rfl | ⟨s, t, rfl, rfl⟩
    · exact same_refl _
    · exact left y s t
  have second : (f x' y).same (f x' y') = true := by
    rcases eq_or_zero_of_same hy with rfl | ⟨s, t, rfl, rfl⟩
    · exact same_refl _
    · exact right x' s t
  exact beq_iff_eq.mpr ((beq_iff_eq.mp first).trans (beq_iff_eq.mp second))

theorem roundUnits_zero (d : Nat) : roundUnits 0 d = 0 := by
  have quotient : ∀ k, roundDiv 0 k = 0 := by
    intro k
    simp [roundDiv]
  simp [roundUnits, quotient]

theorem ofUnits_zero (negative : Bool) (d : Nat) : ofUnits negative 0 d = zero negative := by
  simp [ofUnits, roundUnits_zero, limit_pos, zero]

theorem neg_same {x y : Double} (h : x.same y = true) : x.neg.same y.neg = true := by
  rcases eq_or_zero_of_same h with rfl | ⟨s, t, rfl, rfl⟩
  · exact same_refl _
  · exact same_zero (!s) (!t)

theorem add_comm (x y : Double) : x.add y = y.add x := by
  cases x with
  | nan => cases y <;> rfl
  | infinite s =>
    cases y with
    | infinite t => cases s <;> cases t <;> rfl
    | _ => rfl
  | finite s u hu =>
    cases y with
    | finite t v hv =>
      by_cases sign : s = t
      · subst sign
        simp only [add, if_true, Nat.add_comm]
      · have other : ¬ t = s := fun h => sign h.symm
        rcases Nat.lt_trichotomy u v with h | h | h
        · have not : ¬ v < u := by omega
          simp only [add, if_neg sign, if_neg other, if_pos h, if_neg not]
        · subst h
          simp only [add, if_neg sign, if_neg other, if_neg (Nat.lt_irrefl u)]
        · have not : ¬ u < v := by omega
          simp only [add, if_neg sign, if_neg other, if_pos h, if_neg not]
    | _ => rfl

theorem add_zero_of_pos {s : Bool} {u : Nat} {hu : Fits u} (pos : 0 < u) (t : Bool) :
    (finite s u hu).add (zero t) = ofUnits s u 1 := by
  have not : ¬ u < 0 := Nat.not_lt_zero u
  by_cases sign : s = t
  · simp only [zero, add, if_pos sign, Nat.add_zero]
  · simp only [zero, add, if_neg sign, if_neg not, if_pos pos, Nat.sub_zero]

theorem zero_add_zero (s t : Bool) : ∃ negative, (zero s).add (zero t) = zero negative := by
  by_cases sign : s = t
  · have sum : (zero s).add (zero t) = ofUnits s 0 1 := by
      simp only [zero, add, if_pos sign, Nat.add_zero]
    exact ⟨s, sum.trans (ofUnits_zero s 1)⟩
  · refine ⟨false, ?_⟩
    simp only [zero, add, if_neg sign, if_neg (Nat.lt_irrefl 0)]

/-- The sign of a zero shows in a sum only if that is a zero. -/
theorem add_zero_same (x : Double) (s t : Bool) :
    (x.add (zero s)).same (x.add (zero t)) = true := by
  cases x with
  | nan => rfl
  | infinite r => exact same_refl _
  | finite r u hu =>
    rcases Nat.eq_zero_or_pos u with rfl | pos
    · obtain ⟨left, hleft⟩ := zero_add_zero r s
      obtain ⟨right, hright⟩ := zero_add_zero r t
      rw [← zero, hleft, hright]
      exact same_zero left right
    · rw [add_zero_of_pos pos, add_zero_of_pos pos]
      exact same_refl _

theorem add_same {x x' y y' : Double} (hx : x.same x' = true) (hy : y.same y' = true) :
    (x.add y).same (x'.add y') = true := by
  refine same_of_zeros (fun z s t => ?_) add_zero_same hx hy
  rw [add_comm, add_comm (zero t)]
  exact add_zero_same z s t

theorem sub_same {x x' y y' : Double} (hx : x.same x' = true) (hy : y.same y' = true) :
    (x.sub y).same (x'.sub y') = true := add_same hx (neg_same hy)

theorem mul_comm (x y : Double) : x.mul y = y.mul x := by
  cases x with
  | nan => cases y <;> rfl
  | infinite s =>
    cases y with
    | nan => rfl
    | _ => simp only [mul, Bool.xor_comm]
  | finite s u hu =>
    cases y with
    | nan => rfl
    | _ => simp only [mul, Bool.xor_comm, Nat.mul_comm]

theorem mul_zero_same (x : Double) (s t : Bool) :
    (x.mul (zero s)).same (x.mul (zero t)) = true := by
  cases x with
  | nan => rfl
  | infinite r => rfl
  | finite r u hu =>
    have product : ∀ s, (finite r u hu).mul (zero s) = zero (r ^^ s) := by
      intro s
      simp only [zero, mul, Nat.mul_zero]
      exact ofUnits_zero (r ^^ s) scale
    rw [product, product]
    exact same_zero _ _

theorem mul_same {x x' y y' : Double} (hx : x.same x' = true) (hy : y.same y' = true) :
    (x.mul y).same (x'.mul y') = true := by
  refine same_of_zeros (fun z s t => ?_) mul_zero_same hx hy
  rw [mul_comm, mul_comm (zero t)]
  exact mul_zero_same z s t

theorem rem_zero (x : Double) (s : Bool) : x.rem (zero s) = .nan := by
  cases x <;> rfl

theorem zero_rem_same (y : Double) (s t : Bool) :
    ((zero s).rem y).same ((zero t).rem y) = true := by
  cases y with
  | nan => rfl
  | infinite r => exact same_zero s t
  | finite r v hv =>
    by_cases none : v = 0
    · subst none
      rfl
    · simp only [zero, rem, if_neg none, Nat.zero_mod]
      exact same_zero s t

theorem rem_same {x x' y y' : Double} (hx : x.same x' = true) (hy : y.same y' = true) :
    (x.rem y).same (x'.rem y') = true := by
  refine same_of_zeros zero_rem_same (fun z s t => ?_) hx hy
  rw [rem_zero, rem_zero]
  rfl

theorem zero_div_same (y : Double) (s t : Bool) :
    ((zero s).div y).same ((zero t).div y) = true := by
  cases y with
  | nan => rfl
  | infinite r => exact same_zero _ _
  | finite r v hv =>
    by_cases none : v = 0
    · subst none
      rfl
    · simp only [zero, div, if_neg none, Nat.zero_mul, ofUnits_zero]
      exact same_zero _ _

/-- Neither a zero nor NaN, so that it has a sign that counts. -/
def isSigned : Double → Bool
  | .nan => false
  | .infinite _ => true
  | .finite _ units _ => units != 0

theorem div_zero_of_isSigned {x : Double} (h : x.isSigned = true) :
    ∃ negative, ∀ s, x.div (zero s) = .infinite (negative ^^ s) := by
  cases x with
  | nan => cases h
  | infinite r => exact ⟨r, fun _ => rfl⟩
  | finite r u hu =>
    have some : u ≠ 0 := by simpa [isSigned] using h
    refine ⟨r, fun s => ?_⟩
    simp only [zero, div, if_true, if_neg some]

theorem div_zero_of_not_isSigned {x : Double} (h : x.isSigned = false) (s : Bool) :
    x.div (zero s) = .nan := by
  cases x with
  | nan => rfl
  | infinite r => cases h
  | finite r u hu =>
    have none : u = 0 := by simpa [isSigned] using h
    simp only [zero, div, if_true, if_pos none]

/-- A double with a sign is the same as itself only. -/
theorem eq_of_same_of_isSigned {x y : Double} (h : x.same y = true) (signed : x.isSigned = true) :
    x = y := by
  rcases eq_or_zero_of_same h with equal | ⟨s, t, rfl, -⟩
  · exact equal
  · cases signed

/-- The divisors are the two zeros, and the dividend shows which is which. -/
structure TellsZerosApart (x y y' : Double) : Prop where
  dividend : x.isSigned = true
  divisors : ∃ s, y = zero s ∧ y' = zero (!s)

theorem not_tellsZerosApart_self {x y : Double} : ¬ x.TellsZerosApart y y := by
  rintro ⟨-, s, rfl, opposite⟩
  cases s <;> cases opposite

/-- Quotients of doubles that are the same are the same, unless they tell zeros apart. -/
theorem div_same {x x' y y' : Double} (hx : x.same x' = true) (hy : y.same y' = true)
    (h : ¬ x.TellsZerosApart y y') : (x.div y).same (x'.div y') = true := by
  have first : (x.div y').same (x'.div y') = true := by
    rcases eq_or_zero_of_same hx with rfl | ⟨s, t, rfl, rfl⟩
    · exact same_refl _
    · exact zero_div_same y' s t
  have second : (x.div y).same (x.div y') = true := by
    rcases eq_or_zero_of_same hy with rfl | ⟨s, t, rfl, rfl⟩
    · exact same_refl _
    · cases signed : x.isSigned with
      | false =>
        rw [div_zero_of_not_isSigned signed, div_zero_of_not_isSigned signed]
        rfl
      | true =>
        by_cases sign : s = t
        · rw [sign]
          exact same_refl _
        · refine absurd ⟨signed, s, rfl, ?_⟩ h
          cases s <;> cases t <;> first | rfl | exact absurd rfl sign
  exact beq_iff_eq.mpr ((beq_iff_eq.mp second).trans (beq_iff_eq.mp first))

end Double

/-- Numbers that are the same and of one kind. -/
inductive Numeric.Same : Numeric → Numeric → Prop
  | int (n : Int) : Same (.int n) (.int n)
  | double {x y : Double} (h : x.same y = true) : Same (.double x) (.double y)

namespace Numeric.Same

variable {x y : Numeric}

theorem line? (h : x.Same y) : x.line? = y.line? := by
  cases h with
  | int n => rfl
  | double h => exact beq_iff_eq.mp h

theorem compare {x' y' : Numeric} (h : x.Same y) (h' : x'.Same y') (holds : Line → Line → Bool) :
    Numeric.compare holds x x' = Numeric.compare holds y y' := by
  simp only [Numeric.compare, h.line?, h'.line?]

theorem toDouble (h : x.Same y) :
    Concur (fun z z' => z.same z' = true) x.toDouble y.toDouble := by
  cases h with
  | int n => exact Concur.refl Double.same_refl _
  | double h => exact h

theorem isZero (h : x.Same y) : x.isZero = y.isZero := by
  cases h with
  | int n => rfl
  | double h =>
    rcases Double.eq_or_zero_of_same h with rfl | ⟨s, t, rfl, rfl⟩
    · rfl
    · rfl

end Numeric.Same

theorem Constant.numbers_of_same {c d : Constant} (h : c.same d = true) :
    (∃ x y, c.numeric? = some x ∧ d.numeric? = some y ∧ x.Same y) ∨
      c.numeric? = none ∧ d.numeric? = none := by
  cases c with
  | int n w =>
    cases d with
    | int m w' =>
      obtain ⟨value, -⟩ := (Bool.and_eq_true _ _).mp h
      rw [beq_iff_eq.mp value]
      exact Or.inl ⟨_, _, rfl, rfl, .int m⟩
    | _ => cases h
  | double x =>
    cases d with
    | double y => exact Or.inl ⟨_, _, rfl, rfl, .double h⟩
    | _ => cases h
  | _ =>
    cases d with
    | int m w' => cases h
    | double y => cases h
    | _ => exact Or.inr ⟨rfl, rfl⟩

namespace Value

variable {a b : Value}

theorem constants_of_same (h : a.same b = true) :
    (∃ c d, a = .const c ∧ b = .const d ∧ c.same d = true) ∨
      a.isConstant = false ∧ b.isConstant = false := by
  cases a with
  | const c =>
    cases b with
    | const d => exact Or.inl ⟨c, d, rfl, rfl, h⟩
    | _ => cases h
  | _ =>
    cases b with
    | const d => cases h
    | _ => exact Or.inr ⟨rfl, rfl⟩

/-- Values that are the same are numbers that are, or both none. -/
theorem numbers_of_same (h : a.same b = true) :
    (∃ x y, a.numeric? = some x ∧ b.numeric? = some y ∧ x.Same y) ∨
      a.numeric? = none ∧ b.numeric? = none := by
  rcases constants_of_same h with ⟨c, d, rfl, rfl, h⟩ | ⟨ha, hb⟩
  · exact Constant.numbers_of_same h
  · exact Or.inr ⟨numeric?_of_not_isConstant ha, numeric?_of_not_isConstant hb⟩

end Value

namespace Arithmetic

variable {x x' y y' : Numeric} {a a' b b' : Value}

theorem onDoubles_concur {f : Double → Double → Double}
    (hf : ∀ {x x' y y' : Double}, x.same x' = true → y.same y' = true →
      (f x y).same (f x' y') = true) (hx : x.Same x') (hy : y.Same y') :
    Concur (fun z z' => z.same z' = true) (onDoubles f x y) (onDoubles f x' y') :=
  hx.toDouble.bind fun _ _ hz => hy.toDouble.bind fun _ _ hw => hf hz hw

theorem remainder_concur (hx : x.Same x') (hy : y.Same y') :
    Concur (fun z z' => z.same z' = true) (remainder x y) (remainder x' y') := by
  unfold remainder
  rw [hy.isZero]
  split
  · rfl
  · refine hx.toDouble.bind fun z z' hz => ?_
    have infinite : z.isInfinite = z'.isInfinite := by
      rcases Double.eq_or_zero_of_same hz with rfl | ⟨s, t, rfl, rfl⟩
      · rfl
      · rfl
    rw [infinite]
    split
    · rfl
    · exact hy.toDouble.bind fun _ _ hw => Double.rem_same hz hw

/-- What is computed from operands that are the same is the same, if it is so for the numbers that
they are. -/
theorem binary_concur (ints : Int → Int → Option Int)
    {doubles : Numeric → Numeric → Except Fault Double} (ha : a.same a' = true)
    (hb : b.same b' = true)
    (hd : ∀ {x x' y y'}, a.numeric? = some x → b.numeric? = some y → b'.numeric? = some y' →
      x.Same x' → y.Same y' →
      Concur (fun z z' => z.same z' = true) (doubles x y) (doubles x' y')) :
    Concur (fun r r' => r.same r' = true) (binary ints doubles a b)
      (binary ints doubles a' b') := by
  unfold binary
  rcases Value.numbers_of_same ha with ⟨x, x', numberA, numberA', hx⟩ | ⟨none, none'⟩
  · rcases Value.numbers_of_same hb with ⟨y, y', numberB, numberB', hy⟩ | ⟨none, none'⟩
    · have computed := (hd numberA numberB numberB' hx hy).bind
        fun (z z' : Double) (hz : z.same z' = true) =>
          show Concur (fun r r' => Value.same r r' = true) (.ok (.double z)) (.ok (.double z'))
            from hz
      rw [numberA, numberA', numberB, numberB']
      cases hx with
      | int m =>
        cases hy with
        | int n =>
          dsimp only
          split
          · exact Value.same_refl _
          · rfl
        | double hy => exact computed
      | double hx => cases hy <;> exact computed
    · rw [numberA, numberA', none, none']
      cases hx <;> rfl
  · rw [none, none']
    rfl

end Arithmetic

end ValueFlow
