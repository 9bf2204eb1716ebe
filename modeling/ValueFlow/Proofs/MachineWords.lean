import ValueFlow.Proofs.StandardOperators

/-!
# Machine words

Integers are unbounded while an operator computes on them, and the result is reduced once, at the
end. This is the arithmetic of a machine with 64-bit words in two's complement: taking the low 64
bits commutes with sums, products and the bitwise operations, also on the endless digits of negative
numbers. It does not commute with division, so quotients and remainders are those of the machine
only for operands that are within 64 bits themselves.

* `Word.low_and`, `Word.low_or`, `Word.low_xor`, `Word.low_not`: the bitwise operations on the low
  bits.
* `BinaryOp.core_of_onWords?`, `PrefixOp.core_of_onWord?`, `BinaryOp.core_of_dividesWords?`: the
  operators on integers.
* `integers_compute_as_words`: the operators of the table.
-/

namespace ValueFlow

namespace Word

/-- The low 64 bits of an integer. -/
def low (n : Int) : BitVec 64 := .ofInt 64 n

theorem wrap_eq_toInt (n : Int) : wrap n = (low n).toInt := by
  rw [low, BitVec.toInt_ofInt]
  rfl

theorem wrap_toInt (x : BitVec 64) : wrap x.toInt = x.toInt := BitVec.toInt_bmod_cancel x

theorem toInt_range (x : BitVec 64) :
    -0x8000000000000000 ≤ x.toInt ∧ x.toInt < 0x8000000000000000 := by
  rw [← wrap_toInt x]
  exact wrap_range x.toInt

theorem toInt_low {n : Int} (least : -0x8000000000000000 ≤ n) (bound : n < 0x8000000000000000) :
    (low n).toInt = n := by
  rw [← wrap_eq_toInt, wrap]
  apply Int.bmod_eq_of_le_mul_two <;> omega

theorem low_add (m n : Int) : low (m + n) = low m + low n := BitVec.ofInt_add m n

theorem low_neg (n : Int) : low (-n) = -low n := BitVec.ofInt_neg

theorem low_mul (m n : Int) : low (m * n) = low m * low n := BitVec.ofInt_mul m n

theorem low_one : low 1 = 1#64 := rfl

theorem low_sub (m n : Int) : low (m - n) = low m - low n := by
  rw [Int.sub_eq_add_neg, low_add, low_neg, BitVec.sub_eq_add_neg]

theorem low_not (n : Int) : low (not n) = ~~~low n := by
  rw [not, low_sub, low_neg, low_one, BitVec.not_eq_neg_add]

theorem low_ofNat (n : Nat) : low (.ofNat n) = .ofNat 64 n := BitVec.ofInt_natCast 64 n

theorem low_negSucc (n : Nat) : low (.negSucc n) = ~~~BitVec.ofNat 64 n :=
  BitVec.ofInt_negSucc_eq_not_ofNat

theorem ofNat_butNot (m n : Nat) :
    BitVec.ofNat 64 (butNot m n) = BitVec.ofNat 64 m &&& ~~~BitVec.ofNat 64 n := by
  rw [butNot, BitVec.ofNat_xor, BitVec.ofNat_and]
  ext i hi
  simp only [BitVec.getElem_xor, BitVec.getElem_and, BitVec.getElem_not]
  cases (BitVec.ofNat 64 m)[i] <;> cases (BitVec.ofNat 64 n)[i] <;> rfl

theorem low_and (m n : Int) : low (and m n) = low m &&& low n := by
  cases m with
  | ofNat m =>
    cases n with
    | ofNat n => simp only [and, low_ofNat, BitVec.ofNat_and]
    | negSucc n => simp only [and, low_ofNat, low_negSucc, ofNat_butNot]
  | negSucc m =>
    cases n with
    | ofNat n => simp only [and, low_ofNat, low_negSucc, ofNat_butNot, BitVec.and_comm]
    | negSucc n => simp only [and, low_negSucc, BitVec.ofNat_or, BitVec.not_or]

theorem low_or (m n : Int) : low (or m n) = low m ||| low n := by
  cases m with
  | ofNat m =>
    cases n with
    | ofNat n => simp only [or, low_ofNat, BitVec.ofNat_or]
    | negSucc n =>
      simp only [or, low_ofNat, low_negSucc, ofNat_butNot, BitVec.not_and, BitVec.not_not,
        BitVec.or_comm]
  | negSucc m =>
    cases n with
    | ofNat n =>
      simp only [or, low_ofNat, low_negSucc, ofNat_butNot, BitVec.not_and, BitVec.not_not]
    | negSucc n => simp only [or, low_negSucc, BitVec.ofNat_and, BitVec.not_and]

theorem low_xor (m n : Int) : low (xor m n) = low m ^^^ low n := by
  cases m with
  | ofNat m =>
    cases n with
    | ofNat n => simp only [xor, low_ofNat, BitVec.ofNat_xor]
    | negSucc n => simp only [xor, low_ofNat, low_negSucc, BitVec.ofNat_xor, BitVec.not_xor_right]
  | negSucc m =>
    cases n with
    | ofNat n => simp only [xor, low_ofNat, low_negSucc, BitVec.ofNat_xor, BitVec.not_xor_left]
    | negSucc n =>
      simp only [xor, low_ofNat, low_negSucc, BitVec.ofNat_xor, ← BitVec.not_xor_left,
        ← BitVec.not_xor_right, BitVec.not_not]

end Word

open Word

/-- What a machine computes where an operator computes on two integers. -/
def BinaryOp.onWords? : BinaryOp → Option (BitVec 64 → BitVec 64 → BitVec 64)
  | .plus => some (· + ·)
  | .minus => some (· - ·)
  | .times => some (· * ·)
  | .bitAnd => some (· &&& ·)
  | .bitOr => some (· ||| ·)
  | .bitXor => some (· ^^^ ·)
  | _ => none

/-- The signed division of a machine, which rounds toward zero, and its remainder. -/
def BinaryOp.dividesWords? : BinaryOp → Option (BitVec 64 → BitVec 64 → BitVec 64)
  | .div => some BitVec.sdiv
  | .mod => some BitVec.srem
  | _ => none

def PrefixOp.onWord? : PrefixOp → Option (BitVec 64 → BitVec 64)
  | .minus => some (- ·)
  | .bitNot => some (~~~ ·)
  | .step .inc => some (· + 1#64)
  | .step .dec => some (· - 1#64)
  | _ => none

/-- Steps keep the width of their operand. -/
def PrefixOp.widthOf : PrefixOp → Int → Int
  | .step _, width => width
  | _, _ => 8

/-- Where the low bits of a result are known, it is reduced to their signed reading. -/
theorem Word.wrap_of_low {r : Int} {x : BitVec 64} (h : low r = x) : wrap r = x.toInt := by
  rw [wrap_eq_toInt, h]

/-- Sums, products and the bitwise operations are reduced to what a machine computes. -/
theorem BinaryOp.core_of_onWords? {op : BinaryOp} {g : BitVec 64 → BitVec 64 → BitVec 64}
    (hg : op.onWords? = some g) (m v n w : Int) :
    ∃ f, op.core? = some f ∧
      f (.const (.int m v)) (.const (.int n w)) =
        .ok (.const (.int (g (low m) (low n)).toInt 8)) := by
  have reduced : ∀ r, low r = g (low m) (low n) →
      (Except.ok (.int (wrap r)) : Except Fault Value) =
        .ok (.const (.int (g (low m) (low n)).toInt 8)) := by
    intro r h
    rw [wrap_of_low h]
    rfl
  cases op with
  | plus =>
    cases hg
    exact ⟨_, rfl, reduced (m + n) (low_add m n)⟩
  | minus =>
    cases hg
    exact ⟨_, rfl, reduced (m - n) (low_sub m n)⟩
  | times =>
    cases hg
    exact ⟨_, rfl, reduced (m * n) (low_mul m n)⟩
  | bitAnd =>
    cases hg
    exact ⟨_, rfl, reduced (Word.and m n) (low_and m n)⟩
  | bitOr =>
    cases hg
    exact ⟨_, rfl, reduced (Word.or m n) (low_or m n)⟩
  | bitXor =>
    cases hg
    exact ⟨_, rfl, reduced (Word.xor m n) (low_xor m n)⟩
  | _ => cases hg

theorem PrefixOp.core_of_onWord? {op : PrefixOp} {g : BitVec 64 → BitVec 64}
    (hg : op.onWord? = some g) (n width : Int) :
    op.core (.const (.int n width)) =
      .ok (.const (.int (g (low n)).toInt (op.widthOf width))) := by
  have reduced : ∀ r width', low r = g (low n) →
      (Except.ok (.const (.int (wrap r) width')) : Except Fault Value) =
        .ok (.const (.int (g (low n)).toInt width')) := by
    intro r width' h
    rw [wrap_of_low h]
  cases op with
  | minus =>
    cases hg
    exact reduced (-n) 8 (low_neg n)
  | bitNot =>
    cases hg
    exact reduced (Word.not n) 8 (low_not n)
  | step op =>
    cases op with
    | inc =>
      cases hg
      exact reduced (n + 1) width (low_add n 1)
    | dec =>
      cases hg
      exact reduced (n - 1) width (low_sub n 1)
  | _ => cases hg

namespace Arithmetic

theorem divCore_int (m v w : Int) {n : Int} (hn : n ≠ 0) :
    divCore (.const (.int m v)) (.const (.int n w)) = .ok (.int (wrap (m.tdiv n))) := by
  simp [divCore, binary, Value.numeric?, Value.constant?, Constant.numeric?, truncDiv, hn,
    Except.toOption]

theorem modCore_int (m v w : Int) {n : Int} (hn : n ≠ 0) :
    modCore (.const (.int m v)) (.const (.int n w)) = .ok (.int (wrap (m.tmod n))) := by
  simp [modCore, binary, Value.numeric?, Value.constant?, Constant.numeric?, truncMod, hn,
    Except.toOption]

end Arithmetic

/-- Quotients and remainders are taken of the integers themselves, and reduced like all else. -/
theorem BinaryOp.core_of_dividesWords? {op : BinaryOp} {g : BitVec 64 → BitVec 64 → BitVec 64}
    (hg : op.dividesWords? = some g) (m v n w : Int) :
    ∃ f, op.core? = some f ∧
      (n = 0 → f (.const (.int m v)) (.const (.int n w)) = .ok .undetermined) ∧
      (n ≠ 0 → ∃ r, f (.const (.int m v)) (.const (.int n w)) = .ok (.const (.int (wrap r) 8)) ∧
        ((Constant.int m v).InRange → (Constant.int n w).InRange →
          wrap r = (g (low m) (low n)).toInt)) := by
  cases op with
  | div =>
    cases hg
    refine ⟨_, rfl, ?_, fun hn => ⟨m.tdiv n, Arithmetic.divCore_int m v w hn, ?_⟩⟩
    · rintro rfl
      rfl
    · rintro ⟨leastM, boundM⟩ ⟨leastN, boundN⟩
      rw [BitVec.toInt_sdiv, toInt_low leastM boundM, toInt_low leastN boundN]
      rfl
  | mod =>
    cases hg
    refine ⟨_, rfl, ?_, fun hn => ⟨m.tmod n, Arithmetic.modCore_int m v w hn, ?_⟩⟩
    · rintro rfl
      rfl
    · -- A remainder of words is within 64 bits, so reducing it changes nothing.
      rintro ⟨leastM, boundM⟩ ⟨leastN, boundN⟩
      rw [← wrap_toInt ((low m).srem (low n)), BitVec.toInt_srem, toInt_low leastM boundM,
        toInt_low leastN boundN]
  | _ => cases hg

/-- On integers of any size and width, the operators give the signed reading of what a machine
computes on their low 64 bits. A quotient or remainder is that of the machine if both operands are
within 64 bits, and is not determined if the divisor is zero. Every result is within 64 bits and has
the width 8, or that of the operand if it was computed by a step. -/
theorem integers_compute_as_words (m v n w : Int) :
    (∀ (op : BinaryOp) (g : BitVec 64 → BitVec 64 → BitVec 64), op.onWords? = some g →
      ∃ r, OperatorTable.standard.call "binary" op.symbol
          [.const (.int m v), .const (.int n w)] = .ok (.const (.int r 8)) ∧
        (Constant.int r 8).InRange ∧ r = (g (low m) (low n)).toInt) ∧
    (∀ (op : PrefixOp) (g : BitVec 64 → BitVec 64), op.onWord? = some g →
      ∃ r, OperatorTable.standard.call "unary" op.symbol [.const (.int m v)] =
          .ok (.const (.int r (op.widthOf v))) ∧
        (Constant.int r (op.widthOf v)).InRange ∧ r = (g (low m)).toInt) ∧
    (∀ (op : BinaryOp) (g : BitVec 64 → BitVec 64 → BitVec 64), op.dividesWords? = some g →
      (n = 0 → OperatorTable.standard.call "binary" op.symbol
          [.const (.int m v), .const (.int n w)] = .ok .undetermined) ∧
      (n ≠ 0 → ∃ r, OperatorTable.standard.call "binary" op.symbol
          [.const (.int m v), .const (.int n w)] = .ok (.const (.int r 8)) ∧
        (Constant.int r 8).InRange ∧
        ((Constant.int m v).InRange → (Constant.int n w).InRange →
          r = (g (low m) (low n)).toInt))) := by
  refine ⟨fun op g hg => ?_, fun op g hg => ?_, fun op g hg => ?_⟩
  · obtain ⟨f, hf, result⟩ := BinaryOp.core_of_onWords? hg m v n w
    rw [OperatorTable.call_binary hf]
    exact ⟨_, result, toInt_range _, rfl⟩
  · rw [OperatorTable.call_unary]
    exact ⟨_, PrefixOp.core_of_onWord? hg m v, toInt_range _, rfl⟩
  · obtain ⟨f, hf, byZero, quotient⟩ := BinaryOp.core_of_dividesWords? hg m v n w
    rw [OperatorTable.call_binary hf]
    refine ⟨byZero, fun hn => ?_⟩
    obtain ⟨r, result, machine⟩ := quotient hn
    exact ⟨_, result, wrap_range r, machine⟩

/-- The least integer divided by -1 wraps around, and so does a step past the greatest one, which
keeps its width. Of an integer beyond 64 bits the low bits are combined. -/
theorem integers_compute_as_words_at_limits :
    let least : Value := .const (.int (-0x8000000000000000) 8)
    OperatorTable.standard.call "binary" "/" [least, .int (-1)] = .ok least ∧
      OperatorTable.standard.call "binary" "%" [least, .int (-1)] = .ok (.int 0) ∧
      OperatorTable.standard.call "binary" "%" [least, .int 0] = .ok .undetermined ∧
      OperatorTable.standard.call "unary" "++" [.const (.int 0x7FFFFFFFFFFFFFFF 2)] =
        .ok (.const (.int (-0x8000000000000000) 2)) ∧
      OperatorTable.standard.call "binary" "&" [.int 0x10000000000000006, .int (-3)] =
        .ok (.int 4) := by
  have inRange : ∀ n : Int, n = -0x8000000000000000 ∨ n = -1 → (Constant.int n 8).InRange := by
    rintro n (rfl | rfl)
    · exact ⟨by decide, by decide⟩
    · exact ⟨by decide, by decide⟩
  obtain ⟨-, -, least⟩ := integers_compute_as_words (-0x8000000000000000) 8 (-1) 8
  obtain ⟨q, quotient, -, hq⟩ := (least .div _ rfl).2 (by decide)
  obtain ⟨r, remainder, -, hr⟩ := (least .mod _ rfl).2 (by decide)
  obtain ⟨-, -, byZero⟩ := integers_compute_as_words (-0x8000000000000000) 8 0 8
  obtain ⟨-, steps, -⟩ := integers_compute_as_words 0x7FFFFFFFFFFFFFFF 2 0 8
  obtain ⟨i, increment, -, hi⟩ := steps (.step .inc) _ rfl
  obtain ⟨combined, -, -⟩ := integers_compute_as_words 0x10000000000000006 8 (-3) 8
  obtain ⟨c, conjunction, -, hc⟩ := combined .bitAnd _ rfl
  have hq := hq (inRange _ (Or.inl rfl)) (inRange _ (Or.inr rfl))
  have hr := hr (inRange _ (Or.inl rfl)) (inRange _ (Or.inr rfl))
  subst hq hr hi hc
  exact ⟨quotient, remainder, (byZero .mod _ rfl).1 rfl, increment, conjunction⟩

end ValueFlow
