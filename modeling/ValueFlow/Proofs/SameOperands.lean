import ValueFlow.Proofs.Interchange
import ValueFlow.Proofs.SignedZeros

/-!
# Operators on operands that are the same

A set keeps one of several values that are the same, so an operator that tells them apart loses a
result. No standard operator does, except that a quotient shows the sign of a zero divisor. Results
of comparisons and of logical operators are even equal.

* `PrefixOp.core_concur`, `BinaryOp.core_concur`: operators on values without provenance.
* `Value.TellsZerosApart`: the exception.
* `run_same_operands`: the operators of the table.
-/

namespace ValueFlow

open Arithmetic Comparison Logic Value

theorem Constant.matches_or_double {c d : Constant} (h : c.same d = true) :
    c.Matches d ∨ ∃ x y, c = .double x ∧ d = .double y ∧ x.same y = true := by
  cases c with
  | double x =>
    cases d with
    | double y => exact Or.inr ⟨x, y, rfl, rfl, h⟩
    | _ => cases h
  | _ => exact Or.inl (.of_not_isDouble h rfl)

theorem Constant.equal_congr {c c' d d' : Constant} (hc : c.same c' = true)
    (hd : d.same d' = true) : c.equal d = c'.equal d' := by
  have left : (Value.const c).same (.const c') = true := hc
  have right : (Value.const d).same (.const d') = true := hd
  have whole : c.same d = c'.same d' :=
    (same_congr_left left (.const d)).trans (same_congr_right right (.const c'))
  unfold Constant.equal
  rw [whole]
  rcases Constant.numbers_of_same hc with ⟨x, x', numberC, numberC', hx⟩ | ⟨none, none'⟩
  · rcases Constant.numbers_of_same hd with ⟨y, y', numberD, numberD', hy⟩ | ⟨none, none'⟩
    · rw [numberC, numberC', numberD, numberD']
      exact hx.compare hy _
    · rw [numberC, numberC', none, none']
  · rw [none, none']

theorem PrefixOp.core_concur (op : PrefixOp) {a b : Value} (h : a.same b = true) :
    Concur (fun r r' => r.same r' = true) (op.core a) (op.core b) := by
  rcases constants_of_same h with ⟨c, d, rfl, rfl, h⟩ | ⟨ha, hb⟩
  · rcases Constant.matches_or_double h with agree | ⟨x, y, rfl, rfl, h⟩
    · rw [op.core_of_matches agree]
      exact .refl same_refl _
    · cases op with
      | minus => exact Double.neg_same h
      | plus => exact h
      | not => rfl
      | bitNot => rfl
      | step op =>
        cases op with
        | inc => exact Double.add_same h (Double.same_refl _)
        | dec => exact Double.sub_same h (Double.same_refl _)
  · rw [op.core_strict ha, op.core_strict hb]
    rfl

namespace Comparison

variable {a a' b b' : Value}

theorem onConstants_congr {test : Constant → Constant → Bool}
    (ht : ∀ {c c' d d' : Constant}, c.same c' = true → d.same d' = true → test c d = test c' d')
    (ha : a.same a' = true) (hb : b.same b' = true) :
    onConstants test a b = onConstants test a' b' := by
  rcases constants_of_same ha with ⟨c, c', rfl, rfl, hc⟩ | ⟨unknown, unknown'⟩
  · rcases constants_of_same hb with ⟨d, d', rfl, rfl, hd⟩ | ⟨unknown, unknown'⟩
    · simp only [onConstants, ht hc hd]
    · rw [onConstants_strict test (Or.inr unknown), onConstants_strict test (Or.inr unknown')]
  · rw [onConstants_strict test (Or.inl unknown), onConstants_strict test (Or.inl unknown')]

theorem onNumbers_congr {test : Numeric → Numeric → Bool}
    (ht : ∀ {x x' y y' : Numeric}, x.Same x' → y.Same y' → test x y = test x' y')
    (ha : a.same a' = true) (hb : b.same b' = true) :
    onNumbers test a b = onNumbers test a' b' := by
  unfold onNumbers
  rcases numbers_of_same ha with ⟨x, x', numberA, numberA', hx⟩ | ⟨none, none'⟩
  · rcases numbers_of_same hb with ⟨y, y', numberB, numberB', hy⟩ | ⟨none, none'⟩
    · rw [numberA, numberA', numberB, numberB']
      simp only [ht hx hy]
    · rw [numberA, numberA', none, none']
  · rw [none, none']

end Comparison

namespace Logic

variable {a a' b b' : Value}

theorem binary_congr (bools : Bool → Bool → Bool) (ints : Int → Int → Int)
    (ha : a.same a' = true) (hb : b.same b' = true) :
    binary bools ints a b = binary bools ints a' b' := by
  rcases constants_of_same ha with ⟨c, c', rfl, rfl, hc⟩ | ⟨unknown, unknown'⟩
  · rcases constants_of_same hb with ⟨d, d', rfl, rfl, hd⟩ | ⟨unknown, unknown'⟩
    · -- A double on either side gives nothing determined.
      rcases Constant.matches_or_double hc with agree | ⟨x, y, rfl, rfl, -⟩
      · rcases Constant.matches_or_double hd with agree' | ⟨x, y, rfl, rfl, -⟩
        · exact binary_of_matches bools ints agree agree'
        · cases c <;> cases c' <;> rfl
      · rfl
    · rw [binary_strict bools ints (Or.inr unknown), binary_strict bools ints (Or.inr unknown')]
  · rw [binary_strict bools ints (Or.inl unknown), binary_strict bools ints (Or.inl unknown')]

theorem shortCircuit_congr (decider : Bool) (ha : a.same a' = true) (hb : b.same b' = true) :
    shortCircuit decider a b = shortCircuit decider a' b' := by
  rcases constants_of_same ha with ⟨c, c', rfl, rfl, hc⟩ | ⟨unknown, unknown'⟩
  · rcases Constant.matches_or_double hc with agree | ⟨x, y, rfl, rfl, -⟩
    · rcases agree.eq_or_entry with rfl | ⟨x, y, rfl, rfl⟩
      · rcases constants_of_same hb with ⟨d, d', rfl, rfl, hd⟩ | ⟨unknown, unknown'⟩
        · rcases Constant.matches_or_double hd with agree' | ⟨x, y, rfl, rfl, -⟩
          · rcases agree'.eq_or_entry with rfl | ⟨x, y, rfl, rfl⟩
            · rfl
            · cases c <;> rfl
          · cases c <;> rfl
        · rw [shortCircuit_of_not_isConstant decider c unknown,
            shortCircuit_of_not_isConstant decider c unknown']
      · rfl
    · rfl
  · rw [shortCircuit_strict decider unknown, shortCircuit_strict decider unknown']

end Logic

/-- The dividend is a number that shows which of the two zeros divides it. -/
def Value.TellsZerosApart (a b b' : Value) : Prop :=
  ∃ x z y y', a.numeric? = some x ∧ x.toDouble = .ok z ∧ b = .double y ∧ b' = .double y' ∧
    z.TellsZerosApart y y'

section

variable {a a' b b' : Value}

theorem Value.eq_double_of_numeric? {v : Value} {x : Double} (h : v.numeric? = some (.double x)) :
    v = .double x := by
  cases v with
  | const c =>
    cases c with
    | double y =>
      cases h
      rfl
    | _ => cases h
  | _ => cases h

theorem Arithmetic.divCore_concur (ha : a.same a' = true) (hb : b.same b' = true)
    (h : ¬ a.TellsZerosApart b b') :
    Concur (fun r r' => r.same r' = true) (divCore a b) (divCore a' b') := by
  refine binary_concur _ ha hb fun {x x' y y'} numberA numberB numberB' hx hy => ?_
  refine (hx.toDouble.and_left fun _ hz => hz).bind fun z z' hz => ?_
  cases hy with
  | int n =>
    refine (Concur.refl (fun _ => rfl) _).bind fun w w' hw => ?_
    subst hw
    exact Double.div_same hz.1 (Double.same_refl w) Double.not_tellsZerosApart_self
  | double hy =>
    refine Double.div_same hz.1 hy fun apart => h ?_
    exact ⟨x, z, _, _, numberA, hz.2, eq_double_of_numeric? numberB, eq_double_of_numeric? numberB',
      apart⟩

theorem Arithmetic.divCore_double {x : Numeric} {z : Double} (hx : a.numeric? = some x)
    (hz : x.toDouble = .ok z) (y : Double) : divCore a (.double y) = .ok (.double (z.div y)) := by
  have quotient : onDoubles Double.div x (.double y) = .ok (z.div y) := by
    rw [onDoubles, hz]
    rfl
  rw [divCore, binary_double_right _ _ hx rfl, quotient]
  rfl

/-- Where a quotient tells zeros apart, the quotients are the two infinities. -/
theorem Arithmetic.divCore_of_tellsZerosApart (ha : a.same a' = true)
    (h : a.TellsZerosApart b b') : ∃ negative, divCore a b = .ok (.double (.infinite negative)) ∧
      divCore a' b' = .ok (.double (.infinite !negative)) := by
  obtain ⟨x, z, y, y', hx, hz, rfl, rfl, signed, s, rfl, rfl⟩ := h
  obtain ⟨x', hx', hz'⟩ : ∃ x', a'.numeric? = some x' ∧ x'.toDouble = .ok z := by
    rcases numbers_of_same ha with ⟨n, x', hn, hx', same⟩ | ⟨none, -⟩
    · rw [hx] at hn
      cases hn
      refine ⟨x', hx', ?_⟩
      have rounded := same.toDouble
      rw [hz] at rounded
      cases hw : x'.toDouble with
      | ok w =>
        rw [hw] at rounded
        rw [Double.eq_of_same_of_isSigned rounded signed]
      | error e =>
        rw [hw] at rounded
        exact rounded.elim
    · rw [hx] at none
      cases none
  obtain ⟨negative, quotient⟩ := Double.div_zero_of_isSigned signed
  refine ⟨negative ^^ s, ?_, ?_⟩
  · rw [divCore_double hx hz, quotient]
  · rw [divCore_double hx' hz', quotient, Bool.xor_not]

/-- Operators do not tell values apart that are the same, unless they divide by zeros. -/
theorem BinaryOp.core_concur {op : BinaryOp} {f : BinaryCore} (hf : op.core? = some f)
    (ha : a.same a' = true) (hb : b.same b' = true)
    (h : op = .div → ¬ a.TellsZerosApart b b') :
    Concur (fun r r' => r.same r' = true) (f a b) (f a' b') := by
  have same : ∀ {x y : Except Fault Value}, x = y → Concur (fun r r' => r.same r' = true) x y := by
    rintro x _ rfl
    exact .refl same_refl x
  cases op with
  | plus =>
    cases hf
    exact binary_concur _ ha hb fun _ _ _ => onDoubles_concur Double.add_same
  | minus =>
    cases hf
    exact binary_concur _ ha hb fun _ _ _ => onDoubles_concur Double.sub_same
  | times =>
    cases hf
    exact binary_concur _ ha hb fun _ _ _ => onDoubles_concur Double.mul_same
  | div =>
    cases hf
    exact divCore_concur ha hb (h rfl)
  | mod =>
    cases hf
    exact binary_concur _ ha hb fun _ _ _ => remainder_concur
  | eq =>
    cases hf
    exact same (onConstants_congr Constant.equal_congr ha hb)
  | ne =>
    cases hf
    exact same (onConstants_congr (fun hc hd => by rw [Constant.equal_congr hc hd]) ha hb)
  | lt | le =>
    cases hf
    exact same (onNumbers_congr (fun hx hy => hx.compare hy _) ha hb)
  | gt | ge =>
    cases hf
    exact same (onNumbers_congr (fun hx hy => hy.compare hx _) ha hb)
  | bitAnd | bitOr | bitXor =>
    cases hf
    exact same (Logic.binary_congr _ _ ha hb)
  | and | or =>
    cases hf
    exact same (shortCircuit_congr _ ha hb)
  | _ => cases hf

end

theorem lift1_concur {f : UnaryCore} {a a' : Value} (ha : a.same a' = true)
    (h : Concur (fun r r' => r.same r' = true) (f a.core) (f a'.core)) :
    Concur (fun r r' => r.same r' = true) (lift1 f a) (lift1 f a') := by
  rw [lift1_eq, lift1_eq]
  exact h.map fun r r' hr => dependingOn_congr hr (provenance_congr ha)

theorem lift2_concur {f : BinaryCore} {a a' b b' : Value} (ha : a.same a' = true)
    (hb : b.same b' = true)
    (h : Concur (fun r r' => r.same r' = true) (f a.core b.core) (f a'.core b'.core)) :
    Concur (fun r r' => r.same r' = true) (lift2 f a b) (lift2 f a' b') := by
  rw [lift2_eq, lift2_eq]
  exact h.map fun r r' hr =>
    dependingOn_congr hr (union_congr (provenance_congr ha) (provenance_congr hb))

theorem BinaryOp.eq_div_of_symbol {op : BinaryOp} (h : op.symbol = "/") : op = .div :=
  @symbol_injective op .div h

/-- Operands that are the same give results that are the same, or both fail, unless they tell zeros
apart in a quotient; there both give an infinity, and the signs are opposite. -/
theorem run_same_operands : ∀ op ∈ OperatorTable.standard.entries, ∀ a a' b b' : Value,
    a.same a' = true → b.same b' = true →
      Concur (fun r r' => r.same r' = true) (op.run [a]) (op.run [a']) ∧
      (¬ (op.name = "/" ∧ a.core.TellsZerosApart b.core b'.core) →
        Concur (fun r r' => r.same r' = true) (op.run [a, b]) (op.run [a', b'])) ∧
      (op.name = "/" ∧ a.core.TellsZerosApart b.core b'.core →
        ∃ r r' negative, op.run [a, b] = .ok r ∧ op.run [a', b'] = .ok r' ∧
          r.core = .double (.infinite negative) ∧ r'.core = .double (.infinite !negative)) := by
  refine OperatorTable.forall_mem_standard ?unary ?binary
  case unary =>
    intro op a a' b b' ha _
    refine ⟨lift1_concur ha (op.core_concur (core_congr ha)), fun _ => rfl, ?_⟩
    rintro ⟨divides, -⟩
    cases op with
    | step op => cases op <;> exact absurd divides (by decide)
    | _ => exact absurd divides (by decide)
  case binary =>
    intro op f hf a a' b b' ha hb
    refine ⟨rfl, fun h => ?_, ?_⟩
    · refine lift2_concur ha hb (BinaryOp.core_concur hf (core_congr ha) (core_congr hb) ?_)
      rintro rfl apart
      exact h ⟨rfl, apart⟩
    · rintro ⟨divides, apart⟩
      cases BinaryOp.eq_div_of_symbol divides
      cases hf
      obtain ⟨negative, first, second⟩ :=
        Arithmetic.divCore_of_tellsZerosApart (core_congr ha) apart
      exact ⟨_, _, negative, lift2_of_core first, lift2_of_core second, core_dependingOn _ _,
        core_dependingOn _ _⟩

theorem Value.tellsZerosApart_one :
    (Value.int 1).TellsZerosApart (.double (.zero false)) (.double (.zero true)) := by
  have signed : Double.one.isSigned = true := by decide +kernel
  exact ⟨.int 1, .one, _, _, rfl, Numeric.toDouble_one, rfl, rfl, signed, false, rfl, rfl⟩

/-- Remainders by the two zeros are the same, and quotients are not. -/
theorem run_same_operands_dependentZero :
    (dependentZero false).same (dependentZero true) = true ∧
      Concur (fun r r' => r.same r' = true)
        ((Operator.binary "%" (lift2 modCore)).run [.int 1, dependentZero false])
        ((Operator.binary "%" (lift2 modCore)).run [.int 1, dependentZero true]) ∧
      ∃ r r' negative,
        (Operator.binary "/" (lift2 divCore)).run [.int 1, dependentZero false] = .ok r ∧
        (Operator.binary "/" (lift2 divCore)).run [.int 1, dependentZero true] = .ok r' ∧
        r.core = .double (.infinite negative) ∧ r'.core = .double (.infinite !negative) := by
  have remainder := run_same_operands (.binary "%" (lift2 modCore))
    (by simp [OperatorTable.standard, Arithmetic.operators]) (.int 1) (.int 1)
    (dependentZero false) (dependentZero true) (same_refl _) rfl
  have quotient := run_same_operands (.binary "/" (lift2 divCore))
    (by simp [OperatorTable.standard, Arithmetic.operators]) (.int 1) (.int 1)
    (dependentZero false) (dependentZero true) (same_refl _) rfl
  refine ⟨rfl, remainder.2.1 ?_, quotient.2.2 ⟨rfl, tellsZerosApart_one⟩⟩
  rintro ⟨divides, -⟩
  exact absurd divides (by decide)

/-- The two zeros are the same, and the quotients of one by them are not. -/
theorem quotient_tells_zeros_apart :
    ¬ ∀ op ∈ OperatorTable.standard.entries, ∀ a a' b b' : Value,
      a.same a' = true → b.same b' = true →
        Concur (fun r r' => r.same r' = true) (op.run [a, b]) (op.run [a', b']) := by
  intro h
  obtain ⟨a, b, b', zeros, apart⟩ : ∃ a b b' : Value, b.same b' = true ∧
      a.core.TellsZerosApart b.core b'.core :=
    ⟨.int 1, .double (.zero false), .double (.zero true), rfl, tellsZerosApart_one⟩
  obtain ⟨negative, first, second⟩ :=
    Arithmetic.divCore_of_tellsZerosApart (same_refl a.core) apart
  have concur := h (.binary "/" (lift2 divCore))
    (by simp [OperatorTable.standard, Arithmetic.operators]) a a b b' (same_refl a) zeros
  simp only [Operator.binary, lift2_of_core first, lift2_of_core second] at concur
  have cores := core_congr concur
  rw [core_dependingOn, core_dependingOn] at cores
  cases negative <;> cases cores

end ValueFlow
