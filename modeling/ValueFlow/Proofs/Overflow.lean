import ValueFlow.Proofs.StandardOperators

/-!
# Where operators fail

The operators of the table fail for one reason: a double is given next to an integer that has no
finite double near it, and the operator needs one. Sums, differences, products and quotients round
both operands first. A remainder looks at its operands before it rounds them, so that a zero divisor
and an infinite dividend keep it from failing.

* `Arithmetic.onDoubles_overflows`, `Arithmetic.remainder_overflows`: which numbers cannot be
  rounded.
* `BinaryOp.core_overflows`: the operators on values without provenance.
* `run_fails_iff_overflows`: the operators of the table.
-/

namespace ValueFlow

open Arithmetic Value

/-- Fails exactly if `p` holds, and then because of an integer that is too large. -/
def Overflows {α : Type} (p : Bool) : Except Fault α → Prop
  | .ok _ => p = false
  | .error e => p = true ∧ e = .tooLargeForDouble

namespace Overflows

variable {α β : Type} {p q : Bool} {x : Except Fault α}

theorem of_ensures {Q : α → Prop} (hx : Ensures False Q x) : Overflows false x := by
  obtain ⟨a, rfl, -⟩ := hx.exists_ok
  rfl

theorem map (hx : Overflows p x) (f : α → β) : Overflows p (x.map f) := by
  cases x with
  | ok a => exact hx
  | error e => exact hx

theorem bind {f : α → Except Fault β} (hx : Overflows p x)
    (hf : ∀ a, x = .ok a → Overflows q (f a)) : Overflows (p || q) (x >>= f) := by
  cases x with
  | ok a =>
    have hp : p = false := hx
    rw [hp]
    exact hf a rfl
  | error e =>
    obtain ⟨hp, he⟩ := hx
    rw [hp]
    exact ⟨rfl, he⟩

theorem eq_error (hx : Overflows p x) (hp : p = true) : x = .error .tooLargeForDouble := by
  cases x with
  | ok a => exact absurd (hx.symm.trans hp) nofun
  | error e => rw [hx.2]

theorem eq_ok (hx : Overflows p x) (hp : p = false) : ∃ a, x = .ok a := by
  cases x with
  | ok a => exact ⟨a, rfl⟩
  | error e => exact absurd (hx.1.symm.trans hp) nofun

end Overflows

namespace Numeric

/-- An integer with no finite double near it. -/
def isHuge : Numeric → Bool
  | .int n => decide (Double.overflowFrom ≤ n.natAbs)
  | .double _ => false

def isInfinite : Numeric → Bool
  | .int _ => false
  | .double x => x.isInfinite

theorem toDouble_overflows (x : Numeric) : Overflows x.isHuge x.toDouble := by
  cases x with
  | double z => rfl
  | int n =>
    rw [toDouble]
    cases h : Double.ofInt? n with
    | none =>
      have huge := (Double.ofInt?_eq_none_iff n).mp h
      exact ⟨decide_eq_true huge, rfl⟩
    | some z =>
      have fits : ¬ Double.overflowFrom ≤ n.natAbs := by
        rw [← Double.ofInt?_eq_none_iff, h]
        exact Option.some_ne_none z
      exact decide_eq_false fits

theorem isZero_of_isHuge {x : Numeric} (h : x.isHuge = true) : x.isZero = false := by
  cases x with
  | double z => cases h
  | int n =>
    have huge : Double.overflowFrom ≤ n.natAbs := of_decide_eq_true h
    have positive : 0 < Double.overflowFrom := by decide +kernel
    have nonzero : n ≠ 0 := Int.natAbs_pos.mp (Nat.lt_of_lt_of_le positive huge)
    exact beq_false_of_ne nonzero

/-- Rounding an integer gives no infinity. -/
theorem isInfinite_toDouble {x : Numeric} {z : Double} (h : x.toDouble = .ok z) :
    z.isInfinite = x.isInfinite := by
  cases x with
  | double y =>
    cases h
    rfl
  | int n =>
    rw [toDouble, Double.ofInt?] at h
    cases hy : Double.ofUnits (n < 0) (n.natAbs * Double.scale) 1 with
    | finite s u fits =>
      rw [hy] at h
      cases h
      rfl
    | nan | infinite =>
      rw [hy] at h
      cases h

end Numeric

namespace Arithmetic

theorem onDoubles_overflows (f : Double → Double → Double) (x y : Numeric) :
    Overflows (x.isHuge || y.isHuge) (onDoubles f x y) := by
  refine x.toDouble_overflows.bind fun p _ => ?_
  exact y.toDouble_overflows.map (f p)

theorem remainder_overflows (x y : Numeric) :
    Overflows (!y.isZero && (x.isHuge || !x.isInfinite && y.isHuge)) (remainder x y) := by
  unfold remainder
  cases y.isZero with
  | true => rfl
  | false =>
    refine x.toDouble_overflows.bind fun p hp => ?_
    rw [← Numeric.isInfinite_toDouble hp]
    cases p.isInfinite with
    | true => rfl
    | false => exact y.toDouble_overflows.map p.rem

end Arithmetic

namespace BinaryOp

/-- An integer is too large for the operator next to a double. -/
def overflowsOn (op : BinaryOp) : Numeric → Numeric → Bool
  | .int n, .double x =>
    decide (Double.overflowFrom ≤ n.natAbs) && (op.rounds || op == .mod && !x.isZero)
  | .double x, .int n =>
    decide (Double.overflowFrom ≤ n.natAbs) && (op.rounds || op == .mod && !x.isInfinite)
  | _, _ => false

def overflows (op : BinaryOp) (a b : Value) : Bool :=
  match a.numeric?, b.numeric? with
  | some x, some y => op.overflowsOn x y
  | _, _ => false

end BinaryOp

/-- Where one operand is a double, an operator on numbers overflows as its results on doubles do. -/
theorem Arithmetic.binary_overflows (ints : Int → Int → Option Int)
    {doubles : Numeric → Numeric → Except Fault Double} {p : Numeric → Numeric → Bool}
    (h : ∀ x y, Overflows (p x y) (doubles x y)) {op : BinaryOp}
    (left : ∀ n x, op.overflowsOn (.int n) (.double x) = p (.int n) (.double x))
    (right : ∀ x y, op.overflowsOn (.double x) y = p (.double x) y) (a b : Value) :
    Overflows (op.overflows a b) (binary ints doubles a b) := by
  unfold binary BinaryOp.overflows
  cases a.numeric? with
  | none => rfl
  | some x =>
    cases b.numeric? with
    | none => cases x <;> rfl
    | some y =>
      cases x with
      | double x =>
        dsimp only
        rw [right]
        exact (h (.double x) y).map Value.double
      | int m =>
        cases y with
        | double y =>
          dsimp only
          rw [left]
          exact (h (.int m) (.double y)).map Value.double
        | int n =>
          dsimp only
          cases ints m n <;> rfl

namespace BinaryOp

variable {op : BinaryOp} {f : BinaryCore}

/-- An operator that rounds nothing does not overflow. -/
theorem overflows_eq_false (hop : op.rounds = false) (notMod : op ≠ .mod) (a b : Value) :
    op.overflows a b = false := by
  unfold overflows
  cases a.numeric? with
  | none => rfl
  | some x =>
    cases b.numeric? with
    | none => rfl
    | some y => cases x <;> cases y <;> simp [overflowsOn, hop, notMod]

theorem core_overflows (hf : op.core? = some f) (a b : Value) :
    Overflows (op.overflows a b) (f a b) := by
  cases op with
  | plus | minus | times | div =>
    cases hf
    refine binary_overflows _ (onDoubles_overflows _) ?_ ?_ a b
    · intro n x
      simp [overflowsOn, rounds, Numeric.isHuge]
    · intro x y
      cases y <;> simp [overflowsOn, rounds, Numeric.isHuge]
  | mod =>
    cases hf
    refine binary_overflows _ remainder_overflows ?_ ?_ a b
    · intro n x
      simp [overflowsOn, rounds, Numeric.isHuge, Numeric.isZero, Bool.and_comm]
    · intro x y
      cases y with
      | double y => simp [overflowsOn, Numeric.isHuge]
      | int n =>
        -- A divisor that is too large is not zero, so that the dividend is looked at.
        by_cases huge : Double.overflowFrom ≤ n.natAbs
        · have nonzero := @Numeric.isZero_of_isHuge (.int n) (decide_eq_true huge)
          simp [overflowsOn, rounds, Numeric.isHuge, Numeric.isInfinite, huge, nonzero]
        · simp [overflowsOn, Numeric.isHuge, huge]
  | _ =>
    rw [overflows_eq_false rfl (by decide)]
    exact .of_ensures (core_total hf rfl (by decide) a b)

end BinaryOp

/-- An operator with one operand never fails. One with two fails exactly if an integer is too large
for it next to a double, and for no other reason. -/
theorem run_fails_iff_overflows : ∀ o ∈ OperatorTable.standard.entries,
    (o.ns = "unary" ∧ ∀ a : Value, ∃ r, o.run [a] = .ok r) ∨
    (o.ns = "binary" ∧ ∃ op : BinaryOp, o.name = op.symbol ∧ ∀ a b : Value,
      (op.overflows a.core b.core = true → o.run [a, b] = .error .tooLargeForDouble) ∧
      (op.overflows a.core b.core = false → ∃ r, o.run [a, b] = .ok r)) := by
  refine OperatorTable.forall_mem_standard ?unary ?binary
  case unary =>
    intro op
    refine Or.inl ⟨rfl, fun a => ?_⟩
    obtain ⟨c, hc, -⟩ := (op.core_ensures a.core).exists_ok
    exact ⟨c.dependingOn a.provenance, lift1_of_core hc⟩
  case binary =>
    intro op f hf
    refine Or.inr ⟨rfl, op, rfl, fun a b => ?_⟩
    have exact : Overflows (op.overflows a.core b.core) (lift2 f a b) := by
      rw [lift2_eq]
      exact (BinaryOp.core_overflows hf a.core b.core).map _
    exact ⟨exact.eq_error, exact.eq_ok⟩

/-- The least integer that is too large, as a dividend and as a divisor, and the greatest one that
is not. -/
theorem run_fails_iff_overflows_at_threshold :
    let huge : Value := .int Double.overflowFrom
    let remainder : Operator := .binary "%" (lift2 modCore)
    remainder.run [huge, .double .nan] = .error .tooLargeForDouble ∧
      (∃ r, remainder.run [huge, .double (.zero true)] = .ok r) ∧
      remainder.run [.double .nan, .dependent huge [.nothing]] = .error .tooLargeForDouble ∧
      (∃ r, remainder.run [.double (.infinite false), huge] = .ok r) ∧
      (∃ r, remainder.run [.int (Double.overflowFrom - 1), .double .nan] = .ok r) := by
  intro huge remainder
  have mem : remainder ∈ OperatorTable.standard.entries := by
    simp [remainder, OperatorTable.standard, Arithmetic.operators]
  rcases run_fails_iff_overflows remainder mem with ⟨unary, -⟩ | ⟨-, op, symbol, fails⟩
  · exact absurd unary (by decide)
  · have mod : op = .mod := BinaryOp.symbol_injective symbol.symm
    subst mod
    exact ⟨(fails _ _).1 (by decide +kernel), (fails _ _).2 (by decide +kernel),
      (fails _ _).1 (by decide +kernel), (fails _ _).2 (by decide +kernel),
      (fails _ _).2 (by decide +kernel)⟩

end ValueFlow
