import ValueFlow.Proofs.OperatorExpressions
import ValueFlow.Proofs.Overflow
import ValueFlow.Proofs.SameOperands

/-!
# The algebra of the operators

Comparisons are each other's negations and converses, negation exchanges `&&` and `||`, and sums,
products, bitwise operators and equality do not look at the order of their operands. All of this
holds of the operators on values without provenance, and lifting keeps it: what the operands hand on
is a set, and it goes through every operator that is applied to a result.

* `lift2_bind_lift1`, `lift1_bind_lift2`: operators one after the other, as one that is lifted.
* `lift2_swap`: lifted operators on exchanged operands.
* `Comparison.neCore_eq`, `Logic.shortCircuit_bind_not`: the laws of negation.
* `BinaryOp.core_comm`: the operators that commute.
* `operators_obey_algebra`: the laws on all values.
-/

namespace ValueFlow

open Value

/-- What an operator of the standard table gives. -/
def BinaryOp.apply (op : BinaryOp) (a b : Value) : Except Fault Value :=
  OperatorTable.standard.call "binary" op.symbol [a, b]

@[inherit_doc BinaryOp.apply]
def PrefixOp.apply (op : PrefixOp) (a : Value) : Except Fault Value :=
  OperatorTable.standard.call "unary" op.symbol [a]

/-- The computations give the same value, or both fail with one fault. -/
abbrev SameResult (x y : Except Fault Value) : Prop := Concur (fun r r' => r.same r' = true) x y

namespace SameResult

variable {x y z : Except Fault Value}

theorem symm (h : SameResult x y) : SameResult y x :=
  Concur.symm h fun r r' hr => (same_comm r' r).trans hr

theorem trans (hxy : SameResult x y) (hyz : SameResult y z) : SameResult x z :=
  Concur.trans hxy hyz fun _ _ _ => same_trans

end SameResult

section Lifting

theorem Value.core_dependingOn_of_isPlain {c : Value} (plain : c.isPlain = true) (D : List Value) :
    (c.dependingOn D).core = c := by
  rw [core_dependingOn]
  exact core_of_not_isDependent (isDependent_of_isAtom (isAtom_of_isPlain plain))

theorem Value.sameSet_provenance_dependingOn {c : Value} (plain : c.isPlain = true)
    (D : List Value) : sameSet (c.dependingOn D).provenance D = true :=
  sameSet_iff.mpr (provenance_dependingOn (isAtom_of_isPlain plain) D)

theorem concur_dependingOn_congr (x : Except Fault Value) {D E : List Value}
    (h : sameSet D E = true) :
    SameResult (x.map (·.dependingOn D)) (x.map (·.dependingOn E)) := by
  cases x with
  | ok c => exact dependingOn_congr (same_refl c) h
  | error e => rfl

theorem lift1_dependingOn (g : UnaryCore) {c : Value} (plain : c.isPlain = true) (D : List Value) :
    SameResult (lift1 g (c.dependingOn D)) ((g c).map (·.dependingOn D)) := by
  rw [lift1_eq, core_dependingOn_of_isPlain plain]
  exact concur_dependingOn_congr (g c) (sameSet_provenance_dependingOn plain D)

theorem lift2_dependingOn (f : BinaryCore) {c d : Value} (hc : c.isPlain = true)
    (hd : d.isPlain = true) (D E : List Value) :
    SameResult (lift2 f (c.dependingOn D) (d.dependingOn E))
      ((f c d).map (·.dependingOn (union D E))) := by
  rw [lift2_eq, core_dependingOn_of_isPlain hc, core_dependingOn_of_isPlain hd]
  apply concur_dependingOn_congr
  exact union_congr (sameSet_provenance_dependingOn hc D) (sameSet_provenance_dependingOn hd E)

theorem lift2_bind_lift1 {f : BinaryCore} (g : UnaryCore)
    (plain : ∀ x y, Ensures True (fun c => c.isPlain = true) (f x y)) (a b : Value) :
    SameResult (lift2 f a b >>= lift1 g) (lift2 (fun x y => f x y >>= g) a b) := by
  rw [lift2_eq, lift2_eq]
  have hc := plain a.core b.core
  cases h : f a.core b.core with
  | ok c =>
    rw [h] at hc
    exact lift1_dependingOn g hc _
  | error e => rfl

theorem lift1_bind_lift2 (f : BinaryCore) {g : UnaryCore}
    (plain : ∀ x, Ensures True (fun c => c.isPlain = true) (g x)) (a b : Value) :
    SameResult (do lift2 f (← lift1 g a) (← lift1 g b))
      (lift2 (fun x y => do f (← g x) (← g y)) a b) := by
  rw [lift1_eq, lift1_eq, lift2_eq]
  have hc := plain a.core
  have hd := plain b.core
  cases ha : g a.core with
  | ok c =>
    cases hb : g b.core with
    | ok d =>
      rw [ha] at hc
      rw [hb] at hd
      exact lift2_dependingOn f hc hd _ _
    | error e => rfl
  | error e => rfl

theorem lift2_swap {f g : BinaryCore} (h : ∀ x y, f x y = g y x) (a b : Value) :
    SameResult (lift2 f a b) (lift2 g b a) := by
  rw [lift2_eq, lift2_eq, h]
  exact concur_dependingOn_congr (g b.core a.core) (sameSet_union_comm _ _)

end Lifting

theorem Numeric.eq_comm (x y : Numeric) : x.eq y = y.eq x := by
  simp only [eq, compare]
  cases x.line? with
  | none => cases y.line? <;> rfl
  | some p =>
    cases y.line? with
    | none => rfl
    | some q => exact Bool.beq_comm

theorem Constant.equal_comm (c d : Constant) : c.equal d = d.equal c := by
  simp only [equal]
  cases c.numeric? with
  | none => cases d.numeric? <;> exact same_comm c d
  | some x =>
    cases d.numeric? with
    | none => exact same_comm c d
    | some y => exact x.eq_comm y

namespace Comparison

theorem onConstants_swap {test test' : Constant → Constant → Bool}
    (h : ∀ c d, test c d = test' d c) (x y : Value) :
    onConstants test x y = onConstants test' y x := by
  cases x with
  | const c =>
    cases y with
    | const d => simp only [onConstants, h]
    | _ => rfl
  | _ => cases y <;> rfl

theorem onNumbers_swap (test : Numeric → Numeric → Bool) (x y : Value) :
    onNumbers (fun m n => test n m) x y = onNumbers test y x := by
  simp only [onNumbers]
  cases x.numeric? with
  | none => cases y.numeric? <;> rfl
  | some m => cases y.numeric? <;> rfl

theorem neCore_eq (x y : Value) : neCore x y = eqCore x y >>= Logic.notCore := by
  cases x with
  | const c => cases y <;> rfl
  | _ => rfl

end Comparison

namespace Logic

/-- A value decides one of `&&` and `||` exactly if its negation decides the other. -/
theorem shortCircuit_bind_not (decider : Bool) (x y : Value) :
    (shortCircuit decider x y >>= notCore) =
      (do shortCircuit (!decider) (← notCore x) (← notCore y)) := by
  cases x with
  | const c =>
    cases c with
    | bool p =>
      cases y with
      | const d =>
        cases d with
        | bool q => cases decider <;> cases p <;> rfl
        | _ => cases decider <;> cases p <;> rfl
      | _ => cases decider <;> cases p <;> rfl
    | _ => cases y with
      | const d => cases d <;> rfl
      | _ => rfl
  | _ => cases y with
    | const d => cases d <;> rfl
    | _ => rfl

theorem binary_comm {bools : Bool → Bool → Bool} {ints : Int → Int → Int}
    (hb : ∀ p q, bools p q = bools q p) (hi : ∀ m n, ints m n = ints n m) (x y : Value) :
    binary bools ints x y = binary bools ints y x := by
  cases x with
  | const c =>
    cases y with
    | const d =>
      cases c with
      | bool p =>
        cases d with
        | bool q => simp only [binary, hb p q]
        | _ => rfl
      | int m v =>
        cases d with
        | int n w => simp only [binary, hi m n]
        | _ => rfl
      | _ => cases d <;> rfl
    | _ => cases c <;> rfl
  | _ =>
    cases y with
    | const d => cases d <;> rfl
    | _ => rfl

end Logic

namespace Word

theorem and_comm (m n : Int) : and m n = and n m := by
  cases m <;> cases n <;> simp only [and, Nat.and_comm, Nat.or_comm]

theorem or_comm (m n : Int) : or m n = or n m := by
  cases m <;> cases n <;> simp only [or, Nat.and_comm, Nat.or_comm]

theorem xor_comm (m n : Int) : xor m n = xor n m := by
  cases m <;> cases n <;> simp only [xor, Nat.xor_comm]

end Word

namespace Arithmetic

theorem onDoubles_comm {f : Double → Double → Double} (hf : ∀ x y, f x y = f y x) (x y : Numeric) :
    onDoubles f x y = onDoubles f y x := by
  have rounded := onDoubles_overflows f x y
  have rounded' := onDoubles_overflows f y x
  rw [Bool.or_comm] at rounded'
  cases huge : x.isHuge || y.isHuge with
  | true => rw [rounded.eq_error huge, rounded'.eq_error huge]
  | false =>
    obtain ⟨p, hp⟩ := x.toDouble_overflows.eq_ok (Bool.or_eq_false_iff.mp huge).1
    obtain ⟨q, hq⟩ := y.toDouble_overflows.eq_ok (Bool.or_eq_false_iff.mp huge).2
    simp only [onDoubles, hp, hq, bind, Except.bind, hf p q]

theorem binary_comm {ints : Int → Int → Option Int}
    {doubles : Numeric → Numeric → Except Fault Double} (hi : ∀ m n, ints m n = ints n m)
    (hd : ∀ x y, doubles x y = doubles y x) (a b : Value) :
    binary ints doubles a b = binary ints doubles b a := by
  simp only [binary]
  cases a.numeric? with
  | none =>
    cases b.numeric? with
    | none => rfl
    | some y => cases y <;> rfl
  | some x =>
    cases b.numeric? with
    | none => cases x <;> rfl
    | some y =>
      cases x with
      | int m =>
        cases y with
        | int n => simp only [hi m n]
        | double q => simp only [hd (.int m) (.double q)]
      | double p => simp only [hd (.double p) y]

end Arithmetic

open Arithmetic Comparison Logic

/-- The operators that do not look at the order of their operands. -/
def BinaryOp.commutative : List BinaryOp := [.plus, .times, .bitAnd, .bitOr, .bitXor, .eq, .ne]

theorem BinaryOp.core_comm {op : BinaryOp} (hop : op ∈ commutative) :
    ∃ f, op.core? = some f ∧ ∀ x y, f x y = f y x := by
  simp only [commutative, List.mem_cons, List.not_mem_nil, or_false] at hop
  rcases hop with rfl | rfl | rfl | rfl | rfl | rfl | rfl
  · refine ⟨plusCore, rfl, Arithmetic.binary_comm ?_ (onDoubles_comm Double.add_comm)⟩
    intro m n
    rw [Int.add_comm]
  · refine ⟨timesCore, rfl, Arithmetic.binary_comm ?_ (onDoubles_comm Double.mul_comm)⟩
    intro m n
    rw [Int.mul_comm]
  · exact ⟨bitAndCore, rfl, Logic.binary_comm Bool.and_comm Word.and_comm⟩
  · exact ⟨bitOrCore, rfl, Logic.binary_comm Bool.or_comm Word.or_comm⟩
  · exact ⟨bitXorCore, rfl, Logic.binary_comm Bool.xor_comm Word.xor_comm⟩
  · exact ⟨eqCore, rfl, onConstants_swap Constant.equal_comm⟩
  · refine ⟨neCore, rfl, onConstants_swap ?_⟩
    intro c d
    rw [Constant.equal_comm]

theorem bind_not_shortCircuit (decider : Bool) (a b : Value) :
    SameResult (lift2 (shortCircuit decider) a b >>= lift1 notCore)
      (do lift2 (shortCircuit !decider) (← lift1 notCore a) (← lift1 notCore b)) := by
  -- Both sides are one lifted operator, and on values without provenance these are equal.
  have first := lift2_bind_lift1 notCore
    (fun x y => ((shortCircuit_ensures decider x y).imp fun _ hc => hc.plain).weaken nofun) a b
  have last := lift1_bind_lift2 (shortCircuit !decider)
    (fun x => ((notCore_ensures x).imp fun _ hc => hc.plain).weaken nofun) a b
  simp only [shortCircuit_bind_not] at first
  exact first.trans last.symm

/-- The laws of the operators on all values, up to sameness and with the same faults. -/
theorem operators_obey_algebra (a b : Value) :
    SameResult (BinaryOp.ne.apply a b) (BinaryOp.eq.apply a b >>= PrefixOp.not.apply) ∧
    SameResult (BinaryOp.gt.apply a b) (BinaryOp.lt.apply b a) ∧
    SameResult (BinaryOp.ge.apply a b) (BinaryOp.le.apply b a) ∧
    SameResult (BinaryOp.and.apply a b >>= PrefixOp.not.apply)
      (do BinaryOp.or.apply (← PrefixOp.not.apply a) (← PrefixOp.not.apply b)) ∧
    SameResult (BinaryOp.or.apply a b >>= PrefixOp.not.apply)
      (do BinaryOp.and.apply (← PrefixOp.not.apply a) (← PrefixOp.not.apply b)) ∧
    ∀ op ∈ BinaryOp.commutative, SameResult (op.apply a b) (op.apply b a) := by
  have equality : ∀ x y, Ensures True (fun c => c.isPlain = true) (eqCore x y) := fun x y =>
    ((onConstants_ensures Constant.equal x y).imp fun _ hc => hc.plain).weaken nofun
  refine ⟨?ne, ?gt, ?ge, ?and, ?or, ?commutes⟩
  case ne =>
    have negated := lift2_bind_lift1 notCore equality a b
    simp only [← neCore_eq] at negated
    exact negated.symm
  case gt => exact lift2_swap (onNumbers_swap Numeric.lt) a b
  case ge => exact lift2_swap (onNumbers_swap Numeric.le) a b
  case and => exact bind_not_shortCircuit false a b
  case or => exact bind_not_shortCircuit true a b
  case commutes =>
    intro op hop
    obtain ⟨f, hf, comm⟩ := BinaryOp.core_comm hop
    rw [BinaryOp.apply, BinaryOp.apply, OperatorTable.call_binary hf, OperatorTable.call_binary hf]
    exact lift2_swap comm a b

/-- A sum with an integer that is too large for a double fails in either order. -/
theorem operators_obey_algebra_huge :
    let huge : Value := .var (.decl ⟨0, "x", .block⟩) (.int Double.overflowFrom) [] none
    let input : Value := .dependent (.double .one) [.external (.text "input")]
    BinaryOp.plus.apply huge input = .error .tooLargeForDouble ∧
      BinaryOp.plus.apply input huge = .error .tooLargeForDouble := by
  have commutes : ∀ a b : Value, BinaryOp.plus.apply a b = .error .tooLargeForDouble →
      BinaryOp.plus.apply b a = .error .tooLargeForDouble := by
    intro a b fails
    exact ((operators_obey_algebra a b).2.2.2.2.2 .plus (by decide)).eq_error fails
  intro huge input
  have hf : BinaryOp.plus.core? = some plusCore := rfl
  have overflows : BinaryOp.plus.overflows huge.core input.core = true := by decide +kernel
  have fails : BinaryOp.plus.apply huge input = .error .tooLargeForDouble := by
    rw [BinaryOp.apply, OperatorTable.call_binary hf, lift2_eq,
      (BinaryOp.core_overflows hf _ _).eq_error overflows]
    rfl
  exact ⟨fails, commutes huge input fails⟩

end ValueFlow
