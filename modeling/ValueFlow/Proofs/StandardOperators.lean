import ValueFlow.Operator.Standard
import ValueFlow.Proofs.Congruence
import ValueFlow.Proofs.Ensures
import ValueFlow.Proofs.Rounding

/-!
# The standard operators

What the table of standard operators holds, by the symbols that expressions are written with, and
what the operators give. On operands within 64 bits none of them fails, and the result is a constant
within 64 bits or is not determined.

* `lookup_unary`, `lookup_binary`, `forall_mem_standard`: the operators of the table are the lifted
  cores.
* `PrefixOp.core_ensures`, `BinaryOp.core_ensures`: the cores are total on operands in range.
* `BinaryOp.core_total`: without rounding they are total on all operands.
* `PrefixOp.core_strict`, `BinaryOp.core_strict`: what is no constant gives nothing determined.
* `PrefixOp.core_of_matches`, `BinaryOp.core_of_matches`: constants that match are not told apart.
-/

namespace ValueFlow

open Arithmetic Comparison Logic Value

def StepOp.core : StepOp → UnaryCore
  | .inc => incCore
  | .dec => decCore

def PrefixOp.core : PrefixOp → UnaryCore
  | .minus => negateCore
  | .plus => identityCore
  | .not => notCore
  | .bitNot => bitNotCore
  | .step op => op.core

/-- What an operator computes, unless it assigns. -/
def BinaryOp.core? : BinaryOp → Option BinaryCore
  | .plus => some plusCore
  | .minus => some minusCore
  | .times => some timesCore
  | .div => some divCore
  | .mod => some modCore
  | .eq => some eqCore
  | .ne => some neCore
  | .gt => some gtCore
  | .lt => some ltCore
  | .ge => some geCore
  | .le => some leCore
  | .bitAnd => some bitAndCore
  | .bitOr => some bitOrCore
  | .bitXor => some bitXorCore
  | .and => some andCore
  | .or => some orCore
  | _ => none

theorem BinaryOp.ofSymbol_symbol (op : BinaryOp) : ofSymbol op.symbol = .ok op := by
  cases op <;> rfl

theorem BinaryOp.symbol_injective {op op' : BinaryOp} (h : op.symbol = op'.symbol) : op = op' := by
  have read := op.ofSymbol_symbol
  rw [h, ofSymbol_symbol] at read
  exact (Except.ok.inj read).symm

namespace OperatorTable

theorem lookup_unary (op : PrefixOp) :
    standard.lookup? "unary" op.symbol = some (.unary op.symbol (lift1 op.core)) := by
  cases op with
  | step op => cases op <;> rfl
  | _ => rfl

theorem lookup_binary (op : BinaryOp) :
    standard.lookup? "binary" op.symbol =
      op.core?.map fun f => .binary op.symbol (lift2 f) := by
  cases op <;> rfl

theorem call_unary (op : PrefixOp) (v : Value) :
    standard.call "unary" op.symbol [v] = lift1 op.core v := by
  cases op with
  | step op => cases op <;> rfl
  | _ => rfl

theorem call_step (op : StepOp) (v : Value) :
    standard.call "unary" op.symbol [v] = lift1 op.core v := call_unary (.step op) v

theorem call_binary {op : BinaryOp} {f : BinaryCore} (hf : op.core? = some f) (v w : Value) :
    standard.call "binary" op.symbol [v, w] = lift2 f v w := by
  cases op <;> cases hf <;> rfl

/-- The table holds no other operators. -/
theorem forall_mem_standard {P : Operator → Prop}
    (unary : ∀ op : PrefixOp, P (.unary op.symbol (lift1 op.core)))
    (binary : ∀ (op : BinaryOp) (f : BinaryCore), op.core? = some f →
      P (.binary op.symbol (lift2 f))) :
    ∀ op ∈ standard.entries, P op := by
  simp only [standard, Arithmetic.operators, Comparison.operators, Logic.operators,
    List.forall_mem_append, List.forall_mem_cons]
  have last := List.forall_mem_nil P
  refine ⟨⟨?arithmetic, ?comparison⟩, ?logic⟩
  case arithmetic =>
    exact ⟨binary .plus _ rfl, binary .minus _ rfl, binary .times _ rfl, binary .div _ rfl,
      binary .mod _ rfl, unary .minus, unary .plus, unary (.step .inc), unary (.step .dec), last⟩
  case comparison =>
    exact ⟨binary .eq _ rfl, binary .ne _ rfl, binary .gt _ rfl, binary .lt _ rfl,
      binary .ge _ rfl, binary .le _ rfl, last⟩
  case logic =>
    exact ⟨unary .not, unary .bitNot, binary .bitAnd _ rfl, binary .bitOr _ rfl,
      binary .bitXor _ rfl, binary .and _ rfl, binary .or _ rfl, last⟩

end OperatorTable

/-- A compound assignment applies an operator that computes. -/
theorem BinaryOp.core?_of_compound? {op base : BinaryOp} (h : op.compound? = some base) :
    ∃ f, base.core? = some f := by
  cases op <;> cases h <;> exact ⟨_, rfl⟩

theorem BinaryOp.not_logical_of_compound? {op base : BinaryOp} (h : op.compound? = some base) :
    base ≠ .and ∧ base ≠ .or := by
  cases op <;> cases h <;> exact ⟨nofun, nofun⟩

theorem BinaryOp.compound?_eq_none {op : BinaryOp} {f : BinaryCore} (h : op.core? = some f) :
    op.compound? = none := by
  cases op <;> cases h <;> rfl

theorem BinaryOp.core?_eq_none {op base : BinaryOp} (h : op.compound? = some base) :
    op.core? = none := by
  cases op <;> cases h <;> rfl

theorem BinaryOp.core?_of_not_assigning {op : BinaryOp} (hop : op ≠ .assign)
    (hbase : op.compound? = none) : ∃ f, op.core? = some f := by
  cases op with
  | assign => exact absurd rfl hop
  | plusAssign | minusAssign | timesAssign | divAssign | modAssign | andAssign | orAssign
  | xorAssign => cases hbase
  | _ => exact ⟨_, rfl⟩

namespace Value

theorem core_of_not_isDependent {v : Value} (h : v.isDependent = false) : v.core = v := by
  cases v with
  | dependent v D => cases h
  | var x v D s => cases h
  | _ => rfl

theorem provenance_of_not_isDependent {v : Value} (h : v.isDependent = false) :
    v.provenance = [] := by
  cases v with
  | dependent v D => cases h
  | var x v D s => cases h
  | _ => rfl

end Value

/-- A lifted operator acts on the core, and its result depends on what the operand hands on. -/
theorem lift1_eq (f : UnaryCore) (a : Value) :
    lift1 f a = (f a.core).map (·.dependingOn a.provenance) := by
  unfold lift1
  split
  · cases f a.core <;> rfl
  · rename_i h
    rw [core_of_not_isDependent (Bool.eq_false_iff.mpr h),
      provenance_of_not_isDependent (Bool.eq_false_iff.mpr h)]
    cases f a <;> rfl

theorem lift2_eq (f : BinaryCore) (a b : Value) :
    lift2 f a b = (f a.core b.core).map (·.dependingOn (union a.provenance b.provenance)) := by
  unfold lift2
  split
  · cases f a.core b.core <;> rfl
  · rename_i h
    obtain ⟨ha, hb⟩ := Bool.or_eq_false_iff.mp (Bool.eq_false_iff.mpr h)
    rw [core_of_not_isDependent ha, core_of_not_isDependent hb,
      provenance_of_not_isDependent ha, provenance_of_not_isDependent hb]
    cases f a b <;> rfl

theorem lift1_eq_ok {f : UnaryCore} {a r : Value} (h : lift1 f a = .ok r) :
    ∃ c, f a.core = .ok c ∧ r = c.dependingOn a.provenance := by
  rw [lift1_eq] at h
  exact exists_of_map_eq_ok h

theorem lift2_eq_ok {f : BinaryCore} {a b r : Value} (h : lift2 f a b = .ok r) :
    ∃ c, f a.core b.core = .ok c ∧ r = c.dependingOn (union a.provenance b.provenance) := by
  rw [lift2_eq] at h
  exact exists_of_map_eq_ok h

theorem lift1_of_core {f : UnaryCore} {a c : Value} (h : f a.core = .ok c) :
    lift1 f a = .ok (c.dependingOn a.provenance) := by
  rw [lift1_eq, h]
  rfl

theorem lift2_of_core {f : BinaryCore} {a b c : Value} (h : f a.core b.core = .ok c) :
    lift2 f a b = .ok (c.dependingOn (union a.provenance b.provenance)) := by
  rw [lift2_eq, h]
  rfl

/-- Integers are within 64 bits. -/
def Constant.InRange : Constant → Prop
  | .int n _ => -0x8000000000000000 ≤ n ∧ n < 0x8000000000000000
  | _ => True

def Numeric.InRange : Numeric → Prop
  | .int n => -0x8000000000000000 ≤ n ∧ n < 0x8000000000000000
  | .double _ => True

theorem Word.wrap_range (n : Int) :
    -0x8000000000000000 ≤ wrap n ∧ wrap n < 0x8000000000000000 := by
  have low := @Int.le_bmod n 0x10000000000000000 (by decide)
  have high := @Int.bmod_lt n 0x10000000000000000 (by decide)
  unfold wrap
  omega

theorem Double.ofInt?_of_natAbs_le {n : Int} (h : n.natAbs ≤ 0x8000000000000000) :
    ∃ x, Double.ofInt? n = some x := by
  have small : n.natAbs < overflowFrom := Nat.lt_of_le_of_lt h (by decide +kernel)
  have finite : ofInt? n ≠ none := by
    rw [ne_eq, ofInt?_eq_none_iff, Nat.not_le]
    exact small
  exact Option.ne_none_iff_exists'.mp finite

theorem Numeric.toDouble_one : (Numeric.int 1).toDouble = .ok .one := by
  have whole : Double.ofInt? 1 = some .one := by decide +kernel
  rw [toDouble, whole]
  rfl

theorem Numeric.toDouble_of_inRange {x : Numeric} (h : x.InRange) :
    ∃ z, x.toDouble = .ok z := by
  cases x with
  | double z => exact ⟨z, rfl⟩
  | int n =>
    obtain ⟨low, high⟩ := h
    obtain ⟨z, hz⟩ := @Double.ofInt?_of_natAbs_le n (by omega)
    rw [toDouble, hz]
    exact ⟨z, rfl⟩

namespace Value

/-- If it is a constant, it is within 64 bits. -/
def InRange (v : Value) : Prop := ∀ c, v = .const c → c.InRange

/-- Holds of a constant, and of what is not determined. -/
def isPlain : Value → Bool
  | .const _ => true
  | .undetermined => true
  | _ => false

theorem isAtom_of_isPlain {v : Value} (h : v.isPlain = true) : v.isAtom = true := by
  cases v with
  | const c => rfl
  | undetermined => rfl
  | _ => cases h

def isDouble : Value → Bool
  | .const (.double _) => true
  | _ => false

theorem inRange_const {c : Constant} (h : c.InRange) : (Value.const c).InRange := by
  intro d hd
  cases hd
  exact h

theorem inRange_undetermined : Value.undetermined.InRange := by
  intro c hc
  cases hc

theorem numeric?_inRange {v : Value} (hv : v.InRange) {x : Numeric} (h : v.numeric? = some x) :
    x.InRange := by
  cases v with
  | const c =>
    have hc := hv c rfl
    cases c with
    | int n width =>
      cases h
      exact hc
    | double z =>
      cases h
      trivial
    | _ => cases h
  | _ => cases h

theorem isDouble_of_numeric? {v : Value} {z : Double} (h : v.numeric? = some (.double z)) :
    v.isDouble = true := by
  cases v with
  | const c =>
    cases c with
    | double z => rfl
    | _ => cases h
  | _ => cases h

/-- What a binary operator gives for `a` and `b`. -/
structure Combines (a b r : Value) : Prop where
  plain : r.isPlain = true
  inRange : r.InRange
  double : r.isDouble = true → a.isDouble = true ∨ b.isDouble = true

theorem Combines.undetermined (a b : Value) : Combines a b .undetermined :=
  ⟨rfl, inRange_undetermined, nofun⟩

theorem Combines.bool (a b : Value) (p : Bool) : Combines a b (.bool p) :=
  ⟨rfl, inRange_const trivial, nofun⟩

theorem Combines.int (a b : Value) (n : Int) : Combines a b (.int (Word.wrap n)) :=
  ⟨rfl, inRange_const (Word.wrap_range n), nofun⟩

/-- What a unary operator gives for `a`. -/
structure Transforms (a r : Value) : Prop where
  plain : r.isPlain = true
  inRange : a.InRange → r.InRange
  double : r.isDouble = true → a.isDouble = true

theorem Transforms.undetermined (a : Value) : Transforms a .undetermined :=
  ⟨rfl, fun _ => inRange_undetermined, nofun⟩

end Value

namespace Arithmetic

theorem onDoubles_total (f : Double → Double → Double) {x y : Numeric} (hx : x.InRange)
    (hy : y.InRange) : ∃ z, onDoubles f x y = .ok z := by
  obtain ⟨p, hp⟩ := Numeric.toDouble_of_inRange hx
  obtain ⟨q, hq⟩ := Numeric.toDouble_of_inRange hy
  rw [onDoubles, hp, hq]
  exact ⟨f p q, rfl⟩

theorem remainder_total {x y : Numeric} (hx : x.InRange) (hy : y.InRange) :
    ∃ z, remainder x y = .ok z := by
  obtain ⟨p, hp⟩ := Numeric.toDouble_of_inRange hx
  obtain ⟨q, hq⟩ := Numeric.toDouble_of_inRange hy
  rw [remainder, hp, hq]
  by_cases hzero : y.isZero = true
  · exact ⟨.nan, if_pos hzero⟩
  rw [if_neg hzero]
  cases hinf : p.isInfinite with
  | true => exact ⟨.nan, by simp [bind, Except.bind, pure, Except.pure, hinf]⟩
  | false => exact ⟨p.rem q, by simp [bind, Except.bind, pure, Except.pure, hinf]⟩

theorem binary_ensures {ints : Int → Int → Option Int}
    {doubles : Numeric → Numeric → Except Fault Double}
    (total : ∀ x y : Numeric, x.InRange → y.InRange → ∃ z, doubles x y = .ok z) (a b : Value) :
    Ensures (¬ (a.InRange ∧ b.InRange)) (Combines a b) (binary ints doubles a b) := by
  unfold binary
  split
  · split
    · exact .int a b _
    · exact .undetermined a b
  · rename_i x y notInts hx hy
    -- The results on doubles are not looked into: one of the operands is a double.
    have double : a.isDouble = true ∨ b.isDouble = true := by
      cases x with
      | double z => exact Or.inl (isDouble_of_numeric? hx)
      | int m =>
        cases y with
        | double z => exact Or.inr (isDouble_of_numeric? hy)
        | int n => exact (notInts m n rfl rfl).elim
    cases hz : doubles x y with
    | ok z => exact ⟨rfl, inRange_const trivial, fun _ => double⟩
    | error e =>
      rintro ⟨ha, hb⟩
      obtain ⟨z, hz'⟩ := total x y (numeric?_inRange ha hx) (numeric?_inRange hb hy)
      rw [hz] at hz'
      cases hz'
  · exact .undetermined a b

theorem unary_ensures {ints : Int → Int → Constant} {doubles : Double → Double}
    (range : ∀ n width, (Constant.int n width).InRange → (ints n width).InRange)
    (keeps : ∀ n width, (Value.const (ints n width)).isDouble = false) (a : Value) :
    Ensures False (Transforms a) (unary ints doubles a) := by
  unfold unary
  split
  · rename_i n width
    refine ⟨rfl, fun ha => inRange_const (range n width (ha _ rfl)), fun h => ?_⟩
    rw [keeps n width] at h
    cases h
  · exact ⟨rfl, fun _ => inRange_const trivial, fun _ => rfl⟩
  · exact .undetermined a

end Arithmetic

namespace Comparison

theorem onConstants_ensures (test : Constant → Constant → Bool) (a b : Value) :
    Ensures False (Combines a b) (onConstants test a b) := by
  unfold onConstants
  split
  · exact .bool _ _ _
  · exact .undetermined _ _

theorem onNumbers_ensures (test : Numeric → Numeric → Bool) (a b : Value) :
    Ensures False (Combines a b) (onNumbers test a b) := by
  unfold onNumbers
  split
  · exact .bool _ _ _
  · exact .undetermined _ _

end Comparison

namespace Logic

theorem binary_ensures (bools : Bool → Bool → Bool) (ints : Int → Int → Int) (a b : Value) :
    Ensures False (Combines a b) (binary bools ints a b) := by
  unfold binary
  split
  · exact .bool _ _ _
  · exact .int _ _ _
  · exact .undetermined _ _

theorem shortCircuit_ensures (decider : Bool) (a b : Value) :
    Ensures False (Combines a b) (shortCircuit decider a b) := by
  unfold shortCircuit
  split
  · split
    · exact .bool _ _ _
    · split
      · exact .bool _ _ _
      · exact .undetermined _ _
  · exact .undetermined _ _

theorem notCore_ensures (a : Value) : Ensures False (Transforms a) (notCore a) := by
  unfold notCore
  split
  · exact ⟨rfl, fun _ => inRange_const trivial, nofun⟩
  · exact .undetermined a

theorem bitNotCore_ensures (a : Value) : Ensures False (Transforms a) (bitNotCore a) := by
  unfold bitNotCore
  split
  · exact ⟨rfl, fun _ => inRange_const (Word.wrap_range _), nofun⟩
  · exact .undetermined a

end Logic

theorem PrefixOp.core_ensures (op : PrefixOp) (a : Value) :
    Ensures False (Transforms a) (op.core a) := by
  cases op with
  | minus =>
    refine unary_ensures ?_ (fun _ _ => rfl) a
    exact fun n _ _ => Word.wrap_range (-n)
  | plus =>
    refine unary_ensures ?_ (fun _ _ => rfl) a
    exact fun _ _ h => h
  | not => exact notCore_ensures a
  | bitNot => exact bitNotCore_ensures a
  | step op =>
    cases op with
    | inc =>
      refine unary_ensures ?_ (fun _ _ => rfl) a
      exact fun n _ _ => Word.wrap_range (n + 1)
    | dec =>
      refine unary_ensures ?_ (fun _ _ => rfl) a
      exact fun n _ _ => Word.wrap_range (n - 1)

/-- Next to a double, the operator rounds an integer whatever the operands are. -/
def BinaryOp.rounds : BinaryOp → Bool
  | .plus | .minus | .times | .div => true
  | _ => false

theorem BinaryOp.core_total {op : BinaryOp} {f : BinaryCore} (hf : op.core? = some f)
    (hop : op.rounds = false) (notMod : op ≠ .mod) (a b : Value) :
    Ensures False (Combines a b) (f a b) := by
  cases op with
  | plus | minus | times | div => cases hop
  | mod => exact absurd rfl notMod
  | eq | ne =>
    cases hf
    exact Comparison.onConstants_ensures _ a b
  | gt | lt | ge | le =>
    cases hf
    exact Comparison.onNumbers_ensures _ a b
  | bitAnd | bitOr | bitXor =>
    cases hf
    exact Logic.binary_ensures _ _ a b
  | and | or =>
    cases hf
    exact Logic.shortCircuit_ensures _ a b
  | _ => cases hf

/-- Only an operand out of range can make an operator fail. -/
theorem BinaryOp.core_ensures {op : BinaryOp} {f : BinaryCore} (hf : op.core? = some f)
    (a b : Value) : Ensures (¬ (a.InRange ∧ b.InRange)) (Combines a b) (f a b) := by
  cases op with
  | plus | minus | times | div =>
    cases hf
    exact Arithmetic.binary_ensures (fun _ _ => onDoubles_total _) a b
  | mod =>
    cases hf
    exact Arithmetic.binary_ensures (fun _ _ => remainder_total) a b
  | _ => exact (core_total hf rfl (by decide) a b).weaken False.elim

/-- A standard operator gives a plain value that depends on what its operands hand on. -/
theorem OperatorTable.run_standard : ∀ op ∈ standard.entries, ∀ (args : List Value) (r : Value),
    op.run args = .ok r →
      ∃ (c : Value) (D : List Value), c.isPlain = true ∧
        (∀ d ∈ D, ∃ a ∈ args, d ∈ a.provenance) ∧ r = c.dependingOn D := by
  refine forall_mem_standard ?unary ?binary
  case unary =>
    intro op args r hr
    match args with
    | [] => cases hr
    | [a] =>
      obtain ⟨c, hc, rfl⟩ := lift1_eq_ok hr
      have given := op.core_ensures a.core
      rw [hc] at given
      refine ⟨c, a.provenance, given.plain, ?_, rfl⟩
      exact fun d hd => ⟨a, List.mem_cons_self, hd⟩
    | _ :: _ :: _ => cases hr
  case binary =>
    intro op f hf args r hr
    match args with
    | [] => cases hr
    | [_] => cases hr
    | [a, b] =>
      obtain ⟨c, hc, rfl⟩ := lift2_eq_ok hr
      have given := BinaryOp.core_ensures hf a.core b.core
      rw [hc] at given
      refine ⟨c, union a.provenance b.provenance, given.plain, ?_, rfl⟩
      intro d hd
      rcases mem_union hd with hd | hd
      · exact ⟨a, List.mem_cons_self, hd⟩
      · exact ⟨b, List.mem_cons_of_mem a List.mem_cons_self, hd⟩
    | _ :: _ :: _ :: _ => cases hr

/-- The same constants, and of the two zeros the same one: they are the same and their quotients
differ. -/
structure Constant.Matches (c d : Constant) : Prop where
  same : c.same d = true
  double : (Value.const c).isDouble = true → c = d

theorem Constant.Matches.of_not_isDouble {c d : Constant} (h : c.same d = true)
    (hc : (Value.const c).isDouble = false) : c.Matches d := by
  refine ⟨h, fun double => ?_⟩
  rw [hc] at double
  cases double

/-- Constants that match are equal, or entries with one token. -/
theorem Constant.Matches.eq_or_entry {c d : Constant} (h : c.Matches d) :
    c = d ∨ ∃ a b, c = .entry a ∧ d = .entry b := by
  obtain ⟨same, double⟩ := h
  cases c with
  | entry a =>
    cases d with
    | entry b => exact Or.inr ⟨a, b, rfl, rfl⟩
    | _ => cases same
  | double x => exact Or.inl (double rfl)
  | null | bool | int | typeLiteral =>
    cases d <;> simp_all [Constant.same]

theorem Constant.Matches.numeric? {c d : Constant} (h : c.Matches d) :
    c.numeric? = d.numeric? := by
  rcases h.eq_or_entry with rfl | ⟨a, b, rfl, rfl⟩
  · rfl
  · rfl

theorem Constant.Matches.equal {c c' d d' : Constant} (hc : c.Matches c') (hd : d.Matches d') :
    c.equal d = c'.equal d' := by
  have left : (Value.const c).same (.const c') = true := hc.same
  have right : (Value.const d).same (.const d') = true := hd.same
  have congr : c.same d = c'.same d' :=
    (same_congr_left left (.const d)).trans (same_congr_right right (.const c'))
  unfold Constant.equal
  rw [hc.numeric?, hd.numeric?, congr]

theorem PrefixOp.core_of_matches (op : PrefixOp) {c d : Constant} (h : c.Matches d) :
    op.core (.const c) = op.core (.const d) := by
  rcases h.eq_or_entry with rfl | ⟨a, b, rfl, rfl⟩
  · rfl
  · cases op with
    | step op => cases op <;> rfl
    | _ => rfl

theorem PrefixOp.core_strict (op : PrefixOp) {a : Value} (ha : a.isConstant = false) :
    op.core a = .ok .undetermined := by
  cases a with
  | const c => cases ha
  | _ =>
    cases op with
    | step op => cases op <;> rfl
    | _ => rfl

theorem Value.constant?_of_not_isConstant {v : Value} (h : v.isConstant = false) :
    v.constant? = none := by
  cases v with
  | const c => cases h
  | _ => rfl

theorem Value.core_of_coreConstant? {v : Value} {c : Constant} (h : v.coreConstant? = some c) :
    v.core = .const c := by
  unfold coreConstant? at h
  cases core : v.core with
  | const d =>
    rw [core] at h
    cases h
    rfl
  | _ =>
    rw [core] at h
    cases h

theorem Value.numeric?_of_not_isConstant {v : Value} (h : v.isConstant = false) :
    v.numeric? = none := by
  cases v with
  | const c => cases h
  | _ => rfl

theorem Arithmetic.binary_strict (ints : Int → Int → Option Int)
    (doubles : Numeric → Numeric → Except Fault Double) {a b : Value}
    (h : a.isConstant = false ∨ b.isConstant = false) :
    binary ints doubles a b = .ok .undetermined := by
  unfold binary
  rcases h with h | h
  · rw [numeric?_of_not_isConstant h]
  · rw [numeric?_of_not_isConstant h]
    split <;> simp_all

theorem Comparison.onConstants_strict (test : Constant → Constant → Bool) {a b : Value}
    (h : a.isConstant = false ∨ b.isConstant = false) :
    onConstants test a b = .ok .undetermined := by
  unfold onConstants
  split
  · rcases h with h | h <;> cases h
  · rfl

theorem Comparison.onNumbers_strict (test : Numeric → Numeric → Bool) {a b : Value}
    (h : a.isConstant = false ∨ b.isConstant = false) :
    onNumbers test a b = .ok .undetermined := by
  unfold onNumbers
  split
  · rename_i hx hy
    rcases h with h | h
    · rw [numeric?_of_not_isConstant h] at hx
      cases hx
    · rw [numeric?_of_not_isConstant h] at hy
      cases hy
  · rfl

theorem Logic.binary_strict (bools : Bool → Bool → Bool) (ints : Int → Int → Int) {a b : Value}
    (h : a.isConstant = false ∨ b.isConstant = false) :
    binary bools ints a b = .ok .undetermined := by
  unfold binary
  split
  · rcases h with h | h <;> cases h
  · rcases h with h | h <;> cases h
  · rfl

theorem Logic.shortCircuit_strict (decider : Bool) {a b : Value} (h : a.isConstant = false) :
    shortCircuit decider a b = .ok .undetermined := by
  cases a with
  | const c => cases h
  | _ => rfl

theorem Logic.shortCircuit_of_not_isConstant (decider : Bool) (c : Constant) {b : Value}
    (h : b.isConstant = false) :
    shortCircuit decider (.const c) b = shortCircuit decider (.const c) .undetermined := by
  cases b with
  | const d => cases h
  | _ => cases c <;> rfl

/-- All operators but `&&` and `||` need to know both operands. -/
theorem BinaryOp.core_strict {op : BinaryOp} {f : BinaryCore} (hf : op.core? = some f)
    (hand : op ≠ .and) (hor : op ≠ .or) {a b : Value}
    (h : a.isConstant = false ∨ b.isConstant = false) : f a b = .ok .undetermined := by
  cases op with
  | plus | minus | times | div | mod =>
    cases hf
    exact Arithmetic.binary_strict _ _ h
  | eq | ne =>
    cases hf
    exact Comparison.onConstants_strict _ h
  | gt | lt | ge | le =>
    cases hf
    exact Comparison.onNumbers_strict _ h
  | bitAnd | bitOr | bitXor =>
    cases hf
    exact Logic.binary_strict _ _ h
  | and => exact absurd rfl hand
  | or => exact absurd rfl hor
  | _ => cases hf

theorem Arithmetic.binary_of_numeric? (ints : Int → Int → Option Int)
    (doubles : Numeric → Numeric → Except Fault Double) {a a' b b' : Value}
    (ha : a.numeric? = a'.numeric?) (hb : b.numeric? = b'.numeric?) :
    binary ints doubles a b = binary ints doubles a' b' := by
  unfold binary
  rw [ha, hb]

theorem Arithmetic.binary_double_left (ints : Int → Int → Option Int)
    (doubles : Numeric → Numeric → Except Fault Double) {a b : Value} {x : Double} {y : Numeric}
    (ha : a.numeric? = some (.double x)) (hb : b.numeric? = some y) :
    binary ints doubles a b = (doubles (.double x) y).map Value.double := by
  unfold binary
  rw [ha, hb]
  dsimp only
  cases doubles (.double x) y <;> rfl

theorem Arithmetic.binary_double_right (ints : Int → Int → Option Int)
    (doubles : Numeric → Numeric → Except Fault Double) {a b : Value} {x : Numeric} {y : Double}
    (ha : a.numeric? = some x) (hb : b.numeric? = some (.double y)) :
    binary ints doubles a b = (doubles x (.double y)).map Value.double := by
  unfold binary
  rw [ha, hb]
  cases x with
  | int m =>
    dsimp only
    cases doubles (.int m) (.double y) <;> rfl
  | double x =>
    dsimp only
    cases doubles (.double x) (.double y) <;> rfl

theorem Comparison.onNumbers_of_numeric? (test : Numeric → Numeric → Bool) {a a' b b' : Value}
    (ha : a.numeric? = a'.numeric?) (hb : b.numeric? = b'.numeric?) :
    onNumbers test a b = onNumbers test a' b' := by
  unfold onNumbers
  rw [ha, hb]

theorem Logic.binary_of_matches (bools : Bool → Bool → Bool) (ints : Int → Int → Int)
    {c c' d d' : Constant} (hc : c.Matches c') (hd : d.Matches d') :
    binary bools ints (.const c) (.const d) = binary bools ints (.const c') (.const d') := by
  rcases hc.eq_or_entry with rfl | ⟨a, b, rfl, rfl⟩
  · rcases hd.eq_or_entry with rfl | ⟨a, b, rfl, rfl⟩
    · rfl
    · cases c <;> rfl
  · rfl

/-- Operators do not tell constants apart that match. -/
theorem BinaryOp.core_of_matches {op : BinaryOp} {f : BinaryCore} (hf : op.core? = some f)
    (hand : op ≠ .and) (hor : op ≠ .or) {c c' d d' : Constant} (hc : c.Matches c')
    (hd : d.Matches d') : f (.const c) (.const d) = f (.const c') (.const d') := by
  have left := hc.numeric?
  have right := hd.numeric?
  have equal := hc.equal hd
  cases op with
  | plus | minus | times | div | mod =>
    cases hf
    exact Arithmetic.binary_of_numeric? _ _ left right
  | eq =>
    cases hf
    simp only [eqCore, onConstants, equal]
  | ne =>
    cases hf
    simp only [neCore, onConstants, equal]
  | gt | lt | ge | le =>
    cases hf
    exact Comparison.onNumbers_of_numeric? _ left right
  | bitAnd | bitOr | bitXor =>
    cases hf
    exact Logic.binary_of_matches _ _ hc hd
  | and => exact absurd rfl hand
  | or => exact absurd rfl hor
  | _ => cases hf

end ValueFlow
