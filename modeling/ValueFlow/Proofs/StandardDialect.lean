import ValueFlow.Evaluator
import ValueFlow.Proofs.Nodes
import ValueFlow.Proofs.StandardOperators

/-!
# Evaluation with the standard operators

What the parts of the evaluator come to where a language has the standard operators, and where it
has none: literals, operators, updates and the choice of a dialect, each as an equation in terms of
the lifted cores.

* `Literal.eval_gives`: what a literal can be.
* `Dialect.evalPrefix_standard`, `Dialect.evalBinary_standard`, `Dialect.evalBinary_compound`: the
  operators of a standard dialect.
* `Evaluator.dialectFor_result`: looking for a dialect always finds one.
* `Evaluator.eval_binary`, `Evaluator.report_ensures`: the evaluator around them.
-/

namespace ValueFlow

theorem Traced.liftM_result {α : Type} (x : Except Fault α) :
    (liftM x : Traced α).result = x := rfl

theorem Value.ofCharacter_cases (s : String) :
    (ofCharacter s).toOption.getD .undetermined = .undetermined ∨
      ∃ c : Char, (ofCharacter s).toOption.getD .undetermined = .char c.toNat := by
  unfold ofCharacter
  split
  · exact Or.inr ⟨_, rfl⟩
  · exact Or.inl rfl

/-- A literal is a constant within 64 bits or not known, and a double only if written as one. -/
theorem Literal.eval_gives (value : Literal) (isChar : Bool) :
    (value.eval isChar).isPlain = true ∧ (value.eval isChar).InRange ∧
      ((value.eval isChar).isDouble = true → ∃ x, value = .double x) := by
  cases value with
  | null => exact ⟨rfl, Value.inRange_const trivial, nofun⟩
  | bool b => exact ⟨rfl, Value.inRange_const trivial, nofun⟩
  | int n => exact ⟨rfl, Value.inRange_const (Word.wrap_range n), nofun⟩
  | double x => exact ⟨rfl, Value.inRange_const trivial, fun _ => ⟨x, rfl⟩⟩
  | text s =>
    cases isChar with
    | true =>
      rcases Value.ofCharacter_cases s with h | ⟨c, h⟩
      · rw [eval, if_pos rfl, h]
        exact ⟨rfl, Value.inRange_undetermined, nofun⟩
      · have small : c.toNat < 2 ^ 32 := c.val.toNat_lt
        rw [eval, if_pos rfl, h]
        exact ⟨rfl, Value.inRange_const ⟨by omega, by omega⟩, nofun⟩
    | false => exact ⟨rfl, Value.inRange_undetermined, nofun⟩
  | unit => exact ⟨rfl, Value.inRange_undetermined, nofun⟩

namespace Dialect

variable {d : Dialect} (operand left right : Value) (s : State) (target : Option Symbol)

/-- A dialect with the standard operators, or without any. -/
def IsTame (d : Dialect) : Prop := d.operators = none ∨ d.operators = some .standard

theorem evalPrefix_silent (hd : d.operators = none) (op : PrefixOp) :
    d.evalPrefix op operand s target = .ok ⟨.undetermined, s⟩ := by
  rw [evalPrefix, hd]

theorem evalPostfix_silent (hd : d.operators = none) (op : StepOp) :
    d.evalPostfix op operand s target = .ok ⟨.undetermined, s⟩ := by
  rw [evalPostfix, hd]

theorem evalBinary_silent (hd : d.operators = none) (op : BinaryOp) :
    d.evalBinary op left right s target = .ok ⟨.undetermined, s⟩ := by
  rw [evalBinary, hd]

theorem step_standard (op : StepOp) (after : Bool) :
    step .standard op after operand s target =
      (lift1 op.core operand).map fun new =>
        update (if after then operand else new) new s (updated? operand target) := by
  rw [step, OperatorTable.call_step]
  cases lift1 op.core operand <;> rfl

theorem evalPrefix_standard (hd : d.operators = some .standard) {op : PrefixOp}
    (hop : ∀ step, op ≠ .step step) :
    d.evalPrefix op operand s target = (lift1 op.core operand).map fun r => ⟨r, s⟩ := by
  have applied : apply .standard "unary" op.symbol [operand] s =
      (lift1 op.core operand).map fun r => ⟨r, s⟩ := by
    rw [apply, OperatorTable.lookup_unary]
    cases h : lift1 op.core operand with
    | ok r => simp only [Operator.unary, h]; rfl
    | error e => simp only [Operator.unary, h]; rfl
  rw [evalPrefix, hd]
  cases op with
  | step op => exact absurd rfl (hop op)
  | _ => exact applied

theorem evalPrefix_step (hd : d.operators = some .standard) (op : StepOp) :
    d.evalPrefix (.step op) operand s target =
      (lift1 op.core operand).map fun new => update new new s (updated? operand target) := by
  rw [evalPrefix, hd]
  exact step_standard operand s target op false

theorem evalPostfix_standard (hd : d.operators = some .standard) (op : StepOp) :
    d.evalPostfix op operand s target =
      (lift1 op.core operand).map fun new => update operand new s (updated? operand target) := by
  rw [evalPostfix, hd]
  exact step_standard operand s target op true

theorem evalBinary_standard (hd : d.operators = some .standard) {op : BinaryOp} {f : BinaryCore}
    (hf : op.core? = some f) :
    d.evalBinary op left right s target = (lift2 f left right).map fun r => ⟨r, s⟩ := by
  rw [evalBinary, hd, BinaryOp.compound?_eq_none hf]
  dsimp only
  rw [apply, OperatorTable.lookup_binary, hf]
  cases h : lift2 f left right with
  | ok r => simp only [Option.map_some, Operator.binary, h]; rfl
  | error e => simp only [Option.map_some, Operator.binary, h]; rfl

theorem evalBinary_compound (hd : d.operators = some .standard) {op base : BinaryOp}
    {f : BinaryCore} (hbase : op.compound? = some base) (hf : base.core? = some f) {x : Symbol}
    (hx : updated? left target = some x) :
    d.evalBinary op left right s target =
      (lift2 f left right).map fun new => ⟨.undetermined, s.assign x new none⟩ := by
  rw [evalBinary, hd, hbase]
  dsimp only
  rw [hx, OperatorTable.call_binary hf]
  cases lift2 f left right <;> rfl

theorem evalBinary_untargeted (hd : d.operators = some .standard) {op base : BinaryOp}
    (hbase : op.compound? = some base) (hx : updated? left target = none) :
    d.evalBinary op left right s target = .ok ⟨.undetermined, s⟩ := by
  rw [evalBinary, hd, hbase]
  dsimp only
  rw [hx]

theorem evalQualified_silent (hd : d.operators = none) (o : Outcome) :
    d.evalQualified o = ⟨.undetermined, o.state⟩ := by
  rw [evalQualified, hd]
  rfl

theorem evalQualified_state (d : Dialect) (o : Outcome) : (d.evalQualified o).state = o.state := by
  unfold evalQualified
  split <;> rfl

end Dialect

namespace Evaluator

/-- The dialect of a language, or one that knows nothing. -/
def dialect (ev : Evaluator) (language : Option String) : Dialect :=
  let name := orElse (language.getD "") ev.options.defaultLanguage
  (ev.dialects.find? name).getD ⟨name, none⟩

/-- Every language that a tree names has the standard operators. -/
def IsStandardFor (ev : Evaluator) (e : Expr) : Prop :=
  ∀ n ∈ e.nodes, ∀ language, n.language? = some language →
    (ev.dialect language).operators = some .standard

theorem isStandardFor_standard {e : Expr}
    (unnamed : ∀ n ∈ e.nodes, n.language? = none ∨ n.language? = some none) :
    IsStandardFor ⟨.standard, .standard⟩ e := by
  intro n hn language hl
  rcases unnamed n hn with h | h
  · rw [h] at hl
    cases hl
  · rw [h] at hl
    cases hl
    rfl

theorem dialectFor_result (ev : Evaluator) (language : Option String) :
    (ev.dialectFor language).result = .ok (ev.dialect language) := by
  unfold dialectFor Dialects.get dialect
  split
  · rename_i d hd
    simp [hd]
  · rename_i hnone
    simp only [hnone]
    rfl

theorem dialectFor_bind {α : Type} (ev : Evaluator) (language : Option String)
    (f : Dialect → Traced α) :
    (ev.dialectFor language >>= f).result = (f (ev.dialect language)).result := by
  rw [Traced.bind_of_ok (ev.dialectFor_result language)]

/-- Only `+` and `-` mean the same in every language. -/
theorem applyBinary_of_dialect (ev : Evaluator) (language : Option String) {op : BinaryOp}
    (hplus : op ≠ .plus) (hminus : op ≠ .minus) (left right : Value) (s : State)
    (target : Option Symbol) :
    (ev.applyBinary op language left right s target).result =
      (ev.dialect language).evalBinary op left right s target := by
  unfold applyBinary
  split
  · exact absurd rfl hplus
  · exact absurd rfl hminus
  · rw [dialectFor_bind, Traced.liftM_result]

theorem applyBinary_plus (ev : Evaluator) (language : Option String) (left right : Value)
    (s : State) (target : Option Symbol) :
    (ev.applyBinary .plus language left right s target).result =
      (lift2 Arithmetic.plusCore left right).map fun r => ⟨r, s⟩ := by
  unfold applyBinary Arithmetic.plus
  cases lift2 Arithmetic.plusCore left right <;> rfl

theorem applyBinary_minus (ev : Evaluator) (language : Option String) (left right : Value)
    (s : State) (target : Option Symbol) :
    (ev.applyBinary .minus language left right s target).result =
      (lift2 Arithmetic.minusCore left right).map fun r => ⟨r, s⟩ := by
  unfold applyBinary Arithmetic.minus
  cases lift2 Arithmetic.minusCore left right <;> rfl

theorem applyBinary_standard {ev : Evaluator} {language : Option String}
    (hd : (ev.dialect language).operators = some .standard) {op : BinaryOp} {f : BinaryCore}
    (hf : op.core? = some f) (left right : Value) (s : State) (target : Option Symbol) :
    (ev.applyBinary op language left right s target).result =
      (lift2 f left right).map fun r => ⟨r, s⟩ := by
  by_cases hplus : op = .plus
  · subst hplus
    cases hf
    exact ev.applyBinary_plus language left right s target
  by_cases hminus : op = .minus
  · subst hminus
    cases hf
    exact ev.applyBinary_minus language left right s target
  rw [applyBinary_of_dialect ev language hplus hminus, Dialect.evalBinary_standard _ _ _ _ hd hf]

theorem eval_binary {ev : Evaluator} {op : BinaryOp} (hop : op ≠ .assign) (id : Nat)
    (left right : Expr) (language : Option String) (s : State) :
    ev.eval (.binary id left op right language) s =
      ev.report (.binary id left op right language) do
        let l ← ev.eval left s
        if l.isReachable then
          let r ← ev.eval right l.state
          ev.applyBinary op language l.value r.value r.state left.target?
        else return ⟨.nothing, l.state⟩ := by
  rw [eval]
  exact hop

theorem choose_of_bool {condition : Value} {b : Bool}
    (h : condition.coreConstant? = some (.bool b)) (o p : Outcome) :
    choose condition o p = .ok (if b then o else p) := by
  rw [choose, h]

theorem choose_of_not_bool {condition : Value}
    (h : ∀ b, condition.coreConstant? ≠ some (.bool b)) (o p : Outcome) :
    choose condition o p = o.merge p := by
  unfold choose
  split
  · rename_i b hb
    exact absurd hb (h b)
  · rfl

theorem report_ensures {ev : Evaluator} {e : Expr} {run : Traced Outcome} {mayFail : Prop}
    {Q : Outcome → Prop} (hrun : Ensures mayFail Q run.result)
    (htext : ∀ o, Q o → Ensures mayFail (fun _ => True) o.value.text) :
    Ensures mayFail Q (ev.report e run).result := by
  unfold report
  refine hrun.bind_traced fun o ho => ?_
  dsimp only
  split
  · exact Ensures.bind_traced (htext o ho) fun _ _ => ho
  · exact ho

/-- Reporting a node does not change what it gives, and fails only if the value has no text. -/
theorem report_eq_ok_iff {ev : Evaluator} {e : Expr} {run : Traced Outcome} {o : Outcome} :
    (ev.report e run).result = .ok o ↔
      run.result = .ok o ∧ (ev.options.trace = true → ∃ t, o.value.text = .ok t) := by
  unfold report
  rw [Traced.bind_eq_ok_iff]
  cases ev.options.trace with
  | false => simp
  | true =>
    simp only [if_true, Traced.bind_eq_ok_iff, Traced.liftM_result, Traced.pure_result]
    constructor
    · rintro ⟨a, ha, t, ht, -, -, ⟨⟩⟩
      exact ⟨ha, fun _ => ⟨t, ht⟩⟩
    · rintro ⟨ho, text⟩
      obtain ⟨t, ht⟩ := text trivial
      exact ⟨o, ho, t, ht, (), rfl, rfl⟩

theorem report_of_text {ev : Evaluator} {e : Expr} {run : Traced Outcome} {o : Outcome}
    (h : run.result = .ok o) (text : ∃ t, o.value.text = .ok t) :
    (ev.report e run).result = .ok o :=
  report_eq_ok_iff.mpr ⟨h, fun _ => text⟩

/-- Where a result is not promised, its text need not be either. -/
theorem report_partial {ev : Evaluator} {e : Expr} {run : Traced Outcome} {Q : Outcome → Prop}
    (h : Ensures True Q run.result) : Ensures True Q (ev.report e run).result :=
  report_ensures h fun _ _ => Ensures.any _

theorem result_of_report {ev : Evaluator} {e : Expr} {run : Traced Outcome} {o : Outcome}
    (h : (ev.report e run).result = .ok o) : run.result = .ok o :=
  (report_eq_ok_iff.mp h).1

theorem report_pairs {ev ev' : Evaluator} {e e' : Expr} {x y : Traced Outcome}
    {R : Outcome → Outcome → Prop} (h : Pairs R x.result y.result) :
    Pairs R (ev.report e x).result (ev'.report e' y).result :=
  fun o p ho hp => h o p (result_of_report ho) (result_of_report hp)

end Evaluator

end ValueFlow
