import ValueFlow.Proofs.Interchange
import ValueFlow.Proofs.ReachableStates

/-!
# Compound assignments and steps

A compound assignment is an abbreviation: `x += e` gives what `x = (x + e)` gives. It is evaluated
in one go by the dialect, while the long form evaluates an operation, whatever is around it in
parentheses and then an assignment, which records its source. In the same way `++x` and `x++` bind
`x` to what `x += 1` binds it to, except that they keep the width of an integer.

* `Evaluator.eval_compound`, `Evaluator.eval_assigned_operation`: both forms, from the outcomes of
  their operands.
* `StepOp.core_eq_binary`: a step is an operation on 1.
* `Evaluator.compound_assignment_abbreviates`: the two forms agree on every state that evaluation
  leads to.
-/

namespace ValueFlow

open Value

/-- What a step does with the operand 1. -/
def StepOp.base : StepOp → BinaryOp
  | .inc => .plus
  | .dec => .minus

def StepOp.compound : StepOp → BinaryOp
  | .inc => .plusAssign
  | .dec => .minusAssign

/-- An expression without the parentheses around it. -/
def Expr.unparenthesized : Expr → Expr
  | .paren _ inner => inner.unparenthesized
  | e => e

theorem StepOp.compound_base (op : StepOp) : op.compound.compound? = some op.base := by
  cases op <;> rfl

/-- A step keeps the width of an integer, and an operation makes it 8. -/
theorem StepOp.core_eq_binary (op : StepOp) {f : BinaryCore} (hf : op.base.core? = some f)
    {v : Value} (width : ∀ n w, v = .const (.int n w) → w = 8) : op.core v = f v (.int 1) := by
  have rounded : ∀ ints (g : Double → Double → Double) (x : Double),
      Arithmetic.binary ints (Arithmetic.onDoubles g) (.const (.double x)) (.int 1) =
        .ok (.double (g x .one)) := by
    intro ints g x
    rw [Arithmetic.binary_double_left _ _ rfl rfl, Arithmetic.onDoubles,
      Numeric.toDouble_one]
    rfl
  cases v with
  | const c =>
    cases c with
    | int n w =>
      cases width n w rfl
      cases op <;> cases hf <;> rfl
    | double x =>
      cases op with
      | inc =>
        cases hf
        exact (rounded _ Double.add x).symm
      | dec =>
        cases hf
        exact (rounded _ Double.sub x).symm
    | _ => cases op <;> cases hf <;> rfl
  | _ => cases op <;> cases hf <;> rfl

theorem StepOp.lift1_eq_lift2 (op : StepOp) {f : BinaryCore} (hf : op.base.core? = some f)
    {v : Value} (width : ∀ n w, v.core = .const (.int n w) → w = 8) :
    lift1 op.core v = lift2 f v (.int 1) := by
  have none : union v.provenance (Value.int 1).provenance = v.provenance := by
    rw [union_eq_foldl]
    rfl
  rw [lift1_eq, lift2_eq, none, op.core_eq_binary hf width]
  rfl

namespace Evaluator

/-- Parentheses are evaluated to what is in them. -/
theorem eval_of_unparenthesized {ev : Evaluator} {e : Expr} {s : State} {o : Outcome}
    (h : (ev.eval e.unparenthesized s).result = .ok o) (text : ∃ t, o.value.text = .ok t) :
    (ev.eval e s).result = .ok o := by
  fun_induction Expr.unparenthesized e with
  | case1 id inner ih =>
    rw [eval]
    exact report_of_text (ih h) text
  | case2 e => exact h

section

variable {ev : Evaluator} {left right : Expr} {s : State} {l r : Outcome} {language : Option String}
  {op base : BinaryOp} {f : BinaryCore} {x : Symbol} {v : Value}

theorem eval_binary_of_unreachable (hop : op ≠ .assign) (hl : (ev.eval left s).result = .ok l)
    (stops : l.isReachable = false) (id : Nat) :
    (ev.eval (.binary id left op right language) s).result = .ok ⟨.nothing, l.state⟩ := by
  rw [eval_binary hop]
  refine report_of_text ?_ ⟨_, rfl⟩
  rw [Traced.bind_of_ok hl, stops]
  rfl

theorem eval_binary_of_ok (hop : op ≠ .assign) (hl : (ev.eval left s).result = .ok l)
    (goesOn : l.isReachable = true) (hr : (ev.eval right l.state).result = .ok r) {o : Outcome}
    (ho : (ev.applyBinary op language l.value r.value r.state left.target?).result = .ok o)
    (text : ∃ t, o.value.text = .ok t) (id : Nat) :
    (ev.eval (.binary id left op right language) s).result = .ok o := by
  rw [eval_binary hop]
  refine report_of_text ?_ text
  rw [Traced.bind_of_ok hl, goesOn, if_pos rfl, Traced.bind_of_ok hr]
  exact ho

variable (standard : (ev.dialect language).operators = some .standard)
  (target : left.target? = some x) (hl : (ev.eval left s).result = .ok l)
  (goesOn : l.isReachable = true)
include standard target hl goesOn

/-- The short form binds the target to what the operator computes. -/
theorem eval_compound (compound : op.compound? = some base) (hf : base.core? = some f)
    (hr : (ev.eval right l.state).result = .ok r) (hv : lift2 f l.value r.value = .ok v)
    (id : Nat) :
    (ev.eval (.binary id left op right language) s).result =
      .ok ⟨.undetermined, r.state.assign x v none⟩ := by
  have named : Dialect.updated? l.value left.target? = some x := by
    rw [target]
    rfl
  refine eval_binary_of_ok ?_ hl goesOn hr ?_ ⟨_, rfl⟩ id
  · rintro rfl
    cases compound
  · rw [applyBinary_of_dialect, Dialect.evalBinary_compound _ _ _ _ standard compound hf named, hv]
    · rfl
    · rintro rfl
      cases compound
    · rintro rfl
      cases compound

/-- The long form binds the target to it too, and records where it comes from. -/
theorem eval_assigned_operation (hf : base.core? = some f)
    (hr : (ev.eval right l.state).result = .ok r) (hv : lift2 f l.value r.value = .ok v)
    (goesOn' : v.isReachable = true) (text : ∃ t, v.text = .ok t) {id id' : Nat} {whole : Expr}
    (operation : whole.unparenthesized = .binary id left base right language)
    (language' : Option String) :
    (ev.eval (.binary id' left .assign whole language') s).result =
      .ok ⟨.undetermined, r.state.assign x v (some whole)⟩ := by
  have computed : (ev.eval whole s).result = .ok ⟨v, r.state⟩ := by
    refine eval_of_unparenthesized ?_ text
    rw [operation]
    refine eval_binary_of_ok ?_ hl goesOn hr ?_ text id
    · rintro rfl
      cases hf
    · rw [applyBinary_standard standard hf, hv]
      rfl
  have assigned : Evaluator.assign left.target? whole ⟨v, r.state⟩ =
      ⟨.undetermined, r.state.assign x v (some whole)⟩ := by
    unfold Evaluator.assign
    rw [target]
    exact if_pos goesOn'
  rw [eval]
  refine report_of_text ?_ ⟨_, rfl⟩
  rw [Traced.bind_of_ok computed, assigned]
  rfl

theorem eval_prefixed_step {step : StepOp} (hv : lift1 step.core l.value = .ok v)
    (text : ∃ t, v.text = .ok t) (id : Nat) :
    (ev.eval (.prefixed id (.step step) left language) s).result =
      .ok ⟨v, l.state.assign x v none⟩ := by
  rw [eval]
  refine report_of_text ?_ text
  rw [Traced.bind_of_ok hl, goesOn, if_pos rfl, dialectFor_bind, Traced.liftM_result,
    Dialect.evalPrefix_step _ _ _ standard, hv, target]
  rfl

theorem eval_postfixed_step {step : StepOp} (hv : lift1 step.core l.value = .ok v)
    (text : ∃ t, l.value.text = .ok t) (id : Nat) :
    (ev.eval (.postfixed id left step language) s).result =
      .ok ⟨l.value, l.state.assign x v none⟩ := by
  rw [eval]
  refine report_of_text ?_ text
  rw [Traced.bind_of_ok hl, goesOn, if_pos rfl, dialectFor_bind, Traced.liftM_result,
    Dialect.evalPostfix_standard _ _ _ standard, hv, target]
  rfl

end

theorem eval_literal_one (ev : Evaluator) (id : Nat) (isChar : Bool) (s : State) :
    (ev.eval (.literal id (.int 1) isChar) s).result = .ok ⟨.int 1, s⟩ := by
  rw [eval]
  exact report_of_text rfl ⟨_, rfl⟩

section

variable {ev : Evaluator} {left : Expr} {s : State} {l : Outcome} {x : Symbol}
  {language : Option String} (hl : (ev.eval left s).result = .ok l) (regular : l.value.Regular)
  (target : left.target? = some x)
  (standard : (ev.dialect language).operators = some .standard)
include hl regular target standard

theorem compound_agrees (good : l.state.Good) {right : Expr}
    (nodes : ∀ n ∈ right.nodes, n.isNode = true)
    (tame : ∀ n ∈ right.nodes, ∀ language, n.language? = some language →
      (ev.dialect language).IsTame)
    {op base : BinaryOp} (compound : op.compound? = some base) {j : Nat} {whole : Expr}
    (operation : whole.unparenthesized = .binary j left base right language) (i k : Nat)
    (language' : Option String) :
    ∃ o p, (ev.eval (.binary i left op right language) s).result = .ok o ∧
      (ev.eval (.binary k left .assign whole language') s).result = .ok p ∧
      o.value = p.value ∧ o.state.same p.state = true := by
  obtain ⟨f, hf⟩ := BinaryOp.core?_of_compound? compound
  have hop : op ≠ .assign := by
    rintro rfl
    cases compound
  have hbase : base ≠ .assign := by
    rintro rfl
    cases hf
  cases goesOn : l.isReachable with
  | false =>
    have computed : (ev.eval whole s).result = .ok ⟨.nothing, l.state⟩ := by
      refine eval_of_unparenthesized ?_ ⟨_, rfl⟩
      rw [operation]
      exact eval_binary_of_unreachable hbase hl goesOn j
    have assigned : (ev.eval (.binary k left .assign whole language') s).result =
        .ok ⟨.nothing, l.state⟩ := by
      rw [eval]
      refine report_of_text ?_ ⟨_, rfl⟩
      rw [Traced.bind_of_ok computed]
      rfl
    exact ⟨_, _, eval_binary_of_unreachable hop hl goesOn i, assigned, rfl, State.same_refl _⟩
  | true =>
    obtain ⟨r, hr, -, regularRight⟩ := eval_regular nodes tame good
    obtain ⟨v, hv, shaped⟩ := (regular.lift2 regularRight hf).exists_ok
    have text : ∃ t, v.text = .ok t := Value.Regular.text (Or.inr shaped)
    refine ⟨_, _, eval_compound standard target hl goesOn compound hf hr hv i,
      eval_assigned_operation standard target hl goesOn hf hr hv shaped.isReachable text operation
        language', rfl, ?_⟩
    -- The states differ in the source of the binding, which sameness ignores.
    exact State.assign_congr (State.same_refl _) (Symbol.same_refl x) (same_refl v) _ _

theorem step_agrees (width : ∀ n w, l.value.core = .const (.int n w) → w = 8) (step : StepOp)
    (i j k m : Nat) (isChar : Bool) :
    ∃ o p q, (ev.eval (.prefixed i (.step step) left language) s).result = .ok o ∧
      (ev.eval (.postfixed j left step language) s).result = .ok p ∧
      (ev.eval (.binary k left step.compound (.literal m (.int 1) isChar) language) s).result =
        .ok q ∧
      o.state = q.state ∧ p.state = q.state := by
  cases goesOn : l.isReachable with
  | false =>
    have hop : step.compound ≠ .assign := by
      cases step <;> decide
    have before : (ev.eval (.prefixed i (.step step) left language) s).result = .ok l := by
      rw [eval]
      refine report_of_text ?_ regular.text
      rw [Traced.bind_of_ok hl, goesOn]
      rfl
    have after : (ev.eval (.postfixed j left step language) s).result = .ok l := by
      rw [eval]
      refine report_of_text ?_ regular.text
      rw [Traced.bind_of_ok hl, goesOn]
      rfl
    exact ⟨l, l, _, before, after, eval_binary_of_unreachable hop hl goesOn k, rfl, rfl⟩
  | true =>
    obtain ⟨f, hf⟩ := BinaryOp.core?_of_compound? step.compound_base
    obtain ⟨v, hv, shaped⟩ := (regular.lift1 (.step step)).exists_ok
    have text : ∃ t, v.text = .ok t := Value.Regular.text (Or.inr shaped)
    have computed : lift2 f l.value (.int 1) = .ok v := by
      rw [← step.lift1_eq_lift2 hf width]
      exact hv
    exact ⟨_, _, _, eval_prefixed_step standard target hl goesOn hv text i,
      eval_postfixed_step standard target hl goesOn hv regular.text j,
      eval_compound standard target hl goesOn step.compound_base hf
        (eval_literal_one ev m isChar l.state) computed k, rfl, rfl⟩

end

/-- On every state that evaluation leads to, a compound assignment gives what the assignment of its
operation gives, and a step leaves the state that the compound assignment of 1 leaves, unless it
keeps a width other than 8. -/
theorem compound_assignment_abbreviates {ev : Evaluator} {left : Expr}
    (nodes : ∀ n ∈ left.nodes, n.isNode = true)
    (tame : ∀ n ∈ left.nodes, ∀ language, n.language? = some language →
      (ev.dialect language).IsTame)
    {x : Symbol} (target : left.target? = some x) {language : Option String}
    (standard : (ev.dialect language).operators = some .standard) {s : State} (hs : s.Reached) :
    (∀ right : Expr, (∀ n ∈ right.nodes, n.isNode = true) →
      (∀ n ∈ right.nodes, ∀ language, n.language? = some language →
        (ev.dialect language).IsTame) →
      ∀ (op base : BinaryOp), op.compound? = some base →
        ∀ (i j k : Nat) (whole : Expr) (language' : Option String),
          whole.unparenthesized = .binary j left base right language →
          ∃ o p, (ev.eval (.binary i left op right language) s).result = .ok o ∧
            (ev.eval (.binary k left .assign whole language') s).result = .ok p ∧
            o.value = p.value ∧ o.state.same p.state = true) ∧
    ((∀ l n width, (ev.eval left s).result = .ok l → l.value.core = .const (.int n width) →
        width = 8) →
      ∀ (step : StepOp) (i j k m : Nat) (isChar : Bool),
        ∃ o p q, (ev.eval (.prefixed i (.step step) left language) s).result = .ok o ∧
          (ev.eval (.postfixed j left step language) s).result = .ok p ∧
          (ev.eval (.binary k left step.compound (.literal m (.int 1) isChar) language) s).result =
            .ok q ∧
          o.state = q.state ∧ p.state = q.state) := by
  obtain ⟨l, hl, good, regular⟩ := eval_regular nodes tame hs.good
  constructor
  · intro right nodes' tame' op base compound i j k whole language' operation
    exact compound_agrees hl regular target standard good nodes' tame' compound operation i k
      language'
  · intro width
    exact step_agrees hl regular target standard fun n w => width l n w hl

/-- The join of two values, named in parentheses, times a value that is computed from it. -/
theorem compound_assignment_abbreviates_join :
    let x : Symbol := .decl ⟨0, "x", .block⟩
    let ev : Evaluator := ⟨.standard, .standard⟩
    let left : Expr := .paren 7 (.reference 8 "x" (some x))
    let right : Expr :=
      .binary 9 (.reference 10 "x" (some x)) .minus (.literal 11 (.int 2) false) none
    ∃ s : State, s.Reached ∧ (∃ v w, s.lookup x = .phi [v, w]) ∧
      (∃ o p, (ev.eval (.binary 12 left .timesAssign right none) s).result = .ok o ∧
        (ev.eval (.binary 13 left .assign (.paren 14 (.binary 15 left .times right none)) none)
          s).result = .ok p ∧
        o.value = p.value ∧ o.state.same p.state = true) ∧
      ∃ o p q, (ev.eval (.prefixed 16 (.step .inc) left none) s).result = .ok o ∧
        (ev.eval (.postfixed 17 left .inc none) s).result = .ok p ∧
        (ev.eval (.binary 18 left .plusAssign (.literal 19 (.int 1) false) none) s).result = .ok q ∧
        o.state = q.state ∧ p.state = q.state := by
  intro x ev left right
  obtain ⟨o, ho, reached⟩ := @exists_reached conditionalIncrement (by decide)
  have tame : ∀ e : Expr, ∀ n ∈ e.nodes, ∀ language, n.language? = some language →
      (ev.dialect language).IsTame :=
    fun _ _ _ language _ => dialect_isTame isTame_standard language
  have abbreviates := @compound_assignment_abbreviates ev left (by decide) (tame left) x rfl none
    rfl o.state reached
  cases ho
  refine ⟨_, reached, ⟨_, _, rfl⟩, abbreviates.1 right (by decide) (tame right) .timesAssign .times
    rfl 12 15 13 _ none rfl, abbreviates.2 ?_ .inc 16 17 18 19 false⟩
  intro l n width hl hint
  cases hl
  cases hint

end Evaluator

end ValueFlow
