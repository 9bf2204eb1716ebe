import ValueFlow.Proofs.Preservation

/-!
# Concrete runs

What an expression does when it is run on constants. A run follows one path, in the order in which
the evaluator goes through the tree: a condition that is a truth value chooses its branch, any other
may choose either, and whatever the evaluator does not know can be any constant. A run ends with a
value and an environment, or is cut short where control leaves the expression.

* `Run`: the runs of an expression, as rules.
* `exists_run`: an expression of the fragment has a run from every environment.
-/

namespace ValueFlow

/-- The constants that symbols hold. -/
abbrev Env := Symbol → Constant

def Env.set (ρ : Env) (x : Symbol) (c : Constant) : Env :=
  fun y => if x.same y then c else ρ y

inductive Exit where
  | done (result : Constant) (after : Env)
  /-- Control left the expression, or an operator has no result. -/
  | aborted

/-- What a computation on constants gives: the constant it comes to, any constant if it does not
determine one, and none if it fails. -/
inductive Gives : Except Fault Value → Option Constant → Prop
  | known {c : Constant} : Gives (.ok (.const c)) (some c)
  | unknown {c : Constant} : Gives (.ok .undetermined) (some c)
  | fault {e : Fault} : Gives (.error e) none

mutual

inductive Run : Expr → Env → Exit → Prop
  | literal {id value isChar ρ c} (hc : Gives (.ok (value.eval isChar)) (some c)) :
      Run (.literal id value isChar) ρ (.done c ρ)
  | classLiteral {id name ρ} :
      Run (.classLiteral id (some name)) ρ (.done (.typeLiteral name) ρ)
  | unresolvedClass {id ρ c} : Run (.classLiteral id none) ρ (.done c ρ)
  | ret {id value ρ} : Run (.ret id value) ρ .aborted
  | brk {id label ρ} : Run (.brk id label) ρ .aborted
  | cont {id label ρ} : Run (.cont id label) ρ .aborted
  | raise {id value ρ} : Run (.raise id value) ρ .aborted
  | unresolved {id name ρ c} : Run (.reference id name none) ρ (.done c ρ)
  | declared {id name x ρ} :
      Run (.reference id name (some (.decl x))) ρ (.done (ρ (.decl x)) ρ)
  | entry {id name e ρ} : Run (.reference id name (some (.entry e))) ρ (.done (.entry e) ρ)
  | call {id callee args ρ ρ' c} (hargs : RunArgs args ρ (some ρ')) :
      Run (.call id callee args) ρ (.done c ρ')
  | callAborted {id callee args ρ} (hargs : RunArgs args ρ none) :
      Run (.call id callee args) ρ .aborted
  | assign {id left right language x ρ ρ' c d} (hx : left.target? = some x)
      (hright : Run right ρ (.done c ρ')) :
      Run (.binary id left .assign right language) ρ (.done d (ρ'.set x c))
  | assignAborted {id left right language ρ} (hright : Run right ρ .aborted) :
      Run (.binary id left .assign right language) ρ .aborted
  | operator {id left op right language f ρ ρ₁ ρ₂ a b c} (hf : op.core? = some f)
      (hleft : Run left ρ (.done a ρ₁)) (hright : Run right ρ₁ (.done b ρ₂))
      (hc : Gives (f (.const a) (.const b)) (some c)) :
      Run (.binary id left op right language) ρ (.done c ρ₂)
  | compound {id left op base right language f x ρ ρ₁ ρ₂ a b c d}
      (hbase : op.compound? = some base) (hf : base.core? = some f)
      (hx : left.target? = some x) (hleft : Run left ρ (.done a ρ₁))
      (hright : Run right ρ₁ (.done b ρ₂)) (hc : Gives (f (.const a) (.const b)) (some c)) :
      Run (.binary id left op right language) ρ (.done d (ρ₂.set x c))
  | operatorFails {id left op right language f ρ ρ₁ ρ₂ a b}
      (hf : (op.compound?.getD op).core? = some f) (hleft : Run left ρ (.done a ρ₁))
      (hright : Run right ρ₁ (.done b ρ₂)) (hnone : Gives (f (.const a) (.const b)) none) :
      Run (.binary id left op right language) ρ .aborted
  | leftAborted {id left op right language ρ} (hop : op ≠ .assign)
      (hleft : Run left ρ .aborted) : Run (.binary id left op right language) ρ .aborted
  | rightAborted {id left op right language ρ ρ₁ a} (hop : op ≠ .assign)
      (hleft : Run left ρ (.done a ρ₁)) (hright : Run right ρ₁ .aborted) :
      Run (.binary id left op right language) ρ .aborted
  | prefixed {id op operand language ρ ρ' a c} (hop : ∀ step, op ≠ .step step)
      (hoperand : Run operand ρ (.done a ρ')) (hc : Gives (op.core (.const a)) (some c)) :
      Run (.prefixed id op operand language) ρ (.done c ρ')
  | stepBefore {id op operand language x ρ ρ' a c} (hx : operand.target? = some x)
      (hoperand : Run operand ρ (.done a ρ')) (hc : Gives (op.core (.const a)) (some c)) :
      Run (.prefixed id (.step op) operand language) ρ (.done c (ρ'.set x c))
  | prefixAborted {id op operand language ρ} (hoperand : Run operand ρ .aborted) :
      Run (.prefixed id op operand language) ρ .aborted
  | stepAfter {id op operand language x ρ ρ' a c} (hx : operand.target? = some x)
      (hoperand : Run operand ρ (.done a ρ')) (hc : Gives (op.core (.const a)) (some c)) :
      Run (.postfixed id operand op language) ρ (.done a (ρ'.set x c))
  | postfixAborted {id operand op language ρ} (hoperand : Run operand ρ .aborted) :
      Run (.postfixed id operand op language) ρ .aborted
  | condThen {id condition thenBranch elseBranch ternary ρ ρ' a exit}
      (hcondition : Run condition ρ (.done a ρ')) (ha : a ≠ .bool false)
      (hthen : RunBranch thenBranch ρ' exit) :
      Run (.cond id condition thenBranch elseBranch ternary) ρ exit
  | condElse {id condition thenBranch elseBranch ternary ρ ρ' a exit}
      (hcondition : Run condition ρ (.done a ρ')) (ha : a ≠ .bool true)
      (helse : RunBranch elseBranch ρ' exit) :
      Run (.cond id condition thenBranch elseBranch ternary) ρ exit
  | condAborted {id condition thenBranch elseBranch ternary ρ}
      (hcondition : Run condition ρ .aborted) :
      Run (.cond id condition thenBranch elseBranch ternary) ρ .aborted
  /-- The value of an empty block can be any constant. -/
  | block {id body ρ c exit} (hbody : RunBlock body c ρ exit) : Run (.block id body) ρ exit
  | declare {id x ρ c} : Run (.declare id x none) ρ (.done c ρ)
  | declareInit {id x init ρ ρ' c d} (hinit : Run init ρ (.done c ρ')) :
      Run (.declare id x (some init)) ρ (.done d (ρ'.set x c))
  | declareAborted {id x init ρ} (hinit : Run init ρ .aborted) :
      Run (.declare id x (some init)) ρ .aborted
  | paren {id inner ρ exit} (hinner : Run inner ρ exit) : Run (.paren id inner) ρ exit
  | unmodelled {id description ρ c} : Run (.unmodelled id description) ρ (.done c ρ)

inductive RunBranch : Option Expr → Env → Exit → Prop
  | absent {ρ c} : RunBranch none ρ (.done c ρ)
  | present {e ρ exit} (he : Run e ρ exit) : RunBranch (some e) ρ exit

/-- Runs of arguments in order; there is no environment after a run that is cut short. -/
inductive RunArgs : List Expr → Env → Option Env → Prop
  | nil {ρ} : RunArgs [] ρ (some ρ)
  | cons {arg args ρ ρ' c after} (harg : Run arg ρ (.done c ρ'))
      (hargs : RunArgs args ρ' after) : RunArgs (arg :: args) ρ after
  | aborted {arg args ρ} (harg : Run arg ρ .aborted) : RunArgs (arg :: args) ρ none

/-- Runs of a sequence, with the value of what ran last. -/
inductive RunBlock : List Expr → Constant → Env → Exit → Prop
  | nil {c ρ} : RunBlock [] c ρ (.done c ρ)
  | cons {e es c d ρ ρ' exit} (he : Run e ρ (.done d ρ')) (hes : RunBlock es d ρ' exit) :
      RunBlock (e :: es) c ρ exit
  | aborted {e es c ρ} (he : Run e ρ .aborted) : RunBlock (e :: es) c ρ .aborted

end

namespace Expr

/-- A reference to a variable, in parentheses or not. -/
def isTarget : Expr → Bool
  | .reference _ _ (some (.decl _)) => true
  | .paren _ inner => inner.isTarget
  | _ => false

/-- Nodes whose runs are defined: no double literal, no `&&` or `||`, no qualified expression, only
expressions, and a variable wherever something is assigned to. -/
def isPlain : Expr → Bool
  | .literal _ (.double _) _ => false
  | .qualified .. => false
  | .binary _ left op _ _ =>
    op != .and && op != .or && (op.core?.isSome || left.isTarget)
  | .prefixed _ (.step _) operand _ => operand.isTarget
  | .postfixed _ operand _ _ => operand.isTarget
  | .foreign _ => false
  | _ => true

theorem target?_of_isTarget {e : Expr} (h : e.isTarget = true) : ∃ x, e.target? = some x := by
  induction e using Expr.induction with
  | node e ih =>
    cases e with
    | reference id name target =>
      cases target with
      | none => cases h
      | some x =>
        cases x with
        | decl x => exact ⟨.decl x, rfl⟩
        | entry c => cases h
    | paren id inner => exact ih inner List.mem_cons_self h
    | _ => cases h

end Expr

theorem Gives.exists_of_isPlain {v : Value} (h : v.isPlain = true) :
    ∃ c, Gives (.ok v) (some c) := by
  cases v with
  | const c => exact ⟨c, .known⟩
  | undetermined => exact ⟨.null, .unknown⟩
  | _ => cases h

theorem Gives.exists_unary (op : PrefixOp) (a : Constant) :
    ∃ c, Gives (op.core (.const a)) (some c) := by
  obtain ⟨v, hv, given⟩ := (op.core_ensures (.const a)).exists_ok
  rw [hv]
  exact Gives.exists_of_isPlain given.plain

theorem Gives.exists_binary {op : BinaryOp} {f : BinaryCore} (hf : op.core? = some f)
    (a b : Constant) : ∃ c, Gives (f (.const a) (.const b)) c := by
  have given := op.core_ensures hf (.const a) (.const b)
  cases hv : f (.const a) (.const b) with
  | ok v =>
    rw [hv] at given
    obtain ⟨c, hc⟩ := Gives.exists_of_isPlain given.plain
    exact ⟨some c, hc⟩
  | error e => exact ⟨none, .fault⟩

def HasRun (e : Expr) : Prop := ∀ ρ, ∃ exit, Run e ρ exit

theorem exists_runBranch {e : Option Expr} (he : ∀ c ∈ e.toList, HasRun c) (ρ : Env) :
    ∃ exit, RunBranch e ρ exit := by
  cases e with
  | none => exact ⟨.done .null ρ, .absent⟩
  | some e =>
    obtain ⟨exit, run⟩ := he e List.mem_cons_self ρ
    exact ⟨exit, .present run⟩

theorem exists_runArgs {args : List Expr} (hargs : ∀ c ∈ args, HasRun c) (ρ : Env) :
    ∃ after, RunArgs args ρ after := by
  induction args generalizing ρ with
  | nil => exact ⟨some ρ, .nil⟩
  | cons arg args ih =>
    obtain ⟨harg, hrest⟩ := List.forall_mem_cons.mp hargs
    obtain ⟨exit, run⟩ := harg ρ
    cases exit with
    | done c ρ' =>
      obtain ⟨after, rest⟩ := ih hrest ρ'
      exact ⟨after, .cons run rest⟩
    | aborted => exact ⟨none, .aborted run⟩

theorem exists_runBlock {body : List Expr} (hbody : ∀ c ∈ body, HasRun c) (c : Constant)
    (ρ : Env) : ∃ exit, RunBlock body c ρ exit := by
  induction body generalizing c ρ with
  | nil => exact ⟨.done c ρ, .nil⟩
  | cons e es ih =>
    obtain ⟨he, hrest⟩ := List.forall_mem_cons.mp hbody
    obtain ⟨exit, run⟩ := he ρ
    cases exit with
    | done d ρ' =>
      obtain ⟨exit, rest⟩ := ih hrest d ρ'
      exact ⟨exit, .cons run rest⟩
    | aborted => exact ⟨.aborted, .aborted run⟩

theorem Expr.not_logical_of_isPlain {id : Nat} {left right : Expr} {op : BinaryOp}
    {language : Option String} (h : (Expr.binary id left op right language).isPlain = true) :
    op ≠ .and ∧ op ≠ .or := by
  constructor
  · rintro rfl
    cases h
  · rintro rfl
    cases h

/-- An operator that assigns is written after something to assign to. -/
theorem Expr.target?_of_isPlain {id : Nat} {left right : Expr} {op : BinaryOp}
    {language : Option String} (h : (Expr.binary id left op right language).isPlain = true)
    (assigning : op.core? = none) : ∃ x, left.target? = some x := by
  refine target?_of_isTarget ?_
  simpa [isPlain, assigning] using (Bool.and_eq_true _ _).mp h |>.2

theorem exists_run_binary {id : Nat} {left right : Expr} {op : BinaryOp}
    {language : Option String} (h : (Expr.binary id left op right language).isPlain = true)
    (hleft : HasRun left) (hright : HasRun right) :
    HasRun (.binary id left op right language) := by
  intro ρ
  by_cases hop : op = .assign
  · subst hop
    obtain ⟨x, hx⟩ := Expr.target?_of_isPlain h rfl
    obtain ⟨exit, run⟩ := hright ρ
    cases exit with
    | done c ρ' => exact ⟨.done .null (ρ'.set x c), .assign hx run⟩
    | aborted => exact ⟨.aborted, .assignAborted run⟩
  obtain ⟨exit, runLeft⟩ := hleft ρ
  cases exit with
  | aborted => exact ⟨.aborted, .leftAborted hop runLeft⟩
  | done a ρ₁ =>
    obtain ⟨exit, runRight⟩ := hright ρ₁
    cases exit with
    | aborted => exact ⟨.aborted, .rightAborted hop runLeft runRight⟩
    | done b ρ₂ =>
      cases hbase : op.compound? with
      | none =>
        obtain ⟨f, hf⟩ := BinaryOp.core?_of_not_assigning hop hbase
        obtain ⟨given, hgiven⟩ := Gives.exists_binary hf a b
        cases given with
        | none => exact ⟨.aborted, .operatorFails (by rw [hbase]; exact hf) runLeft runRight hgiven⟩
        | some c => exact ⟨.done c ρ₂, .operator hf runLeft runRight hgiven⟩
      | some base =>
        obtain ⟨f, hf⟩ := BinaryOp.core?_of_compound? hbase
        obtain ⟨x, hx⟩ := Expr.target?_of_isPlain h (BinaryOp.core?_eq_none hbase)
        obtain ⟨given, hgiven⟩ := Gives.exists_binary hf a b
        cases given with
        | none => exact ⟨.aborted, .operatorFails (by rw [hbase]; exact hf) runLeft runRight hgiven⟩
        | some c =>
          exact ⟨.done .null (ρ₂.set x c), .compound hbase hf hx runLeft runRight hgiven⟩

theorem exists_run {e : Expr} (he : ∀ n ∈ e.nodes, n.isPlain = true) : HasRun e := by
  induction e using Expr.induction with
  | node e ih =>
    obtain ⟨here, below⟩ := Expr.forall_nodes.mp he
    have runs : ∀ c ∈ e.children, HasRun c := fun c hc => ih c hc (below c hc)
    intro ρ
    cases e with
    | literal id value isChar =>
      obtain ⟨c, hc⟩ := Gives.exists_of_isPlain (value.eval_gives isChar).1
      exact ⟨.done c ρ, .literal hc⟩
    | classLiteral id name =>
      cases name with
      | none => exact ⟨.done .null ρ, .unresolvedClass⟩
      | some name => exact ⟨_, .classLiteral⟩
    | ret => exact ⟨_, .ret⟩
    | brk => exact ⟨_, .brk⟩
    | cont => exact ⟨_, .cont⟩
    | raise => exact ⟨_, .raise⟩
    | reference id name target =>
      cases target with
      | none => exact ⟨.done .null ρ, .unresolved⟩
      | some x =>
        cases x with
        | decl x => exact ⟨_, .declared⟩
        | entry c => exact ⟨_, .entry⟩
    | qualified => cases here
    | call id callee args =>
      obtain ⟨after, run⟩ := exists_runArgs runs ρ
      cases after with
      | none => exact ⟨.aborted, .callAborted run⟩
      | some ρ' => exact ⟨.done .null ρ', .call run⟩
    | binary id left op right language =>
      exact exists_run_binary here (runs left List.mem_cons_self)
        (runs right (List.mem_cons_of_mem _ List.mem_cons_self)) ρ
    | prefixed id op operand language =>
      obtain ⟨exit, run⟩ := runs operand List.mem_cons_self ρ
      cases exit with
      | aborted => exact ⟨.aborted, .prefixAborted run⟩
      | done a ρ' =>
        obtain ⟨c, hc⟩ := Gives.exists_unary op a
        cases op with
        | step op =>
          obtain ⟨x, hx⟩ := Expr.target?_of_isTarget here
          exact ⟨.done c (ρ'.set x c), .stepBefore hx run hc⟩
        | _ => exact ⟨.done c ρ', .prefixed nofun run hc⟩
    | postfixed id operand op language =>
      obtain ⟨exit, run⟩ := runs operand List.mem_cons_self ρ
      cases exit with
      | aborted => exact ⟨.aborted, .postfixAborted run⟩
      | done a ρ' =>
        obtain ⟨x, hx⟩ := Expr.target?_of_isTarget here
        obtain ⟨c, hc⟩ := Gives.exists_unary (.step op) a
        exact ⟨.done a (ρ'.set x c), .stepAfter hx run hc⟩
    | cond id condition thenBranch elseBranch ternary =>
      obtain ⟨exit, run⟩ := runs condition List.mem_cons_self ρ
      cases exit with
      | aborted => exact ⟨.aborted, .condAborted run⟩
      | done a ρ' =>
        by_cases ha : a = .bool false
        · obtain ⟨exit, branch⟩ := exists_runBranch (fun c hc =>
            runs c (List.mem_cons_of_mem _ (List.mem_append_right thenBranch.toList hc))) ρ'
          exact ⟨exit, .condElse run (by rw [ha]; decide) branch⟩
        · obtain ⟨exit, branch⟩ := exists_runBranch (fun c hc =>
            runs c (List.mem_cons_of_mem _ (List.mem_append_left elseBranch.toList hc))) ρ'
          exact ⟨exit, .condThen run ha branch⟩
    | block id body =>
      obtain ⟨exit, run⟩ := exists_runBlock runs .null ρ
      exact ⟨exit, .block run⟩
    | declare id x init =>
      cases init with
      | none => exact ⟨.done .null ρ, .declare⟩
      | some init =>
        obtain ⟨exit, run⟩ := runs init List.mem_cons_self ρ
        cases exit with
        | aborted => exact ⟨.aborted, .declareAborted run⟩
        | done c ρ' => exact ⟨.done .null (ρ'.set x c), .declareInit run⟩
    | paren id inner =>
      obtain ⟨exit, run⟩ := runs inner List.mem_cons_self ρ
      exact ⟨exit, .paren run⟩
    | unmodelled => exact ⟨.done .null ρ, .unmodelled⟩
    | foreign => cases here

end ValueFlow
