import ValueFlow.Proofs.Interchange
import ValueFlow.Proofs.Locality
import ValueFlow.Proofs.Reports

/-!
# Parentheses

A tree evaluates as it does without its parentheses, wherever they stand: around operands, around
targets of assignments and of updating operators, and in selectors. Values and states are the same
up to the nodes that they were computed at, which no operator and no merge looks at. Faults are the
same, too, also if every node is reported.

* `Expr.stripped`: the tree without its parentheses.
* `Expr.resolve?_stripped`: what a node names does not depend on them.
* `Outcome.Matches`: outcomes with matching values and states.
* `Evaluator.eval_stripped`: evaluation from matching states, with and without parentheses.
* `Evaluator.parentheses_transparent`: all of it for one tree.
-/

namespace ValueFlow

open Value

namespace Expr

def isParen : Expr → Bool
  | .paren .. => true
  | _ => false

mutual

/-- The tree with every parenthesized expression replaced by what is inside. -/
def stripped : Expr → Expr
  | .ret id value => .ret id (strippedOption value)
  | .raise id value => .raise id (strippedOption value)
  | .qualified id receiver selector access language =>
    .qualified id receiver.stripped selector.stripped access language
  | .call id callee args => .call id callee (strippedAll args)
  | .binary id left op right language => .binary id left.stripped op right.stripped language
  | .prefixed id op operand language => .prefixed id op operand.stripped language
  | .postfixed id operand op language => .postfixed id operand.stripped op language
  | .cond id condition thenBranch elseBranch ternary =>
    .cond id condition.stripped (strippedOption thenBranch) (strippedOption elseBranch) ternary
  | .block id body => .block id (strippedAll body)
  | .declare id target init => .declare id target (strippedOption init)
  | .paren _ inner => inner.stripped
  | e => e

def strippedOption : Option Expr → Option Expr
  | none => none
  | some e => some e.stripped

def strippedAll : List Expr → List Expr
  | [] => []
  | e :: es => e.stripped :: strippedAll es

end

theorem strippedAll_eq (es : List Expr) : strippedAll es = es.map stripped := by
  induction es with
  | nil => rfl
  | cons e es ih => rw [strippedAll, ih, List.map_cons]

/-- A node by its identity and its kind. -/
def label (e : Expr) : Option Nat × String := (e.id?, e.kind)

theorem label_stripped {e : Expr} (h : e.isParen = false) : e.stripped.label = e.label := by
  cases e with
  | paren id inner => cases h
  | _ => rfl

theorem children_stripped {e : Expr} (h : e.isParen = false) :
    e.stripped.children = e.children.map stripped := by
  cases e with
  | paren id inner => cases h
  | ret id value => cases value <;> rfl
  | raise id value => cases value <;> rfl
  | cond id condition thenBranch elseBranch ternary =>
    cases thenBranch <;> cases elseBranch <;> rfl
  | declare id target init => cases init <;> rfl
  | call id callee args => exact strippedAll_eq args
  | block id body => exact strippedAll_eq body
  | _ => rfl

/-- The nodes that are left are those that are no parentheses, in the same order. -/
theorem nodes_stripped (e : Expr) :
    e.stripped.nodes.map label = (e.nodes.filter fun n => !n.isParen).map label := by
  induction e using Expr.induction with
  | node e ih =>
    have below : (e.children.map stripped).flatMap (fun c => c.nodes.map label) =
        e.children.flatMap fun c => (c.nodes.filter fun n => !n.isParen).map label := by
      rw [List.flatMap_map, List.flatMap_def, List.flatMap_def, List.map_congr_left ih]
    rw [nodes_eq e]
    cases paren : e.isParen with
    | false =>
      rw [nodes_eq e.stripped, children_stripped paren]
      simp [paren, label_stripped paren, List.map_flatMap, List.filter_flatMap, below]
    | true =>
      cases e with
      | paren id inner =>
        simp [isParen, children, stripped, ih inner List.mem_cons_self]
      | _ => cases paren

theorem resolve?_stripped (e : Expr) : e.stripped.resolve? = e.resolve? := by
  induction e using Expr.induction with
  | node e ih =>
    cases e with
    | qualified id receiver selector access language =>
      exact ih selector (List.mem_cons_of_mem _ List.mem_cons_self)
    | paren id inner => exact ih inner List.mem_cons_self
    | _ => rfl

theorem target?_stripped (e : Expr) : e.stripped.target? = e.target? := by
  rw [target?, target?, resolve?_stripped]

end Expr

theorem AlikeBy.concur {α : Type} {R : α → α → Prop} {x y : Except Fault α} (h : AlikeBy R x y) :
    Concur R x y := by
  cases x with
  | ok a =>
    cases y with
    | ok b => exact h
    | error f => exact h
  | error e =>
    cases y with
    | ok b => exact h
    | error f => exact h.1.trans h.2.symm

/-- What is not known is matched by identity. -/
theorem Value.matches_external {r r' : Reference} (h : r.same r' = true) :
    (Value.external r).Matches (.external r') where
  same := h
  double := nofun

namespace State

/-- The states agree on all symbols. -/
def Matches (s t : State) : Prop := ∀ X, s.Agree X t

namespace Matches

variable {s s' t t' : State}

theorem refl (s : State) : s.Matches s := by
  intro X x _
  cases s.get? x with
  | none => exact .none
  | some v => exact .some (.refl v)

theorem get? (h : s.Matches t) (x : Symbol) : Option.Rel Value.Matches (s.get? x) (t.get? x) :=
  h [x] x (Symbol.isIn_of_mem List.mem_cons_self)

theorem same (h : s.Matches t) : s.same t = true := by
  apply same_iff_rel.mpr
  intro x
  have bound := h.get? x
  generalize s.get? x = v at bound
  generalize t.get? x = w at bound
  cases bound with
  | none => exact .none
  | some hvw => exact .some hvw.same

theorem merge (h : s.Matches t) (h' : s'.Matches t') :
    Concur Matches (s.merge s') (t.merge t') := by
  have alike := State.merge_congr h.same h'.same
  cases hr : s.merge s' with
  | ok r =>
    cases hr' : t.merge t' with
    | ok r' => exact fun X => (h X).merge (h' X) r r' hr hr'
    | error e =>
      rw [hr, hr'] at alike
      exact alike
  | error e =>
    cases hr' : t.merge t' with
    | ok r' =>
      rw [hr, hr'] at alike
      exact alike
    | error e' => exact (State.merge_error hr).trans (State.merge_error hr').symm

end Matches

end State

namespace Outcome

/-- The outcomes have matching values and states. -/
structure Matches (o p : Outcome) : Prop where
  value : o.value.Matches p.value
  state : o.state.Matches p.state

namespace Matches

variable {o o' p p' : Outcome}

theorem isReachable (h : o.Matches p) : o.isReachable = p.isReachable := h.value.isReachable

theorem agree (h : o.Matches p) (X : List Symbol) : Outcome.Agree X o p := ⟨h.value, h.state X⟩

theorem of_agree (h : ∀ X, Outcome.Agree X o p) : o.Matches p :=
  ⟨(h []).value, fun X => (h X).state⟩

/-- Computations whose outcomes agree on all symbols. -/
theorem of_concur {x y : Except Fault Outcome} (h : ∀ X, Concur (Outcome.Agree X) x y) :
    Concur Matches x y := by
  cases x with
  | ok o =>
    cases y with
    | ok p => exact of_agree h
    | error e => exact h []
  | error e =>
    cases y with
    | ok p => exact h []
    | error f => exact h []

theorem merge (h : o.Matches p) (h' : o'.Matches p') :
    Concur Matches (o.merge o') (p.merge p') := by
  unfold Outcome.merge
  rw [h.isReachable, h'.isReachable]
  split
  · exact .ok h'
  split
  · exact .ok h
  · refine (Value.Matches.congruence.merge h.value h'.value).concur.bind fun v w hvw => ?_
    exact (h.state.merge h'.state).bind fun s t hst => .ok ⟨hvw, hst⟩

end Matches

end Outcome

namespace Evaluator

variable {ev : Evaluator} {e : Expr} {s t : State}

theorem choose_matches {v w : Value} (hvw : v.Matches w) {o o' p p' : Outcome}
    (h : o.Matches p) (h' : o'.Matches p') :
    Concur Outcome.Matches (choose v o o') (choose w p p') := by
  rcases choose_cases hvw o o' p p' with ⟨b, left, right⟩ | ⟨left, right⟩
  · rw [left, right]
    cases b with
    | true => exact .ok h
    | false => exact .ok h'
  · rw [left, right]
    exact h.merge h'

/-- A tree and what is left of it without parentheses give matching outcomes from matching states,
or the same fault. -/
def Transparent (ev : Evaluator) (e : Expr) : Prop :=
  ∀ s t, s.Matches t →
    Concur Outcome.Matches (ev.eval e s).result (ev.eval e.stripped t).result

theorem evalBranch_stripped {e : Option Expr} (he : ∀ c ∈ e.toList, ev.Transparent c)
    (hst : s.Matches t) :
    Concur Outcome.Matches (ev.evalBranch e s).result
      (ev.evalBranch (Expr.strippedOption e) t).result := by
  cases e with
  | none => exact .ok ⟨.refl _, hst⟩
  | some e => exact he e List.mem_cons_self s t hst

theorem evalArgs_stripped {args : List Expr} (hargs : ∀ c ∈ args, ev.Transparent c)
    {result result' : Value} (hr : result.Matches result') (hst : s.Matches t) :
    Concur Outcome.Matches (ev.evalArgs result args s).result
      (ev.evalArgs result' (Expr.strippedAll args) t).result := by
  induction args generalizing s t with
  | nil => exact .ok ⟨hr, hst⟩
  | cons arg args ih =>
    obtain ⟨harg, hrest⟩ := List.forall_mem_cons.mp hargs
    rw [Expr.strippedAll, evalArgs, evalArgs]
    refine (harg s t hst).bind_traced fun o p hop => ?_
    rw [hop.isReachable]
    split
    · exact ih hrest hop.state
    · exact .ok ⟨.refl _, hop.state⟩

theorem evalBlock_stripped {body : List Expr} (hbody : ∀ c ∈ body, ev.Transparent c)
    {o p : Outcome} (hop : o.Matches p) :
    Concur Outcome.Matches (ev.evalBlock body o).result
      (ev.evalBlock (Expr.strippedAll body) p).result := by
  induction body generalizing o p with
  | nil => exact .ok hop
  | cons e es ih =>
    obtain ⟨he, hrest⟩ := List.forall_mem_cons.mp hbody
    rw [Expr.strippedAll, evalBlock, evalBlock]
    refine (he o.state p.state hop.state).bind_traced fun o' p' h => ?_
    rw [h.isReachable]
    split
    · exact ih hrest h
    · exact .ok h

theorem report_matches {e e' : Expr} {x y : Traced Outcome}
    (h : Concur Outcome.Matches x.result y.result) :
    Concur Outcome.Matches (ev.report e x).result (ev.report e' y).result :=
  report_concur (fun _ _ hop => hop.value.same) h

theorem report_unchanged {e e' : Expr} (v : Value) (hst : s.Matches t) :
    Concur Outcome.Matches (ev.report e (pure ⟨v, s⟩)).result
      (ev.report e' (pure ⟨v, t⟩)).result :=
  report_matches (.ok ⟨.refl v, hst⟩)

theorem eval_stripped (tame : ∀ language, (ev.dialect language).IsTame) (e : Expr) :
    ev.Transparent e := by
  induction e using Expr.induction with
  | node e part =>
    intro s t hst
    cases e with
    | literal | ret | brk | cont | raise | unmodelled => exact report_unchanged _ hst
    | classLiteral id name => cases name <;> exact report_unchanged _ hst
    | reference id name target =>
      rcases target with _ | (x | c)
      · exact report_unchanged _ hst
      · exact report_matches (.ok ⟨Matches.congruence.lookup (hst.get? _), hst⟩)
      · exact report_unchanged _ hst
    | qualified id receiver selector access language =>
      rw [Expr.stripped, eval, eval]
      refine report_matches ((part receiver List.mem_cons_self s t hst).bind_traced
        fun r r' hr => ?_)
      rw [hr.isReachable]
      split
      · have selected := part selector (List.mem_cons_of_mem _ List.mem_cons_self)
        refine (selected _ _ hr.state).bind_traced fun o p hop => ?_
        rw [dialectFor_bind, dialectFor_bind]
        exact .ok (.of_agree fun X => Dialect.evalQualified_agree _ (hop.agree X))
      · exact .ok hr
    | call id callee args =>
      rw [Expr.stripped, eval, eval]
      exact report_matches (evalArgs_stripped part (matches_external (beq_self_eq_true _)) hst)
    | binary id left op right language =>
      have partRight := part right (List.mem_cons_of_mem _ List.mem_cons_self)
      by_cases hop : op = .assign
      · subst hop
        rw [Expr.stripped, eval, eval, Expr.target?_stripped]
        refine report_matches ((partRight s t hst).bind_traced fun o p h => ?_)
        exact .ok (.of_agree fun X => assign_agree (h.agree X) left.target? right right.stripped)
      · rw [Expr.stripped, eval_binary hop, eval_binary hop, Expr.target?_stripped]
        refine report_matches ((part left List.mem_cons_self s t hst).bind_traced
          fun l l' hl => ?_)
        rw [hl.isReachable]
        split
        · refine (partRight _ _ hl.state).bind_traced fun r r' hr => ?_
          refine Outcome.Matches.of_concur fun X => ?_
          exact applyBinary_agree (tame language) hl.value hr.value (hr.state X) hop _
        · exact .ok ⟨.refl _, hl.state⟩
    | prefixed id op operand language =>
      rw [Expr.stripped, eval, eval, Expr.target?_stripped]
      refine report_matches ((part operand List.mem_cons_self s t hst).bind_traced
        fun o p h => ?_)
      rw [h.isReachable]
      split
      · rw [dialectFor_bind, dialectFor_bind, Traced.liftM_result, Traced.liftM_result]
        refine Outcome.Matches.of_concur fun X => ?_
        exact Dialect.evalPrefix_agree (tame language) h.value (h.state X) op _
      · exact .ok h
    | postfixed id operand op language =>
      rw [Expr.stripped, eval, eval, Expr.target?_stripped]
      refine report_matches ((part operand List.mem_cons_self s t hst).bind_traced
        fun o p h => ?_)
      rw [h.isReachable]
      split
      · rw [dialectFor_bind, dialectFor_bind, Traced.liftM_result, Traced.liftM_result]
        refine Outcome.Matches.of_concur fun X => ?_
        exact Dialect.evalPostfix_agree (tame language) h.value (h.state X) op _
      · exact .ok h
    | cond id condition thenBranch elseBranch ternary =>
      rw [Expr.stripped, eval, eval]
      refine report_matches ((part condition List.mem_cons_self s t hst).bind_traced
        fun c c' hc => ?_)
      have thenPart := fun e he => part e (List.mem_cons_of_mem _ (List.mem_append_left _ he))
      have elsePart := fun e he => part e (List.mem_cons_of_mem _ (List.mem_append_right _ he))
      refine (evalBranch_stripped thenPart hc.state).bind_traced fun o p ho => ?_
      refine (evalBranch_stripped elsePart hc.state).bind_traced fun o' p' ho' => ?_
      exact choose_matches hc.value ho ho'
    | block id body =>
      rw [Expr.stripped, eval, eval]
      exact report_matches (evalBlock_stripped part ⟨.refl _, hst⟩)
    | declare id x init =>
      cases init with
      | none => exact report_unchanged _ hst
      | some init =>
        rw [Expr.stripped, Expr.strippedOption, eval, eval]
        refine report_matches ((part init List.mem_cons_self s t hst).bind_traced fun o p h => ?_)
        exact .ok (.of_agree fun X => assign_agree (h.agree X) (some x) init init.stripped)
    | paren id inner =>
      rw [Expr.stripped, eval, report_eval]
      exact part inner List.mem_cons_self s t hst
    | foreign what => exact rfl

/-- Without its parentheses, a tree has the same nodes otherwise, names what it named, and evaluates
to the same value and the same state, or with the same fault. -/
theorem parentheses_transparent (tame : ∀ d ∈ ev.dialects.entries, d.IsTame) (e : Expr)
    (s : State) :
    Concur (fun o p => o.value.same p.value = true ∧ o.state.same p.state = true)
      (ev.eval e s).result (ev.eval e.stripped s).result ∧
    e.stripped.resolve? = e.resolve? ∧
    e.stripped.nodes.map Expr.label = (e.nodes.filter fun n => !n.isParen).map Expr.label := by
  refine ⟨?_, e.resolve?_stripped, e.nodes_stripped⟩
  have matching := eval_stripped (fun language => dialect_isTame tame language) e s s (.refl s)
  exact matching.imp fun o p h => ⟨h.value.same, h.state.same⟩

/-- Assigns 5 to `(x)`, and steps `((x))`. -/
def parenthesizedStep : Expr :=
  let x : Symbol := .decl ⟨0, "x", .block⟩
  .block 0
    [.binary 1 (.paren 2 (.reference 3 "x" (some x))) .assign
      (.paren 4 (.literal 5 (.int 5) false)) none,
    .postfixed 6 (.paren 7 (.paren 8 (.reference 9 "x" (some x)))) .inc none]

/-- With every node reported, the step finds its target through both parentheses. -/
theorem parentheses_transparent_step :
    let ev : Evaluator := ⟨.standard, ⟨true, Dialects.defaultLanguage⟩⟩
    parenthesizedStep.stripped.nodes.filterMap Expr.id? = [0, 1, 3, 5, 6, 9] ∧
    ∃ o p, (ev.eval parenthesizedStep .empty).result = .ok o ∧
      (ev.eval parenthesizedStep.stripped .empty).result = .ok p ∧
      o.value.same p.value = true ∧ o.state.same p.state = true ∧
      (o.state.lookup (.decl ⟨0, "x", .block⟩)).core = .int 6 := by
  intro ev
  refine ⟨rfl, ?_⟩
  obtain ⟨o, ho⟩ : ∃ o, (ev.eval parenthesizedStep .empty).result = .ok o := ⟨_, rfl⟩
  obtain ⟨p, hp⟩ : ∃ p, (ev.eval parenthesizedStep.stripped .empty).result = .ok p := ⟨_, rfl⟩
  have both := (@parentheses_transparent ev isTame_standard parenthesizedStep .empty).1
  rw [ho, hp] at both
  refine ⟨o, p, ho, hp, both.1, both.2, ?_⟩
  cases ho
  rfl

end Evaluator

end ValueFlow
