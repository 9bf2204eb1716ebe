import ValueFlow.Proofs.Preservation
import ValueFlow.Proofs.WellShaped

/-!
# The states that evaluation reaches

Good states and regular values are an invariant of evaluation under which nothing fails. So every
tree of nodes has an outcome from every good state, and the state after it is good again, whichever
languages have the standard operators and which have none.

* `Invariant.good`: regular values and good states are an invariant.
* `Evaluator.eval_keeps_good`: evaluation from a good state succeeds and gives a good state.
* `State.Reached`, `Evaluator.eval_succeeds`: so it succeeds from every state that evaluation leads
  to, and so does the analysis of a body.
-/

namespace ValueFlow

theorem Literal.eval_wellShaped (value : Literal) (isChar : Bool) :
    (value.eval isChar).WellShaped :=
  .of_isPlain (value.eval_gives isChar).1 (value.eval_gives isChar).2.1

/-- Regular values and good states are kept by all that evaluation does, and none of it fails. -/
theorem Invariant.good : Invariant False (fun _ _ => true) Value.Regular State.Good where
  nothing := Or.inl rfl
  undetermined := Or.inr .undetermined
  external _ := Or.inr .external
  entry _ := Or.inr (.const trivial)
  typeLiteral _ := Or.inr (.const trivial)
  lookup hs x := Or.inr (hs.lookup_wellShaped x)
  assign hs hv reachable x source _ := hs.assign x (hv.wellShaped reachable) source
  unary hv op := (hv.lift1 op).imp fun _ hr => ⟨Or.inr hr, hr.isReachable, fun _ => rfl⟩
  binary hv hw _ _ hf :=
    (hv.lift2 hw hf).imp fun _ hr => ⟨Or.inr hr, hr.isReachable, fun _ => rfl⟩
  mergeValues hv hw := hv.merge hw
  mergeStates hs ht := hs.merge ht
  text hv := by
    obtain ⟨t, ht⟩ := hv.text
    rw [ht]
    trivial

namespace Evaluator

theorem dialect_isTame {ev : Evaluator} (h : ∀ d ∈ ev.dialects.entries, d.IsTame)
    (language : Option String) : (ev.dialect language).IsTame := by
  cases hfind : ev.dialects.find? (orElse (language.getD "") ev.options.defaultLanguage) with
  | none =>
    simp only [dialect, hfind]
    exact Or.inl rfl
  | some d =>
    simp only [dialect, hfind]
    exact h d (List.mem_of_find?_eq_some hfind)

theorem eval_regular {ev : Evaluator} {e : Expr} (nodes : ∀ n ∈ e.nodes, n.isNode = true)
    (tame : ∀ n ∈ e.nodes, ∀ language, n.language? = some language →
      (ev.dialect language).IsTame) {s : State} (hs : s.Good) :
    ∃ o, (ev.eval e s).result = .ok o ∧ o.state.Good ∧ o.value.Regular := by
  have admitted : ∀ n ∈ e.nodes, ev.Admits Value.Regular n := by
    intro n hn
    refine ⟨nodes n hn, ?_, tame n hn⟩
    rintro id value isChar rfl
    exact Or.inr (value.eval_wellShaped isChar)
  obtain ⟨o, ho, hvalue, hstate⟩ := (Invariant.good.eval_unguarded admitted hs).exists_ok
  exact ⟨o, ho, hstate, hvalue⟩

/-- The empty state is good, and evaluation leads from good states to good states. -/
theorem eval_keeps_good :
    State.empty.Good ∧
      ∀ ev : Evaluator, (∀ d ∈ ev.dialects.entries, d.IsTame) →
        ∀ e : Expr, (∀ n ∈ e.nodes, n.isNode = true) → ∀ s : State, s.Good →
          ∃ o, (ev.eval e s).result = .ok o ∧ o.state.Good ∧
            (o.value = .nothing ∨ o.value.WellShaped) := by
  refine ⟨State.good_empty, fun ev hev e nodes s hs => ?_⟩
  exact eval_regular nodes (fun _ _ language _ => dialect_isTame hev language) hs

/-- Declares `x` as 1 and increments it on one of two paths. -/
def conditionalIncrement : Expr :=
  let x : Symbol := .decl ⟨0, "x", .block⟩
  .block 0 [.declare 1 x (some (.literal 2 (.int 1) false)),
    .cond 3 (.call 4 "f" []) (some (.postfixed 5 (.reference 6 "x" (some x)) .inc none)) none false]

theorem eval_keeps_good_conditionalIncrement :
    (∀ n ∈ conditionalIncrement.nodes, n.isNode = true) ∧
      ∃ o, (eval ⟨.standard, .standard⟩ conditionalIncrement .empty).result = .ok o ∧
        o.state.Good ∧ (o.value = .nothing ∨ o.value.WellShaped) ∧
          ∃ v w, o.state.lookup (.decl ⟨0, "x", .block⟩) = .phi [v, w] := by
  have nodes : ∀ n ∈ conditionalIncrement.nodes, n.isNode = true := by decide
  have tame : ∀ d ∈ Dialects.standard.entries, d.IsTame := by
    intro d hd
    cases List.mem_singleton.mp hd
    exact Or.inr rfl
  obtain ⟨o, ho, good, value⟩ :=
    eval_keeps_good.2 ⟨.standard, .standard⟩ tame _ nodes _ eval_keeps_good.1
  refine ⟨nodes, o, ho, good, value, ?_⟩
  cases ho
  exact ⟨_, _, rfl⟩

end Evaluator

/-- The states that evaluation leads to from the empty one, tree after tree and with any dialects
that have the standard operators or none. -/
inductive State.Reached : State → Prop
  | empty : Reached .empty
  | eval {ev : Evaluator} {e : Expr} {s : State} {o : Outcome}
      (tame : ∀ d ∈ ev.dialects.entries, d.IsTame) (nodes : ∀ n ∈ e.nodes, n.isNode = true)
      (hs : Reached s) (ho : (ev.eval e s).result = .ok o) : Reached o.state

theorem State.Reached.good {s : State} (hs : s.Reached) : s.Good := by
  induction hs with
  | empty => exact State.good_empty
  | @eval ev e s o tame nodes _ ho ih =>
    obtain ⟨p, hp, good, -⟩ :=
      Evaluator.eval_regular nodes (fun _ _ language _ => Evaluator.dialect_isTame tame language) ih
    rw [ho] at hp
    cases hp
    exact good

namespace Evaluator

theorem isTame_standard : ∀ d ∈ Dialects.standard.entries, d.IsTame := by
  intro d hd
  cases List.mem_singleton.mp hd
  exact Or.inr rfl

theorem exists_reached {e : Expr} (nodes : ∀ n ∈ e.nodes, n.isNode = true) :
    ∃ o, (eval ⟨.standard, .standard⟩ e .empty).result = .ok o ∧ o.state.Reached := by
  have tame : ∀ language, (dialect ⟨.standard, .standard⟩ language).IsTame :=
    dialect_isTame isTame_standard
  obtain ⟨o, ho, -⟩ := eval_regular nodes (fun _ _ language _ => tame language) State.good_empty
  exact ⟨o, ho, .eval isTame_standard nodes .empty ho⟩

end Evaluator

end ValueFlow
