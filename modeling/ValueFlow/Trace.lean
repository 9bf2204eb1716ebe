import ValueFlow.Dialect

/-!
# Traced computations

A computation reports events as it goes. Those before a fault are kept.
-/

namespace ValueFlow

inductive Event where
  /-- A node was evaluated to a value with the given text. -/
  | evaluated (node : Expr) (text : String)
  | analyzed (bindings : Nat) (text : String)
  | registered (dialect : Dialect)
  /-- A language without a dialect was asked for. -/
  | unknownLanguage (language : String)

def Event.message : Event → String
  | .evaluated node text => node.kind ++ " -> " ++ text
  | .analyzed bindings text => s!"Analyzed body: {bindings} binding(s), value {text}"
  | .registered dialect => "Registered " ++ dialect.text
  | .unknownLanguage language =>
    "No evaluator extension for language " ++ Text.quoted language ++ "; using defaults"

structure Traced (α : Type) where
  events : List Event
  result : Except Fault α

namespace Traced

def pure {α : Type} (a : α) : Traced α := ⟨[], .ok a⟩

def fail {α : Type} (e : Fault) : Traced α := ⟨[], .error e⟩

def emit (e : Event) : Traced Unit := ⟨[e], .ok ()⟩

def bind {α β : Type} (x : Traced α) (f : α → Traced β) : Traced β :=
  match x.result with
  | .ok a => ⟨x.events ++ (f a).events, (f a).result⟩
  | .error e => ⟨x.events, .error e⟩

instance : Monad Traced where
  pure := Traced.pure
  bind := Traced.bind

@[simp] theorem pure_events {α : Type} (a : α) : (Pure.pure a : Traced α).events = [] := rfl

@[simp] theorem pure_result {α : Type} (a : α) : (Pure.pure a : Traced α).result = .ok a := rfl

theorem bind_of_ok {α β : Type} {x : Traced α} {a : α} (h : x.result = .ok a)
    (f : α → Traced β) : (x >>= f) = ⟨x.events ++ (f a).events, (f a).result⟩ := by
  show Traced.bind x f = _
  simp only [Traced.bind, h]

theorem bind_of_error {α β : Type} {x : Traced α} {e : Fault} (h : x.result = .error e)
    (f : α → Traced β) : (x >>= f) = ⟨x.events, .error e⟩ := by
  show Traced.bind x f = _
  simp only [Traced.bind, h]

/-- A computation that reports nothing. -/
def ofExcept {α : Type} (x : Except Fault α) : Traced α := ⟨[], x⟩

instance : MonadLift (Except Fault) Traced where
  monadLift := ofExcept

end Traced

end ValueFlow
