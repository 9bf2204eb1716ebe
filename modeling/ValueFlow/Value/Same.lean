import ValueFlow.Value.Basic

/-!
# Equality of values

Values are the same when they have the same shape and the same parts, where dependencies and members
are compared as sets and the source of a binding is not compared. Values that are the same can still
be told apart by looking; a set keeps the one that came first.

* `sameSet_eq_true_iff`: sets are the same when each is contained in the other.
-/

namespace ValueFlow.Value

mutual

def same : Value → Value → Bool
  | .const c, .const d => c.same d
  | .dependent v D, .dependent w E => v.same w && (allIn D E && E.all fun e => hasSame D e)
  | .var x v D _, .var y w E _ =>
    x.same y && v.same w && (allIn D E && E.all fun e => hasSame D e)
  | .external r, .external s => r.same s
  | .phi M, .phi N => allIn M N && N.all fun n => hasSame M n
  | .nothing, .nothing => true
  | .undetermined, .undetermined => true
  | .foreign i, .foreign j => i == j
  | _, _ => false

/-- Each of the first values is the same as one of the second. -/
def allIn : List Value → List Value → Bool
  | [], _ => true
  | v :: vs, ws => (ws.any fun w => v.same w) && allIn vs ws

/-- One of the values is the same as a given one. -/
def hasSame : List Value → Value → Bool
  | [], _ => false
  | v :: vs, w => v.same w || hasSame vs w

end

/-- Equality of sets. -/
def sameSet (D E : List Value) : Bool := allIn D E && E.all fun e => hasSame D e

theorem allIn_eq (vs ws : List Value) :
    allIn vs ws = vs.all fun v => ws.any fun w => v.same w := by
  induction vs with
  | nil => rfl
  | cons v vs ih => simp only [allIn, ih, List.all_cons]

theorem hasSame_eq (vs : List Value) (w : Value) : hasSame vs w = vs.any fun v => v.same w := by
  induction vs with
  | nil => rfl
  | cons v vs ih => simp only [hasSame, ih, List.any_cons]

theorem sameSet_eq_true_iff {D E : List Value} :
    sameSet D E = true ↔
      (∀ d ∈ D, ∃ e ∈ E, d.same e = true) ∧ ∀ e ∈ E, ∃ d ∈ D, d.same e = true := by
  simp [sameSet, allIn_eq, hasSame_eq]

/-- Adds a value to a set, unless it is there already. -/
def insertNew (D : List Value) (v : Value) : List Value :=
  if hasSame D v then D else D ++ [v]

end ValueFlow.Value
