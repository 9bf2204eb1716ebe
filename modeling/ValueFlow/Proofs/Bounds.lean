import ValueFlow.Proofs.Shapes
import ValueFlow.Proofs.StandardOperators
import ValueFlow.Value.Text

/-!
# Values within bounds

A value is bounded if it is made of values only and all integers in it, at every depth, are within
64 bits. Nothing is said of its shape. On bounded operands the operators do not fail, and what they
give is bounded again.

* `Bounded.text`: what is bounded has a text.
* `Bounded.lift1`, `Bounded.lift2`: the operators keep values bounded.
-/

namespace ValueFlow

open Value

inductive Value.Bounded : Value → Prop
  | const {c : Constant} (range : c.InRange) : Bounded (.const c)
  | dependent {v : Value} {D : List Value} (hv : Bounded v) (hD : ∀ d ∈ D, Bounded d) :
      Bounded (.dependent v D)
  | var {x : Symbol} {v : Value} {D : List Value} {s : Option Expr} (hv : Bounded v)
      (hD : ∀ d ∈ D, Bounded d) : Bounded (.var x v D s)
  | external {r : Reference} : Bounded (.external r)
  | phi {M : List Value} (hM : ∀ m ∈ M, Bounded m) : Bounded (.phi M)
  | nothing : Bounded .nothing
  | undetermined : Bounded .undetermined

namespace Value

theorem texts_total {D : List Value} (hD : ∀ d ∈ D, ∃ t, d.text = .ok t) :
    ∃ ts, texts D = .ok ts := by
  induction D with
  | nil => exact ⟨[], rfl⟩
  | cons d D ih =>
    obtain ⟨⟨t, ht⟩, hrest⟩ := List.forall_mem_cons.mp hD
    obtain ⟨ts, hts⟩ := ih hrest
    rw [texts, ht, hts]
    exact ⟨t :: ts, rfl⟩

namespace Bounded

theorem text {v : Value} (hv : v.Bounded) : ∃ t, v.text = .ok t := by
  induction hv with
  | const range => exact ⟨_, rfl⟩
  | dependent hv hD ihv ihD =>
    obtain ⟨t, ht⟩ := ihv
    obtain ⟨ts, hts⟩ := texts_total ihD
    rw [Value.text, ht, hts]
    exact ⟨_, rfl⟩
  | var hv hD ihv ihD =>
    obtain ⟨t, ht⟩ := ihv
    obtain ⟨ts, hts⟩ := texts_total ihD
    rw [Value.text, ht, hts]
    exact ⟨_, rfl⟩
  | external => exact ⟨_, rfl⟩
  | phi hM ihM =>
    obtain ⟨ts, hts⟩ := texts_total ihM
    rw [Value.text, hts]
    exact ⟨_, rfl⟩
  | nothing => exact ⟨_, rfl⟩
  | undetermined => exact ⟨_, rfl⟩

theorem core_inRange {v : Value} (hv : v.Bounded) : v.core.InRange := by
  induction hv with
  | const range => exact inRange_const range
  | dependent hv hD ihv => exact ihv
  | var hv hD ihv => exact ihv
  | external | phi | nothing | undetermined =>
    intro c hc
    cases hc

theorem provenance {v : Value} (hv : v.Bounded) : ∀ d ∈ v.provenance, d.Bounded := by
  cases hv with
  | dependent hv hD => exact hD
  | @var x v D s hv hD =>
    refine forall_mem_union hD fun d hd => ?_
    rw [List.mem_singleton.mp hd]
    exact .var hv hD
  | const | external | phi | nothing | undetermined => exact List.forall_mem_nil _

theorem of_isPlain {v : Value} (plain : v.isPlain = true) (range : v.InRange) : v.Bounded := by
  cases v with
  | const c => exact .const (range c rfl)
  | undetermined => exact .undetermined
  | _ => cases plain

/-- What is plain and within 64 bits stays bounded when it is given bounded provenance. -/
theorem dependingOn {v : Value} (plain : v.isPlain = true) (range : v.InRange) {D : List Value}
    (hD : ∀ d ∈ D, d.Bounded) : (v.dependingOn D).Bounded := by
  have bare := of_isPlain plain range
  by_cases empty : D = []
  · rw [empty, dependingOn_nil]
    exact bare
  · rw [dependingOn_of_isAtom (isAtom_of_isPlain plain) empty]
    exact .dependent bare fun d hd => hD d (mem_distinct hd)

theorem lift1 {v : Value} (hv : v.Bounded) (op : PrefixOp) :
    Ensures False Bounded (lift1 op.core v) := by
  rw [lift1_eq]
  refine (op.core_ensures v.core).map fun r hr => ?_
  exact dependingOn hr.plain (hr.inRange hv.core_inRange) hv.provenance

theorem lift2 {v w : Value} (hv : v.Bounded) (hw : w.Bounded) {op : BinaryOp} {f : BinaryCore}
    (hf : op.core? = some f) : Ensures False Bounded (lift2 f v w) := by
  have total := (BinaryOp.core_ensures hf v.core w.core).weaken
    fun outside => outside ⟨hv.core_inRange, hw.core_inRange⟩
  rw [lift2_eq]
  refine total.map fun r hr => ?_
  exact dependingOn hr.plain hr.inRange (forall_mem_union hv.provenance hw.provenance)

end Bounded

end Value

/-- Everything that is bound is bounded, and nothing is bound to `nothing`. -/
def State.Bounded (s : State) : Prop :=
  ∀ x v, s.get? x = some v → v.Bounded ∧ v.isReachable = true

theorem State.Bounded.lookup {s : State} (hs : s.Bounded) (x : Symbol) :
    (s.lookup x).Bounded ∧ (s.lookup x).isReachable = true := by
  rw [State.lookup]
  cases h : s.get? x with
  | none => exact ⟨.undetermined, rfl⟩
  | some v => exact hs x v h

theorem State.bounded_empty : State.empty.Bounded := nofun

theorem State.Bounded.set {s : State} (hs : s.Bounded) {v : Value} (hv : v.Bounded)
    (reachable : v.isReachable = true) (x : Symbol) : (s.set x v).Bounded := by
  intro y w hw
  rw [get?_set] at hw
  split at hw
  · cases hw
    exact ⟨hv, reachable⟩
  · exact hs y w hw

end ValueFlow
