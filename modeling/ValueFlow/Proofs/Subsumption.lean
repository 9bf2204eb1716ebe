import ValueFlow.Proofs.Alternatives
import ValueFlow.Proofs.Shapes
import ValueFlow.Proofs.SignedZeros

/-!
# Results that lose information

A value subsumes another if each alternative of the other is one of its own, or one of its own is
not known. Merging only adds alternatives, so a merge subsumes what either side does. Sums and
differences are computed on what is known alone, and keep the order unless an operand has several
alternatives that are all one constant.

* `Value.subsumes`: the order on values.
* `Value.subsumes_merge_left`, `Value.subsumes_of_merge`: merging and the order.
* `Value.subsumes_lift2`: sums and differences of values in the order.
* `State.Subsumes`, `Outcome.Subsumes`: the order on states and outcomes, outside given symbols.
-/

namespace ValueFlow

/-- Sums and differences do not tell constants apart that are the same. -/
theorem Arithmetic.binary_same (ints : Int → Int → Option Int) {f : Double → Double → Double}
    (hf : ∀ {x x' y y' : Double}, x.same x' = true → y.same y' = true →
      (f x y).same (f x' y') = true) {c c' d d' : Constant} (hc : c.same c' = true)
    (hd : d.same d' = true) :
    Pairs (fun r r' => r.same r' = true) (binary ints (onDoubles f) (.const c) (.const d))
      (binary ints (onDoubles f) (.const c') (.const d')) := by
  have left : (Value.const c).same (.const c') = true := hc
  have right : (Value.const d).same (.const d') = true := hd
  exact (binary_concur ints left right fun _ _ _ => onDoubles_concur hf).pairs

namespace Value

/-- One of the alternatives is not known. -/
def isOpen (v : Value) : Bool := v.alternatives.any fun a => a.isUndetermined || a.isExternal

/-- Each alternative of `w` is one of `v`, or `v` is open. -/
def subsumes (v w : Value) : Bool :=
  v.isOpen || w.alternatives.all fun a => hasSame v.alternatives a

/-- Not a constant under its provenance, though all its alternatives are one. -/
def isUnanimous (v : Value) : Bool :=
  !v.core.isConstant && v.alternatives.all fun a => a.isConstant && v.alternatives.all a.same

variable {a b m v v' w w' : Value}

theorem subsumes_iff : v.subsumes w = true ↔
    v.isOpen = true ∨ ∀ a ∈ w.alternatives, hasSame v.alternatives a = true := by
  simp [subsumes]

theorem subsumes_of_isOpen (h : v.isOpen = true) (w : Value) : v.subsumes w = true :=
  subsumes_iff.mpr (Or.inl h)

theorem subsumes_refl (v : Value) : v.subsumes v = true :=
  subsumes_iff.mpr (Or.inr fun _ ha => hasSame_of_mem ha)

theorem isOpen_mono (more : ∀ a, hasSame v.alternatives a = true → hasSame v'.alternatives a = true)
    (h : v.isOpen = true) : v'.isOpen = true := by
  obtain ⟨a, ha, unknown⟩ := List.any_eq_true.mp h
  obtain ⟨b, hb, hba⟩ := hasSame_iff.mp (more a (hasSame_of_mem ha))
  refine List.any_eq_true.mpr ⟨b, hb, ?_⟩
  cases a with
  | undetermined =>
    cases b with
    | undetermined => rfl
    | _ => cases hba
  | external r =>
    cases b with
    | external s => rfl
    | _ => cases hba
  | _ => cases unknown

theorem subsumes_mono
    (more : ∀ a, hasSame v.alternatives a = true → hasSame v'.alternatives a = true)
    (h : v.subsumes w = true) : v'.subsumes w = true := by
  refine subsumes_iff.mpr ?_
  rcases subsumes_iff.mp h with unknown | known
  · exact Or.inl (isOpen_mono more unknown)
  · exact Or.inr fun a ha => more a (known a ha)

theorem subsumes_merge_left (h : v.subsumes w = true) (hm : merge v v' = .ok m) :
    m.subsumes w = true := by
  refine subsumes_mono (fun a ha => ?_) h
  rw [hasSame_alternatives_merge hm, ha, Bool.true_or]

theorem subsumes_merge_right (h : v'.subsumes w = true) (hm : merge v v' = .ok m) :
    m.subsumes w = true := by
  refine subsumes_mono (fun a ha => ?_) h
  rw [hasSame_alternatives_merge hm, ha, Bool.or_true]

/-- What subsumes both sides subsumes what they are merged to. -/
theorem subsumes_of_merge (ha : v.subsumes a = true) (hb : v.subsumes b = true)
    (hm : merge a b = .ok m) : v.subsumes m = true := by
  refine subsumes_iff.mpr ?_
  rcases subsumes_iff.mp ha with unknown | first
  · exact Or.inl unknown
  rcases subsumes_iff.mp hb with unknown | second
  · exact Or.inl unknown
  refine Or.inr fun c hc => ?_
  have either := hasSame_of_mem hc
  rw [hasSame_alternatives_merge hm, Bool.or_eq_true] at either
  rcases either with h | h
  · obtain ⟨d, hd, hdc⟩ := hasSame_iff.mp h
    rw [← hasSame_congr _ hdc]
    exact first d hd
  · obtain ⟨d, hd, hdc⟩ := hasSame_iff.mp h
    rw [← hasSame_congr _ hdc]
    exact second d hd

theorem subsumes_boundTo (h : v.subsumes w = true) (x y : Symbol) (D E : List Value)
    (s t : Option Expr) : (v.boundTo x D s).subsumes (w.boundTo y E t) = true := by
  rw [subsumes, isOpen, alternatives_boundTo, alternatives_boundTo]
  exact h

theorem subsumes_dependingOn (h : v.subsumes w = true) (D E : List Value) :
    (v.dependingOn D).subsumes (w.dependingOn E) = true := by
  rw [subsumes, isOpen, alternatives_dependingOn, alternatives_dependingOn]
  exact h

theorem subsumes_of_same (h : v.same w = true) : v.subsumes w = true := by
  refine subsumes_iff.mpr (Or.inr fun a ha => ?_)
  rw [alternatives_congr h]
  exact hasSame_of_mem ha

/-- What is known and subsumes a value is the same constant as the value under its provenance,
unless that is unanimous. -/
theorem core_of_subsumes {c : Constant} (hv : v.core = .const c) (h : v.subsumes w = true)
    (hw : w.isUnanimous = false) : ∃ d, w.core = .const d ∧ c.same d = true := by
  have only : v.alternatives = [.const c] := by rw [← alternatives_core, hv]; rfl
  have closed : v.isOpen = false := by rw [isOpen, only]; rfl
  have same : ∀ a ∈ w.alternatives, (Value.const c).same a = true := by
    intro a ha
    rcases subsumes_iff.mp h with unknown | known
    · rw [closed] at unknown
      cases unknown
    · have present := known a ha
      rw [only] at present
      simpa using present
  cases core : w.core with
  | const d =>
    refine ⟨d, rfl, same (.const d) ?_⟩
    rw [← alternatives_core, core]
    exact List.mem_cons_self
  | _ =>
    have unknown : w.core.isConstant = false := by rw [core]; rfl
    have unanimous : w.isUnanimous = true := by
      rw [isUnanimous, unknown, Bool.not_false, Bool.true_and, List.all_eq_true]
      intro a ha
      have constant : a.isConstant = true := by
        cases a with
        | const d => rfl
        | _ => cases same _ ha
      rw [constant, Bool.true_and, List.all_eq_true]
      intro b hb
      rw [← same_congr_left (same a ha)]
      exact same b hb
    rw [unanimous] at hw
    cases hw

theorem eq_const_of_isConstant (h : v.isConstant = true) : ∃ c, v = .const c := by
  cases v with
  | const c => exact ⟨c, rfl⟩
  | _ => cases h

/-- An operator that is computed on what is known alone, and does not tell constants apart that are
the same, keeps the order, unless an operand is unanimous. -/
theorem subsumes_lift2 {f : BinaryCore}
    (strict : ∀ {a b : Value}, a.isConstant = false ∨ b.isConstant = false →
      f a b = .ok .undetermined)
    (respects : ∀ {c c' d d' : Constant}, c.same c' = true → d.same d' = true →
      Pairs (fun r r' => r.same r' = true) (f (.const c) (.const d)) (f (.const c') (.const d')))
    (hw : w.subsumes v = true) (hw' : w'.subsumes v' = true) (hv : v.isUnanimous = false)
    (hv' : v'.isUnanimous = false) :
    Pairs (fun q r => r.subsumes q = true) (lift2 f v v') (lift2 f w w') := by
  rw [lift2_eq, lift2_eq]
  have cores : Pairs (fun q r => r.subsumes q = true) (f v.core v'.core) (f w.core w'.core) := by
    by_cases unknown : w.core.isConstant = false ∨ w'.core.isConstant = false
    · rw [strict unknown]
      rintro q _ _ ⟨⟩
      exact subsumes_of_isOpen rfl q
    · have known : w.core.isConstant = true ∧ w'.core.isConstant = true := by simpa using unknown
      obtain ⟨c, hc⟩ := eq_const_of_isConstant known.1
      obtain ⟨d, hd⟩ := eq_const_of_isConstant known.2
      obtain ⟨c', hc', left⟩ := core_of_subsumes hc hw hv
      obtain ⟨d', hd', right⟩ := core_of_subsumes hd hw' hv'
      rw [hc, hd, hc', hd']
      intro q r hq hr
      exact subsumes_of_same (respects left right r q hr hq)
  exact cores.map fun q r h => subsumes_dependingOn h _ _

end Value

namespace State

/-- Every binding is reachable and, outside the given symbols, subsumes that of the other state. -/
structure Subsumes (U : List Symbol) (t s : State) : Prop where
  reachable : ∀ x, (t.lookup x).isReachable = true
  values : ∀ x, x.isIn U = false → (t.lookup x).subsumes (s.lookup x) = true

namespace Subsumes

variable {U : List Symbol} {s s' t t' u : State}

theorem refl (reachable : ∀ x, (s.lookup x).isReachable = true) : Subsumes U s s :=
  ⟨reachable, fun _ _ => Value.subsumes_refl _⟩

theorem assign (h : Subsumes U t s) {x : Symbol} {v w : Value}
    (hvw : x.isIn U = false → v.subsumes w = true) (source source' : Option Expr) :
    Subsumes U (t.assign x v source) (s.assign x w source') := by
  refine ⟨fun y => ?_, fun y hy => ?_⟩
  · rw [lookup_assign]
    split
    · exact Value.isReachable_boundTo v x [] source
    · exact h.reachable y
  · rw [lookup_assign, lookup_assign]
    split
    · rename_i hxy
      rw [← Symbol.isIn_congr hxy] at hy
      exact Value.subsumes_boundTo (hvw hy) x x [] [] source source'
    · exact h.values y hy

/-- What the other state binds within the given symbols does not matter. -/
theorem assign_within (h : Subsumes U t s) {x : Symbol} (hx : x.isIn U = true) (w : Value)
    (source : Option Expr) : Subsumes U t (s.assign x w source) := by
  refine ⟨h.reachable, fun y hy => ?_⟩
  rw [lookup_assign, if_neg]
  · exact h.values y hy
  · intro hxy
    rw [← Symbol.isIn_congr hxy, hx] at hy
    cases hy

theorem merge_left (h : Subsumes U t s) (hu : t.merge t' = .ok u) : Subsumes U u s :=
  ⟨fun x => Value.isReachable_merge_left (h.reachable x) (merge_lookup hu x),
    fun x hx => Value.subsumes_merge_left (h.values x hx) (merge_lookup hu x)⟩

theorem merge_right (h : Subsumes U t' s) (hu : t.merge t' = .ok u) : Subsumes U u s :=
  ⟨fun x => Value.isReachable_merge_right (h.reachable x) (merge_lookup hu x),
    fun x hx => Value.subsumes_merge_right (h.values x hx) (merge_lookup hu x)⟩

theorem of_merge (h : Subsumes U t s) (h' : Subsumes U t s') (hu : s.merge s' = .ok u) :
    Subsumes U t u :=
  ⟨h.reachable,
    fun x hx => Value.subsumes_of_merge (h.values x hx) (h'.values x hx) (merge_lookup hu x)⟩

end Subsumes

end State

namespace Outcome

/-- The outcome goes on, its value subsumes that of the other unless it is stale, and so does its
state outside the given symbols. -/
structure Keeps (U : List Symbol) (stale : Bool) (r q : Outcome) : Prop where
  reachable : r.isReachable = true
  value : stale = false → r.value.subsumes q.value = true
  state : r.state.Subsumes U q.state

/-- The outcome keeps the other one if that goes on. -/
def Subsumes (U : List Symbol) (stale : Bool) (r q : Outcome) : Prop :=
  q.isReachable = true → Keeps U stale r q

variable {U : List Symbol} {stale stale' : Bool} {m p p' q q' r : Outcome}

namespace Keeps

theorem mono (h : Keeps U stale r q) (more : stale = true → stale' = true) :
    Keeps U stale' r q := by
  refine ⟨h.reachable, fun fresh => h.value ?_, h.state⟩
  cases stale with
  | false => rfl
  | true =>
    rw [more rfl] at fresh
    cases fresh

theorem merge_left (h : Keeps U stale r q) (hm : r.merge p = .ok m) : Keeps U stale m q := by
  cases reachP : p.isReachable with
  | false =>
    rw [merge_unreachable_right h.reachable reachP] at hm
    cases hm
    exact h
  | true =>
    obtain ⟨values, states⟩ := parts_of_merge (h.reachable.trans reachP.symm) hm
    exact ⟨Value.isReachable_merge_left h.reachable values,
      fun fresh => Value.subsumes_merge_left (h.value fresh) values, h.state.merge_left states⟩

theorem merge_right (h : Keeps U stale r q) (hm : p.merge r = .ok m) : Keeps U stale m q := by
  cases reachP : p.isReachable with
  | false =>
    rw [merge_unreachable_left reachP h.reachable] at hm
    cases hm
    exact h
  | true =>
    obtain ⟨values, states⟩ := parts_of_merge (reachP.trans h.reachable.symm) hm
    exact ⟨Value.isReachable_merge_right h.reachable values,
      fun fresh => Value.subsumes_merge_right (h.value fresh) values, h.state.merge_right states⟩

end Keeps

namespace Subsumes

theorem of_unreachable (h : q.isReachable = false) (r : Outcome) : Subsumes U stale r q := by
  intro reachable
  rw [h] at reachable
  cases reachable

theorem mono (h : Subsumes U stale r q) (more : stale = true → stale' = true) :
    Subsumes U stale' r q := fun reachable => (h reachable).mono more

theorem merge_left (h : Subsumes U stale r q) (hm : r.merge p = .ok m) : Subsumes U stale m q :=
  fun reachable => (h reachable).merge_left hm

theorem merge_right (h : Subsumes U stale r q) (hm : p.merge r = .ok m) : Subsumes U stale m q :=
  fun reachable => (h reachable).merge_right hm

/-- What subsumes both sides subsumes what they are merged to: if one side does not go on, it has no
part in that. -/
theorem of_merge (h : Subsumes U stale r q) (h' : Subsumes U stale r q')
    (hm : q.merge q' = .ok m) : Subsumes U stale r m := by
  cases reach : q.isReachable with
  | false =>
    cases reach' : q'.isReachable with
    | false =>
      obtain ⟨values, -⟩ := parts_of_merge (reach.trans reach'.symm) hm
      rw [value_of_not_isReachable reach, value_of_not_isReachable reach', Value.merge_self]
        at values
      refine of_unreachable ?_ r
      rw [isReachable, ← Except.ok.inj values]
      rfl
    | true =>
      rw [merge_unreachable_left reach reach'] at hm
      cases hm
      exact h'
  | true =>
    cases reach' : q'.isReachable with
    | false =>
      rw [merge_unreachable_right reach reach'] at hm
      cases hm
      exact h
    | true =>
      obtain ⟨values, states⟩ := parts_of_merge (reach.trans reach'.symm) hm
      have left := h reach
      have right := h' reach'
      exact fun _ => ⟨left.reachable,
        fun fresh => Value.subsumes_of_merge (left.value fresh) (right.value fresh) values,
        left.state.of_merge right.state states⟩

end Subsumes

end Outcome

end ValueFlow
