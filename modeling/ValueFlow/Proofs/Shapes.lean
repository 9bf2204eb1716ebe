import ValueFlow.Proofs.Ensures
import ValueFlow.Proofs.MergeLaws

/-!
# Shapes

A shape is a property of values that the constructors keep and that passes to the parts of a value.
Merging rebuilds its result from parts of its arguments, so it keeps every shape. What can make it
fail is a phi that is left with fewer than two distinct members, and no shape allows one.

* `Value.isReachable_merge_left`: a path that goes on does so where it meets another.
* `Value.plural_flatten`: two distinct values leave two distinct members.
* `Shape.provenance`: what a value in shape hands on is in shape.
* `Shape.join_ok`, `Shape.join`: a join is in shape, and two distinct values have one.
* `Shape.merge`: values in shape can be merged, and the result is in shape.
-/

namespace ValueFlow

namespace Value

theorem forall_mem_union {P : Value → Prop} {D E : List Value} (hD : ∀ d ∈ D, P d)
    (hE : ∀ e ∈ E, P e) : ∀ d ∈ union D E, P d := by
  intro d hd
  rcases mem_union hd with hd | hd
  · exact hD d hd
  · exact hE d hd

theorem forall_mem_without {P : Value → Prop} {D : List Value} (hD : ∀ d ∈ D, P d) (x : Symbol) :
    ∀ d ∈ without x D, P d :=
  fun d hd => hD d (mem_without hd).1

/-- What is bound to a symbol is a variable of it. -/
theorem isVarOf_boundTo (v : Value) (x y : Symbol) (D : List Value) (source : Option Expr) :
    (v.boundTo x D source).isVarOf y = x.same y := by
  cases v with
  | var z w E s =>
    by_cases hzx : z.same x = true
    · rw [isVarOf_congr y (boundTo_own hzx w E s D source none)]
      rfl
    · rw [boundTo_other (Bool.eq_false_iff.mpr hzx)]
      rfl
  | _ => rfl

theorem isReachable_boundTo (v : Value) (x : Symbol) (D : List Value) (source : Option Expr) :
    (v.boundTo x D source).isReachable = true := by
  have bound : (v.boundTo x D source).isVarOf x = true := by
    rw [isVarOf_boundTo, Symbol.same_refl]
  generalize v.boundTo x D source = w at bound
  cases w with
  | var y u E s => rfl
  | _ => cases bound

/-- What goes on on one path goes on where it meets another. -/
theorem isReachable_merge_left {a b m : Value} (ha : a.isReachable = true)
    (hm : merge a b = .ok m) : m.isReachable = true := by
  by_cases hab : a.same b = true
  · rw [merge_of_same hab] at hm
    cases hm
    exact ha
  have step := merge_case a b
  rw [hm] at step
  generalize hr : Except.ok m = r at step
  cases step with
  | same | nothingRight | absorbs =>
    cases hr
    exact ha
  | nothingLeft => cases ha
  | absorbed wraps =>
    cases hr
    cases b with
    | nothing => cases wraps
    | _ => rfl
  | vars | varDependent | dependentVar =>
    cases hr
    exact isReachable_boundTo _ _ _ _
  | @dependents v w D E hvw =>
    cases hr
    -- without dependencies on either side the two would be the same
    have some : union D E ≠ [] := by
      intro none
      obtain ⟨left, right⟩ := eq_nil_of_union none
      apply hab
      rw [left, right, same_dependent, hvw]
      rfl
    exact isReachable_dependingOn_of_ne_nil v some
  | joined | joinedBack =>
    rw [(join_eq_ok hr.symm).2]
    rfl

theorem isReachable_merge_right {a b m : Value} (hb : b.isReachable = true)
    (hm : merge a b = .ok m) : m.isReachable = true := by
  obtain ⟨r, hr, same⟩ := merge_ok_comm hm
  rw [isReachable, isNothing_congr same]
  exact isReachable_merge_left hb hr

/-- Distinct values stay distinct where phis are gone into, as a phi brings two distinct members on
its own. -/
theorem plural_flatten {vs : List Value} (phis : ∀ M, Value.phi M ∈ vs → Plural M) {a b : Value}
    (ha : a ∈ vs) (hb : b ∈ vs) (hab : a.same b = false) : Plural (flatten vs) := by
  by_cases present : ∃ M, Value.phi M ∈ vs
  · obtain ⟨M, hM⟩ := present
    obtain ⟨m, hm, n, hn, hmn⟩ := phis M hM
    exact ⟨m, List.mem_flatMap.mpr ⟨_, hM, hm⟩, n, List.mem_flatMap.mpr ⟨_, hM, hn⟩, hmn⟩
  · have kept : ∀ v ∈ vs, v ∈ flatten vs := by
      intro v hv
      refine List.mem_flatMap.mpr ⟨v, hv, ?_⟩
      cases v with
      | phi M => exact absurd ⟨M, hv⟩ present
      | _ => exact List.mem_singleton.mpr rfl
    exact ⟨a, kept a ha, b, kept b hb, hab⟩

/-- The parts of a value in shape are in shape, and the constructors keep the shape. -/
structure Shape (P : Value → Prop) : Prop where
  ofDependent : ∀ {v D}, P (.dependent v D) → ∀ d ∈ D, P d
  ofVar : ∀ {x v D s}, P (.var x v D s) → P v ∧ ∀ d ∈ D, P d
  ofPhi : ∀ {M}, P (.phi M) → Plural M ∧ ∀ m ∈ M, m.isPhi = false ∧ P m
  /-- What provenance was around can be given other provenance. -/
  dependingOn : ∀ {v D E}, P (.dependent v D) → (∀ e ∈ E, P e) → P (v.dependingOn E)
  /-- What a variable wraps can be bound to its symbol anew. -/
  boundTo : ∀ {x v D s E}, P (.var x v D s) → (∀ e ∈ E, P e) →
    ∀ source, P (v.boundTo x E source)
  phi : ∀ {M}, Plural M → (∀ m ∈ M, m.isPhi = false ∧ P m) → P (.phi M)

namespace Shape

variable {P : Value → Prop} (shape : Shape P)
include shape

theorem provenance {v : Value} (hv : P v) : ∀ d ∈ v.provenance, P d := by
  cases v with
  | dependent w D => exact shape.ofDependent hv
  | var x w D s =>
    refine forall_mem_union (shape.ofVar hv).2 ?_
    intro d hd
    rw [List.mem_singleton.mp hd]
    exact hv
  | _ => exact List.forall_mem_nil P

theorem flatten {vs : List Value} (hvs : ∀ v ∈ vs, P v) :
    ∀ m ∈ flatten vs, m.isPhi = false ∧ P m := by
  intro m hm
  obtain ⟨v, hv, hm⟩ := List.mem_flatMap.mp hm
  cases v with
  | phi M => exact (shape.ofPhi (hvs _ hv)).2 m hm
  | _ =>
    cases List.mem_singleton.mp hm
    exact ⟨rfl, hvs _ hv⟩

theorem join_ok {vs : List Value} (hvs : ∀ v ∈ vs, P v) {r : Value} (hr : join vs = .ok r) :
    P r := by
  obtain ⟨plural, rfl⟩ := join_eq_ok hr
  refine shape.phi ?_ fun m hm => shape.flatten hvs m (mem_distinct hm)
  exact (plural_congr (hasSame_distinct _)).mpr plural

theorem join {a b : Value} (ha : P a) (hb : P b) (hab : a.same b = false) :
    Ensures False P (join [a, b]) := by
  have all : ∀ v ∈ [a, b], P v :=
    List.forall_mem_cons.mpr ⟨ha, List.forall_mem_cons.mpr ⟨hb, List.forall_mem_nil P⟩⟩
  have phis : ∀ M, Value.phi M ∈ [a, b] → Plural M := fun M hM => (shape.ofPhi (all _ hM)).1
  have plural : Plural (Value.flatten [a, b]) :=
    plural_flatten phis List.mem_cons_self (List.mem_cons_of_mem a List.mem_cons_self) hab
  have joined := join_of_plural plural
  rw [joined]
  exact shape.join_ok all joined

theorem merge {a b : Value} (ha : P a) (hb : P b) : Ensures False P (a.merge b) := by
  have step := merge_case a b
  generalize a.merge b = m at step
  cases step with
  | same => exact ha
  | nothingLeft => exact hb
  | nothingRight => exact ha
  | absorbs => exact ha
  | absorbed => exact hb
  | vars =>
    exact shape.boundTo ha (forall_mem_union (shape.ofVar ha).2 (shape.ofVar hb).2) _
  | varDependent =>
    exact shape.boundTo ha (forall_mem_union (shape.ofVar ha).2 (shape.ofDependent hb)) _
  | dependentVar =>
    exact shape.boundTo hb (forall_mem_union (shape.ofVar hb).2 (shape.ofDependent ha)) _
  | dependents =>
    exact shape.dependingOn ha
      (forall_mem_union (shape.ofDependent ha) (shape.ofDependent hb))
  | joined hab => exact shape.join ha hb hab
  | joinedBack hab => exact shape.join hb ha (by rw [same_comm, hab])

end Shape

end Value

end ValueFlow
