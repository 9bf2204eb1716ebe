import ValueFlow.Proofs.Alternatives
import ValueFlow.Proofs.NormalForm

/-!
# Joining many paths

Merging is not associative on the nose: which phis come out depends on what has been absorbed
before. What the result says about the paths does not depend on the order in which they are
brought together, nor on how they are grouped: it is reachable if one of them is, and it has the
alternatives of the paths that contribute, which are those that go on, or all if none does.

* `Outcome.Summarizes.merge`: merging summaries of two lists of paths summarizes both.
* `Grouping.mergeAll_summarizes`: so does merging along any grouping.
* `Grouping.mergeAll_alternatives`: the result in terms of the paths, in any order.
-/

namespace ValueFlow

open Value

namespace State

/-- Every binding can be built. -/
def Built (s : State) : Prop := ∀ x v, s.get? x = some v → v.Built

theorem built_empty : empty.Built := nofun

theorem Built.assign {s : State} (hs : s.Built) (x : Symbol) {v : Value} (hv : v.Built)
    (source : Option Expr) : (s.assign x v source).Built := by
  intro y w hw
  rw [State.assign, get?_set] at hw
  split at hw
  · cases hw
    exact .boundTo hv (List.forall_mem_nil _) x source
  · exact hs y w hw

end State

/-- A way of bringing things together, two at a time. -/
inductive Grouping (α : Type) where
  | one (a : α)
  | pair (left right : Grouping α)

namespace Grouping

/-- What is brought together, in order. -/
def leaves {α : Type} : Grouping α → List α
  | .one a => [a]
  | .pair l r => l.leaves ++ r.leaves

def mergeAll : Grouping Outcome → Except Fault Outcome
  | .one o => .ok o
  | .pair l r => do
    let o ← l.mergeAll
    let p ← r.mergeAll
    o.merge p

end Grouping

namespace Outcome

def Built (o : Outcome) : Prop := o.value.Built ∧ o.state.Built

/-- What the value is, and what any symbol is read as, is in normal form. -/
def Normal (o : Outcome) : Prop := o.value.Normal ∧ ∀ x, (o.state.lookup x).Normal

theorem Built.normal {o : Outcome} (ho : o.Built) : o.Normal := by
  refine ⟨ho.1.normal, fun x => ?_⟩
  rw [State.lookup]
  cases h : o.state.get? x with
  | none => exact .undetermined
  | some v => exact (ho.2 x v h).normal

/-- The paths that go on, or all if none does. -/
def contributing (os : List Outcome) : List Outcome :=
  if os.any isReachable then os.filter isReachable else os

theorem contributing_perm {os ps : List Outcome} (h : os.Perm ps) :
    (contributing os).Perm (contributing ps) := by
  rw [contributing, contributing, h.any_eq]
  split
  · exact h.filter _
  · exact h

theorem filter_of_not_any {os : List Outcome} (h : os.any isReachable = false) :
    os.filter isReachable = [] := by
  simpa using h

/-- A path that does not go on has no alternatives. -/
theorem flatMap_value_contributing (os : List Outcome) :
    (contributing os).flatMap (fun o => o.value.alternatives) =
      (os.filter isReachable).flatMap fun o => o.value.alternatives := by
  rw [contributing]
  split
  · rfl
  · rename_i h
    have none := Bool.eq_false_iff.mpr h
    rw [filter_of_not_any none, List.flatMap_nil, List.flatMap_eq_nil_iff]
    intro o ho
    rw [value_of_not_isReachable (Bool.eq_false_iff.mpr fun reach => ?_)]
    · rfl
    · exact h (List.any_eq_true.mpr ⟨o, ho, reach⟩)

section

variable {os ps : List Outcome}

theorem contributing_append_right (ho : os.any isReachable = false)
    (hp : ps.any isReachable = true) : contributing (os ++ ps) = contributing ps := by
  simp [contributing, hp, filter_of_not_any ho]

theorem contributing_append_left (ho : os.any isReachable = true)
    (hp : ps.any isReachable = false) : contributing (os ++ ps) = contributing os := by
  simp [contributing, ho, filter_of_not_any hp]

theorem contributing_append (h : os.any isReachable = ps.any isReachable) :
    contributing (os ++ ps) = contributing os ++ contributing ps := by
  cases hp : ps.any isReachable with
  | true => simp [contributing, h, hp]
  | false => simp [contributing, h, hp]

end

/-- What an outcome says about the paths that it stands for. -/
structure Summarizes (r : Outcome) (os : List Outcome) : Prop where
  normal : r.Normal
  reachable : r.isReachable = os.any isReachable
  value : ∀ v, hasSame r.value.alternatives v =
    hasSame ((contributing os).flatMap fun o => o.value.alternatives) v
  state : ∀ x v, hasSame (r.state.lookup x).alternatives v =
    hasSame ((contributing os).flatMap fun o => (o.state.lookup x).alternatives) v

namespace Summarizes

variable {r t : Outcome} {os ps : List Outcome}

theorem one {o : Outcome} (ho : o.Normal) : o.Summarizes [o] := by
  have alone : contributing [o] = [o] := by
    cases h : o.isReachable <;> simp [contributing, h]
  refine ⟨ho, ?_, fun v => ?_, fun x v => ?_⟩
  · simp
  · rw [alone, List.flatMap_singleton]
  · rw [alone, List.flatMap_singleton]

/-- Two paths of which both or none goes on are merged part by part. -/
theorem merge_parts (hr : r.Summarizes os) (ht : t.Summarizes ps)
    (h : r.isReachable = t.isReachable) :
    Ensures False (Summarizes · (os ++ ps)) (r.merge t) := by
  obtain ⟨v, hv, normal⟩ := (Normal.shape.merge hr.normal.1 ht.normal.1).exists_ok
  have lookups := fun x => (Normal.shape.merge (hr.normal.2 x) (ht.normal.2 x)).exists_ok
  obtain ⟨s, hs⟩ := (State.merge_ok_iff r.state t.state).mpr fun x =>
    (lookups x).imp fun _ found => found.1
  have any : os.any isReachable = ps.any isReachable := by
    rw [← hr.reachable, ← ht.reachable, h]
  rw [Outcome.merge_parts h, hv, hs]
  refine ⟨⟨normal, fun x => ?_⟩, ?_, fun w => ?_, fun x w => ?_⟩
  · obtain ⟨w, hw, normalW⟩ := lookups x
    rw [State.merge_lookup hs x] at hw
    cases hw
    exact normalW
  · show v.isReachable = _
    rw [List.any_append, any, Bool.or_self, ← ht.reachable]
    cases reach : t.isReachable with
    | true => exact isReachable_merge_left (h.trans reach) hv
    | false =>
      rw [value_of_not_isReachable (h.trans reach), value_of_not_isReachable reach,
        nothing_merge] at hv
      cases hv
      rfl
  · rw [contributing_append any, List.flatMap_append, hasSame_append, ← hr.value, ← ht.value]
    exact hasSame_alternatives_merge hv w
  · rw [contributing_append any, List.flatMap_append, hasSame_append, ← hr.state, ← ht.state]
    exact hasSame_alternatives_merge (State.merge_lookup hs x) w

/-- Paths that do not contribute can be left out. -/
theorem of_contributing (hr : r.Summarizes os) (any : ps.any isReachable = os.any isReachable)
    (kept : contributing ps = contributing os) : r.Summarizes ps := by
  refine ⟨hr.normal, ?_, fun v => ?_, fun x v => ?_⟩
  · rw [any, hr.reachable]
  · rw [kept, hr.value]
  · rw [kept, hr.state]

theorem merge (hr : r.Summarizes os) (ht : t.Summarizes ps) :
    Ensures False (Summarizes · (os ++ ps)) (r.merge t) := by
  cases reachR : r.isReachable with
  | true =>
    cases reachT : t.isReachable with
    | true => exact hr.merge_parts ht (reachR.trans reachT.symm)
    | false =>
      have anyR : os.any isReachable = true := hr.reachable.symm.trans reachR
      have anyT : ps.any isReachable = false := ht.reachable.symm.trans reachT
      rw [merge_unreachable_right reachR reachT]
      refine hr.of_contributing ?_ (contributing_append_left anyR anyT)
      rw [List.any_append, anyT, Bool.or_false]
  | false =>
    cases reachT : t.isReachable with
    | true =>
      have anyR : os.any isReachable = false := hr.reachable.symm.trans reachR
      have anyT : ps.any isReachable = true := ht.reachable.symm.trans reachT
      rw [merge_unreachable_left reachR reachT]
      refine ht.of_contributing ?_ (contributing_append_right anyR anyT)
      rw [List.any_append, anyR, Bool.false_or]
    | false => exact hr.merge_parts ht (reachR.trans reachT.symm)

end Summarizes

end Outcome

namespace Grouping

open Outcome

theorem mergeAll_summarizes (t : Grouping Outcome) (normal : ∀ o ∈ t.leaves, o.Normal) :
    Ensures False (Summarizes · t.leaves) t.mergeAll := by
  induction t with
  | one o => exact .one (normal o (List.mem_singleton_self o))
  | pair l r ihl ihr =>
    obtain ⟨normalL, normalR⟩ := List.forall_mem_append.mp normal
    refine (ihl normalL).bind fun o ho => ?_
    exact (ihr normalR).bind fun p hp => ho.merge hp

/-- What paths are joined to does not depend on their order, nor on their grouping. -/
theorem mergeAll_alternatives {os : List Outcome} (built : ∀ o ∈ os, o.Built)
    {t : Grouping Outcome} (ordered : t.leaves.Perm os) :
    ∃ r, t.mergeAll = .ok r ∧
      (r.isReachable = true ↔ ∃ o ∈ os, o.isReachable = true) ∧
      sameSet r.value.alternatives
        ((os.filter Outcome.isReachable).flatMap fun o => o.value.alternatives) = true ∧
      ∀ x, sameSet (r.state.lookup x).alternatives
        ((contributing os).flatMap fun o => (o.state.lookup x).alternatives) = true := by
  have normal : ∀ o ∈ t.leaves, o.Normal := fun o ho => (built o (ordered.mem_iff.mp ho)).normal
  obtain ⟨r, hr, summary⟩ := (mergeAll_summarizes t normal).exists_ok
  have perm := contributing_perm ordered
  refine ⟨r, hr, ?_, ?_, fun x => ?_⟩
  · rw [summary.reachable, ordered.any_eq, List.any_eq_true]
  · rw [sameSet_iff]
    intro v
    rw [summary.value, ← flatMap_value_contributing, Bool.eq_iff_iff, hasSame_flatMap,
      hasSame_flatMap]
    simp only [perm.mem_iff]
  · rw [sameSet_iff]
    intro v
    rw [summary.state, Bool.eq_iff_iff, hasSame_flatMap, hasSame_flatMap]
    simp only [perm.mem_iff]

/-- Three paths, of which one does not go on and leaves no trace in the result. -/
theorem mergeAll_alternatives_three_paths :
    let x : Symbol := .decl ⟨0, "x", .block⟩
    let a : Outcome := ⟨.int 1, State.empty.assign x (.int 1) none⟩
    let b : Outcome := ⟨.int 2, .empty⟩
    let dead : Outcome := ⟨.nothing, State.empty.assign x (.int 3) none⟩
    ∃ r, (Grouping.pair (.one b) (.pair (.one dead) (.one a))).mergeAll = .ok r ∧
      (r.isReachable = true ↔ ∃ o ∈ [a, b, dead], o.isReachable = true) ∧
      sameSet r.value.alternatives [.int 1, .int 2] = true ∧
      sameSet (r.state.lookup x).alternatives [.int 1, .undetermined] = true := by
  intro x a b dead
  have ha : a.Built := ⟨.const _, State.built_empty.assign x (.const _) none⟩
  have hb : b.Built := ⟨.const _, State.built_empty⟩
  have hdead : dead.Built := ⟨.nothing, State.built_empty.assign x (.const _) none⟩
  have built : ∀ o ∈ [a, b, dead], o.Built :=
    List.forall_mem_cons.mpr
      ⟨ha, List.forall_mem_cons.mpr ⟨hb, List.forall_mem_singleton.mpr hdead⟩⟩
  have ordered : ([b, dead] ++ [a]).Perm ([a] ++ [b, dead]) := List.perm_append_comm
  obtain ⟨r, hr, reachable, value, state⟩ :=
    mergeAll_alternatives built (t := .pair (.one b) (.pair (.one dead) (.one a))) ordered
  exact ⟨r, hr, reachable, value, state x⟩

end Grouping

end ValueFlow
