import ValueFlow.Proofs.MergeLaws

/-!
# The alternatives of a value

The values that a value can stand for: provenance is looked through, the members of a phi are gone
into, and a path that does not go on contributes none. Merging drops provenance here and there but
keeps the alternatives of both sides and adds none.

* `alternatives_congr`: values that are the same have the same alternatives.
* `alternatives_boundTo`, `alternatives_dependingOn`: wrapping keeps the alternatives.
* `hasSame_alternatives_merge`: a merge has the alternatives of both sides.
-/

namespace ValueFlow.Value

def alternatives : Value → List Value
  | .nothing => []
  | .dependent v _ => v.alternatives
  | .var _ v _ _ => v.alternatives
  | .phi members => ofAll members
  | v => [v]
where
  ofAll : List Value → List Value
    | [] => []
    | v :: vs => v.alternatives ++ ofAll vs

theorem alternatives_phi (M : List Value) :
    (Value.phi M).alternatives = M.flatMap alternatives := by
  rw [alternatives]
  induction M with
  | nil => rfl
  | cons m M ih => rw [alternatives.ofAll, ih, List.flatMap_cons]

@[simp] theorem alternatives_dependent (v : Value) (D : List Value) :
    (Value.dependent v D).alternatives = v.alternatives := rfl

@[simp] theorem alternatives_var (x : Symbol) (v : Value) (D : List Value) (s : Option Expr) :
    (Value.var x v D s).alternatives = v.alternatives := rfl

theorem alternatives_of_isAtom {v : Value} (h : v.isAtom = true) : v.alternatives = [v] := by
  cases v with
  | dependent v D => cases h
  | var x v D s => cases h
  | phi M => cases h
  | nothing => cases h
  | _ => rfl

theorem hasSame_flatMap {α : Type} {D : List α} {f : α → List Value} {v : Value} :
    hasSame (D.flatMap f) v = true ↔ ∃ d ∈ D, hasSame (f d) v = true := by
  simp only [hasSame_iff, List.mem_flatMap]
  constructor
  · rintro ⟨e, ⟨d, hd, he⟩, hev⟩
    exact ⟨d, hd, e, he, hev⟩
  · rintro ⟨d, hd, e, he, hev⟩
    exact ⟨e, ⟨d, hd, he⟩, hev⟩

theorem alternatives_congr {a b : Value} (h : a.same b = true) (v : Value) :
    hasSame a.alternatives v = hasSame b.alternatives v := by
  induction a using Value.induction generalizing b with
  | dependent a D iha =>
    cases b with
    | dependent b E =>
      simp only [same_dependent, Bool.and_eq_true] at h
      rw [alternatives_dependent, alternatives_dependent, iha h.1]
    | _ => cases h
  | var x a D s iha =>
    cases b with
    | var y b E t =>
      simp only [same_var, Bool.and_eq_true] at h
      rw [alternatives_var, alternatives_var, iha h.1.2]
    | _ => cases h
  | phi M ihM =>
    cases b with
    | phi N =>
      obtain ⟨sub, sup⟩ := sameSet_eq_true_iff.mp h
      rw [alternatives_phi, alternatives_phi, Bool.eq_iff_iff, hasSame_flatMap, hasSame_flatMap]
      constructor
      · rintro ⟨m, hm, hv⟩
        obtain ⟨n, hn, hmn⟩ := sub m hm
        exact ⟨n, hn, ihM m hm hmn ▸ hv⟩
      · rintro ⟨n, hn, hv⟩
        obtain ⟨m, hm, hmn⟩ := sup n hn
        exact ⟨m, hm, (ihM m hm hmn).trans hv⟩
    | _ => cases h
  | nothing =>
    cases b with
    | nothing => rfl
    | _ => cases h
  | _ =>
    have hb : b.isAtom = true := (isAtom_congr h).symm
    rw [alternatives_of_isAtom rfl, alternatives_of_isAtom hb, hasSame_cons, hasSame_cons,
      same_congr_left h]

theorem alternatives_core (v : Value) : v.core.alternatives = v.alternatives := by
  induction v using Value.induction with
  | dependent v D ihv => exact ihv
  | var x v D s ihv => exact ihv
  | _ => rfl

theorem alternatives_dependingOn (v : Value) (D : List Value) :
    (v.dependingOn D).alternatives = v.alternatives := by
  by_cases hD : D = []
  · rw [hD, dependingOn_nil]
  cases hv : v.isPlainDependent with
  | false => rw [dependingOn_of_not_dependent hv hD, alternatives_dependent]
  | true =>
    cases v with
    | dependent w E =>
      rw [dependingOn_dependent w E hD, alternatives_dependent, alternatives_dependent]
    | _ => cases hv

theorem alternatives_boundTo (v : Value) (x : Symbol) (D : List Value) (source : Option Expr) :
    (v.boundTo x D source).alternatives = v.alternatives := by
  induction v using Value.induction generalizing x D source with
  | dependent w E =>
    rw [boundTo_dependent, alternatives_var, alternatives_dependingOn, alternatives_dependent]
  | var y w E s ihw =>
    cases hyx : y.same x with
    | true =>
      rw [boundTo]
      simp only [hyx, if_true]
      split <;> rfl
    | false => rw [boundTo_other hyx, alternatives_var, ihw, alternatives_var]
  | _ => rw [boundTo_bare rfl, alternatives_var]

/-- A list of values and the phis among its members stand for the same alternatives. -/
theorem hasSame_alternatives_flatten (vs : List Value) (v : Value) :
    hasSame ((flatten vs).flatMap alternatives) v = hasSame (vs.flatMap alternatives) v := by
  induction vs with
  | nil => rfl
  | cons u vs ih =>
    have split : flatten (u :: vs) = flatten [u] ++ flatten vs := flatten_append [u] vs
    rw [split, List.flatMap_append, hasSame_append, ih, List.flatMap_cons, hasSame_append]
    congr 1
    cases u with
    | phi M => rw [alternatives_phi, flatten, List.flatMap_singleton]
    | _ => rw [flatten, List.flatMap_singleton, List.flatMap_singleton]

theorem hasSame_alternatives_join {vs : List Value} {r : Value} (h : join vs = .ok r)
    (v : Value) : hasSame r.alternatives v = hasSame (vs.flatMap alternatives) v := by
  rw [(join_eq_ok h).2, alternatives_phi, ← hasSame_alternatives_flatten vs, Bool.eq_iff_iff,
    hasSame_flatMap,
    hasSame_flatMap]
  constructor
  · rintro ⟨m, hm, hv⟩
    exact ⟨m, mem_distinct hm, hv⟩
  · rintro ⟨m, hm, hv⟩
    have present : hasSame (distinct (flatten vs)) m = true := by
      rw [hasSame_distinct, hasSame_of_mem hm]
    obtain ⟨n, hn, hnm⟩ := hasSame_iff.mp present
    exact ⟨n, hn, (alternatives_congr hnm v).trans hv⟩

theorem alternatives_of_isWrappedBy {a b : Value} (h : b.isWrappedBy a = true) (v : Value) :
    hasSame b.alternatives v = hasSame a.alternatives v := by
  cases a with
  | dependent a D =>
    rw [isWrappedBy, equals_eq_same] at h
    exact alternatives_congr h v
  | var x a D s =>
    rw [isWrappedBy, equals_eq_same] at h
    exact alternatives_congr h v
  | _ => cases h

theorem hasSame_alternatives_merge {a b r : Value} (h : merge a b = .ok r) (v : Value) :
    hasSame r.alternatives v = (hasSame a.alternatives v || hasSame b.alternatives v) := by
  have step := merge_case a b
  rw [h] at step
  generalize hm : (Except.ok r : Except Fault Value) = m at step
  cases step with
  | same hab =>
    cases hm
    rw [← alternatives_congr hab, Bool.or_self]
  | nothingLeft =>
    cases hm
    exact (Bool.false_or _).symm
  | nothingRight =>
    cases hm
    exact (Bool.or_false _).symm
  | absorbs hba =>
    cases hm
    rw [alternatives_of_isWrappedBy hba, Bool.or_self]
  | absorbed hab =>
    cases hm
    rw [alternatives_of_isWrappedBy hab, Bool.or_self]
  | vars hxy hvw =>
    cases hm
    rw [alternatives_boundTo, alternatives_var, alternatives_var, ← alternatives_congr hvw,
      Bool.or_self]
  | varDependent hvw =>
    cases hm
    rw [alternatives_boundTo, alternatives_var, alternatives_dependent, ← alternatives_congr hvw,
      Bool.or_self]
  | dependentVar hvw =>
    cases hm
    rw [alternatives_boundTo, alternatives_var, alternatives_dependent, ← alternatives_congr hvw,
      Bool.or_self]
  | dependents hvw =>
    cases hm
    rw [alternatives_dependingOn, alternatives_dependent, alternatives_dependent,
      ← alternatives_congr hvw, Bool.or_self]
  | joined hab ha hb =>
    rw [hasSame_alternatives_join hm.symm]
    simp
  | joinedBack hab ha hb =>
    rw [hasSame_alternatives_join hm.symm, Bool.or_comm]
    simp

/-- Merging neither loses nor invents an alternative. -/
theorem alternatives_merge {a b r : Value} (h : merge a b = .ok r) :
    sameSet r.alternatives (union a.alternatives b.alternatives) = true := by
  rw [sameSet_iff]
  intro v
  rw [hasSame_alternatives_merge h, hasSame_union]

/-- A variable and a value computed from it are joined; both wrappers are looked through. -/
theorem alternatives_merge_wrapped :
    let x : Value := .var (.decl ⟨0, "x", .block⟩) (.int 1) [] none
    let y : Value := .dependent (.int 2) [x]
    ∃ r, merge x y = .ok r ∧
      sameSet r.alternatives (union x.alternatives y.alternatives) = true ∧
      r.alternatives = [.int 1, .int 2] := by
  dsimp only
  exact ⟨_, rfl, alternatives_merge rfl, rfl⟩

end ValueFlow.Value
