import ValueFlow.Proofs.MergeLaws

/-!
# Merging respects sameness

Merging tests its arguments in many ways, and all of them respect sameness. So it takes the same
case for arguments that are the same one by one, and for a relation between values that is finer
than sameness and kept by the constructors, the results are related again.

* `Value.Congruence`: what such a relation has to satisfy.
* `Congruence.merge`: merging related values gives related values, or fails alike.
* `Congruence.merge_get?`: merging states with related bindings gives related bindings.
-/

namespace ValueFlow

/-- Both computations give related results, or both leave a phi with too few members. -/
def AlikeBy {α : Type} (R : α → α → Prop) : Except Fault α → Except Fault α → Prop
  | .ok a, .ok b => R a b
  | .error e, .error f => e = .phiArity ∧ f = .phiArity
  | _, _ => False

namespace Value

theorem isVar_congr {v w : Value} (h : v.same w = true) : v.isVar = w.isVar := by
  cases v with
  | var x v D s =>
    cases w with
    | var y w E t => rfl
    | _ => cases h
  | _ =>
    cases w with
    | var y w E t => cases h
    | _ => rfl

theorem isWrappedBy_congr {a a' b b' : Value} (ha : a.same a' = true) (hb : b.same b' = true) :
    a.isWrappedBy b = a'.isWrappedBy b' := by
  cases b with
  | dependent v D =>
    cases b' with
    | dependent w E =>
      rw [same_dependent, Bool.and_eq_true] at hb
      simp only [isWrappedBy, equals_eq_same]
      rw [same_congr_left ha, same_congr_right hb.1]
    | _ => cases hb
  | var x v D s =>
    cases b' with
    | var y w E t =>
      rw [same_var, Bool.and_eq_true, Bool.and_eq_true] at hb
      simp only [isWrappedBy, equals_eq_same]
      rw [same_congr_left ha, same_congr_right hb.1.2]
    | _ => cases hb
  | _ =>
    cases b' with
    | dependent w E => cases hb
    | var y w E t => cases hb
    | _ => rfl

theorem core_congr {v w : Value} (h : v.same w = true) : v.core.same w.core = true := by
  induction v using Value.induction generalizing w with
  | dependent v D ihv =>
    cases w with
    | dependent w E =>
      rw [same_dependent, Bool.and_eq_true] at h
      exact ihv (w := w) h.1
    | _ => cases h
  | var x v D s ihv =>
    cases w with
    | var y w E t =>
      rw [same_var, Bool.and_eq_true, Bool.and_eq_true] at h
      exact ihv (w := w) h.1.2
    | _ => cases h
  | _ =>
    cases w with
    | dependent w E => cases h
    | var y w E t => cases h
    | _ => exact h

theorem provenance_congr {v w : Value} (h : v.same w = true) :
    sameSet v.provenance w.provenance = true := by
  cases v with
  | dependent v D =>
    cases w with
    | dependent w E =>
      rw [same_dependent, Bool.and_eq_true] at h
      exact h.2
    | _ => cases h
  | var x v D s =>
    cases w with
    | var y w E t =>
      have deps := h
      rw [same_var, Bool.and_eq_true] at deps
      refine union_congr deps.2 (sameSet_iff.mpr fun u => ?_)
      simp only [hasSame, Bool.or_false]
      exact same_congr_left h u
    | _ => cases h
  | _ =>
    cases w with
    | dependent w E => cases h
    | var y w E t => cases h
    | _ => rfl

theorem flatten_of_not_isPhi {v : Value} (h : v.isPhi = false) : flatten [v] = [v] := by
  cases v with
  | phi M => cases h
  | _ => rfl

theorem hasSame_flatten_congr {a a' : Value} (h : a.same a' = true) (v : Value) :
    hasSame (flatten [a]) v = hasSame (flatten [a']) v := by
  cases a with
  | phi M =>
    cases a' with
    | phi N =>
      rw [same_phi, sameSet_iff] at h
      simpa [flatten] using h v
    | _ => cases h
  | _ =>
    have other : a'.isPhi = false := by
      cases a' with
      | phi N => cases h
      | _ => rfl
    rw [flatten_of_not_isPhi rfl, flatten_of_not_isPhi other, hasSame, hasSame,
      same_congr_left h]
    rfl

theorem contains_congr {R : Value → Value → Prop} {s t : State} {x : Symbol}
    (h : Option.Rel R (s.get? x) (t.get? x)) : s.contains x = t.contains x := by
  unfold State.contains
  generalize s.get? x = v at h ⊢
  generalize t.get? x = w at h ⊢
  cases h with
  | some hvw => rfl
  | none => rfl

/-- A relation that is finer than sameness and kept by the constructors, whatever the source of a
binding. -/
structure Congruence (R : Value → Value → Prop) : Prop where
  same {v w : Value} : R v w → v.same w = true
  undetermined : R .undetermined .undetermined
  ofDependent {v w : Value} {D E : List Value} : R (.dependent v D) (.dependent w E) → R v w
  ofVar {x y : Symbol} {v w : Value} {D E : List Value} {s t : Option Expr} :
    R (.var x v D s) (.var y w E t) → R v w
  phi {M N : List Value} : sameSet M N = true → R (.phi M) (.phi N)
  dependingOn {v w : Value} {D E : List Value} : R v w → sameSet D E = true →
    R (v.dependingOn D) (w.dependingOn E)
  boundTo {x y : Symbol} {v w : Value} {D E : List Value} (s t : Option Expr) : x.same y = true →
    R v w → sameSet D E = true → R (v.boundTo x D s) (w.boundTo y E t)

namespace Congruence

variable {R : Value → Value → Prop} (hR : Congruence R) {a a' b b' v w : Value}

include hR

theorem join (ha : R a a') (hb : R b b') : AlikeBy R (join [a, b]) (join [a', b']) := by
  have members : ∀ v, hasSame (flatten [a, b]) v = hasSame (flatten [a', b']) v := by
    intro v
    have left : flatten [a, b] = flatten [a] ++ flatten [b] := flatten_append [a] [b]
    have right : flatten [a', b'] = flatten [a'] ++ flatten [b'] := flatten_append [a'] [b']
    rw [left, right, hasSame_append, hasSame_append, hasSame_flatten_congr (hR.same ha),
      hasSame_flatten_congr (hR.same hb)]
  have alike := join_congr members
  cases h : Value.join [a, b] with
  | ok r =>
    cases h' : Value.join [a', b'] with
    | ok r' =>
      rw [h, h'] at alike
      rw [(join_eq_ok h).2, (join_eq_ok h').2] at alike ⊢
      exact hR.phi alike
    | error e =>
      rw [h, h'] at alike
      exact alike.elim
  | error e =>
    cases h' : Value.join [a', b'] with
    | ok r' =>
      rw [h, h'] at alike
      exact alike.elim
    | error e' =>
      rw [h, h'] at alike
      exact alike

theorem mergeVar {x y : Symbol} {D E : List Value} {s t : Option Expr}
    (ha : R (.var x v D s) (.var y w E t)) (hb : R b b') :
    AlikeBy R (mergeVar x v D s b) (mergeVar y w E t b') := by
  have joined := hR.join ha hb
  have parts := hR.same ha
  rw [same_var, Bool.and_eq_true, Bool.and_eq_true] at parts
  obtain ⟨⟨hxy, hvw⟩, hDE⟩ := parts
  have other := hR.same hb
  cases b with
  | var z u F r =>
    cases b' with
    | var z' u' F' r' =>
      rw [same_var, Bool.and_eq_true, Bool.and_eq_true] at other
      obtain ⟨⟨hz, hu⟩, hF⟩ := other
      have symbols : x.same z = y.same z' := by
        rw [Symbol.same_congr hz, Symbol.same_comm, Symbol.same_congr hxy, Symbol.same_comm]
      have test : (x.same z && v.same u) = (y.same z' && w.same u') := by
        rw [symbols, same_congr_left hvw, same_congr_right hu]
      simp only [Value.mergeVar, equals_eq_same, test]
      split
      · exact hR.boundTo s t hxy (hR.ofVar ha) (union_congr hDE hF)
      · exact joined
    | _ => cases other
  | dependent u F =>
    cases b' with
    | dependent u' F' =>
      rw [same_dependent, Bool.and_eq_true] at other
      have test : v.same u = w.same u' :=
        (same_congr_left hvw u).trans (same_congr_right other.1 w)
      simp only [Value.mergeVar, equals_eq_same, test]
      split
      · exact hR.boundTo s t hxy (hR.ofVar ha) (union_congr hDE other.2)
      · exact joined
    | _ => cases other
  | _ =>
    cases b' with
    | var z' u' F' r' => cases other
    | dependent u' F' => cases other
    | _ => exact joined

theorem mergeDependent {D E : List Value} (ha : R (.dependent v D) (.dependent w E))
    (hb : R b b') : AlikeBy R (mergeDependent v D b) (mergeDependent w E b') := by
  have joined := hR.join ha hb
  have parts := hR.same ha
  rw [same_dependent, Bool.and_eq_true] at parts
  have other := hR.same hb
  cases b with
  | dependent u F =>
    cases b' with
    | dependent u' F' =>
      rw [same_dependent, Bool.and_eq_true] at other
      have test : v.same u = w.same u' :=
        (same_congr_left parts.1 u).trans (same_congr_right other.1 w)
      simp only [Value.mergeDependent, equals_eq_same, test]
      split
      · exact hR.dependingOn (hR.ofDependent ha) (union_congr parts.2 other.2)
      · exact joined
    | _ => cases other
  | _ =>
    cases b' with
    | dependent u' F' => cases other
    | _ => exact joined

theorem unite (ha : R a a') (hb : R b b') : AlikeBy R (unite a b) (unite a' b') := by
  have first := hR.same ha
  have second := hR.same hb
  cases a with
  | var x v D s =>
    cases a' with
    | var y w E t =>
      rw [unite_var_left, unite_var_left]
      exact hR.mergeVar ha hb
    | _ => cases first
  | dependent v D =>
    cases a' with
    | dependent w E =>
      cases b with
      | var z u F r =>
        cases b' with
        | var z' u' F' r' => exact hR.mergeVar hb ha
        | _ => cases second
      | _ =>
        have other : b'.isVar = false := (isVar_congr second).symm
        rw [unite_dependent_left rfl, unite_dependent_left other]
        exact hR.mergeDependent ha hb
    | _ => cases first
  | _ =>
    have bare : a'.isDependent = false := (isDependent_congr first).symm
    have notVar : a'.isVar = false := (isVar_congr first).symm
    cases b with
    | var z u F r =>
      cases b' with
      | var z' u' F' r' =>
        rw [unite_var_right rfl, unite_var_right notVar]
        exact hR.mergeVar hb ha
      | _ => cases second
    | dependent u F =>
      cases b' with
      | dependent u' F' =>
        rw [unite_dependent_right rfl, unite_dependent_right bare]
        exact hR.mergeDependent hb ha
      | _ => cases second
    | _ =>
      rw [unite_bare rfl rfl, unite_bare bare (isDependent_congr second).symm]
      exact hR.join ha hb

theorem merge (ha : R a a') (hb : R b b') : AlikeBy R (merge a b) (merge a' b') := by
  have first := hR.same ha
  have second := hR.same hb
  have equal : a.same b = a'.same b' :=
    (same_congr_left first b).trans (same_congr_right second a')
  rw [merge_eq, merge_eq, equal, isNothing_congr first, isNothing_congr second,
    isWrappedBy_congr second first, isWrappedBy_congr first second]
  split
  · exact ha
  split
  · exact hb
  split
  · exact ha
  split
  · exact ha
  split
  · exact hb
  · exact hR.unite ha hb

theorem lookup {s t : State} {x : Symbol} (h : Option.Rel R (s.get? x) (t.get? x)) :
    R (s.lookup x) (t.lookup x) := by
  unfold State.lookup
  generalize s.get? x = v at h ⊢
  generalize t.get? x = w at h ⊢
  cases h with
  | some hvw => exact hvw
  | none => exact hR.undetermined

/-- Where the bindings of a symbol are related on both paths, so are they after the paths meet. -/
theorem merge_get? {s s' t t' r r' : State} {x : Symbol} (hs : Option.Rel R (s.get? x) (s'.get? x))
    (ht : Option.Rel R (t.get? x) (t'.get? x)) (hr : s.merge t = .ok r)
    (hr' : s'.merge t' = .ok r') : Option.Rel R (r.get? x) (r'.get? x) := by
  have values := hR.merge (hR.lookup hs) (hR.lookup ht)
  rw [State.merge_lookup hr x, State.merge_lookup hr' x] at values
  have keys : r.contains x = r'.contains x := by
    rw [State.merge_contains hr, State.merge_contains hr', contains_congr hs, contains_congr ht]
  cases bound : r.contains x with
  | true =>
    rw [State.get?_eq_some_lookup bound, State.get?_eq_some_lookup (keys ▸ bound)]
    exact .some values
  | false =>
    rw [State.get?_eq_none bound, State.get?_eq_none (keys ▸ bound)]
    exact .none

end Congruence

end Value

end ValueFlow
