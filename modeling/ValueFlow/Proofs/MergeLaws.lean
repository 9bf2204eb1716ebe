import ValueFlow.Proofs.Congruence
import ValueFlow.State

/-!
# The laws of merging

Merging is a cascade of tests that are not symmetric one by one. Up to sameness its result does not
depend on the order of its arguments, for values, for states and for outcomes alike, and merging a
thing with itself changes nothing. Nothing is assumed of the values: they may be out of shape.

* `merge_eq`: the tests in order, and what is left to unite.
* `layers_of_isWrappedBy`: two values do not wrap each other.
* `Value.merge_comm`, `State.merge_comm`, `Outcome.merge_comm`: merging is symmetric.
* `State.merge_lookup`: states are merged symbol by symbol.
-/

namespace ValueFlow

namespace Value

/-- What is done with two values of which neither is absorbed. -/
def unite (a b : Value) : Except Fault Value :=
  match a, b with
  | .var x v D s, b => mergeVar x v D s b
  | a, .var x v D s => mergeVar x v D s a
  | .dependent v D, b => mergeDependent v D b
  | a, .dependent v D => mergeDependent v D a
  | a, b => join [a, b]

theorem merge_eq (a b : Value) :
    merge a b =
      if a.same b then .ok a
      else if a.isNothing then .ok b
      else if b.isNothing then .ok a
      else if b.isWrappedBy a then .ok a
      else if a.isWrappedBy b then .ok b
      else unite a b := by
  simp only [merge, equals_eq_same]
  rfl

/-- How many layers of provenance are around the core of a value. -/
def layers : Value → Nat
  | .dependent v _ => v.layers + 1
  | .var _ v _ _ => v.layers + 1
  | _ => 0

theorem layers_congr {v w : Value} (h : v.same w = true) : v.layers = w.layers := by
  induction v using Value.induction generalizing w with
  | dependent v D ihv =>
    cases w with
    | dependent w E =>
      simp only [same_dependent, Bool.and_eq_true] at h
      rw [layers, layers, ihv h.1]
    | _ => cases h
  | var x v D s ihv =>
    cases w with
    | var y w E t =>
      simp only [same_var, Bool.and_eq_true] at h
      rw [layers, layers, ihv h.1.2]
    | _ => cases h
  | _ =>
    cases w with
    | dependent w E => cases h
    | var y w E t => cases h
    | _ => rfl

theorem layers_of_isWrappedBy {v w : Value} (h : w.isWrappedBy v = true) :
    v.layers = w.layers + 1 := by
  cases v with
  | dependent v D =>
    rw [isWrappedBy, equals_eq_same] at h
    rw [layers, layers_congr h]
  | var x v D s =>
    rw [isWrappedBy, equals_eq_same] at h
    rw [layers, layers_congr h]
  | _ => cases h

theorem flatten_append (vs ws : List Value) : flatten (vs ++ ws) = flatten vs ++ flatten ws :=
  List.flatMap_append

theorem join_pair_comm (a b : Value) : Alike same (join [a, b]) (join [b, a]) := by
  apply join_congr
  intro v
  have hab : flatten [a, b] = flatten [a] ++ flatten [b] := flatten_append [a] [b]
  have hba : flatten [b, a] = flatten [b] ++ flatten [a] := flatten_append [b] [a]
  rw [hab, hba, hasSame_append, hasSame_append, Bool.or_comm]

theorem alike_join_self (vs : List Value) : Alike same (join vs) (join vs) :=
  join_congr fun _ => rfl

theorem sameSet_union_comm (D E : List Value) : sameSet (union D E) (union E D) = true := by
  rw [sameSet_iff]
  intro v
  rw [hasSame_union, hasSame_union, Bool.or_comm]

theorem mergeVar_comm (x y : Symbol) (v w : Value) (D E : List Value) (s t : Option Expr) :
    Alike same (mergeVar x v D s (.var y w E t)) (mergeVar y w E t (.var x v D s)) := by
  simp only [mergeVar, equals_eq_same]
  rw [Symbol.same_comm y x, same_comm w v]
  split
  · rename_i h
    obtain ⟨hxy, hvw⟩ := (Bool.and_eq_true _ _).mp h
    exact boundTo_congr hxy hvw (sameSet_union_comm D E) s t
  · exact join_pair_comm _ _

theorem alike_mergeVar_self (x : Symbol) (v : Value) (D : List Value) (s : Option Expr)
    (other : Value) : Alike same (mergeVar x v D s other) (mergeVar x v D s other) := by
  unfold mergeVar
  split
  · split
    · exact same_refl _
    · exact alike_join_self _
  · split
    · exact same_refl _
    · exact alike_join_self _
  · exact alike_join_self _

theorem mergeDependent_comm (v w : Value) (D E : List Value) :
    Alike same (mergeDependent v D (.dependent w E)) (mergeDependent w E (.dependent v D)) := by
  simp only [mergeDependent, equals_eq_same]
  rw [same_comm w v]
  split
  · rename_i hvw
    exact dependingOn_congr hvw (sameSet_union_comm D E)
  · exact join_pair_comm _ _

theorem alike_mergeDependent_self (v : Value) (D : List Value) (other : Value) :
    Alike same (mergeDependent v D other) (mergeDependent v D other) := by
  unfold mergeDependent
  split
  · split
    · exact same_refl _
    · exact alike_join_self _
  · exact alike_join_self _

theorem unite_var_left (x : Symbol) (v : Value) (D : List Value) (s : Option Expr) (b : Value) :
    unite (.var x v D s) b = mergeVar x v D s b := by
  cases b <;> rfl

theorem unite_var_right {a : Value} (ha : a.isVar = false) (x : Symbol) (v : Value)
    (D : List Value) (s : Option Expr) : unite a (.var x v D s) = mergeVar x v D s a := by
  cases a with
  | var y w E t => cases ha
  | _ => rfl

theorem unite_dependent_left {b : Value} (hb : b.isVar = false) (v : Value) (D : List Value) :
    unite (.dependent v D) b = mergeDependent v D b := by
  cases b with
  | var y w E t => cases hb
  | _ => rfl

theorem unite_dependent_right {a : Value} (ha : a.isDependent = false) (v : Value)
    (D : List Value) : unite a (.dependent v D) = mergeDependent v D a := by
  cases a with
  | var y w E t => cases ha
  | dependent w E => cases ha
  | _ => rfl

theorem unite_bare {a b : Value} (ha : a.isDependent = false) (hb : b.isDependent = false) :
    unite a b = join [a, b] := by
  cases a with
  | var y w E t => cases ha
  | dependent w E => cases ha
  | _ =>
    cases b with
    | var y w E t => cases hb
    | dependent w E => cases hb
    | _ => rfl

theorem unite_comm (a b : Value) : Alike same (unite a b) (unite b a) := by
  by_cases bare : a.isDependent = false ∧ b.isDependent = false
  · rw [unite_bare bare.1 bare.2, unite_bare bare.2 bare.1]
    exact join_pair_comm a b
  cases a with
  | var x v D s =>
    cases b with
    | var y w E t => exact mergeVar_comm x y v w D E s t
    | _ =>
      rw [unite_var_left, unite_var_right rfl]
      exact alike_mergeVar_self x v D s _
  | dependent v D =>
    cases b with
    | var y w E t =>
      rw [unite_var_left, unite_var_right rfl]
      exact alike_mergeVar_self y w E t _
    | dependent w E => exact mergeDependent_comm v w D E
    | _ =>
      rw [unite_dependent_left rfl, unite_dependent_right rfl]
      exact alike_mergeDependent_self v D _
  | _ =>
    cases b with
    | var y w E t =>
      rw [unite_var_left, unite_var_right rfl]
      exact alike_mergeVar_self y w E t _
    | dependent w E =>
      rw [unite_dependent_left rfl, unite_dependent_right rfl]
      exact alike_mergeDependent_self w E _
    | _ => exact absurd ⟨rfl, rfl⟩ bare

theorem eq_nothing_of_isNothing {v : Value} (h : v.isNothing = true) : v = .nothing := by
  cases v with
  | nothing => rfl
  | _ => cases h

theorem merge_of_same {a b : Value} (h : a.same b = true) : merge a b = .ok a := by
  rw [merge_eq, if_pos h]

theorem merge_self (a : Value) : merge a a = .ok a := merge_of_same (same_refl a)

theorem nothing_merge (a : Value) : merge .nothing a = .ok a := by
  rw [merge_eq]
  split
  · rename_i h
    cases a with
    | nothing => rfl
    | _ => cases h
  · rfl

theorem merge_nothing (a : Value) : merge a .nothing = .ok a := by
  rw [merge_eq]
  split
  · rfl
  · split
    · rename_i h
      rw [eq_nothing_of_isNothing h]
    · rfl

theorem merge_comm (a b : Value) : Alike same (merge a b) (merge b a) := by
  by_cases hab : a.same b = true
  · rw [merge_of_same hab, merge_of_same (same_comm a b ▸ hab)]
    exact hab
  by_cases ha : a.isNothing = true
  · rw [eq_nothing_of_isNothing ha, nothing_merge, merge_nothing]
    exact same_refl b
  by_cases hb : b.isNothing = true
  · rw [eq_nothing_of_isNothing hb, nothing_merge, merge_nothing]
    exact same_refl a
  have hba : ¬ b.same a = true := same_comm a b ▸ hab
  rw [merge_eq, merge_eq, if_neg hab, if_neg hba, if_neg ha, if_neg hb, if_neg hb, if_neg ha]
  by_cases outer : b.isWrappedBy a = true
  · -- if `b` wrapped `a` too, each would have more layers than the other
    have inner : ¬ a.isWrappedBy b = true := by
      intro h
      have h1 := layers_of_isWrappedBy outer
      have h2 := layers_of_isWrappedBy h
      omega
    rw [if_pos outer, if_neg inner, if_pos outer]
    exact same_refl a
  · rw [if_neg outer, if_neg outer]
    by_cases inner : a.isWrappedBy b = true
    · rw [if_pos inner, if_pos inner]
      exact same_refl b
    · rw [if_neg inner, if_neg inner]
      exact unite_comm a b

/-- The ways in which two values are merged. -/
inductive MergeCase : Value → Value → Except Fault Value → Prop
  | same {a b : Value} (hab : a.same b = true) : MergeCase a b (.ok a)
  | nothingLeft {b : Value} : MergeCase .nothing b (.ok b)
  | nothingRight {a : Value} : MergeCase a .nothing (.ok a)
  | absorbs {a b : Value} (hba : b.isWrappedBy a = true) : MergeCase a b (.ok a)
  | absorbed {a b : Value} (hab : a.isWrappedBy b = true) : MergeCase a b (.ok b)
  | vars {x y : Symbol} {v w : Value} {D E : List Value} {s t : Option Expr}
      (hxy : x.same y = true) (hvw : v.same w = true) :
      MergeCase (.var x v D s) (.var y w E t) (.ok (v.boundTo x (union D E) s))
  | varDependent {x : Symbol} {v w : Value} {D E : List Value} {s : Option Expr}
      (hvw : v.same w = true) :
      MergeCase (.var x v D s) (.dependent w E) (.ok (v.boundTo x (union D E) s))
  | dependentVar {x : Symbol} {v w : Value} {D E : List Value} {s : Option Expr}
      (hvw : v.same w = true) :
      MergeCase (.dependent w E) (.var x v D s) (.ok (v.boundTo x (union D E) s))
  | dependents {v w : Value} {D E : List Value} (hvw : v.same w = true) :
      MergeCase (.dependent v D) (.dependent w E) (.ok (v.dependingOn (union D E)))
  | joined {a b : Value} (hab : a.same b = false) (ha : a.isNothing = false)
      (hb : b.isNothing = false) : MergeCase a b (join [a, b])
  | joinedBack {a b : Value} (hab : a.same b = false) (ha : a.isNothing = false)
      (hb : b.isNothing = false) : MergeCase a b (join [b, a])

theorem unite_case {a b : Value} (hab : a.same b = false) (ha : a.isNothing = false)
    (hb : b.isNothing = false) : MergeCase a b (unite a b) := by
  by_cases bare : a.isDependent = false ∧ b.isDependent = false
  · rw [unite_bare bare.1 bare.2]
    exact .joined hab ha hb
  cases a with
  | var x v D s =>
    rw [unite_var_left]
    cases b with
    | var y w E t =>
      simp only [mergeVar, equals_eq_same]
      split
      · rename_i h
        obtain ⟨hxy, hvw⟩ := (Bool.and_eq_true _ _).mp h
        exact .vars hxy hvw
      · exact .joined hab ha hb
    | dependent w E =>
      simp only [mergeVar, equals_eq_same]
      split
      · exact .varDependent ‹_›
      · exact .joined hab ha hb
    | _ => exact .joined hab ha hb
  | dependent v D =>
    cases b with
    | var y w E t =>
      rw [unite_var_right rfl]
      simp only [mergeVar, equals_eq_same]
      split
      · exact .dependentVar ‹_›
      · exact .joinedBack hab ha hb
    | dependent w E =>
      rw [unite_dependent_left rfl]
      simp only [mergeDependent, equals_eq_same]
      split
      · exact .dependents ‹_›
      · exact .joined hab ha hb
    | _ => exact .joined hab ha hb
  | _ =>
    cases b with
    | var y w E t => exact .joinedBack hab ha hb
    | dependent w E => exact .joinedBack hab ha hb
    | _ => exact absurd ⟨rfl, rfl⟩ bare

theorem merge_case (a b : Value) : MergeCase a b (merge a b) := by
  rw [merge_eq]
  split
  · exact .same ‹_›
  split
  · rename_i ha
    rw [eq_nothing_of_isNothing ha]
    exact .nothingLeft
  split
  · rename_i hb
    rw [eq_nothing_of_isNothing hb]
    exact .nothingRight
  split
  · exact .absorbs ‹_›
  split
  · exact .absorbed ‹_›
  · rename_i hab ha hb _ _
    exact unite_case (Bool.eq_false_iff.mpr hab) (Bool.eq_false_iff.mpr ha)
      (Bool.eq_false_iff.mpr hb)

theorem merge_error {a b : Value} {f : Fault} (h : merge a b = .error f) : f = .phiArity := by
  have alike := merge_comm a b
  rw [h] at alike
  cases hba : merge b a with
  | ok v =>
    rw [hba] at alike
    exact alike.elim
  | error g =>
    rw [hba] at alike
    exact alike.1

/-- A merge that succeeds does so in the other order, with the same value. -/
theorem merge_ok_comm {a b v : Value} (h : merge a b = .ok v) :
    ∃ w, merge b a = .ok w ∧ v.same w = true := by
  have alike := merge_comm a b
  rw [h] at alike
  cases hba : merge b a with
  | ok w =>
    rw [hba] at alike
    exact ⟨w, rfl, alike⟩
  | error g =>
    rw [hba] at alike
    exact alike.elim

end Value

theorem Bindings.get?_congr {x y : Symbol} (h : x.same y = true) (bs : List (Symbol × Value)) :
    get? x bs = get? y bs := by
  induction bs with
  | nil => rfl
  | cons b rest ih =>
    obtain ⟨z, v⟩ := b
    rw [get?, get?, Symbol.same_congr h, ih]

theorem Bindings.get?_isSome (x : Symbol) (bs : List (Symbol × Value)) :
    (get? x bs).isSome = true ↔ ∃ k ∈ bs.map Prod.fst, k.same x = true := by
  induction bs with
  | nil => simp [get?]
  | cons b rest ih =>
    obtain ⟨z, v⟩ := b
    cases hz : z.same x with
    | true => simp [get?, hz]
    | false => simp [get?, hz, ih]

namespace State

theorem get?_congr {x y : Symbol} (h : x.same y = true) (s : State) : s.get? x = s.get? y :=
  Bindings.get?_congr h s.bindings

theorem lookup_congr {x y : Symbol} (h : x.same y = true) (s : State) :
    s.lookup x = s.lookup y := by
  rw [lookup, lookup, get?_congr h]

theorem contains_iff (s : State) (x : Symbol) :
    s.contains x = true ↔ ∃ k ∈ s.keys, k.same x = true :=
  Bindings.get?_isSome x s.bindings

theorem lookup_assign (s : State) (x y : Symbol) (v : Value) (source : Option Expr) :
    (s.assign x v source).lookup y =
      if x.same y then v.boundTo x [] source else s.lookup y := by
  rw [lookup, assign, get?_set]
  split <;> rfl

theorem lookup_of_get? {s : State} {x : Symbol} {v : Value} (h : s.get? x = some v) :
    s.lookup x = v := by
  rw [lookup, h, Option.getD_some]

theorem lookup_of_not_contains {s : State} {x : Symbol} (h : s.contains x = false) :
    s.lookup x = .undetermined := by
  rw [contains, Option.isSome_eq_false_iff, Option.isNone_iff_eq_none] at h
  rw [lookup, h, Option.getD_none]

/-- The joint keys are those of either state. -/
theorem joinKeys_iff (s t : State) (x : Symbol) :
    (∃ k ∈ joinKeys s t, k.same x = true) ↔ (s.contains x || t.contains x) = true := by
  rw [Bool.or_eq_true]
  constructor
  · rintro ⟨k, hk, hkx⟩
    rcases List.mem_append.mp hk with hs | ht
    · exact Or.inl ((contains_iff s x).mpr ⟨k, hs, hkx⟩)
    · exact Or.inr ((contains_iff t x).mpr ⟨k, (List.mem_filter.mp ht).1, hkx⟩)
  · intro h
    by_cases hs : s.contains x = true
    · obtain ⟨k, hk, hkx⟩ := (contains_iff s x).mp hs
      exact ⟨k, List.mem_append_left _ hk, hkx⟩
    · obtain ⟨k, hk, hkx⟩ := (contains_iff t x).mp (h.resolve_left hs)
      refine ⟨k, List.mem_append_right _ (List.mem_filter.mpr ⟨hk, ?_⟩), hkx⟩
      rw [contains, get?_congr hkx, ← contains]
      simpa using hs

theorem mergeOn_ok {s t : State} {ks : List Symbol} {r : State} (h : mergeOn s t ks = .ok r)
    (x : Symbol) :
    r.contains x = ks.any (·.same x) ∧
      (r.contains x = true → (s.lookup x).merge (t.lookup x) = .ok (r.lookup x)) := by
  induction ks generalizing r with
  | nil =>
    cases h
    exact ⟨rfl, fun bound => absurd bound Bool.false_ne_true⟩
  | cons k ks ih =>
    rw [mergeOn] at h
    cases hv : (s.lookup k).merge (t.lookup k) with
    | error f =>
      rw [hv] at h
      cases h
    | ok v =>
      cases hrest : mergeOn s t ks with
      | error f =>
        rw [hv, hrest] at h
        cases h
      | ok rest =>
        rw [hv, hrest] at h
        cases h
        obtain ⟨keys, values⟩ := ih hrest
        cases hkx : k.same x with
        | true =>
          have got : (rest.set k v).get? x = some v := by rw [get?_set, hkx, if_pos rfl]
          constructor
          · simp [contains, got, hkx]
          · intro _
            rw [lookup_of_get? got, ← lookup_congr hkx, ← lookup_congr hkx, hv]
        | false =>
          have got : (rest.set k v).get? x = rest.get? x := by
            rw [get?_set, hkx, if_neg Bool.false_ne_true]
          have read : (rest.set k v).lookup x = rest.lookup x := by rw [lookup, lookup, got]
          constructor
          · rw [contains, got, ← contains, keys, List.any_cons, hkx, Bool.false_or]
          · intro bound
            rw [contains, got, ← contains] at bound
            rw [read]
            exact values bound

theorem mergeOn_error {s t : State} {ks : List Symbol} {f : Fault}
    (h : mergeOn s t ks = .error f) :
    ∃ k ∈ ks, (s.lookup k).merge (t.lookup k) = .error f := by
  induction ks with
  | nil => cases h
  | cons k ks ih =>
    rw [mergeOn] at h
    cases hv : (s.lookup k).merge (t.lookup k) with
    | error g =>
      rw [hv] at h
      cases h
      exact ⟨k, List.mem_cons_self, hv⟩
    | ok v =>
      cases hrest : mergeOn s t ks with
      | ok rest =>
        rw [hv, hrest] at h
        cases h
      | error g =>
        rw [hv, hrest] at h
        cases h
        obtain ⟨l, hl, hlv⟩ := ih hrest
        exact ⟨l, List.mem_cons_of_mem k hl, hlv⟩

theorem merge_contains {s t r : State} (h : s.merge t = .ok r) (x : Symbol) :
    r.contains x = (s.contains x || t.contains x) := by
  rw [(mergeOn_ok h x).1, Bool.eq_iff_iff, List.any_eq_true, joinKeys_iff]

/-- The merged state has the merged values. What neither state binds stays `undetermined`. -/
theorem merge_lookup {s t r : State} (h : s.merge t = .ok r) (x : Symbol) :
    (s.lookup x).merge (t.lookup x) = .ok (r.lookup x) := by
  cases bound : r.contains x with
  | true => exact (mergeOn_ok h x).2 bound
  | false =>
    obtain ⟨hs, ht⟩ := Bool.or_eq_false_iff.mp (merge_contains h x ▸ bound)
    rw [lookup_of_not_contains bound, lookup_of_not_contains hs, lookup_of_not_contains ht]
    exact Value.merge_self .undetermined

/-- States have a merge when the values of every symbol have one. -/
theorem merge_ok_iff (s t : State) :
    (∃ r, s.merge t = .ok r) ↔ ∀ x, ∃ v, (s.lookup x).merge (t.lookup x) = .ok v := by
  constructor
  · rintro ⟨r, h⟩ x
    exact ⟨r.lookup x, merge_lookup h x⟩
  · intro h
    cases hst : s.merge t with
    | ok r => exact ⟨r, rfl⟩
    | error f =>
      obtain ⟨k, _, hk⟩ := mergeOn_error hst
      obtain ⟨v, hv⟩ := h k
      rw [hv] at hk
      cases hk

theorem merge_error {s t : State} {f : Fault} (h : s.merge t = .error f) : f = .phiArity := by
  obtain ⟨k, _, hk⟩ := mergeOn_error h
  exact Value.merge_error hk

theorem same_iff (s t : State) :
    s.same t = true ↔ ∀ x, sameValue? (s.get? x) (t.get? x) = true := by
  rw [same, List.all_eq_true]
  constructor
  · intro h x
    by_cases bound : (s.contains x || t.contains x) = true
    · obtain ⟨k, hk, hkx⟩ := (joinKeys_iff s t x).mpr bound
      rw [← get?_congr hkx, ← get?_congr hkx]
      exact h k hk
    · simp only [contains, Bool.or_eq_true, not_or, Option.not_isSome_iff_eq_none] at bound
      rw [bound.1, bound.2]
      rfl
  · intro h k _
    exact h k

theorem sameValue?_refl (v : Option Value) : sameValue? v v = true := by
  cases v with
  | none => rfl
  | some v => rw [sameValue?, Value.equals_eq_same, Value.same_refl]

theorem same_refl (s : State) : s.same s = true :=
  (same_iff s s).mpr fun x => sameValue?_refl (s.get? x)

theorem get?_eq_some_lookup {s : State} {x : Symbol} (h : s.contains x = true) :
    s.get? x = some (s.lookup x) := by
  obtain ⟨v, hv⟩ := Option.isSome_iff_exists.mp h
  rw [hv, lookup_of_get? hv]

/-- States that bind the same symbols are the same if all they look up is. -/
theorem get?_eq_none {s : State} {x : Symbol} (h : s.contains x = false) : s.get? x = none :=
  Option.isSome_eq_false_iff.mp h |> Option.isNone_iff_eq_none.mp

theorem same_of_lookup {s t : State} (keys : ∀ x, s.contains x = t.contains x)
    (values : ∀ x, s.contains x = true → (s.lookup x).same (t.lookup x) = true) :
    s.same t = true := by
  rw [same_iff]
  intro x
  cases bound : s.contains x with
  | true =>
    rw [get?_eq_some_lookup bound, get?_eq_some_lookup (keys x ▸ bound), sameValue?,
      Value.equals_eq_same]
    exact values x bound
  | false =>
    have hs : s.get? x = none := by simpa [contains] using bound
    have ht : t.get? x = none := by simpa [contains] using (keys x).symm.trans bound
    rw [hs, ht]
    rfl

theorem merge_self (s : State) : Alike same (s.merge s) (.ok s) := by
  obtain ⟨r, hr⟩ := (merge_ok_iff s s).mpr fun x => ⟨s.lookup x, Value.merge_self (s.lookup x)⟩
  rw [hr]
  apply same_of_lookup
  · intro x
    rw [merge_contains hr x, Bool.or_self]
  · intro x _
    have hx := merge_lookup hr x
    rw [Value.merge_self] at hx
    rw [Except.ok.inj hx]
    exact Value.same_refl _

theorem merge_comm (s t : State) : Alike same (s.merge t) (t.merge s) := by
  have swap : ∀ {s t : State}, (∃ r, s.merge t = .ok r) → ∃ r, t.merge s = .ok r := by
    intro s t hst
    refine (merge_ok_iff t s).mpr fun x => ?_
    obtain ⟨v, hv⟩ := (merge_ok_iff s t).mp hst x
    obtain ⟨w, hw, _⟩ := Value.merge_ok_comm hv
    exact ⟨w, hw⟩
  cases hst : s.merge t with
  | ok r =>
    obtain ⟨q, hts⟩ := swap ⟨r, hst⟩
    rw [hts]
    apply same_of_lookup
    · intro x
      rw [merge_contains hst, merge_contains hts, Bool.or_comm]
    · intro x _
      obtain ⟨w, hw, hrw⟩ := Value.merge_ok_comm (merge_lookup hst x)
      rw [merge_lookup hts x] at hw
      cases hw
      exact hrw
  | error f =>
    cases hts : t.merge s with
    | ok q =>
      obtain ⟨r, hr⟩ := swap ⟨q, hts⟩
      rw [hst] at hr
      cases hr
    | error g => exact ⟨merge_error hst, merge_error hts⟩

end State

namespace Outcome

/-- The same values and the same states. -/
def same (o p : Outcome) : Bool := o.value.same p.value && o.state.same p.state

theorem same_refl (o : Outcome) : o.same o = true := by
  rw [same, Value.same_refl, State.same_refl]
  rfl

/-- Two outcomes that are both reachable, or both not, are merged part by part. -/
theorem value_of_not_isReachable {o : Outcome} (h : o.isReachable = false) :
    o.value = .nothing :=
  Value.eq_nothing_of_isNothing (by simpa [isReachable, Value.isReachable] using h)

theorem merge_parts {o p : Outcome} (h : o.isReachable = p.isReachable) :
    o.merge p = do
      let v ← o.value.merge p.value
      return ⟨v, ← o.state.merge p.state⟩ := by
  rw [merge, h]
  cases p.isReachable <;> rfl

theorem merge_unreachable_left {o p : Outcome} (ho : o.isReachable = false)
    (hp : p.isReachable = true) : o.merge p = .ok p := by
  rw [merge, ho, hp]
  rfl

theorem merge_unreachable_right {o p : Outcome} (ho : o.isReachable = true)
    (hp : p.isReachable = false) : o.merge p = .ok o := by
  rw [merge, ho, hp]
  rfl

theorem parts_of_merge {o p m : Outcome} (h : o.isReachable = p.isReachable)
    (hm : o.merge p = .ok m) :
    o.value.merge p.value = .ok m.value ∧ o.state.merge p.state = .ok m.state := by
  rw [merge_parts h] at hm
  cases values : o.value.merge p.value with
  | error e =>
    rw [values] at hm
    cases hm
  | ok v =>
    rw [values] at hm
    cases states : o.state.merge p.state with
    | error e =>
      rw [states] at hm
      cases hm
    | ok s =>
      rw [states] at hm
      cases hm
      exact ⟨rfl, rfl⟩

/-- Computations that are alike in both parts are alike. -/
theorem alike_parts {v w : Except Fault Value} {s t : Except Fault State}
    (hvw : Alike Value.same v w) (hst : Alike State.same s t) :
    Alike same (do let v ← v; return ⟨v, ← s⟩) (do let w ← w; return ⟨w, ← t⟩) := by
  cases v with
  | error e =>
    cases w with
    | error f => exact hvw
    | ok w => exact hvw.elim
  | ok v =>
    cases w with
    | error f => exact hvw.elim
    | ok w =>
      cases s with
      | error e =>
        cases t with
        | error f => exact hst
        | ok t => exact hst.elim
      | ok s =>
        cases t with
        | error f => exact hst.elim
        | ok t => exact (Bool.and_eq_true _ _).mpr ⟨hvw, hst⟩

theorem merge_self (o : Outcome) : Alike same (o.merge o) (.ok o) := by
  rw [merge_parts rfl]
  have value : Alike Value.same (o.value.merge o.value) (.ok o.value) := by
    rw [Value.merge_self]
    exact Value.same_refl o.value
  exact alike_parts value (State.merge_self o.state)

theorem merge_comm (o p : Outcome) : Alike same (o.merge p) (p.merge o) := by
  cases ho : o.isReachable with
  | true =>
    cases hp : p.isReachable with
    | true =>
      rw [merge_parts (ho.trans hp.symm), merge_parts (hp.trans ho.symm)]
      exact alike_parts (Value.merge_comm _ _) (State.merge_comm _ _)
    | false =>
      rw [merge_unreachable_right ho hp, merge_unreachable_left hp ho]
      exact same_refl o
  | false =>
    cases hp : p.isReachable with
    | true =>
      rw [merge_unreachable_left ho hp, merge_unreachable_right hp ho]
      exact same_refl p
    | false =>
      rw [merge_parts (ho.trans hp.symm), merge_parts (hp.trans ho.symm)]
      exact alike_parts (Value.merge_comm _ _) (State.merge_comm _ _)

end Outcome

/-- Merging is idempotent and symmetric at all three levels, `nothing` is its neutral element, and
states are merged symbol by symbol, with what is not bound read as `undetermined`. -/
theorem merge_idempotent_symmetric :
    (∀ a : Value, Alike Value.same (a.merge a) (.ok a)) ∧
    (∀ a : Value, Alike Value.same (Value.nothing.merge a) (.ok a) ∧
      Alike Value.same (a.merge .nothing) (.ok a)) ∧
    (∀ a b : Value, Alike Value.same (a.merge b) (b.merge a)) ∧
    (∀ s : State, Alike State.same (s.merge s) (.ok s)) ∧
    (∀ s t : State, Alike State.same (s.merge t) (t.merge s)) ∧
    (∀ s t r : State, s.merge t = .ok r → ∀ x,
      r.contains x = (s.contains x || t.contains x) ∧
      (s.lookup x).merge (t.lookup x) = .ok (r.lookup x)) ∧
    (∀ s t : State, (∃ r, s.merge t = .ok r) ↔
      ∀ x, ∃ v, (s.lookup x).merge (t.lookup x) = .ok v) ∧
    (∀ o : Outcome, Alike Outcome.same (o.merge o) (.ok o)) ∧
    (∀ o p : Outcome, Alike Outcome.same (o.merge p) (p.merge o)) := by
  refine ⟨fun a => ?_, fun a => ⟨?_, ?_⟩, Value.merge_comm, State.merge_self, State.merge_comm,
    fun s t r h x => ⟨State.merge_contains h x, State.merge_lookup h x⟩, State.merge_ok_iff,
    Outcome.merge_self, Outcome.merge_comm⟩
  · rw [Value.merge_self]
    exact Value.same_refl a
  · rw [Value.nothing_merge]
    exact Value.same_refl a
  · rw [Value.merge_nothing]
    exact Value.same_refl a

/-- Two paths bind `x` differently, and only the first binds `y`. -/
theorem merge_idempotent_symmetric_two_paths :
    let x : Symbol := .decl ⟨0, "x", .block⟩
    let y : Symbol := .decl ⟨1, "y", .block⟩
    let s := (State.empty.assign x (.int 1) none).assign y (.int 3) none
    let t := State.empty.assign x (.int 2) none
    ∃ r, s.merge t = .ok r ∧ r.contains y = (s.contains y || t.contains y) ∧
      (s.lookup y).merge (t.lookup y) = .ok (r.lookup y) := by
  dsimp only
  exact ⟨_, rfl, merge_idempotent_symmetric.2.2.2.2.2.1 _ _ _ rfl _⟩

end ValueFlow
