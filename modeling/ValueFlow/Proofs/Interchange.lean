import ValueFlow.Proofs.Alternatives
import ValueFlow.Proofs.MergeCongruence

/-!
# Values that are the same are interchangeable

Sameness ignores the sources of bindings, the names of symbols, the order in which sets were built
and the sign of zero. Nothing that is built from values, read off them or kept in states looks at
what it ignores: arguments that are the same give results that are the same, and a join or a merge
fails for one exactly if it fails for the other.

* `Value.congruence_same`: sameness is a congruence of merging.
* `Value.deps_congr`, `Value.outerVar?_congr`, `Value.coreConstant?_congr`: what is read off values.
* `State.assign_congr`, `State.merge_congr`: states.
* `same_interchangeable`: all of it together.
-/

namespace ValueFlow

namespace Value

theorem congruence_same : Congruence (fun v w => v.same w = true) where
  same h := h
  undetermined := rfl
  ofDependent h := by
    rw [same_dependent, Bool.and_eq_true] at h
    exact h.1
  ofVar h := by
    rw [same_var, Bool.and_eq_true, Bool.and_eq_true] at h
    exact h.1.2
  phi h := h
  dependingOn hvw h := dependingOn_congr hvw h
  boundTo s t hxy hvw h := boundTo_congr hxy hvw h s t

theorem merge_congr {a a' b b' : Value} (ha : a.same a' = true) (hb : b.same b' = true) :
    Alike same (merge a b) (merge a' b') := by
  have alike := congruence_same.merge ha hb
  generalize merge a b = m at alike ⊢
  generalize merge a' b' = m' at alike ⊢
  cases m <;> cases m' <;> exact alike

/-- A join goes by the set of its arguments. -/
theorem join_congr_of_sameSet {vs ws : List Value} (h : sameSet vs ws = true) :
    Alike same (join vs) (join ws) := by
  have contained : ∀ {D E : List Value}, (∀ d ∈ D, ∃ e ∈ E, d.same e = true) → ∀ u,
      hasSame (flatten D) u = true → hasSame (flatten E) u = true := by
    intro D E sub u hu
    obtain ⟨d, hd, present⟩ := hasSame_flatMap.mp hu
    obtain ⟨e, he, hde⟩ := sub d hd
    refine hasSame_flatMap.mpr ⟨e, he, ?_⟩
    have members := hasSame_flatten_congr hde u
    simp only [flatten, List.flatMap_cons, List.flatMap_nil, List.append_nil] at members
    rw [← members, present]
  obtain ⟨sub, sup⟩ := sameSet_eq_true_iff.mp h
  apply join_congr
  intro u
  rw [Bool.eq_iff_iff]
  constructor
  · exact contained sub u
  · refine contained (fun e he => ?_) u
    obtain ⟨d, hd, hde⟩ := sup e he
    exact ⟨d, hd, same_comm e d ▸ hde⟩

/-- A phi was computed from what its members were computed from. -/
theorem hasSame_deps_phi (M : List Value) (u : Value) :
    hasSame (Value.phi M).deps u = true ↔ ∃ m ∈ M, hasSame m.deps u = true := by
  rw [deps]
  induction M with
  | nil => simp [deps.depsOfAll]
  | cons m M ih => simp [deps.depsOfAll, ih]

theorem deps_congr {v w : Value} (h : v.same w = true) : sameSet v.deps w.deps = true := by
  -- Members of a phi may be phis again, so the induction goes through them.
  induction v using Value.induction generalizing w with
  | dependent v D ihv ihD =>
    cases w with
    | dependent w E =>
      rw [same_dependent, Bool.and_eq_true] at h
      exact h.2
    | _ => cases h
  | var x v D s ihv ihD =>
    cases w with
    | var y w E t =>
      rw [same_var, Bool.and_eq_true] at h
      exact h.2
    | _ => cases h
  | phi M ihM =>
    cases w with
    | phi N =>
      obtain ⟨sub, sup⟩ := sameSet_eq_true_iff.mp h
      apply sameSet_iff.mpr
      intro u
      rw [Bool.eq_iff_iff, hasSame_deps_phi, hasSame_deps_phi]
      constructor
      · rintro ⟨m, hm, hu⟩
        obtain ⟨n, hn, hmn⟩ := sub m hm
        exact ⟨n, hn, sameSet_iff.mp (ihM m hm hmn) u ▸ hu⟩
      · rintro ⟨n, hn, hu⟩
        obtain ⟨m, hm, hmn⟩ := sup n hn
        exact ⟨m, hm, (sameSet_iff.mp (ihM m hm hmn) u).trans hu⟩
    | _ => cases h
  | _ =>
    cases w with
    | dependent w E => cases h
    | var y w E t => cases h
    | phi N => cases h
    | _ => rfl

theorem outerVar?_congr {v w : Value} (h : v.same w = true) :
    Option.Rel (fun a b => a.same b = true) v.outerVar? w.outerVar? := by
  induction v using Value.induction generalizing w with
  | dependent v D ihv =>
    cases w with
    | dependent w E =>
      rw [same_dependent, Bool.and_eq_true] at h
      exact ihv (w := w) h.1
    | _ => cases h
  | var x v D s ihv =>
    cases w with
    | var y w E t => exact .some h
    | _ => cases h
  | _ =>
    cases w with
    | dependent w E => cases h
    | var y w E t => cases h
    | _ => exact .none

theorem coreConstant?_congr {v w : Value} (h : v.same w = true) :
    Option.Rel (fun c d => c.same d = true) v.coreConstant? w.coreConstant? := by
  have cores := core_congr h
  unfold coreConstant?
  generalize v.core = a at cores ⊢
  generalize w.core = b at cores ⊢
  cases a with
  | const c =>
    cases b with
    | const d => exact .some cores
    | _ => cases cores
  | _ =>
    cases b with
    | const d => cases cores
    | _ => exact .none

end Value

namespace State

theorem sameValue?_iff {v w : Option Value} :
    sameValue? v w = true ↔ Option.Rel (fun a b => a.same b = true) v w := by
  constructor
  · intro h
    cases v with
    | none =>
      cases w with
      | none => exact .none
      | some w => cases h
    | some v =>
      cases w with
      | none => cases h
      | some w =>
        rw [sameValue?, Value.equals_eq_same] at h
        exact .some h
  · intro h
    cases h with
    | none => rfl
    | some h => rw [sameValue?, Value.equals_eq_same, h]

/-- States are the same if they bind each symbol to the same or not at all. -/
theorem same_iff_rel {s t : State} : s.same t = true ↔
    ∀ x, Option.Rel (fun a b => a.same b = true) (s.get? x) (t.get? x) := by
  rw [same_iff]
  constructor
  · exact fun h x => sameValue?_iff.mp (h x)
  · exact fun h x => sameValue?_iff.mpr (h x)

variable {s s' t t' : State} {x y : Symbol}

theorem lookup_congr_same (hs : s.same s' = true) (hxy : x.same y = true) :
    (s.lookup x).same (s'.lookup y) = true := by
  rw [← lookup_congr hxy s']
  exact Value.congruence_same.lookup (same_iff_rel.mp hs x)

theorem assign_congr (hs : s.same s' = true) (hxy : x.same y = true) {v w : Value}
    (hvw : v.same w = true) (source source' : Option Expr) :
    (s.assign x v source).same (s'.assign y w source') = true := by
  apply same_iff_rel.mpr
  intro z
  rw [assign, assign, get?_set, get?_set, Symbol.same_comm y, ← Symbol.same_congr hxy,
    Symbol.same_comm z]
  split
  · exact .some (Value.boundTo_congr hxy hvw rfl source source')
  · exact same_iff_rel.mp hs z

theorem same_comm (s t : State) : s.same t = t.same s := by
  have swap : ∀ {s t : State}, s.same t = true → t.same s = true := by
    intro s t h
    apply same_iff_rel.mpr
    intro x
    have bound := same_iff_rel.mp h x
    generalize s.get? x = v at bound ⊢
    generalize t.get? x = w at bound ⊢
    cases bound with
    | none => exact .none
    | some hvw => exact .some (Value.same_comm _ _ ▸ hvw)
  rw [Bool.eq_iff_iff]
  exact ⟨swap, swap⟩

/-- Whether two states can be merged does not depend on what sameness ignores. -/
theorem exists_merge (hs : s.same s' = true) (ht : t.same t' = true)
    (h : ∃ r, s.merge t = .ok r) : ∃ r, s'.merge t' = .ok r := by
  obtain ⟨r, hr⟩ := h
  apply (merge_ok_iff s' t').mpr
  intro x
  have alike := Value.merge_congr (lookup_congr_same hs (Symbol.same_refl x))
    (lookup_congr_same ht (Symbol.same_refl x))
  rw [merge_lookup hr x] at alike
  cases hv : (s'.lookup x).merge (t'.lookup x) with
  | ok v => exact ⟨v, rfl⟩
  | error e =>
    rw [hv] at alike
    exact alike.elim

theorem merge_congr (hs : s.same s' = true) (ht : t.same t' = true) :
    Alike same (s.merge t) (s'.merge t') := by
  cases hr : s.merge t with
  | ok r =>
    obtain ⟨r', hr'⟩ := exists_merge hs ht ⟨r, hr⟩
    rw [hr']
    apply same_iff_rel.mpr
    intro x
    exact Value.congruence_same.merge_get? (same_iff_rel.mp hs x) (same_iff_rel.mp ht x) hr hr'
  | error e =>
    cases hr' : s'.merge t' with
    | ok r' =>
      obtain ⟨r, hok⟩ := exists_merge (same_comm s s' ▸ hs) (same_comm t t' ▸ ht) ⟨r', hr'⟩
      rw [hr] at hok
      cases hok
    | error e' => exact ⟨merge_error hr, merge_error hr'⟩

end State

/-- Sameness is an equivalence, it is what comparing by digests decides, and the constructors, what
is read off values, merging and states do not look at what it ignores. -/
theorem same_interchangeable :
    (∀ v w : Value, v.equals w = v.same w) ∧
    (∀ v : Value, v.same v = true) ∧
    (∀ v w : Value, v.same w = true → w.same v = true) ∧
    (∀ u v w : Value, u.same v = true → v.same w = true → u.same w = true) ∧
    (∀ v w : Value, v.same w = true →
      v.core.same w.core = true ∧
      Option.Rel (fun c d => c.same d = true) v.coreConstant? w.coreConstant? ∧
      Option.Rel (fun a b => a.same b = true) v.outerVar? w.outerVar? ∧
      Value.sameSet v.deps w.deps = true ∧
      Value.sameSet v.provenance w.provenance = true) ∧
    (∀ (v w : Value) (D E : List Value), v.same w = true → Value.sameSet D E = true →
      (v.dependingOn D).same (w.dependingOn E) = true ∧
      ∀ (x y : Symbol) (source source' : Option Expr), x.same y = true →
        (v.boundTo x D source).same (w.boundTo y E source') = true) ∧
    (∀ vs ws : List Value, Value.sameSet vs ws = true →
      Alike Value.same (Value.join vs) (Value.join ws)) ∧
    (∀ a a' b b' : Value, a.same a' = true → b.same b' = true →
      Alike Value.same (a.merge b) (a'.merge b')) ∧
    (∀ s s' : State, s.same s' = true → ∀ x y : Symbol, x.same y = true →
      (s.lookup x).same (s'.lookup y) = true ∧
      ∀ (v w : Value) (source source' : Option Expr), v.same w = true →
        (s.assign x v source).same (s'.assign y w source') = true) ∧
    (∀ s s' t t' : State, s.same s' = true → t.same t' = true →
      Alike State.same (s.merge t) (s'.merge t')) := by
  refine ⟨Value.equals_eq_same, Value.same_refl, ?_, fun _ _ _ => Value.same_trans, ?_, ?_, ?_, ?_,
    ?_, ?_⟩
  · intro v w h
    rw [Value.same_comm, h]
  · intro v w h
    exact ⟨Value.core_congr h, Value.coreConstant?_congr h, Value.outerVar?_congr h,
      Value.deps_congr h, Value.provenance_congr h⟩
  · intro v w D E hvw hDE
    refine ⟨Value.dependingOn_congr hvw hDE, fun x y source source' hxy => ?_⟩
    exact Value.boundTo_congr hxy hvw hDE source source'
  · exact fun vs ws h => Value.join_congr_of_sameSet h
  · exact fun a a' b b' ha hb => Value.merge_congr ha hb
  · intro s s' hs x y hxy
    refine ⟨State.lookup_congr_same hs hxy, fun v w source source' hvw => ?_⟩
    exact State.assign_congr hs hxy hvw source source'
  · exact fun s s' t t' hs ht => State.merge_congr hs ht

/-- A zero that depends on `y` and on something external. The negative one has them in the other
order, and `y` under another name and with a source. -/
def dependentZero (negative : Bool) : Value :=
  let y := Value.var (.decl ⟨1, "y", .block⟩) (.int 1) [] none
  let z := Value.var (.decl ⟨1, "z", .field⟩) (.int 1) [] (some (.literal 0 (.int 1) false))
  let f := Value.external (.text "f")
  .dependent (.double (.zero negative)) (if negative then [f, z] else [y, f])

/-- Bound on one path only, both zeros are joined with `undetermined`. -/
theorem same_interchangeable_dependentZero :
    let x : Symbol := .decl ⟨0, "x", .block⟩
    let s := State.empty.assign x (dependentZero false) none
    let t := State.empty.assign x (dependentZero true) none
    (dependentZero false).same (dependentZero true) = true ∧ s.same t = true ∧
      ∃ r r', s.merge .empty = .ok r ∧ t.merge .empty = .ok r' ∧ r.same r' = true ∧
        (r.lookup x).same (r'.lookup x) = true := by
  have states := same_interchangeable.2.2.2.2.2.2.2.2
  have bound := (states.1 .empty .empty rfl (.decl ⟨0, "x", .block⟩) (.decl ⟨0, "x", .block⟩) rfl).2
    (dependentZero false) (dependentZero true) none none rfl
  have alike := states.2 _ _ .empty .empty bound rfl
  obtain ⟨r, hr⟩ : ∃ r, (State.empty.assign (.decl ⟨0, "x", .block⟩) (dependentZero false)
    none).merge .empty = .ok r := ⟨_, rfl⟩
  obtain ⟨r', hr'⟩ : ∃ r, (State.empty.assign (.decl ⟨0, "x", .block⟩) (dependentZero true)
    none).merge .empty = .ok r := ⟨_, rfl⟩
  rw [hr, hr'] at alike
  exact ⟨rfl, bound, r, r', hr, hr', alike, (states.1 r r' alike _ _ rfl).1⟩

end ValueFlow
