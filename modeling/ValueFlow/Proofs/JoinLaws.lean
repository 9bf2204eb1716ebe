import ValueFlow.Proofs.Interchange

/-!
# Joins

A join replaces the phis among its arguments by their members, one level deep, and keeps each value
once. So it goes by the set of values that remain: their order, how often they are given and which
of them were joined before make no difference. It fails if they are all the same. Phis that joins
have made have no phis in them, however the joins are nested, so that one level is all there is.

* `Value.Remains`: what is left of the arguments, said without the join.
* `Value.join_eq_error_iff`, `Value.collects_of_join`: when a join fails, and what it gives.
* `Value.join_regroup`: a join of what was joined before.
* `Value.Joined.flat`: members of phis under any nesting of joins.
* `Value.join_laws`: all of it together.
-/

namespace ValueFlow.Value

/-- What the values are once each phi is replaced by its members. -/
inductive Remains (vs : List Value) : Value → Prop
  | single {v : Value} (hv : v ∈ vs) (bare : v.isPhi = false) : Remains vs v
  | member {M : List Value} {m : Value} (hM : .phi M ∈ vs) (hm : m ∈ M) : Remains vs m

theorem mem_flatten_iff {vs : List Value} {u : Value} : u ∈ flatten vs ↔ Remains vs u := by
  constructor
  · intro hu
    obtain ⟨v, hv, hu⟩ := List.mem_flatMap.mp hu
    cases v with
    | phi M => exact .member hv hu
    | _ =>
      cases List.mem_singleton.mp hu
      exact .single hv rfl
  · intro hu
    cases hu with
    | @single _ hv bare =>
      refine List.mem_flatMap.mpr ⟨u, hv, ?_⟩
      cases u with
      | phi M => cases bare
      | _ => exact List.mem_singleton.mpr rfl
    | member hM hm => exact List.mem_flatMap.mpr ⟨_, hM, hm⟩

/-- Fewer than two distinct values remain. -/
def Dwindles (vs : List Value) : Prop :=
  ∀ u w, Remains vs u → Remains vs w → u.same w = true

theorem not_plural_flatten_iff {vs : List Value} : ¬ Plural (flatten vs) ↔ Dwindles vs := by
  constructor
  · intro single u w hu hw
    cases huw : u.same w with
    | true => rfl
    | false =>
      exact absurd ⟨u, mem_flatten_iff.mpr hu, w, mem_flatten_iff.mpr hw, huw⟩ single
  · rintro same ⟨u, hu, w, hw, huw⟩
    have equal := same u w (mem_flatten_iff.mp hu) (mem_flatten_iff.mp hw)
    rw [huw] at equal
    cases equal

theorem join_eq_error_iff {vs : List Value} : join vs = .error .phiArity ↔ Dwindles vs := by
  rw [← not_plural_flatten_iff]
  constructor
  · intro fails two
    rw [join_of_plural two] at fails
    cases fails
  · exact join_of_not_plural

/-- The list has what remains of the values, each once. -/
structure Collects (vs M : List Value) : Prop where
  remains : ∀ m ∈ M, Remains vs m
  complete : ∀ u, Remains vs u → ∃ m ∈ M, m.same u = true
  distinct : M.Pairwise fun a b => a.same b = false

theorem collects_distinct (vs : List Value) : Collects vs (distinct (flatten vs)) where
  remains _ hm := mem_flatten_iff.mp (mem_distinct hm)
  complete u hu := by
    apply hasSame_iff.mp
    rw [hasSame_distinct]
    exact hasSame_of_mem (mem_flatten_iff.mpr hu)
  distinct := distinct_pairwise (flatten vs)

theorem collects_of_join {vs : List Value} (h : ¬ Dwindles vs) :
    ∃ M, join vs = .ok (.phi M) ∧ Collects vs M ∧ Plural M := by
  have two : Plural (flatten vs) := by
    apply Classical.not_not.mp
    rw [not_plural_flatten_iff]
    exact h
  refine ⟨_, join_of_plural two, collects_distinct vs, ?_⟩
  exact (plural_congr (hasSame_distinct (flatten vs))).mpr two

theorem join_of_mem_iff {vs ws : List Value} (h : ∀ v, v ∈ vs ↔ v ∈ ws) :
    Alike same (join vs) (join ws) := by
  apply join_congr_of_sameSet
  apply sameSet_eq_true_iff.mpr
  constructor
  · intro v hv
    exact ⟨v, (h v).mp hv, same_refl v⟩
  · intro w hw
    exact ⟨w, (h w).mpr hw, same_refl w⟩

theorem flatten_phi (M : List Value) : flatten [.phi M] = M := by
  simp [flatten]

/-- Joining some of the values first leaves the same to be joined. -/
theorem join_regroup {ys : List Value} {r : Value} (h : join ys = .ok r) (xs zs : List Value) :
    ∃ p q, join (xs ++ [r] ++ zs) = .ok p ∧ join (xs ++ ys ++ zs) = .ok q ∧ p.same q = true := by
  obtain ⟨⟨a, ha, b, hb, hab⟩, rfl⟩ := join_eq_ok h
  have remain : ∀ u,
      hasSame (flatten (xs ++ [.phi (distinct (flatten ys))] ++ zs)) u =
        hasSame (flatten (xs ++ ys ++ zs)) u := by
    intro u
    simp only [flatten_append, flatten_phi, hasSame_append, hasSame_distinct]
  have kept : ∀ v ∈ flatten ys, v ∈ flatten (xs ++ ys ++ zs) := by
    intro v hv
    simp [flatten_append, hv]
  have two : Plural (flatten (xs ++ ys ++ zs)) := ⟨a, kept a ha, b, kept b hb, hab⟩
  have grouped := join_of_plural ((plural_congr remain).mpr two)
  have plain := join_of_plural two
  have alike := join_congr remain
  rw [grouped, plain] at alike
  exact ⟨_, _, grouped, plain, alike⟩

/-- What joins give, of values whose phis are given by joins. -/
inductive Joined : Value → Prop
  | join {vs : List Value} {r : Value} (phis : ∀ v ∈ vs, v.isPhi = true → Joined v)
      (hr : join vs = .ok r) : Joined r

theorem Joined.flat {r : Value} (h : Joined r) : ∀ M, r = .phi M → ∀ m ∈ M, m.isPhi = false := by
  induction h with
  | @join vs r phis hr ih =>
    intro M hM m hm
    rw [(join_eq_ok hr).2] at hM
    cases hM
    -- A member was given as it is, or comes from a phi that an earlier join made.
    cases mem_flatten_iff.mp (mem_distinct hm) with
    | single hv bare => exact bare
    | @member N _ hN hm => exact ih (.phi N) hN rfl N rfl m hm

/-- A join fails exactly if fewer than two distinct values remain, and otherwise has those that
remain as its members. The order of the values, their repetition and joins of some of them make no
difference, and no member is a phi if the phis among the values are joins themselves. -/
theorem join_laws :
    (∀ vs, join vs = .error .phiArity ↔ Dwindles vs) ∧
    (∀ vs, ¬ Dwindles vs → ∃ M, join vs = .ok (.phi M) ∧ Collects vs M ∧ Plural M) ∧
    (∀ vs ws, (∀ v, v ∈ vs ↔ v ∈ ws) → Alike same (join vs) (join ws)) ∧
    (∀ xs ys zs r, join ys = .ok r →
      ∃ p q, join (xs ++ [r] ++ zs) = .ok p ∧ join (xs ++ ys ++ zs) = .ok q ∧
        p.same q = true) ∧
    (∀ vs M, (∀ v ∈ vs, v.isPhi = true → Joined v) → join vs = .ok (.phi M) →
      ∀ m ∈ M, m.isPhi = false) := by
  refine ⟨fun _ => join_eq_error_iff, fun _ => collects_of_join, fun _ _ => join_of_mem_iff, ?_, ?_⟩
  · intro xs ys zs r h
    exact join_regroup h xs zs
  · intro vs M phis h
    exact (Joined.join phis h).flat M rfl

/-- The join of 1 and 2, given in another order and with a repetition, joined with 2 and 3, and
joined with nothing but itself. -/
theorem join_laws_regrouped :
    ∃ M p q, join [.int 1, .int 2] = .ok (.phi M) ∧ Collects [.int 1, .int 2] M ∧
      Alike same (join [.int 1, .int 2]) (join [.int 2, .int 1, .int 2]) ∧
      join ([.int 3] ++ [.phi M] ++ [.int 2]) = .ok p ∧
      join ([.int 3] ++ [.int 1, .int 2] ++ [.int 2]) = .ok q ∧ p.same q = true ∧
      (∃ N, join [.phi M, .phi M] = .ok (.phi N) ∧ ∀ m ∈ N, m.isPhi = false) ∧
      join [.int 3, .int 3] = .error .phiArity := by
  obtain ⟨fails, members, reorder, regroup, flat⟩ := join_laws
  have two : ¬ Dwindles [.int 1, .int 2] := by
    intro same
    have equal := same (.int 1) (.int 2) (.single (by simp) rfl) (.single (by simp) rfl)
    cases equal
  have order : ∀ v, v ∈ [Value.int 1, .int 2] ↔ v ∈ [Value.int 2, .int 1, .int 2] := by
    intro v
    simp only [List.mem_cons, List.not_mem_nil, or_false]
    grind
  have three : Dwindles [.int 3, .int 3] := by
    intro u w hu hw
    have only : ∀ v, Remains [.int 3, .int 3] v → v = .int 3 := by
      intro v hv
      simpa [flatten, Value.int] using mem_flatten_iff.mpr hv
    rw [only u hu, only w hw, same_refl]
  obtain ⟨M, hM, collects, -⟩ := members _ two
  obtain ⟨p, q, grouped, plain, same⟩ := regroup [.int 3] _ [.int 2] _ hM
  have phis : ∀ v ∈ [Value.phi M, .phi M], v.isPhi = true → Joined v := by
    intro v hv _
    have hv : v = .phi M := by simpa using hv
    rw [hv]
    refine .join ?_ hM
    intro u hu phi
    simp only [List.mem_cons, List.not_mem_nil, or_false] at hu
    rcases hu with rfl | rfl <;> cases phi
  have again : ∃ N, join [.phi M, .phi M] = .ok (.phi N) := by
    cases hM
    exact ⟨_, rfl⟩
  obtain ⟨N, hN⟩ := again
  exact ⟨M, p, q, hM, collects, reorder _ _ order, grouped, plain, same,
    ⟨N, hN, flat _ N phis hN⟩, (fails _).mpr three⟩

end ValueFlow.Value
