import ValueFlow.Proofs.Interchange
import ValueFlow.Proofs.Lifting
import ValueFlow.Proofs.ReachableStates
import ValueFlow.Proofs.RealValues

/-!
# Wrapping what is wrapped

A value that is wrapped once more takes up what it is then said to depend on, and its core is never
touched. This holds of all values, in shape or not. Binding also rebuilds what it binds, layer by
layer. A variable that evaluation gives is in shape, and so building it again from its parts changes
nothing. This is why two variables of one symbol around one value merge to that variable with the
dependencies of both.

* `dependingOn_append`, `boundTo_append`: wrapping twice is wrapping once with all dependencies.
* `wrapping_accumulates`: this and what becomes of the core, for all values.
* `WellShaped.rebuilt`: a variable in shape is what binding gives for its parts.
* `WellShaped.merge_vars`: the merge of two variables around one value.
* `Arises`: what evaluation can give, at every depth.
* `Arises.rebuilt_unchanged`: variables that arise are rebuilt and merged as they are.
-/

namespace ValueFlow

namespace Value

variable {x y : Symbol} {v w p : Value} {D E : List Value} {s t : Option Expr}

theorem sameSet_union_append (D E : List Value) : sameSet (union D E) (D ++ E) = true := by
  simp [sameSet_iff]

/-- Where nothing is a variable of `x`, nothing is taken out. -/
theorem sameSet_without (free : ∀ d ∈ D, d.isVarOf x = false) : sameSet (without x D) D = true := by
  refine sameSet_iff.mpr fun v => ?_
  rw [hasSame_without]
  cases present : hasSame D v with
  | false => rfl
  | true =>
    obtain ⟨d, hd, same⟩ := hasSame_iff.mp present
    rw [← isVarOf_congr x same, free d hd]
    rfl

theorem allIn_iff : allIn D E = true ↔ ∀ d ∈ D, hasSame E d = true := by
  simp [allIn_eq, hasSame_iff, same_comm]

theorem dependingOn_append (v : Value) (D E : List Value) :
    ((v.dependingOn D).dependingOn E).same (v.dependingOn (D ++ E)) = true := by
  by_cases hD : D = []
  · rw [hD, dependingOn_nil, List.nil_append]
    exact same_refl _
  by_cases hE : E = []
  · rw [hE, dependingOn_nil, List.append_nil]
    exact same_refl _
  have hDE : D ++ E ≠ [] := List.append_ne_nil_of_left_ne_nil hD E
  cases layered : v.isPlainDependent with
  | false =>
    rw [dependingOn_of_not_dependent layered hD, dependingOn_dependent v _ hE,
      dependingOn_of_not_dependent layered hDE, same_dependent, same_refl, Bool.true_and]
    simp [sameSet_iff]
  | true =>
    cases v with
    | dependent w F =>
      rw [dependingOn_dependent w F hD, dependingOn_dependent w _ hE,
        dependingOn_dependent w F hDE, same_dependent, same_refl, Bool.true_and]
      simp [sameSet_iff, Bool.or_assoc]
    | _ => cases layered

theorem allIn_deps_dependingOn (v : Value) (D : List Value) :
    allIn D (v.dependingOn D).deps = true := by
  refine allIn_iff.mpr fun d hd => ?_
  have nonempty : D ≠ [] := List.ne_nil_of_mem hd
  cases v with
  | dependent w E =>
    rw [dependingOn_dependent w E nonempty]
    simp [deps, hasSame_of_mem hd]
  | _ =>
    rw [dependingOn_of_not_dependent rfl nonempty]
    simp [deps, hasSame_of_mem hd]

/-- What is wrapped when a value is bound to `x`, and what is kept of the dependencies it had, do
not depend on the dependencies it is given. -/
theorem exists_layer (v : Value) (x : Symbol) :
    ∃ w E, (∀ e ∈ E, e.isVarOf x = false) ∧
      ∀ D source, (v.boundTo x D source).same (.var x w (without x D ++ E) none) = true := by
  -- Only a variable of `x` itself has dependencies that are kept.
  have fresh : ∀ w D source,
      (Value.var x w (without x D) source).same (.var x w (without x D ++ []) none) = true := by
    intro w D source
    rw [List.append_nil]
    exact var_congr x.same_refl (same_refl w) (sameSet_refl _) source none
  have empty := List.forall_mem_nil fun e : Value => e.isVarOf x = false
  cases v with
  | dependent w E => exact ⟨_, [], empty, fresh (w.dependingOn (without x E))⟩
  | var y w E s =>
    cases own : y.same x with
    | true =>
      refine ⟨w, without x E, fun e he => (mem_without he).2, fun D source => ?_⟩
      refine same_trans (boundTo_own own w E s D source none) ?_
      exact var_congr x.same_refl (same_refl w) (sameSet_union_append _ _) none none
    | false =>
      refine ⟨w.boundTo y (without x E) s, [], empty, fun D source => ?_⟩
      rw [boundTo_other own]
      exact fresh _ D source
  | _ => exact ⟨_, [], empty, fresh _⟩

theorem boundTo_append (v : Value) (x : Symbol) (D E : List Value) (s t u : Option Expr) :
    ((v.boundTo x D s).boundTo x E t).same (v.boundTo x (D ++ E) u) = true := by
  obtain ⟨w, F, free, bound⟩ := exists_layer v x
  have again : ((v.boundTo x D s).boundTo x E t).same
      ((Value.var x w (without x D ++ F) none).boundTo x E t) = true :=
    boundTo_congr x.same_refl (bound D s) (sameSet_refl E) t t
  have united : ((Value.var x w (without x D ++ F) none).boundTo x E t).same
      (.var x w (union (without x E) (without x (without x D ++ F))) none) = true :=
    boundTo_own x.same_refl w _ none E t none
  have sets : sameSet (union (without x E) (without x (without x D ++ F)))
      (without x (D ++ E) ++ F) = true := by
    rw [sameSet_iff]
    intro d
    have kept := sameSet_iff.mp (sameSet_without free) d
    rw [hasSame_without] at kept
    simp only [hasSame_union, hasSame_append, hasSame_without]
    cases own : d.isVarOf x with
    | false => simp [Bool.or_left_comm, Bool.or_assoc]
    | true =>
      rw [own, Bool.not_true, Bool.and_false] at kept
      simp [← kept]
  have once := var_congr x.same_refl (same_refl w) sets none none
  rw [same_congr_right (bound (D ++ E) u)]
  exact same_trans again (same_trans united once)

theorem allIn_deps_boundTo (v : Value) (x : Symbol) (D : List Value) (source : Option Expr) :
    allIn (without x D) (v.boundTo x D source).deps = true := by
  obtain ⟨w, E, -, bound⟩ := exists_layer v x
  refine allIn_iff.mpr fun d hd => ?_
  rw [sameSet_iff.mp (deps_congr (bound D source)) d, deps, hasSame_append, hasSame_of_mem hd]
  rfl

/-- Wrapping twice is wrapping once with all that was given, whatever the sources are. What is given
is kept, apart from the variables of the symbol that is bound, and the core stays as it is. -/
theorem wrapping_accumulates (v : Value) (x : Symbol) (D E : List Value) (s t u : Option Expr) :
    ((v.dependingOn D).dependingOn E).same (v.dependingOn (D ++ E)) = true ∧
      ((v.boundTo x D s).boundTo x E t).same (v.boundTo x (D ++ E) u) = true ∧
      allIn D (v.dependingOn D).deps = true ∧
      allIn (without x D) (v.boundTo x D s).deps = true ∧
      (v.dependingOn D).core = v.core ∧ (v.boundTo x D s).core = v.core :=
  ⟨dependingOn_append v D E, boundTo_append v x D E s t u, allIn_deps_dependingOn v D,
    allIn_deps_boundTo v x D s, core_dependingOn v D, core_boundTo v x D s⟩

/-- Two variables of one symbol around one value are united where they are not the same. Neither
absorbs the other, as there are as many layers in one as in the other. -/
theorem merge_eq_boundTo (hxy : x.same y = true) (hvw : v.same w = true)
    (different : (Value.var x v D s).same (.var y w E t) = false) :
    (Value.var x v D s).merge (.var y w E t) = .ok (v.boundTo x (union D E) s) := by
  have layers : (Value.var x v D s).layers = (Value.var y w E t).layers := by
    rw [Value.layers, Value.layers, layers_congr hvw]
  have right : ¬ (Value.var y w E t).isWrappedBy (.var x v D s) = true := by
    intro wraps
    have deeper := layers_of_isWrappedBy wraps
    omega
  have left : ¬ (Value.var x v D s).isWrappedBy (.var y w E t) = true := by
    intro wraps
    have deeper := layers_of_isWrappedBy wraps
    omega
  simp only [merge_eq, different, isNothing, right, left, Bool.false_eq_true, if_false]
  simp only [unite_var_left, mergeVar, equals_eq_same, hxy, hvw, Bool.and_self, if_true]

namespace WellShaped

theorem dependingOn_rebuilt (h : (Value.dependent v D).WellShaped) :
    (v.dependingOn D).same (.dependent v D) = true := by
  cases h with
  | dependent plain nonempty hv hD =>
    rw [dependingOn_of_isAtom (isAtom_of_isPlain plain) nonempty, same_dependent, same_refl,
      sameSet_distinct]
    rfl

/-- A variable in shape has nothing that binding takes out, at any depth. -/
theorem rebuilt (h : (Value.var x v D s).WellShaped) (source : Option Expr) :
    (v.boundTo x D source).same (.var x v D s) = true := by
  -- Binding goes through the layers of variables, and each is rebuilt from dependencies in which
  -- the symbol around it does not occur.
  induction v using Value.induction generalizing x D s source with
  | dependent w E =>
    cases h with
    | var other free inner hv hD =>
      have kept : (w.dependingOn (without x E)).same (w.dependingOn E) = true :=
        dependingOn_congr (same_refl w) (sameSet_without (inner rfl))
      rw [boundTo_dependent]
      exact var_congr x.same_refl (same_trans kept hv.dependingOn_rebuilt) (sameSet_without free)
        source s
  | var y w E r ihw =>
    cases h with
    | var other free inner hv hD =>
      have kept : (w.boundTo y (without x E) r).same (w.boundTo y E r) = true :=
        boundTo_congr y.same_refl (same_refl w) (sameSet_without (inner rfl)) r r
      rw [boundTo_other other]
      exact var_congr x.same_refl (same_trans kept (ihw hv r)) (sameSet_without free) source s
  | _ =>
    cases h with
    | var other free inner hv hD =>
      rw [boundTo_bare rfl]
      exact var_congr x.same_refl (same_refl _) (sameSet_without free) source s

theorem var_union (ha : (Value.var x v D s).WellShaped) (hb : (Value.var y w E t).WellShaped)
    (hxy : x.same y = true) : (Value.var x v (union D E) s).WellShaped := by
  cases ha with
  | var other free inner hv hD =>
    cases hb with
    | var _ freeE _ _ hE =>
      refine .var other (forall_mem_union free ?_) inner hv (forall_mem_union hD hE)
      intro e he
      rw [isVarOf_symbol hxy, freeE e he]

theorem merge_vars (ha : (Value.var x v D s).WellShaped) (hb : (Value.var y w E t).WellShaped)
    (hxy : x.same y = true) (hvw : v.same w = true) :
    ∃ m, (Value.var x v D s).merge (.var y w E t) = .ok m ∧
      m.same (.var x v (D ++ E) none) = true := by
  cases same : (Value.var x v D s).same (.var y w E t) with
  | true =>
    refine ⟨_, merge_of_same same, var_congr x.same_refl (same_refl v) ?_ s none⟩
    rw [same_var, Bool.and_eq_true] at same
    rw [sameSet_iff]
    intro d
    rw [hasSame_append, ← sameSet_iff.mp same.2 d, Bool.or_self]
  | false =>
    refine ⟨_, merge_eq_boundTo hxy hvw same, same_trans ((ha.var_union hb hxy).rebuilt s) ?_⟩
    exact var_congr x.same_refl (same_refl v) (sameSet_union_append D E) s none

theorem of_mem_parts (hv : v.WellShaped) (hp : p ∈ v.parts) : p.WellShaped := by
  induction hv with
  | dependent plain nonempty hv hD ihv ihD =>
    rcases mem_parts_dependent.mp hp with rfl | hp | ⟨d, hd, hp⟩
    · exact .dependent plain nonempty hv hD
    · exact ihv hp
    · exact ihD d hd hp
  | var other free inner hv hD ihv ihD =>
    rcases mem_parts_var.mp hp with rfl | hp | ⟨d, hd, hp⟩
    · exact .var other free inner hv hD
    · exact ihv hp
    · exact ihD d hd hp
  | phi plural flat hM ihM =>
    rcases mem_parts_phi.mp hp with rfl | ⟨m, hm, hp⟩
    · exact .phi plural flat hM
    · exact ihM m hm hp
  | const range =>
    cases List.mem_singleton.mp hp
    exact .const range
  | external =>
    cases List.mem_singleton.mp hp
    exact .external
  | undetermined =>
    cases List.mem_singleton.mp hp
    exact .undetermined

end WellShaped

/-- The values that evaluation can give, tree after tree from the empty state: those in its results
and in the bindings of the states it leads to, at every depth. Each node of a tree is evaluated from
such a state, so the results on the way are among them. -/
inductive Arises : Value → Prop
  | result {ev : Evaluator} {e : Expr} {s : State} {o : Outcome} {p : Value}
      (tame : ∀ d ∈ ev.dialects.entries, d.IsTame) (nodes : ∀ n ∈ e.nodes, n.isNode = true)
      (hs : s.Reached) (ho : (ev.eval e s).result = .ok o) (hp : p ∈ o.value.parts) : Arises p
  | binding {s : State} {x : Symbol} {v p : Value} (hs : s.Reached) (bound : s.get? x = some v)
      (hp : p ∈ v.parts) : Arises p

theorem Arises.wellShaped (h : p.Arises) (reachable : p.isReachable = true) : p.WellShaped := by
  cases h with
  | @result ev e s o _ tame nodes hs ho hp =>
    obtain ⟨o', ho', -, regular⟩ := Evaluator.eval_regular nodes
      (fun _ _ language _ => Evaluator.dialect_isTame tame language) hs.good
    rw [ho] at ho'
    cases ho'
    rcases regular with nothing | shaped
    · rw [nothing] at hp
      cases List.mem_singleton.mp hp
      cases reachable
    · exact shaped.of_mem_parts hp
  | binding hs bound hp => exact (hs.good _ _ bound).2.of_mem_parts hp

/-- A variable that arises is what binding gives for its symbol, what it wraps and its dependencies.
Merged with another that arises, of the same symbol and around the same value, it takes up the
dependencies of the other and changes in nothing else. -/
theorem Arises.rebuilt_unchanged (ha : (Value.var x v D s).Arises) :
    (∀ source, (v.boundTo x D source).same (.var x v D s) = true) ∧
      ∀ (y : Symbol) (w : Value) (E : List Value) (t : Option Expr), (Value.var y w E t).Arises →
        x.same y = true → v.same w = true →
          ∃ m, (Value.var x v D s).merge (.var y w E t) = .ok m ∧
            m.same (.var x v (D ++ E) none) = true := by
  have shaped := ha.wellShaped rfl
  refine ⟨shaped.rebuilt, fun y w E t hb hxy hvw => ?_⟩
  exact shaped.merge_vars (hb.wellShaped rfl) hxy hvw

/-- Either `x`, or the sum of `a` and 1. -/
def orSum (id : Nat) (a : Symbol) : Expr :=
  .cond id (.reference (id + 1) "p" none)
    (some (.reference (id + 2) "x" (some (.decl ⟨0, "x", .block⟩))))
    (some (.binary (id + 3) (.reference (id + 4) "a" (some a)) .plus
      (.literal (id + 5) (.int 1) false) none)) true

/-- Declares `x` as 1, `y` and `z` as 0, and then `u` and `w` as `x` or a sum that is 1 too. -/
def alternativeSums : Expr :=
  let y : Symbol := .decl ⟨1, "y", .block⟩
  let z : Symbol := .decl ⟨2, "z", .block⟩
  .block 0 [.declare 1 (.decl ⟨0, "x", .block⟩) (some (.literal 2 (.int 1) false)),
    .declare 3 y (some (.literal 4 (.int 0) false)),
    .declare 5 z (some (.literal 6 (.int 0) false)),
    .declare 7 (.decl ⟨3, "u", .block⟩) (some (orSum 10 y)),
    .declare 8 (.decl ⟨4, "w", .block⟩) (some (orSum 20 z))]

/-- Both `u` and `w` are bound to a variable of `x`, which depends on `y` in one and on `z` in the
other. -/
theorem Arises.rebuilt_unchanged_alternativeSums :
    let x : Symbol := .decl ⟨0, "x", .block⟩
    let y : Symbol := .decl ⟨1, "y", .block⟩
    let z : Symbol := .decl ⟨2, "z", .block⟩
    let D : List Value := [.var y (.int 0) [] (some (.literal 4 (.int 0) false))]
    let E : List Value := [.var z (.int 0) [] (some (.literal 6 (.int 0) false))]
    let one : Option Expr := some (.literal 2 (.int 1) false)
    (Value.var x (.int 1) D one).Arises ∧ (Value.var x (.int 1) E one).Arises ∧
      (∀ source, ((Value.int 1).boundTo x D source).same (.var x (.int 1) D one) = true) ∧
      ∃ m, (Value.var x (.int 1) D one).merge (.var x (.int 1) E one) = .ok m ∧
        m.same (.var x (.int 1) (D ++ E) none) = true := by
  intro x y z D E one
  obtain ⟨o, ho, reached⟩ := @Evaluator.exists_reached alternativeSums (by decide)
  cases ho
  have wrapped : ∀ {a : Symbol} {v : Value} {s : Option Expr}, v ∈ (Value.var a v [] s).parts :=
    mem_parts_var.mpr (.inr (.inl (self_mem_parts _)))
  have first : (Value.var x (.int 1) D one).Arises :=
    .binding (x := .decl ⟨3, "u", .block⟩) (v := .var (.decl ⟨3, "u", .block⟩) _ []
      (some (orSum 10 y))) reached rfl wrapped
  have second : (Value.var x (.int 1) E one).Arises :=
    .binding (x := .decl ⟨4, "w", .block⟩) (v := .var (.decl ⟨4, "w", .block⟩) _ []
      (some (orSum 20 z))) reached rfl wrapped
  obtain ⟨rebuilt, merges⟩ := first.rebuilt_unchanged
  exact ⟨first, second, rebuilt, merges x (.int 1) E one second rfl rfl⟩

end Value

end ValueFlow
