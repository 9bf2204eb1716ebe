import ValueFlow.Proofs.Interchange
import ValueFlow.Proofs.NormalForm
import ValueFlow.Proofs.SelfDependence

/-!
# What binding takes out

Binding a value to `x` takes the variables of `x` out of the dependencies and out of those of the
value. A layer of provenance that had no others goes with them, and what it was around is then
wrapped as it is. If that is a variable, it can be one of `x` or depend on one, and later bindings
keep it. Where provenance is only ever put around values that are no variables, nothing of `x` is
left.

* `freeOf`: what a binding of `x` should wrap.
* `exposes`: the values that leave something of `x` behind.
* `Normal.exists_boundTo`: what binding gives, for values in normal form.
* `Tidy`, `Composed.tidy`: values where provenance is around no variable.
* `boundTo_filters`: what binding takes out of the values that can be composed.
-/

namespace ValueFlow.Value

variable {x y : Symbol} {v w : Value} {E : List Value}

/-- No variable of `x`, and nothing with provenance that depends on one. -/
def freeOf (x : Symbol) (v : Value) : Bool := !v.isVarOf x && !(v.isDependent && v.dependsOn x)

/-- Binding the value to `x` leaves something of `x` in it. A layer of provenance that is all of `x`
is around it, an earlier binding of `x` has left it, or an earlier binding of `y` has left a
variable of `y` that depends on `x`. -/
def exposes (x : Symbol) : Value → Bool
  | .dependent w E => E.all (fun d => d.isVarOf x) && !w.freeOf x
  | .var y w _ _ => if y.same x then !w.freeOf x else w.isVarOf y && w.dependsOn x
  | _ => false

theorem dependsOn_iff :
    v.dependsOn x = true ↔ ∃ d, hasSame v.deps d = true ∧ d.isVarOf x = true := by
  rw [dependsOn, List.any_eq_true]
  constructor
  · rintro ⟨d, hd, own⟩
    exact ⟨d, hasSame_of_mem hd, own⟩
  · rintro ⟨d, hd, own⟩
    obtain ⟨e, he, same⟩ := hasSame_iff.mp hd
    exact ⟨e, he, (isVarOf_congr x same).trans own⟩

theorem dependsOn_congr
    (h : ∀ d, d.isVarOf x = true → hasSame v.deps d = hasSame w.deps d) :
    v.dependsOn x = w.dependsOn x := by
  rw [Bool.eq_iff_iff, dependsOn_iff, dependsOn_iff]
  refine exists_congr fun d => and_congr_left fun own => ?_
  rw [h d own]

theorem freeOf_symbol (h : y.same x = true) (v : Value) : v.freeOf y = v.freeOf x := by
  simp only [freeOf, dependsOn, isVarOf_symbol h]

theorem freeOf_of_not_isDependent (h : v.isDependent = false) : v.freeOf x = true := by
  cases v with
  | dependent w E => cases h
  | var y w E s => cases h
  | _ => rfl

theorem isPlainDependent_of_not_isDependent (h : v.isDependent = false) :
    v.isPlainDependent = false := by
  cases v with
  | dependent w E => cases h
  | _ => rfl

theorem without_eq_nil_iff : without x E = [] ↔ E.all (fun d => d.isVarOf x) = true := by
  simp [without, distinct_eq_nil_iff, List.filter_eq_nil_iff]

/-- Taking `x` out of a layer of provenance leaves a layer without it, unless it leaves none. -/
theorem freeOf_dependingOn_without (single : w.isPlainDependent = false) (E : List Value) :
    (w.dependingOn (without x E)).freeOf x = !(Value.dependent w E).exposes x := by
  rw [exposes]
  cases all : E.all fun d => d.isVarOf x with
  | true => simp [without_eq_nil_iff.mpr all, dependingOn_nil]
  | false =>
    have some : without x E ≠ [] := by
      rw [Ne, without_eq_nil_iff, all]
      exact Bool.false_ne_true
    have free : (Value.dependent w (distinct (without x E))).dependsOn x = false := by
      apply dependsOn_eq_false_iff.mpr
      intro d hd
      exact (mem_without (mem_distinct hd)).2
    rw [dependingOn_of_not_dependent single some, freeOf, free]
    rfl

/-- A variable of one symbol is none of another. -/
theorem not_isVarOf_other (hyx : y.same x = false) (own : v.isVarOf x = true) :
    v.isVarOf y = false := by
  cases v with
  | var z w E s =>
    have hzx : z.same x = true := own
    rw [isVarOf, Symbol.same_comm, Symbol.same_congr hzx, hyx]
  | _ => rfl

/-- What is bound to `y` once more depends on `x` if it did, and only if it was a variable of `y`. -/
theorem dependsOn_boundTo_other (hyx : y.same x = false) (w : Value) (E : List Value)
    (s : Option Expr) :
    (w.boundTo y (without x E) s).dependsOn x = (w.isVarOf y && w.dependsOn x) := by
  cases again : w.isVarOf y with
  | false =>
    rw [Bool.false_and, dependsOn_eq_false_iff, deps_boundTo again]
    intro d hd
    exact (mem_without (mem_without hd).1).2
  | true =>
    cases w with
    | var z u F r =>
      rw [Bool.true_and]
      apply dependsOn_congr
      intro d own
      have bound := deps_congr (boundTo_own again u F r (without x E) s none)
      rw [sameSet_iff.mp bound d]
      simp [deps, own, not_isVarOf_other hyx own]
    | _ => cases again

theorem isDependent_of_isVarOf (h : v.isVarOf x = true) : v.isDependent = true := by
  cases v with
  | var y w E s => rfl
  | _ => cases h

theorem freeOf_boundTo_other (hyx : y.same x = false) (w : Value) (E : List Value)
    (s : Option Expr) :
    (w.boundTo y (without x E) s).freeOf x = !(w.isVarOf y && w.dependsOn x) := by
  have own : (w.boundTo y (without x E) s).isVarOf y = true := by
    rw [isVarOf_boundTo, Symbol.same_refl]
  rw [freeOf, isVarOf_boundTo, hyx, isDependent_of_isVarOf own, dependsOn_boundTo_other hyx]
  rfl

/-- A value in normal form is bound as a variable that depends on nothing of `x`. What it wraps is
free of `x` unless the value exposes it. -/
theorem Normal.exists_boundTo (hv : v.Normal) (x : Symbol) (D : List Value)
    (source : Option Expr) :
    ∃ y w E s, v.boundTo x D source = .var y w E s ∧ y.same x = true ∧
      (∀ d ∈ E, d.isVarOf x = false) ∧ w.freeOf x = !v.exposes x := by
  have free : ∀ d ∈ Value.without x D, d.isVarOf x = false := fun d hd => (mem_without hd).2
  cases hv with
  | @dependent w E single nonempty hw hE =>
    exact ⟨x, _, _, source, boundTo_dependent w E x D source, x.same_refl, free,
      freeOf_dependingOn_without single E⟩
  | @var y w E s freeE hw hE =>
    cases own : y.same x with
    | true =>
      have kept : w.freeOf x = !(Value.var y w E s).exposes x := by
        simp [exposes, own]
      rw [Value.boundTo]
      simp only [own, if_true]
      split
      · refine ⟨y, w, E, s, rfl, own, ?_, kept⟩
        intro d hd
        rw [← isVarOf_symbol own, freeE d hd]
      · refine ⟨x, w, _, _, rfl, x.same_refl, ?_, kept⟩
        intro d hd
        rcases mem_union hd with hd | hd
        · exact free d hd
        · exact (mem_without hd).2
    | false =>
      refine ⟨x, _, _, source, boundTo_other own w E s D source, x.same_refl, free, ?_⟩
      rw [freeOf_boundTo_other own, exposes, own]
      rfl
  | _ => exact ⟨x, _, _, source, rfl, x.same_refl, free, rfl⟩

/-- What the constructors compose, where provenance is put only around values that `wraps` admits. -/
inductive Composed (wraps : Value → Bool) : Value → Prop
  | const (c : Constant) : Composed wraps (.const c)
  | external (r : Reference) : Composed wraps (.external r)
  | undetermined : Composed wraps .undetermined
  | dependingOn {v : Value} {D : List Value} (hv : Composed wraps v) (admitted : wraps v = true)
      (hD : ∀ d ∈ D, Composed wraps d) : Composed wraps (v.dependingOn D)
  | boundTo {v : Value} {D : List Value} (hv : Composed wraps v) (hD : ∀ d ∈ D, Composed wraps d)
      (x : Symbol) (source : Option Expr) : Composed wraps (v.boundTo x D source)
  | join {vs : List Value} {r : Value} (hvs : ∀ v ∈ vs, Composed wraps v)
      (hr : join vs = .ok r) : Composed wraps r

theorem Composed.built {wraps : Value → Bool} (hv : v.Composed wraps) : v.Built := by
  induction hv with
  | const c => exact .const c
  | external r => exact .external r
  | undetermined => exact .undetermined
  | dependingOn _ _ _ hv hD => exact .dependingOn hv hD
  | boundTo _ _ x source hv hD => exact .boundTo hv hD x source
  | join _ hr hvs => exact .join hvs hr

/-- Provenance is around no variable, and every variable wraps what is free of it. -/
inductive Tidy : Value → Prop
  | bare {v : Value} (h : v.isDependent = false) : Tidy v
  | dependent {w : Value} {E : List Value} (h : w.isDependent = false) : Tidy (.dependent w E)
  | var {y : Symbol} {w : Value} {E : List Value} {s : Option Expr} (free : w.freeOf y = true)
      (hw : Tidy w) : Tidy (.var y w E s)

namespace Tidy

theorem dependingOn (hv : v.Tidy) (other : v.isVar = false) (D : List Value) :
    (v.dependingOn D).Tidy := by
  by_cases empty : D = []
  · rw [empty, dependingOn_nil]
    exact hv
  · cases hv with
    | bare h =>
      rw [dependingOn_of_not_dependent (isPlainDependent_of_not_isDependent h) empty]
      exact .dependent h
    | dependent h =>
      rw [dependingOn_dependent _ _ empty]
      exact .dependent h
    | var free hw => cases other

theorem not_exposes (hv : v.Tidy) (x : Symbol) : v.exposes x = false := by
  cases hv with
  | bare h =>
    cases v with
    | dependent w E => cases h
    | var y w E s => cases h
    | _ => rfl
  | dependent h => simp [Value.exposes, freeOf_of_not_isDependent h]
  | @var y w E s free hw =>
    cases own : y.same x with
    | true => simp [Value.exposes, own, ← freeOf_symbol own, free]
    | false =>
      have other : w.isVarOf y = false := by
        simp only [freeOf, Bool.and_eq_true, Bool.not_eq_true'] at free
        exact free.1
      simp [Value.exposes, own, other]

theorem boundTo (hv : v.Tidy) (x : Symbol) (D : List Value) (source : Option Expr) :
    (v.boundTo x D source).Tidy := by
  -- Variables inside are bound again to their own symbols, so the induction goes through them.
  induction hv generalizing x D source with
  | bare h =>
    rw [boundTo_bare h]
    exact .var (freeOf_of_not_isDependent h) (.bare h)
  | @dependent w E h =>
    have single := isPlainDependent_of_not_isDependent h
    have hidden := (dependent (E := E) h).not_exposes x
    rw [boundTo_dependent]
    refine .var ?_ ((bare h).dependingOn ?_ _)
    · rw [freeOf_dependingOn_without single, hidden]
      rfl
    · cases w with
      | var y u F r => cases h
      | _ => rfl
  | @var y w E s free hw ih =>
    cases own : y.same x with
    | true =>
      rw [Value.boundTo]
      simp only [own, if_true]
      split
      · exact .var free hw
      · exact .var ((freeOf_symbol own w).symm.trans free) hw
    | false =>
      have hidden : (w.isVarOf y && w.dependsOn x) = false := by
        simpa [Value.exposes, own] using (var (E := E) (s := s) free hw).not_exposes x
      rw [boundTo_other own]
      refine .var ?_ (ih y _ s)
      rw [freeOf_boundTo_other own, hidden]
      rfl

end Tidy

/-- Provenance that is put around no variable hides nothing. -/
theorem Composed.tidy {wraps : Value → Bool} (others : ∀ u, wraps u = true → u.isVar = false)
    (hv : v.Composed wraps) : v.Tidy := by
  induction hv with
  | const c => exact .bare rfl
  | external r => exact .bare rfl
  | undetermined => exact .bare rfl
  | @dependingOn v D _ admitted _ hv _ => exact hv.dependingOn (others v admitted) D
  | boundTo _ _ x source hv _ => exact hv.boundTo x _ source
  | join _ hr _ =>
    rw [(join_eq_ok hr).2]
    exact .bare rfl

/-- Whatever is bound to `x`, the binding depends on no variable of `x`. What it wraps is free of
`x` exactly if the value does not expose it, and always if provenance was put around no variable. -/
theorem boundTo_filters {wraps : Value → Bool} (hv : v.Composed wraps) (x : Symbol)
    (D : List Value) (source : Option Expr) :
    ∃ y w E s, v.boundTo x D source = .var y w E s ∧ y.same x = true ∧
      (∀ d ∈ E, d.isVarOf x = false) ∧ w.freeOf x = !v.exposes x ∧
      ((∀ u, wraps u = true → u.isVar = false) → w.freeOf x = true) := by
  obtain ⟨y, w, E, s, bound, own, free, left⟩ := hv.built.normal.exists_boundTo x D source
  refine ⟨y, w, E, s, bound, own, free, left, fun others => ?_⟩
  rw [left, (hv.tidy others).not_exposes]
  rfl

/-- A variable of `x` to depend on. -/
def oldBinding : Value := (Value.int 0).boundTo (.decl ⟨0, "x", .block⟩) [] none

theorem composed_oldBinding (wraps : Value → Bool) : oldBinding.Composed wraps :=
  .boundTo (.const _) (List.forall_mem_nil _) _ _

/-- A value computed from `x`, bound to `x`. -/
theorem boundTo_filters_computed :
    let x := Symbol.decl ⟨0, "x", .block⟩
    let v := (Value.int 1).dependingOn [oldBinding]
    ∃ y w E s, v.boundTo x [oldBinding] none = .var y w E s ∧ y.same x = true ∧
      (∀ d ∈ E, d.isVarOf x = false) ∧ w.freeOf x = true := by
  intro x v
  have old := List.forall_mem_singleton.mpr (composed_oldBinding fun u => !u.isVar)
  have hv : v.Composed fun u => !u.isVar := .dependingOn (.const _) rfl old
  obtain ⟨y, w, E, s, bound, own, free, -, tidy⟩ := boundTo_filters hv x [oldBinding] none
  refine ⟨y, w, E, s, bound, own, free, tidy ?_⟩
  intro u hu
  simpa using hu

/-- Provenance on `x` around a variable of `y` that depends on `x`, and around a variable of `x`.
Bound to `x`, each is left as it was inside. -/
theorem boundTo_uncovers :
    let x := Symbol.decl ⟨0, "x", .block⟩
    let y := Symbol.decl ⟨1, "y", .block⟩
    let v := ((Value.int 1).boundTo y [oldBinding] none).dependingOn [oldBinding]
    let u := ((Value.int 1).boundTo x [] none).dependingOn [oldBinding]
    v.Composed (fun _ => true) ∧ u.Composed (fun _ => true) ∧
      v.boundTo x [] none = .var x (.var y (.int 1) [oldBinding] none) [] none ∧
      u.boundTo x [] none = .var x (.var x (.int 1) [] none) [] none ∧
      oldBinding.isVarOf x = true := by
  intro x y v u
  have old := List.forall_mem_singleton.mpr (composed_oldBinding fun _ => true)
  have one : (Value.int 1).Composed fun _ => true := .const _
  refine ⟨.dependingOn (.boundTo one old y none) rfl old,
    .dependingOn (.boundTo one (List.forall_mem_nil _) x none) rfl old, ?_, ?_, ?_⟩
  · rfl
  · rfl
  · rfl

end ValueFlow.Value
