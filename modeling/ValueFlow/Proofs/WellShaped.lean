import ValueFlow.Proofs.Bounds

/-!
# Values in shape

The shape that values keep at every depth: provenance wraps what can carry it, a variable does not
depend on itself, a phi has two distinct members and none that is a phi, integers are within 64
bits, and what is not a value of a path that goes on occurs nowhere. The constructors, the lifted
operators and merging keep values in shape, and on values in shape none of them fails.

* `WellShaped.boundTo`, `WellShaped.merge`: binding and merging keep values in shape.
* `Regular.lift1`, `Regular.lift2`: so do the operators.
* `State.Good`: every binding is in shape, and is a variable of its symbol or a phi of such.
* `State.Good.assign`, `State.Good.merge`: states stay good.
-/

namespace ValueFlow

open Value

inductive Value.WellShaped : Value → Prop
  | const {c : Constant} (range : c.InRange) : WellShaped (.const c)
  | dependent {v : Value} {D : List Value} (plain : v.isPlain = true) (nonempty : D ≠ [])
      (hv : WellShaped v) (hD : ∀ d ∈ D, WellShaped d) : WellShaped (.dependent v D)
  /-- Neither the variable nor what it directly wraps depends on a variable of its symbol. -/
  | var {x : Symbol} {v : Value} {D : List Value} {s : Option Expr}
      (other : v.isVarOf x = false) (free : ∀ d ∈ D, d.isVarOf x = false)
      (inner : v.isDependent = true → ∀ d ∈ v.deps, d.isVarOf x = false)
      (hv : WellShaped v) (hD : ∀ d ∈ D, WellShaped d) : WellShaped (.var x v D s)
  | external {r : Reference} : WellShaped (.external r)
  | phi {M : List Value} (plural : Plural M) (flat : ∀ m ∈ M, m.isPhi = false)
      (hM : ∀ m ∈ M, WellShaped m) : WellShaped (.phi M)
  | undetermined : WellShaped .undetermined

namespace Value

theorem dependingOn_of_isPlain {v : Value} (h : v.isPlain = true) (D : List Value) :
    v.dependingOn D = v ∨ (D ≠ [] ∧ v.dependingOn D = .dependent v (distinct D)) := by
  by_cases hD : D = []
  · rw [hD, dependingOn_nil]
    exact Or.inl rfl
  · exact Or.inr ⟨hD, dependingOn_of_isAtom (isAtom_of_isPlain h) hD⟩

theorem deps_boundTo {v : Value} {x : Symbol} (h : v.isVarOf x = false) (D : List Value)
    (source : Option Expr) : (v.boundTo x D source).deps = without x D := by
  cases v with
  | var z w E s =>
    rw [boundTo_other h]
    rfl
  | _ => rfl

namespace WellShaped

theorem dependingOn {v : Value} (hv : v.WellShaped) (plain : v.isPlain = true) {D : List Value}
    (hD : ∀ d ∈ D, d.WellShaped) : (v.dependingOn D).WellShaped := by
  rcases dependingOn_of_isPlain plain D with heq | ⟨nonempty, heq⟩
  · rw [heq]
    exact hv
  · rw [heq]
    exact .dependent plain (fun h => nonempty (distinct_eq_nil_iff.mp h)) hv
      fun d hd => hD d (mem_distinct hd)

theorem var_bare {v : Value} (hv : v.WellShaped) {D : List Value} (hD : ∀ d ∈ D, d.WellShaped)
    {x : Symbol} {source : Option Expr} (other : v.isVarOf x = false)
    (bare : v.isDependent = false) : (Value.var x v (Value.without x D) source).WellShaped := by
  refine .var other (fun d hd => (mem_without hd).2) ?_ hv (forall_mem_without hD x)
  intro hdep
  rw [bare] at hdep
  cases hdep

/-- A variable of a plain value, with what it depends on taken out of both. -/
theorem var_dependingOn {v : Value} (hv : v.WellShaped) (plain : v.isPlain = true)
    {D E : List Value} (hD : ∀ d ∈ D, d.WellShaped) (hE : ∀ e ∈ E, e.WellShaped) (x : Symbol)
    (source : Option Expr) :
    (Value.var x (v.dependingOn (Value.without x E)) (Value.without x D) source).WellShaped := by
  have shaped := hv.dependingOn plain (forall_mem_without hE x)
  rcases dependingOn_of_isPlain plain (Value.without x E) with heq | ⟨_, heq⟩
  · rw [heq]
    refine hv.var_bare hD ?_ (isDependent_of_isAtom (isAtom_of_isPlain plain))
    cases v with
    | var y w F s => cases plain
    | _ => rfl
  · rw [heq] at shaped ⊢
    exact .var rfl (fun d hd => (mem_without hd).2)
      (fun _ d hd => (mem_without (mem_distinct hd)).2) shaped (forall_mem_without hD x)

theorem boundTo {v : Value} (hv : v.WellShaped) {D : List Value} (hD : ∀ d ∈ D, d.WellShaped)
    (x : Symbol) (source : Option Expr) : (v.boundTo x D source).WellShaped := by
  have free : ∀ d ∈ Value.without x D, d.isVarOf x = false := fun d hd => (mem_without hd).2
  -- The induction is on the layers of variables, whose dependencies are rebuilt on the way in.
  induction hv generalizing x D source with
  | dependent plain nonempty hv hE => exact hv.var_dependingOn plain hD hE x source
  | @var y w E s other freeE inner hw hE ihw _ =>
    cases hyx : y.same x with
    | true =>
      rw [Value.boundTo]
      simp only [hyx, if_true]
      split
      · exact .var other freeE inner hw hE
      · refine .var ?_ ?_ ?_ hw
          (forall_mem_union (forall_mem_without hD x) (forall_mem_without hE x))
        · rw [← isVarOf_symbol hyx, other]
        · intro d hd
          rcases mem_union hd with hd | hd
          · exact free d hd
          · exact (mem_without hd).2
        · intro hdep d hd
          rw [← isVarOf_symbol hyx, inner hdep d hd]
    | false =>
      rw [boundTo_other hyx]
      refine .var ?_ free ?_ ?_ (forall_mem_without hD x)
      · rw [isVarOf_boundTo, hyx]
      · intro _ d hd
        rw [deps_boundTo other] at hd
        exact (mem_without (mem_without hd).1).2
      · exact ihw (forall_mem_without hE x) y s fun d hd => (mem_without hd).2
  | const range => exact (WellShaped.const range).var_bare hD rfl rfl
  | external => exact WellShaped.external.var_bare hD rfl rfl
  | phi plural flat hM => exact (WellShaped.phi plural flat hM).var_bare hD rfl rfl
  | undetermined => exact WellShaped.undetermined.var_bare hD rfl rfl

/-- What is plain and within 64 bits is in shape. -/
theorem of_isPlain {v : Value} (plain : v.isPlain = true) (range : v.InRange) :
    v.WellShaped := by
  cases v with
  | const c => exact .const (range c rfl)
  | undetermined => exact .undetermined
  | _ => cases plain

theorem isReachable {v : Value} (hv : v.WellShaped) : v.isReachable = true := by
  cases hv <;> rfl

theorem bounded {v : Value} (hv : v.WellShaped) : v.Bounded := by
  induction hv with
  | const range => exact .const range
  | dependent plain nonempty hv hD ihv ihD => exact .dependent ihv ihD
  | var other free inner hv hD ihv ihD => exact .var ihv ihD
  | external => exact .external
  | phi plural flat hM ihM => exact .phi ihM
  | undetermined => exact .undetermined

/-- Provenance wraps what is plain, and what is plain can be given other provenance. -/
theorem shape : Shape WellShaped where
  ofDependent h := by
    cases h with
    | dependent _ _ _ hD => exact hD
  ofVar h := by
    cases h with
    | var _ _ _ hv hD => exact ⟨hv, hD⟩
  ofPhi h := by
    cases h with
    | phi plural flat hM => exact ⟨plural, fun m hm => ⟨flat m hm, hM m hm⟩⟩
  dependingOn h hE := by
    cases h with
    | dependent plain _ hv _ => exact hv.dependingOn plain hE
  boundTo h hE source := by
    cases h with
    | var _ _ _ hv _ => exact hv.boundTo hE _ source
  phi plural hM := .phi plural (fun m hm => (hM m hm).1) fun m hm => (hM m hm).2

theorem provenance {v : Value} (hv : v.WellShaped) : ∀ d ∈ v.provenance, d.WellShaped :=
  shape.provenance hv

theorem merge {a b : Value} (ha : a.WellShaped) (hb : b.WellShaped) :
    Ensures False WellShaped (a.merge b) := shape.merge ha hb

end WellShaped

/-- The value of a path: in shape, or `nothing` where the path does not go on. -/
def Regular (v : Value) : Prop := v = .nothing ∨ v.WellShaped

namespace Regular

theorem wellShaped {v : Value} (hv : v.Regular) (reachable : v.isReachable = true) :
    v.WellShaped := by
  rcases hv with rfl | hv
  · cases reachable
  · exact hv

theorem core_inRange {v : Value} (hv : v.Regular) : v.core.InRange := by
  rcases hv with rfl | hv
  · intro c hc
    cases hc
  · exact hv.bounded.core_inRange

theorem provenance {v : Value} (hv : v.Regular) : ∀ d ∈ v.provenance, d.WellShaped := by
  rcases hv with rfl | hv
  · exact nofun
  · exact hv.provenance

theorem lift1 {v : Value} (hv : v.Regular) (op : PrefixOp) :
    Ensures False WellShaped (lift1 op.core v) := by
  rw [lift1_eq]
  refine (op.core_ensures v.core).map fun r hr => ?_
  exact (WellShaped.of_isPlain hr.plain (hr.inRange hv.core_inRange)).dependingOn hr.plain
    hv.provenance

theorem lift2 {v w : Value} (hv : v.Regular) (hw : w.Regular) {op : BinaryOp} {f : BinaryCore}
    (hf : op.core? = some f) : Ensures False WellShaped (lift2 f v w) := by
  have total := (BinaryOp.core_ensures hf v.core w.core).weaken
    fun outside => outside ⟨hv.core_inRange, hw.core_inRange⟩
  rw [lift2_eq]
  refine total.map fun r hr => ?_
  exact (WellShaped.of_isPlain hr.plain hr.inRange).dependingOn hr.plain
    (forall_mem_union hv.provenance hw.provenance)

theorem merge {v w : Value} (hv : v.Regular) (hw : w.Regular) :
    Ensures False Regular (v.merge w) := by
  rcases hv with rfl | hv
  · rw [nothing_merge]
    exact hw
  · rcases hw with rfl | hw
    · rw [merge_nothing]
      exact Or.inr hv
    · exact (hv.merge hw).imp fun _ => Or.inr

theorem text {v : Value} (hv : v.Regular) : ∃ t, v.text = .ok t := by
  rcases hv with rfl | hv
  · exact ⟨_, rfl⟩
  · exact hv.bounded.text

end Regular

/-- What a symbol may be bound to: a variable of it, or a phi of such and of `undetermined`. -/
def Binds (x : Symbol) (v : Value) : Prop :=
  v.isVarOf x = true ∨
    ∃ M, v = .phi M ∧ ∀ m ∈ M, m.isVarOf x = true ∨ m = .undetermined

theorem Binds.flatten {x : Symbol} {v : Value} (h : v = .undetermined ∨ Binds x v) :
    ∀ m ∈ flatten [v], m.isVarOf x = true ∨ m = .undetermined := by
  intro m hm
  rcases h with rfl | hvar | ⟨M, rfl, hM⟩
  · exact Or.inr (List.mem_singleton.mp hm)
  · cases v with
    | var y w D s =>
      cases List.mem_singleton.mp hm
      exact Or.inl hvar
    | _ => cases hvar
  · exact hM m (by simpa [Value.flatten] using hm)

theorem Binds.join {x : Symbol} {a b r : Value} (ha : a = .undetermined ∨ Binds x a)
    (hb : b = .undetermined ∨ Binds x b) (h : join [a, b] = .ok r) : Binds x r := by
  refine Or.inr ⟨_, (join_eq_ok h).2, fun m hm => ?_⟩
  have split : Value.flatten [a, b] = Value.flatten [a] ++ Value.flatten [b] :=
    flatten_append [a] [b]
  have hm := mem_distinct hm
  rw [split] at hm
  rcases List.mem_append.mp hm with hm | hm
  · exact Binds.flatten ha m hm
  · exact Binds.flatten hb m hm

/-- Neither `nothing` nor a value that is only computed from others can be bound. -/
theorem Binds.bindable {x : Symbol} {v : Value} (h : v = .undetermined ∨ Binds x v) :
    v.isNothing = false ∧ v.isPlainDependent = false := by
  rcases h with rfl | hvar | ⟨M, rfl, hM⟩
  · exact ⟨rfl, rfl⟩
  · cases v with
    | var y w D s => exact ⟨rfl, rfl⟩
    | _ => cases hvar
  · exact ⟨rfl, rfl⟩

theorem Binds.var {x y : Symbol} {v : Value} {D : List Value} {s : Option Expr}
    (h : Value.var y v D s = .undetermined ∨ Binds x (.var y v D s)) : y.same x = true := by
  rcases h with h | hvar | ⟨M, hM, -⟩
  · cases h
  · exact hvar
  · cases hM

theorem Binds.merge {x : Symbol} {a b r : Value} (ha : a = .undetermined ∨ Binds x a)
    (hb : b = .undetermined ∨ Binds x b) (bound : Binds x a ∨ Binds x b)
    (h : a.merge b = .ok r) : Binds x r := by
  have step := merge_case a b
  rw [h] at step
  generalize hm : Except.ok r = m at step
  cases step with
  | same hab =>
    cases hm
    rcases ha with rfl | ha
    · cases b with
      | undetermined =>
        rcases bound with bound | bound
        · exact bound
        · exact bound
      | _ => cases hab
    · exact ha
  | nothingLeft => cases (Binds.bindable ha).1
  | nothingRight => cases (Binds.bindable hb).1
  | absorbs hba =>
    cases hm
    rcases ha with rfl | ha
    · cases hba
    · exact ha
  | absorbed hab =>
    cases hm
    rcases hb with rfl | hb
    · cases hab
    · exact hb
  | vars =>
    cases hm
    exact Or.inl ((isVarOf_boundTo _ _ _ _ _).trans (Binds.var ha))
  | varDependent => cases (Binds.bindable hb).2
  | dependentVar => cases (Binds.bindable ha).2
  | dependents => cases (Binds.bindable ha).2
  | joined => exact Binds.join ha hb hm.symm
  | joinedBack => exact Binds.join hb ha hm.symm

end Value

namespace State

/-- Every symbol is bound to something in shape that it may be bound to. -/
def Good (s : State) : Prop := ∀ x v, s.get? x = some v → v.Binds x ∧ v.WellShaped

theorem good_empty : empty.Good := nofun

namespace Good

variable {s t : State}

theorem lookup_wellShaped (hs : s.Good) (x : Symbol) : (s.lookup x).WellShaped := by
  rw [lookup]
  cases h : s.get? x with
  | none => exact .undetermined
  | some v => exact (hs x v h).2

theorem lookup_binds (hs : s.Good) (x : Symbol) :
    s.lookup x = .undetermined ∨ (s.lookup x).Binds x := by
  rw [lookup]
  cases h : s.get? x with
  | none => exact Or.inl rfl
  | some v => exact Or.inr (hs x v h).1

theorem binds_of_contains (hs : s.Good) {x : Symbol} (h : s.contains x = true) :
    (s.lookup x).Binds x := (hs x _ (get?_eq_some_lookup h)).1

theorem assign (hs : s.Good) (x : Symbol) {v : Value} (hv : v.WellShaped)
    (source : Option Expr) : (s.assign x v source).Good := by
  intro y w hw
  rw [State.assign, get?_set] at hw
  split at hw
  · rename_i hxy
    cases hw
    refine ⟨Or.inl ?_, hv.boundTo (List.forall_mem_nil _) x source⟩
    rw [isVarOf_boundTo, hxy]
  · exact hs y w hw

theorem merge (hs : s.Good) (ht : t.Good) : Ensures False Good (s.merge t) := by
  have values : ∀ x, ∃ v, (s.lookup x).merge (t.lookup x) = .ok v ∧ v.WellShaped :=
    fun x => ((hs.lookup_wellShaped x).merge (ht.lookup_wellShaped x)).exists_ok
  obtain ⟨r, hr⟩ := (merge_ok_iff s t).mpr fun x => (values x).imp fun _ h => h.1
  rw [hr]
  intro x v hv
  have hx := merge_lookup hr x
  rw [lookup_of_get? hv] at hx
  have bound : (s.lookup x).Binds x ∨ (t.lookup x).Binds x := by
    have contained : r.contains x = true := by rw [contains, hv]; rfl
    rw [merge_contains hr, Bool.or_eq_true] at contained
    exact contained.imp hs.binds_of_contains ht.binds_of_contains
  obtain ⟨w, hw, shaped⟩ := values x
  rw [hx] at hw
  cases hw
  exact ⟨Binds.merge (hs.lookup_binds x) (ht.lookup_binds x) bound hx, shaped⟩

end Good

end State

end ValueFlow
