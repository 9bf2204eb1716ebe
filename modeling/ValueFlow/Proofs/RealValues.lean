import ValueFlow.Proofs.Preservation
import ValueFlow.Proofs.Reports

/-!
# Real values

A value is real if all that is in it, at every depth, is a value. Real values are those that have a
text. What is computed, bound or merged from real values is real, so evaluation from a state of
real values meets no others, whether it fails or not.

* `Value.parts`: a value and all that is in it.
* `Value.text_iff_isReal`: the values that have a text.
* `IsReal.boundTo`, `IsReal.merge`: what is built from real values is real.
* `Invariant.real`: the operations of the evaluator keep values and states real.
-/

namespace ValueFlow

namespace Value

/-- The value and all values in it, at every depth. -/
def parts : Value → List Value
  | .dependent v D => .dependent v D :: (v.parts ++ partsOfAll D)
  | .var x v D s => .var x v D s :: (v.parts ++ partsOfAll D)
  | .phi M => .phi M :: partsOfAll M
  | v => [v]
where
  partsOfAll : List Value → List Value
    | [] => []
    | v :: vs => v.parts ++ partsOfAll vs

def isForeign : Value → Bool
  | .foreign _ => true
  | _ => false

def IsReal (v : Value) : Prop := ∀ p ∈ v.parts, p.isForeign = false

variable {v w : Value} {D M : List Value}

theorem partsOfAll_eq (D : List Value) : parts.partsOfAll D = D.flatMap parts := by
  induction D with
  | nil => rfl
  | cons d D ih => rw [parts.partsOfAll, ih, List.flatMap_cons]

theorem self_mem_parts (v : Value) : v ∈ v.parts := by
  cases v <;> simp [parts]

theorem mem_parts_dependent {p : Value} : p ∈ (Value.dependent v D).parts ↔
    p = .dependent v D ∨ p ∈ v.parts ∨ ∃ d ∈ D, p ∈ d.parts := by
  simp [parts, partsOfAll_eq]

theorem mem_parts_var {p : Value} {x : Symbol} {s : Option Expr} :
    p ∈ (Value.var x v D s).parts ↔ p = .var x v D s ∨ p ∈ v.parts ∨ ∃ d ∈ D, p ∈ d.parts := by
  simp [parts, partsOfAll_eq]

theorem mem_parts_phi {p : Value} :
    p ∈ (Value.phi M).parts ↔ p = .phi M ∨ ∃ m ∈ M, p ∈ m.parts := by
  simp [parts, partsOfAll_eq]

theorem isReal_iff_of_parts {u : Value} (here : u.isForeign = false)
    (h : ∀ p, p ∈ u.parts ↔ p = u ∨ p ∈ v.parts ∨ ∃ d ∈ D, p ∈ d.parts) :
    u.IsReal ↔ v.IsReal ∧ ∀ d ∈ D, d.IsReal := by
  simp only [IsReal, h]
  constructor
  · intro h
    exact ⟨fun p hp => h p (.inr (.inl hp)), fun d hd p hp => h p (.inr (.inr ⟨d, hd, hp⟩))⟩
  · rintro ⟨hv, hD⟩ p (rfl | hp | ⟨d, hd, hp⟩)
    · exact here
    · exact hv p hp
    · exact hD d hd p hp

theorem isReal_dependent :
    (Value.dependent v D).IsReal ↔ v.IsReal ∧ ∀ d ∈ D, d.IsReal :=
  isReal_iff_of_parts rfl fun _ => mem_parts_dependent

theorem isReal_var {x : Symbol} {s : Option Expr} :
    (Value.var x v D s).IsReal ↔ v.IsReal ∧ ∀ d ∈ D, d.IsReal :=
  isReal_iff_of_parts rfl fun _ => mem_parts_var

theorem isReal_phi : (Value.phi M).IsReal ↔ ∀ m ∈ M, m.IsReal := by
  simp only [IsReal, mem_parts_phi]
  constructor
  · exact fun h m hm p hp => h p (.inr ⟨m, hm, hp⟩)
  · rintro hM p (rfl | ⟨m, hm, hp⟩)
    · rfl
    · exact hM m hm p hp

/-- Only what is no value has no text. -/
theorem text_iff_isReal (v : Value) : (∃ t, v.text = .ok t) ↔ v.IsReal := by
  induction v using Value.induction with
  | dependent v D ihv ihD => rw [text_dependent_iff, isReal_dependent, ihv, forall₂_congr ihD]
  | var x v D s ihv ihD => rw [text_var_iff, isReal_var, ihv, forall₂_congr ihD]
  | phi M ihM => rw [text_phi_iff, isReal_phi, forall₂_congr ihM]
  | _ => simp [text, IsReal, parts, isForeign]

theorem isReal_of_single (single : v.parts = [v]) (h : v.isForeign = false) : v.IsReal := by
  intro p hp
  rw [single, List.mem_singleton] at hp
  rw [hp, h]

theorem isReal_of_isPlain (h : v.isPlain = true) : v.IsReal := by
  cases v with
  | const | undetermined => exact isReal_of_single rfl rfl
  | _ => cases h

namespace IsReal

theorem congr (hv : v.IsReal) (h : v.same w = true) : w.IsReal :=
  (text_iff_isReal w).mp (text_congr h ((text_iff_isReal v).mpr hv))

theorem provenance (hv : v.IsReal) : ∀ d ∈ v.provenance, d.IsReal := by
  cases v with
  | dependent w D => exact (isReal_dependent.mp hv).2
  | var x w D s =>
    refine forall_mem_union (isReal_var.mp hv).2 fun d hd => ?_
    rw [List.mem_singleton.mp hd]
    exact hv
  | _ => exact List.forall_mem_nil _

theorem dependingOn (hv : v.IsReal) (hD : ∀ d ∈ D, d.IsReal) : (v.dependingOn D).IsReal := by
  by_cases empty : D = []
  · rwa [empty, dependingOn_nil]
  have members : ∀ d ∈ distinct D, d.IsReal := fun d hd => hD d (mem_distinct hd)
  cases v with
  | dependent w E =>
    rw [dependingOn_dependent w E empty]
    obtain ⟨hw, hE⟩ := isReal_dependent.mp hv
    exact isReal_dependent.mpr ⟨hw, forall_mem_union hE members⟩
  | _ =>
    rw [dependingOn_of_not_dependent rfl empty]
    exact isReal_dependent.mpr ⟨hv, members⟩

theorem boundTo (hv : v.IsReal) (hD : ∀ d ∈ D, d.IsReal) (x : Symbol) (source : Option Expr) :
    (v.boundTo x D source).IsReal := by
  -- A variable of another symbol is rebound from the inside.
  induction v using Value.induction generalizing x D source with
  | dependent w E =>
    obtain ⟨hw, hE⟩ := isReal_dependent.mp hv
    rw [boundTo_dependent]
    exact isReal_var.mpr ⟨hw.dependingOn (forall_mem_without hE x), forall_mem_without hD x⟩
  | var y w E s ihw =>
    obtain ⟨hw, hE⟩ := isReal_var.mp hv
    cases hyx : y.same x with
    | true =>
      have bound := boundTo_own hyx w E s D source none
      refine congr (isReal_var.mpr ⟨hw, ?_⟩) (same_comm _ _ ▸ bound)
      exact forall_mem_union (forall_mem_without hD x) (forall_mem_without hE x)
    | false =>
      rw [boundTo_other hyx]
      exact isReal_var.mpr ⟨ihw hw (forall_mem_without hE x) y s, forall_mem_without hD x⟩
  | _ =>
    rw [boundTo_bare rfl]
    exact isReal_var.mpr ⟨hv, forall_mem_without hD x⟩

theorem join {vs : List Value} (hvs : ∀ v ∈ vs, v.IsReal) : Ensures True IsReal (join vs) := by
  refine Ensures.of_ok fun r hr => ?_
  obtain ⟨-, rfl⟩ := join_eq_ok hr
  refine isReal_phi.mpr fun m hm => ?_
  obtain ⟨v, hv, hm⟩ := List.mem_flatMap.mp (mem_distinct hm)
  cases v with
  | phi M => exact isReal_phi.mp (hvs _ hv) m hm
  | _ =>
    cases List.mem_singleton.mp hm
    exact hvs _ hv

theorem merge (hv : v.IsReal) (hw : w.IsReal) : Ensures True IsReal (v.merge w) := by
  have pair : ∀ {a b : Value}, a.IsReal → b.IsReal → ∀ u ∈ [a, b], u.IsReal := by
    intro a b ha hb
    simp [ha, hb]
  have step := merge_case v w
  generalize v.merge w = m at step
  cases step with
  | same | nothingRight | absorbs => exact hv
  | nothingLeft | absorbed => exact hw
  | vars =>
    obtain ⟨inner, hD⟩ := isReal_var.mp hv
    exact inner.boundTo (forall_mem_union hD (isReal_var.mp hw).2) _ _
  | varDependent =>
    obtain ⟨inner, hD⟩ := isReal_var.mp hv
    exact inner.boundTo (forall_mem_union hD (isReal_dependent.mp hw).2) _ _
  | dependentVar =>
    obtain ⟨inner, hD⟩ := isReal_var.mp hw
    exact inner.boundTo (forall_mem_union hD (isReal_dependent.mp hv).2) _ _
  | dependents =>
    obtain ⟨inner, hD⟩ := isReal_dependent.mp hv
    exact inner.dependingOn (forall_mem_union hD (isReal_dependent.mp hw).2)
  | joined => exact join (pair hv hw)
  | joinedBack => exact join (pair hw hv)

end IsReal

/-- What operators give depends on what their operands do. -/
theorem isReal_computed {r : Value} (plain : r.isPlain = true) (hD : ∀ d ∈ D, d.IsReal) :
    Invariant.Gives (fun _ _ => true) IsReal (r.dependingOn D) where
  keeps := (isReal_of_isPlain plain).dependingOn hD
  reachable := isReachable_dependingOn (isReachable_of_isAtom (isAtom_of_isPlain plain)) _
  may _ := rfl

end Value

/-- All symbols read as real values. -/
def State.IsReal (s : State) : Prop := ∀ x, (s.lookup x).IsReal

/-- No operation of the evaluator brings in what is no value. -/
theorem Invariant.real : Invariant True (fun _ _ => true) Value.IsReal State.IsReal where
  nothing := Value.isReal_of_single rfl rfl
  undetermined := Value.isReal_of_single rfl rfl
  external _ := Value.isReal_of_single rfl rfl
  entry _ := Value.isReal_of_single rfl rfl
  typeLiteral _ := Value.isReal_of_single rfl rfl
  lookup hs x := hs x
  assign := by
    intro s v hs hv _ x source _ y
    rw [State.lookup_assign]
    split
    · exact hv.boundTo (List.forall_mem_nil _) x source
    · exact hs y
  unary := by
    intro v hv op
    rw [lift1_eq]
    refine ((op.core_ensures v.core).weaken False.elim).map fun r hr => ?_
    exact Value.isReal_computed hr.plain hv.provenance
  binary := by
    intro v w hv hw op f hf
    rw [lift2_eq]
    refine ((op.core_ensures hf v.core w.core).weaken fun _ => trivial).map fun r hr => ?_
    exact Value.isReal_computed hr.plain (Value.forall_mem_union hv.provenance hw.provenance)
  mergeValues hv hw := hv.merge hw
  mergeStates := by
    intro s t hs ht
    refine Ensures.of_ok fun r hr x => ?_
    have merged := (hs x).merge (ht x)
    rw [State.merge_lookup hr x] at merged
    exact merged
  text _ := Ensures.any _

end ValueFlow
