import ValueFlow.Proofs.Shapes
import ValueFlow.Proofs.StandardOperators

/-!
# Normal form

The values that can be built, from what has no parts by the constructors, by merging and by the
standard operators, are in normal form at every depth: provenance does not pile up in layers and is
never empty, a variable does not depend on itself, and a phi has two distinct members and none that
is a phi. Values in normal form can always be merged.

* `Normal.dependingOn`, `Normal.boundTo`, `Normal.shape`: the constructors keep the normal form.
* `Built.normal`: what can be built is in normal form.
-/

namespace ValueFlow.Value

inductive Normal : Value → Prop
  | const (c : Constant) : Normal (.const c)
  | dependent {v : Value} {D : List Value} (single : v.isPlainDependent = false)
      (nonempty : D ≠ []) (hv : Normal v) (hD : ∀ d ∈ D, Normal d) : Normal (.dependent v D)
  | var {x : Symbol} {v : Value} {D : List Value} {s : Option Expr}
      (free : ∀ d ∈ D, d.isVarOf x = false) (hv : Normal v) (hD : ∀ d ∈ D, Normal d) :
      Normal (.var x v D s)
  | external (r : Reference) : Normal (.external r)
  | phi {M : List Value} (plural : Plural M) (flat : ∀ m ∈ M, m.isPhi = false)
      (hM : ∀ m ∈ M, Normal m) : Normal (.phi M)
  | nothing : Normal .nothing
  | undetermined : Normal .undetermined

/-- What can be built, with dependencies that are built the same way. Joins, merges and operators
build something where they do not fail. -/
inductive Built : Value → Prop
  | const (c : Constant) : Built (.const c)
  | external (r : Reference) : Built (.external r)
  | nothing : Built .nothing
  | undetermined : Built .undetermined
  | dependingOn {v : Value} {D : List Value} (hv : Built v) (hD : ∀ d ∈ D, Built d) :
      Built (v.dependingOn D)
  | boundTo {v : Value} {D : List Value} (hv : Built v) (hD : ∀ d ∈ D, Built d) (x : Symbol)
      (source : Option Expr) : Built (v.boundTo x D source)
  | join {vs : List Value} {r : Value} (hvs : ∀ v ∈ vs, Built v) (hr : join vs = .ok r) : Built r
  | merge {a b r : Value} (ha : Built a) (hb : Built b) (hr : a.merge b = .ok r) : Built r
  | operator {op : Operator} {args : List Value} {r : Value}
      (hop : op ∈ OperatorTable.standard.entries) (hargs : ∀ a ∈ args, Built a)
      (hr : op.run args = .ok r) : Built r

namespace Normal

theorem of_isPlain {v : Value} (plain : v.isPlain = true) : v.Normal := by
  cases v with
  | const c => exact .const c
  | undetermined => exact .undetermined
  | _ => cases plain

theorem dependingOn {v : Value} (hv : v.Normal) {D : List Value} (hD : ∀ d ∈ D, d.Normal) :
    (v.dependingOn D).Normal := by
  by_cases empty : D = []
  · rw [empty, dependingOn_nil]
    exact hv
  have nonempty : distinct D ≠ [] := fun h => empty (distinct_eq_nil_iff.mp h)
  have hD : ∀ d ∈ distinct D, d.Normal := fun d hd => hD d (mem_distinct hd)
  cases layered : v.isPlainDependent with
  | false =>
    rw [dependingOn_of_not_dependent layered empty]
    exact .dependent layered nonempty hv hD
  | true =>
    cases hv with
    | @dependent w E single nonemptyE hw hE =>
      rw [dependingOn_dependent w E empty]
      exact .dependent single (union_ne_nil nonemptyE _) hw (forall_mem_union hE hD)
    | _ => cases layered

theorem var_without {v : Value} (hv : v.Normal) {D : List Value} (hD : ∀ d ∈ D, d.Normal)
    (x : Symbol) (source : Option Expr) : (Value.var x v (Value.without x D) source).Normal :=
  .var (fun _ hd => (mem_without hd).2) hv (forall_mem_without hD x)

theorem boundTo {v : Value} (hv : v.Normal) {D : List Value} (hD : ∀ d ∈ D, d.Normal)
    (x : Symbol) (source : Option Expr) : (v.boundTo x D source).Normal := by
  -- As for binding itself, the induction goes through the layers of variables only.
  induction hv generalizing x D source with
  | dependent single nonempty hw hE =>
    rw [boundTo_dependent]
    exact (hw.dependingOn (forall_mem_without hE x)).var_without hD x source
  | @var y w E s free hw hE ihw _ =>
    by_cases own : y.same x = true
    · rw [Value.boundTo]
      simp only [own, if_true]
      split
      · exact .var free hw hE
      · refine .var ?_ hw (forall_mem_union (forall_mem_without hD x) (forall_mem_without hE x))
        intro d hd
        rcases mem_union hd with hd | hd
        · exact (mem_without hd).2
        · exact (mem_without hd).2
    · rw [boundTo_other (Bool.eq_false_iff.mpr own)]
      exact (ihw (forall_mem_without hE x) y s).var_without hD x source
  | const c => exact (Normal.const c).var_without hD x source
  | external r => exact (Normal.external r).var_without hD x source
  | phi plural flat hM => exact (Normal.phi plural flat hM).var_without hD x source
  | nothing => exact Normal.nothing.var_without hD x source
  | undetermined => exact Normal.undetermined.var_without hD x source

theorem shape : Shape Normal where
  ofDependent h := by
    cases h with
    | dependent _ _ _ hD => exact hD
  ofVar h := by
    cases h with
    | var _ hv hD => exact ⟨hv, hD⟩
  ofPhi h := by
    cases h with
    | phi plural flat hM => exact ⟨plural, fun m hm => ⟨flat m hm, hM m hm⟩⟩
  dependingOn h hE := by
    cases h with
    | dependent _ _ hv _ => exact hv.dependingOn hE
  boundTo h hE source := by
    cases h with
    | var _ hv _ => exact hv.boundTo hE _ source
  phi plural hM := .phi plural (fun m hm => (hM m hm).1) fun m hm => (hM m hm).2

end Normal

theorem Built.normal {v : Value} (hv : v.Built) : v.Normal := by
  induction hv with
  | const c => exact .const c
  | external r => exact .external r
  | nothing => exact .nothing
  | undetermined => exact .undetermined
  | dependingOn _ _ hv hD => exact hv.dependingOn hD
  | boundTo _ _ x source hv hD => exact hv.boundTo hD x source
  | join _ hr hvs => exact Normal.shape.join_ok hvs hr
  | merge _ _ hr ha hb =>
    have merged := Normal.shape.merge ha hb
    rw [hr] at merged
    exact merged
  | operator hop _ hr hargs =>
    obtain ⟨c, D, plain, hD, rfl⟩ := OperatorTable.run_standard _ hop _ _ hr
    refine (Normal.of_isPlain plain).dependingOn fun d hd => ?_
    obtain ⟨a, ha, hda⟩ := hD d hd
    exact Normal.shape.provenance (hargs a ha) d hda

/-- What can be built is in normal form, and any two such values can be merged. -/
theorem Built.normal_and_merges {a b : Value} (ha : a.Built) (hb : b.Built) :
    a.Normal ∧ b.Normal ∧ ∃ r, a.merge b = .ok r ∧ r.Normal := by
  have merged := Normal.shape.merge ha.normal hb.normal
  exact ⟨ha.normal, hb.normal, merged.exists_ok⟩

/-- A variable that was computed from itself, where what it depends on is taken out and the layer of
provenance with it, meets a value computed from something unknown. -/
theorem Built.normal_and_merges_selfComputed :
    let x := Symbol.decl ⟨0, "x", .block⟩
    let a := ((Value.int 1).dependingOn [(Value.int 0).boundTo x [] none]).boundTo x [] none
    let b := (Value.int 2).dependingOn [.external (.text "f")]
    a.Built ∧ b.Built ∧ a.Normal ∧ b.Normal ∧ ∃ r, a.merge b = .ok r ∧ r.Normal := by
  intro x a b
  have empty := List.forall_mem_nil Built
  have old : ((Value.int 0).boundTo x [] none).Built := .boundTo (.const _) empty x none
  have ha : a.Built :=
    .boundTo (.dependingOn (.const _) (List.forall_mem_cons.mpr ⟨old, empty⟩)) empty x none
  have hb : b.Built :=
    .dependingOn (.const _) (List.forall_mem_cons.mpr ⟨.external _, empty⟩)
  exact ⟨ha, hb, Built.normal_and_merges ha hb⟩

end ValueFlow.Value
