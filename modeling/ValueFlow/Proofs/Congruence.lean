import ValueFlow.Proofs.Sameness

/-!
# Building values respects sameness

The constructors that keep values in shape give the same results for the same arguments. The source
of a binding is not compared, so it may differ; `boundTo` returns early on one that is absent, and
`boundTo_own` says that this makes no difference.

* `dependingOn_congr`, `boundTo_congr`: the wrapping constructors respect sameness.
* `join_of_plural`, `join_of_not_plural`: a join succeeds when two distinct values are left.
* `join_congr`: a join depends only on which values it is of.
-/

namespace ValueFlow.Value

theorem distinct_eq_nil_iff {D : List Value} : distinct D = [] ↔ D = [] := by
  constructor
  · intro h
    cases D with
    | nil => rfl
    | cons d D =>
      have present : hasSame (distinct (d :: D)) d = true := by simp [same_refl]
      rw [h] at present
      cases present
  · rintro rfl
    rfl

theorem union_ne_nil {D : List Value} (hD : D ≠ []) (E : List Value) : union D E ≠ [] := by
  intro hnil
  obtain ⟨d, hd⟩ := List.exists_mem_of_ne_nil D hD
  have present : hasSame (union D E) d = true := by simp [hasSame_of_mem hd]
  rw [hnil] at present
  cases present

theorem eq_nil_of_union {D E : List Value} (h : union D E = []) : D = [] ∧ E = [] := by
  have absent : ∀ v, (hasSame D v || hasSame E v) = false := by
    intro v
    rw [← hasSame_union, h]
    rfl
  constructor
  · refine List.eq_nil_iff_forall_not_mem.mpr fun d hd => ?_
    have none := absent d
    rw [hasSame_of_mem hd] at none
    cases none
  · refine List.eq_nil_iff_forall_not_mem.mpr fun e he => ?_
    have none := absent e
    rw [hasSame_of_mem he, Bool.or_true] at none
    cases none

theorem dependingOn_nil (v : Value) : v.dependingOn [] = v := rfl

theorem dependingOn_dependent (w : Value) (E : List Value) {D : List Value} (h : D ≠ []) :
    (Value.dependent w E).dependingOn D = .dependent w (union E (distinct D)) := by
  have hD : distinct D ≠ [] := fun hnil => h (distinct_eq_nil_iff.mp hnil)
  unfold dependingOn
  split
  · rename_i hnil
    exact absurd hnil hD
  · rfl

/-- Holds of a value computed from others that is not a variable. -/
def isPlainDependent : Value → Bool
  | .dependent .. => true
  | _ => false

theorem dependingOn_of_not_dependent {v : Value} (hv : v.isPlainDependent = false)
    {D : List Value} (h : D ≠ []) : v.dependingOn D = .dependent v (distinct D) := by
  have hD : distinct D ≠ [] := fun hnil => h (distinct_eq_nil_iff.mp hnil)
  unfold dependingOn
  split
  · rename_i hnil
    exact absurd hnil hD
  · cases v with
    | dependent w E => cases hv
    | _ => rfl

/-- Holds of what is known to be one value and has no parts. -/
def isAtom : Value → Bool
  | .const _ => true
  | .external _ => true
  | .undetermined => true
  | .foreign _ => true
  | _ => false

theorem isAtom_congr {v w : Value} (h : v.same w = true) : v.isAtom = w.isAtom := by
  cases v <;> cases w <;> simp_all [same, isAtom]

theorem isNothing_congr {v w : Value} (h : v.same w = true) : v.isNothing = w.isNothing := by
  cases v with
  | nothing =>
    cases w with
    | nothing => rfl
    | _ => cases h
  | _ =>
    cases w with
    | nothing => cases h
    | _ => rfl

theorem isDependent_of_isAtom {v : Value} (h : v.isAtom = true) : v.isDependent = false := by
  cases v with
  | dependent w D => cases h
  | var x w D s => cases h
  | _ => rfl

theorem isReachable_of_isAtom {v : Value} (h : v.isAtom = true) : v.isReachable = true := by
  cases v with
  | nothing => cases h
  | _ => rfl

theorem dependingOn_of_isAtom {v : Value} (h : v.isAtom = true) {D : List Value} (hD : D ≠ []) :
    v.dependingOn D = .dependent v (distinct D) := by
  refine dependingOn_of_not_dependent ?_ hD
  cases v with
  | dependent w E => cases h
  | _ => rfl

theorem core_dependingOn (v : Value) (D : List Value) : (v.dependingOn D).core = v.core := by
  by_cases hD : D = []
  · rw [hD, dependingOn_nil]
  cases v with
  | dependent w E =>
    rw [dependingOn_dependent w E hD]
    rfl
  | _ =>
    rw [dependingOn_of_not_dependent rfl hD]
    rfl

theorem isReachable_dependingOn_of_ne_nil (v : Value) {D : List Value} (hD : D ≠ []) :
    (v.dependingOn D).isReachable = true := by
  cases v with
  | dependent w E =>
    rw [dependingOn_dependent w E hD]
    rfl
  | _ =>
    rw [dependingOn_of_not_dependent rfl hD]
    rfl

theorem isReachable_dependingOn {v : Value} (h : v.isReachable = true) (D : List Value) :
    (v.dependingOn D).isReachable = true := by
  by_cases hD : D = []
  · rw [hD, dependingOn_nil]
    exact h
  · exact isReachable_dependingOn_of_ne_nil v hD

theorem isPlainDependent_congr {v w : Value} (h : v.same w = true) :
    v.isPlainDependent = w.isPlainDependent := by
  cases v with
  | dependent v D =>
    cases w with
    | dependent w E => rfl
    | _ => cases h
  | _ =>
    cases w with
    | dependent w E => cases h
    | _ => rfl

theorem eq_nil_of_sameSet {D E : List Value} (h : sameSet D E = true) : D = [] ↔ E = [] := by
  obtain ⟨sub, sup⟩ := sameSet_eq_true_iff.mp h
  constructor
  · rintro rfl
    cases E with
    | nil => rfl
    | cons e E =>
      obtain ⟨d, hd, _⟩ := sup e List.mem_cons_self
      exact absurd hd List.not_mem_nil
  · rintro rfl
    cases D with
    | nil => rfl
    | cons d D =>
      obtain ⟨e, he, _⟩ := sub d List.mem_cons_self
      exact absurd he List.not_mem_nil

theorem distinct_congr {D E : List Value} (h : sameSet D E = true) :
    sameSet (distinct D) (distinct E) = true := by
  simpa [sameSet_iff] using sameSet_iff.mp h

theorem union_congr {D D' E E' : List Value} (hD : sameSet D D' = true)
    (hE : sameSet E E' = true) : sameSet (union D E) (union D' E') = true := by
  rw [sameSet_iff] at *
  intro v
  rw [hasSame_union, hasSame_union, hD v, hE v]

theorem without_congr {x y : Symbol} (hxy : x.same y = true) {D E : List Value}
    (h : sameSet D E = true) : sameSet (without x D) (without y E) = true := by
  rw [sameSet_iff] at *
  intro v
  rw [hasSame_without, hasSame_without, h v, isVarOf_symbol hxy]

theorem dependingOn_congr {v w : Value} (hvw : v.same w = true) {D E : List Value}
    (h : sameSet D E = true) : (v.dependingOn D).same (w.dependingOn E) = true := by
  by_cases hD : D = []
  · have hE : E = [] := (eq_nil_of_sameSet h).mp hD
    rw [hD, hE]
    exact hvw
  have hE : E ≠ [] := fun hE => hD ((eq_nil_of_sameSet h).mpr hE)
  cases hv : v.isPlainDependent with
  | false =>
    have hw : w.isPlainDependent = false := isPlainDependent_congr hvw ▸ hv
    rw [dependingOn_of_not_dependent hv hD, dependingOn_of_not_dependent hw hE, same_dependent,
      hvw, distinct_congr h]
    rfl
  | true =>
    cases v with
    | dependent v F =>
      cases w with
      | dependent w G =>
        simp only [same_dependent, Bool.and_eq_true] at hvw
        rw [dependingOn_dependent v F hD, dependingOn_dependent w G hE, same_dependent, hvw.1,
          union_congr hvw.2 (distinct_congr h)]
        rfl
      | _ => cases hvw
    | _ => cases hv

theorem var_congr {x y : Symbol} (hxy : x.same y = true) {v w : Value} (hvw : v.same w = true)
    {D E : List Value} (h : sameSet D E = true) (s t : Option Expr) :
    (Value.var x v D s).same (.var y w E t) = true := by
  rw [same_var, hxy, hvw, h]
  rfl

/-- A variable bound to its own symbol again takes up the dependencies; returning it as it is makes
no difference. -/
theorem boundTo_own {x y : Symbol} (hyx : y.same x = true) (w : Value) (E : List Value)
    (s : Option Expr) (D : List Value) (source r : Option Expr) :
    ((Value.var y w E s).boundTo x D source).same
      (.var x w (union (without x D) (without x E)) r) = true := by
  rw [boundTo]
  simp only [hyx, if_true, equalSets_eq_sameSet]
  split
  · rename_i early
    have hDE := sameSet_iff.mp ((Bool.and_eq_true _ _).mp early).1
    rw [same_var, hyx, same_refl, Bool.true_and, Bool.true_and, sameSet_iff]
    intro v
    have hv := hDE v
    rw [hasSame_without] at hv
    rw [hasSame_union, hasSame_without, hasSame_without, ← hv]
    cases hasSame D v <;> cases v.isVarOf x <;> rfl
  · exact var_congr x.same_refl (same_refl w) (sameSet_refl _) _ _

theorem boundTo_other {x y : Symbol} (hyx : y.same x = false) (w : Value) (E : List Value)
    (s : Option Expr) (D : List Value) (source : Option Expr) :
    (Value.var y w E s).boundTo x D source =
      .var x (w.boundTo y (without x E) s) (without x D) source := by
  rw [boundTo]
  simp only [hyx, Bool.false_eq_true, if_false]

theorem boundTo_dependent (w : Value) (E : List Value) (x : Symbol) (D : List Value)
    (source : Option Expr) :
    (Value.dependent w E).boundTo x D source =
      .var x (w.dependingOn (without x E)) (without x D) source := rfl

theorem boundTo_bare {v : Value} (hv : v.isDependent = false) (x : Symbol) (D : List Value)
    (source : Option Expr) : v.boundTo x D source = .var x v (without x D) source := by
  cases v with
  | dependent w E => cases hv
  | var y w E s => cases hv
  | _ => rfl

theorem core_boundTo (v : Value) (x : Symbol) (D : List Value) (source : Option Expr) :
    (v.boundTo x D source).core = v.core := by
  induction v using Value.induction generalizing x D source with
  | dependent w E ihw => exact core_dependingOn w (without x E)
  | var y w E s ihw =>
    by_cases own : y.same x = true
    · rw [boundTo]
      simp only [own, if_true]
      split <;> rfl
    · rw [boundTo_other (Bool.eq_false_iff.mpr own)]
      exact ihw y (without x E) s
  | _ => rfl

theorem isDependent_congr {v w : Value} (h : v.same w = true) :
    v.isDependent = w.isDependent := by
  cases v <;> cases w <;> simp_all [same, isDependent]

theorem boundTo_congr {x y : Symbol} (hxy : x.same y = true) {v w : Value}
    (hvw : v.same w = true) {D E : List Value} (h : sameSet D E = true) (s t : Option Expr) :
    (v.boundTo x D s).same (w.boundTo y E t) = true := by
  induction v using Value.induction generalizing x y w D E s t with
  | dependent v F =>
    cases w with
    | dependent w G =>
      simp only [same_dependent, Bool.and_eq_true] at hvw
      have inner := dependingOn_congr hvw.1 (without_congr hxy hvw.2)
      rw [boundTo_dependent, boundTo_dependent]
      exact var_congr hxy inner (without_congr hxy h) s t
    | _ => cases hvw
  | var a v F r ihv =>
    cases w with
    | var b w G q =>
      simp only [same_var, Bool.and_eq_true] at hvw
      obtain ⟨⟨hab, hvw⟩, hFG⟩ := hvw
      have hby : b.same y = a.same x := by
        rw [Symbol.same_comm a x, Symbol.same_congr hab, Symbol.same_comm x b,
          Symbol.same_congr hxy]
      cases hax : a.same x with
      | true =>
        -- both sides are bound to their own symbol, and their dependencies are united
        have left := boundTo_own hax v F r D s none
        have right := boundTo_own (hby.trans hax) w G q E t none
        have middle : (Value.var x v (union (without x D) (without x F)) none).same
            (.var y w (union (without y E) (without y G)) none) = true :=
          var_congr hxy hvw (union_congr (without_congr hxy h) (without_congr hxy hFG)) none none
        exact same_trans left (same_trans middle (same_comm _ _ ▸ right))
      | false =>
        rw [boundTo_other hax, boundTo_other (hby.trans hax)]
        exact var_congr hxy (ihv hab hvw (without_congr hxy hFG) r q) (without_congr hxy h) s t
    | _ => cases hvw
  | _ =>
    have bare := isDependent_congr hvw
    rw [boundTo_bare rfl, boundTo_bare bare.symm]
    exact var_congr hxy hvw (without_congr hxy h) s t

/-- Two values of a list are distinct. -/
def Plural (D : List Value) : Prop := ∃ a ∈ D, ∃ b ∈ D, a.same b = false

theorem plural_iff {D : List Value} :
    Plural D ↔ ∃ a b, hasSame D a = true ∧ hasSame D b = true ∧ a.same b = false := by
  constructor
  · rintro ⟨a, ha, b, hb, hab⟩
    exact ⟨a, b, hasSame_of_mem ha, hasSame_of_mem hb, hab⟩
  · rintro ⟨a, b, ha, hb, hab⟩
    obtain ⟨d, hd, hda⟩ := hasSame_iff.mp ha
    obtain ⟨e, he, heb⟩ := hasSame_iff.mp hb
    exact ⟨d, hd, e, he, by rw [same_congr_left hda, same_congr_right heb, hab]⟩

theorem plural_congr {D E : List Value} (h : ∀ v, hasSame D v = hasSame E v) :
    Plural D ↔ Plural E := by
  simp only [plural_iff, h]

theorem insertNew_pairwise {D : List Value} (h : D.Pairwise fun a b => a.same b = false)
    (v : Value) : (insertNew D v).Pairwise fun a b => a.same b = false := by
  unfold insertNew
  split
  · exact h
  · rename_i absent
    refine List.pairwise_append.mpr ⟨h, List.pairwise_singleton _ _, ?_⟩
    intro d hd w hw
    rw [List.mem_singleton.mp hw]
    cases hdv : d.same v with
    | false => rfl
    | true => exact absurd (hasSame_iff.mpr ⟨d, hd, hdv⟩) absent

theorem distinct_pairwise (D : List Value) :
    (distinct D).Pairwise fun a b => a.same b = false := by
  have grow : ∀ E F : List Value, (F.Pairwise fun a b => a.same b = false) →
      (E.foldl insertNew F).Pairwise fun a b => a.same b = false := by
    intro E
    induction E with
    | nil => exact fun _ hF => hF
    | cons e E ih => exact fun F hF => ih (insertNew F e) (insertNew_pairwise hF e)
  rw [distinct, union_eq_foldl]
  exact grow D [] List.Pairwise.nil

theorem join_of_plural {vs : List Value} (h : Plural (flatten vs)) :
    join vs = .ok (.phi (distinct (flatten vs))) := by
  obtain ⟨a, ha, b, hb, hab⟩ := (plural_congr (hasSame_distinct (flatten vs))).mpr h
  unfold join
  split
  · rename_i hnil
    rw [hnil] at ha
    exact absurd ha List.not_mem_nil
  · rename_i c hone
    rw [hone, List.mem_singleton] at ha hb
    rw [ha, hb, same_refl] at hab
    cases hab
  · rfl

theorem join_of_not_plural {vs : List Value} (h : ¬ Plural (flatten vs)) :
    join vs = .error .phiArity := by
  unfold join
  split
  · rfl
  · rfl
  · rename_i hnil hone
    cases hD : distinct (flatten vs) with
    | nil => exact absurd hD hnil
    | cons a rest =>
      cases rest with
      | nil => exact absurd hD (hone a)
      | cons b rest =>
        have different := distinct_pairwise (flatten vs)
        rw [hD] at different
        have hab := (List.pairwise_cons.mp different).1 b List.mem_cons_self
        have two : Plural (distinct (flatten vs)) :=
          hD ▸ ⟨a, List.mem_cons_self, b, List.mem_cons_of_mem a List.mem_cons_self, hab⟩
        exact absurd ((plural_congr (hasSame_distinct (flatten vs))).mp two) h

theorem join_eq_ok {vs : List Value} {r : Value} (h : join vs = .ok r) :
    Plural (flatten vs) ∧ r = .phi (distinct (flatten vs)) := by
  by_cases two : Plural (flatten vs)
  · rw [join_of_plural two] at h
    exact ⟨two, (Except.ok.inj h).symm⟩
  · rw [join_of_not_plural two] at h
    cases h

end ValueFlow.Value

namespace ValueFlow

/-- Both computations give results that are the same, or both leave a phi with too few members. -/
def Alike {α : Type} (same : α → α → Bool) : Except Fault α → Except Fault α → Prop
  | .ok a, .ok b => same a b = true
  | .error e, .error f => e = .phiArity ∧ f = .phiArity
  | _, _ => False

namespace Value

theorem join_congr {vs ws : List Value}
    (h : ∀ v, hasSame (flatten vs) v = hasSame (flatten ws) v) :
    Alike same (join vs) (join ws) := by
  by_cases two : Plural (flatten vs)
  · rw [join_of_plural two, join_of_plural ((plural_congr h).mp two)]
    refine sameSet_iff.mpr fun v => ?_
    rw [hasSame_distinct, hasSame_distinct, h v]
  · rw [join_of_not_plural two, join_of_not_plural (fun hw => two ((plural_congr h).mpr hw))]
    exact ⟨rfl, rfl⟩

end Value

end ValueFlow
