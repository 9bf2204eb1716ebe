import ValueFlow.Value.Build

/-!
# Sameness as an equivalence

Sets of values are compared member by member, and members again by their sets. Sameness is
nevertheless an equivalence, and so a set is determined by what it has up to sameness. All that is
proved about sets later goes through `hasSame`: what a union, a list without repetitions or a
filtered set has.

* `same_refl`, `same_comm`, `same_trans`: sameness is an equivalence.
* `sameSet_iff`: sets are the same when they have the same values.
* `hasSame_union`, `hasSame_distinct`, `hasSame_without`: what the operations on sets have.
-/

namespace ValueFlow

theorem Symbol.same_refl (x : Symbol) : x.same x = true := by simp [same_eq_rank]

theorem Symbol.same_comm (x y : Symbol) : x.same y = y.same x := by
  rw [same_eq_rank, same_eq_rank, Bool.beq_comm]

theorem Symbol.same_trans {x y z : Symbol} (hxy : x.same y = true) (hyz : y.same z = true) :
    x.same z = true := by
  simp only [same_eq_rank, beq_iff_eq] at *
  exact hxy.trans hyz

theorem Symbol.token_eq_of_same {x y : Symbol} (h : x.same y = true) : x.token = y.token := by
  cases x with
  | decl x =>
    cases y with
    | decl y => exact beq_iff_eq.mp h
    | entry f => cases h
  | entry e =>
    cases y with
    | decl y => cases h
    | entry f => exact beq_iff_eq.mp h

/-- Symbols that are the same are the same as the same symbols. -/
theorem Symbol.same_congr {x y : Symbol} (h : x.same y = true) (z : Symbol) :
    z.same x = z.same y := by
  simp only [same_eq_rank, beq_iff_eq] at *
  rw [h]

/-- The symbol is the same as one of the given ones. -/
def Symbol.isIn (x : Symbol) (X : List Symbol) : Bool := X.any fun y => y.same x

theorem Symbol.isIn_of_mem {x : Symbol} {X : List Symbol} (h : x ∈ X) : x.isIn X = true :=
  List.any_eq_true.mpr ⟨x, h, same_refl x⟩

theorem Symbol.isIn_mono {x : Symbol} {X Y : List Symbol} (sub : X ⊆ Y) (h : x.isIn X = true) :
    x.isIn Y = true := by
  obtain ⟨y, hy, hyx⟩ := List.any_eq_true.mp h
  exact List.any_eq_true.mpr ⟨y, sub hy, hyx⟩

theorem Symbol.isIn_congr {x y : Symbol} (h : x.same y = true) (X : List Symbol) :
    x.isIn X = y.isIn X := by
  simp only [isIn, same_congr h]

theorem Constant.same_refl (c : Constant) : c.same c = true := by
  cases c <;> simp [same, Double.same, EnumEntry.same]

theorem Constant.same_comm (c d : Constant) : c.same d = d.same c := by
  cases c <;> cases d <;>
    simp only [same, Double.same, EnumEntry.same, Bool.beq_comm]

theorem Constant.same_trans {c d e : Constant} (hcd : c.same d = true) (hde : d.same e = true) :
    c.same e = true := by
  cases c <;> cases d <;> cases e <;>
    simp_all [same, Double.same, EnumEntry.same]

theorem Reference.same_refl (r : Reference) : r.same r = true := by
  cases r <;> simp [same]

theorem Reference.same_comm (r s : Reference) : r.same s = s.same r := by
  cases r <;> cases s <;> simp only [same, Bool.beq_comm]

theorem Reference.same_trans {r s t : Reference} (hrs : r.same s = true) (hst : s.same t = true) :
    r.same t = true := by
  cases r <;> cases s <;> cases t <;> simp_all [same]

namespace Value

/-- Induction on a value, with the hypothesis at hand for all members of its sets. -/
@[elab_as_elim]
theorem induction {motive : Value → Prop}
    (const : ∀ c, motive (.const c))
    (dependent : ∀ v D, motive v → (∀ d ∈ D, motive d) → motive (.dependent v D))
    (var : ∀ x v D s, motive v → (∀ d ∈ D, motive d) → motive (.var x v D s))
    (external : ∀ r, motive (.external r))
    (phi : ∀ M, (∀ m ∈ M, motive m) → motive (.phi M))
    (nothing : motive .nothing)
    (undetermined : motive .undetermined)
    (foreign : ∀ i, motive (.foreign i))
    (v : Value) : motive v :=
  @Value.rec motive (fun D => ∀ d ∈ D, motive d) const dependent var external phi nothing
    undetermined foreign (fun _ hd => absurd hd List.not_mem_nil)
    (fun _ _ hv hvs => List.forall_mem_cons.mpr ⟨hv, hvs⟩) v

theorem same_dependent (v w : Value) (D E : List Value) :
    (Value.dependent v D).same (.dependent w E) = (v.same w && sameSet D E) := rfl

theorem same_var (x y : Symbol) (v w : Value) (D E : List Value) (s t : Option Expr) :
    (Value.var x v D s).same (.var y w E t) = (x.same y && v.same w && sameSet D E) := rfl

theorem same_phi (M N : List Value) : (Value.phi M).same (.phi N) = sameSet M N := rfl

theorem same_refl (v : Value) : v.same v = true := by
  have sets : ∀ D : List Value, (∀ d ∈ D, d.same d = true) → sameSet D D = true :=
    fun D h => sameSet_eq_true_iff.mpr ⟨fun d hd => ⟨d, hd, h d hd⟩, fun d hd => ⟨d, hd, h d hd⟩⟩
  induction v using Value.induction with
  | const c => exact Constant.same_refl c
  | dependent v D ihv ihD => simp [same_dependent, ihv, sets D ihD]
  | var x v D s ihv ihD => simp [same_var, Symbol.same_refl, ihv, sets D ihD]
  | external r => exact Reference.same_refl r
  | phi M ihM => exact sets M ihM
  | nothing => rfl
  | undetermined => rfl
  | foreign i => simp [same]

theorem sameSet_comm_of_mem {D : List Value} (h : ∀ d ∈ D, ∀ e : Value, d.same e = e.same d)
    (E : List Value) : sameSet D E = sameSet E D := by
  rw [Bool.eq_iff_iff, sameSet_eq_true_iff, sameSet_eq_true_iff]
  constructor
  · rintro ⟨sub, sup⟩
    refine ⟨fun e he => ?_, fun d hd => ?_⟩
    · obtain ⟨d, hd, hde⟩ := sup e he
      exact ⟨d, hd, h d hd e ▸ hde⟩
    · obtain ⟨e, he, hde⟩ := sub d hd
      exact ⟨e, he, h d hd e ▸ hde⟩
  · rintro ⟨sub, sup⟩
    refine ⟨fun d hd => ?_, fun e he => ?_⟩
    · obtain ⟨e, he, hed⟩ := sup d hd
      exact ⟨e, he, (h d hd e).trans hed⟩
    · obtain ⟨d, hd, hed⟩ := sub e he
      exact ⟨d, hd, (h d hd e).trans hed⟩

theorem same_comm (v w : Value) : v.same w = w.same v := by
  induction v using Value.induction generalizing w with
  | const c =>
    cases w with
    | const d => exact Constant.same_comm c d
    | _ => rfl
  | dependent v D ihv ihD =>
    cases w with
    | dependent w E => rw [same_dependent, same_dependent, ihv, sameSet_comm_of_mem ihD]
    | _ => rfl
  | var x v D s ihv ihD =>
    cases w with
    | var y w E t => rw [same_var, same_var, Symbol.same_comm, ihv, sameSet_comm_of_mem ihD]
    | _ => rfl
  | external r =>
    cases w with
    | external s => exact Reference.same_comm r s
    | _ => rfl
  | phi M ihM =>
    cases w with
    | phi N => rw [same_phi, same_phi, sameSet_comm_of_mem ihM]
    | _ => rfl
  | nothing => cases w <;> rfl
  | undetermined => cases w <;> rfl
  | foreign i =>
    cases w with
    | foreign j => simp only [same, Bool.beq_comm]
    | _ => rfl

theorem sameSet_trans_of_mem {D E F : List Value}
    (h : ∀ d ∈ D, ∀ e f : Value, d.same e = true → e.same f = true → d.same f = true)
    (hDE : sameSet D E = true) (hEF : sameSet E F = true) : sameSet D F = true := by
  obtain ⟨subDE, supDE⟩ := sameSet_eq_true_iff.mp hDE
  obtain ⟨subEF, supEF⟩ := sameSet_eq_true_iff.mp hEF
  refine sameSet_eq_true_iff.mpr ⟨fun d hd => ?_, fun f hf => ?_⟩
  · obtain ⟨e, he, hde⟩ := subDE d hd
    obtain ⟨f, hf, hef⟩ := subEF e he
    exact ⟨f, hf, h d hd e f hde hef⟩
  · obtain ⟨e, he, hef⟩ := supEF f hf
    obtain ⟨d, hd, hde⟩ := supDE e he
    exact ⟨d, hd, h d hd e f hde hef⟩

theorem same_trans {v w u : Value} (hvw : v.same w = true) (hwu : w.same u = true) :
    v.same u = true := by
  induction v using Value.induction generalizing w u with
  | const c =>
    cases w with
    | const d =>
      cases u with
      | const e => exact Constant.same_trans hvw hwu
      | _ => cases hwu
    | _ => cases hvw
  | dependent v D ihv ihD =>
    cases w with
    | dependent w E =>
      cases u with
      | dependent u F =>
        simp only [same_dependent, Bool.and_eq_true] at *
        exact ⟨ihv hvw.1 hwu.1,
          sameSet_trans_of_mem (fun d hd _ _ => ihD d hd) hvw.2 hwu.2⟩
      | _ => cases hwu
    | _ => cases hvw
  | var x v D s ihv ihD =>
    cases w with
    | var y w E t =>
      cases u with
      | var z u F r =>
        simp only [same_var, Bool.and_eq_true] at *
        exact ⟨⟨Symbol.same_trans hvw.1.1 hwu.1.1, ihv hvw.1.2 hwu.1.2⟩,
          sameSet_trans_of_mem (fun d hd _ _ => ihD d hd) hvw.2 hwu.2⟩
      | _ => cases hwu
    | _ => cases hvw
  | external r =>
    cases w with
    | external s =>
      cases u with
      | external t => exact Reference.same_trans hvw hwu
      | _ => cases hwu
    | _ => cases hvw
  | phi M ihM =>
    cases w with
    | phi N =>
      cases u with
      | phi O => exact sameSet_trans_of_mem (fun m hm _ _ => ihM m hm) hvw hwu
      | _ => cases hwu
    | _ => cases hvw
  | nothing =>
    cases w with
    | nothing => exact hwu
    | _ => cases hvw
  | undetermined =>
    cases w with
    | undetermined => exact hwu
    | _ => cases hvw
  | foreign i =>
    cases w with
    | foreign j =>
      cases u with
      | foreign k =>
        simp only [same, beq_iff_eq] at *
        exact hvw.trans hwu
      | _ => cases hwu
    | _ => cases hvw

/-- Values that are the same are the same as the same values. -/
theorem same_congr_left {v w : Value} (h : v.same w = true) (u : Value) : v.same u = w.same u := by
  rw [Bool.eq_iff_iff]
  constructor
  · intro hvu
    exact same_trans (same_comm v w ▸ h) hvu
  · intro hwu
    exact same_trans h hwu

theorem same_congr_right {v w : Value} (h : v.same w = true) (u : Value) : u.same v = u.same w := by
  rw [same_comm u v, same_comm u w, same_congr_left h]

theorem hasSame_iff {D : List Value} {v : Value} :
    hasSame D v = true ↔ ∃ d ∈ D, d.same v = true := by
  simp [hasSame_eq]

theorem hasSame_of_mem {D : List Value} {d : Value} (hd : d ∈ D) : hasSame D d = true :=
  hasSame_iff.mpr ⟨d, hd, same_refl d⟩

theorem hasSame_congr (D : List Value) {v w : Value} (h : v.same w = true) :
    hasSame D v = hasSame D w := by
  simp only [hasSame_eq, same_congr_right h]

theorem sameSet_iff {D E : List Value} :
    sameSet D E = true ↔ ∀ v, hasSame D v = hasSame E v := by
  rw [sameSet_eq_true_iff]
  constructor
  · rintro ⟨sub, sup⟩ v
    rw [Bool.eq_iff_iff, hasSame_iff, hasSame_iff]
    constructor
    · rintro ⟨d, hd, hdv⟩
      obtain ⟨e, he, hde⟩ := sub d hd
      exact ⟨e, he, same_congr_left hde v ▸ hdv⟩
    · rintro ⟨e, he, hev⟩
      obtain ⟨d, hd, hde⟩ := sup e he
      exact ⟨d, hd, same_trans hde hev⟩
  · intro h
    refine ⟨fun d hd => ?_, fun e he => ?_⟩
    · obtain ⟨e, he, hed⟩ := hasSame_iff.mp (h d ▸ hasSame_of_mem hd)
      exact ⟨e, he, same_comm e d ▸ hed⟩
    · exact hasSame_iff.mp ((h e).trans (hasSame_of_mem he))

theorem sameSet_refl (D : List Value) : sameSet D D = true :=
  sameSet_iff.mpr fun _ => rfl

@[simp] theorem hasSame_nil (v : Value) : hasSame [] v = false := rfl

@[simp] theorem hasSame_cons (d : Value) (D : List Value) (v : Value) :
    hasSame (d :: D) v = (d.same v || hasSame D v) := rfl

@[simp] theorem hasSame_append (D E : List Value) (v : Value) :
    hasSame (D ++ E) v = (hasSame D v || hasSame E v) := by
  simp [hasSame_eq]

theorem hasSame_insertNew (D : List Value) (e v : Value) :
    hasSame (insertNew D e) v = (hasSame D v || e.same v) := by
  unfold insertNew
  split
  · -- `e` is not added, as `D` has it already
    rename_i present
    cases hev : e.same v with
    | false => rw [Bool.or_false]
    | true => rw [Bool.or_true, ← hasSame_congr D hev, present]
  · rw [hasSame_append, hasSame_cons, hasSame_nil, Bool.or_false]

@[simp] theorem hasSame_union (D E : List Value) (v : Value) :
    hasSame (union D E) v = (hasSame D v || hasSame E v) := by
  rw [union_eq_foldl]
  induction E generalizing D with
  | nil => rw [List.foldl_nil, hasSame_nil, Bool.or_false]
  | cons e E ih =>
    rw [List.foldl_cons, ih, hasSame_insertNew, hasSame_cons, Bool.or_assoc]

@[simp] theorem hasSame_distinct (D : List Value) (v : Value) :
    hasSame (distinct D) v = hasSame D v := by
  rw [distinct, hasSame_union, hasSame_nil, Bool.false_or]

theorem mem_insertNew {D : List Value} {e v : Value} (h : v ∈ insertNew D e) : v ∈ D ∨ v = e := by
  unfold insertNew at h
  split at h
  · exact Or.inl h
  · simpa using h

theorem mem_union {D E : List Value} {v : Value} (h : v ∈ union D E) : v ∈ D ∨ v ∈ E := by
  rw [union_eq_foldl] at h
  induction E generalizing D with
  | nil => exact Or.inl h
  | cons e E ih =>
    rcases ih h with old | rest
    · rcases mem_insertNew old with hD | rfl
      · exact Or.inl hD
      · exact Or.inr List.mem_cons_self
    · exact Or.inr (List.mem_cons_of_mem e rest)

theorem mem_distinct {D : List Value} {v : Value} (h : v ∈ distinct D) : v ∈ D := by
  rcases mem_union h with hnil | hD
  · exact absurd hnil List.not_mem_nil
  · exact hD

theorem isVarOf_congr (x : Symbol) {v w : Value} (h : v.same w = true) :
    v.isVarOf x = w.isVarOf x := by
  cases v with
  | var y v D s =>
    cases w with
    | var z w E t =>
      simp only [same_var, Bool.and_eq_true] at h
      rw [isVarOf, isVarOf, Symbol.same_comm, Symbol.same_congr h.1.1, Symbol.same_comm]
    | _ => cases h
  | _ =>
    cases w with
    | var z w E t => cases h
    | _ => rfl

theorem isVarOf_symbol {x y : Symbol} (h : x.same y = true) (v : Value) :
    v.isVarOf x = v.isVarOf y := by
  cases v with
  | var z v D s => exact Symbol.same_congr h z
  | _ => rfl

@[simp] theorem hasSame_without (x : Symbol) (D : List Value) (v : Value) :
    hasSame (without x D) v = (hasSame D v && !v.isVarOf x) := by
  rw [without, hasSame_distinct, Bool.eq_iff_iff, Bool.and_eq_true, hasSame_iff, hasSame_iff]
  constructor
  · rintro ⟨d, hd, hdv⟩
    obtain ⟨hd, hx⟩ := List.mem_filter.mp hd
    exact ⟨⟨d, hd, hdv⟩, isVarOf_congr x hdv ▸ hx⟩
  · rintro ⟨⟨d, hd, hdv⟩, hx⟩
    exact ⟨d, List.mem_filter.mpr ⟨hd, by rw [isVarOf_congr x hdv, hx]⟩, hdv⟩

theorem mem_without {x : Symbol} {D : List Value} {d : Value} (h : d ∈ without x D) :
    d ∈ D ∧ d.isVarOf x = false := by
  obtain ⟨hd, hx⟩ := List.mem_filter.mp (mem_distinct h)
  exact ⟨hd, by simpa using hx⟩

end Value

end ValueFlow
