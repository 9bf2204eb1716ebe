import Mathlib.Data.List.Forall2
import ValueFlow.Proofs.Interchange
import ValueFlow.Proofs.RealValues
import ValueFlow.Proofs.SignedZeros

/-!
# Texts of values that are the same

Sameness does not look at the names of symbols, at the sign of a zero or at the order in which a set
was built. A text shows names and signs, and shows sets in the order of the texts of their members.
So values that are the same have one text, at every depth, if symbols with one token have one name
and no zero is negative; distinct members may have one text, and it is shown for each of them.

* `Value.map_perm_of_sameSet`: sets that are the same have the same members up to order.
* `Legible.text_eq`: values that are the same have one text.
* `Bindings.forall₂_of_rel`: states that are the same have the same bindings at the same places.
-/

namespace ValueFlow

/-- The type that an entry belongs to. -/
def Symbol.enumType? : Symbol → Option String
  | .decl _ => none
  | .entry e => some e.enumType

namespace Value

/-- The set in a value: what it depends on, or its members. -/
def members : Value → List Value
  | .dependent _ D => D
  | .var _ _ D _ => D
  | .phi M => M
  | _ => []

/-- The symbol that a text shows by name. -/
def named? : Value → Option Symbol
  | .var x _ _ _ => some x
  | .const (.entry e) => some (.entry e)
  | _ => none

def reference? : Value → Option Reference
  | .external r => some r
  | _ => none

def isNegativeZero : Value → Bool
  | .const (.double x) => x == .zero true
  | _ => false

/-- The text of a value that has one. -/
def spelled (v : Value) : String := v.text.toOption.getD ""

variable {v w : Value} {D E M : List Value}

theorem parts_subset_of_mem {d : Value} (hd : d ∈ v.members) : d.parts ⊆ v.parts := by
  intro p hp
  cases v with
  | dependent v D => exact mem_parts_dependent.mpr (.inr (.inr ⟨d, hd, hp⟩))
  | var x v D s => exact mem_parts_var.mpr (.inr (.inr ⟨d, hd, hp⟩))
  | phi M => exact mem_parts_phi.mpr (.inr ⟨d, hd, hp⟩)
  | _ => cases hd

theorem text_eq_spelled (h : ∃ t, v.text = .ok t) : v.text = .ok v.spelled := by
  obtain ⟨t, ht⟩ := h
  rw [spelled, ht]
  rfl

theorem texts_eq_spelled (h : ∀ d ∈ D, ∃ t, d.text = .ok t) : texts D = .ok (D.map spelled) := by
  induction D with
  | nil => rfl
  | cons d D ih =>
    obtain ⟨hd, hD⟩ := List.forall_mem_cons.mp h
    rw [texts, text_eq_spelled hd, ih hD]
    rfl

/-- Sets that are the same have the same members up to order, so what does not tell members apart
that are the same gives one value as often on both. -/
theorem map_perm_of_sameSet {α : Type} {f : Value → α}
    (hD : D.Pairwise fun a b => a.same b = false) (hE : E.Pairwise fun a b => a.same b = false)
    (h : sameSet D E = true) (congr : ∀ d ∈ D, ∀ e ∈ E, d.same e = true → f d = f e) :
    (D.map f).Perm (E.map f) := by
  -- The first of `D` is the same as one of `E`; without the two the sets are the same again.
  induction D generalizing E with
  | nil =>
    cases E with
    | nil => exact .nil
    | cons e E =>
      obtain ⟨d, hd, -⟩ := (sameSet_eq_true_iff.mp h).2 e List.mem_cons_self
      cases hd
  | cons d D ih =>
    obtain ⟨sub, sup⟩ := sameSet_eq_true_iff.mp h
    obtain ⟨apart, hD⟩ := List.pairwise_cons.mp hD
    obtain ⟨e, he, hde⟩ := sub d List.mem_cons_self
    obtain ⟨before, after, rfl⟩ := List.append_of_mem he
    have moved : (before ++ e :: after).Perm (e :: (before ++ after)) := List.perm_middle
    obtain ⟨apart', hE⟩ := List.pairwise_cons.mp
      (hE.perm moved fun {a b} hab => (same_comm b a).trans hab)
    have rest : sameSet D (before ++ after) = true := by
      apply sameSet_eq_true_iff.mpr
      constructor
      · intro a ha
        obtain ⟨b, hb, hab⟩ := sub a (List.mem_cons_of_mem d ha)
        rcases List.mem_cons.mp (moved.mem_iff.mp hb) with rfl | hb
        · have twice := apart a ha
          rw [same_congr_left hde, same_comm, hab] at twice
          cases twice
        · exact ⟨b, hb, hab⟩
      · intro b hb
        obtain ⟨a, ha, hab⟩ := sup b (moved.mem_iff.mpr (List.mem_cons_of_mem e hb))
        rcases List.mem_cons.mp ha with rfl | ha
        · have twice := apart' b hb
          rw [← same_congr_left hde, hab] at twice
          cases twice
        · exact ⟨a, ha, hab⟩
    have inner := ih hD hE rest fun a ha b hb =>
      congr a (List.mem_cons_of_mem d ha) b (moved.mem_iff.mpr (List.mem_cons_of_mem e hb))
    rw [List.map_cons, congr d List.mem_cons_self e he hde]
    exact (inner.cons (f e)).trans (moved.map f).symm

/-- Texts are listed in one order, however often one occurs. -/
theorem listed_congr {ts us : List String} (h : ts.Perm us) : listed ts = listed us := by
  have sorted : ∀ l : List String,
      (l.mergeSort fun a b => decide (a ≤ b)).Pairwise fun a b => decide (a ≤ b) = true :=
    List.pairwise_mergeSort
      (fun a b c hab hbc => decide_eq_true
        (String.le_trans (of_decide_eq_true hab) (of_decide_eq_true hbc)))
      (fun a b => by simpa using String.le_total a b)
  have perm := (List.mergeSort_perm ts fun a b => decide (a ≤ b)).trans
    (h.trans (List.mergeSort_perm us fun a b => decide (a ≤ b)).symm)
  rw [listed, listed, perm.eq_of_pairwise (fun a b _ _ hab hba =>
    String.le_antisymm (of_decide_eq_true hab) (of_decide_eq_true hba)) (sorted ts) (sorted us)]

theorem dependingText_congr {ts us : List String} (h : ts.Perm us) :
    dependingText ts = dependingText us :=
  congrArg (fun l => " (depending on: " ++ l ++ ")") (listed_congr h)

end Value

/-- Some values with all that is in them, and the symbols that states bind values to, whose texts
show nothing that sameness does not look at. -/
structure Legible (parts : List Value) (keys : List Symbol) : Prop where
  /-- What is in a set is in it once. -/
  sets : ∀ p ∈ parts, p.members.Pairwise fun d e => d.same e = false
  /-- A token was issued once. -/
  names : ∀ x ∈ keys ++ parts.filterMap Value.named?, ∀ y ∈ keys ++ parts.filterMap Value.named?,
    x.token = y.token → x.name = y.name ∧ x.enumType? = y.enumType?
  /-- An identity is that of one node. -/
  nodes : ∀ r ∈ parts.filterMap Value.reference?, ∀ q ∈ parts.filterMap Value.reference?,
    r.same q = true → r = q
  zeros : ∀ p ∈ parts, p.isNegativeZero = false
  real : ∀ p ∈ parts, p.isForeign = false

namespace Legible

variable {parts : List Value} {keys : List Symbol} {a b v w : Value} {D E : List Value}

theorem text_real (legible : Legible parts keys) (ha : a.parts ⊆ parts) : ∃ t, a.text = .ok t :=
  (Value.text_iff_isReal a).mpr fun p hp => legible.real p (ha hp)

theorem named (legible : Legible parts keys) {x y : Symbol} (ha : a ∈ parts) (hb : b ∈ parts)
    (hx : a.named? = some x) (hy : b.named? = some y) (same : x.same y = true) :
    x.name = y.name ∧ x.enumType? = y.enumType? :=
  legible.names x (List.mem_append_right _ (List.mem_filterMap.mpr ⟨a, ha, hx⟩))
    y (List.mem_append_right _ (List.mem_filterMap.mpr ⟨b, hb, hy⟩)) (Symbol.token_eq_of_same same)

theorem text_const (legible : Legible parts keys) {c d : Constant} (hc : .const c ∈ parts)
    (hd : .const d ∈ parts) (same : c.same d = true) : c.text = d.text := by
  cases c with
  | double x =>
    cases d with
    | double y =>
      rcases Double.eq_or_zero_of_same same with rfl | ⟨s, t, rfl, rfl⟩
      · rfl
      · have sign : ∀ s, (Value.const (.double (.zero s))).isNegativeZero = s := by decide
        have hs := legible.zeros _ hc
        have ht := legible.zeros _ hd
        rw [sign] at hs ht
        rw [hs, ht]
    | _ => cases same
  | entry e =>
    cases d with
    | entry f =>
      obtain ⟨name, enumType⟩ := legible.named hc hd rfl rfl same
      have name : e.name = f.name := name
      have enumType : e.enumType = f.enumType := Option.some.inj enumType
      rw [Constant.text, Constant.text, EnumEntry.qualifiedName, EnumEntry.qualifiedName, name,
        enumType]
    | _ => cases same
  | _ => cases d <;> simp_all [Constant.same]

/-- Sets that are the same have the same texts up to order. -/
theorem texts_perm (legible : Legible parts keys) (ha : a.parts ⊆ parts) (hb : b.parts ⊆ parts)
    (h : Value.sameSet a.members b.members = true)
    (congr : ∀ d ∈ a.members, ∀ e, d.same e = true → d.parts ⊆ parts → e.parts ⊆ parts →
      d.text = e.text) :
    ∃ ts us, Value.texts a.members = .ok ts ∧ Value.texts b.members = .ok us ∧ ts.Perm us := by
  have inA : ∀ d ∈ a.members, d.parts ⊆ parts := fun d hd p hp =>
    ha (Value.parts_subset_of_mem hd hp)
  have inB : ∀ e ∈ b.members, e.parts ⊆ parts := fun e he p hp =>
    hb (Value.parts_subset_of_mem he hp)
  refine ⟨_, _, Value.texts_eq_spelled fun d hd => legible.text_real (inA d hd),
    Value.texts_eq_spelled fun e he => legible.text_real (inB e he), ?_⟩
  refine Value.map_perm_of_sameSet (legible.sets a (ha a.self_mem_parts))
    (legible.sets b (hb b.self_mem_parts)) h fun d hd e he same => ?_
  rw [Value.spelled, Value.spelled, congr d hd e same (inA d hd) (inB e he)]

/-- Values that are the same have one text. -/
theorem text_eq (legible : Legible parts keys) (same : a.same b = true) (ha : a.parts ⊆ parts)
    (hb : b.parts ⊆ parts) : a.text = b.text := by
  induction a using Value.induction generalizing b with
  | const c =>
    cases b with
    | const d =>
      exact congrArg Except.ok (legible.text_const (ha (Value.self_mem_parts _))
        (hb (Value.self_mem_parts _)) same)
    | _ => cases same
  | dependent v D ihv ihD =>
    cases b with
    | dependent w E =>
      rw [Value.same_dependent, Bool.and_eq_true] at same
      have inv : v.parts ⊆ parts := fun p hp => ha (Value.mem_parts_dependent.mpr (.inr (.inl hp)))
      have inw : w.parts ⊆ parts := fun p hp => hb (Value.mem_parts_dependent.mpr (.inr (.inl hp)))
      obtain ⟨t, ht⟩ := legible.text_real inw
      obtain ⟨ts, us, hts, hus, perm⟩ := legible.texts_perm ha hb same.2 fun d hd _ => ihD d hd
      change Value.texts D = .ok ts at hts
      change Value.texts E = .ok us at hus
      rw [Value.text, Value.text, ihv same.1 inv inw, ht, hts, hus]
      change Except.ok (t ++ Value.dependingText ts) = Except.ok (t ++ Value.dependingText us)
      rw [Value.dependingText_congr perm]
    | _ => cases same
  | var x v D s ihv ihD =>
    cases b with
    | var y w E r =>
      rw [Value.same_var, Bool.and_eq_true, Bool.and_eq_true] at same
      have inv : v.parts ⊆ parts := fun p hp => ha (Value.mem_parts_var.mpr (.inr (.inl hp)))
      have inw : w.parts ⊆ parts := fun p hp => hb (Value.mem_parts_var.mpr (.inr (.inl hp)))
      have name := (legible.named (ha (Value.self_mem_parts _)) (hb (Value.self_mem_parts _)) rfl rfl
        same.1.1).1
      obtain ⟨t, ht⟩ := legible.text_real inw
      obtain ⟨ts, us, hts, hus, perm⟩ := legible.texts_perm ha hb same.2 fun d hd _ => ihD d hd
      change Value.texts D = .ok ts at hts
      change Value.texts E = .ok us at hus
      rw [Value.text, Value.text, ihv same.1.2 inv inw, ht, hts, hus, name]
      simp only [bind, Except.bind, perm.isEmpty_eq, Value.dependingText_congr perm]
    | _ => cases same
  | external r =>
    cases b with
    | external q =>
      rw [legible.nodes r (List.mem_filterMap.mpr ⟨_, ha (Value.self_mem_parts _), rfl⟩) q
        (List.mem_filterMap.mpr ⟨_, hb (Value.self_mem_parts _), rfl⟩) same]
    | _ => cases same
  | phi M ihM =>
    cases b with
    | phi N =>
      obtain ⟨ts, us, hts, hus, perm⟩ := legible.texts_perm ha hb same fun d hd _ => ihM d hd
      change Value.texts M = .ok ts at hts
      change Value.texts N = .ok us at hus
      rw [Value.text, Value.text, hts, hus]
      simp only [bind, Except.bind, Value.listed_congr perm]
    | _ => cases same
  | foreign i => cases legible.real _ (ha (Value.self_mem_parts _))
  | nothing =>
    cases b with
    | nothing => rfl
    | _ => cases same
  | undetermined =>
    cases b with
    | undetermined => rfl
    | _ => cases same

end Legible

namespace Bindings

theorem get?_eq_none {x : Symbol} {bs : List (Symbol × Value)} (h : ∀ b ∈ bs, x.rank < b.1.rank) :
    get? x bs = none := by
  rw [← Option.not_isSome_iff_eq_none, get?_isSome]
  rintro ⟨k, hk, same⟩
  obtain ⟨b, hb, rfl⟩ := List.mem_map.mp hk
  rw [Symbol.same_eq_rank, beq_iff_eq] at same
  have := h b hb
  omega

theorem get?_head (x : Symbol) (v : Value) (bs : List (Symbol × Value)) :
    get? x ((x, v) :: bs) = some v := by
  rw [get?, if_pos (Symbol.same_refl x)]

/-- Bindings of the same symbols to the same values stand at the same places. -/
theorem forall₂_of_rel {bs cs : List (Symbol × Value)} (hb : Ordered bs) (hc : Ordered cs)
    (h : ∀ x, Option.Rel (fun v w => v.same w = true) (get? x bs) (get? x cs)) :
    List.Forall₂ (fun b c => b.1.same c.1 = true ∧ b.2.same c.2 = true) bs cs := by
  induction bs generalizing cs with
  | nil =>
    cases cs with
    | nil => exact .nil
    | cons c cs =>
      have bound := h c.1
      rw [get?_head] at bound
      cases bound
  | cons b bs ih =>
    obtain ⟨x, v⟩ := b
    cases cs with
    | nil =>
      have bound := h x
      rw [get?_head] at bound
      cases bound
    | cons c cs =>
      obtain ⟨y, w⟩ := c
      obtain ⟨after, hb⟩ := List.pairwise_cons.mp hb
      obtain ⟨after', hc⟩ := List.pairwise_cons.mp hc
      -- The symbol with the smaller rank would be bound on one side only.
      have rank : x.rank = y.rank := by
        rcases Nat.lt_trichotomy x.rank y.rank with lt | eq | lt
        · have bound := h x
          rw [get?_head, get?_eq_none
            (List.forall_mem_cons.mpr ⟨lt, fun c hc => Nat.lt_trans lt (after' c hc)⟩)] at bound
          cases bound
        · exact eq
        · have bound := h y
          rw [get?_head, get?_eq_none
            (List.forall_mem_cons.mpr ⟨lt, fun b hb => Nat.lt_trans lt (after b hb)⟩)] at bound
          cases bound
      have same : y.same x = true := by rw [Symbol.same_eq_rank, rank, beq_self_eq_true]
      have values : v.same w = true := by
        have bound := h x
        rw [get?_head, get?, if_pos same] at bound
        cases bound with
        | some hvw => exact hvw
      refine .cons ⟨Symbol.same_comm y x ▸ same, values⟩ (ih hb hc fun z => ?_)
      by_cases hz : x.rank = z.rank
      · have unbound : get? z bs = none := get?_eq_none fun b hb => hz ▸ after b hb
        have unbound' : get? z cs = none := get?_eq_none fun c hc => hz ▸ rank ▸ after' c hc
        rw [unbound, unbound']
        exact .none
      · have bound := h z
        simpa [get?, Symbol.same_eq_rank, hz, rank ▸ hz] using bound

end Bindings

namespace State

/-- The values bound in a state, with all that is in them. -/
def parts (s : State) : List Value := s.bindings.flatMap fun b => b.2.parts

theorem parts_subset {s : State} {b : Symbol × Value} (hb : b ∈ s.bindings) : b.2.parts ⊆ s.parts :=
  fun _ hp => List.mem_flatMap.mpr ⟨b, hb, hp⟩

theorem bindingTexts_total {bs : List (Symbol × Value)} (h : ∀ b ∈ bs, ∃ t, b.2.text = .ok t) :
    ∃ ts, bindingTexts bs = .ok ts := by
  induction bs with
  | nil => exact ⟨[], rfl⟩
  | cons b bs ih =>
    obtain ⟨⟨t, ht⟩, hbs⟩ := List.forall_mem_cons.mp h
    obtain ⟨ts, hts⟩ := ih hbs
    exact ⟨_, by rw [bindingTexts, ht, hts]; rfl⟩

end State

namespace Legible

variable {parts : List Value} {keys : List Symbol}

theorem bindingTexts_eq (legible : Legible parts keys) {bs cs : List (Symbol × Value)}
    (h : List.Forall₂ (fun b c => b.1.same c.1 = true ∧ b.2.same c.2 = true) bs cs)
    (hb : ∀ b ∈ bs, b.1 ∈ keys ∧ b.2.parts ⊆ parts) (hc : ∀ c ∈ cs, c.1 ∈ keys ∧ c.2.parts ⊆ parts) :
    State.bindingTexts bs = State.bindingTexts cs := by
  induction h with
  | nil => rfl
  | @cons b c bs cs same _ ih =>
    obtain ⟨inb, hb⟩ := List.forall_mem_cons.mp hb
    obtain ⟨inc, hc⟩ := List.forall_mem_cons.mp hc
    have name := (legible.names b.1 (List.mem_append_left _ inb.1) c.1
      (List.mem_append_left _ inc.1) (Symbol.token_eq_of_same same.1)).1
    rw [State.bindingTexts, State.bindingTexts, legible.text_eq same.2 inb.2 inc.2, name, ih hb hc]

end Legible

/-- What is the same has a text, and one text. -/
theorem text_of_same :
    (∀ a b : Value, a.same b = true → Legible (a.parts ++ b.parts) [] →
      ∃ t, a.text = .ok t ∧ b.text = .ok t) ∧
    ∀ s t : State, s.same t = true → Legible (s.parts ++ t.parts) (s.keys ++ t.keys) →
      ∃ r, s.text = .ok r ∧ t.text = .ok r := by
  constructor
  · intro a b same legible
    obtain ⟨t, ht⟩ := legible.text_real (List.subset_append_left a.parts b.parts)
    have eq := legible.text_eq same (List.subset_append_left _ _) (List.subset_append_right _ _)
    exact ⟨t, ht, eq ▸ ht⟩
  · intro s t same legible
    have places := Bindings.forall₂_of_rel s.ordered t.ordered (State.same_iff_rel.mp same)
    have ins : ∀ b ∈ s.bindings, b.1 ∈ s.keys ++ t.keys ∧ b.2.parts ⊆ s.parts ++ t.parts :=
      fun b hb => ⟨List.mem_append_left _ (List.mem_map_of_mem hb),
        fun p hp => List.mem_append_left _ (State.parts_subset hb hp)⟩
    have int : ∀ c ∈ t.bindings, c.1 ∈ s.keys ++ t.keys ∧ c.2.parts ⊆ s.parts ++ t.parts :=
      fun c hc => ⟨List.mem_append_right _ (List.mem_map_of_mem hc),
        fun p hp => List.mem_append_right _ (State.parts_subset hc hp)⟩
    obtain ⟨ts, hts⟩ := State.bindingTexts_total fun b hb => legible.text_real (ins b hb).2
    have eq := legible.bindingTexts_eq places ins int
    exact ⟨_, by rw [State.text, hts]; rfl, by rw [State.text, ← eq, hts]; rfl⟩

/-- A phi of three values with one core, one of which depends on two variables of one name and on
something external. -/
def threeOnes (reversed : Bool) : Value :=
  let x := Value.var (.decl ⟨1, "x", .block⟩) (.int 1) [] none
  let y := Value.var (.decl ⟨2, "x", .block⟩) (.int 1) [] none
  let f := Value.external (.node (.reference 7 "f" none))
  if reversed then .phi [.const (.int 1 4), .int 1, .dependent (.int 1) [f, y, x]]
  else .phi [.dependent (.int 1) [x, y, f], .int 1, .const (.int 1 4)]

/-- Binds two symbols, the first one last if `reversed`. -/
def bothBound (reversed : Bool) : State :=
  let x : Symbol := .decl ⟨3, "u", .block⟩
  let e : Symbol := .entry ⟨4, "RED", "Color"⟩
  if reversed then (State.empty.assign e .null none).assign x (threeOnes true) none
  else (State.empty.assign x (threeOnes false) none).assign e .null none

theorem text_of_same_shuffled :
    (threeOnes false).same (threeOnes true) = true ∧
    (∃ t, (threeOnes false).text = .ok t ∧ (threeOnes true).text = .ok t) ∧
    (bothBound false).same (bothBound true) = true ∧
    ∃ r, (bothBound false).text = .ok r ∧ (bothBound true).text = .ok r := by
  let f : Reference := .node (.reference 7 "f" none)
  have one : ∀ r ∈ [f, f], ∀ q ∈ [f, f], r.same q = true → r = q := by simp
  exact ⟨rfl, text_of_same.1 _ _ rfl ⟨by decide, by decide, one, by decide, by decide⟩, rfl,
    text_of_same.2 _ _ rfl ⟨by decide, by decide, one, by decide, by decide⟩⟩

end ValueFlow
