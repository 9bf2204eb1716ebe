import ValueFlow.Proofs.OperatorExpressions

/-!
# The symbols in a value

A value mentions the symbols of all variables that it is made of, at every depth. Binding a value
takes the variables of the bound symbol out of what it depends on, and with them all that only they
mention. A value is settled for a symbol if binding it to the symbol finds nothing to take out.

* `mentions_congr`: values that are the same mention the same symbols.
* `Settled.boundTo`: binding a settled value keeps the symbols that it tracks.
* `boundTo_computed`: what is left of a computed value that is bound.
-/

namespace ValueFlow.Value

def symbols : Value → List Symbol
  | .dependent v D => v.symbols ++ symbolsOfAll D
  | .var x v D _ => x :: (v.symbols ++ symbolsOfAll D)
  | .phi M => symbolsOfAll M
  | _ => []
where
  symbolsOfAll : List Value → List Symbol
    | [] => []
    | v :: vs => v.symbols ++ symbolsOfAll vs

def mentions (v : Value) (z : Symbol) : Bool := v.symbols.any fun x => x.same z

theorem any_symbolsOfAll (D : List Value) (z : Symbol) :
    ((symbols.symbolsOfAll D).any fun x => x.same z) = D.any fun d => d.mentions z := by
  induction D with
  | nil => rfl
  | cons d D ih => rw [symbols.symbolsOfAll, List.any_append, ih, List.any_cons, mentions]

theorem mentions_dependent (v : Value) (D : List Value) (z : Symbol) :
    (Value.dependent v D).mentions z = (v.mentions z || D.any fun d => d.mentions z) := by
  rw [mentions, symbols, List.any_append, any_symbolsOfAll, ← mentions]

theorem mentions_var (x : Symbol) (v : Value) (D : List Value) (s : Option Expr) (z : Symbol) :
    (Value.var x v D s).mentions z =
      (x.same z || (v.mentions z || D.any fun d => d.mentions z)) := by
  rw [mentions, symbols, List.any_cons, List.any_append, any_symbolsOfAll, ← mentions]

theorem mentions_phi (M : List Value) (z : Symbol) :
    (Value.phi M).mentions z = M.any fun m => m.mentions z := by
  rw [mentions, symbols, any_symbolsOfAll]

theorem any_mentions_congr {D E : List Value} {z : Symbol}
    (ih : ∀ d ∈ D, ∀ e : Value, d.same e = true → d.mentions z = e.mentions z)
    (h : sameSet D E = true) : (D.any fun d => d.mentions z) = E.any fun e => e.mentions z := by
  obtain ⟨sub, sup⟩ := sameSet_eq_true_iff.mp h
  rw [Bool.eq_iff_iff, List.any_eq_true, List.any_eq_true]
  constructor
  · rintro ⟨d, hd, hz⟩
    obtain ⟨e, he, hde⟩ := sub d hd
    exact ⟨e, he, ih d hd e hde ▸ hz⟩
  · rintro ⟨e, he, hz⟩
    obtain ⟨d, hd, hde⟩ := sup e he
    exact ⟨d, hd, (ih d hd e hde).trans hz⟩

theorem mentions_congr {v w : Value} (h : v.same w = true) (z : Symbol) :
    v.mentions z = w.mentions z := by
  induction v using Value.induction generalizing w with
  | dependent v D ihv ihD =>
    cases w with
    | dependent w E =>
      simp only [same_dependent, Bool.and_eq_true] at h
      rw [mentions_dependent, mentions_dependent, ihv h.1,
        any_mentions_congr (fun d hd e => ihD d hd) h.2]
    | _ => cases h
  | var x v D s ihv ihD =>
    cases w with
    | var y w E t =>
      simp only [same_var, Bool.and_eq_true] at h
      obtain ⟨⟨hxy, hvw⟩, hDE⟩ := h
      rw [mentions_var, mentions_var, ihv hvw, any_mentions_congr (fun d hd e => ihD d hd) hDE,
        Symbol.same_comm x, Symbol.same_comm y, Symbol.same_congr hxy z]
    | _ => cases h
  | phi M ihM =>
    cases w with
    | phi N =>
      rw [mentions_phi, mentions_phi, any_mentions_congr (fun m hm n => ihM m hm) h]
    | _ => cases h
  | _ =>
    cases w with
    | dependent | var | phi => cases h
    | _ => rfl

theorem any_mentions_of_hasSame {D : List Value} {d : Value} {z : Symbol}
    (hd : hasSame D d = true) (hz : d.mentions z = true) :
    (D.any fun d => d.mentions z) = true := by
  obtain ⟨e, he, hed⟩ := hasSame_iff.mp hd
  exact List.any_eq_true.mpr ⟨e, he, (mentions_congr hed z).trans hz⟩

/-- A value shows that it was copied from a variable of `z`, or was computed from something that
mentions `z`. What a variable depends on besides does not count: binding the variable to another
symbol can take it out. -/
def tracks (z : Symbol) : Value → Bool
  | .dependent v D => v.tracks z || D.any fun d => d.mentions z
  | .var x v _ _ => x.same z || v.tracks z
  | _ => false

theorem mentions_of_tracks {v : Value} {z : Symbol} (h : v.tracks z = true) :
    v.mentions z = true := by
  induction v using Value.induction with
  | dependent v D ihv =>
    rw [mentions_dependent, Bool.or_eq_true]
    rcases (Bool.or_eq_true _ _).mp h with h | h
    · exact Or.inl (ihv h)
    · exact Or.inr h
  | var x v D s ihv =>
    rw [mentions_var, Bool.or_eq_true, Bool.or_eq_true]
    rcases (Bool.or_eq_true _ _).mp h with h | h
    · exact Or.inl h
    · exact Or.inr (Or.inl (ihv h))
  | _ => cases h

theorem not_mentions_of_isAtom {v : Value} (h : v.isAtom = true) (z : Symbol) :
    v.mentions z = false := by
  cases v with
  | dependent | var | phi => cases h
  | _ => rfl

theorem not_tracks_of_isAtom {v : Value} (h : v.isAtom = true) (z : Symbol) :
    v.tracks z = false := by
  cases v with
  | dependent | var => cases h
  | _ => rfl

/-- A computed value tracks all that it mentions. -/
theorem tracks_dependingOn {r : Value} (atom : r.isAtom = true) (D : List Value) (z : Symbol) :
    (r.dependingOn D).tracks z = (r.dependingOn D).mentions z := by
  by_cases empty : D = []
  · rw [empty, dependingOn_nil, not_tracks_of_isAtom atom, not_mentions_of_isAtom atom]
  · rw [dependingOn_of_isAtom atom empty, mentions_dependent, tracks, not_tracks_of_isAtom atom,
      not_mentions_of_isAtom atom]

theorem mentions_dependingOn_of_hasSame {r : Value} (atom : r.isAtom = true) {D : List Value}
    {d : Value} (hd : hasSame D d = true) {z : Symbol} (hz : d.mentions z = true) :
    (r.dependingOn D).mentions z = true := by
  by_cases empty : D = []
  · rw [empty] at hd
    cases hd
  · rw [dependingOn_of_isAtom atom empty, mentions_dependent, Bool.or_eq_true]
    exact Or.inr (any_mentions_of_hasSame (by rwa [hasSame_distinct]) hz)

/-- Binding the value to `a` takes nothing out of it: not out of what it was computed from, nor out
of what the variables in it, layer by layer, were. -/
inductive Settled : Symbol → Value → Prop
  | atom {a : Symbol} {v : Value} (h : v.isAtom = true) : Settled a v
  | dependent {a : Symbol} {r : Value} {E : List Value} (hr : r.isAtom = true)
      (free : ∀ d ∈ E, d.isVarOf a = false) : Settled a (.dependent r E)
  | var {a b : Symbol} {u : Value} {F : List Value} {s : Option Expr} (hu : Settled b u) :
      Settled a (.var b u F s)

/-- A variable of `a` that holds a settled value. -/
inductive IsBinding (a : Symbol) : Value → Prop
  | var {x : Symbol} {w : Value} {D : List Value} {s : Option Expr} (hx : x.same a = true)
      (hw : Settled x w) : IsBinding a (.var x w D s)

namespace IsBinding

variable {a b : Symbol} {v : Value}

theorem congr (hab : a.same b = true) (hv : IsBinding a v) : IsBinding b v := by
  cases hv with
  | var hx hw => exact .var (Symbol.same_trans hx hab) hw

theorem settled (hv : IsBinding a v) (b : Symbol) : Settled b v := by
  cases hv with
  | var hx hw => exact .var hw

theorem isReachable (hv : IsBinding a v) : v.isReachable = true := by
  cases hv with
  | var hx hw => rfl

theorem isVarOf (hv : IsBinding a v) (b : Symbol) : v.isVarOf b = a.same b := by
  cases hv with
  | @var x w D s hx hw =>
    show x.same b = a.same b
    rw [Symbol.same_comm x, Symbol.same_comm a, Symbol.same_congr hx]

theorem hasSame_provenance (hv : IsBinding a v) : hasSame v.provenance v = true := by
  cases hv with
  | var hx hw => simp [provenance, same_refl]

theorem tracks_own (hv : IsBinding a v) {z : Symbol} (haz : a.same z = true) :
    v.tracks z = true := by
  cases hv with
  | var hx hw => rw [tracks, Symbol.same_trans hx haz, Bool.true_or]

end IsBinding

namespace Settled

theorem congr {a b : Symbol} (hab : a.same b = true) {v : Value} (hv : Settled a v) :
    Settled b v := by
  cases hv with
  | atom h => exact .atom h
  | dependent hr free =>
    refine .dependent hr fun d hd => ?_
    rw [← isVarOf_symbol hab, free d hd]
  | var hu => exact .var hu

theorem dependingOn {a : Symbol} {r : Value} (atom : r.isAtom = true) {E : List Value}
    (free : ∀ d ∈ E, d.isVarOf a = false) : Settled a (r.dependingOn E) := by
  by_cases empty : E = []
  · rw [empty, dependingOn_nil]
    exact .atom atom
  · rw [dependingOn_of_isAtom atom empty]
    exact .dependent atom fun d hd => free d (mem_distinct hd)

/-- What is settled is bound with all that it tracks. -/
theorem boundTo {a : Symbol} {v : Value} (hv : Settled a v) (D : List Value)
    (source : Option Expr) :
    IsBinding a (v.boundTo a D source) ∧
      ∀ z, v.tracks z = true → (v.boundTo a D source).tracks z = true := by
  induction hv generalizing D source with
  | @atom a v h =>
    rw [boundTo_bare (isDependent_of_isAtom h)]
    refine ⟨.var (Symbol.same_refl a) (.atom h), fun z hz => ?_⟩
    rw [tracks, hz, Bool.or_true]
  | @dependent a r E hr free =>
    rw [boundTo_dependent]
    refine ⟨.var (Symbol.same_refl a) (.dependingOn hr fun d hd => (mem_without hd).2), ?_⟩
    intro z hz
    rw [tracks, not_tracks_of_isAtom hr, Bool.false_or] at hz
    obtain ⟨d, hd, hdz⟩ := List.any_eq_true.mp hz
    have kept : hasSame (without a E) d = true := by simp [hasSame_of_mem hd, free d hd]
    rw [tracks, tracks_dependingOn hr, mentions_dependingOn_of_hasSame hr kept hdz, Bool.or_true]
  | @var a b u F s hu ih =>
    by_cases own : b.same a = true
    · rw [Value.boundTo]
      simp only [own, if_true]
      split
      · exact ⟨.var own hu, fun z hz => hz⟩
      · refine ⟨.var (Symbol.same_refl a) (hu.congr own), fun z hz => ?_⟩
        rw [tracks, Symbol.same_comm b, Symbol.same_congr own, Symbol.same_comm z] at hz
        exact hz
    · rw [boundTo_other (Bool.eq_false_iff.mpr own)]
      obtain ⟨bound, kept⟩ := ih (without a F) s
      refine ⟨.var (Symbol.same_refl a) (bound.settled a), fun z hz => ?_⟩
      rw [tracks, Bool.or_eq_true]
      rcases (Bool.or_eq_true _ _).mp hz with hbz | hz
      · exact Or.inr (bound.tracks_own hbz)
      · exact Or.inr (kept z hz)

end Settled

/-- A computed value that is bound depends on the same as before, less the variables of the
symbol. -/
theorem boundTo_computed {r : Value} (atom : r.isAtom = true) (D : List Value) (a : Symbol)
    (source : Option Expr) :
    ∃ E, (r.dependingOn D).boundTo a [] source = .var a (r.dependingOn E) [] source ∧
      (∀ d, hasSame E d = (hasSame D d && !d.isVarOf a)) ∧ ∀ d ∈ E, d.isVarOf a = false := by
  by_cases empty : D = []
  · refine ⟨[], ?_, fun d => ?_, List.forall_mem_nil _⟩
    · rw [empty, dependingOn_nil, boundTo_bare (isDependent_of_isAtom atom)]
      rfl
    · rw [empty]
      rfl
  · refine ⟨without a (distinct D), ?_, fun d => ?_, fun d hd => (mem_without hd).2⟩
    · rw [dependingOn_of_isAtom atom empty]
      rfl
    · rw [hasSame_without, hasSame_distinct]

end ValueFlow.Value
