import ValueFlow.Arena
import ValueFlow.Proofs.Sameness

/-!
# Issued symbols

A program adds arenas and declares symbols in them, in any order. All arenas draw from one counter,
and each keeps its own records. So a symbol is found by its token in the arena that issued it and in
no other, however long the program goes on, and two symbols are the same only if one call issued
both.

* `Arenas.run`: a sequence of calls, with what they issue.
* `Arenas.Holds`: the arenas hold exactly what was issued.
* `Arenas.Holds.perform`, `Arenas.Holds.run`: a call keeps that, and so does a run.
* `Arenas.run_identifies`: what follows for a run from no arenas.
-/

namespace ValueFlow.Arenas

inductive Call where
  | addArena
  | declare (arena : Nat) (name : String) (storage : Storage)
  | declareEntry (arena : Nat) (name enumType : String)
  deriving DecidableEq

def Call.issues : Call → Bool
  | .addArena => false
  | _ => true

/-- A symbol, with the number of the arena that issued it. -/
structure Issue where
  arena : Nat
  symbol : Symbol
  deriving DecidableEq

/-- The call that asks for a symbol like this one. -/
def Issue.call (r : Issue) : Call :=
  match r.symbol with
  | .decl x => .declare r.arena x.name x.storage
  | .entry e => .declareEntry r.arena e.name e.enumType

/-- Makes one call. -/
def perform (s : Arenas) : Call → List Issue × Arenas
  | .addArena => ([], s.addArena.2)
  | .declare i name storage =>
    let (x, s) := s.declare i name storage
    ([⟨i, .decl x⟩], s)
  | .declareEntry i name enumType =>
    let (e, s) := s.declareEntry i name enumType
    ([⟨i, .entry e⟩], s)

/-- Makes calls in order, and collects what they issue. -/
def run (s : Arenas) : List Call → List Issue × Arenas
  | [] => ([], s)
  | c :: cs =>
    let (issued, s) := s.perform c
    let (rest, s) := s.run cs
    (issued ++ rest, s)

/-- Every call is made of an arena that is there at the time, if `opened` of them are there at the
start. -/
def inScope (opened : Nat) : List Call → Bool
  | [] => true
  | .addArena :: cs => inScope (opened + 1) cs
  | .declare i _ _ :: cs => decide (i < opened) && inScope opened cs
  | .declareEntry i _ _ :: cs => decide (i < opened) && inScope opened cs

theorem run_cons (s : Arenas) (c : Call) (cs : List Call) :
    s.run (c :: cs) =
      ((s.perform c).1 ++ ((s.perform c).2.run cs).1, ((s.perform c).2.run cs).2) := rfl

theorem run_append (s : Arenas) (cs ds : List Call) :
    s.run (cs ++ ds) = ((s.run cs).1 ++ ((s.run cs).2.run ds).1, ((s.run cs).2.run ds).2) := by
  induction cs generalizing s with
  | nil => rfl
  | cons c cs ih => rw [List.cons_append, run_cons, run_cons, ih, List.append_assoc]

/-- Each call that issues is answered by one symbol, which is what it asked for. -/
theorem map_call_run (s : Arenas) (cs : List Call) :
    (s.run cs).1.map Issue.call = cs.filter Call.issues := by
  induction cs generalizing s with
  | nil => rfl
  | cons c cs ih =>
    rw [run_cons, List.map_append, ih]
    cases c <;> rfl

/-- What was issued, in order: tokens increase up to the count of the arenas, and each arena has the
symbols that it issued. -/
structure Holds (s : Arenas) (issues : List Issue) : Prop where
  increasing : issues.Pairwise fun r r' => r.symbol.token < r'.symbol.token
  issued : ∀ r ∈ issues, r.symbol.token ≤ s.issued
  opened : ∀ r ∈ issues, r.arena < s.arenas.length
  records : ∀ i a, s.get? i = some a →
    a.records = (issues.filter fun r => r.arena == i).map Issue.symbol

theorem holds_empty : empty.Holds [] where
  increasing := List.Pairwise.nil
  issued := List.forall_mem_nil _
  opened := List.forall_mem_nil _
  records i a h := by simp [empty, get?] at h

namespace Holds

variable {s : Arenas} {issues : List Issue}

/-- A new arena has no records, as nothing was issued in an arena of its number. -/
theorem addArena (h : s.Holds issues) : s.addArena.2.Holds issues where
  increasing := h.increasing
  issued := h.issued
  opened r hr := by
    have := h.opened r hr
    simp only [Arenas.addArena, List.length_append, List.length_singleton]
    omega
  records i a ha := by
    rw [get?, Arenas.addArena, List.getElem?_append] at ha
    split at ha
    · exact h.records i a ha
    · rename_i hi
      have unused : issues.filter (fun r => r.arena == i) = [] := by
        rw [List.filter_eq_nil_iff]
        intro r hr
        have := h.opened r hr
        simp only [beq_iff_eq]
        omega
      have new : a = Arena.empty := by
        obtain ⟨place, heq⟩ := List.getElem?_eq_some_iff.mp ha
        have first : i - s.arenas.length = 0 := by simpa using place
        simpa [first] using heq.symm
      rw [new, unused]
      rfl

theorem issue (h : s.Holds issues) {i : Nat} (hi : i < s.arenas.length) {x : Symbol}
    (hx : x.token = s.next) : (s.issue i x).Holds (issues ++ [⟨i, x⟩]) where
  increasing := by
    refine List.pairwise_append.mpr ⟨h.increasing, List.pairwise_singleton _ _, ?_⟩
    intro r hr r' hr'
    have := h.issued r hr
    rw [List.mem_singleton.mp hr', hx, next]
    omega
  issued r hr := by
    show r.symbol.token ≤ s.issued + 1
    rcases List.mem_append.mp hr with hr | hr
    · have := h.issued r hr
      omega
    · rw [List.mem_singleton.mp hr, hx]
      exact Nat.le_refl _
  opened r hr := by
    simp only [Arenas.issue, List.length_modify]
    rcases List.mem_append.mp hr with hr | hr
    · exact h.opened r hr
    · rw [List.mem_singleton.mp hr]
      exact hi
  records j a ha := by
    rw [get?, Arenas.issue, List.getElem?_modify] at ha
    obtain ⟨b, hb, hab⟩ := Option.map_eq_some_iff.mp ha
    have before := h.records j b hb
    by_cases hij : i = j
    · rw [← hab, if_pos hij]
      simp [Arena.push, before, hij]
    · rw [← hab, if_neg hij]
      simp [before, hij]

theorem perform (h : s.Holds issues) {c : Call} {cs : List Call}
    (scope : inScope s.arenas.length (c :: cs) = true) :
    (s.perform c).2.Holds (issues ++ (s.perform c).1) ∧
      inScope (s.perform c).2.arenas.length cs = true := by
  cases c with
  | addArena =>
    refine ⟨by simpa [Arenas.perform] using h.addArena, ?_⟩
    simpa [Arenas.perform, Arenas.addArena, inScope] using scope
  | declare i name storage =>
    obtain ⟨hi, rest⟩ : i < s.arenas.length ∧ inScope s.arenas.length cs = true := by
      simpa [inScope] using scope
    refine ⟨h.issue hi rfl, ?_⟩
    simpa [Arenas.perform, Arenas.declare, Arenas.issue] using rest
  | declareEntry i name enumType =>
    obtain ⟨hi, rest⟩ : i < s.arenas.length ∧ inScope s.arenas.length cs = true := by
      simpa [inScope] using scope
    refine ⟨h.issue hi rfl, ?_⟩
    simpa [Arenas.perform, Arenas.declareEntry, Arenas.issue] using rest

theorem run (h : s.Holds issues) {cs : List Call} (scope : inScope s.arenas.length cs = true) :
    (s.run cs).2.Holds (issues ++ (s.run cs).1) := by
  induction cs generalizing s issues with
  | nil => simpa [Arenas.run] using h
  | cons c cs ih =>
    obtain ⟨after, rest⟩ := h.perform scope
    rw [run_cons, ← List.append_assoc]
    exact ih after rest

/-- Two places with one token are one place. -/
theorem index_of_token (h : s.Holds issues) {j k : Nat} {r r' : Issue} (hr : issues[j]? = some r)
    (hr' : issues[k]? = some r') (token : r.symbol.token = r'.symbol.token) : j = k := by
  obtain ⟨hj, rfl⟩ := List.getElem?_eq_some_iff.mp hr
  obtain ⟨hk, rfl⟩ := List.getElem?_eq_some_iff.mp hr'
  have ordered := List.pairwise_iff_getElem.mp h.increasing
  rcases Nat.lt_trichotomy j k with hjk | hjk | hjk
  · have := ordered j k hj hk hjk
    omega
  · exact hjk
  · have := ordered k j hk hj hjk
    omega

theorem eq_of_token (h : s.Holds issues) {r r' : Issue} (hr : r ∈ issues) (hr' : r' ∈ issues)
    (token : r.symbol.token = r'.symbol.token) : r = r' := by
  obtain ⟨j, hj⟩ := List.mem_iff_getElem?.mp hr
  obtain ⟨k, hk⟩ := List.mem_iff_getElem?.mp hr'
  rw [h.index_of_token hj hk token, hk] at hj
  exact (Option.some.inj hj).symm

/-- A record with the token of an issued symbol is that symbol, in the arena that issued it. -/
theorem eq_of_mem_records (h : s.Holds issues) {r : Issue} (hr : r ∈ issues) {i : Nat} {a : Arena}
    (ha : s.get? i = some a) {y : Symbol} (hy : y ∈ a.records)
    (token : y.token = r.symbol.token) : i = r.arena ∧ y = r.symbol := by
  rw [h.records i a ha] at hy
  obtain ⟨r', hr', rfl⟩ := List.mem_map.mp hy
  obtain ⟨mem, place⟩ := List.mem_filter.mp hr'
  cases h.eq_of_token mem hr token
  exact ⟨(beq_iff_eq.mp place).symm, rfl⟩

end Holds

/-- The symbol is found by its token in the arena that issued it, and in no other. -/
structure FindsOnlyIn (s : Arenas) (r : Issue) : Prop where
  own : ∃ a, s.get? r.arena = some a ∧ a.get? r.symbol.token = some r.symbol ∧
    a.contains r.symbol = true
  others : ∀ i a, i ≠ r.arena → s.get? i = some a →
    a.get? r.symbol.token = none ∧ a.contains r.symbol = false

theorem Holds.findsOnlyIn {s : Arenas} {issues : List Issue} (h : s.Holds issues) {r : Issue}
    (hr : r ∈ issues) : s.FindsOnlyIn r where
  own := by
    have place := h.opened r hr
    refine ⟨s.arenas[r.arena], List.getElem?_eq_getElem place, ?_⟩
    have there : s.get? r.arena = some s.arenas[r.arena] := List.getElem?_eq_getElem place
    have recorded : r.symbol ∈ s.arenas[r.arena].records := by
      rw [h.records _ _ there]
      exact List.mem_map.mpr ⟨r, by simp [hr], rfl⟩
    have found : s.arenas[r.arena].get? r.symbol.token = some r.symbol := by
      cases hy : s.arenas[r.arena].get? r.symbol.token with
      | none => simpa using List.find?_eq_none.mp hy r.symbol recorded
      | some y =>
        have token : y.token = r.symbol.token := by simpa using List.find?_some hy
        rw [(h.eq_of_mem_records hr there (List.mem_of_find?_eq_some hy) token).2]
    exact ⟨found, by rw [Arena.contains, found]; rfl⟩
  others i a hi ha := by
    have absent : a.get? r.symbol.token = none := by
      rw [Arena.get?, List.find?_eq_none]
      intro y hy token
      exact hi (h.eq_of_mem_records hr ha hy (by simpa using token)).1
    exact ⟨absent, by rw [Arena.contains, absent]; rfl⟩

/-- Over a run, every call that issues gets a symbol of its own, with a greater token than all before
it. The arena that issued a symbol finds it after all further calls, and no other arena does. Each
arena has its symbols in the order of issue, and symbols are the same only if one call issued both. -/
theorem run_identifies {calls further : List Call}
    (scope : inScope 0 (calls ++ further) = true) :
    let issues := (empty.run (calls ++ further)).1
    let s := (empty.run (calls ++ further)).2
    issues.map Issue.call = (calls ++ further).filter Call.issues ∧
    issues.Pairwise (fun r r' => r.symbol.token < r'.symbol.token) ∧
    (∀ r ∈ (empty.run calls).1, s.FindsOnlyIn r) ∧
    (∀ i a, s.get? i = some a →
      a.records = (issues.filter fun r => r.arena == i).map Issue.symbol ∧
        a.size = (issues.filter fun r => r.arena == i).length) ∧
    ∀ (j k : Nat) (r r' : Issue), issues[j]? = some r → issues[k]? = some r' →
      (r.symbol.same r'.symbol = true ↔ j = k) := by
  intro issues s
  have h : s.Holds issues := holds_empty.run scope
  refine ⟨map_call_run _ _, h.increasing, ?_, ?_, ?_⟩
  · intro r hr
    have kept : (empty.run calls).1 ⊆ issues := by
      simp only [issues, run_append]
      exact List.subset_append_left _ _
    exact h.findsOnlyIn (kept hr)
  · intro i a ha
    have records := h.records i a ha
    exact ⟨records, by rw [Arena.size, records, List.length_map]⟩
  · intro j k r r' hr hr'
    constructor
    · exact fun same => h.index_of_token hr hr' (Symbol.token_eq_of_same same)
    · rintro rfl
      rw [hr] at hr'
      cases hr'
      exact Symbol.same_refl _

/-- Two arenas take turns, and both are asked for an `x`. -/
def takingTurns : List Call :=
  [.addArena, .declare 0 "x" .block, .addArena, .declare 1 "x" .parameter]

/-- The first `x` is still found in its arena only, after a third arena has come and all three have
issued more. -/
theorem run_identifies_takingTurns :
    let further : List Call :=
      [.declareEntry 0 "RED" "Color", .addArena, .declare 2 "x" .field, .declare 1 "y" .block]
    let s := (empty.run (takingTurns ++ further)).2
    inScope 0 (takingTurns ++ further) = true ∧
    s.FindsOnlyIn ⟨0, .decl ⟨1, "x", .block⟩⟩ ∧ s.FindsOnlyIn ⟨1, .decl ⟨2, "x", .parameter⟩⟩ ∧
    (s.get? 0).map Arena.records =
      some [.decl ⟨1, "x", .block⟩, .entry ⟨3, "RED", "Color"⟩] := by
  intro further s
  have scope : inScope 0 (takingTurns ++ further) = true := by decide
  have found := (@run_identifies takingTurns further scope).2.2.1
  exact ⟨scope, found _ (by decide), found _ (by decide), rfl⟩

end ValueFlow.Arenas
