import ValueFlow.Proofs.Bounds
import ValueFlow.Proofs.StandardDialect

/-!
# Reported values

A node is reported with the text of its value. Only what is no value has no text, so a report fails
for one reason, and values that are the same have texts or not alike. What a node was evaluated to
can be reported again.

* `Value.text_congr`, `Value.text_concur`: values that are the same have texts alike.
* `Evaluator.text_of_eval`: the values that evaluation gives have one if nodes are reported.
* `Evaluator.report_eval`: reporting an evaluated node once more does not change what it gives.
-/

namespace ValueFlow

namespace Value

variable {v w : Value} {D M : List Value}

theorem texts_eq_ok_iff :
    (∃ ts, texts D = .ok ts) ↔ ∀ d ∈ D, ∃ t, d.text = .ok t := by
  refine ⟨?_, texts_total⟩
  induction D with
  | nil => exact fun _ => List.forall_mem_nil _
  | cons d D ih =>
    rintro ⟨ts, hts⟩
    rw [texts] at hts
    cases hd : d.text with
    | error e =>
      rw [hd] at hts
      cases hts
    | ok t =>
      cases hD : texts D with
      | error e =>
        rw [hd, hD] at hts
        cases hts
      | ok ts => exact List.forall_mem_cons.mpr ⟨⟨t, hd⟩, ih ⟨ts, hD⟩⟩

theorem text_dependent_iff : (∃ t, (Value.dependent v D).text = .ok t) ↔
    (∃ t, v.text = .ok t) ∧ ∀ d ∈ D, ∃ t, d.text = .ok t := by
  rw [← texts_eq_ok_iff, text]
  cases v.text <;> cases texts D <;> simp [bind, Except.bind, pure, Except.pure]

theorem text_var_iff {x : Symbol} {s : Option Expr} : (∃ t, (Value.var x v D s).text = .ok t) ↔
    (∃ t, v.text = .ok t) ∧ ∀ d ∈ D, ∃ t, d.text = .ok t := by
  rw [← texts_eq_ok_iff, text]
  cases v.text <;> cases texts D <;> simp [bind, Except.bind, pure, Except.pure]

theorem text_phi_iff :
    (∃ t, (Value.phi M).text = .ok t) ↔ ∀ m ∈ M, ∃ t, m.text = .ok t := by
  rw [← texts_eq_ok_iff, text]
  cases texts M <;> simp [bind, Except.bind, pure, Except.pure]

/-- A set whose members are the same as some of those with a text has a text. -/
theorem text_of_sameSet {E : List Value} (h : sameSet D E = true)
    (congr : ∀ d ∈ D, ∀ e, d.same e = true → ∃ t, e.text = .ok t) :
    ∀ e ∈ E, ∃ t, e.text = .ok t := by
  intro e he
  obtain ⟨d, hd, same⟩ := (sameSet_eq_true_iff.mp h).2 e he
  exact congr d hd e same

theorem text_congr (h : v.same w = true) (hv : ∃ t, v.text = .ok t) : ∃ t, w.text = .ok t := by
  induction v using Value.induction generalizing w with
  | dependent v D ihv ihD =>
    cases w with
    | dependent w E =>
      rw [same_dependent, Bool.and_eq_true] at h
      obtain ⟨hv, hD⟩ := text_dependent_iff.mp hv
      refine text_dependent_iff.mpr ⟨ihv h.1 hv, text_of_sameSet h.2 ?_⟩
      exact fun d hd e same => ihD d hd same (hD d hd)
    | _ => cases h
  | var x v D s ihv ihD =>
    cases w with
    | var y w E r =>
      rw [same_var, Bool.and_eq_true, Bool.and_eq_true] at h
      obtain ⟨hv, hD⟩ := text_var_iff.mp hv
      refine text_var_iff.mpr ⟨ihv h.1.2 hv, text_of_sameSet h.2 ?_⟩
      exact fun d hd e same => ihD d hd same (hD d hd)
    | _ => cases h
  | phi M ihM =>
    cases w with
    | phi N =>
      rw [same_phi] at h
      have hM := text_phi_iff.mp hv
      exact text_phi_iff.mpr (text_of_sameSet h fun m hm n same => ihM m hm same (hM m hm))
    | _ => cases h
  | foreign i =>
    obtain ⟨t, ht⟩ := hv
    cases ht
  | _ =>
    cases w with
    | const | external | nothing | undetermined => exact ⟨_, rfl⟩
    | _ => cases h

/-- A computation that fails at most on what is no value. -/
def Showable {α : Type} (x : Except Fault α) : Prop :=
  (∃ a, x = .ok a) ∨ x = .error (.unexpected "alien")

theorem Showable.bind {α β : Type} {x : Except Fault α} {f : α → Except Fault β}
    (hx : Showable x) (hf : ∀ a, Showable (f a)) : Showable (x >>= f) := by
  rcases hx with ⟨a, rfl⟩ | rfl
  · exact hf a
  · exact Or.inr rfl

theorem showable_texts (hD : ∀ d ∈ D, Showable d.text) : Showable (texts D) := by
  induction D with
  | nil => exact Or.inl ⟨[], rfl⟩
  | cons d D ih =>
    obtain ⟨hd, hD⟩ := List.forall_mem_cons.mp hD
    rw [texts]
    exact hd.bind fun t => (ih hD).bind fun ts => Or.inl ⟨t :: ts, rfl⟩

theorem showable_text (v : Value) : Showable v.text := by
  induction v using Value.induction with
  | dependent v D ihv ihD =>
    rw [text]
    exact ihv.bind fun t => (showable_texts ihD).bind fun ts => Or.inl ⟨_, rfl⟩
  | var x v D s ihv ihD =>
    rw [text]
    exact ihv.bind fun t => (showable_texts ihD).bind fun ts => Or.inl ⟨_, rfl⟩
  | phi M ihM =>
    rw [text]
    exact (showable_texts ihM).bind fun ts => Or.inl ⟨_, rfl⟩
  | foreign i => exact Or.inr rfl
  | _ => exact Or.inl ⟨_, rfl⟩

theorem text_concur (h : v.same w = true) : Concur (fun _ _ => True) v.text w.text := by
  rcases showable_text v with hv | hv
  · obtain ⟨t, ht⟩ := text_congr h hv
    obtain ⟨r, hr⟩ := hv
    rw [hr, ht]
    trivial
  · rcases showable_text w with hw | hw
    · obtain ⟨t, ht⟩ := text_congr (same_comm v w ▸ h) hw
      rw [hv] at ht
      cases ht
    · rw [hv, hw]
      rfl

end Value

namespace Evaluator

variable {ev : Evaluator}

theorem report_concur {e e' : Expr} {x y : Traced Outcome} {R : Outcome → Outcome → Prop}
    (same : ∀ o p, R o p → o.value.same p.value = true) (h : Concur R x.result y.result) :
    Concur R (ev.report e x).result (ev.report e' y).result := by
  unfold report
  refine h.bind_traced fun o p hop => ?_
  dsimp only
  split
  · refine Concur.bind_traced (Value.text_concur (same o p hop)) fun _ _ _ => ?_
    exact hop
  · exact hop

/-- Every node but what is none is reported once it is evaluated. -/
theorem text_of_eval {e : Expr} {s : State} {o : Outcome} (h : (ev.eval e s).result = .ok o) :
    ev.options.trace = true → ∃ t, o.value.text = .ok t := by
  cases e with
  | classLiteral id name => cases name <;> exact (report_eq_ok_iff.mp h).2
  | reference id name target =>
    rcases target with _ | (x | c) <;> exact (report_eq_ok_iff.mp h).2
  | binary id left op right language =>
    by_cases hop : op = .assign
    · subst hop
      rw [eval] at h
      exact (report_eq_ok_iff.mp h).2
    · rw [eval_binary hop] at h
      exact (report_eq_ok_iff.mp h).2
  | declare id x init => cases init <;> (rw [eval] at h; exact (report_eq_ok_iff.mp h).2)
  | foreign what =>
    rw [eval] at h
    cases h
  | _ =>
    rw [eval] at h
    exact (report_eq_ok_iff.mp h).2

theorem report_eval (e e' : Expr) (s : State) :
    (ev.report e' (ev.eval e s)).result = (ev.eval e s).result := by
  cases h : (ev.eval e s).result with
  | ok o => exact report_eq_ok_iff.mpr ⟨h, text_of_eval h⟩
  | error fault => rw [report, Traced.bind_of_error h]

end Evaluator

end ValueFlow
