import ValueFlow.Trace

/-!
# What computations ensure

A result satisfies `Q`, and a fault is allowed only if `mayFail` holds. With `False` this is total
correctness and with `True` partial correctness, so that what both have in common is proved once.
`Pairs` compares the results of two computations, and `Concur` their faults too.
-/

namespace ValueFlow

def Ensures {α : Type} (mayFail : Prop) (Q : α → Prop) : Except Fault α → Prop
  | .ok a => Q a
  | .error _ => mayFail

namespace Ensures

variable {α β : Type} {mayFail : Prop} {Q R : α → Prop}

theorem imp {x : Except Fault α} (hx : Ensures mayFail Q x) (hQR : ∀ a, Q a → R a) :
    Ensures mayFail R x := by
  cases x with
  | ok a => exact hQR a hx
  | error e => exact hx

theorem weaken {mayFail' : Prop} {x : Except Fault α} (hx : Ensures mayFail Q x)
    (h : mayFail → mayFail') : Ensures mayFail' Q x := by
  cases x with
  | ok a => exact hx
  | error e => exact h hx

theorem and {x : Except Fault α} (hQ : Ensures mayFail Q x) (hR : Ensures mayFail R x) :
    Ensures mayFail (fun a => Q a ∧ R a) x := by
  cases x with
  | ok a => exact ⟨hQ, hR⟩
  | error e => exact hQ

theorem exists_ok {x : Except Fault α} (hx : Ensures False Q x) : ∃ a, x = .ok a ∧ Q a := by
  cases x with
  | ok a => exact ⟨a, rfl, hx⟩
  | error e => exact hx.elim

theorem of_ok {x : Except Fault α} (h : ∀ a, x = .ok a → Q a) : Ensures True Q x := by
  cases x with
  | ok a => exact h a rfl
  | error e => trivial

/-- A result is what it was computed as, and is as promised unless there may be none. -/
theorem of_promise {x : Except Fault α} (h : mayFail ∨ Ensures False Q x) :
    Ensures mayFail (fun a => x = .ok a ∧ (mayFail ∨ Q a)) x := by
  cases x with
  | ok a => exact ⟨rfl, h⟩
  | error e => exact h.resolve_right id

theorem any (x : Except Fault α) : Ensures True (fun _ => True) x := of_ok fun _ _ => trivial

theorem bind {S : β → Prop} {x : Except Fault α} {f : α → Except Fault β}
    (hx : Ensures mayFail Q x) (hf : ∀ a, Q a → Ensures mayFail S (f a)) :
    Ensures mayFail S (x >>= f) := by
  cases x with
  | ok a => exact hf a hx
  | error e => exact hx

theorem map {S : β → Prop} {x : Except Fault α} {f : α → β} (hx : Ensures mayFail Q x)
    (hf : ∀ a, Q a → S (f a)) : Ensures mayFail S (x.map f) := by
  cases x with
  | ok a => exact hf a hx
  | error e => exact hx

/-- What is ensured of a result, together with where it comes from. -/
theorem with_result {x : Except Fault α} (hx : Ensures mayFail Q x) :
    Ensures mayFail (fun a => Q a ∧ x = .ok a) x := by
  cases x with
  | ok a => exact ⟨hx, rfl⟩
  | error e => exact hx

theorem bind_traced {S : β → Prop} {x : Traced α} {f : α → Traced β}
    (hx : Ensures mayFail Q x.result) (hf : ∀ a, Q a → Ensures mayFail S (f a).result) :
    Ensures mayFail S (x >>= f).result := by
  cases h : x.result with
  | ok a =>
    rw [h] at hx
    rw [Traced.bind_of_ok h]
    exact hf a hx
  | error e =>
    rw [h] at hx
    rw [Traced.bind_of_error h]
    exact hx

end Ensures

theorem exists_of_map_eq_ok {α β : Type} {x : Except Fault α} {f : α → β} {b : β}
    (h : x.map f = .ok b) : ∃ a, x = .ok a ∧ b = f a := by
  cases x with
  | ok a => exact ⟨a, rfl, (Except.ok.inj h).symm⟩
  | error e => cases h

theorem Traced.bind_eq_ok_iff {α β : Type} {x : Traced α} {f : α → Traced β} {b : β} :
    (x >>= f).result = .ok b ↔ ∃ a, x.result = .ok a ∧ (f a).result = .ok b := by
  cases h : x.result with
  | ok a => simp [Traced.bind_of_ok h]
  | error e => simp [Traced.bind_of_error h]

/-- The test holds of the result, if there is one. -/
def Traced.passes {α : Type} (x : Traced α) (test : α → Bool) : Bool :=
  match x.result with
  | .ok a => test a
  | .error _ => true

theorem Traced.passes_of_forall {α : Type} (x : Traced α) {test : α → Bool}
    (h : ∀ a, test a = true) : x.passes test = true := by
  unfold passes
  cases x.result with
  | ok a => exact h a
  | error e => rfl

theorem Traced.of_passes {α : Type} {x : Traced α} {test : α → Bool} (h : x.passes test = true) :
    ∀ a, x.result = .ok a → test a = true := by
  intro a ha
  rw [passes, ha] at h
  exact h

/-- Where two computations both succeed, their results are related. -/
def Pairs {α β : Type} (R : α → β → Prop) (x : Except Fault α) (y : Except Fault β) : Prop :=
  ∀ a b, x = .ok a → y = .ok b → R a b

namespace Pairs

variable {α β γ δ : Type} {R : α → β → Prop} {S : γ → δ → Prop}

theorem ok {a : α} {b : β} (h : R a b) : Pairs R (.ok a) (.ok b) := by
  rintro _ _ ⟨⟩ ⟨⟩
  exact h

theorem and_left {P : α → Prop} {x : Except Fault α} {y : Except Fault β} (h : Pairs R x y)
    (hx : ∀ a, x = .ok a → P a) : Pairs (fun a b => R a b ∧ P a) x y :=
  fun a b ha hb => ⟨h a b ha hb, hx a ha⟩

theorem bind {x : Except Fault α} {y : Except Fault β} {f : α → Except Fault γ}
    {g : β → Except Fault δ} (hxy : Pairs R x y) (hfg : ∀ a b, R a b → Pairs S (f a) (g b)) :
    Pairs S (x >>= f) (y >>= g) := by
  intro c d hc hd
  cases x with
  | ok a =>
    cases y with
    | ok b => exact hfg a b (hxy a b rfl rfl) c d hc hd
    | error e => cases hd
  | error e => cases hc

theorem map {x : Except Fault α} {y : Except Fault β} {f : α → γ} {g : β → δ}
    (hxy : Pairs R x y) (hfg : ∀ a b, R a b → S (f a) (g b)) : Pairs S (x.map f) (y.map g) :=
  hxy.bind fun a b hab => ok (hfg a b hab)

theorem bind_traced {x : Traced α} {y : Traced β} {f : α → Traced γ} {g : β → Traced δ}
    (hxy : Pairs R x.result y.result)
    (hfg : ∀ a b, R a b → Pairs S (f a).result (g b).result) :
    Pairs S (x >>= f).result (y >>= g).result := by
  cases hx : x.result with
  | ok a =>
    cases hy : y.result with
    | ok b =>
      rw [Traced.bind_of_ok hx, Traced.bind_of_ok hy]
      exact hfg a b (hxy a b hx hy)
    | error e =>
      rw [Traced.bind_of_error hy]
      rintro _ _ _ ⟨⟩
  | error e =>
    rw [Traced.bind_of_error hx]
    rintro _ _ ⟨⟩

end Pairs

/-- Two computations both succeed, with related results, or both fail with one fault. -/
def Concur {α β : Type} (R : α → β → Prop) : Except Fault α → Except Fault β → Prop
  | .ok a, .ok b => R a b
  | .error e, .error f => e = f
  | _, _ => False

namespace Concur

variable {α β γ δ : Type} {R : α → β → Prop} {S : γ → δ → Prop}

theorem ok {a : α} {b : β} (h : R a b) : Concur R (.ok a) (.ok b) := h

theorem refl {E : α → α → Prop} (h : ∀ a, E a a) (x : Except Fault α) : Concur E x x := by
  cases x with
  | ok a => exact h a
  | error e => rfl

theorem imp {S : α → β → Prop} {x : Except Fault α} {y : Except Fault β} (h : Concur R x y)
    (hRS : ∀ a b, R a b → S a b) : Concur S x y := by
  cases x with
  | ok a =>
    cases y with
    | ok b => exact hRS a b h
    | error f => exact h
  | error e =>
    cases y with
    | ok b => exact h
    | error f => exact h

theorem symm {S : β → α → Prop} {x : Except Fault α} {y : Except Fault β} (h : Concur R x y)
    (hRS : ∀ a b, R a b → S b a) : Concur S y x := by
  cases x with
  | ok a =>
    cases y with
    | ok b => exact hRS a b h
    | error f => exact h
  | error e =>
    cases y with
    | ok b => exact h
    | error f => exact Eq.symm h

theorem trans {S : β → γ → Prop} {T : α → γ → Prop} {x : Except Fault α} {y : Except Fault β}
    {z : Except Fault γ} (hxy : Concur R x y) (hyz : Concur S y z)
    (h : ∀ a b c, R a b → S b c → T a c) : Concur T x z := by
  cases x with
  | ok a =>
    cases y with
    | ok b =>
      cases z with
      | ok c => exact h a b c hxy hyz
      | error g => exact hyz
    | error f => exact hxy.elim
  | error e =>
    cases y with
    | ok b => exact hxy.elim
    | error f =>
      cases z with
      | ok c => exact hyz
      | error g => exact Eq.trans hxy hyz

theorem eq_error {x : Except Fault α} {y : Except Fault β} {e : Fault} (h : Concur R x y)
    (hx : x = .error e) : y = .error e := by
  subst hx
  cases y with
  | ok b => exact h.elim
  | error f => exact congrArg Except.error (Eq.symm h)

theorem pairs {x : Except Fault α} {y : Except Fault β} (h : Concur R x y) : Pairs R x y := by
  rintro a b rfl rfl
  exact h

theorem and_left {P : α → Prop} {x : Except Fault α} {y : Except Fault β} (h : Concur R x y)
    (hx : ∀ a, x = .ok a → P a) : Concur (fun a b => R a b ∧ P a) x y := by
  cases x with
  | ok a =>
    cases y with
    | ok b => exact ⟨h, hx a rfl⟩
    | error f => exact h
  | error e =>
    cases y with
    | ok b => exact h
    | error f => exact h

theorem bind {x : Except Fault α} {y : Except Fault β} {f : α → Except Fault γ}
    {g : β → Except Fault δ} (hxy : Concur R x y) (hfg : ∀ a b, R a b → Concur S (f a) (g b)) :
    Concur S (x >>= f) (y >>= g) := by
  cases x with
  | ok a =>
    cases y with
    | ok b => exact hfg a b hxy
    | error e => exact hxy.elim
  | error e =>
    cases y with
    | ok b => exact hxy.elim
    | error f => exact hxy

theorem map {x : Except Fault α} {y : Except Fault β} {f : α → γ} {g : β → δ}
    (hxy : Concur R x y) (hfg : ∀ a b, R a b → S (f a) (g b)) : Concur S (x.map f) (y.map g) :=
  hxy.bind hfg

theorem bind_traced {x : Traced α} {y : Traced β} {f : α → Traced γ} {g : β → Traced δ}
    (hxy : Concur R x.result y.result)
    (hfg : ∀ a b, R a b → Concur S (f a).result (g b).result) :
    Concur S (x >>= f).result (y >>= g).result := by
  cases hx : x.result with
  | ok a =>
    cases hy : y.result with
    | ok b =>
      rw [hx, hy] at hxy
      rw [Traced.bind_of_ok hx, Traced.bind_of_ok hy]
      exact hfg a b hxy
    | error e =>
      rw [hx, hy] at hxy
      exact hxy.elim
  | error e =>
    cases hy : y.result with
    | ok b =>
      rw [hx, hy] at hxy
      exact hxy.elim
    | error f =>
      rw [hx, hy] at hxy
      rw [Traced.bind_of_error hx, Traced.bind_of_error hy]
      exact hxy

end Concur

end ValueFlow
