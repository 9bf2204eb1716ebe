import ValueFlow.Proofs.MergeLaws
import ValueFlow.Proofs.ReachableStates

/-!
# Inverted conditions

A conditional with its condition negated and its branches exchanged gives what the conditional
gives. Where the condition is known, its negation chooses the same branch from the other side; where
it is not, the branches are merged, and merging does not look at their order. An unreachable
condition is not negated, and is not known either.

* `Outcome.Inverts`: what negating a condition does to its outcome.
* `Evaluator.Parts`: the outcomes that a conditional is put together from.
* `Evaluator.Parts.inverted`, `Evaluator.Parts.of_inverted`: both conditionals have the same parts.
* `Evaluator.choose_inverted`: an inverted choice between exchanged branches.
* `Evaluator.inverted_condition_agrees`: the two conditionals.
-/

namespace ValueFlow

open Value

/-- Negation turns known conditions over, and makes no condition known. -/
theorem Value.coreConstant?_not {v r : Value} (h : lift1 Logic.notCore v = .ok r) (b : Bool) :
    r.coreConstant? = some (.bool b) ↔ v.coreConstant? = some (.bool !b) := by
  obtain ⟨c, hc, rfl⟩ := lift1_eq_ok h
  rw [coreConstant?, coreConstant?, core_dependingOn]
  unfold Logic.notCore at hc
  split at hc
  · rename_i a ha
    cases hc
    rw [ha]
    cases a <;> cases b <;> simp [Value.bool, core, constant?]
  · rename_i other
    cases hc
    refine iff_of_false nofun fun known => ?_
    cases hv : v.core with
    | const c =>
      rw [hv] at known
      cases known
      exact other _ hv
    | _ =>
      rw [hv] at known
      cases known

/-- The outcome `p` leaves the state of `o` and is a known condition exactly if `o` is the opposite
one. -/
structure Outcome.Inverts (o p : Outcome) : Prop where
  state : p.state = o.state
  condition : ∀ b, p.value.coreConstant? = some (.bool b) ↔ o.value.coreConstant? = some (.bool !b)

/-- The outcome of a negated condition. -/
def Outcome.negated (o : Outcome) : Except Fault Outcome :=
  if o.isReachable then (lift1 Logic.notCore o.value).map fun r => ⟨r, o.state⟩ else .ok o

theorem Outcome.exists_negated (o : Outcome) : ∃ p, o.negated = .ok p ∧ o.Inverts p := by
  unfold negated
  split
  · obtain ⟨c, hc, -⟩ := (PrefixOp.core_ensures .not o.value.core).exists_ok
    have negation : lift1 Logic.notCore o.value = .ok (c.dependingOn o.value.provenance) :=
      lift1_of_core hc
    rw [negation]
    exact ⟨_, rfl, rfl, coreConstant?_not negation⟩
  · rename_i unreachable
    refine ⟨o, rfl, rfl, fun b => ?_⟩
    cases hv : o.value with
    | nothing => exact iff_of_false nofun nofun
    | _ =>
      rw [isReachable, hv] at unreachable
      exact absurd rfl unreachable

namespace Evaluator

variable {ev : Evaluator} {condition : Expr} {A B : Option Expr} {s : State} {c d t f o : Outcome}

theorem choose_inverted (h : c.Inverts d) (t f : Outcome) :
    Alike Outcome.same (choose c.value t f) (choose d.value f t) := by
  by_cases known : ∃ b, c.value.coreConstant? = some (.bool b)
  · obtain ⟨b, hb⟩ := known
    have negated : d.value.coreConstant? = some (.bool !b) := by
      rw [h.condition, Bool.not_not, hb]
    rw [choose_of_bool hb, choose_of_bool negated]
    cases b with
    | true => exact Outcome.same_refl t
    | false => exact Outcome.same_refl f
  · have unknown : ∀ b, c.value.coreConstant? ≠ some (.bool b) := not_exists.mp known
    have unknown' : ∀ b, d.value.coreConstant? ≠ some (.bool b) :=
      fun b hb => unknown _ ((h.condition b).mp hb)
    rw [choose_of_not_bool unknown, choose_of_not_bool unknown']
    exact Outcome.merge_comm t f

theorem choose_inverted_ok (h : c.Inverts d) (t f : Outcome) :
    (∃ o, choose c.value t f = .ok o) ↔ ∃ o, choose d.value f t = .ok o := by
  have alike := choose_inverted h t f
  cases hc : choose c.value t f with
  | ok o =>
    cases hd : choose d.value f t with
    | ok p => exact iff_of_true ⟨o, rfl⟩ ⟨p, rfl⟩
    | error e =>
      rw [hc, hd] at alike
      exact alike.elim
  | error e =>
    cases hd : choose d.value f t with
    | ok p =>
      rw [hc, hd] at alike
      exact alike.elim
    | error e' => exact iff_of_false nofun nofun

theorem text_of_silent (silent : ev.options.trace = false) (v : Value) :
    ev.options.trace = true → ∃ t, v.text = .ok t :=
  fun traced => absurd (silent.symm.trans traced) nofun

/-- The outcomes of a condition and of the two branches after it. -/
structure Parts (ev : Evaluator) (condition : Expr) (A B : Option Expr) (s : State)
    (c t f : Outcome) : Prop where
  condition : (ev.eval condition s).result = .ok c
  thenBranch : (ev.evalBranch A c.state).result = .ok t
  elseBranch : (ev.evalBranch B c.state).result = .ok f

theorem eval_cond_eq_ok_iff (i : Nat) (ternary : Bool) :
    (ev.eval (.cond i condition A B ternary) s).result = .ok o ↔
      (∃ c t f, ev.Parts condition A B s c t f ∧ choose c.value t f = .ok o) ∧
      (ev.options.trace = true → ∃ t, o.value.text = .ok t) := by
  rw [eval, report_eq_ok_iff]
  simp only [Traced.bind_eq_ok_iff, Traced.liftM_result]
  refine and_congr_left fun _ => ?_
  constructor
  · rintro ⟨c, hc, t, ht, f, hf, ho⟩
    exact ⟨c, t, f, ⟨hc, ht, hf⟩, ho⟩
  · rintro ⟨c, t, f, ⟨hc, ht, hf⟩, ho⟩
    exact ⟨c, hc, t, ht, f, hf, ho⟩

section

variable {language : Option String}
  (standard : (ev.dialect language).operators = some .standard) (k : Nat)

include standard

theorem eval_not_eq_ok_iff :
    (ev.eval (.prefixed k .not condition language) s).result = .ok d ↔
      (∃ c, (ev.eval condition s).result = .ok c ∧ c.negated = .ok d) ∧
      (ev.options.trace = true → ∃ t, d.value.text = .ok t) := by
  rw [eval, report_eq_ok_iff, Traced.bind_eq_ok_iff]
  refine and_congr_left fun _ => exists_congr fun c => and_congr_right fun _ => ?_
  unfold Outcome.negated
  split
  · have notStep : ∀ op, PrefixOp.not ≠ .step op := by
      intro op h
      cases h
    rw [dialectFor_bind, Traced.liftM_result, Dialect.evalPrefix_standard _ _ _ standard notStep]
    rfl
  · rfl

namespace Parts

/-- Unless the negation has to be reported, it has an outcome if the condition has. -/
theorem inverted (silent : ev.options.trace = false) (h : ev.Parts condition A B s c t f) :
    ∃ d, ev.Parts (.prefixed k .not condition language) B A s d f t ∧ c.Inverts d := by
  obtain ⟨d, hd, inverts⟩ := c.exists_negated
  refine ⟨d, ⟨?_, ?_, ?_⟩, inverts⟩
  · exact (eval_not_eq_ok_iff standard k).mpr ⟨⟨c, h.condition, hd⟩, text_of_silent silent _⟩
  · rw [inverts.state]
    exact h.elseBranch
  · rw [inverts.state]
    exact h.thenBranch

theorem of_inverted (h : ev.Parts (.prefixed k .not condition language) B A s d f t) :
    ∃ c, ev.Parts condition A B s c t f ∧ c.Inverts d := by
  obtain ⟨⟨c, hc, negated⟩, -⟩ := (eval_not_eq_ok_iff standard k).mp h.condition
  obtain ⟨d', negated', inverts⟩ := c.exists_negated
  rw [negated] at negated'
  cases negated'
  refine ⟨c, ⟨hc, ?_, ?_⟩, inverts⟩
  · rw [← inverts.state]
    exact h.elseBranch
  · rw [← inverts.state]
    exact h.thenBranch

end Parts

end

theorem Parts.unique {c' t' f' : Outcome} (h : ev.Parts condition A B s c t f)
    (h' : ev.Parts condition A B s c' t' f') : c' = c ∧ t' = t ∧ f' = f := by
  obtain ⟨hc, ht, hf⟩ := h
  obtain ⟨hc', ht', hf'⟩ := h'
  rw [hc] at hc'
  cases hc'
  rw [ht] at ht'
  cases ht'
  rw [hf] at hf'
  cases hf'
  exact ⟨rfl, rfl, rfl⟩

/-- The nodes of the inverted conditional are those of the conditional, but for two. -/
theorem forall_nodes_inverted {P : Expr → Prop} {i j k : Nat} {ternary ternary' : Bool}
    {language : Option String} (h : ∀ n ∈ (Expr.cond i condition A B ternary).nodes, P n)
    (negation : P (.prefixed k .not condition language))
    (whole : P (.cond j (.prefixed k .not condition language) B A ternary')) :
    ∀ n ∈ (Expr.cond j (.prefixed k .not condition language) B A ternary').nodes, P n := by
  obtain ⟨-, children⟩ := Expr.forall_nodes.mp h
  obtain ⟨inCondition, inBranches⟩ := List.forall_mem_cons.mp children
  refine Expr.forall_nodes.mpr ⟨whole, List.forall_mem_cons.mpr ⟨?_, ?_⟩⟩
  · exact Expr.forall_nodes.mpr ⟨negation, List.forall_mem_singleton.mpr inCondition⟩
  · intro c hc
    refine inBranches c (List.mem_append.mpr ?_)
    exact (List.mem_append.mp hc).symm

section

variable {language : Option String}
  (standard : (ev.dialect language).operators = some .standard) {i j k : Nat}
  {ternary ternary' : Bool}

include standard

theorem eval_inverted_same {p : Outcome}
    (ho : (ev.eval (.cond i condition A B ternary) s).result = .ok o)
    (hp : (ev.eval (.cond j (.prefixed k .not condition language) B A ternary') s).result = .ok p) :
    o.same p = true := by
  obtain ⟨⟨c, t, f, parts, chosen⟩, -⟩ := (eval_cond_eq_ok_iff i ternary).mp ho
  obtain ⟨⟨d, f', t', parts', chosen'⟩, -⟩ := (eval_cond_eq_ok_iff j ternary').mp hp
  -- The branches of the inverted conditional start from the state that the condition leaves, so
  -- that they have the outcomes they have in the plain one.
  obtain ⟨c', parts'', inverts⟩ := parts'.of_inverted standard k
  obtain ⟨rfl, rfl, rfl⟩ := parts.unique parts''
  have alike := choose_inverted inverts t' f'
  rw [chosen, chosen'] at alike
  exact alike

theorem exists_eval_inverted_iff (silent : ev.options.trace = false) :
    (∃ o, (ev.eval (.cond i condition A B ternary) s).result = .ok o) ↔
      ∃ p, (ev.eval (.cond j (.prefixed k .not condition language) B A ternary') s).result =
        .ok p := by
  constructor
  · rintro ⟨o, ho⟩
    obtain ⟨⟨c, t, f, parts, chosen⟩, -⟩ := (eval_cond_eq_ok_iff i ternary).mp ho
    obtain ⟨d, parts', inverts⟩ := parts.inverted standard k silent
    obtain ⟨p, chosen'⟩ := (choose_inverted_ok inverts t f).mp ⟨o, chosen⟩
    have unreported := text_of_silent silent p.value
    exact ⟨p, (eval_cond_eq_ok_iff j ternary').mpr ⟨⟨d, f, t, parts', chosen'⟩, unreported⟩⟩
  · rintro ⟨p, hp⟩
    obtain ⟨⟨d, f, t, parts', chosen'⟩, -⟩ := (eval_cond_eq_ok_iff j ternary').mp hp
    obtain ⟨c, parts, inverts⟩ := parts'.of_inverted standard k
    obtain ⟨o, chosen⟩ := (choose_inverted_ok inverts t f).mpr ⟨p, chosen'⟩
    have unreported := text_of_silent silent o.value
    exact ⟨o, (eval_cond_eq_ok_iff i ternary).mpr ⟨⟨c, t, f, parts, chosen⟩, unreported⟩⟩

theorem exists_eval_inverted
    (nodes : ∀ n ∈ (Expr.cond i condition A B ternary).nodes, n.isNode = true)
    (tame : ∀ n ∈ (Expr.cond i condition A B ternary).nodes, ∀ language,
      n.language? = some language → (ev.dialect language).IsTame) (hs : s.Good) :
    ∃ p, (ev.eval (.cond j (.prefixed k .not condition language) B A ternary') s).result =
      .ok p := by
  have negation : ∀ language',
      (Expr.prefixed k .not condition language).language? = some language' →
        (ev.dialect language').IsTame := by
    rintro _ ⟨⟩
    exact Or.inr standard
  obtain ⟨p, hp, -⟩ := eval_regular (forall_nodes_inverted nodes rfl rfl)
    (forall_nodes_inverted tame negation nofun) hs
  exact ⟨p, hp⟩

end

/-- Negating the condition and exchanging the branches changes neither the value nor the state, for
any languages and from any state. From the states that evaluation leads to both conditionals have an
outcome, and elsewhere both or none has, unless every node is to be reported. -/
theorem inverted_condition_agrees {ev : Evaluator} {language : Option String}
    (standard : (ev.dialect language).operators = some .standard) (condition : Expr)
    (A B : Option Expr) (i j k : Nat) (ternary ternary' : Bool) (s : State) :
    let plain := (ev.eval (.cond i condition A B ternary) s).result
    let inverted :=
      (ev.eval (.cond j (.prefixed k .not condition language) B A ternary') s).result
    (∀ o p, plain = .ok o → inverted = .ok p →
      o.value.same p.value = true ∧ o.state.same p.state = true) ∧
    (s.Reached → (∀ n ∈ (Expr.cond i condition A B ternary).nodes, n.isNode = true) →
      (∀ n ∈ (Expr.cond i condition A B ternary).nodes, ∀ language, n.language? = some language →
        (ev.dialect language).IsTame) →
      (∃ o, plain = .ok o) ∧ ∃ p, inverted = .ok p) ∧
    (ev.options.trace = false → ((∃ o, plain = .ok o) ↔ ∃ p, inverted = .ok p)) := by
  refine ⟨fun o p ho hp => ?agree, fun hs nodes tame => ?reached, ?silent⟩
  case agree => exact (Bool.and_eq_true _ _).mp (eval_inverted_same standard ho hp)
  case reached =>
    obtain ⟨o, ho, -⟩ := eval_regular nodes tame hs.good
    exact ⟨⟨o, ho⟩, exists_eval_inverted standard nodes tame hs.good⟩
  case silent => exact exists_eval_inverted_iff standard

/-- A path that ends under a condition that is not known, with the join of two values in the
condition, and every node reported. -/
theorem inverted_condition_agrees_join :
    let x : Symbol := .decl ⟨0, "x", .block⟩
    let ev : Evaluator := ⟨.standard, ⟨true, Dialects.defaultLanguage⟩⟩
    let condition : Expr :=
      .binary 7 (.reference 8 "x" (some x)) .gt (.literal 9 (.int 1) false) none
    let A : Option Expr := some (.ret 10 none)
    let B : Option Expr := some (.postfixed 11 (.reference 12 "x" (some x)) .dec none)
    ∃ s : State, s.Reached ∧ (∃ v w, s.lookup x = .phi [v, w]) ∧
      ∃ o p, (ev.eval (.cond 13 condition A B false) s).result = .ok o ∧
        (ev.eval (.cond 14 (.prefixed 15 .not condition none) B A false) s).result = .ok p ∧
        o.value.same p.value = true ∧ o.state.same p.state = true := by
  intro x ev condition A B
  obtain ⟨r, hr, reached⟩ := @exists_reached conditionalIncrement (by decide)
  have tame : ∀ n ∈ (Expr.cond 13 condition A B false).nodes, ∀ language,
      n.language? = some language → (ev.dialect language).IsTame :=
    fun _ _ language _ => dialect_isTame isTame_standard language
  obtain ⟨agree, succeeds, -⟩ := @inverted_condition_agrees ev none rfl condition A B 13 14 15 false
    false r.state
  obtain ⟨⟨o, ho⟩, p, hp⟩ := succeeds reached (by decide) tame
  refine ⟨r.state, reached, ?_, o, p, ho, hp, agree o p ho hp⟩
  cases hr
  exact ⟨_, _, rfl⟩

end Evaluator

end ValueFlow
