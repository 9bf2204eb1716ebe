import ValueFlow.Proofs.Frame
import ValueFlow.Proofs.Subsumption

/-!
# Evaluation without operators

A dialect that knows no operators gives values that are not known and leaves the state as it is.
Evaluation with it loses information, with three exceptions. An operator that updates a symbol
leaves its old binding behind, and so does all that is assigned from it. Where a part does not go on
and evaluation goes on after it, the states after it are not related. And a value that is not known
to be one constant, though all its alternatives are, may be known with less information.

* `Expr.confines`: what is assigned from given symbols, and what operators update, is among them.
* `Evaluator.isSteady`: no part of an evaluation is one of the other two exceptions.
* `Evaluator.eval_fallback`: evaluation without operators subsumes evaluation with the standard ones
  outside the given symbols.
* `Evaluator.eval_fallback_lossy`: each exception.
-/

namespace ValueFlow

open Value

namespace Expr

mutual

/-- The value may come from a binding of one of the given symbols. Without operators only `+` and
`-` hand a value on. -/
def carries (U : List Symbol) : Expr → Bool
  | .reference _ _ (some (.decl x)) => (Symbol.decl x).isIn U
  | .binary _ left op right _ =>
    (op == .plus || op == .minus) && (left.carries U || right.carries U)
  | .cond _ _ thenBranch elseBranch _ => carriesBranch U thenBranch || carriesBranch U elseBranch
  | .block _ body => carriesLast U false body
  | .paren _ inner => inner.carries U
  | _ => false

def carriesBranch (U : List Symbol) : Option Expr → Bool
  | none => false
  | some e => e.carries U

/-- The value of a sequence is that of its last expression. -/
def carriesLast (U : List Symbol) (carried : Bool) : List Expr → Bool
  | [] => carried
  | e :: es => carriesLast U (e.carries U) es

end

/-- What the node assigns from one of the given symbols, and what it updates, is one of them, and it
does not choose a branch by one. -/
def confines (U : List Symbol) : Expr → Bool
  | .binary _ left op right _ =>
    if op = .assign then !right.carries U || left.target?.all fun x => x.isIn U
    else op.compound?.isNone || left.target?.any fun x => x.isIn U
  | .prefixed _ (.step _) operand _ => operand.target?.any fun x => x.isIn U
  | .postfixed _ operand _ _ => operand.target?.any fun x => x.isIn U
  | .cond _ condition _ _ _ => !condition.carries U
  | .declare _ x (some init) => !init.carries U || x.isIn U
  | _ => true

end Expr

namespace Evaluator

mutual

/-- Every condition, selector and right operand that is evaluated goes on, and neither a condition
nor an operand of `+` or `-` is unanimous. -/
def isSteady (ev : Evaluator) : Expr → State → Bool
  | .qualified _ receiver selector _ _, s =>
    ev.isSteady receiver s && (ev.eval receiver s).passes fun r =>
      !r.isReachable || (ev.isSteady selector r.state &&
        (ev.eval selector r.state).passes fun o => o.isReachable)
  | .call _ _ args, s => ev.areSteady args s
  | .binary _ left op right _, s =>
    if op = .assign then ev.isSteady right s
    else ev.isSteady left s && (ev.eval left s).passes fun l =>
      !l.isReachable || (ev.isSteady right l.state && (ev.eval right l.state).passes fun r =>
        r.isReachable && ((op != .plus && op != .minus) ||
          (!l.value.isUnanimous && !r.value.isUnanimous)))
  | .prefixed _ _ operand _, s => ev.isSteady operand s
  | .postfixed _ operand _ _, s => ev.isSteady operand s
  | .cond _ condition thenBranch elseBranch _, s =>
    ev.isSteady condition s && (ev.eval condition s).passes fun c =>
      c.isReachable && !c.value.isUnanimous &&
        (c.value.coreConstant? == some (.bool false) || ev.isSteadyBranch thenBranch c.state) &&
          (c.value.coreConstant? == some (.bool true) || ev.isSteadyBranch elseBranch c.state)
  | .block _ body, s => ev.areSteady body s
  | .declare _ _ init, s => ev.isSteadyBranch init s
  | .paren _ inner, s => ev.isSteady inner s
  | _, _ => true

def isSteadyBranch (ev : Evaluator) : Option Expr → State → Bool
  | none, _ => true
  | some e, s => ev.isSteady e s

def areSteady (ev : Evaluator) : List Expr → State → Bool
  | [], _ => true
  | e :: es, s => ev.isSteady e s && (ev.eval e s).passes fun o =>
    !o.isReachable || ev.areSteady es o.state

end

/-- Every language that a tree names has no operators. -/
def IsSilentFor (ev : Evaluator) (e : Expr) : Prop :=
  ∀ n ∈ e.nodes, ∀ language, n.language? = some language →
    (ev.dialect language).operators = none

section

variable {U : List Symbol} {stale : Bool} {s t : State} {q r : Outcome}

/-- What is not known subsumes everything. -/
theorem keeps_undetermined (h : t.Subsumes U q.state) :
    Outcome.Keeps U stale ⟨.undetermined, t⟩ q :=
  ⟨rfl, fun _ => subsumes_of_isOpen rfl q.value, h⟩

theorem keeps_refl {v : Value} (hv : v.isReachable = true) (h : t.Subsumes U s) :
    Outcome.Keeps U stale ⟨v, t⟩ ⟨v, s⟩ := ⟨hv, fun _ => subsumes_refl v, h⟩

theorem pairs_of_unreachable (h : q.isReachable = false) (y : Except Fault Outcome) :
    Pairs (fun q r => Outcome.Subsumes U stale r q) (.ok q) y := by
  rintro _ r ⟨⟩ _
  exact .of_unreachable h r

/-- What an operator updates is within the given symbols. -/
theorem subsumes_updates (h : t.Subsumes U s) {operand : Value} {target : Option Symbol}
    (within : (target.any fun x => x.isIn U) = true) {s' : State}
    (updates : Dialect.Updates operand target s s') : t.Subsumes U s' := by
  rcases updates with rfl | ⟨x, new, hx, rfl⟩
  · exact h
  · cases target with
    | none => cases within
    | some y =>
      cases hx
      exact h.assign_within within new none

theorem assign_subsumes {carried : Bool} (h : r.Subsumes U carried q) {target : Option Symbol}
    (within : (!carried || target.all fun x => x.isIn U) = true) (source : Expr) :
    (Evaluator.assign target source r).Subsumes U stale (Evaluator.assign target source q) := by
  unfold Evaluator.assign
  cases reach : q.isReachable with
  | false => exact .of_unreachable rfl _
  | true =>
    have kept := h reach
    rw [kept.reachable]
    cases target with
    | none => exact fun _ => keeps_undetermined kept.state
    | some x =>
      refine fun _ => keeps_undetermined (kept.state.assign (fun hx => kept.value ?_) _ _)
      cases carried with
      | false => rfl
      | true =>
        have inside : x.isIn U = true := within
        rw [hx] at inside
        cases inside

theorem choose_subsumes {c d : Value} (hdc : d.subsumes c = true) (hc : c.isUnanimous = false)
    {o o' p p' : Outcome} (h : c.coreConstant? ≠ some (.bool false) → p.Subsumes U stale o)
    (h' : c.coreConstant? ≠ some (.bool true) → p'.Subsumes U stale o') :
    Pairs (fun q r => Outcome.Subsumes U stale r q) (choose c o o') (choose d p p') := by
  have chosen : ∀ {b b' : Bool}, c.coreConstant? = some (.bool b) → b ≠ b' →
      c.coreConstant? ≠ some (.bool b') := by
    intro b b' hb ne hb'
    rw [hb] at hb'
    cases hb'
    exact ne rfl
  by_cases known : ∃ b, d.coreConstant? = some (.bool b)
  · -- what is known here is known there, so the same branch is chosen
    obtain ⟨b, hb⟩ := known
    obtain ⟨e, he, same⟩ := core_of_subsumes (core_of_coreConstant? hb) hdc hc
    have eq : e = .bool b := by
      cases e with
      | bool b' => rw [eq_of_beq same]
      | _ => cases same
    have hb' : c.coreConstant? = some (.bool b) := by
      rw [coreConstant?, he, eq]
      rfl
    rw [choose_of_bool hb, choose_of_bool hb']
    cases b with
    | true => exact .ok (h (chosen hb' (by decide)))
    | false => exact .ok (h' (chosen hb' (by decide)))
  · rw [choose_of_not_bool fun b hb => known ⟨b, hb⟩]
    by_cases known' : ∃ b, c.coreConstant? = some (.bool b)
    · obtain ⟨b, hb⟩ := known'
      rw [choose_of_bool hb]
      rintro _ m ⟨⟩ hm
      cases b with
      | true => exact (h (chosen hb (by decide))).merge_left hm
      | false => exact (h' (chosen hb (by decide))).merge_right hm
    · rw [choose_of_not_bool fun b hb => known' ⟨b, hb⟩]
      intro q m hq hm
      have left := h fun hb => known' ⟨_, hb⟩
      have right := h' fun hb => known' ⟨_, hb⟩
      exact (left.merge_left hm).of_merge (right.merge_right hm) hq

/-- Sums and differences are computed in every language, and keep the order. -/
theorem sum_subsumes {op : BinaryOp} (hop : op = .plus ∨ op = .minus) {f : BinaryCore}
    (hf : op.core? = some f) {left left' right right' : Value} {carried carried' : Bool}
    (hl : carried = false → left'.subsumes left = true)
    (hr : carried' = false → right'.subsumes right = true) (settled : left.isUnanimous = false)
    (settled' : right.isUnanimous = false) (h : t.Subsumes U s) :
    Pairs (fun q r => Outcome.Subsumes U (carried || carried') r q)
      ((lift2 f left right).map fun v => ⟨v, s⟩) ((lift2 f left' right').map fun v => ⟨v, t⟩) := by
  have reachable : ∀ v, lift2 f left' right' = .ok v → v.isReachable = true := by
    intro v hv
    obtain ⟨c, hc, rfl⟩ := lift2_eq_ok hv
    have given := BinaryOp.core_ensures hf left'.core right'.core
    rw [hc] at given
    exact isReachable_dependingOn (isReachable_of_isAtom (isAtom_of_isPlain given.plain)) _
  have values : (carried || carried') = false →
      Pairs (fun v w => w.subsumes v = true) (lift2 f left right) (lift2 f left' right') := by
    intro fresh
    obtain ⟨fresh, fresh'⟩ := Bool.or_eq_false_iff.mp fresh
    rcases hop with rfl | rfl
    · cases hf
      exact subsumes_lift2 (Arithmetic.binary_strict _ _) (Arithmetic.binary_same _ Double.add_same)
        (hl fresh) (hr fresh') settled settled'
    · cases hf
      exact subsumes_lift2 (Arithmetic.binary_strict _ _) (Arithmetic.binary_same _ Double.sub_same)
        (hl fresh) (hr fresh') settled settled'
  have both : Pairs (fun v w => w.isReachable = true ∧
      ((carried || carried') = false → w.subsumes v = true))
      (lift2 f left right) (lift2 f left' right') :=
    fun v w hv hw => ⟨reachable w hw, fun fresh => values fresh v w hv hw⟩
  exact both.map fun v w hvw _ => ⟨hvw.1, hvw.2, h⟩

end

/-- Where the first evaluation is steady, the second one subsumes it. -/
def IsShadowedBy (ev silent : Evaluator) (U : List Symbol) (e : Expr) : Prop :=
  ∀ s t, t.Subsumes U s → ev.isSteady e s = true →
    Pairs (fun q r => Outcome.Subsumes U (e.carries U) r q) (ev.eval e s).result
      (silent.eval e t).result

section

variable {ev silent : Evaluator} {U : List Symbol} {s t : State}

/-- A branch counts only where it may be chosen. -/
theorem evalBranch_subsumes {e : Option Expr} (he : ∀ c ∈ e.toList, ev.IsShadowedBy silent U c)
    (hst : t.Subsumes U s) {skipped : Prop} (steady : skipped ∨ ev.isSteadyBranch e s = true) :
    Pairs (fun q r => ¬ skipped → Outcome.Subsumes U (Expr.carriesBranch U e) r q)
      (ev.evalBranch e s).result (silent.evalBranch e t).result := by
  cases e with
  | none => exact .ok fun _ _ => keeps_undetermined hst
  | some e =>
    intro q r hq hr counts
    exact he e List.mem_cons_self s t hst (steady.resolve_left counts) q r hq hr

theorem evalArgs_subsumes {args : List Expr} (hargs : ∀ c ∈ args, ev.IsShadowedBy silent U c)
    {result : Value} (reachable : result.isReachable = true) (hst : t.Subsumes U s)
    (steady : ev.areSteady args s = true) :
    Pairs (fun q r => Outcome.Subsumes U false r q) (ev.evalArgs result args s).result
      (silent.evalArgs result args t).result := by
  induction args generalizing s t with
  | nil => exact .ok fun _ => keeps_refl reachable hst
  | cons arg args ih =>
    obtain ⟨harg, hrest⟩ := List.forall_mem_cons.mp hargs
    rw [areSteady, Bool.and_eq_true] at steady
    rw [evalArgs, evalArgs]
    refine ((harg s t hst steady.1).and_left (Traced.of_passes steady.2)).bind_traced ?_
    rintro o p ⟨hop, next⟩
    cases reach : o.isReachable with
    | false => exact pairs_of_unreachable rfl _
    | true =>
      have kept := hop reach
      rw [reach] at next
      rw [kept.reachable]
      exact ih hrest kept.state next

theorem evalBlock_subsumes {body : List Expr} (hbody : ∀ c ∈ body, ev.IsShadowedBy silent U c)
    {q r : Outcome} {carried : Bool} (h : r.Keeps U carried q)
    (steady : ev.areSteady body q.state = true) :
    Pairs (fun q r => Outcome.Subsumes U (Expr.carriesLast U carried body) r q)
      (ev.evalBlock body q).result (silent.evalBlock body r).result := by
  induction body generalizing q r carried with
  | nil => exact .ok fun _ => h
  | cons e es ih =>
    obtain ⟨he, hrest⟩ := List.forall_mem_cons.mp hbody
    rw [areSteady, Bool.and_eq_true] at steady
    rw [evalBlock, evalBlock]
    refine ((he _ _ h.state steady.1).and_left (Traced.of_passes steady.2)).bind_traced ?_
    rintro o p ⟨hop, next⟩
    cases reach : o.isReachable with
    | false => exact pairs_of_unreachable reach _
    | true =>
      have kept := hop reach
      rw [reach] at next
      rw [kept.reachable]
      exact ih hrest kept next

theorem applyBinary_subsumes {language : Option String} (hd : (ev.dialect language).IsTame)
    (hd' : (silent.dialect language).operators = none) {op : BinaryOp} (hop : op ≠ .assign)
    {target : Option Symbol}
    (within : (op.compound?.isNone || target.any fun x => x.isIn U) = true)
    {l l' r r' : Value} {carried carried' : Bool} (hl : carried = false → l'.subsumes l = true)
    (hr : carried' = false → r'.subsumes r = true)
    (settled : ((op != .plus && op != .minus) || (!l.isUnanimous && !r.isUnanimous)) = true)
    (hst : t.Subsumes U s) :
    Pairs
      (fun q r => Outcome.Subsumes U ((op == .plus || op == .minus) && (carried || carried')) r q)
      (ev.applyBinary op language l r s target).result
      (silent.applyBinary op language l' r' t target).result := by
  by_cases hplus : op = .plus
  · subst hplus
    rw [applyBinary_plus, applyBinary_plus]
    have operands : l.isUnanimous = false ∧ r.isUnanimous = false := by simpa using settled
    exact @sum_subsumes _ _ _ .plus (Or.inl rfl) _ rfl _ _ _ _ _ _ hl hr operands.1 operands.2 hst
  by_cases hminus : op = .minus
  · subst hminus
    rw [applyBinary_minus, applyBinary_minus]
    have operands : l.isUnanimous = false ∧ r.isUnanimous = false := by simpa using settled
    exact @sum_subsumes _ _ _ .minus (Or.inr rfl) _ rfl _ _ _ _ _ _ hl hr operands.1 operands.2 hst
  rw [applyBinary_of_dialect ev language hplus hminus,
    applyBinary_of_dialect silent language hplus hminus, Dialect.evalBinary_silent _ _ _ _ hd']
  rintro q _ hq ⟨⟩ _
  have written := Dialect.evalBinary_writes hd l r s target hop
  rw [hq] at written
  refine keeps_undetermined ?_
  rcases written.2 with same | ⟨compound, updates⟩
  · rw [same]
    exact hst
  · refine subsumes_updates hst ?_ updates
    rw [Option.isNone_eq_false_iff.mpr compound] at within
    exact within

namespace IsShadowedBy

variable {id : Nat} {language : Option String} {left right operand : Expr}

theorem qualified {receiver selector : Expr} {access : Access}
    (hd : (silent.dialect language).operators = none)
    (hreceiver : ev.IsShadowedBy silent U receiver)
    (hselector : ev.IsShadowedBy silent U selector) :
    ev.IsShadowedBy silent U (.qualified id receiver selector access language) := by
  intro s t hst steady
  rw [isSteady, Bool.and_eq_true] at steady
  rw [eval, eval]
  refine report_pairs (((hreceiver s t hst steady.1).and_left
    (Traced.of_passes steady.2)).bind_traced ?_)
  rintro q r ⟨hqr, next⟩
  cases reach : q.isReachable with
  | false => exact pairs_of_unreachable reach _
  | true =>
    have kept := hqr reach
    rw [reach, Bool.not_true, Bool.false_or, Bool.and_eq_true] at next
    rw [kept.reachable]
    refine ((hselector _ _ kept.state next.1).and_left (Traced.of_passes next.2)).bind_traced ?_
    rintro o p ⟨hop, goes⟩
    rw [dialectFor_bind, dialectFor_bind, Dialect.evalQualified_silent hd]
    refine .ok fun _ => keeps_undetermined ?_
    rw [Dialect.evalQualified_state]
    exact (hop goes).state

theorem assignment (confined : (Expr.binary id left .assign right language).confines U = true)
    (hright : ev.IsShadowedBy silent U right) :
    ev.IsShadowedBy silent U (.binary id left .assign right language) := by
  intro s t hst steady
  rw [isSteady, if_pos rfl] at steady
  rw [Expr.confines, if_pos rfl] at confined
  rw [eval, eval]
  exact report_pairs ((hright s t hst steady).bind_traced fun q r hqr =>
    .ok (assign_subsumes hqr confined right))

theorem operator {op : BinaryOp} (hop : op ≠ .assign) (hd : (ev.dialect language).IsTame)
    (hd' : (silent.dialect language).operators = none)
    (confined : (Expr.binary id left op right language).confines U = true)
    (hleft : ev.IsShadowedBy silent U left) (hright : ev.IsShadowedBy silent U right) :
    ev.IsShadowedBy silent U (.binary id left op right language) := by
  intro s t hst steady
  rw [isSteady, if_neg hop, Bool.and_eq_true] at steady
  rw [Expr.confines, if_neg hop] at confined
  rw [eval_binary hop, eval_binary hop]
  refine report_pairs (((hleft s t hst steady.1).and_left
    (Traced.of_passes steady.2)).bind_traced ?_)
  rintro l l' ⟨hl, next⟩
  cases reach : l.isReachable with
  | false => exact pairs_of_unreachable rfl _
  | true =>
    have keptLeft := hl reach
    rw [reach, Bool.not_true, Bool.false_or, Bool.and_eq_true] at next
    rw [keptLeft.reachable]
    refine ((hright _ _ keptLeft.state next.1).and_left (Traced.of_passes next.2)).bind_traced ?_
    rintro r r' ⟨hr, goes⟩
    rw [Bool.and_eq_true] at goes
    have keptRight := hr goes.1
    exact applyBinary_subsumes hd hd' hop confined keptLeft.value keptRight.value goes.2
      keptRight.state

theorem prefixed {op : PrefixOp} (hd : (ev.dialect language).IsTame)
    (hd' : (silent.dialect language).operators = none)
    (confined : (Expr.prefixed id op operand language).confines U = true)
    (hoperand : ev.IsShadowedBy silent U operand) :
    ev.IsShadowedBy silent U (.prefixed id op operand language) := by
  intro s t hst steady
  rw [isSteady] at steady
  rw [eval, eval]
  refine report_pairs ((hoperand s t hst steady).bind_traced fun q r hqr => ?_)
  cases reach : q.isReachable with
  | false => exact pairs_of_unreachable reach _
  | true =>
    have kept := hqr reach
    rw [kept.reachable, if_pos rfl, if_pos rfl, dialectFor_bind, dialectFor_bind,
      Traced.liftM_result, Traced.liftM_result, Dialect.evalPrefix_silent _ _ _ hd']
    rintro o _ ho ⟨⟩ _
    have written := Dialect.evalPrefix_writes hd q.value q.state operand.target? op
    rw [ho] at written
    refine keeps_undetermined ?_
    rcases written.2 with same | ⟨⟨step, rfl⟩, updates⟩
    · rw [same]
      exact kept.state
    · exact subsumes_updates kept.state confined updates

theorem postfixed {op : StepOp} (hd : (ev.dialect language).IsTame)
    (hd' : (silent.dialect language).operators = none)
    (confined : (Expr.postfixed id operand op language).confines U = true)
    (hoperand : ev.IsShadowedBy silent U operand) :
    ev.IsShadowedBy silent U (.postfixed id operand op language) := by
  intro s t hst steady
  rw [isSteady] at steady
  rw [eval, eval]
  refine report_pairs ((hoperand s t hst steady).bind_traced fun q r hqr => ?_)
  cases reach : q.isReachable with
  | false => exact pairs_of_unreachable reach _
  | true =>
    have kept := hqr reach
    rw [kept.reachable, if_pos rfl, if_pos rfl, dialectFor_bind, dialectFor_bind,
      Traced.liftM_result, Traced.liftM_result, Dialect.evalPostfix_silent _ _ _ hd']
    rintro o _ ho ⟨⟩ _
    have written := Dialect.evalPostfix_writes hd q.value q.state operand.target? op
    rw [ho] at written
    exact keeps_undetermined (subsumes_updates kept.state confined written.2)

theorem cond {condition : Expr} {thenBranch elseBranch : Option Expr} {ternary : Bool}
    (fresh : condition.carries U = false) (hcondition : ev.IsShadowedBy silent U condition)
    (hthen : ∀ c ∈ thenBranch.toList, ev.IsShadowedBy silent U c)
    (helse : ∀ c ∈ elseBranch.toList, ev.IsShadowedBy silent U c) :
    ev.IsShadowedBy silent U (.cond id condition thenBranch elseBranch ternary) := by
  intro s t hst steady
  rw [isSteady, Bool.and_eq_true] at steady
  rw [eval, eval]
  refine report_pairs (((hcondition s t hst steady.1).and_left
    (Traced.of_passes steady.2)).bind_traced ?_)
  rintro c d ⟨hcd, next⟩
  simp only [Bool.and_eq_true, Bool.or_eq_true, beq_iff_eq, Bool.not_eq_true'] at next
  obtain ⟨⟨⟨goes, settled⟩, thenSteady⟩, elseSteady⟩ := next
  have kept := hcd goes
  refine (evalBranch_subsumes hthen kept.state thenSteady).bind_traced fun o p hop => ?_
  refine (evalBranch_subsumes helse kept.state elseSteady).bind_traced fun o' p' hop' => ?_
  refine choose_subsumes (kept.value fresh) settled (fun h => (hop h).mono fun carried => ?_)
    fun h => (hop' h).mono fun carried => ?_
  · rw [Expr.carries, carried, Bool.true_or]
  · rw [Expr.carries, carried, Bool.or_true]

theorem declare {x : Symbol} {init : Expr}
    (confined : (Expr.declare id x (some init)).confines U = true)
    (hinit : ev.IsShadowedBy silent U init) :
    ev.IsShadowedBy silent U (.declare id x (some init)) := by
  intro s t hst steady
  rw [isSteady, isSteadyBranch] at steady
  rw [eval, eval]
  have within : (!init.carries U || (some x).all fun y => y.isIn U) = true := confined
  exact report_pairs ((hinit s t hst steady).bind_traced fun q r hqr =>
    .ok (assign_subsumes hqr within init))

end IsShadowedBy

theorem isShadowedBy {e : Expr}
    (tame : ∀ n ∈ e.nodes, ∀ language, n.language? = some language →
      (ev.dialect language).IsTame) (fallback : silent.IsSilentFor e)
    (confined : ∀ n ∈ e.nodes, n.confines U = true) : ev.IsShadowedBy silent U e := by
  induction e using Expr.induction with
  | node e ih =>
    obtain ⟨tameHere, tameBelow⟩ := Expr.forall_nodes.mp tame
    obtain ⟨silentHere, silentBelow⟩ := Expr.forall_nodes.mp fallback
    obtain ⟨confinedHere, confinedBelow⟩ := Expr.forall_nodes.mp confined
    have part : ∀ c ∈ e.children, ev.IsShadowedBy silent U c := fun c hc =>
      ih c hc (tameBelow c hc) (silentBelow c hc) (confinedBelow c hc)
    intro s t hst steady
    cases e with
    | literal id value isChar =>
      have plain := (value.eval_gives isChar).1
      have reachable := isReachable_of_isAtom (isAtom_of_isPlain plain)
      exact report_pairs (.ok fun _ => keeps_refl reachable hst)
    | ret | brk | cont | raise => exact report_pairs (pairs_of_unreachable rfl _)
    | unmodelled => exact report_pairs (.ok fun _ => keeps_undetermined hst)
    | classLiteral id name =>
      cases name with
      | none => exact report_pairs (.ok fun _ => keeps_undetermined hst)
      | some name => exact report_pairs (.ok fun _ => keeps_refl rfl hst)
    | reference id name target =>
      cases target with
      | none => exact report_pairs (.ok fun _ => keeps_refl rfl hst)
      | some x =>
        cases x with
        | decl x => exact report_pairs (.ok fun _ => ⟨hst.reachable _, hst.values _, hst⟩)
        | entry c => exact report_pairs (.ok fun _ => keeps_refl rfl hst)
    | qualified id receiver selector access language =>
      have hselector := part selector (List.mem_cons_of_mem _ List.mem_cons_self)
      exact IsShadowedBy.qualified (silentHere language rfl) (part receiver List.mem_cons_self)
        hselector s t hst steady
    | call id callee args =>
      rw [isSteady] at steady
      rw [eval, eval]
      exact report_pairs (evalArgs_subsumes part rfl hst steady)
    | binary id left op right language =>
      have hright := part right (List.mem_cons_of_mem _ List.mem_cons_self)
      by_cases hop : op = .assign
      · subst hop
        exact IsShadowedBy.assignment confinedHere hright s t hst steady
      · exact IsShadowedBy.operator hop (tameHere language rfl) (silentHere language rfl)
          confinedHere (part left List.mem_cons_self) hright s t hst steady
    | prefixed id op operand language =>
      exact IsShadowedBy.prefixed (tameHere language rfl) (silentHere language rfl) confinedHere
        (part operand List.mem_cons_self) s t hst steady
    | postfixed id operand op language =>
      exact IsShadowedBy.postfixed (tameHere language rfl) (silentHere language rfl) confinedHere
        (part operand List.mem_cons_self) s t hst steady
    | cond id condition thenBranch elseBranch ternary =>
      have fresh : condition.carries U = false := Bool.not_eq_true' _ ▸ confinedHere
      have hthen := fun e he => part e (List.mem_cons_of_mem _ (List.mem_append_left _ he))
      have helse := fun e he => part e (List.mem_cons_of_mem _ (List.mem_append_right _ he))
      exact IsShadowedBy.cond fresh (part condition List.mem_cons_self) hthen helse s t hst steady
    | block id body =>
      rw [isSteady] at steady
      rw [eval, eval]
      exact report_pairs (evalBlock_subsumes part (keeps_undetermined hst) steady)
    | declare id x init =>
      cases init with
      | none => exact report_pairs (.ok fun _ => keeps_undetermined hst)
      | some init =>
        exact IsShadowedBy.declare confinedHere (part init List.mem_cons_self) s t hst steady
    | paren id inner =>
      rw [isSteady] at steady
      rw [eval, eval]
      exact report_pairs (part inner List.mem_cons_self s t hst steady)
    | foreign what =>
      rw [eval]
      rintro _ _ ⟨⟩

/-- If what operators update, and what is assigned from it, is confined to some symbols, and the
evaluation with the standard operators is steady, then evaluation without operators succeeds as well
and subsumes it, outside these symbols. -/
theorem eval_fallback {e : Expr} (nodes : ∀ n ∈ e.nodes, n.isNode = true)
    (standard : ev.IsStandardFor e) (fallback : silent.IsSilentFor e)
    (confined : ∀ n ∈ e.nodes, n.confines U = true) (hs : s.Reached)
    (steady : ev.isSteady e s = true) :
    ∃ q r, (ev.eval e s).result = .ok q ∧ (silent.eval e s).result = .ok r ∧
      r.Subsumes U (e.carries U) q := by
  have tame : ∀ n ∈ e.nodes, ∀ language, n.language? = some language →
      (ev.dialect language).IsTame := fun n hn language hl => Or.inr (standard n hn language hl)
  have tame' : ∀ n ∈ e.nodes, ∀ language, n.language? = some language →
      (silent.dialect language).IsTame := fun n hn language hl => Or.inl (fallback n hn language hl)
  obtain ⟨q, hq, -⟩ := eval_regular nodes tame hs.good
  obtain ⟨r, hr, -⟩ := eval_regular nodes tame' hs.good
  have same : s.Subsumes U s := .refl fun x => (hs.good.lookup_wellShaped x).isReachable
  exact ⟨q, r, hq, hr, isShadowedBy tame fallback confined s s same steady q r hq hr⟩

end

/-- Increments `x`, assigns it to `z`, and computes with `y` on two paths. -/
def guardedSum : Expr :=
  let x : Symbol := .decl ⟨0, "x", .block⟩
  let y : Symbol := .decl ⟨1, "y", .block⟩
  let z : Symbol := .decl ⟨2, "z", .block⟩
  let w : Symbol := .decl ⟨3, "w", .block⟩
  .block 0 [.declare 1 x (some (.literal 2 (.int 1) false)),
    .declare 3 y (some (.literal 4 (.int 2) false)),
    .postfixed 5 (.reference 6 "x" (some x)) .inc none,
    .binary 7 (.reference 8 "z" (some z)) .assign (.reference 9 "x" (some x)) none,
    .cond 10 (.binary 11 (.reference 12 "y" (some y)) .lt (.literal 13 (.int 3) false) none)
      (some (.binary 14 (.reference 15 "w" (some w)) .assign
        (.binary 16 (.reference 17 "y" (some y)) .plus (.literal 18 (.int 1) false) none) none))
      (some (.binary 19 (.reference 20 "w" (some w)) .assign (.literal 21 (.int 0) false) none))
      false,
    .reference 22 "w" (some w)]

/-- What is incremented, and what is assigned from it. -/
def guardedSymbols : List Symbol := [.decl ⟨0, "x", .block⟩, .decl ⟨2, "z", .block⟩]

/-- The old binding of `x` and what is assigned from it are left out, and the value of `w`, which is
one of two, subsumes the known one. -/
theorem eval_fallback_guardedSum :
    (∀ n ∈ guardedSum.nodes, n.confines guardedSymbols = true) ∧
      isSteady ⟨.standard, .standard⟩ guardedSum .empty = true ∧
      ∃ q r, (eval ⟨.standard, .standard⟩ guardedSum .empty).result = .ok q ∧
        (eval ⟨.empty, .standard⟩ guardedSum .empty).result = .ok r ∧
        r.Subsumes guardedSymbols (guardedSum.carries guardedSymbols) q ∧
        guardedSum.carries guardedSymbols = false ∧
        q.value.core = .int 3 ∧ ∃ v v', r.value = .phi [v, v'] := by
  have standard : IsStandardFor ⟨.standard, .standard⟩ guardedSum :=
    isStandardFor_standard (by decide)
  have fallback : IsSilentFor ⟨.empty, .standard⟩ guardedSum := fun _ _ _ _ => rfl
  have confined : ∀ n ∈ guardedSum.nodes, n.confines guardedSymbols = true := by decide
  have steady : isSteady ⟨.standard, .standard⟩ guardedSum .empty = true := rfl
  obtain ⟨q, r, hq, hr, kept⟩ :=
    eval_fallback (by decide) standard fallback confined .empty steady
  refine ⟨confined, steady, q, r, hq, hr, kept, rfl, ?_, ?_⟩
  · cases hq
    rfl
  · cases hr
    exact ⟨_, _, rfl⟩

/-- Assigns 2 to `y` and does not go on if 1 is less than 2. Without operators that is not known. -/
def leavingBranch (id : Nat) (otherwise : Expr) : Expr :=
  .cond id (.binary (id + 1) (.literal (id + 2) (.int 1) false) .lt
      (.literal (id + 3) (.int 2) false) none)
    (some (.block (id + 4) [.binary (id + 5)
      (.reference (id + 6) "y" (some (.decl ⟨1, "y", .block⟩))) .assign
      (.literal (id + 7) (.int 2) false) none, .raise (id + 8) none]))
    (some otherwise) true

/-- Assigns `v` to `w` on one path and, by way of `x`, on the other. Without operators the first
path joins both. -/
def assignedTwice (v : Literal) (last : Expr) : Expr :=
  let x : Symbol := .decl ⟨0, "x", .block⟩
  let w : Symbol := .decl ⟨3, "w", .block⟩
  .block 0 [.declare 1 x (some (.literal 2 v false)),
    .cond 3 (.reference 4 "p" none)
      (some (.binary 5 (.reference 6 "w" (some w)) .assign
        (.cond 7 (.binary 8 (.literal 9 (.int 1) false) .lt (.literal 10 (.int 2) false) none)
          (some (.literal 11 v false)) (some (.reference 12 "x" (some x))) true) none))
      (some (.binary 13 (.reference 14 "w" (some w)) .assign (.reference 15 "x" (some x)) none))
      false,
    last]

/-- From the empty state, evaluation without operators gives a value or a binding that does not
subsume the one that the standard operators give. -/
def IsOverstated (e : Expr) : Prop :=
  IsStandardFor ⟨.standard, .standard⟩ e ∧ IsSilentFor ⟨.empty, .standard⟩ e ∧
    ∃ q r, (eval ⟨.standard, .standard⟩ e .empty).result = .ok q ∧
      (eval ⟨.empty, .standard⟩ e .empty).result = .ok r ∧ q.isReachable = true ∧
      (r.value.subsumes q.value = false ∨
        ∃ x, (r.state.lookup x).subsumes (q.state.lookup x) = false)

theorem isOverstated_of_eval {e : Expr}
    (unnamed : ∀ n ∈ e.nodes, n.language? = none ∨ n.language? = some none)
    (runs : ∃ q r, (eval ⟨.standard, .standard⟩ e .empty).result = .ok q ∧
      (eval ⟨.empty, .standard⟩ e .empty).result = .ok r ∧ q.isReachable = true ∧
      (r.value.subsumes q.value = false ∨
        ∃ x, (r.state.lookup x).subsumes (q.state.lookup x) = false)) : IsOverstated e :=
  ⟨isStandardFor_standard unnamed, fun _ _ _ _ => rfl, runs⟩

/-- Declares `x` as 1 and increments it. -/
def staleIncrement : Expr :=
  let x : Symbol := .decl ⟨0, "x", .block⟩
  .block 0 [.declare 1 x (some (.literal 2 (.int 1) false)),
    .postfixed 3 (.reference 4 "x" (some x)) .inc none]

/-- A condition, a selector and an operand that do not go on, and a condition and an operand with
two alternatives that are one constant. -/
def unsteadyTrees : List Expr :=
  let w : Symbol := .decl ⟨3, "w", .block⟩
  let start : Expr := .declare 1 (.decl ⟨1, "y", .block⟩) (some (.literal 2 (.int 1) false))
  [.block 0 [start, .cond 3 (leavingBranch 10 (.literal 4 (.bool true) false))
      (some (.literal 5 (.int 0) false)) (some (.literal 6 (.int 0) false)) false],
    .block 0 [start, .qualified 3 (.literal 4 (.int 0) false)
      (leavingBranch 10 (.literal 5 (.int 0) false)) .plain none],
    .block 0 [start, .binary 3 (.literal 4 (.int 0) false) .plus
      (leavingBranch 10 (.literal 5 (.int 0) false)) none],
    assignedTwice (.bool true) (.cond 16 (.reference 17 "w" (some w))
      (some (.literal 18 (.int 1) false)) (some (.literal 19 (.int 2) false)) false),
    assignedTwice (.int 1) (.binary 16 (.reference 17 "w" (some w)) .plus
      (.literal 18 (.int 1) false) none)]

/-- A steady evaluation is not enough, and neither is a tree that updates nothing. -/
theorem eval_fallback_lossy :
    (isSteady ⟨.standard, .standard⟩ staleIncrement .empty = true ∧ IsOverstated staleIncrement) ∧
      ∀ e ∈ unsteadyTrees, (∀ n ∈ e.nodes, n.confines [] = true) ∧ IsOverstated e := by
  constructor
  · exact ⟨rfl, isOverstated_of_eval (by decide)
      ⟨_, _, rfl, rfl, rfl, Or.inr ⟨.decl ⟨0, "x", .block⟩, rfl⟩⟩⟩
  · simp only [unsteadyTrees, List.forall_mem_cons]
    refine ⟨⟨by decide, isOverstated_of_eval (by decide) ?_⟩,
      ⟨by decide, isOverstated_of_eval (by decide) ?_⟩,
      ⟨by decide, isOverstated_of_eval (by decide) ?_⟩,
      ⟨by decide, isOverstated_of_eval (by decide) ?_⟩,
      ⟨by decide, isOverstated_of_eval (by decide) ?_⟩, List.forall_mem_nil _⟩
    -- With the standard operators `y` is 2 afterwards, without them it is still 1.
    · exact ⟨_, _, rfl, rfl, rfl, Or.inr ⟨.decl ⟨1, "y", .block⟩, rfl⟩⟩
    · exact ⟨_, _, rfl, rfl, rfl, Or.inr ⟨.decl ⟨1, "y", .block⟩, rfl⟩⟩
    · exact ⟨_, _, rfl, rfl, rfl, Or.inr ⟨.decl ⟨1, "y", .block⟩, rfl⟩⟩
    -- Only without them is `w` known, and with it the value.
    · exact ⟨_, _, rfl, rfl, rfl, Or.inl rfl⟩
    · exact ⟨_, _, rfl, rfl, rfl, Or.inl rfl⟩

end Evaluator

end ValueFlow
