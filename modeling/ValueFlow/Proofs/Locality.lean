import ValueFlow.Proofs.Frame
import ValueFlow.Proofs.MergeCongruence

/-!
# What evaluation depends on

Evaluation from two states that bind the symbols in a tree to matching values, or both not at all,
gives matching values and states that agree on these symbols again. Nothing but these bindings is
read: not where a condition chooses a branch, not where an operator finds what it updates in the
value of its operand, and not where states are merged symbol by symbol.

* `Value.Matches`: values that no operator tells apart.
* `Matches.lift1`, `Matches.lift2`: operators give matching results for matching operands.
* `State.Agree`, `Agree.merge`: states that agree on given symbols.
* `Evaluator.eval_locality`: two runs from states that agree on the symbols in a tree.
-/

namespace ValueFlow

open Value

namespace Expr

/-- The symbols that a tree refers to or declares. -/
def symbols (e : Expr) : List Symbol :=
  e.nodes.filterMap fun
    | .reference _ _ target => target
    | .declare _ x _ => some x
    | _ => none

theorem symbols_of_child {e c : Expr} (hc : c ∈ e.children) : c.symbols ⊆ e.symbols := by
  intro x hx
  obtain ⟨n, hn, hx⟩ := List.mem_filterMap.mp hx
  exact List.mem_filterMap.mpr ⟨n, nodes_of_child hc hn, hx⟩

end Expr

namespace Value

/-- Holds of values that are the same and, if their cores are doubles, of the same zero: both zeros
are the same, and division tells them apart. -/
structure Matches (v w : Value) : Prop where
  same : v.same w = true
  double : v.core.isDouble = true → v.core = w.core

theorem symbol?_outerVar?_congr {v w : Value} (h : v.same w = true) :
    Option.Rel (fun x y => Symbol.same x y = true) (v.outerVar?.bind symbol?)
      (w.outerVar?.bind symbol?) := by
  induction v using Value.induction generalizing w with
  | dependent v D ihv =>
    cases w with
    | dependent w E =>
      rw [same_dependent, Bool.and_eq_true] at h
      exact ihv (w := w) h.1
    | _ => cases h
  | var x v D s =>
    cases w with
    | var y w E t =>
      rw [same_var, Bool.and_eq_true, Bool.and_eq_true] at h
      exact .some h.1.1
    | _ => cases h
  | _ =>
    rw [outerVar?_of_not_isDependent (isDependent_congr h).symm]
    exact .none

namespace Matches

variable {v v' w w' : Value}

theorem refl (v : Value) : v.Matches v := ⟨same_refl v, fun _ => rfl⟩

theorem isReachable (h : v.Matches w) : v.isReachable = w.isReachable := by
  rw [Value.isReachable, Value.isReachable, isNothing_congr h.same]

theorem congruence : Congruence Matches where
  same h := h.same
  undetermined := refl _
  ofDependent h := ⟨((Bool.and_eq_true _ _).mp h.same).1, h.double⟩
  ofVar h := ⟨((Bool.and_eq_true _ _).mp ((Bool.and_eq_true _ _).mp h.same).1).2, h.double⟩
  phi h := ⟨h, nofun⟩
  dependingOn h hD := by
    refine ⟨dependingOn_congr h.same hD, ?_⟩
    rw [core_dependingOn, core_dependingOn]
    exact h.double
  boundTo s t hxy h hD := by
    refine ⟨boundTo_congr hxy h.same hD s t, ?_⟩
    rw [core_boundTo, core_boundTo]
    exact h.double

/-- Under their provenance, values that match are constants that match, or both not known. -/
theorem core_cases (h : v.Matches w) :
    (∃ c d, v.core = .const c ∧ w.core = .const d ∧ c.Matches d) ∨
      v.core.isConstant = false ∧ w.core.isConstant = false := by
  have same := core_congr h.same
  have double := h.double
  cases hv : v.core with
  | const c =>
    cases hw : w.core with
    | const d =>
      rw [hv, hw] at same double
      exact Or.inl ⟨c, d, rfl, rfl, same, fun hc => Value.const.inj (double hc)⟩
    | _ =>
      rw [hv, hw] at same
      cases same
  | _ =>
    cases hw : w.core with
    | const d =>
      rw [hv, hw] at same
      cases same
    | _ => exact Or.inr ⟨rfl, rfl⟩

theorem isConstant_core (h : v.Matches w) : v.core.isConstant = w.core.isConstant := by
  rcases h.core_cases with ⟨c, d, hv, hw, -⟩ | ⟨hv, hw⟩
  · rw [hv, hw]
    rfl
  · rw [hv, hw]

theorem coreConstant?_eq_bool (h : v.Matches w) (b : Bool) :
    v.coreConstant? = some (.bool b) ↔ w.coreConstant? = some (.bool b) := by
  unfold coreConstant?
  rcases h.core_cases with ⟨c, d, hc, hd, hcd⟩ | ⟨hv, hw⟩
  · rw [hc, hd]
    rcases hcd.eq_or_entry with rfl | ⟨_, _, rfl, rfl⟩
    · exact Iff.rfl
    · simp [constant?]
  · rw [constant?_of_not_isConstant hv, constant?_of_not_isConstant hw]

theorem core_prefix (h : v.Matches w) (op : PrefixOp) : op.core v.core = op.core w.core := by
  rcases h.core_cases with ⟨c, d, hv, hw, hcd⟩ | ⟨hv, hw⟩
  · rw [hv, hw, op.core_of_matches hcd]
  · rw [op.core_strict hv, op.core_strict hw]

theorem core_shortCircuit (h : v.Matches w) (h' : v'.Matches w') (decider : Bool) :
    Logic.shortCircuit decider v.core v'.core = Logic.shortCircuit decider w.core w'.core := by
  rcases h.core_cases with ⟨c, d, hv, hw, hcd⟩ | ⟨hv, hw⟩
  · rw [hv, hw]
    rcases hcd.eq_or_entry with rfl | ⟨a, b, rfl, rfl⟩
    · rcases h'.core_cases with ⟨c', d', hv', hw', hcd'⟩ | ⟨hv', hw'⟩
      · rw [hv', hw']
        rcases hcd'.eq_or_entry with rfl | ⟨a, b, rfl, rfl⟩
        · rfl
        · cases c <;> rfl
      · rw [Logic.shortCircuit_of_not_isConstant decider c hv',
          Logic.shortCircuit_of_not_isConstant decider c hw']
    · rfl
  · rw [Logic.shortCircuit_strict decider hv, Logic.shortCircuit_strict decider hw]

/-- No operator tells values apart that match. -/
theorem core_binary (h : v.Matches w) (h' : v'.Matches w') {op : BinaryOp} {f : BinaryCore}
    (hf : op.core? = some f) : f v.core v'.core = f w.core w'.core := by
  by_cases hand : op = .and
  · subst hand
    cases hf
    exact core_shortCircuit h h' false
  by_cases hor : op = .or
  · subst hor
    cases hf
    exact core_shortCircuit h h' true
  have strict : ∀ {a b : Value}, a.isConstant = false ∨ b.isConstant = false →
      f a b = .ok .undetermined := BinaryOp.core_strict hf hand hor
  rcases h.core_cases with ⟨c, d, hv, hw, hcd⟩ | ⟨hv, hw⟩
  · rcases h'.core_cases with ⟨c', d', hv', hw', hcd'⟩ | ⟨hv', hw'⟩
    · rw [hv, hw, hv', hw', BinaryOp.core_of_matches hf hand hor hcd hcd']
    · rw [strict (Or.inr hv'), strict (Or.inr hw')]
  · rw [strict (Or.inl hv), strict (Or.inl hw)]

/-- The zeros are the same and do not match: a quotient by them tells them apart. -/
example :
    (Value.double (.zero false)).same (.double (.zero true)) = true ∧
      Arithmetic.divCore (.double (.infinite false)) (.double (.zero false)) =
          .ok (.double (.infinite false)) ∧
        Arithmetic.divCore (.double (.infinite false)) (.double (.zero true)) =
          .ok (.double (.infinite true)) := ⟨rfl, rfl, rfl⟩

theorem lift1 (h : v.Matches w) (op : PrefixOp) :
    Concur Matches (lift1 op.core v) (lift1 op.core w) := by
  rw [lift1_eq, lift1_eq, h.core_prefix op]
  cases op.core w.core with
  | ok r => exact .ok (congruence.dependingOn (refl r) (provenance_congr h.same))
  | error e => rfl

theorem lift2 (h : v.Matches w) (h' : v'.Matches w') {op : BinaryOp} {f : BinaryCore}
    (hf : op.core? = some f) : Concur Matches (lift2 f v v') (lift2 f w w') := by
  rw [lift2_eq, lift2_eq, h.core_binary h' hf]
  have deps := union_congr (provenance_congr h.same) (provenance_congr h'.same)
  cases f w.core w'.core with
  | ok r => exact .ok (congruence.dependingOn (refl r) deps)
  | error e => rfl

theorem merge (h : v.Matches w) (h' : v'.Matches w') :
    Pairs Matches (v.merge v') (w.merge w') := by
  intro r r' hr hr'
  have alike := congruence.merge h h'
  rw [hr, hr'] at alike
  exact alike

end Matches

end Value

namespace State

/-- The states bind each of the given symbols to matching values, or both do not bind it. -/
def Agree (X : List Symbol) (s t : State) : Prop :=
  ∀ x, x.isIn X = true → Option.Rel Value.Matches (s.get? x) (t.get? x)

namespace Agree

variable {X : List Symbol} {s s' t t' : State}

theorem assign (h : s.Agree X t) {v w : Value} (hv : v.Matches w) {x y : Symbol}
    (hxy : x.same y = true) (source source' : Option Expr) :
    (s.assign x v source).Agree X (t.assign y w source') := by
  intro z hz
  have test : x.same z = y.same z := by
    rw [Symbol.same_comm, Symbol.same_congr hxy, Symbol.same_comm]
  rw [State.assign, State.assign, get?_set, get?_set, test]
  split
  · exact .some (Matches.congruence.boundTo source source' hxy hv rfl)
  · exact h z hz

theorem merge (h : s.Agree X t) (h' : s'.Agree X t') :
    Pairs (Agree X) (s.merge s') (t.merge t') :=
  fun _ _ hr hr' x hx => Matches.congruence.merge_get? (h x hx) (h' x hx) hr hr'

end Agree

end State

namespace Outcome

/-- The outcomes have matching values and states that agree on the given symbols. -/
structure Agree (X : List Symbol) (o p : Outcome) : Prop where
  value : o.value.Matches p.value
  state : o.state.Agree X p.state

namespace Agree

variable {X : List Symbol} {o o' p p' : Outcome}

theorem isReachable (h : Agree X o p) : o.isReachable = p.isReachable := h.value.isReachable

theorem merge (h : Agree X o p) (h' : Agree X o' p') :
    Pairs (Agree X) (o.merge o') (p.merge p') := by
  unfold Outcome.merge
  rw [h.isReachable, h'.isReachable]
  split
  · exact .ok h'
  split
  · exact .ok h
  · refine (h.value.merge h'.value).bind fun v w hvw => ?_
    exact (h.state.merge h'.state).bind fun s t hst => .ok ⟨hvw, hst⟩

end Agree

end Outcome

namespace Dialect

variable {X : List Symbol} {d : Dialect} {s t : State}
  {operand operand' left left' right right' : Value}

theorem update_agree {value value' new new' : Value} (hvalue : value.Matches value')
    (hnew : new.Matches new') (hst : s.Agree X t) {x y : Option Symbol}
    (hxy : Option.Rel (fun x y => Symbol.same x y = true) x y) :
    Outcome.Agree X (update value new s x) (update value' new' t y) := by
  cases hxy with
  | some hxy => exact ⟨hvalue, hst.assign hnew hxy none none⟩
  | none => exact ⟨hvalue, hst⟩

theorem updated?_congr (h : operand.Matches operand') (target : Option Symbol) :
    Option.Rel (fun x y => Symbol.same x y = true) (updated? operand target)
      (updated? operand' target) := by
  cases target with
  | some x => exact .some (Symbol.same_refl x)
  | none => exact symbol?_outerVar?_congr h.same

theorem evalPrefix_agree (hd : d.IsTame) (h : operand.Matches operand') (hst : s.Agree X t)
    (op : PrefixOp) (target : Option Symbol) :
    Concur (Outcome.Agree X) (d.evalPrefix op operand s target)
      (d.evalPrefix op operand' t target) := by
  rcases hd with hd | hd
  · rw [evalPrefix_silent _ _ _ hd, evalPrefix_silent _ _ _ hd]
    exact .ok ⟨.refl _, hst⟩
  by_cases stepping : ∃ step, op = .step step
  · obtain ⟨step, rfl⟩ := stepping
    rw [evalPrefix_step _ _ _ hd, evalPrefix_step _ _ _ hd]
    exact (h.lift1 (.step step)).map fun r r' hr =>
      update_agree hr hr hst (updated?_congr h target)
  · have plain : ∀ step, op ≠ .step step := fun step hop => stepping ⟨step, hop⟩
    rw [evalPrefix_standard _ _ _ hd plain, evalPrefix_standard _ _ _ hd plain]
    exact (h.lift1 op).map fun r r' hr => ⟨hr, hst⟩

theorem evalPostfix_agree (hd : d.IsTame) (h : operand.Matches operand') (hst : s.Agree X t)
    (op : StepOp) (target : Option Symbol) :
    Concur (Outcome.Agree X) (d.evalPostfix op operand s target)
      (d.evalPostfix op operand' t target) := by
  rcases hd with hd | hd
  · rw [evalPostfix_silent _ _ _ hd, evalPostfix_silent _ _ _ hd]
    exact .ok ⟨.refl _, hst⟩
  · rw [evalPostfix_standard _ _ _ hd, evalPostfix_standard _ _ _ hd]
    exact (h.lift1 (.step op)).map fun r r' hr =>
      update_agree h hr hst (updated?_congr h target)

theorem evalBinary_agree (hd : d.IsTame) (hl : left.Matches left') (hr : right.Matches right')
    (hst : s.Agree X t) {op : BinaryOp} (hop : op ≠ .assign) (target : Option Symbol) :
    Concur (Outcome.Agree X) (d.evalBinary op left right s target)
      (d.evalBinary op left' right' t target) := by
  rcases hd with hd | hd
  · rw [evalBinary_silent _ _ _ _ hd, evalBinary_silent _ _ _ _ hd]
    exact .ok ⟨.refl _, hst⟩
  cases hbase : op.compound? with
  | none =>
    obtain ⟨f, hf⟩ := BinaryOp.core?_of_not_assigning hop hbase
    rw [evalBinary_standard _ _ _ _ hd hf, evalBinary_standard _ _ _ _ hd hf]
    exact (hl.lift2 hr hf).map fun r r' hr => ⟨hr, hst⟩
  | some base =>
    obtain ⟨f, hf⟩ := BinaryOp.core?_of_compound? hbase
    have found := updated?_congr hl target
    cases hx : updated? left target with
    | none =>
      rw [hx] at found
      cases hy : updated? left' target with
      | none =>
        rw [evalBinary_untargeted _ _ _ _ hd hbase hx, evalBinary_untargeted _ _ _ _ hd hbase hy]
        exact .ok ⟨.refl _, hst⟩
      | some y =>
        rw [hy] at found
        cases found
    | some x =>
      rw [hx] at found
      cases hy : updated? left' target with
      | none =>
        rw [hy] at found
        cases found
      | some y =>
        rw [hy] at found
        have hxy := Option.rel_some_some.mp found
        rw [evalBinary_compound _ _ _ _ hd hbase hf hx, evalBinary_compound _ _ _ _ hd hbase hf hy]
        exact (hl.lift2 hr hf).map fun r r' hr => ⟨.refl _, hst.assign hr hxy none none⟩

theorem evalQualified_agree (d : Dialect) {o p : Outcome} (h : Outcome.Agree X o p) :
    Outcome.Agree X (d.evalQualified o) (d.evalQualified p) := by
  unfold evalQualified
  rw [h.value.isConstant_core]
  split
  · exact h
  · exact ⟨.refl _, h.state⟩

end Dialect

namespace Evaluator

variable {ev : Evaluator} {X : List Symbol}

theorem assign_agree {o p : Outcome} (h : Outcome.Agree X o p) (target : Option Symbol)
    (source source' : Expr) :
    Outcome.Agree X (Evaluator.assign target source o) (Evaluator.assign target source' p) := by
  unfold Evaluator.assign
  rw [h.isReachable]
  split
  · cases target with
    | none => exact ⟨.refl _, h.state⟩
    | some x => exact ⟨.refl _, h.state.assign h.value (Symbol.same_refl x) _ _⟩
  · exact ⟨.refl _, h.state⟩

theorem applyBinary_agree {language : Option String} (hd : (ev.dialect language).IsTame)
    {left left' right right' : Value} (hl : left.Matches left') (hr : right.Matches right')
    {s t : State} (hst : s.Agree X t) {op : BinaryOp} (hop : op ≠ .assign)
    (target : Option Symbol) :
    Concur (Outcome.Agree X) (ev.applyBinary op language left right s target).result
      (ev.applyBinary op language left' right' t target).result := by
  by_cases hplus : op = .plus
  · rw [hplus, applyBinary_plus, applyBinary_plus]
    exact (@Matches.lift2 _ _ _ _ hl hr .plus _ rfl).map fun r r' hr => ⟨hr, hst⟩
  by_cases hminus : op = .minus
  · rw [hminus, applyBinary_minus, applyBinary_minus]
    exact (@Matches.lift2 _ _ _ _ hl hr .minus _ rfl).map fun r r' hr => ⟨hr, hst⟩
  rw [applyBinary_of_dialect ev language hplus hminus,
    applyBinary_of_dialect ev language hplus hminus]
  exact Dialect.evalBinary_agree hd hl hr hst hop target

/-- Conditions that match choose the same branch, or none. -/
theorem choose_cases {v w : Value} (hvw : v.Matches w) (o o' p p' : Outcome) :
    (∃ b : Bool, choose v o o' = .ok (if b then o else o') ∧
      choose w p p' = .ok (if b then p else p')) ∨
      choose v o o' = o.merge o' ∧ choose w p p' = p.merge p' := by
  by_cases known : ∃ b, v.coreConstant? = some (.bool b)
  · obtain ⟨b, hb⟩ := known
    exact Or.inl ⟨b, choose_of_bool hb o o',
      choose_of_bool ((hvw.coreConstant?_eq_bool b).mp hb) p p'⟩
  · have left : ∀ b, v.coreConstant? ≠ some (.bool b) := fun b hb => known ⟨b, hb⟩
    have right : ∀ b, w.coreConstant? ≠ some (.bool b) :=
      fun b hb => left b ((hvw.coreConstant?_eq_bool b).mpr hb)
    exact Or.inr ⟨choose_of_not_bool left o o', choose_of_not_bool right p p'⟩

theorem choose_agree {v w : Value} (hvw : v.Matches w) {o o' p p' : Outcome}
    (h : Outcome.Agree X o p) (h' : Outcome.Agree X o' p') :
    Pairs (Outcome.Agree X) (choose v o o') (choose w p p') := by
  rcases choose_cases hvw o o' p p' with ⟨b, left, right⟩ | ⟨left, right⟩
  · rw [left, right]
    cases b with
    | true => exact .ok h
    | false => exact .ok h'
  · rw [left, right]
    exact h.merge h'

/-- Evaluation from states that agree on given symbols gives outcomes that agree on them. -/
def IsLocal (ev : Evaluator) (X : List Symbol) (e : Expr) : Prop :=
  ∀ s t, s.Agree X t → Pairs (Outcome.Agree X) (ev.eval e s).result (ev.eval e t).result

theorem evalBranch_agree {e : Option Expr} (he : ∀ c ∈ e.toList, ev.IsLocal X c) {s t : State}
    (hst : s.Agree X t) :
    Pairs (Outcome.Agree X) (ev.evalBranch e s).result (ev.evalBranch e t).result := by
  cases e with
  | none => exact .ok ⟨.refl _, hst⟩
  | some e => exact he e List.mem_cons_self s t hst

theorem evalArgs_agree {args : List Expr} (hargs : ∀ c ∈ args, ev.IsLocal X c) (result : Value)
    {s t : State} (hst : s.Agree X t) :
    Pairs (Outcome.Agree X) (ev.evalArgs result args s).result
      (ev.evalArgs result args t).result := by
  induction args generalizing s t with
  | nil => exact .ok ⟨.refl _, hst⟩
  | cons arg args ih =>
    obtain ⟨harg, hrest⟩ := List.forall_mem_cons.mp hargs
    rw [evalArgs, evalArgs]
    refine (harg s t hst).bind_traced fun o p hop => ?_
    rw [hop.isReachable]
    split
    · exact ih hrest hop.state
    · exact .ok ⟨.refl _, hop.state⟩

theorem evalBlock_agree {body : List Expr} (hbody : ∀ c ∈ body, ev.IsLocal X c) {o p : Outcome}
    (hop : Outcome.Agree X o p) :
    Pairs (Outcome.Agree X) (ev.evalBlock body o).result (ev.evalBlock body p).result := by
  induction body generalizing o p with
  | nil => exact .ok hop
  | cons e es ih =>
    obtain ⟨he, hrest⟩ := List.forall_mem_cons.mp hbody
    rw [evalBlock, evalBlock]
    refine (he o.state p.state hop.state).bind_traced fun o' p' h => ?_
    rw [h.isReachable]
    split
    · exact ih hrest h
    · exact .ok h

theorem isLocal {e : Expr}
    (tame : ∀ n ∈ e.nodes, ∀ language, n.language? = some language →
      (ev.dialect language).IsTame) (occur : e.symbols ⊆ X) : ev.IsLocal X e := by
  induction e using Expr.induction with
  | node e ih =>
    obtain ⟨tameHere, tameBelow⟩ := Expr.forall_nodes.mp tame
    have part : ∀ c ∈ e.children, ev.IsLocal X c := fun c hc =>
      ih c hc (tameBelow c hc) (List.Subset.trans (Expr.symbols_of_child hc) occur)
    intro s t hst
    cases e with
    | literal | ret | brk | cont | raise | unmodelled =>
      exact report_pairs (.ok ⟨.refl _, hst⟩)
    | classLiteral id name =>
      cases name with
      | none => exact report_pairs (.ok ⟨.refl _, hst⟩)
      | some name => exact report_pairs (.ok ⟨.refl _, hst⟩)
    | reference id name target =>
      cases target with
      | none => exact report_pairs (.ok ⟨.refl _, hst⟩)
      | some x =>
        cases x with
        | decl x =>
          have named : Symbol.decl x ∈ (Expr.reference id name (some (.decl x))).symbols :=
            List.mem_filterMap.mpr ⟨_, List.mem_cons_self, rfl⟩
          have bound := hst (.decl x) (Symbol.isIn_of_mem (occur named))
          exact report_pairs (.ok ⟨Matches.congruence.lookup bound, hst⟩)
        | entry c => exact report_pairs (.ok ⟨.refl _, hst⟩)
    | qualified id receiver selector access language =>
      rw [eval, eval]
      refine report_pairs ((part receiver List.mem_cons_self s t hst).bind_traced
        fun r r' hr => ?_)
      rw [hr.isReachable]
      split
      · have selected := part selector (List.mem_cons_of_mem _ List.mem_cons_self)
        refine (selected _ _ hr.state).bind_traced fun o p hop => ?_
        rw [dialectFor_bind, dialectFor_bind]
        exact .ok (Dialect.evalQualified_agree _ hop)
      · exact .ok hr
    | call id callee args =>
      rw [eval, eval]
      exact report_pairs (evalArgs_agree part _ hst)
    | binary id left op right language =>
      have partRight : ev.IsLocal X right := part right (List.mem_cons_of_mem _ List.mem_cons_self)
      by_cases hop : op = .assign
      · subst hop
        rw [eval, eval]
        exact report_pairs ((partRight s t hst).bind_traced fun o p h =>
          .ok (assign_agree h left.target? right right))
      · rw [eval_binary hop, eval_binary hop]
        refine report_pairs ((part left List.mem_cons_self s t hst).bind_traced
          fun l l' hl => ?_)
        rw [hl.isReachable]
        split
        · refine (partRight _ _ hl.state).bind_traced fun r r' hr => ?_
          exact (applyBinary_agree (tameHere language rfl) hl.value hr.value hr.state hop _).pairs
        · exact .ok ⟨.refl _, hl.state⟩
    | prefixed id op operand language =>
      rw [eval, eval]
      refine report_pairs ((part operand List.mem_cons_self s t hst).bind_traced
        fun o p h => ?_)
      rw [h.isReachable]
      split
      · rw [dialectFor_bind, dialectFor_bind, Traced.liftM_result, Traced.liftM_result]
        exact (Dialect.evalPrefix_agree (tameHere language rfl) h.value h.state op _).pairs
      · exact .ok h
    | postfixed id operand op language =>
      rw [eval, eval]
      refine report_pairs ((part operand List.mem_cons_self s t hst).bind_traced
        fun o p h => ?_)
      rw [h.isReachable]
      split
      · rw [dialectFor_bind, dialectFor_bind, Traced.liftM_result, Traced.liftM_result]
        exact (Dialect.evalPostfix_agree (tameHere language rfl) h.value h.state op _).pairs
      · exact .ok h
    | cond id condition thenBranch elseBranch ternary =>
      rw [eval, eval]
      refine report_pairs ((part condition List.mem_cons_self s t hst).bind_traced
        fun c c' hc => ?_)
      have thenPart := fun e he => part e (List.mem_cons_of_mem _ (List.mem_append_left _ he))
      have elsePart := fun e he => part e (List.mem_cons_of_mem _ (List.mem_append_right _ he))
      refine (evalBranch_agree thenPart hc.state).bind_traced fun o p ho => ?_
      refine (evalBranch_agree elsePart hc.state).bind_traced fun o' p' ho' => ?_
      exact choose_agree hc.value ho ho'
    | block id body =>
      rw [eval, eval]
      exact report_pairs (evalBlock_agree part ⟨.refl _, hst⟩)
    | declare id x init =>
      cases init with
      | none => exact report_pairs (.ok ⟨.refl _, hst⟩)
      | some init =>
        rw [eval, eval]
        exact report_pairs ((part init List.mem_cons_self s t hst).bind_traced fun o p h =>
          .ok (assign_agree h (some x) init init))
    | paren id inner =>
      rw [eval, eval]
      exact report_pairs (part inner List.mem_cons_self s t hst)
    | foreign what =>
      rw [eval]
      rintro _ _ ⟨⟩

/-- From states that agree on the symbols in a tree, evaluation gives values that are the same, on
paths that both go on or both do not, and states that agree on these symbols. -/
theorem eval_locality (tame : ∀ d ∈ ev.dialects.entries, d.IsTame) {e : Expr}
    (nodes : ∀ n ∈ e.nodes, n.isNode = true) {s t : State} (hs : s.Reached) (ht : t.Reached)
    (hst : s.Agree e.symbols t) :
    ∃ o p, (ev.eval e s).result = .ok o ∧ (ev.eval e t).result = .ok p ∧
      o.value.Matches p.value ∧ o.isReachable = p.isReachable ∧
        o.state.Agree e.symbols p.state := by
  have tameHere : ∀ n ∈ e.nodes, ∀ language, n.language? = some language →
      (ev.dialect language).IsTame := fun _ _ language _ => dialect_isTame tame language
  obtain ⟨o, ho, -⟩ := eval_regular nodes tameHere hs.good
  obtain ⟨p, hp, -⟩ := eval_regular nodes tameHere ht.good
  have agree := isLocal tameHere (List.Subset.refl e.symbols) s t hst o p ho hp
  exact ⟨o, p, ho, hp, agree.value, agree.isReachable, agree.state⟩

/-- Declares `x` as 1, and nothing else. -/
def selectedIncrementAlone : Expr :=
  .block 20 [.declare 21 (.decl ⟨0, "x", .block⟩) (some (.literal 22 (.int 1) false))]

/-- Only one of the states binds `z`, and the bindings of `x` come from different sources. -/
theorem eval_locality_selectedIncrement :
    let z : Symbol := .decl ⟨2, "z", .block⟩
    ∃ s t : State, s.Reached ∧ t.Reached ∧ s.contains z = true ∧ t.contains z = false ∧
      ∃ o p, (eval ⟨.standard, .standard⟩ selectedIncrement s).result = .ok o ∧
        (eval ⟨.standard, .standard⟩ selectedIncrement t).result = .ok p ∧
        o.value.Matches p.value ∧ o.isReachable = p.isReachable ∧
          o.state.Agree selectedIncrement.symbols p.state := by
  intro z
  have start : ∀ n ∈ selectedIncrementStart.nodes, n.isNode = true := by decide
  have alone : ∀ n ∈ selectedIncrementAlone.nodes, n.isNode = true := by decide
  obtain ⟨p, hp, reachedP⟩ := exists_reached start
  obtain ⟨q, hq, reachedQ⟩ := exists_reached alone
  have agree : p.state.Agree selectedIncrement.symbols q.state := by
    have occurring : selectedIncrement.symbols =
        [.decl ⟨0, "x", .block⟩, .decl ⟨1, "y", .block⟩] := rfl
    intro y hy
    obtain ⟨x, hx, hxy⟩ := List.any_eq_true.mp hy
    rw [← State.get?_congr hxy, ← State.get?_congr hxy]
    rw [occurring, List.mem_cons, List.mem_singleton] at hx
    cases hp
    cases hq
    rcases hx with rfl | rfl
    · exact .some ⟨rfl, nofun⟩
    · exact .none
  refine ⟨p.state, q.state, reachedP, reachedQ, ?_, ?_,
    @eval_locality ⟨.standard, .standard⟩ isTame_standard selectedIncrement (by decide) _ _
      reachedP reachedQ agree⟩
  · cases hp
    rfl
  · cases hq
    rfl

end Evaluator

end ValueFlow
