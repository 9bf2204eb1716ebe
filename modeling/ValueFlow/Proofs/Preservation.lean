import ValueFlow.Proofs.Nodes
import ValueFlow.Proofs.StandardDialect

/-!
# What evaluation preserves

Properties of values and states that the operations of the evaluator keep are kept by evaluation as
a whole, for trees whose nodes are evaluated with the standard operators or with none. What the
operations have to keep is collected in `Invariant`; the walk through the tree is made once, in
`Invariant.eval`. An invariant may be for runs only in which assignments and declarations bind what
passes a test.

* `Evaluator.bindsOnly`: what is bound in an evaluation passes a test.
* `Invariant.eval`: evaluation keeps an invariant, and fails only where its operations may.
-/

namespace ValueFlow

namespace Evaluator

mutual

/-- Every value that is bound by an assignment or a declaration passes the test with its symbol. -/
def bindsOnly (ev : Evaluator) (may : Symbol → Value → Bool) : Expr → State → Bool
  | .qualified _ receiver selector _ _, s =>
    ev.bindsOnly may receiver s && (ev.eval receiver s).passes fun r =>
      !r.isReachable || ev.bindsOnly may selector r.state
  | .call _ _ args, s => ev.allBindOnly may args s
  | .binary _ left op right _, s =>
    if op = .assign then ev.bindsOnly may right s && (ev.eval right s).passes fun o =>
      !o.isReachable || left.target?.all fun x => may x o.value
    else ev.bindsOnly may left s && (ev.eval left s).passes fun l =>
      !l.isReachable || ev.bindsOnly may right l.state
  | .prefixed _ _ operand _, s => ev.bindsOnly may operand s
  | .postfixed _ operand _ _, s => ev.bindsOnly may operand s
  | .cond _ condition thenBranch elseBranch _, s =>
    ev.bindsOnly may condition s && (ev.eval condition s).passes fun c =>
      ev.branchBindsOnly may thenBranch c.state && ev.branchBindsOnly may elseBranch c.state
  | .block _ body, s => ev.allBindOnly may body s
  | .declare _ target (some init), s =>
    ev.bindsOnly may init s && (ev.eval init s).passes fun o =>
      !o.isReachable || may target o.value
  | .paren _ inner, s => ev.bindsOnly may inner s
  | _, _ => true

def branchBindsOnly (ev : Evaluator) (may : Symbol → Value → Bool) : Option Expr → State → Bool
  | none, _ => true
  | some e, s => ev.bindsOnly may e s

def allBindOnly (ev : Evaluator) (may : Symbol → Value → Bool) : List Expr → State → Bool
  | [], _ => true
  | e :: es, s => ev.bindsOnly may e s && (ev.eval e s).passes fun o =>
    !o.isReachable || ev.allBindOnly may es o.state

end

theorem allBindOnly_true {ev : Evaluator} {es : List Expr}
    (h : ∀ c ∈ es, ∀ s, ev.bindsOnly (fun _ _ => true) c s = true) :
    ∀ s, ev.allBindOnly (fun _ _ => true) es s = true := by
  induction es with
  | nil =>
    intro s
    rfl
  | cons e es ih =>
    obtain ⟨first, rest⟩ := List.forall_mem_cons.mp h
    intro s
    simp [allBindOnly, first, ih rest, Traced.passes_of_forall]

theorem branchBindsOnly_true {ev : Evaluator} {e : Option Expr}
    (h : ∀ c ∈ e.toList, ∀ s, ev.bindsOnly (fun _ _ => true) c s = true) (s : State) :
    ev.branchBindsOnly (fun _ _ => true) e s = true := by
  cases e with
  | none => rfl
  | some e => exact h e List.mem_cons_self s

/-- Where all may be bound, nothing else is. -/
theorem bindsOnly_true (ev : Evaluator) (e : Expr) :
    ∀ s, ev.bindsOnly (fun _ _ => true) e s = true := by
  induction e using Expr.induction with
  | node e ih =>
    intro s
    cases e with
    | qualified id receiver selector access language =>
      have first := ih receiver List.mem_cons_self
      have second := ih selector (List.mem_cons_of_mem _ List.mem_cons_self)
      simp [bindsOnly, first, second, Traced.passes_of_forall]
    | call id callee args => exact allBindOnly_true ih s
    | binary id left op right language =>
      have first := ih left List.mem_cons_self
      have second := ih right (List.mem_cons_of_mem _ List.mem_cons_self)
      simp [bindsOnly, first, second, Traced.passes_of_forall]
    | prefixed id op operand language => exact ih operand List.mem_cons_self s
    | postfixed id operand op language => exact ih operand List.mem_cons_self s
    | cond id condition thenBranch elseBranch ternary =>
      have first := ih condition List.mem_cons_self
      have second := branchBindsOnly_true fun c hc =>
        ih c (List.mem_cons_of_mem _ (List.mem_append_left _ hc))
      have third := branchBindsOnly_true fun c hc =>
        ih c (List.mem_cons_of_mem _ (List.mem_append_right _ hc))
      simp [bindsOnly, first, second, third, Traced.passes_of_forall]
    | block id body => exact allBindOnly_true ih s
    | declare id target init =>
      cases init with
      | none => rfl
      | some init =>
        have first := ih init List.mem_cons_self
        simp [bindsOnly, first, Traced.passes_of_forall]
    | paren id inner => exact ih inner List.mem_cons_self s
    | _ => rfl

end Evaluator

/-- What an operator has to give. It is never `nothing`, so that it can be bound. -/
structure Invariant.Gives (may : Symbol → Value → Bool) (V : Value → Prop) (r : Value) : Prop where
  keeps : V r
  reachable : r.isReachable = true
  may : ∀ x, may x r = true

/-- What the operations that evaluation is made of have to keep, where only what passes the test is
bound. -/
structure Invariant (mayFail : Prop) (may : Symbol → Value → Bool) (V : Value → Prop)
    (S : State → Prop) : Prop where
  nothing : V .nothing
  undetermined : V .undetermined
  external : ∀ r, V (.external r)
  entry : ∀ c, V (.const (.entry c))
  typeLiteral : ∀ name, V (.const (.typeLiteral name))
  lookup : ∀ {s}, S s → ∀ x, V (s.lookup x)
  assign : ∀ {s v}, S s → V v → v.isReachable = true → ∀ x source, may x v = true →
    S (s.assign x v source)
  unary : ∀ {v}, V v → ∀ op : PrefixOp,
    Ensures mayFail (Invariant.Gives may V) (lift1 op.core v)
  binary : ∀ {v w}, V v → V w → ∀ (op : BinaryOp) {f}, op.core? = some f →
    Ensures mayFail (Invariant.Gives may V) (lift2 f v w)
  mergeValues : ∀ {v w}, V v → V w → Ensures mayFail V (v.merge w)
  mergeStates : ∀ {s t}, S s → S t → Ensures mayFail S (s.merge t)
  text : ∀ {v}, V v → Ensures mayFail (fun _ => True) v.text

/-- What a node has to be for its evaluation to keep an invariant of values. -/
structure Evaluator.Admits (ev : Evaluator) (V : Value → Prop) (n : Expr) : Prop where
  isNode : n.isNode = true
  literal : ∀ id value isChar, n = .literal id value isChar → V (value.eval isChar)
  language : ∀ language, n.language? = some language → (ev.dialect language).IsTame

namespace Invariant

variable {mayFail : Prop} {may : Symbol → Value → Bool} {V : Value → Prop} {S : State → Prop}

/-- Both parts of an outcome keep the invariant. -/
def Keeps (V : Value → Prop) (S : State → Prop) (o : Outcome) : Prop := V o.value ∧ S o.state

/-- Evaluation of an expression keeps the invariant. -/
def KeptBy (mayFail : Prop) (may : Symbol → Value → Bool) (V : Value → Prop) (S : State → Prop)
    (ev : Evaluator) (e : Expr) : Prop :=
  ∀ {s}, S s → ev.bindsOnly may e s = true → Ensures mayFail (Keeps V S) (ev.eval e s).result

/-- What comes next in a run is within the run. -/
theorem of_next {ev : Evaluator} {e : Expr} {s : State} {next : Outcome → Bool} {o : Outcome}
    (h : ((ev.eval e s).passes fun o => !o.isReachable || next o) = true)
    (ho : (ev.eval e s).result = .ok o) (reachable : o.isReachable = true) : next o = true := by
  have passed := Traced.of_passes h o ho
  rw [reachable] at passed
  exact passed

theorem evalBlock {ev : Evaluator} {body : List Expr}
    (hbody : ∀ c ∈ body, KeptBy mayFail may V S ev c) {last : Outcome} (hlast : Keeps V S last)
    (bound : ev.allBindOnly may body last.state = true) :
    Ensures mayFail (Keeps V S) (ev.evalBlock body last).result := by
  induction body generalizing last with
  | nil => exact hlast
  | cons e es ih =>
    obtain ⟨he, hrest⟩ := List.forall_mem_cons.mp hbody
    rw [Evaluator.allBindOnly, Bool.and_eq_true] at bound
    rw [Evaluator.evalBlock]
    refine (he hlast.2 bound.1).with_result.bind_traced fun o ho => ?_
    split
    · rename_i reachable
      exact ih hrest ho.1 (of_next bound.2 ho.2 reachable)
    · exact ho.1

variable (inv : Invariant mayFail may V S)
include inv

theorem update {value new : Value} {s : State} (hvalue : V value) (hnew : Gives may V new)
    (hs : S s) (x : Option Symbol) : Keeps V S (Dialect.update value new s x) := by
  cases x with
  | none => exact ⟨hvalue, hs⟩
  | some x => exact ⟨hvalue, inv.assign hs hnew.keeps hnew.reachable x none (hnew.may x)⟩

theorem evalPrefix {d : Dialect} (hd : d.IsTame) {operand : Value} {s : State} (hv : V operand)
    (hs : S s) (op : PrefixOp) (target : Option Symbol) :
    Ensures mayFail (Keeps V S) (d.evalPrefix op operand s target) := by
  rcases hd with hd | hd
  · rw [Dialect.evalPrefix_silent _ _ _ hd]
    exact ⟨inv.undetermined, hs⟩
  by_cases stepping : ∃ step, op = .step step
  · obtain ⟨step, rfl⟩ := stepping
    rw [Dialect.evalPrefix_step _ _ _ hd]
    exact (inv.unary hv (.step step)).map fun r hr => inv.update hr.keeps hr hs _
  · rw [Dialect.evalPrefix_standard _ _ _ hd fun step h => stepping ⟨step, h⟩]
    exact (inv.unary hv op).map fun r hr => ⟨hr.keeps, hs⟩

theorem evalPostfix {d : Dialect} (hd : d.IsTame) {operand : Value} {s : State} (hv : V operand)
    (hs : S s) (op : StepOp) (target : Option Symbol) :
    Ensures mayFail (Keeps V S) (d.evalPostfix op operand s target) := by
  rcases hd with hd | hd
  · rw [Dialect.evalPostfix_silent _ _ _ hd]
    exact ⟨inv.undetermined, hs⟩
  · rw [Dialect.evalPostfix_standard _ _ _ hd]
    exact (inv.unary hv (.step op)).map fun r hr => inv.update hv hr hs _

theorem evalBinary {d : Dialect} (hd : d.IsTame) {left right : Value} {s : State} (hl : V left)
    (hr : V right) (hs : S s) {op : BinaryOp} (hop : op ≠ .assign) (target : Option Symbol) :
    Ensures mayFail (Keeps V S) (d.evalBinary op left right s target) := by
  rcases hd with hd | hd
  · rw [Dialect.evalBinary_silent _ _ _ _ hd]
    exact ⟨inv.undetermined, hs⟩
  cases hbase : op.compound? with
  | none =>
    obtain ⟨f, hf⟩ := BinaryOp.core?_of_not_assigning hop hbase
    rw [Dialect.evalBinary_standard _ _ _ _ hd hf]
    exact (inv.binary hl hr op hf).map fun v hv => ⟨hv.keeps, hs⟩
  | some base =>
    obtain ⟨f, hf⟩ := BinaryOp.core?_of_compound? hbase
    cases hx : Dialect.updated? left target with
    | none =>
      rw [Dialect.evalBinary_untargeted _ _ _ _ hd hbase hx]
      exact ⟨inv.undetermined, hs⟩
    | some x =>
      rw [Dialect.evalBinary_compound _ _ _ _ hd hbase hf hx]
      exact (inv.binary hl hr base hf).map fun new hnew =>
        inv.update inv.undetermined hnew hs (some x)

theorem evalQualified (d : Dialect) {o : Outcome} (ho : Keeps V S o) :
    Keeps V S (d.evalQualified o) := by
  unfold Dialect.evalQualified
  split
  · exact ho
  · exact ⟨inv.undetermined, ho.2⟩

theorem applyBinary {ev : Evaluator} {language : Option String}
    (hd : (ev.dialect language).IsTame) {left right : Value} {s : State} (hl : V left)
    (hr : V right) (hs : S s) {op : BinaryOp} (hop : op ≠ .assign) (target : Option Symbol) :
    Ensures mayFail (Keeps V S) (ev.applyBinary op language left right s target).result := by
  by_cases hplus : op = .plus
  · rw [hplus, Evaluator.applyBinary_plus]
    exact (inv.binary hl hr .plus rfl).map fun v hv => ⟨hv.keeps, hs⟩
  by_cases hminus : op = .minus
  · rw [hminus, Evaluator.applyBinary_minus]
    exact (inv.binary hl hr .minus rfl).map fun v hv => ⟨hv.keeps, hs⟩
  rw [Evaluator.applyBinary_of_dialect ev language hplus hminus]
  exact inv.evalBinary hd hl hr hs hop target

theorem assignTo {o : Outcome} (ho : Keeps V S o) (target : Option Symbol)
    (bound : o.isReachable = true → (target.all fun x => may x o.value) = true) (source : Expr) :
    Keeps V S (Evaluator.assign target source o) := by
  unfold Evaluator.assign
  split
  · rename_i reachable
    cases target with
    | none => exact ⟨inv.undetermined, ho.2⟩
    | some x =>
      exact ⟨inv.undetermined, inv.assign ho.2 ho.1 reachable x (some source) (bound reachable)⟩
  · exact ⟨inv.nothing, ho.2⟩

theorem mergeOutcomes {o p : Outcome} (ho : Keeps V S o) (hp : Keeps V S p) :
    Ensures mayFail (Keeps V S) (o.merge p) := by
  unfold Outcome.merge
  split
  · exact hp
  split
  · exact ho
  · refine (inv.mergeValues ho.1 hp.1).bind fun v hv => ?_
    exact (inv.mergeStates ho.2 hp.2).bind fun s hs => ⟨hv, hs⟩

theorem choose (condition : Value) {o p : Outcome} (ho : Keeps V S o) (hp : Keeps V S p) :
    Ensures mayFail (Keeps V S) (Evaluator.choose condition o p) := by
  unfold Evaluator.choose
  split
  · rename_i b _
    cases b with
    | true => exact ho
    | false => exact hp
  · exact inv.mergeOutcomes ho hp

theorem report {ev : Evaluator} {e : Expr} {run : Traced Outcome}
    (hrun : Ensures mayFail (Keeps V S) run.result) :
    Ensures mayFail (Keeps V S) (ev.report e run).result :=
  Evaluator.report_ensures hrun fun _ ho => inv.text ho.1

theorem evalBranch {ev : Evaluator} {e : Option Expr}
    (he : ∀ c ∈ e.toList, KeptBy mayFail may V S ev c) {s : State} (hs : S s)
    (bound : ev.branchBindsOnly may e s = true) :
    Ensures mayFail (Keeps V S) (ev.evalBranch e s).result := by
  cases e with
  | none => exact ⟨inv.undetermined, hs⟩
  | some e => exact he e List.mem_cons_self hs bound

theorem evalArgs {ev : Evaluator} {result : Value} (hresult : V result) {args : List Expr}
    (hargs : ∀ c ∈ args, KeptBy mayFail may V S ev c) {s : State} (hs : S s)
    (bound : ev.allBindOnly may args s = true) :
    Ensures mayFail (Keeps V S) (ev.evalArgs result args s).result := by
  induction args generalizing s with
  | nil => exact ⟨hresult, hs⟩
  | cons arg args ih =>
    obtain ⟨harg, hrest⟩ := List.forall_mem_cons.mp hargs
    rw [Evaluator.allBindOnly, Bool.and_eq_true] at bound
    rw [Evaluator.evalArgs]
    refine (harg hs bound.1).with_result.bind_traced fun o ho => ?_
    split
    · rename_i reachable
      exact ih hrest ho.1.2 (of_next bound.2 ho.2 reachable)
    · exact ⟨inv.nothing, ho.1.2⟩

theorem eval {ev : Evaluator} {e : Expr} (he : ∀ n ∈ e.nodes, ev.Admits V n) :
    KeptBy mayFail may V S ev e := by
  induction e using Expr.induction with
  | node e ih =>
    obtain ⟨here, below⟩ := Expr.forall_nodes.mp he
    have kept : ∀ c ∈ e.children, KeptBy mayFail may V S ev c :=
      fun c hc => ih c hc (below c hc)
    intro s hs bound
    cases e with
    | literal id value isChar =>
      exact inv.report ⟨here.literal id value isChar rfl, hs⟩
    | classLiteral id name =>
      cases name with
      | none => exact inv.report ⟨inv.undetermined, hs⟩
      | some name => exact inv.report ⟨inv.typeLiteral name, hs⟩
    | ret | brk | cont | raise => exact inv.report ⟨inv.nothing, hs⟩
    | reference id name target =>
      cases target with
      | none => exact inv.report ⟨inv.external _, hs⟩
      | some x =>
        cases x with
        | decl x => exact inv.report ⟨inv.lookup hs (.decl x), hs⟩
        | entry c => exact inv.report ⟨inv.entry c, hs⟩
    | qualified id receiver selector access language =>
      rw [Evaluator.bindsOnly, Bool.and_eq_true] at bound
      rw [Evaluator.eval]
      refine inv.report ((kept receiver List.mem_cons_self hs bound.1).with_result.bind_traced
        fun r hr => ?_)
      split
      · rename_i reachable
        refine (kept selector (List.mem_cons_of_mem _ List.mem_cons_self) hr.1.2
          (of_next bound.2 hr.2 reachable)).bind_traced fun o ho => ?_
        rw [Evaluator.dialectFor_bind]
        exact inv.evalQualified _ ho
      · exact hr.1
    | call id callee args =>
      rw [Evaluator.bindsOnly] at bound
      rw [Evaluator.eval]
      exact inv.report (inv.evalArgs (inv.external _) kept hs bound)
    | binary id left op right language =>
      have keptRight : KeptBy mayFail may V S ev right :=
        kept right (List.mem_cons_of_mem _ List.mem_cons_self)
      rw [Evaluator.bindsOnly] at bound
      by_cases hop : op = .assign
      · rw [if_pos hop, Bool.and_eq_true] at bound
        rw [hop, Evaluator.eval]
        refine inv.report ((keptRight hs bound.1).with_result.bind_traced fun o ho => ?_)
        exact inv.assignTo ho.1 left.target? (of_next bound.2 ho.2) right
      · rw [if_neg hop, Bool.and_eq_true] at bound
        rw [Evaluator.eval_binary hop]
        refine inv.report ((kept left List.mem_cons_self hs bound.1).with_result.bind_traced
          fun l hl => ?_)
        split
        · rename_i reachable
          refine (keptRight hl.1.2 (of_next bound.2 hl.2 reachable)).bind_traced fun r hr => ?_
          exact inv.applyBinary (here.language language rfl) hl.1.1 hr.1 hr.2 hop left.target?
        · exact ⟨inv.nothing, hl.1.2⟩
    | prefixed id op operand language =>
      rw [Evaluator.bindsOnly] at bound
      rw [Evaluator.eval]
      refine inv.report ((kept operand List.mem_cons_self hs bound).bind_traced fun o ho => ?_)
      split
      · rw [Evaluator.dialectFor_bind, Traced.liftM_result]
        exact inv.evalPrefix (here.language language rfl) ho.1 ho.2 op operand.target?
      · exact ho
    | postfixed id operand op language =>
      rw [Evaluator.bindsOnly] at bound
      rw [Evaluator.eval]
      refine inv.report ((kept operand List.mem_cons_self hs bound).bind_traced fun o ho => ?_)
      split
      · rw [Evaluator.dialectFor_bind, Traced.liftM_result]
        exact inv.evalPostfix (here.language language rfl) ho.1 ho.2 op operand.target?
      · exact ho
    | cond id condition thenBranch elseBranch ternary =>
      rw [Evaluator.bindsOnly, Bool.and_eq_true] at bound
      rw [Evaluator.eval]
      refine inv.report ((kept condition List.mem_cons_self hs bound.1).with_result.bind_traced
        fun c hc => ?_)
      obtain ⟨boundThen, boundElse⟩ := (Bool.and_eq_true _ _).mp (Traced.of_passes bound.2 c hc.2)
      refine (inv.evalBranch ?_ hc.1.2 boundThen).bind_traced fun t ht => ?_
      · exact fun e he => kept e (List.mem_cons_of_mem _ (List.mem_append_left _ he))
      refine (inv.evalBranch ?_ hc.1.2 boundElse).bind_traced fun f hf => ?_
      · exact fun e he => kept e (List.mem_cons_of_mem _ (List.mem_append_right _ he))
      exact inv.choose c.value ht hf
    | block id body =>
      rw [Evaluator.bindsOnly] at bound
      rw [Evaluator.eval]
      exact inv.report (evalBlock kept ⟨inv.undetermined, hs⟩ bound)
    | declare id target init =>
      cases init with
      | none => exact inv.report ⟨inv.undetermined, hs⟩
      | some init =>
        rw [Evaluator.bindsOnly, Bool.and_eq_true] at bound
        rw [Evaluator.eval]
        refine inv.report ((kept init List.mem_cons_self hs bound.1).with_result.bind_traced
          fun o ho => ?_)
        exact inv.assignTo ho.1 (some target) (of_next bound.2 ho.2) init
    | paren id inner =>
      rw [Evaluator.bindsOnly] at bound
      rw [Evaluator.eval]
      exact inv.report (kept inner List.mem_cons_self hs bound)
    | unmodelled => exact inv.report ⟨inv.undetermined, hs⟩
    | foreign what => cases here.isNode

end Invariant

/-- An invariant that does not look at what is bound is kept in every run. -/
theorem Invariant.eval_unguarded {mayFail : Prop} {V : Value → Prop} {S : State → Prop}
    (inv : Invariant mayFail (fun _ _ => true) V S) {ev : Evaluator} {e : Expr}
    (he : ∀ n ∈ e.nodes, ev.Admits V n) {s : State} (hs : S s) :
    Ensures mayFail (Invariant.Keeps V S) (ev.eval e s).result :=
  inv.eval he hs (ev.bindsOnly_true e s)

end ValueFlow
