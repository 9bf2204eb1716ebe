import ValueFlow.Proofs.ReachableStates

/-!
# What evaluation leaves alone

A tree can write what it declares with a value, and what is named anywhere in the left side of an
assignment or in the operand of a step. An updating operator without a named target finds one in the
value of its operand, which is a variable that the operand refers to. So evaluation binds nothing
else, and it takes no binding away.

* `Expr.writes`: the symbols that a tree can write.
* `Value.Names`, `Names.merge`: the variable that a value is, if it is one, is among given symbols.
* `State.Within`, `Within.merge`: states that differ only in given symbols.
* `Dialect.evalPrefix_writes`, `Evaluator.applyBinary_writes`: what an operator does to the state.
* `Evaluator.eval_frame`: evaluation leaves alone what the tree cannot write.
-/

namespace ValueFlow

open Value

/-- The operator binds what its left operand names. -/
def BinaryOp.assigns (op : BinaryOp) : Bool := op == .assign || op.compound?.isSome

namespace Expr

/-- The symbols that the references in a tree name, wherever they stand. -/
def references (e : Expr) : List Symbol :=
  e.nodes.filterMap fun
    | .reference _ _ target => target
    | _ => none

/-- What a node writes to. -/
def place? : Expr → Option Expr
  | .binary _ left op _ _ => if op.assigns then some left else none
  | .prefixed _ (.step _) operand _ => some operand
  | .postfixed _ operand _ _ => some operand
  | _ => none

/-- The symbols that a node itself can write. -/
def binds : Expr → List Symbol
  | .declare _ x (some _) => [x]
  | n => n.place?.elim [] references

def writes (e : Expr) : List Symbol := e.nodes.flatMap binds

theorem nodes_of_child {e c : Expr} (hc : c ∈ e.children) : c.nodes ⊆ e.nodes := by
  intro n hn
  rw [nodes_eq]
  exact List.mem_cons_of_mem e (List.mem_flatMap.mpr ⟨c, hc, hn⟩)

theorem references_of_child {e c : Expr} (hc : c ∈ e.children) :
    c.references ⊆ e.references := by
  intro x hx
  obtain ⟨n, hn, hx⟩ := List.mem_filterMap.mp hx
  exact List.mem_filterMap.mpr ⟨n, nodes_of_child hc hn, hx⟩

theorem writes_of_child {e c : Expr} (hc : c ∈ e.children) : c.writes ⊆ e.writes := by
  intro x hx
  obtain ⟨n, hn, hx⟩ := List.mem_flatMap.mp hx
  exact List.mem_flatMap.mpr ⟨n, nodes_of_child hc hn, hx⟩

theorem binds_subset_writes (e : Expr) : e.binds ⊆ e.writes := by
  intro x hx
  refine List.mem_flatMap.mpr ⟨e, ?_, hx⟩
  rw [nodes_eq]
  exact List.mem_cons_self

theorem references_subset_writes {e c : Expr} (hc : e.place? = some c) :
    c.references ⊆ e.writes := by
  have own : e.binds = c.references := by
    cases e with
    | binary | prefixed | postfixed => simp [binds, hc]
    | _ => cases hc
  rw [← own]
  exact e.binds_subset_writes

/-- What a node names is named by a reference in it. -/
theorem mem_references_of_target? {e : Expr} {x : Symbol} (h : e.target? = some x) :
    x ∈ e.references := by
  have resolved : e.resolve? = some x := Option.eq_some_of_filter_eq_some h
  clear h
  induction e using Expr.induction with
  | node e ih =>
    cases e with
    | reference id name target =>
      exact List.mem_filterMap.mpr ⟨_, List.mem_cons_self, resolved⟩
    | qualified id receiver selector access language =>
      have child : selector ∈ (Expr.qualified id receiver selector access language).children :=
        List.mem_cons_of_mem _ List.mem_cons_self
      exact references_of_child child (ih selector child resolved)
    | paren id inner =>
      exact references_of_child List.mem_cons_self (ih inner List.mem_cons_self resolved)
    | _ => cases resolved

end Expr

namespace Value

/-- If the value is a variable, or is computed as one, its symbol is among the given ones. -/
def Names (X : List Symbol) (v : Value) : Prop :=
  ∀ x, v.outerVar?.bind symbol? = some x → x.isIn X = true

theorem outerVar?_of_not_isDependent {v : Value} (h : v.isDependent = false) :
    v.outerVar? = none := by
  cases v with
  | dependent w D => cases h
  | var x w D s => cases h
  | _ => rfl

theorem outerVar?_dependingOn (v : Value) (D : List Value) :
    (v.dependingOn D).outerVar? = v.outerVar? := by
  by_cases empty : D = []
  · rw [empty, dependingOn_nil]
  cases v with
  | dependent w E =>
    rw [dependingOn_dependent w E empty]
    rfl
  | _ =>
    rw [dependingOn_of_not_dependent rfl empty]
    rfl

theorem outerVar?_lift1 {op : PrefixOp} {v r : Value} (h : lift1 op.core v = .ok r) :
    r.outerVar? = none := by
  obtain ⟨c, hc, rfl⟩ := lift1_eq_ok h
  have given := op.core_ensures v.core
  rw [hc] at given
  rw [outerVar?_dependingOn]
  exact outerVar?_of_not_isDependent (isDependent_of_isAtom (isAtom_of_isPlain given.plain))

theorem outerVar?_lift2 {op : BinaryOp} {f : BinaryCore} (hf : op.core? = some f) {v w r : Value}
    (h : lift2 f v w = .ok r) : r.outerVar? = none := by
  obtain ⟨c, hc, rfl⟩ := lift2_eq_ok h
  have given := BinaryOp.core_ensures hf v.core w.core
  rw [hc] at given
  rw [outerVar?_dependingOn]
  exact outerVar?_of_not_isDependent (isDependent_of_isAtom (isAtom_of_isPlain given.plain))

namespace Names

variable {X Y : List Symbol} {v w r : Value}

theorem of_outerVar? (h : v.outerVar? = none) : v.Names X := by
  intro x hx
  rw [h] at hx
  cases hx

theorem of_bare (h : v.isDependent = false) : v.Names X :=
  of_outerVar? (outerVar?_of_not_isDependent h)

theorem of_isVarOf {x : Symbol} (hv : v.isVarOf x = true) (hx : x.isIn X = true) :
    v.Names X := by
  intro y hy
  cases v with
  | var z w D s =>
    cases hy
    rw [Symbol.isIn_congr hv]
    exact hx
  | _ => cases hv

theorem mono (hv : v.Names X) (sub : X ⊆ Y) : v.Names Y :=
  fun x hx => Symbol.isIn_mono sub (hv x hx)

theorem boundTo {D : List Value} {x : Symbol} {s : Option Expr} (hv : (Value.var x v D s).Names X)
    (E : List Value) (source : Option Expr) : (v.boundTo x E source).Names X := by
  refine of_isVarOf ?_ (hv x rfl)
  rw [isVarOf_boundTo, Symbol.same_refl]

theorem join (h : join [v, w] = .ok r) : r.Names X := by
  rw [(join_eq_ok h).2]
  exact of_bare rfl

/-- Merging never makes up a variable: it keeps one of two, or joins them. -/
theorem merge (hv : v.Names X) (hw : w.Names X) (h : v.merge w = .ok r) : r.Names X := by
  have step := merge_case v w
  rw [h] at step
  generalize hm : Except.ok r = m at step
  cases step with
  | same | nothingRight | absorbs =>
    cases hm
    exact hv
  | nothingLeft | absorbed =>
    cases hm
    exact hw
  | vars | varDependent =>
    cases hm
    exact hv.boundTo _ _
  | dependentVar =>
    cases hm
    exact hw.boundTo _ _
  | dependents =>
    cases hm
    intro x hx
    rw [outerVar?_dependingOn] at hx
    exact hv x hx
  | joined => exact join hm.symm
  | joinedBack => exact join hm.symm

end Names

end Value

namespace State

/-- The second state differs from the first only in the given symbols, and binds all that the first
does. -/
structure Within (X : List Symbol) (s t : State) : Prop where
  others : ∀ x, x.isIn X = false → t.get? x = s.get? x
  bound : ∀ x, s.contains x = true → t.contains x = true

/-- In a good state a symbol is bound to a variable of it, or to no variable. -/
theorem Good.lookup_names {s : State} (hs : s.Good) {x : Symbol} {X : List Symbol} (hx : x ∈ X) :
    (s.lookup x).Names X := by
  rcases hs.lookup_binds x with unbound | own | ⟨M, joined, -⟩
  · rw [unbound]
    exact .of_bare rfl
  · exact .of_isVarOf own (Symbol.isIn_of_mem hx)
  · rw [joined]
    exact .of_bare rfl

namespace Within

variable {X Y : List Symbol} {s t u r : State}

theorem refl (X : List Symbol) (s : State) : Within X s s := ⟨fun _ _ => rfl, fun _ h => h⟩

theorem trans (hst : Within X s t) (htu : Within X t u) : Within X s u :=
  ⟨fun x hx => (htu.others x hx).trans (hst.others x hx), fun x hx => htu.bound x (hst.bound x hx)⟩

theorem mono (h : Within X s t) (sub : X ⊆ Y) : Within Y s t := by
  refine ⟨fun x hx => h.others x (Bool.eq_false_iff.mpr fun inside => ?_), h.bound⟩
  rw [Symbol.isIn_mono sub inside] at hx
  cases hx

theorem assign {x : Symbol} (hx : x.isIn X = true) (s : State) (v : Value)
    (source : Option Expr) : Within X s (s.assign x v source) := by
  refine ⟨fun y hy => ?_, fun y hy => ?_⟩
  · rw [State.assign, get?_set, if_neg]
    intro hxy
    rw [← Symbol.isIn_congr hxy, hx] at hy
    cases hy
  · rw [contains, State.assign, get?_set]
    split
    · rfl
    · exact hy

/-- Where both sides have the binding of a state before them, so has the merge. -/
theorem merge (ht : Within X s t) (hu : Within X s u) (h : t.merge u = .ok r) :
    Within X s r := by
  refine ⟨fun x hx => ?_, fun x hx => ?_⟩
  · have left : t.get? x = s.get? x := ht.others x hx
    have right : u.get? x = s.get? x := hu.others x hx
    have keys : r.contains x = s.contains x := by
      rw [merge_contains h x]
      simp only [contains, left, right, Bool.or_self]
    have values := merge_lookup h x
    rw [State.lookup, left, State.lookup, right, Value.merge_self] at values
    cases bound : s.contains x with
    | true =>
      rw [get?_eq_some_lookup (keys.trans bound), get?_eq_some_lookup bound,
        ← Except.ok.inj values, State.lookup]
    | false => rw [get?_eq_none (keys.trans bound), get?_eq_none bound]
  · rw [merge_contains h, ht.bound x hx, Bool.true_or]

end Within

end State

namespace Dialect

/-- What an updating operator may do to a state: bind what it updates, or nothing. -/
def Updates (operand : Value) (target : Option Symbol) (s t : State) : Prop :=
  t = s ∨ ∃ x new, updated? operand target = some x ∧ t = s.assign x new none

variable {d : Dialect} (hd : d.IsTame) (operand left right : Value) (s : State)
  (target : Option Symbol)

theorem updates_update (value new : Value) :
    Updates operand target s (update value new s (updated? operand target)).state := by
  cases hx : updated? operand target with
  | none => exact Or.inl rfl
  | some x => exact Or.inr ⟨x, new, hx, rfl⟩

include hd

/-- A prefix operator computes a value; only a step changes the state. -/
theorem evalPrefix_writes (op : PrefixOp) :
    Ensures True (fun o => o.value.outerVar? = none ∧
      (o.state = s ∨ (∃ step, op = .step step) ∧ Updates operand target s o.state))
      (d.evalPrefix op operand s target) := by
  rcases hd with hd | hd
  · rw [evalPrefix_silent _ _ _ hd]
    exact ⟨rfl, Or.inl rfl⟩
  have computed : Ensures True (fun r => r.outerVar? = none) (lift1 op.core operand) :=
    .of_ok fun _ => outerVar?_lift1
  by_cases stepping : ∃ step, op = .step step
  · obtain ⟨step, rfl⟩ := stepping
    rw [evalPrefix_step _ _ _ hd]
    refine computed.map fun r hr => ⟨?_, Or.inr ⟨⟨step, rfl⟩, updates_update operand s target r r⟩⟩
    cases updated? operand target <;> exact hr
  · rw [evalPrefix_standard _ _ _ hd fun step h => stepping ⟨step, h⟩]
    exact computed.map fun r hr => ⟨hr, Or.inl rfl⟩

/-- A step after its operand has the operand's value, or one that is not known. -/
theorem evalPostfix_writes (op : StepOp) :
    Ensures True (fun o => (o.value = operand ∨ o.value = .undetermined) ∧
      Updates operand target s o.state) (d.evalPostfix op operand s target) := by
  rcases hd with hd | hd
  · rw [evalPostfix_silent _ _ _ hd]
    exact ⟨Or.inr rfl, Or.inl rfl⟩
  · rw [evalPostfix_standard _ _ _ hd]
    refine (Ensures.any _).map fun r _ => ⟨Or.inl ?_, updates_update operand s target operand r⟩
    cases updated? operand target <;> rfl

/-- Only a compound assignment changes the state. -/
theorem evalBinary_writes {op : BinaryOp} (hop : op ≠ .assign) :
    Ensures True (fun o => o.value.outerVar? = none ∧
      (o.state = s ∨ op.compound?.isSome = true ∧ Updates left target s o.state))
      (d.evalBinary op left right s target) := by
  rcases hd with hd | hd
  · rw [evalBinary_silent _ _ _ _ hd]
    exact ⟨rfl, Or.inl rfl⟩
  cases hbase : op.compound? with
  | none =>
    obtain ⟨f, hf⟩ := BinaryOp.core?_of_not_assigning hop hbase
    rw [evalBinary_standard _ _ _ _ hd hf]
    have computed : Ensures True (fun r => r.outerVar? = none) (lift2 f left right) :=
      .of_ok fun _ => outerVar?_lift2 hf
    exact computed.map fun r hr => ⟨hr, Or.inl rfl⟩
  | some base =>
    obtain ⟨f, hf⟩ := BinaryOp.core?_of_compound? hbase
    cases hx : updated? left target with
    | none =>
      rw [evalBinary_untargeted _ _ _ _ hd hbase hx]
      exact ⟨rfl, Or.inl rfl⟩
    | some x =>
      rw [evalBinary_compound _ _ _ _ hd hbase hf hx]
      exact (Ensures.any _).map fun new _ => ⟨rfl, Or.inr ⟨rfl, Or.inr ⟨x, new, hx, rfl⟩⟩⟩

end Dialect

namespace Evaluator

variable {ev : Evaluator}

theorem applyBinary_writes {language : Option String} (hd : (ev.dialect language).IsTame)
    {op : BinaryOp} (hop : op ≠ .assign) (left right : Value) (s : State)
    (target : Option Symbol) :
    Ensures True (fun o => o.value.outerVar? = none ∧
      (o.state = s ∨ op.compound?.isSome = true ∧ Dialect.Updates left target s o.state))
      (ev.applyBinary op language left right s target).result := by
  have computed : ∀ {op : BinaryOp} {f}, op.core? = some f →
      Ensures True (fun r => r.outerVar? = none) (lift2 f left right) :=
    fun hf => .of_ok fun _ => outerVar?_lift2 hf
  by_cases hplus : op = .plus
  · rw [hplus, applyBinary_plus]
    exact (@computed .plus _ rfl).map fun r hr => ⟨hr, Or.inl rfl⟩
  by_cases hminus : op = .minus
  · rw [hminus, applyBinary_minus]
    exact (@computed .minus _ rfl).map fun r hr => ⟨hr, Or.inl rfl⟩
  rw [applyBinary_of_dialect ev language hplus hminus]
  exact Dialect.evalBinary_writes hd left right s target hop

/-- What an updating operator binds is named in its operand. -/
theorem isIn_of_updated? {c : Expr} {operand : Value} (hv : operand.Names c.references)
    {x : Symbol} (hx : Dialect.updated? operand c.target? = some x) :
    x.isIn c.references = true := by
  unfold Dialect.updated? at hx
  cases target : c.target? with
  | some y =>
    rw [target] at hx
    cases hx
    exact Symbol.isIn_of_mem (Expr.mem_references_of_target? target)
  | none =>
    rw [target] at hx
    exact hv x hx

theorem within_of_updates {e c : Expr} {operand : Value} (hv : operand.Names c.references)
    (place : e.place? = some c) {s t : State}
    (updates : Dialect.Updates operand c.target? s t) : s.Within e.writes t := by
  rcases updates with rfl | ⟨x, new, hx, rfl⟩
  · exact .refl _ _
  · exact .assign (Symbol.isIn_mono (Expr.references_subset_writes place)
      (isIn_of_updated? hv hx)) _ _ _

/-- An outcome that is a variable of given symbols only, in a state that differs from the one before
in given symbols only. -/
structure Leaves (X W : List Symbol) (s : State) (o : Outcome) : Prop where
  value : o.value.Names X
  state : s.Within W o.state

namespace Leaves

variable {X Y W V : List Symbol} {s t : State} {o p : Outcome}

theorem mono (ho : Leaves X W s o) (values : X ⊆ Y) (states : W ⊆ V) : Leaves Y V s o :=
  ⟨ho.value.mono values, ho.state.mono states⟩

theorem after (hst : s.Within W t) (ho : Leaves X W t o) : Leaves X W s o :=
  ⟨ho.value, hst.trans ho.state⟩

theorem bare {v : Value} (hv : v.isDependent = false) (hst : s.Within W t) :
    Leaves X W s ⟨v, t⟩ := ⟨.of_bare hv, hst⟩

theorem evalQualified (d : Dialect) (ho : Leaves X W s o) : Leaves X W s (d.evalQualified o) := by
  unfold Dialect.evalQualified
  split
  · exact ho
  · exact .bare rfl ho.state

theorem assign (ho : Leaves X W s o) {target : Option Symbol}
    (hx : ∀ x, target = some x → x.isIn W = true) (source : Expr) :
    Leaves X W s (Evaluator.assign target source o) := by
  unfold Evaluator.assign
  split
  · cases target with
    | none => exact .bare rfl ho.state
    | some x => exact .bare rfl (ho.state.trans (.assign (hx x rfl) _ _ _))
  · exact .bare rfl ho.state

theorem merge (ho : Leaves X W s o) (hp : Leaves X W s p) :
    Ensures True (Leaves X W s) (o.merge p) := by
  unfold Outcome.merge
  split
  · exact hp
  split
  · exact ho
  · refine Ensures.bind (.of_ok fun v hv => ho.value.merge hp.value hv) fun v hv => ?_
    refine Ensures.bind (.of_ok fun t ht => ho.state.merge hp.state ht) fun t ht => ?_
    exact ⟨hv, ht⟩

theorem choose (condition : Value) (ho : Leaves X W s o) (hp : Leaves X W s p) :
    Ensures True (Leaves X W s) (Evaluator.choose condition o p) := by
  unfold Evaluator.choose
  split
  · rename_i b _
    cases b with
    | true => exact ho
    | false => exact hp
  · exact ho.merge hp

end Leaves

/-- Evaluation of an expression from a good state leaves alone all but given symbols. -/
def Framed (ev : Evaluator) (X W : List Symbol) (e : Expr) : Prop :=
  ∀ s, s.Good → Ensures True (fun o => Leaves X W s o ∧ o.state.Good) (ev.eval e s).result

theorem Framed.mono {X Y W V : List Symbol} {e : Expr} (he : ev.Framed X W e) (values : X ⊆ Y)
    (states : W ⊆ V) : ev.Framed Y V e :=
  fun s hs => (he s hs).imp fun _ ho => ⟨ho.1.mono values states, ho.2⟩

section

variable {X W : List Symbol}

theorem evalBranch_leaves {e : Option Expr} (he : ∀ c ∈ e.toList, ev.Framed X W c) {s t : State}
    (hst : s.Within W t) (ht : t.Good) :
    Ensures True (Leaves X W s) (ev.evalBranch e t).result := by
  cases e with
  | none => exact .bare rfl hst
  | some e => exact (he e List.mem_cons_self t ht).imp fun _ ho => ho.1.after hst

theorem evalArgs_leaves {args : List Expr} (hargs : ∀ c ∈ args, ev.Framed X W c) {result : Value}
    (bare : result.isDependent = false) {s : State} (hs : s.Good) :
    Ensures True (Leaves X W s) (ev.evalArgs result args s).result := by
  induction args generalizing s with
  | nil => exact .bare bare (.refl W s)
  | cons arg args ih =>
    obtain ⟨harg, hrest⟩ := List.forall_mem_cons.mp hargs
    rw [evalArgs]
    refine (harg s hs).bind_traced ?_
    rintro o ⟨ho, good⟩
    split
    · exact (ih hrest good).imp fun p hp => hp.after ho.state
    · exact .bare rfl ho.state

theorem evalBlock_leaves {body : List Expr} (hbody : ∀ c ∈ body, ev.Framed X W c) {s : State}
    {last : Outcome} (hlast : Leaves X W s last) (good : last.state.Good) :
    Ensures True (Leaves X W s) (ev.evalBlock body last).result := by
  induction body generalizing last with
  | nil => exact hlast
  | cons e es ih =>
    obtain ⟨he, hrest⟩ := List.forall_mem_cons.mp hbody
    rw [evalBlock]
    refine (he last.state good).bind_traced ?_
    rintro o ⟨ho, goodO⟩
    have whole : Leaves X W s o := ho.after hlast.state
    split
    · exact ih hrest whole goodO
    · exact whole

variable {e operand : Expr} {id : Nat} {language : Option String} {s : State}

/-- What a compound assignment updates is a variable that its left operand names. -/
theorem operator_leaves {left right : Expr} {op : BinaryOp}
    (he : e = .binary id left op right language) (hop : op ≠ .assign)
    (hd : (ev.dialect language).IsTame) (hleft : ev.Framed left.references left.writes left)
    (hright : ev.Framed right.references right.writes right) (hs : s.Good) :
    Ensures True (Leaves e.references e.writes s) (ev.eval e s).result := by
  have leftHere : left ∈ e.children := by
    rw [he]
    exact List.mem_cons_self
  have rightHere : right ∈ e.children := by
    rw [he]
    exact List.mem_cons_of_mem _ List.mem_cons_self
  have place : op.compound?.isSome = true → e.place? = some left := by
    intro compound
    simp [he, Expr.place?, BinaryOp.assigns, compound]
  rw [he, eval_binary hop, ← he]
  refine report_partial ((hleft s hs).bind_traced ?_)
  rintro l ⟨hl, goodL⟩
  have stateL : s.Within e.writes l.state := hl.state.mono (Expr.writes_of_child leftHere)
  split
  · refine (hright _ goodL).bind_traced ?_
    rintro r ⟨hr, -⟩
    have stateR := hr.state.mono (Expr.writes_of_child rightHere)
    refine (applyBinary_writes hd hop _ _ _ _).imp ?_
    rintro o ⟨value, state⟩
    refine ⟨.of_outerVar? value, (stateL.trans stateR).trans ?_⟩
    rcases state with state | ⟨compound, updates⟩
    · rw [state]
      exact .refl _ _
    · exact within_of_updates hl.value (place compound) updates
  · exact .bare rfl stateL

theorem prefixed_leaves {op : PrefixOp} (he : e = .prefixed id op operand language)
    (hd : (ev.dialect language).IsTame)
    (hoperand : ev.Framed operand.references operand.writes operand) (hs : s.Good) :
    Ensures True (Leaves e.references e.writes s) (ev.eval e s).result := by
  subst he
  have here : operand ∈ (Expr.prefixed id op operand language).children := List.mem_cons_self
  rw [eval]
  refine report_partial ((hoperand s hs).bind_traced ?_)
  rintro o ⟨ho, -⟩
  have whole := ho.mono (Expr.references_of_child here) (Expr.writes_of_child here)
  split
  · rw [dialectFor_bind, Traced.liftM_result]
    refine (Dialect.evalPrefix_writes hd _ _ _ op).imp ?_
    rintro p ⟨value, state⟩
    refine ⟨.of_outerVar? value, whole.state.trans ?_⟩
    rcases state with state | ⟨⟨step, rfl⟩, updates⟩
    · rw [state]
      exact .refl _ _
    · exact within_of_updates ho.value rfl updates
  · exact whole

theorem postfixed_leaves {op : StepOp} (he : e = .postfixed id operand op language)
    (hd : (ev.dialect language).IsTame)
    (hoperand : ev.Framed operand.references operand.writes operand) (hs : s.Good) :
    Ensures True (Leaves e.references e.writes s) (ev.eval e s).result := by
  subst he
  have here : operand ∈ (Expr.postfixed id operand op language).children := List.mem_cons_self
  rw [eval]
  refine report_partial ((hoperand s hs).bind_traced ?_)
  rintro o ⟨ho, -⟩
  have whole := ho.mono (Expr.references_of_child here) (Expr.writes_of_child here)
  split
  · rw [dialectFor_bind, Traced.liftM_result]
    refine (Dialect.evalPostfix_writes hd _ _ _ op).imp ?_
    rintro p ⟨value, updates⟩
    refine ⟨?_, whole.state.trans (within_of_updates ho.value rfl updates)⟩
    rcases value with value | value
    · rw [value]
      exact whole.value
    · rw [value]
      exact .of_bare rfl
  · exact whole

end

/-- Each part of a tree names and writes what is in the tree. -/
theorem framed {e : Expr} (nodes : ∀ n ∈ e.nodes, n.isNode = true)
    (tame : ∀ n ∈ e.nodes, ∀ language, n.language? = some language →
      (ev.dialect language).IsTame) : ev.Framed e.references e.writes e := by
  induction e using Expr.induction with
  | node e ih =>
    obtain ⟨nodeHere, nodesBelow⟩ := Expr.forall_nodes.mp nodes
    obtain ⟨tameHere, tameBelow⟩ := Expr.forall_nodes.mp tame
    have own : ∀ c ∈ e.children, ev.Framed c.references c.writes c :=
      fun c hc => ih c hc (nodesBelow c hc) (tameBelow c hc)
    have part : ∀ c ∈ e.children, ev.Framed e.references e.writes c :=
      fun c hc => (own c hc).mono (Expr.references_of_child hc) (Expr.writes_of_child hc)
    intro s hs
    obtain ⟨p, hp, good, -⟩ := eval_regular nodes tame hs
    have kept : Ensures True (fun o => o.state.Good) (ev.eval e s).result := by
      rw [hp]
      exact good
    refine Ensures.and ?_ kept
    have same : s.Within e.writes s := .refl _ s
    cases e with
    | literal id value isChar =>
      have plain := (value.eval_gives isChar).1
      exact report_partial (.bare (isDependent_of_isAtom (isAtom_of_isPlain plain)) same)
    | classLiteral id name =>
      cases name with
      | none => exact report_partial (.bare rfl same)
      | some name => exact report_partial (.bare rfl same)
    | ret | brk | cont | raise | unmodelled => exact report_partial (.bare rfl same)
    | reference id name target =>
      cases target with
      | none => exact report_partial (.bare rfl same)
      | some x =>
        cases x with
        | decl x =>
          have named : Symbol.decl x ∈ (Expr.reference id name (some (.decl x))).references :=
            List.mem_filterMap.mpr ⟨_, List.mem_cons_self, rfl⟩
          exact report_partial ⟨hs.lookup_names named, same⟩
        | entry c => exact report_partial (.bare rfl same)
    | qualified id receiver selector access language =>
      rw [eval]
      refine report_partial ((part receiver List.mem_cons_self s hs).bind_traced ?_)
      rintro r ⟨hr, goodR⟩
      split
      · refine (part selector (List.mem_cons_of_mem _ List.mem_cons_self) _ goodR).bind_traced ?_
        rintro o ⟨ho, -⟩
        rw [dialectFor_bind]
        exact .evalQualified _ (ho.after hr.state)
      · exact hr
    | call id callee args =>
      rw [eval]
      exact report_partial (evalArgs_leaves part rfl hs)
    | binary id left op right language =>
      by_cases hop : op = .assign
      · subst hop
        have partRight := part right (List.mem_cons_of_mem _ List.mem_cons_self)
        rw [eval]
        refine report_partial ((partRight s hs).bind_traced ?_)
        rintro o ⟨ho, -⟩
        refine ho.assign (fun x hx => ?_) right
        exact Symbol.isIn_of_mem
          (Expr.references_subset_writes rfl (Expr.mem_references_of_target? hx))
      · have ownLeft := own left List.mem_cons_self
        have ownRight := own right (List.mem_cons_of_mem _ List.mem_cons_self)
        exact operator_leaves rfl hop (tameHere language rfl) ownLeft ownRight hs
    | prefixed id op operand language =>
      exact prefixed_leaves rfl (tameHere language rfl) (own operand List.mem_cons_self) hs
    | postfixed id operand op language =>
      exact postfixed_leaves rfl (tameHere language rfl) (own operand List.mem_cons_self) hs
    | cond id condition thenBranch elseBranch ternary =>
      rw [eval]
      refine report_partial ((part condition List.mem_cons_self s hs).bind_traced ?_)
      rintro c ⟨hc, goodC⟩
      have thenPart := fun e he => part e (List.mem_cons_of_mem _ (List.mem_append_left _ he))
      have elsePart := fun e he => part e (List.mem_cons_of_mem _ (List.mem_append_right _ he))
      refine (evalBranch_leaves thenPart hc.state goodC).bind_traced fun t ht => ?_
      refine (evalBranch_leaves elsePart hc.state goodC).bind_traced fun f hf => ?_
      exact ht.choose c.value hf
    | block id body =>
      rw [eval]
      exact report_partial (evalBlock_leaves part (.bare rfl same) hs)
    | declare id target init =>
      cases init with
      | none => exact report_partial (.bare rfl same)
      | some init =>
        rw [eval]
        refine report_partial ((part init List.mem_cons_self s hs).bind_traced ?_)
        rintro o ⟨ho, -⟩
        refine ho.assign (fun x hx => ?_) init
        cases hx
        exact Symbol.isIn_of_mem (Expr.binds_subset_writes _ List.mem_cons_self)
    | paren id inner =>
      rw [eval]
      exact report_partial ((part inner List.mem_cons_self s hs).imp fun o ho => ho.1)
    | foreign what => cases nodeHere

/-- Evaluation leaves every symbol that the tree cannot write as it was, bound to the same or not
bound, and what was bound before is bound after it. -/
theorem eval_frame (tame : ∀ d ∈ ev.dialects.entries, d.IsTame) {e : Expr}
    (nodes : ∀ n ∈ e.nodes, n.isNode = true) {s : State} (hs : s.Reached) :
    ∃ o, (ev.eval e s).result = .ok o ∧
      (∀ x, x.isIn e.writes = false → o.state.get? x = s.get? x) ∧
      ∀ x, s.contains x = true → o.state.contains x = true := by
  have tameHere : ∀ n ∈ e.nodes, ∀ language, n.language? = some language →
      (ev.dialect language).IsTame := fun _ _ language _ => dialect_isTame tame language
  obtain ⟨o, ho, -⟩ := eval_regular nodes tameHere hs.good
  have left := framed nodes tameHere s hs.good
  rw [ho] at left
  exact ⟨o, ho, left.1.state.others, left.1.state.bound⟩

/-- Increments `x` or `y`, whichever a condition selects, on one of two paths. -/
def selectedIncrement : Expr :=
  let x : Symbol := .decl ⟨0, "x", .block⟩
  let y : Symbol := .decl ⟨1, "y", .block⟩
  .cond 10 (.call 11 "f" [])
    (some (.postfixed 12 (.cond 13 (.literal 14 (.bool true) false)
      (some (.reference 15 "x" (some x))) (some (.reference 16 "y" (some y))) true) .inc none))
    none false

/-- Declares `x` as 1 and `z` as `x`. -/
def selectedIncrementStart : Expr :=
  let x : Symbol := .decl ⟨0, "x", .block⟩
  let z : Symbol := .decl ⟨2, "z", .block⟩
  .block 0 [.declare 1 x (some (.literal 2 (.int 1) false)),
    .declare 3 z (some (.reference 4 "x" (some x)))]

/-- The step has no target of its own, and only the variable that its operand is gets another
binding: `z` was computed from it and stays. -/
theorem eval_frame_selectedIncrement :
    let x : Symbol := .decl ⟨0, "x", .block⟩
    let z : Symbol := .decl ⟨2, "z", .block⟩
    ∃ s : State, s.Reached ∧ (∃ v D source, s.get? z = some (.var z v D source)) ∧
      ∃ o, (eval ⟨.standard, .standard⟩ selectedIncrement s).result = .ok o ∧
        o.state.get? z = s.get? z ∧ ∃ v w, o.state.lookup x = .phi [v, w] := by
  intro x z
  have start : ∀ n ∈ selectedIncrementStart.nodes, n.isNode = true := by decide
  obtain ⟨p, hp, reached⟩ := exists_reached start
  obtain ⟨o, ho, kept, -⟩ :=
    @eval_frame ⟨.standard, .standard⟩ isTame_standard selectedIncrement (by decide) _ reached
  have unwritten : z.isIn selectedIncrement.writes = false := by decide
  refine ⟨p.state, reached, ?_, o, ho, kept z unwritten, ?_⟩
  · cases hp
    exact ⟨_, _, _, rfl⟩
  · cases hp
    cases ho
    exact ⟨_, _, rfl⟩

end Evaluator

end ValueFlow
