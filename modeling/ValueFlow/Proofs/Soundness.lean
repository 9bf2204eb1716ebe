import ValueFlow.Proofs.Alternatives
import ValueFlow.Proofs.ConcreteRuns
import ValueFlow.Proofs.ReachableStates

/-!
# Evaluation covers all runs

A value covers a constant if one of its alternatives does: a constant covers those that are the
same, and what is not known covers every one. Whatever a run of an expression does, the outcome of
its evaluation covers the value and the environment that the run ends with.

Doubles are kept out, in the tree and in the state: the two zeros are the same, so a merge keeps
only one of them, and they have different quotients.

* `Value.Covers`, `State.Covers`: what values and states stand for.
* `covers_lift1`, `covers_lift2`: operators compute on what their operands cover.
* `Invariant.noDouble`: evaluation brings in no doubles.
* `Evaluator.eval_covers_runs`: evaluation covers all runs.
-/

namespace ValueFlow

open Value

namespace Value

/-- A constant that a value without alternatives of its own can be. -/
def Admits : Value → Constant → Prop
  | .const d, c => d.same c = true
  | .external _, _ => True
  | .undetermined, _ => True
  | _, _ => False

def Covers (v : Value) (c : Constant) : Prop := ∃ a ∈ v.alternatives, a.Admits c

theorem admits_of_same {a b : Value} (h : a.same b = true) {c : Constant} (ha : a.Admits c) :
    b.Admits c := by
  cases a with
  | const d =>
    cases b with
    | const e =>
      have hed : e.same d = true := (Constant.same_comm e d).trans h
      exact Constant.same_trans hed ha
    | _ => cases h
  | external r =>
    cases b with
    | external s => trivial
    | _ => cases h
  | undetermined =>
    cases b with
    | undetermined => trivial
    | _ => cases h
  | _ => exact ha.elim

theorem covers_undetermined (c : Constant) : Covers .undetermined c :=
  ⟨.undetermined, List.mem_cons_self, trivial⟩

theorem covers_external (r : Reference) (c : Constant) : Covers (.external r) c :=
  ⟨.external r, List.mem_cons_self, trivial⟩

theorem covers_const (c : Constant) : Covers (.const c) c :=
  ⟨.const c, List.mem_cons_self, Constant.same_refl c⟩

theorem covers_of_gives {v : Value} {c : Constant} (h : Gives (.ok v) (some c)) : v.Covers c := by
  cases h with
  | known => exact covers_const c
  | unknown => exact covers_undetermined c

namespace Covers

variable {v w r : Value} {c : Constant}

theorem isReachable (h : v.Covers c) : v.isReachable = true := by
  cases v with
  | nothing =>
    obtain ⟨a, ha, _⟩ := h
    cases ha
  | _ => rfl

theorem dependingOn (h : v.Covers c) (D : List Value) : (v.dependingOn D).Covers c := by
  obtain ⟨a, ha, hc⟩ := h
  exact ⟨a, by rw [alternatives_dependingOn]; exact ha, hc⟩

theorem boundTo (h : v.Covers c) (x : Symbol) (D : List Value) (source : Option Expr) :
    (v.boundTo x D source).Covers c := by
  obtain ⟨a, ha, hc⟩ := h
  exact ⟨a, by rw [alternatives_boundTo]; exact ha, hc⟩

/-- Sets of alternatives are compared by sameness, and so is what they cover. -/
theorem of_hasSame (h : v.Covers c)
    (sub : ∀ a, hasSame v.alternatives a = true → hasSame w.alternatives a = true) :
    w.Covers c := by
  obtain ⟨a, ha, hc⟩ := h
  obtain ⟨b, hb, hba⟩ := hasSame_iff.mp (sub a (hasSame_of_mem ha))
  exact ⟨b, hb, admits_of_same ((same_comm a b).trans hba) hc⟩

theorem merge_left (h : v.Covers c) (hr : v.merge w = .ok r) : r.Covers c := by
  refine h.of_hasSame fun a ha => ?_
  rw [hasSame_alternatives_merge hr, ha]
  rfl

theorem merge_right (h : w.Covers c) (hr : v.merge w = .ok r) : r.Covers c := by
  refine h.of_hasSame fun a ha => ?_
  rw [hasSame_alternatives_merge hr, ha, Bool.or_true]

end Covers

/-- A value that is known under its provenance covers only what is the same. -/
theorem Covers.same_of_core {v : Value} {c d : Constant} (h : v.Covers c)
    (hd : v.core = .const d) : d.same c = true := by
  obtain ⟨a, ha, hc⟩ := h
  rw [← alternatives_core, hd] at ha
  cases List.mem_singleton.mp ha
  exact hc

/-- None of the alternatives is a double. -/
def NoDouble (v : Value) : Prop := ∀ a ∈ v.alternatives, a.isDouble = false

theorem isDouble_congr {a b : Value} (h : a.same b = true) : a.isDouble = b.isDouble := by
  cases a with
  | const c =>
    cases b with
    | const d =>
      cases c with
      | double x =>
        cases d with
        | double y => rfl
        | _ => cases h
      | _ =>
        cases d with
        | double y => cases h
        | _ => rfl
    | _ => cases h
  | _ =>
    cases b with
    | const d => cases h
    | _ => rfl

namespace NoDouble

variable {v w r : Value}

theorem core (hv : v.NoDouble) : v.core.isDouble = false := by
  cases h : v.core with
  | const c =>
    refine hv _ ?_
    rw [← alternatives_core, h]
    exact List.mem_cons_self
  | _ => rfl

theorem of_isPlain (plain : v.isPlain = true) (h : v.isDouble = false) : v.NoDouble := by
  intro a ha
  cases v with
  | const c =>
    cases List.mem_singleton.mp ha
    exact h
  | undetermined =>
    cases List.mem_singleton.mp ha
    rfl
  | _ => cases plain

theorem dependingOn (hv : v.NoDouble) (D : List Value) : (v.dependingOn D).NoDouble := by
  intro a ha
  rw [alternatives_dependingOn] at ha
  exact hv a ha

theorem boundTo (hv : v.NoDouble) (x : Symbol) (D : List Value) (source : Option Expr) :
    (v.boundTo x D source).NoDouble := by
  intro a ha
  rw [alternatives_boundTo] at ha
  exact hv a ha

theorem merge (hv : v.NoDouble) (hw : w.NoDouble) (hr : v.merge w = .ok r) : r.NoDouble := by
  have ofSame : ∀ {u : Value}, u.NoDouble → ∀ {a}, hasSame u.alternatives a = true →
      a.isDouble = false := by
    intro u hu a ha
    obtain ⟨b, hb, hba⟩ := hasSame_iff.mp ha
    rw [← isDouble_congr hba, hu b hb]
  intro a ha
  have present := hasSame_of_mem ha
  rw [hasSame_alternatives_merge hr, Bool.or_eq_true] at present
  rcases present with h | h
  · exact ofSame hv h
  · exact ofSame hw h

end NoDouble

end Value

theorem noDouble_lift1 {v : Value} (hv : v.NoDouble) (op : PrefixOp) :
    Ensures True (fun r => r.NoDouble ∧ r.isReachable = true) (lift1 op.core v) := by
  rw [lift1_eq]
  refine ((op.core_ensures v.core).weaken False.elim).map fun r hr => ?_
  refine ⟨NoDouble.dependingOn (.of_isPlain hr.plain ?_) _,
    isReachable_dependingOn (isReachable_of_isAtom (isAtom_of_isPlain hr.plain)) _⟩
  refine Bool.eq_false_iff.mpr fun double => ?_
  exact Bool.eq_false_iff.mp hv.core (hr.double double)

theorem noDouble_lift2 {v w : Value} (hv : v.NoDouble) (hw : w.NoDouble) {op : BinaryOp}
    {f : BinaryCore} (hf : op.core? = some f) :
    Ensures True (fun r => r.NoDouble ∧ r.isReachable = true) (lift2 f v w) := by
  rw [lift2_eq]
  refine ((op.core_ensures hf v.core w.core).weaken fun _ => trivial).map fun r hr => ?_
  refine ⟨NoDouble.dependingOn (.of_isPlain hr.plain ?_) _,
    isReachable_dependingOn (isReachable_of_isAtom (isAtom_of_isPlain hr.plain)) _⟩
  refine Bool.eq_false_iff.mpr fun double => ?_
  rcases hr.double double with h | h
  · exact Bool.eq_false_iff.mp hv.core h
  · exact Bool.eq_false_iff.mp hw.core h

/-- What comes of equal constants is covered. -/
theorem Gives.ensures {x : Except Fault Value} {c : Constant} (h : Gives x (some c)) :
    Ensures True (fun r => r.Covers c) x := by
  cases h with
  | known => exact covers_const c
  | unknown => exact covers_undetermined c

/-- Under its provenance a value is a constant that is the same as all it covers, or not known. -/
theorem Value.Covers.core_cases {v : Value} {a : Constant} (ha : v.Covers a) (hv : v.NoDouble) :
    (∃ d, v.core = .const d ∧ d.same a = true ∧ (Value.const d).isDouble = false) ∨
      v.core.isConstant = false := by
  cases h : v.core with
  | const d => exact Or.inl ⟨d, rfl, ha.same_of_core h, h ▸ hv.core⟩
  | _ => exact Or.inr rfl

theorem covers_lift1 {v : Value} {a c : Constant} (hv : v.NoDouble) (ha : v.Covers a)
    (op : PrefixOp) (hc : Gives (op.core (.const a)) (some c)) :
    Ensures True (fun r => r.Covers c) (lift1 op.core v) := by
  have covered : Ensures True (fun r => r.Covers c) (op.core v.core) := by
    rcases ha.core_cases hv with ⟨d, hd, hda, double⟩ | unknown
    · rw [hd, op.core_of_matches (.of_not_isDouble hda double)]
      exact hc.ensures
    · rw [op.core_strict unknown]
      exact covers_undetermined c
  rw [lift1_eq]
  exact covered.map fun r hr => hr.dependingOn v.provenance

theorem covers_lift2 {v w : Value} {a b c : Constant} (hv : v.NoDouble) (hw : w.NoDouble)
    (ha : v.Covers a) (hb : w.Covers b) {op : BinaryOp} {f : BinaryCore}
    (hf : op.core? = some f) (hand : op ≠ .and) (hor : op ≠ .or)
    (hc : Gives (f (.const a) (.const b)) (some c)) :
    Ensures True (fun r => r.Covers c) (lift2 f v w) := by
  have covered : Ensures True (fun r => r.Covers c) (f v.core w.core) := by
    rcases ha.core_cases hv with ⟨d, hd, hda, dDouble⟩ | unknown
    · rcases hb.core_cases hw with ⟨e, he, heb, eDouble⟩ | unknown
      · rw [hd, he, BinaryOp.core_of_matches hf hand hor (.of_not_isDouble hda dDouble)
          (.of_not_isDouble heb eDouble)]
        exact hc.ensures
      · rw [BinaryOp.core_strict hf hand hor (Or.inr unknown)]
        exact covers_undetermined c
    · rw [BinaryOp.core_strict hf hand hor (Or.inl unknown)]
      exact covers_undetermined c
  rw [lift2_eq]
  exact covered.map fun r hr => hr.dependingOn (union v.provenance w.provenance)

namespace State

/-- Every symbol holds a constant that its binding covers; what is not bound may hold any. -/
def Covers (s : State) (ρ : Env) : Prop := ∀ x, (s.lookup x).Covers (ρ x)

def NoDouble (s : State) : Prop := ∀ x, (s.lookup x).NoDouble

variable {s t r : State} {ρ : Env}

theorem Covers.assign (hs : s.Covers ρ) {v : Value} {c : Constant} (hv : v.Covers c)
    (x : Symbol) (source : Option Expr) : (s.assign x v source).Covers (ρ.set x c) := by
  intro y
  rw [lookup_assign, Env.set]
  split
  · exact hv.boundTo x [] source
  · exact hs y

theorem Covers.merge_left (hs : s.Covers ρ) (hr : s.merge t = .ok r) : r.Covers ρ :=
  fun x => (hs x).merge_left (merge_lookup hr x)

theorem Covers.merge_right (ht : t.Covers ρ) (hr : s.merge t = .ok r) : r.Covers ρ :=
  fun x => (ht x).merge_right (merge_lookup hr x)

theorem NoDouble.assign (hs : s.NoDouble) {v : Value} (hv : v.NoDouble) (x : Symbol)
    (source : Option Expr) : (s.assign x v source).NoDouble := by
  intro y
  rw [lookup_assign]
  split
  · exact hv.boundTo x [] source
  · exact hs y

theorem NoDouble.merge (hs : s.NoDouble) (ht : t.NoDouble) (hr : s.merge t = .ok r) :
    r.NoDouble :=
  fun x => (hs x).merge (ht x) (merge_lookup hr x)

end State

/-- No operation of the evaluator brings in a double. -/
theorem Invariant.noDouble :
    Invariant True (fun _ _ => true) Value.NoDouble State.NoDouble where
  nothing := List.forall_mem_nil _
  undetermined := .of_isPlain rfl rfl
  external r := by
    intro a ha
    cases List.mem_singleton.mp ha
    rfl
  entry _ := .of_isPlain rfl rfl
  typeLiteral _ := .of_isPlain rfl rfl
  lookup hs x := hs x
  assign hs hv _ x source _ := hs.assign hv x source
  unary hv op := (noDouble_lift1 hv op).imp fun _ hr => ⟨hr.1, hr.2, fun _ => rfl⟩
  binary hv hw _ _ hf := (noDouble_lift2 hv hw hf).imp fun _ hr => ⟨hr.1, hr.2, fun _ => rfl⟩
  mergeValues hv hw := Ensures.of_ok fun _ hr => hv.merge hw hr
  mergeStates hs ht := Ensures.of_ok fun _ hr => hs.merge ht hr
  text _ := Ensures.any _

namespace Outcome

def Covers (o : Outcome) (c : Constant) (ρ : Env) : Prop :=
  o.value.Covers c ∧ o.state.Covers ρ

variable {o p : Outcome} {c : Constant} {ρ : Env}

theorem Covers.isReachable (ho : o.Covers c ρ) : o.isReachable = true :=
  Value.Covers.isReachable ho.1

theorem Covers.merge_left (ho : o.Covers c ρ) (p : Outcome) :
    Ensures True (fun r => r.Covers c ρ) (o.merge p) := by
  have reachable := ho.isReachable
  cases hp : p.isReachable with
  | false =>
    rw [merge_unreachable_right reachable hp]
    exact ho
  | true =>
    rw [merge_parts (reachable.trans hp.symm)]
    refine Ensures.bind (Ensures.of_ok fun v hv => ho.1.merge_left hv) fun v hv => ?_
    exact Ensures.bind (Ensures.of_ok fun s hs => ho.2.merge_left hs) fun s hs => ⟨hv, hs⟩

theorem Covers.merge_right (hp : p.Covers c ρ) (o : Outcome) :
    Ensures True (fun r => r.Covers c ρ) (o.merge p) := by
  have reachable := hp.isReachable
  cases ho : o.isReachable with
  | false =>
    rw [merge_unreachable_left ho reachable]
    exact hp
  | true =>
    rw [merge_parts (ho.trans reachable.symm)]
    refine Ensures.bind (Ensures.of_ok fun v hv => hp.1.merge_right hv) fun v hv => ?_
    exact Ensures.bind (Ensures.of_ok fun s hs => hp.2.merge_right hs) fun s hs => ⟨hv, hs⟩

end Outcome

namespace Evaluator

/-- A condition that is known is the truth value that the run has found. -/
theorem eq_bool_of_coreConstant? {condition : Value} {a : Constant} (ha : condition.Covers a)
    {b : Bool} (h : condition.coreConstant? = some (.bool b)) : a = .bool b := by
  have same := ha.same_of_core (core_of_coreConstant? h)
  cases a with
  | bool d => rw [eq_of_beq same]
  | _ => cases same

theorem covers_choose_then {condition : Value} {a c : Constant} {ρ : Env} {o : Outcome}
    (ha : condition.Covers a) (hne : a ≠ .bool false) (ho : o.Covers c ρ) (p : Outcome) :
    Ensures True (fun r => r.Covers c ρ) (choose condition o p) := by
  unfold choose
  split
  · rename_i b hb
    cases b with
    | true => exact ho
    | false => exact absurd (eq_bool_of_coreConstant? ha hb) hne
  · exact ho.merge_left p

theorem covers_choose_else {condition : Value} {a c : Constant} {ρ : Env} {p : Outcome}
    (ha : condition.Covers a) (hne : a ≠ .bool true) (hp : p.Covers c ρ) (o : Outcome) :
    Ensures True (fun r => r.Covers c ρ) (choose condition o p) := by
  unfold choose
  split
  · rename_i b hb
    cases b with
    | true => exact absurd (eq_bool_of_coreConstant? ha hb) hne
    | false => exact hp
  · exact hp.merge_right o

theorem covers_assign {o : Outcome} {c : Constant} {ρ : Env} (ho : o.Covers c ρ) (x : Symbol)
    (source : Expr) (d : Constant) : (assign (some x) source o).Covers d (ρ.set x c) := by
  rw [assign, if_pos ho.isReachable]
  exact ⟨covers_undetermined d, ho.2.assign ho.1 x (some source)⟩

/-- The outcome after a run: without doubles, and covering what the run ends with. -/
def Follows (c : Constant) (ρ : Env) (o : Outcome) : Prop :=
  Invariant.Keeps Value.NoDouble State.NoDouble o ∧ o.Covers c ρ

/-- Evaluation of an expression covers its runs. -/
def CoversRuns (ev : Evaluator) (e : Expr) : Prop :=
  ∀ {s ρ c ρ'}, s.NoDouble → s.Covers ρ → Run e ρ (.done c ρ') →
    Ensures True (Follows c ρ') (ev.eval e s).result

variable {ev : Evaluator}

theorem covers_evalBranch {e : Option Expr} (he : ∀ c ∈ e.toList, ev.CoversRuns c) {s : State}
    {ρ ρ' : Env} {c : Constant} (hs : s.NoDouble) (hρ : s.Covers ρ)
    (run : RunBranch e ρ (.done c ρ')) :
    Ensures True (fun o => o.Covers c ρ') (ev.evalBranch e s).result := by
  cases run with
  | absent => exact ⟨covers_undetermined c, hρ⟩
  | present run => exact (he _ List.mem_cons_self hs hρ run).imp fun _ ho => ho.2

theorem covers_evalArgs {args : List Expr} (hargs : ∀ c ∈ args, ev.CoversRuns c)
    {result : Value} {c : Constant} (hresult : result.Covers c) {s : State} {ρ ρ' : Env}
    (hs : s.NoDouble) (hρ : s.Covers ρ) (run : RunArgs args ρ (some ρ')) :
    Ensures True (fun o => o.Covers c ρ') (ev.evalArgs result args s).result := by
  induction args generalizing s ρ with
  | nil =>
    cases run with
    | nil => exact ⟨hresult, hρ⟩
  | cons arg args ih =>
    obtain ⟨harg, hrest⟩ := List.forall_mem_cons.mp hargs
    cases run with
    | cons runArg runArgs =>
      rw [evalArgs]
      refine (harg hs hρ runArg).bind_traced fun o ho => ?_
      rw [if_pos ho.2.isReachable]
      exact ih hrest ho.1.2 ho.2.2 runArgs

theorem covers_evalBlock {body : List Expr} (hbody : ∀ c ∈ body, ev.CoversRuns c)
    {last : Outcome} {c d : Constant} {ρ ρ' : Env} (hlast : Follows c ρ last)
    (run : RunBlock body c ρ (.done d ρ')) :
    Ensures True (fun o => o.Covers d ρ') (ev.evalBlock body last).result := by
  induction body generalizing last c ρ with
  | nil =>
    cases run with
    | nil => exact hlast.2
  | cons e es ih =>
    obtain ⟨he, hrest⟩ := List.forall_mem_cons.mp hbody
    cases run with
    | cons runHead runRest =>
      rw [evalBlock]
      refine (he hlast.1.2 hlast.2.2 runHead).bind_traced fun o ho => ?_
      rw [if_pos ho.2.isReachable]
      exact ih hrest ho runRest

/-- Both operands are evaluated in order before a binary operator is applied. -/
theorem covers_binary {left right : Expr} (hleft : ev.CoversRuns left)
    (hright : ev.CoversRuns right) {s : State} {ρ ρ₁ ρ₂ ρ' : Env} {a b c : Constant}
    (hs : s.NoDouble) (hρ : s.Covers ρ) (runLeft : Run left ρ (.done a ρ₁))
    (runRight : Run right ρ₁ (.done b ρ₂)) {op : BinaryOp} (hop : op ≠ .assign)
    {language : Option String}
    (apply : ∀ l r, Follows a ρ₁ l → Follows b ρ₂ r → Ensures True (fun o => o.Covers c ρ')
      (ev.applyBinary op language l.value r.value r.state left.target?).result) (id : Nat) :
    Ensures True (fun o => o.Covers c ρ')
      (ev.eval (.binary id left op right language) s).result := by
  rw [eval_binary hop]
  refine report_partial ((hleft hs hρ runLeft).bind_traced fun l hl => ?_)
  rw [if_pos hl.2.isReachable]
  exact (hright hl.1.2 hl.2.2 runRight).bind_traced fun r hr => apply l r hl hr

theorem covers_prefixed {operand : Expr} (hoperand : ev.CoversRuns operand) {s : State}
    {ρ ρ₁ ρ' : Env} {a c : Constant} (hs : s.NoDouble) (hρ : s.Covers ρ)
    (run : Run operand ρ (.done a ρ₁)) {op : PrefixOp} {language : Option String}
    (apply : ∀ o, Follows a ρ₁ o → Ensures True (fun r => r.Covers c ρ')
      ((ev.dialect language).evalPrefix op o.value o.state operand.target?)) (id : Nat) :
    Ensures True (fun o => o.Covers c ρ')
      (ev.eval (.prefixed id op operand language) s).result := by
  rw [eval]
  refine report_partial ((hoperand hs hρ run).bind_traced fun o ho => ?_)
  rw [if_pos ho.2.isReachable, dialectFor_bind, Traced.liftM_result]
  exact apply o ho

theorem covers_postfixed {operand : Expr} (hoperand : ev.CoversRuns operand) {s : State}
    {ρ ρ₁ ρ' : Env} {a c : Constant} (hs : s.NoDouble) (hρ : s.Covers ρ)
    (run : Run operand ρ (.done a ρ₁)) {op : StepOp} {language : Option String}
    (apply : ∀ o, Follows a ρ₁ o → Ensures True (fun r => r.Covers c ρ')
      ((ev.dialect language).evalPostfix op o.value o.state operand.target?)) (id : Nat) :
    Ensures True (fun o => o.Covers c ρ')
      (ev.eval (.postfixed id operand op language) s).result := by
  rw [eval]
  refine report_partial ((hoperand hs hρ run).bind_traced fun o ho => ?_)
  rw [if_pos ho.2.isReachable, dialectFor_bind, Traced.liftM_result]
  exact apply o ho

/-- A step binds its target to what the operator gives. -/
theorem covers_update {value new : Value} {c d : Constant} {s : State} {ρ : Env}
    (hs : s.Covers ρ) (hvalue : value.Covers d) (hnew : new.Covers c) (operand : Value)
    (x : Symbol) :
    (Dialect.update value new s (Dialect.updated? operand (some x))).Covers d (ρ.set x c) :=
  ⟨hvalue, hs.assign hnew x none⟩

theorem isNode_of_isPlain {n : Expr} (h : n.isPlain = true) : n.isNode = true := by
  cases n with
  | foreign => cases h
  | _ => rfl

/-- Nodes of the fragment bring in no doubles. -/
theorem admits_noDouble {e n : Expr} (plain : ∀ n ∈ e.nodes, n.isPlain = true)
    (standard : ev.IsStandardFor e) (hn : n ∈ e.nodes) : ev.Admits Value.NoDouble n := by
  refine ⟨?_, ?_, fun language hl => Or.inr (standard n hn language hl)⟩
  · exact isNode_of_isPlain (plain n hn)
  · rintro id value isChar rfl
    have gives := value.eval_gives isChar
    refine .of_isPlain gives.1 (Bool.eq_false_iff.mpr fun double => ?_)
    obtain ⟨x, rfl⟩ := gives.2.2 double
    cases plain _ hn

theorem coversRuns {e : Expr} (plain : ∀ n ∈ e.nodes, n.isPlain = true)
    (standard : ev.IsStandardFor e) : ev.CoversRuns e := by
  induction e using Expr.induction with
  | node e ih =>
    obtain ⟨plainHere, plainBelow⟩ := Expr.forall_nodes.mp plain
    obtain ⟨standardHere, standardBelow⟩ := Expr.forall_nodes.mp standard
    have covered : ∀ c ∈ e.children, ev.CoversRuns c :=
      fun c hc => ih c hc (plainBelow c hc) (standardBelow c hc)
    intro s ρ c ρ' hs hρ run
    have kept := Invariant.noDouble.eval_unguarded (fun _ => admits_noDouble plain standard) hs
    refine kept.and ?_
    cases run with
    | literal hc => exact report_partial ⟨covers_of_gives hc, hρ⟩
    | classLiteral => exact report_partial ⟨covers_const _, hρ⟩
    | unresolvedClass => exact report_partial ⟨covers_undetermined c, hρ⟩
    | unresolved => exact report_partial ⟨covers_external _ c, hρ⟩
    | declared => exact report_partial ⟨hρ _, hρ⟩
    | entry => exact report_partial ⟨covers_const _, hρ⟩
    | call runArgs =>
      rw [eval]
      exact report_partial (covers_evalArgs covered (covers_external _ c) hs hρ runArgs)
    | assign hx runRight =>
      rw [eval, hx]
      have right := covered _ (List.mem_cons_of_mem _ List.mem_cons_self) hs hρ runRight
      exact report_partial (right.bind_traced fun o ho => covers_assign ho.2 _ _ c)
    | operator hf runLeft runRight hc =>
      obtain ⟨hand, hor⟩ := Expr.not_logical_of_isPlain plainHere
      refine covers_binary (covered _ List.mem_cons_self)
        (covered _ (List.mem_cons_of_mem _ List.mem_cons_self)) hs hρ runLeft runRight
        (fun h => by subst h; cases hf) (fun l r hl hr => ?_) _
      rw [applyBinary_standard (standardHere _ rfl) hf]
      exact (covers_lift2 hl.1.1 hr.1.1 hl.2.1 hr.2.1 hf hand hor hc).map fun v hv => ⟨hv, hr.2.2⟩
    | compound hbase hf hx runLeft runRight hc =>
      obtain ⟨hand, hor⟩ := BinaryOp.not_logical_of_compound? hbase
      refine covers_binary (covered _ List.mem_cons_self)
        (covered _ (List.mem_cons_of_mem _ List.mem_cons_self)) hs hρ runLeft runRight
        (fun h => by subst h; cases hbase) (fun l r hl hr => ?_) _
      rw [applyBinary_of_dialect _ _ (fun h => by subst h; cases hbase)
        (fun h => by subst h; cases hbase), hx,
        Dialect.evalBinary_compound _ _ _ _ (standardHere _ rfl) hbase hf rfl]
      exact (covers_lift2 hl.1.1 hr.1.1 hl.2.1 hr.2.1 hf hand hor hc).map fun new hnew =>
        ⟨covers_undetermined c, hr.2.2.assign hnew _ none⟩
    | prefixed hop runOperand hc =>
      refine covers_prefixed (covered _ List.mem_cons_self) hs hρ runOperand (fun o ho => ?_) _
      rw [Dialect.evalPrefix_standard _ _ _ (standardHere _ rfl) hop]
      exact (covers_lift1 ho.1.1 ho.2.1 _ hc).map fun r hr => ⟨hr, ho.2.2⟩
    | stepBefore hx runOperand hc =>
      refine covers_prefixed (covered _ List.mem_cons_self) hs hρ runOperand (fun o ho => ?_) _
      rw [hx, Dialect.evalPrefix_step _ _ _ (standardHere _ rfl)]
      exact (covers_lift1 ho.1.1 ho.2.1 (.step _) hc).map fun new hnew =>
        covers_update ho.2.2 hnew hnew o.value _
    | stepAfter hx runOperand hc =>
      refine covers_postfixed (covered _ List.mem_cons_self) hs hρ runOperand (fun o ho => ?_) _
      rw [hx, Dialect.evalPostfix_standard _ _ _ (standardHere _ rfl)]
      exact (covers_lift1 ho.1.1 ho.2.1 (.step _) hc).map fun new hnew =>
        covers_update ho.2.2 ho.2.1 hnew o.value _
    | condThen runCondition ha runBranch =>
      rw [eval]
      have condition := covered _ List.mem_cons_self hs hρ runCondition
      refine report_partial (condition.bind_traced fun o ho => ?_)
      have branch := covers_evalBranch (fun e he => covered e (List.mem_cons_of_mem _
        (List.mem_append_left _ he))) ho.1.2 ho.2.2 runBranch
      refine branch.bind_traced fun t ht => (Ensures.any _).bind_traced fun f _ => ?_
      exact covers_choose_then ho.2.1 ha ht f
    | condElse runCondition ha runBranch =>
      rw [eval]
      have condition := covered _ List.mem_cons_self hs hρ runCondition
      refine report_partial (condition.bind_traced fun o ho => ?_)
      have branch := covers_evalBranch (fun e he => covered e (List.mem_cons_of_mem _
        (List.mem_append_right _ he))) ho.1.2 ho.2.2 runBranch
      refine (Ensures.any _).bind_traced fun t _ => branch.bind_traced fun f hf => ?_
      exact covers_choose_else ho.2.1 ha hf t
    | block runBody =>
      rw [eval]
      refine report_partial (covers_evalBlock covered ⟨?_, ?_⟩ runBody)
      · exact ⟨Invariant.noDouble.undetermined, hs⟩
      · exact ⟨covers_undetermined _, hρ⟩
    | declare => exact report_partial ⟨covers_undetermined c, hρ⟩
    | declareInit runInit =>
      rw [eval]
      have init := covered _ List.mem_cons_self hs hρ runInit
      exact report_partial (init.bind_traced fun o ho => covers_assign ho.2 _ _ c)
    | paren runInner =>
      rw [eval]
      exact report_partial ((covered _ List.mem_cons_self hs hρ runInner).imp fun _ ho => ho.2)
    | unmodelled => exact report_partial ⟨covers_undetermined c, hρ⟩

/-- From a state that covers an environment, evaluation covers all that a run from there can end
with; where it gives `nothing`, every run is cut short. There is a run, and from a good state
evaluation does give an outcome. -/
theorem eval_covers_runs {e : Expr} (plain : ∀ n ∈ e.nodes, n.isPlain = true)
    (standard : ev.IsStandardFor e) {s : State} (hs : s.NoDouble) {ρ : Env} (hρ : s.Covers ρ) :
    (∃ exit, Run e ρ exit) ∧
      (s.Good → ∃ o, (ev.eval e s).result = .ok o) ∧
      ∀ o, (ev.eval e s).result = .ok o →
        (∀ c ρ', Run e ρ (.done c ρ') → o.value.Covers c ∧ o.state.Covers ρ') ∧
        (o.value = .nothing → ∀ exit, Run e ρ exit → exit = .aborted) := by
  refine ⟨exists_run plain ρ, fun good => ?_, fun o ho => ?_⟩
  · obtain ⟨o, ho, -⟩ := eval_regular (fun n hn => isNode_of_isPlain (plain n hn))
      (fun n hn language hl => Or.inr (standard n hn language hl)) good
    exact ⟨o, ho⟩
  have covers : ∀ c ρ', Run e ρ (.done c ρ') → o.Covers c ρ' := by
    intro c ρ' run
    have follows := coversRuns plain standard hs hρ run
    rw [ho] at follows
    exact follows.2
  refine ⟨covers, fun nothing exit run => ?_⟩
  cases exit with
  | aborted => rfl
  | done c ρ' =>
    have reachable := (covers c ρ' run).isReachable
    rw [Outcome.isReachable, nothing] at reachable
    cases reachable

/-- A run that increments `x` to 2. -/
theorem eval_covers_runs_conditionalIncrement :
    let x : Symbol := .decl ⟨0, "x", .block⟩
    let ρ : Env := fun _ => .null
    ∃ o, (eval ⟨.standard, .standard⟩ conditionalIncrement .empty).result = .ok o ∧
      o.value.Covers (.int 1 8) ∧ o.state.Covers ((ρ.set x (.int 1 8)).set x (.int 2 8)) := by
  intro x ρ
  have plain : ∀ n ∈ conditionalIncrement.nodes, n.isPlain = true := by decide
  have standard : IsStandardFor ⟨.standard, .standard⟩ conditionalIncrement := by
    have default : ∀ n ∈ conditionalIncrement.nodes,
        n.language? = none ∨ n.language? = some none := by decide
    intro n hn language hl
    rcases default n hn with h | h
    · rw [h] at hl
      cases hl
    · rw [h] at hl
      cases hl
      rfl
  have run : Run conditionalIncrement ρ
      (.done (.int 1 8) ((ρ.set x (.int 1 8)).set x (.int 2 8))) :=
    .block (c := .null) (.cons (.declareInit (d := .null) (.literal .known))
      (.cons (.condThen (.call (c := .null) .nil) nofun
        (.present (.stepAfter rfl .declared .known))) .nil))
  have noDouble : State.empty.NoDouble := fun _ => .of_isPlain rfl rfl
  have covered : State.empty.Covers ρ := fun y => covers_undetermined (ρ y)
  have laws := eval_covers_runs plain standard noDouble covered
  obtain ⟨o, ho⟩ := laws.2.1 State.good_empty
  exact ⟨o, ho, (laws.2.2 o ho).1 _ _ run⟩

end Evaluator

end ValueFlow
