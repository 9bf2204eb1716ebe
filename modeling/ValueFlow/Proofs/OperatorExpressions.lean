import ValueFlow.Proofs.Alternatives
import ValueFlow.Proofs.Bounds
import ValueFlow.Proofs.StandardDialect

/-!
# Operator expressions

Expressions that only compute: literals, references and operators that do not assign. With the
standard operators such an expression leaves the state as it is. Its core is the fold of the
operators over the cores of the variables it reads, and it hands on what these hand on.

* `Expr.fold`, `Expr.fold_congr`: the fold depends only on the variables that are read.
* `Evaluator.eval_computes`: evaluation in terms of the fold and of the variables read.
* `Evaluator.eval_operation_exact`: from a bounded state it has an outcome, with exactly that value
  and provenance.
-/

namespace ValueFlow

open Value

namespace Value

theorem provenance_dependingOn {v : Value} (h : v.isAtom = true) (D : List Value) (d : Value) :
    hasSame (v.dependingOn D).provenance d = hasSame D d := by
  by_cases hD : D = []
  · rw [hD, dependingOn_nil, provenance_of_not_isDependent (isDependent_of_isAtom h)]
  · rw [dependingOn_of_isAtom h hD]
    exact hasSame_distinct D d

end Value

namespace Expr

/-- The expressions that only compute. -/
inductive Operation : Expr → Prop
  | literal (id : Nat) (value : Literal) (isChar : Bool) : Operation (.literal id value isChar)
  | classLiteral (id : Nat) (typeName : Option String) : Operation (.classLiteral id typeName)
  | reference (id : Nat) (name : String) (target : Option Symbol) :
      Operation (.reference id name target)
  | paren (id : Nat) {e : Expr} (he : Operation e) : Operation (.paren id e)
  | binary (id : Nat) (language : Option String) {l r : Expr} {op : BinaryOp} {f : BinaryCore}
      (hf : op.core? = some f) (hl : Operation l) (hr : Operation r) :
      Operation (.binary id l op r language)
  | prefixed (id : Nat) (language : Option String) {e : Expr} {op : PrefixOp}
      (hop : ∀ step, op ≠ .step step) (he : Operation e) : Operation (.prefixed id op e language)

theorem Operation.isNode {e : Expr} (he : e.Operation) : ∀ n ∈ e.nodes, n.isNode = true := by
  refine Expr.forall_nodes.mpr ?_
  induction he with
  | literal | classLiteral | reference => exact ⟨rfl, List.forall_mem_nil _⟩
  | paren id _ ih => exact ⟨rfl, List.forall_mem_singleton.mpr (Expr.forall_nodes.mpr ih)⟩
  | binary id language _ _ _ ihl ihr =>
    refine ⟨rfl, List.forall_mem_cons.mpr ⟨Expr.forall_nodes.mpr ihl, ?_⟩⟩
    exact List.forall_mem_singleton.mpr (Expr.forall_nodes.mpr ihr)
  | prefixed id language _ _ ih =>
    exact ⟨rfl, List.forall_mem_singleton.mpr (Expr.forall_nodes.mpr ih)⟩

/-- The variables that an expression reads, with repetitions. -/
def reads : Expr → List Symbol
  | .reference _ _ (some (.decl x)) => [.decl x]
  | .paren _ e => e.reads
  | .binary _ l _ r _ => l.reads ++ r.reads
  | .prefixed _ _ e _ => e.reads
  | _ => []

/-- The operators applied to the values that variables have. What is not computed by them has no
value of its own. -/
def fold (ρ : Symbol → Value) : Expr → Except Fault Value
  | .literal _ value isChar => .ok (value.eval isChar)
  | .classLiteral _ (some name) => .ok (.const (.typeLiteral name))
  | .reference id name none => .ok (.external (.node (.reference id name none)))
  | .reference _ _ (some (.decl x)) => .ok (ρ (.decl x))
  | .reference _ _ (some (.entry c)) => .ok (.const (.entry c))
  | .paren _ e => e.fold ρ
  | .binary _ l op r _ =>
    match op.core? with
    | some f => do f (← l.fold ρ) (← r.fold ρ)
    | none => .ok .undetermined
  | .prefixed _ op e _ => do op.core (← e.fold ρ)
  | _ => .ok .undetermined

theorem fold_binary {op : BinaryOp} {f : BinaryCore} (hf : op.core? = some f)
    (ρ : Symbol → Value) (id : Nat) (l r : Expr) (language : Option String) :
    fold ρ (.binary id l op r language) = (do f (← l.fold ρ) (← r.fold ρ)) := by
  rw [fold, hf]

theorem fold_congr {ρ σ : Symbol → Value} {e : Expr} (he : e.Operation)
    (h : ∀ x ∈ e.reads, ρ x = σ x) : e.fold ρ = e.fold σ := by
  induction he with
  | literal => rfl
  | classLiteral id name => cases name <;> rfl
  | reference id name target =>
    cases target with
    | none => rfl
    | some x =>
      cases x with
      | decl x => exact congrArg Except.ok (h (.decl x) List.mem_cons_self)
      | entry c => rfl
  | paren id _ ih => exact ih h
  | binary id language hf _ _ ihl ihr =>
    obtain ⟨hl, hr⟩ := List.forall_mem_append.mp h
    rw [fold_binary hf, fold_binary hf, ihl hl, ihr hr]
  | prefixed id language _ _ ih => rw [fold, fold, ih h]

/-- What the evaluation of an operation gives. -/
structure Folded (e : Expr) (s : State) (o : Outcome) : Prop where
  state : o.state = s
  core : e.fold (fun x => (s.lookup x).core) = .ok o.value.core
  provenance : ∀ d, hasSame o.value.provenance d = true ↔
    ∃ x ∈ e.reads, hasSame (s.lookup x).provenance d = true
  /-- The value is that of the only variable read, or is computed. -/
  form : (∃ x, e.reads = [x] ∧ o.value = s.lookup x) ∨
    ∃ (r : Value) (D : List Value), r.isAtom = true ∧ o.value = r.dependingOn D

namespace Folded

variable {e : Expr} {s : State}

theorem isReachable {o : Outcome} (ho : e.Folded s o)
    (reads : ∀ x ∈ e.reads, (s.lookup x).isReachable = true) : o.isReachable = true := by
  rw [Outcome.isReachable]
  rcases ho.form with ⟨x, hx, heq⟩ | ⟨r, D, atom, heq⟩
  · rw [heq]
    exact reads x (hx ▸ List.mem_cons_self)
  · rw [heq]
    exact isReachable_dependingOn (isReachable_of_isAtom atom) D

/-- A leaf that reads nothing. -/
theorem leaf {v : Value} (atom : v.isAtom = true) (reads : e.reads = [])
    (core : e.fold (fun x => (s.lookup x).core) = .ok v) : e.Folded s ⟨v, s⟩ := by
  have bare := isDependent_of_isAtom atom
  refine ⟨rfl, ?_, fun d => ?_, Or.inr ⟨v, [], atom, (dependingOn_nil v).symm⟩⟩
  · rw [core, core_of_not_isDependent bare]
  · rw [reads, provenance_of_not_isDependent bare]
    simp

end Folded

end Expr

namespace Evaluator

variable {ev : Evaluator}

/-- Where a value was computed to be plain, it has the core and the provenance that it was computed
with. -/
theorem folded_computed {e : Expr} {s : State} {c : Value} {D : List Value}
    (plain : c.isPlain = true) (core : e.fold (fun x => (s.lookup x).core) = .ok c)
    (reads : ∀ d, hasSame D d = true ↔
      ∃ x ∈ e.reads, hasSame (s.lookup x).provenance d = true) :
    e.Folded s ⟨c.dependingOn D, s⟩ := by
  have atom := isAtom_of_isPlain plain
  refine ⟨rfl, ?_, fun d => ?_, Or.inr ⟨c, D, atom, rfl⟩⟩
  · rw [core_dependingOn, core_of_not_isDependent (isDependent_of_isAtom atom), core]
  · rw [provenance_dependingOn atom]
    exact reads d

/-- An operation has been evaluated; its value is bounded, unless there may be none. -/
def Computes (mayFail : Prop) (e : Expr) (s : State) (o : Outcome) : Prop :=
  e.Folded s o ∧ (mayFail ∨ o.value.Bounded)

theorem report_computes {mayFail : Prop} {e : Expr} {s : State} {run : Traced Outcome}
    (h : Ensures mayFail (Computes mayFail e s) run.result) :
    Ensures mayFail (Computes mayFail e s) (ev.report e run).result := by
  refine report_ensures h fun o ho => ?_
  rcases ho.2 with failing | bounded
  · exact (Ensures.any _).weaken fun _ => failing
  · obtain ⟨t, ht⟩ := bounded.text
    rw [ht]
    trivial

theorem computes_leaf {mayFail : Prop} {e : Expr} {s : State} {v : Value} (plain : v.isAtom = true)
    (bounded : v.Bounded) (reads : e.reads = [])
    (core : e.fold (fun x => (s.lookup x).core) = .ok v) : Computes mayFail e s ⟨v, s⟩ :=
  ⟨.leaf plain reads core, Or.inr bounded⟩

/-- Only operands out of bounds can make an operation fail. -/
theorem eval_computes {mayFail : Prop} {e : Expr} (he : e.Operation)
    (standard : ev.IsStandardFor e) {s : State}
    (reads : ∀ x ∈ e.reads, (s.lookup x).isReachable = true)
    (bounded : ∀ x ∈ e.reads, mayFail ∨ (s.lookup x).Bounded) :
    Ensures mayFail (Computes mayFail e s) (ev.eval e s).result := by
  induction he with
  | literal id value isChar =>
    obtain ⟨plain, range, -⟩ := value.eval_gives isChar
    rw [eval]
    exact report_computes
      (computes_leaf (isAtom_of_isPlain plain) (.of_isPlain plain range) rfl rfl)
  | classLiteral id name =>
    cases name with
    | none =>
      rw [eval]
      exact report_computes (computes_leaf rfl .undetermined rfl rfl)
    | some name =>
      rw [eval]
      exact report_computes (computes_leaf rfl (.const trivial) rfl rfl)
  | reference id name target =>
    cases target with
    | none =>
      rw [eval]
      exact report_computes (computes_leaf rfl .external rfl rfl)
    | some x =>
      cases x with
      | decl x =>
        rw [eval]
        refine report_computes ⟨⟨rfl, rfl, fun d => ?_, Or.inl ⟨.decl x, rfl, rfl⟩⟩, ?_⟩
        · simp [Expr.reads]
        · exact bounded (.decl x) List.mem_cons_self
      | entry c =>
        rw [eval]
        exact report_computes (computes_leaf rfl (.const trivial) rfl rfl)
  | @paren id e _ ih =>
    obtain ⟨-, standardBelow⟩ := Expr.forall_nodes.mp standard
    have inner := ih (standardBelow e List.mem_cons_self) reads bounded
    rw [eval]
    refine report_computes (inner.imp fun o ho => ⟨?_, ho.2⟩)
    exact ⟨ho.1.state, ho.1.core, ho.1.provenance, ho.1.form⟩
  | @binary id language l r op f hf _ _ ihl ihr =>
    obtain ⟨standardHere, standardBelow⟩ := Expr.forall_nodes.mp standard
    obtain ⟨readsL, readsR⟩ := List.forall_mem_append.mp reads
    obtain ⟨boundedL, boundedR⟩ := List.forall_mem_append.mp bounded
    have hop : op ≠ .assign := by
      rintro rfl
      cases hf
    rw [eval_binary hop]
    refine report_computes ?_
    have left := ihl (standardBelow l List.mem_cons_self) readsL boundedL
    refine left.bind_traced ?_
    rintro o ⟨ho, boundedO⟩
    rw [if_pos (ho.isReachable readsL), ho.state]
    have right := ihr (standardBelow r (List.mem_cons_of_mem l List.mem_cons_self)) readsR boundedR
    refine right.bind_traced ?_
    rintro p ⟨hp, boundedP⟩
    rw [hp.state, applyBinary_standard (standardHere language rfl) hf]
    have promise : mayFail ∨ Ensures False Value.Bounded (lift2 f o.value p.value) := by
      rcases boundedO with failing | boundedO
      · exact Or.inl failing
      · exact boundedP.imp_right fun boundedP => boundedO.lift2 boundedP hf
    refine (Ensures.of_promise promise).map ?_
    rintro v ⟨hv, boundedV⟩
    refine ⟨?_, boundedV⟩
    obtain ⟨c, hc, rfl⟩ := lift2_eq_ok hv
    have combined := BinaryOp.core_ensures hf o.value.core p.value.core
    rw [hc] at combined
    refine folded_computed combined.plain ?_ fun d => ?_
    · rw [Expr.fold_binary hf, ho.core, hp.core]
      exact hc
    · simp only [hasSame_union, Bool.or_eq_true, ho.provenance, hp.provenance, Expr.reads,
        List.mem_append, or_and_right, exists_or]
  | @prefixed id language e op hop _ ih =>
    obtain ⟨standardHere, standardBelow⟩ := Expr.forall_nodes.mp standard
    rw [eval]
    refine report_computes ?_
    have operand := ih (standardBelow e List.mem_cons_self) reads bounded
    refine operand.bind_traced ?_
    rintro o ⟨ho, boundedO⟩
    rw [if_pos (ho.isReachable reads), dialectFor_bind, Traced.liftM_result,
      Dialect.evalPrefix_standard _ _ _ (standardHere language rfl) hop, ho.state]
    have promise : mayFail ∨ Ensures False Value.Bounded (lift1 op.core o.value) :=
      boundedO.imp_right fun boundedO => boundedO.lift1 op
    refine (Ensures.of_promise promise).map ?_
    rintro v ⟨hv, boundedV⟩
    refine ⟨?_, boundedV⟩
    obtain ⟨c, hc, rfl⟩ := lift1_eq_ok hv
    have transformed := op.core_ensures o.value.core
    rw [hc] at transformed
    refine folded_computed transformed.plain ?_ ho.provenance
    rw [Expr.fold, ho.core]
    exact hc

theorem eval_operation {e : Expr} (he : e.Operation) (standard : ev.IsStandardFor e) {s : State}
    (reads : ∀ x ∈ e.reads, (s.lookup x).isReachable = true) :
    Ensures True (e.Folded s) (ev.eval e s).result :=
  (eval_computes he standard reads fun _ _ => Or.inl trivial).imp fun _ ho => ho.1

/-- An operation leaves the state as it is, has the fold of the operators over the cores of the
variables read as its core, and hands on exactly what these hand on. -/
theorem eval_operation_exact {e : Expr} (he : e.Operation) (standard : ev.IsStandardFor e)
    {s : State} (hs : s.Bounded) :
    ∃ o, (ev.eval e s).result = .ok o ∧ o.state = s ∧
      e.fold (fun x => (s.lookup x).core) = .ok o.value.core ∧
      sameSet o.value.provenance (e.reads.flatMap fun x => (s.lookup x).provenance) = true := by
  have computed : Ensures False (Computes False e s) (ev.eval e s).result :=
    eval_computes he standard (fun x _ => (hs.lookup x).2) fun x _ => Or.inr (hs.lookup x).1
  obtain ⟨o, ho, folded, -⟩ := computed.exists_ok
  refine ⟨o, ho, folded.state, folded.core, sameSet_iff.mpr fun d => ?_⟩
  rw [Bool.eq_iff_iff, folded.provenance, hasSame_flatMap]

/-- Compares the product of `x` and of `y`, which was computed from `x`, and asks for `b`, which is
not bound, where the comparison does not decide. -/
def productOrFlag : Expr :=
  .binary 0
    (.binary 1 (.binary 2 (.reference 3 "x" (some (.decl ⟨0, "x", .block⟩))) .times
      (.paren 4 (.reference 5 "y" (some (.decl ⟨1, "y", .block⟩)))) none) .ge
      (.literal 6 (.int 40) false) none)
    .or (.reference 7 "b" (some (.decl ⟨2, "b", .block⟩))) none

def productOrFlagStart : State :=
  let x : Value := .var (.decl ⟨0, "x", .block⟩) (.int 7) [] none
  (State.empty.set (.decl ⟨0, "x", .block⟩) x).set (.decl ⟨1, "y", .block⟩)
    (.dependent x [.external (.text "input"), x])

theorem bounded_productOrFlagStart : productOrFlagStart.Bounded := by
  have seven : (Value.var (.decl ⟨0, "x", .block⟩) (.int 7) [] none).Bounded :=
    .var (.const ⟨by decide, by decide⟩) (List.forall_mem_nil _)
  refine (State.bounded_empty.set seven rfl _).set (.dependent seven ?_) rfl _
  exact List.forall_mem_cons.mpr ⟨.external, List.forall_mem_singleton.mpr seven⟩

theorem eval_operation_exact_productOrFlag :
    let ev : Evaluator := ⟨.standard, .standard⟩
    let s := productOrFlagStart
    ∃ o, (ev.eval productOrFlag s).result = .ok o ∧ o.state = s ∧ o.value.core = .bool true ∧
      sameSet o.value.provenance
        (productOrFlag.reads.flatMap fun x => (s.lookup x).provenance) = true := by
  have computes : productOrFlag.Operation :=
    .binary _ _ rfl (.binary _ _ rfl
      (.binary _ _ rfl (.reference ..) (.paren _ (.reference ..))) (.literal ..)) (.reference ..)
  have standard : IsStandardFor ⟨.standard, .standard⟩ productOrFlag :=
    isStandardFor_standard (by decide)
  obtain ⟨o, ho, state, core, provenance⟩ :=
    eval_operation_exact computes standard bounded_productOrFlagStart
  exact ⟨o, ho, state, (Except.ok.inj core).symm, provenance⟩

end Evaluator

end ValueFlow
