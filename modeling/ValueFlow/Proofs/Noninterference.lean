import ValueFlow.Proofs.Mentions
import ValueFlow.Proofs.ReachableStates

/-!
# Noninterference

What provenance says about straight-line code. Two runs of a list of assignments start from states
that differ in the constant of one variable `z`. If `x` ends up with different values, what it is
bound to mentions `z` or a carrier of `z`. Carriers come from assignments that read the variable
which they assign: the old variable is taken out of what the new one depends on, and where that took
out the last mention of `z`, the variable itself stands for it from then on.

* `Evaluator.eval_assignment`: what an assignment does.
* `State.Secure.assign`: one assignment keeps the two runs secure.
* `Evaluator.secure_evalBlock`: so do all of them.
* `Evaluator.eval_noninterference`: the result in terms of what is bound at the end.
-/

namespace ValueFlow

open Value

/-- An assignment of something that only computes. -/
structure Assignment where
  id : Nat
  left : Expr
  target : Symbol
  source : Expr
  language : Option String
  names : left.target? = some target
  leftNodes : ∀ n ∈ left.nodes, n.isNode = true
  computes : source.Operation

namespace Assignment

def expr (a : Assignment) : Expr := .binary a.id a.left .assign a.source a.language

theorem isNode_expr (a : Assignment) : ∀ n ∈ a.expr.nodes, n.isNode = true := by
  refine Expr.forall_nodes.mpr ⟨rfl, List.forall_mem_cons.mpr ⟨a.leftNodes, ?_⟩⟩
  exact List.forall_mem_singleton.mpr a.computes.isNode

/-- Assigns the sum of a variable and a constant. -/
def addition (id : Nat) (target operand : Declaration) (n : Int) : Assignment where
  id := id
  left := .reference (id + 1) target.name (some (.decl target))
  target := .decl target
  source := .binary (id + 2) (.reference (id + 3) operand.name (some (.decl operand))) .plus
    (.literal (id + 4) (.int n) false) none
  language := none
  names := rfl
  leftNodes := List.forall_mem_singleton.mpr rfl
  computes := .binary _ _ rfl (.reference _ _ _) (.literal _ _ _)

/-- The carriers after an assignment. If it reads its target and takes the last mention of a carrier
out of it, the target becomes a carrier. -/
def carry (a : Assignment) (before after : State) (carriers : List Symbol) : List Symbol :=
  if a.source.reads.any (·.same a.target) &&
      carriers.any (before.lookup a.target).mentions &&
      !carriers.any (after.lookup a.target).mentions
  then a.target :: carriers else carriers

theorem mem_carry {a : Assignment} {before after : State} {carriers : List Symbol} {z : Symbol}
    (hz : z ∈ carriers) : z ∈ a.carry before after carriers := by
  rw [carry]
  split
  · exact List.mem_cons_of_mem _ hz
  · exact hz

end Assignment

/-- The carriers at the end of a run. -/
def Evaluator.carriers (ev : Evaluator) : List Assignment → State → List Symbol → List Symbol
  | [], _, carriers => carriers
  | a :: body, s, carriers =>
    match (ev.eval a.expr s).result with
    | .ok o => ev.carriers body o.state (a.carry s o.state carriers)
    | .error _ => carriers

namespace State

/-- The symbol is bound to a variable of it that holds a constant. -/
def HoldsConstant (s : State) (x : Symbol) : Prop :=
  ∃ y c D source, s.get? x = some (.var y (.const c) D source) ∧ y.same x = true

/-- The states differ at most in the constant that `z` is bound to. -/
structure DiffersAt (z : Symbol) (s t : State) : Prop where
  elsewhere : ∀ x, x.same z = false → s.get? x = t.get? x
  here : ∃ y c d D source, s.get? z = some (.var y (.const c) D source) ∧
    t.get? z = some (.var y (.const d) D source) ∧ y.same z = true

/-- What a symbol is read as differs only where a carrier is tracked. -/
def Secure (carriers : List Symbol) (s t : State) : Prop :=
  ∀ x, (s.lookup x).core = (t.lookup x).core ∨
    ∃ z ∈ carriers, (s.lookup x).tracks z = true

theorem HoldsConstant.isBinding {s : State} {x : Symbol} (h : s.HoldsConstant x) :
    (s.lookup x).IsBinding x := by
  obtain ⟨y, c, D, source, hget, hyx⟩ := h
  rw [lookup_of_get? hget]
  exact .var hyx (.atom rfl)

theorem holdsConstant_assign (s : State) (x : Symbol) (c : Constant) (source : Option Expr) :
    (s.assign x (.const c) source).HoldsConstant x := by
  refine ⟨x, c, [], source, ?_, Symbol.same_refl x⟩
  rw [assign, get?_set, if_pos (Symbol.same_refl x)]
  rfl

theorem HoldsConstant.assign {s : State} {x : Symbol} (h : s.HoldsConstant x) (y : Symbol)
    (c : Constant) (source : Option Expr) : (s.assign y (.const c) source).HoldsConstant x := by
  by_cases same : y.same x = true
  · refine ⟨y, c, [], source, ?_, same⟩
    rw [State.assign, get?_set, if_pos same]
    rfl
  · obtain ⟨w, d, D, old, hget, hw⟩ := h
    refine ⟨w, d, D, old, ?_, hw⟩
    rw [State.assign, get?_set, if_neg same, hget]

namespace DiffersAt

variable {z : Symbol} {s t : State}

theorem assign (s : State) (z : Symbol) (c d : Constant) (source : Option Expr) :
    DiffersAt z (s.assign z (.const c) source) (s.assign z (.const d) source) := by
  refine ⟨fun x other => ?_, z, c, d, [], source, ?_, ?_, Symbol.same_refl z⟩
  · have other : ¬ z.same x = true := by rw [Symbol.same_comm, other]; exact Bool.false_ne_true
    rw [State.assign, State.assign, get?_set, get?_set, if_neg other, if_neg other]
  · rw [State.assign, get?_set, if_pos (Symbol.same_refl z)]
    rfl
  · rw [State.assign, get?_set, if_pos (Symbol.same_refl z)]
    rfl

theorem holdsConstant (h : DiffersAt z s t) {x : Symbol} (hx : s.HoldsConstant x) :
    t.HoldsConstant x := by
  by_cases same : x.same z = true
  · obtain ⟨y, c, d, D, source, -, hget, hyz⟩ := h.here
    rw [← get?_congr same] at hget
    exact ⟨y, d, D, source, hget, Symbol.same_trans hyz (by rw [Symbol.same_comm, same])⟩
  · obtain ⟨y, c, D, source, hget, hyx⟩ := hx
    rw [h.elsewhere x (Bool.eq_false_iff.mpr same)] at hget
    exact ⟨y, c, D, source, hget, hyx⟩

theorem secure (h : DiffersAt z s t) : Secure [z] s t := by
  intro x
  by_cases same : x.same z = true
  · obtain ⟨y, c, d, D, source, hget, -, hyz⟩ := h.here
    refine Or.inr ⟨z, List.mem_singleton_self z, ?_⟩
    rw [lookup_congr same, lookup_of_get? hget, tracks, hyz, Bool.true_or]
  · refine Or.inl ?_
    rw [lookup, lookup, h.elsewhere x (Bool.eq_false_iff.mpr same)]

end DiffersAt

end State

namespace Expr.Folded

variable {e : Expr} {s : State} {v : Value}

/-- What an operation gives, once it is bound: a copy of the one variable that it reads, or a
computed value that depends on all it reads but the variable that it is bound to. -/
theorem boundTo_cases (hv : e.Folded s ⟨v, s⟩) (y : Symbol) (source : Option Expr) :
    (∃ x, e.reads = [x] ∧ v = s.lookup x) ∨
      ∃ (r : Value) (E : List Value), r.isAtom = true ∧
        v.boundTo y [] source = .var y (r.dependingOn E) [] source ∧
        (∀ d ∈ E, d.isVarOf y = false) ∧
        ∀ x ∈ e.reads, ∀ d, hasSame (s.lookup x).provenance d = true → d.isVarOf y = false →
          hasSame E d = true := by
  rcases hv.form with copied | ⟨r, D, atom, heq⟩
  · exact Or.inl copied
  have computed : v = r.dependingOn D := heq
  obtain ⟨E, hE, members, free⟩ := boundTo_computed atom D y source
  refine Or.inr ⟨r, E, atom, computed ▸ hE, free, fun x hx d hd other => ?_⟩
  have present : hasSame D d = true := by
    rw [← provenance_dependingOn atom, ← computed]
    exact (hv.provenance d).mpr ⟨x, hx, hd⟩
  rw [members, present, other]
  rfl

variable (bound : ∀ x ∈ e.reads, (s.lookup x).IsBinding x)
include bound

/-- What an operation over bindings gives can be bound. -/
theorem isBinding (hv : e.Folded s ⟨v, s⟩) (y : Symbol) (source : Option Expr) :
    (v.boundTo y [] source).IsBinding y := by
  rcases hv.boundTo_cases y source with ⟨x, hx, rfl⟩ | ⟨r, E, atom, hE, free, -⟩
  · have settled := (bound x (hx ▸ List.mem_cons_self)).settled y
    exact (settled.boundTo [] source).1
  · rw [hE]
    exact .var (Symbol.same_refl y) (.dependingOn atom free)

/-- What a variable that is read tracks, a copy of it tracks. A computed value tracks it if it is
another variable than the one bound, and tracks all that it mentions. -/
theorem tracks_boundTo (hv : e.Folded s ⟨v, s⟩) {x z : Symbol} (hx : x ∈ e.reads)
    (hz : (s.lookup x).tracks z = true) (y : Symbol) (source : Option Expr) :
    (v.boundTo y [] source).tracks z = true ∨
      x.same y = true ∧ ∀ z', (v.boundTo y [] source).mentions z' = true →
        (v.boundTo y [] source).tracks z' = true := by
  rcases hv.boundTo_cases y source with ⟨x', hx', rfl⟩ | ⟨r, E, atom, hE, -, kept⟩
  · rw [hx', List.mem_singleton] at hx
    subst hx
    have settled := (bound x (hx' ▸ List.mem_cons_self)).settled y
    exact Or.inl ((settled.boundTo [] source).2 z hz)
  rw [hE]
  by_cases own : x.same y = true
  · refine Or.inr ⟨own, fun z' hz' => ?_⟩
    rw [tracks, tracks_dependingOn atom]
    simpa [mentions_var] using hz'
  · have binding := bound x hx
    have other : (s.lookup x).isVarOf y = false := by
      rw [binding.isVarOf]
      exact Bool.eq_false_iff.mpr own
    have present := kept x hx _ binding.hasSame_provenance other
    refine Or.inl ?_
    rw [tracks, tracks_dependingOn atom,
      mentions_dependingOn_of_hasSame atom present (mentions_of_tracks hz), Bool.or_true]

end Expr.Folded

/-- A binding stays one, or is replaced by one. -/
theorem Value.IsBinding.assign {s : State} {x y : Symbol} {v : Value} {source : Option Expr}
    (old : (s.lookup x).IsBinding x) (new : (v.boundTo y [] source).IsBinding y) :
    ((s.assign y v source).lookup x).IsBinding x := by
  rw [State.lookup_assign]
  split
  · exact new.congr ‹_›
  · exact old

/-- If a carrier is tracked in a variable that an assignment reads, then after it one is tracked in
the target. -/
theorem Assignment.exists_tracks (a : Assignment) {s : State} {v : Value}
    (hv : a.source.Folded s ⟨v, s⟩) (bound : ∀ x ∈ a.source.reads, (s.lookup x).IsBinding x)
    {x z : Symbol} {carriers : List Symbol} (hx : x ∈ a.source.reads) (hz : z ∈ carriers)
    (tracked : (s.lookup x).tracks z = true) (source : Option Expr) :
    ∃ z' ∈ a.carry s (s.assign a.target v source) carriers,
      (v.boundTo a.target [] source).tracks z' = true := by
  rcases hv.tracks_boundTo bound hx tracked a.target source with kept | ⟨own, shown⟩
  · exact ⟨z, mem_carry hz, kept⟩
  by_cases mentioned : carriers.any (v.boundTo a.target [] source).mentions = true
  · obtain ⟨z', hz', hmentions⟩ := List.any_eq_true.mp mentioned
    exact ⟨z', mem_carry hz', shown z' hmentions⟩
  -- The last mention is gone, so the target has become a carrier.
  have reads : a.source.reads.any (·.same a.target) = true :=
    List.any_eq_true.mpr ⟨x, hx, own⟩
  have before : carriers.any (s.lookup a.target).mentions = true := by
    rw [← State.lookup_congr own]
    exact List.any_eq_true.mpr ⟨z, hz, mentions_of_tracks tracked⟩
  have after : (s.assign a.target v source).lookup a.target = v.boundTo a.target [] source := by
    rw [State.lookup_assign, if_pos (Symbol.same_refl a.target)]
  refine ⟨a.target, ?_, (hv.isBinding bound a.target source).tracks_own (Symbol.same_refl _)⟩
  rw [carry, after, reads, before, Bool.eq_false_iff.mpr mentioned]
  exact List.mem_cons_self

/-- One assignment keeps two runs secure. -/
theorem State.Secure.assign {carriers : List Symbol} {s t : State} (secure : Secure carriers s t)
    (a : Assignment) (bound : ∀ x ∈ a.source.reads, (s.lookup x).IsBinding x) {v w : Value}
    (hv : a.source.Folded s ⟨v, s⟩) (hw : a.source.Folded t ⟨w, t⟩) (source : Option Expr) :
    Secure (a.carry s (s.assign a.target v source) carriers) (s.assign a.target v source)
      (t.assign a.target w source) := by
  intro x
  by_cases assigned : a.target.same x = true
  · rw [lookup_assign, lookup_assign, if_pos assigned, if_pos assigned, core_boundTo, core_boundTo]
    by_cases agree : ∀ b ∈ a.source.reads, (s.lookup b).core = (t.lookup b).core
    · have same := Expr.fold_congr a.computes agree
      rw [hv.core, hw.core] at same
      exact Or.inl (Except.ok.inj same)
    · obtain ⟨b, hb, differs⟩ :
          ∃ b ∈ a.source.reads, (s.lookup b).core ≠ (t.lookup b).core := by simpa using agree
      obtain ⟨z, hz, tracked⟩ := (secure b).resolve_left differs
      exact Or.inr (a.exists_tracks hv bound hb hz tracked source)
  · rw [lookup_assign, lookup_assign, if_neg assigned, if_neg assigned]
    rcases secure x with agree | ⟨z, hz, tracked⟩
    · exact Or.inl agree
    · exact Or.inr ⟨z, Assignment.mem_carry hz, tracked⟩

namespace Evaluator

variable {ev : Evaluator}

theorem eval_assignment (a : Assignment) (standard : ev.IsStandardFor a.expr) {s : State}
    (bound : ∀ x ∈ a.source.reads, (s.lookup x).IsBinding x) :
    Ensures True (fun o => ∃ v, a.source.Folded s ⟨v, s⟩ ∧
      o = ⟨.undetermined, s.assign a.target v (some a.source)⟩) (ev.eval a.expr s).result := by
  have reachable : ∀ x ∈ a.source.reads, (s.lookup x).isReachable = true :=
    fun x hx => (bound x hx).isReachable
  obtain ⟨-, standardBelow⟩ := Expr.forall_nodes.mp standard
  have evaluated := eval_operation a.computes
    (standardBelow a.source (List.mem_cons_of_mem a.left List.mem_cons_self)) reachable
  rw [Assignment.expr, eval]
  refine report_partial (evaluated.bind_traced fun o ho => ?_)
  obtain ⟨v, t⟩ := o
  obtain rfl : t = s := ho.state
  refine ⟨v, ho, ?_⟩
  simp only [assign, ho.isReachable reachable, if_true, a.names]

/-- A run of several assignments is one of the first and one of the others after it. -/
theorem evalBlock_cons {a : Assignment} {body : List Assignment}
    (standard : ev.IsStandardFor a.expr) {s : State}
    (bound : ∀ x ∈ a.source.reads, (s.lookup x).IsBinding x) {last : Value} {o : Outcome}
    (run : (ev.evalBlock ((a :: body).map Assignment.expr) ⟨last, s⟩).result = .ok o) :
    ∃ v, a.source.Folded s ⟨v, s⟩ ∧
      (ev.eval a.expr s).result =
        .ok ⟨.undetermined, s.assign a.target v (some a.source)⟩ ∧
      (ev.evalBlock (body.map Assignment.expr)
        ⟨.undetermined, s.assign a.target v (some a.source)⟩).result = .ok o := by
  have first := eval_assignment a standard bound
  rw [List.map_cons, evalBlock] at run
  cases hp : (ev.eval a.expr s).result with
  | error f =>
    rw [Traced.bind_of_error hp] at run
    cases run
  | ok p =>
    rw [hp] at first
    obtain ⟨v, hv, rfl⟩ := first
    rw [Traced.bind_of_ok hp] at run
    exact ⟨v, hv, rfl, run⟩

/-- Runs of the same assignments from secure states end in secure states. -/
theorem secure_evalBlock {body : List Assignment} {R : List Symbol}
    (standard : ∀ a ∈ body, ev.IsStandardFor a.expr)
    (reads : ∀ a ∈ body, ∀ x ∈ a.source.reads, x ∈ R) {s t : State}
    (boundS : ∀ x ∈ R, (s.lookup x).IsBinding x) (boundT : ∀ x ∈ R, (t.lookup x).IsBinding x)
    {carriers : List Symbol} (secure : State.Secure carriers s t) {u w : Value} {o p : Outcome}
    (runS : (ev.evalBlock (body.map Assignment.expr) ⟨u, s⟩).result = .ok o)
    (runT : (ev.evalBlock (body.map Assignment.expr) ⟨w, t⟩).result = .ok p) :
    State.Secure (ev.carriers body s carriers) o.state p.state := by
  -- Both runs go on after every assignment, so they stay in step; carriers are those of the first.
  induction body generalizing s t carriers u w with
  | nil =>
    cases runS
    cases runT
    exact secure
  | cons a body ih =>
    obtain ⟨standardA, standardBody⟩ := List.forall_mem_cons.mp standard
    obtain ⟨readsA, readsBody⟩ := List.forall_mem_cons.mp reads
    have boundA : ∀ x ∈ a.source.reads, (s.lookup x).IsBinding x :=
      fun x hx => boundS x (readsA x hx)
    have boundA' : ∀ x ∈ a.source.reads, (t.lookup x).IsBinding x :=
      fun x hx => boundT x (readsA x hx)
    obtain ⟨v, hv, evalS, restS⟩ := evalBlock_cons standardA boundA runS
    obtain ⟨v', hv', -, restT⟩ := evalBlock_cons standardA boundA' runT
    rw [Evaluator.carriers, evalS]
    refine ih standardBody readsBody ?_ ?_ ?_ restS restT
    · exact fun x hx => (boundS x hx).assign (hv.isBinding boundA a.target _)
    · exact fun x hx => (boundT x hx).assign (hv'.isBinding boundA' a.target _)
    · exact secure.assign a boundA hv hv' _

/-- A block of assignments has an outcome from every good state. -/
theorem exists_eval_block {body : List Assignment} {id : Nat}
    (standard : ev.IsStandardFor (.block id (body.map Assignment.expr))) {s : State}
    (hs : s.Good) : ∃ o, (ev.eval (.block id (body.map Assignment.expr)) s).result = .ok o := by
  have nodes : ∀ n ∈ (Expr.block id (body.map Assignment.expr)).nodes, n.isNode = true := by
    refine Expr.forall_nodes.mpr ⟨rfl, fun e he => ?_⟩
    obtain ⟨a, -, rfl⟩ := List.mem_map.mp he
    exact a.isNode_expr
  obtain ⟨o, ho, -⟩ :=
    eval_regular nodes (fun n hn language hl => Or.inr (standard n hn language hl)) hs
  exact ⟨o, ho⟩

/-- If what `x` is bound to at the end mentions neither `z` nor a carrier of `z`, its value does not
depend on the constant that `z` was bound to at the start. -/
theorem eval_noninterference {body : List Assignment} {id : Nat}
    (standard : ev.IsStandardFor (.block id (body.map Assignment.expr))) {z : Symbol}
    {s t : State} (held : ∀ a ∈ body, ∀ x ∈ a.source.reads, s.HoldsConstant x)
    (differ : State.DiffersAt z s t) :
    (s.Good → ∃ o, (ev.eval (.block id (body.map Assignment.expr)) s).result = .ok o) ∧
    (t.Good → ∃ p, (ev.eval (.block id (body.map Assignment.expr)) t).result = .ok p) ∧
    ∀ o p, (ev.eval (.block id (body.map Assignment.expr)) s).result = .ok o →
      (ev.eval (.block id (body.map Assignment.expr)) t).result = .ok p →
      ∀ x, (∀ y ∈ ev.carriers body s [z], (o.state.lookup x).mentions y = false) →
        (o.state.lookup x).core = (p.state.lookup x).core := by
  refine ⟨exists_eval_block standard, exists_eval_block standard, ?_⟩
  intro o p ho hp x unmentioned
  have reads : ∀ a ∈ body, ∀ y ∈ a.source.reads, y ∈ body.flatMap (·.source.reads) :=
    fun a ha y hy => List.mem_flatMap.mpr ⟨a, ha, hy⟩
  have holds : ∀ y ∈ body.flatMap (·.source.reads), s.HoldsConstant y := by
    intro y hy
    obtain ⟨a, ha, hy⟩ := List.mem_flatMap.mp hy
    exact held a ha y hy
  have standardBody : ∀ a ∈ body, ev.IsStandardFor a.expr :=
    fun a ha => (Expr.forall_nodes.mp standard).2 _ (List.mem_map_of_mem ha)
  rw [eval] at ho hp
  have secure := secure_evalBlock standardBody reads (fun y hy => (holds y hy).isBinding)
    (fun y hy => (differ.holdsConstant (holds y hy)).isBinding) differ.secure
    (result_of_report ho) (result_of_report hp)
  refine (secure x).resolve_right ?_
  rintro ⟨y, hy, tracked⟩
  have mentioned := mentions_of_tracks tracked
  rw [unmentioned y hy] at mentioned
  cases mentioned

/-- Computes `x` from `z` and then from itself, and `y` from itself only. -/
def relay : List Assignment :=
  let x : Declaration := ⟨0, "x", .block⟩
  let y : Declaration := ⟨1, "y", .block⟩
  let z : Declaration := ⟨2, "z", .block⟩
  [.addition 1 x z 1, .addition 6 x x 1, .addition 11 y y 2]

def relayStart (n : Int) : State :=
  ((State.empty.assign (.decl ⟨0, "x", .block⟩) (.int 0) none).assign
    (.decl ⟨1, "y", .block⟩) (.int 0) none).assign (.decl ⟨2, "z", .block⟩) (.int n) none

theorem isStandardFor_relay :
    IsStandardFor ⟨.standard, .standard⟩ (.block 0 (relay.map Assignment.expr)) :=
  isStandardFor_standard (by decide)

theorem holdsConstant_relay (n : Int) :
    ∀ a ∈ relay, ∀ w ∈ a.source.reads, (relayStart n).HoldsConstant w := by
  have reads : ∀ a ∈ relay, ∀ w ∈ a.source.reads,
      w = .decl ⟨0, "x", .block⟩ ∨ w = .decl ⟨1, "y", .block⟩ ∨ w = .decl ⟨2, "z", .block⟩ := by
    decide
  intro a ha w hw
  rcases reads a ha w hw with rfl | rfl | rfl
  · exact ((State.holdsConstant_assign _ _ _ _).assign _ _ _).assign _ _ _
  · exact (State.holdsConstant_assign _ _ _ _).assign _ _ _
  · exact State.holdsConstant_assign _ _ _ _

/-- With `x` a carrier of `z`, the value of `y` depends on neither. -/
theorem eval_noninterference_relay :
    let x : Symbol := .decl ⟨0, "x", .block⟩
    let y : Symbol := .decl ⟨1, "y", .block⟩
    let z : Symbol := .decl ⟨2, "z", .block⟩
    let ev : Evaluator := ⟨.standard, .standard⟩
    ev.carriers relay (relayStart 1) [z] = [x, z] ∧
      ∃ o p, (ev.eval (.block 0 (relay.map Assignment.expr)) (relayStart 1)).result = .ok o ∧
        (ev.eval (.block 0 (relay.map Assignment.expr)) (relayStart 2)).result = .ok p ∧
        (o.state.lookup y).core = (p.state.lookup y).core := by
  have laws := eval_noninterference isStandardFor_relay (holdsConstant_relay 1)
    (State.DiffersAt.assign _ (.decl ⟨2, "z", .block⟩) (.int 1 8) (.int 2 8) none)
  refine ⟨rfl, _, _, rfl, rfl, laws.2.2 _ _ rfl rfl _ ?_⟩
  decide

/-- The value of `x` depends on `z`, and `x` does not mention `z`. -/
theorem relay_unmentioned :
    let x : Symbol := .decl ⟨0, "x", .block⟩
    let z : Symbol := .decl ⟨2, "z", .block⟩
    let ev : Evaluator := ⟨.standard, .standard⟩
    ev.IsStandardFor (.block 0 (relay.map Assignment.expr)) ∧
      (∀ a ∈ relay, ∀ w ∈ a.source.reads, (relayStart 1).HoldsConstant w) ∧
      State.DiffersAt z (relayStart 1) (relayStart 2) ∧
      ∃ o p, (ev.eval (.block 0 (relay.map Assignment.expr)) (relayStart 1)).result = .ok o ∧
        (ev.eval (.block 0 (relay.map Assignment.expr)) (relayStart 2)).result = .ok p ∧
        (o.state.lookup x).mentions z = false ∧
        (o.state.lookup x).core ≠ (p.state.lookup x).core := by
  have differ : Value.int 3 ≠ .int 4 := by simp [Value.int]
  exact ⟨isStandardFor_relay, holdsConstant_relay 1, .assign _ _ _ _ _, _, _, rfl, rfl, rfl, differ⟩

end Evaluator

end ValueFlow
