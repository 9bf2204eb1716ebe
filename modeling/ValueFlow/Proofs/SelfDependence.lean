import ValueFlow.Proofs.ReachableStates

/-!
# Bindings that depend on themselves

What is bound to `x` does not depend on `x`, although `x = x + 1` computes it from there: binding
takes the variables of `x` out of the dependencies and out of those of the value it binds. It does
not look into a phi. So the one way for a binding to depend on its own symbol is that a phi is
assigned to `x` which depends on `x`, as both branches of a conditional do that read it. No merge
brings such a binding about, and no other assignment.

* `Value.SelfFree`: no variable of a symbol, at any depth, depends on that symbol.
* `SelfFree.boundTo`, `SelfFree.shape`: what keeps values so.
* `Invariant.apart`: evaluation does, where it does not assign such a phi.
* `Evaluator.eval_binds_apart`: what the bindings of a state after evaluation depend on.
-/

namespace ValueFlow

namespace Value

/-- A variable of `x` is among what the value was computed from. -/
def dependsOn (x : Symbol) (v : Value) : Bool := v.deps.any fun d => d.isVarOf x

theorem dependsOn_eq_false_iff {x : Symbol} {v : Value} :
    v.dependsOn x = false ↔ ∀ d ∈ v.deps, d.isVarOf x = false := by
  simp [dependsOn]

/-- Binding the value to `y` does not make `x` depend on itself: it takes the dependencies on `x`
out of all values but phis. -/
def bindsApart (x y : Symbol) (v : Value) : Bool := !(y.same x && v.isPhi && v.dependsOn x)

theorem bindsApart_of_own {x y : Symbol} {v : Value}
    (own : y.same x = true → v.dependsOn x = false) : bindsApart x y v = true := by
  cases hyx : y.same x with
  | true => simp [bindsApart, own hyx]
  | false => simp [bindsApart, hyx]

/-- No variable of `x` wraps a value that depends on `x`, at any depth. -/
inductive SelfFree (x : Symbol) : Value → Prop
  | const (c : Constant) : SelfFree x (.const c)
  | dependent {v : Value} {D : List Value} (hv : SelfFree x v) (hD : ∀ d ∈ D, SelfFree x d) :
      SelfFree x (.dependent v D)
  | var {y : Symbol} {v : Value} {D : List Value} {s : Option Expr}
      (own : y.same x = true → v.dependsOn x = false) (hv : SelfFree x v)
      (hD : ∀ d ∈ D, SelfFree x d) : SelfFree x (.var y v D s)
  | external (r : Reference) : SelfFree x (.external r)
  | phi {M : List Value} (hM : ∀ m ∈ M, SelfFree x m) : SelfFree x (.phi M)
  | undetermined : SelfFree x .undetermined

namespace SelfFree

variable {x : Symbol} {v : Value} {D : List Value}

theorem of_isPlain (plain : v.isPlain = true) : v.SelfFree x := by
  cases v with
  | const c => exact .const c
  | undetermined => exact .undetermined
  | _ => cases plain

theorem dependingOn (plain : v.isPlain = true) (hD : ∀ d ∈ D, d.SelfFree x) :
    (v.dependingOn D).SelfFree x := by
  rcases dependingOn_of_isPlain plain D with equal | ⟨-, equal⟩
  · rw [equal]
    exact of_isPlain plain
  · rw [equal]
    exact .dependent (of_isPlain plain) fun d hd => hD d (mem_distinct hd)

/-- A plain value depends on a symbol only if it is given a variable of it. -/
theorem dependsOn_dependingOn (plain : v.isPlain = true)
    (free : ∀ d ∈ D, d.isVarOf x = false) : (v.dependingOn D).dependsOn x = false := by
  apply dependsOn_eq_false_iff.mpr
  rcases dependingOn_of_isPlain plain D with equal | ⟨-, equal⟩
  · rw [equal]
    cases v with
    | const c => exact List.forall_mem_nil _
    | undetermined => exact List.forall_mem_nil _
    | _ => cases plain
  · rw [equal]
    intro d hd
    exact free d (mem_distinct hd)

theorem boundTo (hv : v.WellShaped) (free : v.SelfFree x) (hD : ∀ d ∈ D, d.SelfFree x)
    {y : Symbol} (apart : bindsApart x y v = true) (source : Option Expr) :
    (v.boundTo y D source).SelfFree x := by
  -- The layers of variables are bound anew from the inside, each to its own symbol.
  induction hv generalizing y D source with
  | const range => exact .var (fun _ => rfl) free (forall_mem_without hD y)
  | external => exact .var (fun _ => rfl) free (forall_mem_without hD y)
  | undetermined => exact .var (fun _ => rfl) free (forall_mem_without hD y)
  | phi plural flat hM =>
    refine .var (fun own => ?_) free (forall_mem_without hD y)
    simpa [bindsApart, own, isPhi] using apart
  | @dependent w E plain nonempty hw hE =>
    cases free with
    | dependent hw hE =>
      refine .var (fun own => ?_) (dependingOn plain (forall_mem_without hE y))
        (forall_mem_without hD y)
      apply dependsOn_dependingOn plain
      intro d hd
      rw [← isVarOf_symbol own]
      exact (mem_without hd).2
  | @var z w E s other freeE inner hw hE ihw =>
    have whole := free
    cases free with
    | var own hw hE =>
      cases hzy : z.same y with
      | true =>
        rw [Value.boundTo]
        simp only [hzy, if_true]
        split
        · exact whole
        · refine .var (fun hyx => own (Symbol.same_trans hzy hyx)) hw ?_
          exact forall_mem_union (forall_mem_without hD y) (forall_mem_without hE y)
      | false =>
        rw [boundTo_other hzy]
        refine .var (fun hyx => ?_) ?_ (forall_mem_without hD y)
        · apply dependsOn_eq_false_iff.mpr
          intro d hd
          rw [deps_boundTo other] at hd
          rw [← isVarOf_symbol hyx]
          exact (mem_without (mem_without hd).1).2
        · exact ihw hw (forall_mem_without hE y) (bindsApart_of_own own) s

theorem shape (x : Symbol) : Shape fun v => v.WellShaped ∧ v.SelfFree x where
  ofDependent h := by
    obtain ⟨shaped, free⟩ := h
    cases free with
    | dependent _ hD => exact fun d hd => ⟨WellShaped.shape.ofDependent shaped d hd, hD d hd⟩
  ofVar h := by
    obtain ⟨shaped, free⟩ := h
    have parts := WellShaped.shape.ofVar shaped
    cases free with
    | var _ hv hD => exact ⟨⟨parts.1, hv⟩, fun d hd => ⟨parts.2 d hd, hD d hd⟩⟩
  ofPhi h := by
    obtain ⟨shaped, free⟩ := h
    have parts := WellShaped.shape.ofPhi shaped
    cases free with
    | phi hM => exact ⟨parts.1, fun m hm => ⟨(parts.2 m hm).1, (parts.2 m hm).2, hM m hm⟩⟩
  dependingOn h hE := by
    obtain ⟨shaped, free⟩ := h
    refine ⟨WellShaped.shape.dependingOn shaped fun e he => (hE e he).1, ?_⟩
    cases shaped with
    | dependent plain => exact dependingOn plain fun e he => (hE e he).2
  boundTo h hE source := by
    obtain ⟨shaped, free⟩ := h
    refine ⟨WellShaped.shape.boundTo shaped (fun e he => (hE e he).1) source, ?_⟩
    cases free with
    | var own hfree _ =>
      exact boundTo (WellShaped.shape.ofVar shaped).1 hfree (fun e he => (hE e he).2)
        (bindsApart_of_own own) source
  phi plural hM := by
    refine ⟨WellShaped.shape.phi plural fun m hm => ⟨(hM m hm).1, (hM m hm).2.1⟩, ?_⟩
    exact .phi fun m hm => (hM m hm).2.2

end SelfFree

/-- The value of a path, in which no variable of `x` depends on `x`. -/
def Apart (x : Symbol) (v : Value) : Prop := v = .nothing ∨ v.WellShaped ∧ v.SelfFree x

namespace Apart

variable {x : Symbol} {v w : Value}

theorem regular (hv : v.Apart x) : v.Regular := hv.imp_right And.left

theorem provenance (hv : v.Apart x) : ∀ d ∈ v.provenance, d.WellShaped ∧ d.SelfFree x := by
  rcases hv with rfl | hv
  · exact List.forall_mem_nil _
  · exact (SelfFree.shape x).provenance hv

/-- What an operator gives is not a phi. -/
theorem gives {c : Value} (plain : c.isPlain = true) (range : c.InRange) {D : List Value}
    (hD : ∀ d ∈ D, d.WellShaped ∧ d.SelfFree x) :
    Invariant.Gives (bindsApart x) (Apart x) (c.dependingOn D) := by
  have shaped : (c.dependingOn D).WellShaped :=
    (WellShaped.of_isPlain plain range).dependingOn plain fun d hd => (hD d hd).1
  have free : (c.dependingOn D).SelfFree x := .dependingOn plain fun d hd => (hD d hd).2
  have single : (c.dependingOn D).isPhi = false := by
    rcases dependingOn_of_isPlain plain D with equal | ⟨-, equal⟩
    · rw [equal]
      cases c with
      | phi M => cases plain
      | _ => rfl
    · rw [equal]
      rfl
  exact ⟨Or.inr ⟨shaped, free⟩, shaped.isReachable, fun y => by simp [bindsApart, single]⟩

theorem lift1 (hv : v.Apart x) (op : PrefixOp) :
    Ensures False (Invariant.Gives (bindsApart x) (Apart x)) (lift1 op.core v) := by
  rw [lift1_eq]
  refine (op.core_ensures v.core).map fun c hc => ?_
  exact gives hc.plain (hc.inRange hv.regular.core_inRange) hv.provenance

theorem lift2 (hv : v.Apart x) (hw : w.Apart x) {op : BinaryOp} {f : BinaryCore}
    (hf : op.core? = some f) :
    Ensures False (Invariant.Gives (bindsApart x) (Apart x)) (lift2 f v w) := by
  have total := (BinaryOp.core_ensures hf v.core w.core).weaken
    fun outside => outside ⟨hv.regular.core_inRange, hw.regular.core_inRange⟩
  rw [lift2_eq]
  refine total.map fun c hc => ?_
  exact gives hc.plain hc.inRange (forall_mem_union hv.provenance hw.provenance)

theorem merge (hv : v.Apart x) (hw : w.Apart x) : Ensures False (Apart x) (v.merge w) := by
  rcases hv with rfl | hv
  · rw [nothing_merge]
    exact hw
  · rcases hw with rfl | hw
    · rw [merge_nothing]
      exact Or.inr hv
    · exact ((SelfFree.shape x).merge hv hw).imp fun _ => Or.inr

end Apart

end Value

open Value

namespace State

/-- A good state in whose bindings no variable of `x` depends on `x`. -/
structure Apart (x : Symbol) (s : State) : Prop where
  good : s.Good
  free : ∀ y v, s.get? y = some v → v.SelfFree x

theorem apart_empty (x : Symbol) : empty.Apart x := ⟨good_empty, nofun⟩

namespace Apart

variable {x : Symbol} {s t : State}

theorem lookup (hs : s.Apart x) (y : Symbol) :
    (s.lookup y).WellShaped ∧ (s.lookup y).SelfFree x := by
  refine ⟨hs.good.lookup_wellShaped y, ?_⟩
  rw [State.lookup]
  cases h : s.get? y with
  | none => exact .undetermined
  | some v => exact hs.free y v h

theorem assign (hs : s.Apart x) {v : Value} (hv : v.Apart x) (reachable : v.isReachable = true)
    {y : Symbol} (apart : bindsApart x y v = true) (source : Option Expr) :
    (s.assign y v source).Apart x := by
  rcases hv with rfl | ⟨shaped, free⟩
  · cases reachable
  refine ⟨hs.good.assign y shaped source, fun z w hw => ?_⟩
  rw [State.assign, get?_set] at hw
  split at hw
  · cases hw
    exact free.boundTo shaped (List.forall_mem_nil _) apart source
  · exact hs.free z w hw

theorem merge (hs : s.Apart x) (ht : t.Apart x) : Ensures False (Apart x) (s.merge t) := by
  obtain ⟨r, hr, good⟩ := (hs.good.merge ht.good).exists_ok
  rw [hr]
  refine ⟨good, fun y v hv => ?_⟩
  have merged := (SelfFree.shape x).merge (hs.lookup y) (ht.lookup y)
  rw [merge_lookup hr y, lookup_of_get? hv] at merged
  exact merged.2

end Apart

end State

/-- Evaluation keeps variables of `x` from depending on `x`, where it assigns no phi to `x` that
does. -/
theorem Invariant.apart (x : Symbol) :
    Invariant False (bindsApart x) (Value.Apart x) (State.Apart x) where
  nothing := Or.inl rfl
  undetermined := Or.inr ⟨.undetermined, .undetermined⟩
  external r := Or.inr ⟨.external, .external r⟩
  entry c := Or.inr ⟨.const trivial, .const (.entry c)⟩
  typeLiteral name := Or.inr ⟨.const trivial, .const (.typeLiteral name)⟩
  lookup hs y := Or.inr (hs.lookup y)
  assign hs hv reachable _ source apart := hs.assign hv reachable apart source
  unary hv op := hv.lift1 op
  binary hv hw _ _ hf := hv.lift2 hw hf
  mergeValues hv hw := hv.merge hw
  mergeStates hs ht := hs.merge ht
  text hv := by
    obtain ⟨t, ht⟩ := hv.regular.text
    rw [ht]
    trivial

section

variable {s : State} {x y : Symbol} {v : Value} {D : List Value} {source : Option Expr}

theorem Value.WellShaped.free_of_not_isPhi (h : (Value.var y v D source).WellShaped)
    (single : v.isPhi = false) : v.dependsOn y = false := by
  apply dependsOn_eq_false_iff.mpr
  cases h with
  | var other free inner hv hD =>
    cases v with
    | dependent w E => exact inner rfl
    | var z w E s => exact inner rfl
    | phi M => cases single
    | _ => exact List.forall_mem_nil _

/-- The variables that a symbol is bound to are its own, and in shape. -/
theorem State.Good.binding (hs : s.Good)
    (bound : s.get? x = some (.var y v D source) ∨
      ∃ M, s.get? x = some (.phi M) ∧ .var y v D source ∈ M) :
    y.same x = true ∧ (Value.var y v D source).WellShaped := by
  rcases bound with bound | ⟨M, bound, member⟩
  · obtain ⟨binds, shaped⟩ := hs x _ bound
    exact ⟨Binds.var (Or.inr binds), shaped⟩
  · obtain ⟨binds, shaped⟩ := hs x _ bound
    refine ⟨?_, ((WellShaped.shape.ofPhi shaped).2 _ member).2⟩
    rcases binds with binds | ⟨N, same, members⟩
    · cases binds
    · cases same
      exact (members _ member).resolve_right nofun

theorem State.Apart.binding (hs : s.Apart x)
    (bound : s.get? x = some (.var y v D source) ∨
      ∃ M, s.get? x = some (.phi M) ∧ .var y v D source ∈ M) : v.dependsOn x = false := by
  have free : (Value.var y v D source).SelfFree x := by
    rcases bound with bound | ⟨M, bound, member⟩
    · exact hs.free x _ bound
    · cases hs.free x _ bound with
      | phi hM => exact hM _ member
  cases free with
  | var own hv hD => exact own (hs.good.binding bound).1

end

namespace Evaluator

/-- What a symbol is bound to after an evaluation does not depend on the symbol, and neither does
what it wraps, unless that is a phi and the evaluation assigned one to the symbol that did. -/
theorem eval_binds_apart {ev : Evaluator} {e : Expr} (nodes : ∀ n ∈ e.nodes, n.isNode = true)
    (tame : ∀ n ∈ e.nodes, ∀ language, n.language? = some language →
      (ev.dialect language).IsTame) :
    ∃ o, (ev.eval e .empty).result = .ok o ∧
      ∀ (x y : Symbol) (v : Value) (D : List Value) (source : Option Expr),
        (o.state.get? x = some (.var y v D source) ∨
          ∃ M, o.state.get? x = some (.phi M) ∧ .var y v D source ∈ M) →
        y.same x = true ∧ (∀ d ∈ D, d.isVarOf x = false) ∧
          ((v.isPhi = true → ev.bindsOnly (bindsApart x) e .empty = true) →
            ∀ d ∈ v.deps, d.isVarOf x = false) := by
  obtain ⟨o, ho, good, -⟩ := eval_regular nodes tame State.good_empty
  refine ⟨o, ho, fun x y v D source bound => ?_⟩
  obtain ⟨own, shaped⟩ := good.binding bound
  refine ⟨own, ?_, fun allowed => dependsOn_eq_false_iff.mp ?_⟩
  · intro d hd
    cases shaped with
    | var other free inner hv hD => rw [← isVarOf_symbol own, free d hd]
  · cases single : v.isPhi with
    | false =>
      have free := dependsOn_eq_false_iff.mp (shaped.free_of_not_isPhi single)
      apply dependsOn_eq_false_iff.mpr
      intro d hd
      rw [← isVarOf_symbol own, free d hd]
    | true =>
      have admitted : ∀ n ∈ e.nodes, ev.Admits (Value.Apart x) n := by
        intro n hn
        refine ⟨nodes n hn, ?_, tame n hn⟩
        rintro id value isChar rfl
        exact Or.inr ⟨value.eval_wellShaped isChar, .of_isPlain (value.eval_gives isChar).1⟩
      have kept := (Invariant.apart x).eval admitted (State.apart_empty x) (allowed single)
      rw [ho] at kept
      exact kept.2.binding bound

/-- Assigns 1 to `x`, and then a join of two sums with `x` to `target`. -/
def joinOfSums (target : Symbol) : Expr :=
  let x : Symbol := .decl ⟨0, "x", .block⟩
  let sum (id : Nat) (n : Int) : Expr :=
    .binary id (.reference (id + 1) "x" (some x)) .plus (.literal (id + 2) (.int n) false) none
  .block 0 [.binary 1 (.reference 2 "x" (some x)) .assign (.literal 3 (.int 1) false) none,
    .binary 4 (.reference 5 "t" (some target)) .assign
      (.cond 6 (.reference 7 "p" none) (some (sum 8 1)) (some (sum 11 2)) false) none]

/-- The join depends on `x`, but is assigned to `y`. -/
theorem eval_binds_apart_joinOfSums :
    let x : Symbol := .decl ⟨0, "x", .block⟩
    let y : Symbol := .decl ⟨1, "y", .block⟩
    ∃ o v D source, (eval ⟨.standard, .standard⟩ (joinOfSums y) .empty).result = .ok o ∧
      o.state.get? y = some (.var y v D source) ∧ v.isPhi = true ∧ v.dependsOn x = true ∧
        ∀ d ∈ v.deps, d.isVarOf y = false := by
  have tame : ∀ language, (dialect ⟨.standard, .standard⟩ language).IsTame :=
    dialect_isTame isTame_standard
  obtain ⟨o, ho, bound⟩ := @eval_binds_apart ⟨.standard, .standard⟩
    (joinOfSums (.decl ⟨1, "y", .block⟩)) (by decide) fun _ _ language _ => tame language
  cases ho
  exact ⟨_, _, _, _, rfl, rfl, rfl, rfl,
    (bound (.decl ⟨1, "y", .block⟩) (.decl ⟨1, "y", .block⟩) _ _ _ (Or.inl rfl)).2.2 fun _ => rfl⟩

/-- Assigned to `x`, it makes the binding of `x` depend on `x`. -/
theorem joinOfSums_depends_on_itself :
    let x : Symbol := .decl ⟨0, "x", .block⟩
    (∀ n ∈ (joinOfSums x).nodes, n.isNode = true) ∧
      IsStandardFor ⟨.standard, .standard⟩ (joinOfSums x) ∧
      ∃ o v D source, (eval ⟨.standard, .standard⟩ (joinOfSums x) .empty).result = .ok o ∧
        o.state.get? x = some (.var x v D source) ∧ ∃ d ∈ v.deps, d.isVarOf x = true := by
  refine ⟨by decide, isStandardFor_standard (by decide), _, _, _, _, rfl, rfl, ?_⟩
  exact ⟨_, List.mem_cons_self, rfl⟩

end Evaluator

end ValueFlow
