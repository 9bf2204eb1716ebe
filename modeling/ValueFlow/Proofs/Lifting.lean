import ValueFlow.Proofs.StandardOperators

/-!
# Lifting keeps to cores and provenance

Operators are defined on values without provenance. What a lifted operator gives has the core that
was computed from the cores of its operands, and exactly the dependencies that the operands hand on,
however the operands were built: a result is at most one layer over its core.

* `Value.Carries`: a core under exactly the given dependencies.
* `concur_dependingOn`: lifting what was computed, whether or not there is a result.
* `run_carries_cores`: the operators of the table.
-/

namespace ValueFlow

open Value

/-- The value `r` is the core `c`, bare or in one layer that is no variable, with the dependencies
`D`. -/
structure Value.Carries (r c : Value) (D : List Value) : Prop where
  core : r.core = c
  notVar : r.isVar = false
  notNested : ∀ v E, r = .dependent v E → v.isDependent = false
  deps : sameSet r.deps D = true

theorem Value.sameSet_distinct (D : List Value) : sameSet (distinct D) D = true := by
  rw [sameSet_iff]
  exact hasSame_distinct D

namespace Value.Carries

variable {c : Value} {D : List Value}

theorem bare (plain : c.isPlain = true) : c.Carries c [] := by
  cases c with
  | const c => exact ⟨rfl, rfl, nofun, rfl⟩
  | undetermined => exact ⟨rfl, rfl, nofun, rfl⟩
  | _ => cases plain

theorem layer (plain : c.isPlain = true) (D : List Value) :
    (Value.dependent c (distinct D)).Carries c D := by
  have bare := isDependent_of_isAtom (isAtom_of_isPlain plain)
  refine ⟨core_of_not_isDependent bare, rfl, ?_, sameSet_distinct D⟩
  rintro v E ⟨⟩
  exact bare

theorem dependingOn (plain : c.isPlain = true) (D : List Value) :
    (c.dependingOn D).Carries c D := by
  by_cases hD : D = []
  · subst hD
    exact bare plain
  · rw [dependingOn_of_isAtom (isAtom_of_isPlain plain) hD]
    exact layer plain D

end Value.Carries

theorem concur_dependingOn {mayFail : Prop} {computed : Except Fault Value}
    (plain : Ensures mayFail (fun c => c.isPlain = true) computed) (D : List Value) :
    Concur (fun r c => r.Carries c D) (computed.map (·.dependingOn D)) computed := by
  cases computed with
  | ok c => exact Carries.dependingOn plain D
  | error e => rfl

/-- An operator of the table fails as its core does on the cores of the operands, and otherwise
gives what the core computes under the dependencies that the operands hand on. -/
theorem run_carries_cores : ∀ o ∈ OperatorTable.standard.entries,
    (∃ op : PrefixOp, o.ns = "unary" ∧ o.name = op.symbol ∧ ∀ a : Value,
      Concur (fun r c => r.Carries c a.provenance) (o.run [a]) (op.core a.core)) ∨
    (∃ (op : BinaryOp) (f : BinaryCore), o.ns = "binary" ∧ o.name = op.symbol ∧
      op.core? = some f ∧ ∀ a b : Value,
        Concur (fun r c => r.Carries c (union a.provenance b.provenance)) (o.run [a, b])
          (f a.core b.core)) := by
  refine OperatorTable.forall_mem_standard ?unary ?binary
  case unary =>
    intro op
    refine Or.inl ⟨op, rfl, rfl, fun a => ?_⟩
    have plain := (op.core_ensures a.core).imp fun _ result => result.plain
    change Concur _ (lift1 op.core a) _
    rw [lift1_eq]
    exact concur_dependingOn plain a.provenance
  case binary =>
    intro op f hf
    refine Or.inr ⟨op, f, rfl, rfl, hf, fun a b => ?_⟩
    have plain := (BinaryOp.core_ensures hf a.core b.core).imp fun _ result => result.plain
    change Concur _ (lift2 f a b) _
    rw [lift2_eq]
    exact concur_dependingOn plain (union a.provenance b.provenance)

/-- A variable hands on itself but not what lies under it, and an empty layer hands on nothing. -/
theorem run_carries_cores_nested :
    let input : Value := .external (.text "input")
    let x : Value := .var (.decl ⟨0, "x", .block⟩) (.dependent (.bool true) [input]) [] none
    let y : Value := .dependent (.dependent (.bool false) [input]) []
    ∃ r, (Operator.binary "&&" (lift2 Logic.andCore)).run [x, y] = .ok r ∧
      r.Carries (.bool false) [x] := by
  intro input x y
  have mem : Operator.binary "&&" (lift2 Logic.andCore) ∈ OperatorTable.standard.entries := by
    simp [OperatorTable.standard, Logic.operators]
  rcases run_carries_cores _ mem with ⟨op, unary, -⟩ | ⟨op, f, -, symbol, hf, carries⟩
  · exact absurd unary (by decide)
  · have and : op = .and := BinaryOp.symbol_injective symbol.symm
    subst and
    cases hf
    exact ⟨_, rfl, carries x y⟩

end ValueFlow
