import ValueFlow.Expr.Basic

/-!
# The nodes of a tree

All nodes of an expression, itself included and whether they are evaluated or not, and induction on
trees by their children.

* `forall_nodes`: what holds at all nodes holds at the root and at all nodes of each child.
* `Expr.induction`: induction with the hypothesis at hand for every child.
-/

namespace ValueFlow.Expr

/-- The expressions a node is made of, in the order in which they are written. -/
def children : Expr → List Expr
  | .ret _ value => value.toList
  | .raise _ value => value.toList
  | .qualified _ receiver selector _ _ => [receiver, selector]
  | .call _ _ args => args
  | .binary _ left _ right _ => [left, right]
  | .prefixed _ _ operand _ => [operand]
  | .postfixed _ operand _ _ => [operand]
  | .cond _ condition thenBranch elseBranch _ =>
    condition :: (thenBranch.toList ++ elseBranch.toList)
  | .block _ body => body
  | .declare _ _ init => init.toList
  | .paren _ inner => [inner]
  | _ => []

/-- The language of a node whose meaning can depend on it, if it names one. -/
def language? : Expr → Option (Option String)
  | .qualified _ _ _ _ language => some language
  | .binary _ _ _ _ language => some language
  | .prefixed _ _ _ language => some language
  | .postfixed _ _ _ language => some language
  | _ => none

mutual

def nodes : Expr → List Expr
  | e@(.ret _ value) => e :: nodesOption value
  | e@(.raise _ value) => e :: nodesOption value
  | e@(.qualified _ receiver selector _ _) => e :: (receiver.nodes ++ selector.nodes)
  | e@(.call _ _ args) => e :: nodesAll args
  | e@(.binary _ left _ right _) => e :: (left.nodes ++ right.nodes)
  | e@(.prefixed _ _ operand _) => e :: operand.nodes
  | e@(.postfixed _ operand _ _) => e :: operand.nodes
  | e@(.cond _ condition thenBranch elseBranch _) =>
    e :: (condition.nodes ++ (nodesOption thenBranch ++ nodesOption elseBranch))
  | e@(.block _ body) => e :: nodesAll body
  | e@(.declare _ _ init) => e :: nodesOption init
  | e@(.paren _ inner) => e :: inner.nodes
  | e => [e]

def nodesOption : Option Expr → List Expr
  | none => []
  | some e => e.nodes

def nodesAll : List Expr → List Expr
  | [] => []
  | e :: es => e.nodes ++ nodesAll es

end

theorem nodesOption_eq (e : Option Expr) : nodesOption e = e.toList.flatMap nodes := by
  cases e with
  | none => rfl
  | some e => simp [nodesOption]

theorem nodesAll_eq (es : List Expr) : nodesAll es = es.flatMap nodes := by
  induction es with
  | nil => rfl
  | cons e es ih => rw [nodesAll, ih, List.flatMap_cons]

theorem nodes_eq (e : Expr) : e.nodes = e :: e.children.flatMap nodes := by
  cases e <;> simp [nodes, children, nodesOption_eq, nodesAll_eq]

theorem forall_nodes {P : Expr → Prop} {e : Expr} :
    (∀ n ∈ e.nodes, P n) ↔ P e ∧ ∀ c ∈ e.children, ∀ n ∈ c.nodes, P n := by
  rw [nodes_eq, List.forall_mem_cons]
  refine and_congr_right fun _ => ⟨fun h c hc n hn => ?_, fun h n hn => ?_⟩
  · exact h n (List.mem_flatMap.mpr ⟨c, hc, hn⟩)
  · obtain ⟨c, hc, hn⟩ := List.mem_flatMap.mp hn
    exact h c hc n hn

theorem sizeOf_lt_of_mem_toList {o : Option Expr} {c : Expr} (hc : c ∈ o.toList) :
    sizeOf c < sizeOf o := by
  cases o with
  | none => cases hc
  | some e =>
    cases List.mem_singleton.mp hc
    rw [Option.some.sizeOf_spec]
    omega

theorem sizeOf_lt_of_mem_children {e c : Expr} (hc : c ∈ e.children) : sizeOf c < sizeOf e := by
  cases e with
  | ret | raise | declare =>
    have := sizeOf_lt_of_mem_toList hc
    simp only [ret.sizeOf_spec, raise.sizeOf_spec, declare.sizeOf_spec]
    omega
  | call _ _ es | block _ es =>
    have hc : c ∈ es := hc
    have := List.sizeOf_lt_of_mem hc
    simp only [call.sizeOf_spec, block.sizeOf_spec]
    omega
  | cond _ condition thenBranch elseBranch _ =>
    rw [cond.sizeOf_spec]
    rcases List.mem_cons.mp hc with rfl | hc
    · omega
    · rcases List.mem_append.mp hc with hc | hc
      · have := sizeOf_lt_of_mem_toList hc
        omega
      · have := sizeOf_lt_of_mem_toList hc
        omega
  | qualified | binary =>
    simp only [qualified.sizeOf_spec, binary.sizeOf_spec]
    simp only [children, List.mem_cons, List.not_mem_nil, or_false] at hc
    rcases hc with rfl | rfl <;> omega
  | prefixed | postfixed | paren =>
    cases List.mem_singleton.mp hc
    simp only [prefixed.sizeOf_spec, postfixed.sizeOf_spec, paren.sizeOf_spec]
    omega
  | _ => cases hc

@[elab_as_elim]
theorem induction {motive : Expr → Prop}
    (node : ∀ e : Expr, (∀ c ∈ e.children, motive c) → motive e) (e : Expr) : motive e :=
  node e fun c _ => induction node c
termination_by e
decreasing_by exact sizeOf_lt_of_mem_children ‹_›

end ValueFlow.Expr
