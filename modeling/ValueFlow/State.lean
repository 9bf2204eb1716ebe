import ValueFlow.Value.Merge
import ValueFlow.Value.Text

/-!
# States

The bindings of symbols to values on one path, in the order of their ranks. A symbol that is not
bound reads as `undetermined`.
-/

namespace ValueFlow

namespace Bindings

/-- The value of the first binding of `x`. -/
def get? (x : Symbol) : List (Symbol × Value) → Option Value
  | [] => none
  | (y, v) :: rest => if y.same x then some v else get? x rest

/-- Puts a binding in its place. A symbol that is bound already keeps its key. -/
def insert (x : Symbol) (v : Value) :
    List (Symbol × Value) → List (Symbol × Value)
  | [] => [(x, v)]
  | (y, w) :: rest =>
    if x.rank < y.rank then (x, v) :: (y, w) :: rest
    else if y.rank < x.rank then (y, w) :: insert x v rest
    else (y, v) :: rest

theorem get?_insert (x y : Symbol) (v : Value) (bs : List (Symbol × Value)) :
    get? y (insert x v bs) = if x.same y then some v else get? y bs := by
  induction bs with
  | nil => simp [insert, get?]
  | cons b rest ih =>
    obtain ⟨z, w⟩ := b
    rcases Nat.lt_trichotomy x.rank z.rank with h | h | h
    · simp [insert, get?, h]
    · by_cases hy : z.rank = y.rank <;> simp [insert, get?, Symbol.same_eq_rank, h, hy]
    · have hz : ¬ x.rank < z.rank := by omega
      simp only [insert, if_neg hz, if_pos h, get?, ih]
      by_cases hy : z.rank = y.rank
      · have hne : x.rank ≠ y.rank := by omega
        simp [Symbol.same_eq_rank, hy, hne]
      · simp [Symbol.same_eq_rank, hy]

/-- Ranks increase, so no symbol is bound twice. -/
def Ordered (bs : List (Symbol × Value)) : Prop :=
  bs.Pairwise fun a b => a.1.rank < b.1.rank

theorem mem_insert_rank {x : Symbol} {v : Value} {bs : List (Symbol × Value)}
    {b : Symbol × Value} (h : b ∈ insert x v bs) :
    b.1.rank = x.rank ∨ ∃ c ∈ bs, c.1.rank = b.1.rank := by
  induction bs with
  | nil => exact .inl (by simp_all [insert])
  | cons a rest ih =>
    obtain ⟨y, w⟩ := a
    unfold insert at h
    split at h
    · rcases List.mem_cons.mp h with rfl | h
      · exact .inl rfl
      · exact .inr ⟨b, h, rfl⟩
    · split at h
      · rcases List.mem_cons.mp h with rfl | h
        · exact .inr ⟨_, List.mem_cons_self, rfl⟩
        · rcases ih h with h | ⟨c, hc, h⟩
          · exact .inl h
          · exact .inr ⟨c, List.mem_cons_of_mem _ hc, h⟩
      · rcases List.mem_cons.mp h with rfl | h
        · exact .inr ⟨_, List.mem_cons_self, rfl⟩
        · exact .inr ⟨b, List.mem_cons_of_mem _ h, rfl⟩

theorem ordered_insert (x : Symbol) (v : Value) {bs : List (Symbol × Value)}
    (h : Ordered bs) : Ordered (insert x v bs) := by
  induction bs with
  | nil => simp [insert, Ordered]
  | cons a rest ih =>
    obtain ⟨y, w⟩ := a
    obtain ⟨hy, hrest⟩ := List.pairwise_cons.mp h
    unfold insert
    split
    · rename_i hlt
      refine List.pairwise_cons.mpr ⟨?_, h⟩
      intro b hb
      rcases List.mem_cons.mp hb with rfl | hb
      · exact hlt
      · exact Nat.lt_trans hlt (hy b hb)
    · split
      · rename_i hlt
        refine List.pairwise_cons.mpr ⟨?_, ih hrest⟩
        intro b hb
        rcases mem_insert_rank hb with heq | ⟨c, hc, heq⟩
        · simpa [heq] using hlt
        · exact heq ▸ hy c hc
      · exact List.pairwise_cons.mpr ⟨hy, hrest⟩

end Bindings

structure State where
  bindings : List (Symbol × Value)
  ordered : Bindings.Ordered bindings

namespace State

def empty : State := ⟨[], List.Pairwise.nil⟩

def size (s : State) : Nat := s.bindings.length

def keys (s : State) : List Symbol := s.bindings.map Prod.fst

def get? (s : State) (x : Symbol) : Option Value := Bindings.get? x s.bindings

def contains (s : State) (x : Symbol) : Bool := (s.get? x).isSome

def lookup (s : State) (x : Symbol) : Value := (s.get? x).getD .undetermined

/-- Binds a symbol to a value as it is. -/
def set (s : State) (x : Symbol) (v : Value) : State :=
  ⟨Bindings.insert x v s.bindings, Bindings.ordered_insert x v s.ordered⟩

@[simp] theorem get?_set (s : State) (x y : Symbol) (v : Value) :
    (s.set x v).get? y = if x.same y then some v else s.get? y :=
  Bindings.get?_insert x y v s.bindings

/-- Binds a symbol to the variable that holds a value. -/
def assign (s : State) (x : Symbol) (v : Value) (source : Option Expr) : State :=
  s.set x (v.boundTo x [] source)

/-- The symbols bound in either state. -/
def joinKeys (s t : State) : List Symbol :=
  s.keys ++ t.keys.filter fun x => !s.contains x

/-- The merged values of some symbols. -/
def mergeOn (s t : State) : List Symbol → Except Fault State
  | [] => .ok empty
  | x :: xs => do
    let v ← (s.lookup x).merge (t.lookup x)
    let rest ← mergeOn s t xs
    return rest.set x v

/-- What is bound on one path only is merged with `undetermined`. -/
def merge (s t : State) : Except Fault State := mergeOn s t (joinKeys s t)

def sameValue? : Option Value → Option Value → Bool
  | some v, some w => v.equals w
  | none, none => true
  | _, _ => false

/-- The same symbols bound to the same values. -/
def same (s t : State) : Bool :=
  (joinKeys s t).all fun x => sameValue? (s.get? x) (t.get? x)

def bindingTexts : List (Symbol × Value) → Except Fault (List String)
  | [] => .ok []
  | (x, v) :: rest => do
    let t ← v.text
    return (x.name ++ ": " ++ t) :: (← bindingTexts rest)

def text (s : State) : Except Fault String := do
  return "EvaluationState(\x7b" ++ ", ".intercalate (← bindingTexts s.bindings) ++ "\x7d)"

end State

/-- What the evaluation of an expression gives. -/
structure Outcome where
  value : Value
  state : State

namespace Outcome

def isReachable (o : Outcome) : Bool := o.value.isReachable

/-- A path that does not go on is ignored if the other does. -/
def merge (o p : Outcome) : Except Fault Outcome :=
  if !o.isReachable && p.isReachable then .ok p
  else if !p.isReachable && o.isReachable then .ok o
  else do
    let v ← o.value.merge p.value
    return ⟨v, ← o.state.merge p.state⟩

/-- Changes the value, unless it is the same. -/
def withValue (o : Outcome) (v : Value) : Outcome :=
  if v.equals o.value then o else ⟨v, o.state⟩

end Outcome

end ValueFlow
