import Mathlib.Data.List.Nodup
import ValueFlow.Operator.Table

/-!
# Registered operators

Operators are registered one at a time or several in a row, and a refusal ends its request but not
the run. The table then answers as the list of the operators that it accepted does. What counts is
the qualified name: two namespaces are kept apart unless a colon in one of them makes a qualified
name read in two ways.

* `OperatorTable.run`: a sequence of requests, with the operators that are accepted.
* `OperatorTable.Reflects`: a table answers as a list of operators does.
* `OperatorTable.entries_run`: after a run the table has what was accepted.
* `OperatorTable.run_reflects`: so it answers by qualified names, and by own names where no
  namespace has a colon.
-/

namespace ValueFlow

theorem toList_qualify (ns name : String) :
    (qualify ns name).toList = ns.toList ++ ':' :: name.toList := by
  simp [qualify]

/-- Namespaces without a colon end at the first colon of a qualified name. -/
theorem qualify_inj {ns ns' name name' : String} (hns : ':' ∉ ns.toList) (hns' : ':' ∉ ns'.toList) :
    qualify ns name = qualify ns' name' ↔ ns = ns' ∧ name = name' := by
  refine ⟨fun h => ?_, by rintro ⟨rfl, rfl⟩; rfl⟩
  have chars := congrArg String.toList h
  rw [toList_qualify, toList_qualify] at chars
  have first := congrArg (List.idxOf ':') chars
  simp only [List.idxOf_append, hns, hns', if_false, List.idxOf_cons_self, Nat.zero_add] at first
  obtain ⟨left, right⟩ := List.append_inj chars first
  exact ⟨String.toList_inj.mp left, String.toList_inj.mp (List.cons.inj right).2⟩

namespace Operator

/-- Its own name, in its own namespace. -/
def nameIn? (ns : String) (op : Operator) : Option String :=
  if op.ns = ns then some op.name else none

/-- What follows a namespace and a colon in its qualified name. -/
def spelledIn? (ns : String) (op : Operator) : Option String :=
  OperatorTable.nameIn? ns op.qualifiedName

theorem spelledIn?_eq_some_iff {ns name : String} {op : Operator} :
    op.spelledIn? ns = some name ↔ op.qualifiedName = qualify ns name := by
  have lead : (qualify ns "").toList = ns.toList ++ [':'] := by simp [toList_qualify]
  have chars : op.qualifiedName = qualify ns name ↔
      op.qualifiedName.toList = ns.toList ++ [':'] ++ name.toList := by
    rw [← String.toList_inj, toList_qualify, List.append_assoc, List.singleton_append]
  simp only [spelledIn?, OperatorTable.nameIn?, lead, chars]
  by_cases starts : ns.toList ++ [':'] <+: op.qualifiedName.toList
  · rw [if_pos (List.isPrefixOf_iff_prefix.mpr starts), Option.some.injEq, ← String.toList_inj,
      String.toList_ofList]
    have whole := List.prefix_iff_eq_append.mp starts
    constructor
    · intro rest
      rw [← rest, whole]
    · intro h
      rw [h, List.drop_left]
  · rw [if_neg (fun h => starts (List.isPrefixOf_iff_prefix.mp h))]
    refine ⟨nofun, fun h => absurd ?_ starts⟩
    rw [h]
    exact List.prefix_append _ _

theorem spelledIn?_of_no_colon {ns : String} {op : Operator} (hns : ':' ∉ ns.toList)
    (hop : ':' ∉ op.ns.toList) : op.spelledIn? ns = op.nameIn? ns := by
  ext name
  rw [spelledIn?_eq_some_iff, qualifiedName, qualify_inj hop hns, nameIn?]
  split
  · simp [*]
  · simp [*]

end Operator

namespace OperatorTable

/-- A request for one operator, or for several in order up to the first that is refused. -/
inductive Request where
  | one (op : Operator)
  | all (ops : List Operator)

def Request.operators : Request → List Operator
  | .one op => [op]
  | .all ops => ops

/-- The answer to a request, and the table after it. -/
def serve (t : OperatorTable) : Request → OperatorTable × Except Fault Unit
  | .one op =>
    match t.register op with
    | .ok t' => (t', .ok ())
    | .error e => (t, .error e)
  | .all ops => t.registerAll ops

/-- Those of the operators that the table accepts when it is asked for one after the other, up to
the first that it refuses. -/
def accepted (t : OperatorTable) : List Operator → List Operator
  | [] => []
  | op :: ops =>
    match t.register op with
    | .ok t' => op :: t'.accepted ops
    | .error _ => []

/-- Serves requests in order, whether or not they are refused, and collects what is accepted. -/
def run (t : OperatorTable) : List Request → List Operator × OperatorTable
  | [] => ([], t)
  | r :: rs =>
    let (later, after) := (t.serve r).1.run rs
    (t.accepted r.operators ++ later, after)

/-- The table answers as the operators do that it accepted, where `name? ns op` is the name of an
operator in a namespace. It is asked for namespaces with `P` only. -/
structure Reflects (t : OperatorTable) (accepted : List Operator)
    (name? : String → Operator → Option String) (P : String → Prop) : Prop where
  refuses : ∀ op, P op.ns →
    ((t.serve (.one op)).2 = .error (.duplicateOperator op.ns op.name) ↔
      ∃ o ∈ accepted, name? op.ns o = some op.name)
  unchanged : ∀ op, (t.serve (.one op)).2 ≠ .ok () →
    t.serve (.one op) = (t, .error (.duplicateOperator op.ns op.name))
  /-- A request for several fails as the first of them does that is refused. -/
  several : ∀ ops, ((t.serve (.all ops)).2 = .ok () ∧ t.accepted ops = ops) ∨
    ∃ op rest, ops = t.accepted ops ++ op :: rest ∧
      (t.serve (.all ops)).2 = .error (.duplicateOperator op.ns op.name)
  lookup : ∀ ns name op, P ns →
    (t.lookup? ns name = some op ↔ op ∈ accepted ∧ name? ns op = some name)
  get : ∀ ns name op, P ns →
    (t.get ns name = .ok op ↔ op ∈ accepted ∧ name? ns op = some name)
  unknown : ∀ ns name, P ns →
    (t.get ns name = .error (.unknownOperator ns name) ↔
      ∀ op ∈ accepted, name? ns op ≠ some name)
  has : ∀ ns name, t.has ns name = (t.lookup? ns name).isSome
  names : ∀ ns, P ns → t.namesIn ns = accepted.filterMap (name? ns)
  size : t.size = accepted.length

variable {t : OperatorTable}

theorem register_of_contains {op : Operator} (h : t.contains op.qualifiedName = true) :
    t.register op = .error (.duplicateOperator op.ns op.name) := by
  simp [register, Keyed.push?, h]

theorem register_of_not_contains {op : Operator} (h : t.contains op.qualifiedName = false) :
    ∃ t', t.register op = .ok t' ∧ t'.entries = t.entries ++ [op] := by
  simp [register, Keyed.push?, h]

theorem entries_registerAll (t : OperatorTable) (ops : List Operator) :
    (t.registerAll ops).1.entries = t.entries ++ t.accepted ops := by
  induction ops generalizing t with
  | nil => simp [registerAll, accepted]
  | cons op ops ih =>
    cases h : t.contains op.qualifiedName with
    | true => simp [registerAll, accepted, register_of_contains h]
    | false =>
      obtain ⟨t', ht', entries⟩ := register_of_not_contains h
      simp [registerAll, accepted, ht', ih, entries]

theorem registerAll_answer (t : OperatorTable) (ops : List Operator) :
    ((t.registerAll ops).2 = .ok () ∧ t.accepted ops = ops) ∨
      ∃ op rest, ops = t.accepted ops ++ op :: rest ∧
        (t.registerAll ops).2 = .error (.duplicateOperator op.ns op.name) := by
  induction ops generalizing t with
  | nil => exact Or.inl ⟨rfl, rfl⟩
  | cons op ops ih =>
    cases h : t.contains op.qualifiedName with
    | true =>
      refine Or.inr ⟨op, ops, ?_⟩
      simp [registerAll, accepted, register_of_contains h]
    | false =>
      obtain ⟨t', ht', -⟩ := register_of_not_contains h
      simp only [registerAll, accepted, ht']
      rcases ih t' with ⟨answer, whole⟩ | ⟨o, rest, split, answer⟩
      · exact Or.inl ⟨answer, by rw [whole]⟩
      · exact Or.inr ⟨o, rest, by rw [List.cons_append, ← split], answer⟩

theorem entries_serve (t : OperatorTable) (r : Request) :
    (t.serve r).1.entries = t.entries ++ t.accepted r.operators := by
  cases r with
  | one op =>
    have asOne : (t.serve (.one op)).1 = (t.registerAll [op]).1 := by
      cases h : t.register op <;> simp [serve, registerAll, h]
    rw [asOne]
    exact t.entries_registerAll [op]
  | all ops => exact t.entries_registerAll ops

theorem entries_run (t : OperatorTable) (rs : List Request) :
    (t.run rs).2.entries = t.entries ++ (t.run rs).1 := by
  induction rs generalizing t with
  | nil => simp [run]
  | cons r rs ih => simp [run, ih, entries_serve]

theorem contains_iff {key : String} :
    t.contains key = true ↔ ∃ op ∈ t.entries, op.qualifiedName = key := by
  simp [Keyed.contains]

/-- Qualified names are distinct, so that at most one operator has a given one. -/
theorem find?_eq_some_iff {key : String} {op : Operator} :
    t.find? key = some op ↔ op ∈ t.entries ∧ op.qualifiedName = key := by
  constructor
  · intro h
    exact ⟨List.mem_of_find?_eq_some h, by simpa using List.find?_some h⟩
  · rintro ⟨hop, rfl⟩
    cases h : t.find? op.qualifiedName with
    | none => simpa using List.find?_eq_none.mp h op hop
    | some o =>
      have key : o.qualifiedName = op.qualifiedName := by simpa using List.find?_some h
      rw [List.inj_on_of_nodup_map t.distinct (List.mem_of_find?_eq_some h) hop key]

theorem find?_eq_none_iff {key : String} :
    t.find? key = none ↔ ∀ op ∈ t.entries, op.qualifiedName ≠ key := by
  simp [Keyed.find?]

/-- Every table answers by the qualified names of what it has. -/
theorem reflects_spelled (t : OperatorTable) :
    t.Reflects t.entries Operator.spelledIn? fun _ => True where
  refuses op _ := by
    simp only [Operator.spelledIn?_eq_some_iff]
    rw [← Operator.qualifiedName, ← contains_iff, serve]
    cases h : t.contains op.qualifiedName with
    | true => simp [register_of_contains h]
    | false =>
      obtain ⟨t', ht', -⟩ := register_of_not_contains h
      simp [ht']
  unchanged op refused := by
    rw [serve] at refused ⊢
    cases h : t.contains op.qualifiedName with
    | true => rw [register_of_contains h]
    | false =>
      obtain ⟨t', ht', -⟩ := register_of_not_contains h
      simp [ht'] at refused
  several := t.registerAll_answer
  lookup ns name op _ := by
    rw [lookup?, find?_eq_some_iff, Operator.spelledIn?_eq_some_iff]
  get ns name op _ := by
    rw [OperatorTable.get, Operator.spelledIn?_eq_some_iff, ← find?_eq_some_iff, lookup?]
    cases t.find? (qualify ns name) <;> simp
  unknown ns name _ := by
    simp only [ne_eq, Operator.spelledIn?_eq_some_iff]
    rw [← find?_eq_none_iff, OperatorTable.get, lookup?]
    cases t.find? (qualify ns name) <;> simp
  has ns name := by
    rw [OperatorTable.has, lookup?, Bool.eq_iff_iff, contains_iff, Option.isSome_iff_exists]
    exact exists_congr fun op => find?_eq_some_iff.symm
  names ns _ := rfl
  size := rfl

/-- Answers do not change where the names do not. -/
theorem Reflects.congr {accepted : List Operator} {name? name?' : String → Operator → Option String}
    {P Q : String → Prop} (h : t.Reflects accepted name? P) (asked : ∀ ns, Q ns → P ns)
    (named : ∀ ns, Q ns → ∀ op ∈ accepted, name? ns op = name?' ns op) :
    t.Reflects accepted name?' Q where
  refuses op hop := by
    rw [h.refuses op (asked _ hop)]
    refine exists_congr fun o => and_congr_right fun ho => ?_
    rw [named _ hop o ho]
  unchanged := h.unchanged
  several := h.several
  lookup ns name op hns := by
    rw [h.lookup ns name op (asked ns hns)]
    refine and_congr_right fun hop => ?_
    rw [named ns hns op hop]
  get ns name op hns := by
    rw [h.get ns name op (asked ns hns)]
    refine and_congr_right fun hop => ?_
    rw [named ns hns op hop]
  unknown ns name hns := by
    rw [h.unknown ns name (asked ns hns)]
    refine forall_congr' fun op => forall_congr' fun hop => ?_
    rw [named ns hns op hop]
  has := h.has
  names ns hns := by
    rw [h.names ns (asked ns hns)]
    exact List.filterMap_congr fun op hop => named ns hns op hop
  size := h.size

/-- After any requests the table answers by the qualified names of the operators it has accepted.
If none of their namespaces has a colon, it answers by their own namespaces and names, in every
namespace without a colon. -/
theorem run_reflects (requests : List Request) :
    let accepted := (run .empty requests).1
    let t := (run .empty requests).2
    (∀ ns name (op : Operator),
      op.spelledIn? ns = some name ↔ op.qualifiedName = qualify ns name) ∧
    t.Reflects accepted Operator.spelledIn? (fun _ => True) ∧
    ((∀ op ∈ accepted, ':' ∉ op.ns.toList) →
      t.Reflects accepted Operator.nameIn? fun ns => ':' ∉ ns.toList) := by
  intro accepted t
  have spelled : t.Reflects accepted Operator.spelledIn? fun _ => True := by
    have held : t.entries = accepted := entries_run .empty requests
    rw [← held]
    exact t.reflects_spelled
  refine ⟨fun _ _ _ => Operator.spelledIn?_eq_some_iff, spelled, fun plain => ?_⟩
  refine spelled.congr (fun _ _ => trivial) fun ns hns op hop => ?_
  exact Operator.spelledIn?_of_no_colon hns (plain op hop)

/-- An operator of which only the name matters. -/
def named (ns name : String) : Operator := ⟨ns, name, 1, fun _ => .ok .undetermined⟩

/-- A second `unary:!` is refused in the middle of a request, and what comes after it is not
registered. A colon in a name does no harm. -/
theorem run_reflects_interrupted :
    let requests : List Request :=
      [.one (named "unary" "!"), .all [named "binary" "?:", named "unary" "!", named "unary" "~"]]
    let accepted := [named "unary" "!", named "binary" "?:"]
    let t := (run .empty requests).2
    (run .empty requests).1 = accepted ∧
    t.Reflects accepted Operator.nameIn? (fun ns => ':' ∉ ns.toList) ∧
    t.namesIn "binary" = ["?:"] ∧ t.lookup? "unary" "~" = none := by
  intro requests accepted t
  have reflects := (run_reflects requests).2.2 (by decide)
  exact ⟨rfl, reflects, rfl, rfl⟩

/-- The name `a:b:c` reads in two ways: an operator `b:c` in the namespace `a` takes the place of an
operator `c` in the namespace `a:b`. -/
theorem colon_reads_twice :
    let t := (run .empty [.one (named "a" "b:c")]).2
    (run .empty [.one (named "a" "b:c")]).1 = [named "a" "b:c"] ∧
    (t.serve (.one (named "a:b" "c"))).2 = .error (.duplicateOperator "a:b" "c") ∧
    t.lookup? "a:b" "c" = some (named "a" "b:c") ∧ t.namesIn "a:b" = ["c"] ∧
    ¬ t.Reflects [named "a" "b:c"] Operator.nameIn? fun _ => True := by
  intro t
  refine ⟨rfl, rfl, rfl, rfl, fun reflects => ?_⟩
  have own := ((reflects.lookup "a:b" "c" (named "a" "b:c") trivial).mp rfl).2
  simp [Operator.nameIn?, named] at own

end OperatorTable

end ValueFlow
