import ValueFlow.Value.Digest

/-!
# Comparing values by their digests

A marked value has its digest at hand at every part of it. In a comparison of sets, digests tell
which pairs can be the same, and only those are compared; a comparison costs about as much as the
values are large, however deep their sets are nested.

* `equals_eq_same`, `equalSets_eq_sameSet`: comparing by digests is comparing.
* `union_eq_foldl`: a union inserts what is new, one value after the other.
-/

namespace ValueFlow

inductive Marked where
  /-- A value without parts to compare. -/
  | atom (digest : Nat) (value : Value)
  | dependent (digest : Nat) (value : Marked) (deps : List Marked)
  | var (digest : Nat) (symbol : Symbol) (value : Marked) (deps : List Marked)
  | phi (digest : Nat) (members : List Marked)

namespace Marked

def digest : Marked → Nat
  | .atom h _ => h
  | .dependent h _ _ => h
  | .var h _ _ _ => h
  | .phi h _ => h

/-- Nothing on either side of a comparison of sets is left over. -/
def agree (c : Bool × List Bool) : Bool := c.1 && c.2.all id

mutual

def same : Marked → Marked → Bool
  | .atom _ v, .atom _ w => v.same w
  | .dependent _ m D, .dependent _ n E => m.same n && agree (cover D E)
  | .var _ x m D, .var _ y n E => x.same y && m.same n && agree (cover D E)
  | .phi _ M, .phi _ N => agree (cover M N)
  | _, _ => false

/-- Whether each of the first values is the same as one of the second; and for each of the second,
whether it is the same as one of the first. -/
def cover : List Marked → List Marked → Bool × List Bool
  | [], ns => (true, ns.map fun _ => false)
  | m :: ms, ns =>
    let row := ns.map fun n => m.digest == n.digest && m.same n
    let (all, hits) := cover ms ns
    (row.any id && all, List.zipWith (· || ·) row hits)

end

/-- Compares two values whose digests are the same. -/
def matches? (m n : Marked) : Bool := m.digest == n.digest && m.same n

theorem cover_eq (ms ns : List Marked) :
    cover ms ns =
      (ms.all fun m => ns.any fun n => m.matches? n, ns.map fun n => ms.any fun m => m.matches? n) := by
  induction ms with
  | nil => simp [cover]
  | cons m ms ih =>
    rw [cover, ih]
    simp [List.zipWith_map, List.any_map, matches?]

end Marked

namespace Value

open Digest

mutual

def mark : Value → Marked
  | .dependent v D =>
    let m := v.mark
    let ms := marks D
    .dependent (mix (mix 2 m.digest) (signature (ms.map Marked.digest))) m ms
  | .var x v D _ =>
    let m := v.mark
    let ms := marks D
    .var (mix (mix (mix 3 x.rank) m.digest) (signature (ms.map Marked.digest))) x m ms
  | .phi members =>
    let ms := marks members
    .phi (mix 5 (signature (ms.map Marked.digest))) ms
  | v => .atom v.digest v

def marks : List Value → List Marked
  | [] => []
  | v :: vs => v.mark :: marks vs

end

theorem marks_eq_map (vs : List Value) : marks vs = vs.map mark := by
  induction vs with
  | nil => rfl
  | cons v vs ih => simp only [marks, ih, List.map_cons]

mutual

theorem digest_mark : ∀ v : Value, v.mark.digest = v.digest
  | .dependent v D => by rw [mark, digest, Marked.digest, digest_mark v, digests_marks D]
  | .var x v D _ => by rw [mark, digest, Marked.digest, digest_mark v, digests_marks D]
  | .phi M => by rw [mark, digest, Marked.digest, digests_marks M]
  | .const _ => by simp only [mark, Marked.digest]
  | .external _ => by simp only [mark, Marked.digest]
  | .nothing => by simp only [mark, Marked.digest]
  | .undetermined => by simp only [mark, Marked.digest]
  | .foreign _ => by simp only [mark, Marked.digest]

theorem digests_marks : ∀ vs : List Value, (marks vs).map Marked.digest = digests vs
  | [] => rfl
  | v :: vs => by simp only [marks, List.map_cons, digests, digest_mark v, digests_marks vs]

end

/-- A filter by digests lets through all that is the same. -/
theorem matches?_mark {v w : Value} (h : v.mark.same w.mark = v.same w) :
    v.mark.matches? w.mark = v.same w := by
  simp only [Marked.matches?, h, digest_mark]
  cases hvw : v.same w with
  | false => exact Bool.and_false _
  | true => simp [digest_eq_of_same v w hvw]

theorem agree_cover_marks {D E : List Value}
    (h : ∀ d ∈ D, ∀ e, d.mark.same e.mark = d.same e) :
    Marked.agree (Marked.cover (marks D) (marks E)) = sameSet D E := by
  have pair : ∀ d ∈ D, ∀ e : Value, d.mark.matches? e.mark = d.same e :=
    fun d hd e => matches?_mark (h d hd e)
  have covered : Marked.agree (Marked.cover (marks D) (marks E)) = true ↔
      (∀ d ∈ D, ∃ e ∈ E, d.mark.matches? e.mark = true) ∧
        ∀ e ∈ E, ∃ d ∈ D, d.mark.matches? e.mark = true := by
    simp [Marked.agree, Marked.cover_eq, marks_eq_map]
  rw [Bool.eq_iff_iff, sameSet_eq_true_iff, covered]
  constructor
  · rintro ⟨sub, sup⟩
    refine ⟨fun d hd => ?_, fun e he => ?_⟩
    · obtain ⟨e, he, hde⟩ := sub d hd
      exact ⟨e, he, pair d hd e ▸ hde⟩
    · obtain ⟨d, hd, hde⟩ := sup e he
      exact ⟨d, hd, pair d hd e ▸ hde⟩
  · rintro ⟨sub, sup⟩
    refine ⟨fun d hd => ?_, fun e he => ?_⟩
    · obtain ⟨e, he, hde⟩ := sub d hd
      exact ⟨e, he, (pair d hd e).trans hde⟩
    · obtain ⟨d, hd, hde⟩ := sup e he
      exact ⟨d, hd, (pair d hd e).trans hde⟩

mutual

theorem same_mark : ∀ v w : Value, v.mark.same w.mark = v.same w
  | .dependent v D, w => by
    cases w with
    | dependent w E =>
      rw [mark, mark, Marked.same, same, same_mark v w, agree_cover_marks (same_mark_of_mem D),
        sameSet]
    | _ => simp only [mark, Marked.same, same]
  | .var x v D _, w => by
    cases w with
    | var y w E _ =>
      rw [mark, mark, Marked.same, same, same_mark v w, agree_cover_marks (same_mark_of_mem D),
        sameSet]
    | _ => simp only [mark, Marked.same, same]
  | .phi M, w => by
    cases w with
    | phi N => rw [mark, mark, Marked.same, same, agree_cover_marks (same_mark_of_mem M), sameSet]
    | _ => simp only [mark, Marked.same, same]
  | .const _, w => by cases w <;> simp only [mark, Marked.same, same]
  | .external _, w => by cases w <;> simp only [mark, Marked.same, same]
  | .nothing, w => by cases w <;> simp only [mark, Marked.same, same]
  | .undetermined, w => by cases w <;> simp only [mark, Marked.same, same]
  | .foreign _, w => by cases w <;> simp only [mark, Marked.same, same]

theorem same_mark_of_mem : ∀ (D : List Value), ∀ d ∈ D, ∀ e, d.mark.same e.mark = d.same e
  | [], _, hd, _ => absurd hd List.not_mem_nil
  | v :: vs, d, hd, e => by
    rcases List.mem_cons.mp hd with heq | hd
    · rw [heq]
      exact same_mark v e
    · exact same_mark_of_mem vs d hd e

end

/-- Decides whether values are the same. -/
def equals (v w : Value) : Bool := v.mark.matches? w.mark

@[simp] theorem equals_eq_same (v w : Value) : v.equals w = v.same w :=
  matches?_mark (same_mark v w)

/-- Decides whether sets are the same. -/
def equalSets (D E : List Value) : Bool := Marked.agree (Marked.cover (marks D) (marks E))

@[simp] theorem equalSets_eq_sameSet (D E : List Value) : equalSets D E = sameSet D E :=
  agree_cover_marks (same_mark_of_mem D)

/-- Adds a value to a set whose marks are at hand. -/
def insertMarked (D : List (Marked × Value)) (v : Value) : List (Marked × Value) :=
  let m := v.mark
  if D.any fun d => d.1.matches? m then D else D ++ [(m, v)]

def withMarks (D : List Value) : List (Marked × Value) := D.map fun d => (d.mark, d)

def union (D E : List Value) : List Value := (E.foldl insertMarked (withMarks D)).map Prod.snd

/-- The set of the values in a list. -/
def distinct (vs : List Value) : List Value := union [] vs

theorem insertMarked_withMarks (D : List Value) (v : Value) :
    insertMarked (withMarks D) v = withMarks (insertNew D v) := by
  have found : ((withMarks D).any fun d => d.1.matches? v.mark) = hasSame D v := by
    simp [withMarks, hasSame_eq, List.any_map, Function.comp_def, matches?_mark (same_mark _ _)]
  simp only [insertMarked, insertNew, found]
  split
  · rfl
  · simp [withMarks]

theorem map_snd_withMarks (D : List Value) : (withMarks D).map Prod.snd = D := by
  simp [withMarks, Function.comp_def]

theorem union_eq_foldl (D E : List Value) : union D E = E.foldl insertNew D := by
  unfold union
  induction E generalizing D with
  | nil => exact map_snd_withMarks D
  | cons e E ih =>
    rw [List.foldl_cons, List.foldl_cons, insertMarked_withMarks]
    exact ih (insertNew D e)

end Value

end ValueFlow
