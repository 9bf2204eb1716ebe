/-!
# Keyed entries

Entries with distinct keys, in the order in which they came in. An entry whose key is taken is
refused.
-/

namespace ValueFlow

structure Keyed (α : Type) (key : α → String) where
  entries : List α
  distinct : (entries.map key).Nodup

namespace Keyed

variable {α : Type} {key : α → String}

def empty : Keyed α key := ⟨[], List.nodup_nil⟩

def size (t : Keyed α key) : Nat := t.entries.length

def find? (t : Keyed α key) (k : String) : Option α := t.entries.find? (key · == k)

def contains (t : Keyed α key) (k : String) : Bool := (t.entries.map key).contains k

theorem nodup_append (t : Keyed α key) {a : α} (h : t.contains (key a) = false) :
    ((t.entries ++ [a]).map key).Nodup := by
  have absent : key a ∉ t.entries.map key := by
    simpa [contains] using h
  rw [List.map_append, List.nodup_append]
  refine ⟨t.distinct, by simp, ?_⟩
  intro k hk l hl hkl
  have hl : l = key a := by simpa using hl
  exact absent (hl ▸ hkl ▸ hk)

def push? (t : Keyed α key) (a : α) : Option (Keyed α key) :=
  if h : t.contains (key a) = false then some ⟨t.entries ++ [a], t.nodup_append h⟩ else none

end Keyed

end ValueFlow
