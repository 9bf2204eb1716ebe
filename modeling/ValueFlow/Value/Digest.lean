import ValueFlow.Value.Same

/-!
# Digests of values

A number that values which are the same have in common, so that values with different digests need
not be compared. A digest does not depend on the order of a set, on a repetition in it, on the
source of a binding, or on the sign of zero.

* `signature_congr`: the signature of a set of digests depends on its members only.
* `digest_eq_of_same`: values that are the same have one digest.
-/

namespace ValueFlow

namespace Digest

/-- A digest of two numbers in order. -/
def mix (a b : Nat) : Nat := (1000003 * a ^^^ b) % 2147483629

def ofText (s : String) : Nat := s.toList.foldl (fun h c => mix h c.toNat) 0

def ofInt : Int → Nat
  | .ofNat n => mix 0 n
  | .negSucc n => mix 1 n

def ofLine : Line → Nat
  | .below => 0
  | .point u => mix 1 (ofInt u)
  | .above => 2

/-- A set of digests as a set of bits. -/
def signature : List Nat → Nat
  | [] => 0
  | h :: hs => 1 <<< (h % 251) ||| signature hs

theorem testBit_signature (hs : List Nat) (i : Nat) :
    (signature hs).testBit i = true ↔ ∃ h ∈ hs, h % 251 = i := by
  induction hs with
  | nil => simp [signature]
  | cons h hs ih => simp [signature, Nat.testBit_or, Nat.one_shiftLeft, Nat.testBit_two_pow, ih]

theorem signature_congr {hs ks : List Nat} (sub : ∀ h ∈ hs, h ∈ ks) (sup : ∀ k ∈ ks, k ∈ hs) :
    signature hs = signature ks := by
  apply Nat.eq_of_testBit_eq
  intro i
  rw [Bool.eq_iff_iff, testBit_signature, testBit_signature]
  constructor
  · rintro ⟨h, hh, hi⟩
    exact ⟨h, sub h hh, hi⟩
  · rintro ⟨k, hk, hi⟩
    exact ⟨k, sup k hk, hi⟩

end Digest

open Digest

namespace Constant

def digest : Constant → Nat
  | .null => 0
  | .bool b => mix 1 b.toNat
  | .int n width => mix (mix 2 (ofInt n)) (ofInt width)
  | .double x => mix 3 ((x.line?.map ofLine).getD 0)
  | .entry e => mix 4 e.token
  | .typeLiteral name => mix 5 (ofText name)

theorem digest_eq_of_same {c d : Constant} (h : c.same d = true) : c.digest = d.digest := by
  cases c <;> cases d <;>
    simp_all [same, digest, Double.same, EnumEntry.same]

end Constant

namespace Reference

def digest : Reference → Nat
  | .node e => mix 1 (e.id?.getD 0)
  | .text s => mix 2 (ofText s)

theorem digest_eq_of_same {r s : Reference} (h : r.same s = true) : r.digest = s.digest := by
  cases r <;> cases s <;> simp_all [same, digest]

end Reference

namespace Value

mutual

def digest : Value → Nat
  | .const c => mix 1 c.digest
  | .dependent v D => mix (mix 2 v.digest) (signature (digests D))
  | .var x v D _ => mix (mix (mix 3 x.rank) v.digest) (signature (digests D))
  | .external r => mix 4 r.digest
  | .phi members => mix 5 (signature (digests members))
  | .nothing => 6
  | .undetermined => 7
  | .foreign id => mix 8 id

def digests : List Value → List Nat
  | [] => []
  | v :: vs => v.digest :: digests vs

end

theorem digests_eq_map (vs : List Value) : digests vs = vs.map digest := by
  induction vs with
  | nil => rfl
  | cons v vs ih => simp only [digests, ih, List.map_cons]

/-- Sets whose members have one digest each time they are the same have one signature. -/
theorem signature_eq_of_sameSet {D E : List Value}
    (respects : ∀ d ∈ D, ∀ e, d.same e = true → d.digest = e.digest)
    (h : sameSet D E = true) : signature (digests D) = signature (digests E) := by
  obtain ⟨sub, sup⟩ := sameSet_eq_true_iff.mp h
  rw [digests_eq_map, digests_eq_map]
  apply signature_congr
  · intro k hk
    obtain ⟨d, hd, rfl⟩ := List.mem_map.mp hk
    obtain ⟨e, he, hde⟩ := sub d hd
    exact List.mem_map.mpr ⟨e, he, (respects d hd e hde).symm⟩
  · intro k hk
    obtain ⟨e, he, rfl⟩ := List.mem_map.mp hk
    obtain ⟨d, hd, hde⟩ := sup e he
    exact List.mem_map.mpr ⟨d, hd, respects d hd e hde⟩

mutual

theorem digest_eq_of_same : ∀ (v w : Value), v.same w = true → v.digest = w.digest
  | .const c, w, h => by
    cases w with
    | const d =>
      simp only [same] at h
      simp only [digest, Constant.digest_eq_of_same h]
    | _ => simp [same] at h
  | .dependent v D, w, h => by
    cases w with
    | dependent w E =>
      obtain ⟨hv, hD⟩ := (Bool.and_eq_true _ _).mp h
      simp only [digest, digest_eq_of_same v w hv,
        signature_eq_of_sameSet (digest_eq_of_mem D) hD]
    | _ => simp [same] at h
  | .var x v D _, w, h => by
    cases w with
    | var y w E _ =>
      obtain ⟨hxv, hD⟩ := (Bool.and_eq_true _ _).mp h
      obtain ⟨hx, hv⟩ := (Bool.and_eq_true _ _).mp hxv
      have hx : x.rank = y.rank := by simpa [Symbol.same_eq_rank] using hx
      simp only [digest, hx, digest_eq_of_same v w hv,
        signature_eq_of_sameSet (digest_eq_of_mem D) hD]
    | _ => simp [same] at h
  | .external r, w, h => by
    cases w with
    | external s =>
      simp only [same] at h
      simp only [digest, Reference.digest_eq_of_same h]
    | _ => simp [same] at h
  | .phi M, w, h => by
    cases w with
    | phi N => simp only [digest, signature_eq_of_sameSet (digest_eq_of_mem M) h]
    | _ => simp [same] at h
  | .nothing, w, h => by
    cases w with
    | nothing => rfl
    | _ => simp [same] at h
  | .undetermined, w, h => by
    cases w with
    | undetermined => rfl
    | _ => simp [same] at h
  | .foreign i, w, h => by
    cases w with
    | foreign j =>
      simp only [same, beq_iff_eq] at h
      rw [h]
    | _ => simp [same] at h

theorem digest_eq_of_mem :
    ∀ (D : List Value), ∀ d ∈ D, ∀ e, d.same e = true → d.digest = e.digest
  | [], _, hd, _, _ => absurd hd List.not_mem_nil
  | v :: vs, d, hd, e, h => by
    rcases List.mem_cons.mp hd with heq | hd
    · rw [heq] at h ⊢
      exact digest_eq_of_same v e h
    · exact digest_eq_of_mem vs d hd e h

end

end Value

end ValueFlow
