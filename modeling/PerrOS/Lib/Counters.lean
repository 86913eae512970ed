import Mathlib.Algebra.Group.Nat.Defs
import Mathlib.Data.List.Basic
import Mathlib.Logic.Function.Basic

/-!
# Circular arrays with free-running counters

A queue of at most `n` elements in an array of `n` slots, between two machine
words that only grow: the element at position `i` is in slot `(r + i) % n`. The
words wrap around, so `n` divides the number of their values. Unlike two
indices, two counters tell a full array from an empty one.
-/

namespace Lib

open Function (update)

universe u

/-- The slots from `r` up to `w` hold the elements of `q`, in order. -/
structure Counters {α : Type u} {k : Nat} (n : Nat) (r w : BitVec k) (slot : Nat → α)
    (q : List α) : Prop where
  pos : 0 < n
  dvd : n ∣ 2 ^ k
  lt : n < 2 ^ k
  length_le : q.length ≤ n
  w_eq : w = r + BitVec.ofNat k q.length
  entry : ∀ i x, q[i]? = some x → slot ((r.toNat + i) % n) = x

namespace Counters

variable {α : Type u} {k n : Nat} {r w : BitVec k} {slot : Nat → α} {q q' : List α} {x y : α}

/-- Slots are counted modulo `n`, whether or not the counter has wrapped around. -/
theorem add_mod (h : n ∣ 2 ^ k) (a : BitVec k) (i : Nat) :
    (a + BitVec.ofNat k i).toNat % n = (a.toNat + i) % n := by
  rw [BitVec.toNat_add, BitVec.toNat_ofNat, Nat.add_mod_mod, Nat.mod_mod_of_dvd _ h]

theorem sub_eq (h : Counters n r w slot q) : (w - r).toNat = q.length := by
  have hlt := Nat.lt_of_le_of_lt h.length_le h.lt
  rw [h.w_eq, BitVec.add_comm, BitVec.add_sub_cancel, BitVec.toNat_ofNat, Nat.mod_eq_of_lt hlt]

theorem slot_inj (hij : i < j) (hj : j < n) (a : Nat) : (a + i) % n ≠ (a + j) % n := by
  intro h
  have hd := Nat.dvd_of_mod_eq_zero (Nat.sub_mod_eq_zero_of_mod_eq h.symm)
  have := Nat.le_of_dvd (by omega) hd
  omega

theorem empty (hpos : 0 < n) (hdvd : n ∣ 2 ^ k) (hlt : n < 2 ^ k) (r : BitVec k) (slot : Nat → α) :
    Counters n r r slot [] :=
  ⟨hpos, hdvd, hlt, Nat.zero_le n, by simp, by simp⟩

theorem eq_iff (h : Counters n r w slot q) : r = w ↔ q = [] := by
  rw [← List.length_eq_zero_iff, ← h.sub_eq]
  constructor
  · rintro rfl
    simp
  · intro hz
    have hsub : w - r = 0#k := BitVec.eq_of_toNat_eq (by simpa using hz)
    rw [← BitVec.sub_add_cancel w r, hsub, BitVec.zero_add]

/-- The array is full where the counters are `n` apart. -/
theorem full_iff (h : Counters n r w slot q) : w = r + BitVec.ofNat k n ↔ q.length = n := by
  rw [h.w_eq, BitVec.add_right_inj]
  constructor
  · intro he
    have := congrArg BitVec.toNat he
    rwa [BitVec.toNat_ofNat, BitVec.toNat_ofNat, Nat.mod_eq_of_lt h.lt,
      Nat.mod_eq_of_lt (Nat.lt_of_le_of_lt h.length_le h.lt)] at this
  · intro he
    rw [he]

/-- Where the next element goes. -/
theorem slot_w (h : Counters n r w slot q) : w.toNat % n = (r.toNat + q.length) % n := by
  rw [h.w_eq, add_mod h.dvd]

theorem push (h : Counters n r w slot q) (hroom : q.length < n) (x : α) :
    Counters n r (w + 1) (update slot (w.toNat % n) x) (q ++ [x]) := by
  refine ⟨h.pos, h.dvd, h.lt, by simpa using Nat.succ_le_of_lt hroom, ?_, fun i y hi => ?_⟩
  · rw [h.w_eq, BitVec.add_assoc, List.length_append, List.length_singleton, BitVec.ofNat_add]
    rfl
  · rcases Nat.lt_trichotomy i q.length with hlt | rfl | hlt
    · rw [List.getElem?_append_left hlt] at hi
      rw [Function.update_of_ne (h.slot_w ▸ slot_inj hlt hroom r.toNat)]
      exact h.entry i y hi
    · obtain rfl : x = y := by simpa using hi
      rw [← h.slot_w, Function.update_self]
    · rw [List.getElem?_eq_none (by simpa using Nat.succ_le_of_lt hlt)] at hi
      cases hi

theorem front (h : Counters n r w slot (x :: q)) : slot (r.toNat % n) = x := by
  simpa using h.entry 0 x rfl

theorem pop (h : Counters n r w slot (x :: q)) : Counters n (r + 1) w slot q := by
  have hlen : q.length + 1 ≤ n := h.length_le
  refine ⟨h.pos, h.dvd, h.lt, by omega, ?_, fun i y hi => ?_⟩
  · rw [h.w_eq, List.length_cons, Nat.add_comm, BitVec.ofNat_add, ← BitVec.add_assoc]
    rfl
  · have hslot := add_mod h.dvd r (1 + i)
    rw [BitVec.ofNat_add, ← BitVec.add_assoc] at hslot
    have hnext := add_mod h.dvd (r + 1) i
    rw [← hnext, show (1 : BitVec k) = BitVec.ofNat k 1 from rfl, hslot, Nat.add_comm 1]
    exact h.entry (i + 1) y (by simpa using hi)

/-- The last element is taken back. -/
theorem unpush (h : Counters n r w slot (q ++ [x])) :
    Counters n r (w - 1) slot q ∧ slot ((w - 1).toNat % n) = x := by
  have hw : w - 1 = r + BitVec.ofNat k q.length := by
    rw [h.w_eq, List.length_append, List.length_singleton, BitVec.ofNat_add, ← BitVec.add_assoc]
    exact BitVec.add_sub_cancel ..
  have hlen := h.length_le
  rw [List.length_append, List.length_singleton] at hlen
  refine ⟨⟨h.pos, h.dvd, h.lt, by omega, hw, fun i y hi => h.entry i y ?_⟩, ?_⟩
  · have hlt : i < q.length := (List.getElem?_eq_some_iff.mp hi).1
    rwa [List.getElem?_append_left hlt]
  · rw [hw, add_mod h.dvd]
    exact h.entry q.length x (by simp)

/-- The elements up to a third counter. -/
theorem take (h : Counters n r w slot (q ++ q')) :
    Counters n r (r + BitVec.ofNat k q.length) slot q := by
  have hlen := h.length_le
  rw [List.length_append] at hlen
  refine ⟨h.pos, h.dvd, h.lt, by omega, rfl, fun i y hi => h.entry i y ?_⟩
  have hlt : i < q.length := (List.getElem?_eq_some_iff.mp hi).1
  rwa [List.getElem?_append_left hlt]

theorem drop (h : Counters n r w slot (q ++ q')) :
    Counters n (r + BitVec.ofNat k q.length) w slot q' := by
  have hlen := h.length_le
  rw [List.length_append] at hlen
  refine ⟨h.pos, h.dvd, h.lt, by omega, ?_, fun i y hi => ?_⟩
  · rw [h.w_eq, List.length_append, BitVec.ofNat_add, ← BitVec.add_assoc]
  · rw [← Nat.mod_add_mod, add_mod h.dvd, Nat.mod_add_mod, Nat.add_assoc]
    refine h.entry (q.length + i) y ?_
    rwa [List.getElem?_append_right (Nat.le_add_right ..), Nat.add_sub_cancel_left]

/-- The elements, read off the two counters. -/
def elements (n : Nat) (r w : BitVec k) (slot : Nat → α) : List α :=
  (List.range (w - r).toNat).map fun i => slot ((r.toNat + i) % n)

theorem elements_eq (h : Counters n r w slot q) : elements n r w slot = q := by
  rw [elements, h.sub_eq]
  refine List.ext_getElem (by simp) fun i hi hi' => ?_
  rw [List.getElem_map, List.getElem_range]
  exact h.entry i q[i] (List.getElem?_eq_getElem hi')

end Counters

end Lib
