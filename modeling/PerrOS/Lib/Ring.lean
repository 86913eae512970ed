import Mathlib.Data.List.Basic
import Mathlib.Logic.Function.Basic

/-!
# Circular arrays

A queue of fewer than `n` elements in an array of `n` slots: the element at
position `i` is in slot `(head + i) % n`, and `tail` is the slot of the next
element. Elements are pushed by writing the slot and then advancing `tail`,
and popped by reading the slot and then advancing `head`.
-/

namespace Lib

open Function (update)

/-- The slots from `head` up to `tail` hold the elements of `q`, in order. -/
structure Ring {α : Type u} (n head tail : Nat) (slot : Nat → α) (q : List α) : Prop where
  head_lt : head < n
  length_lt : q.length < n
  tail_eq : tail = (head + q.length) % n
  entry : ∀ i x, q[i]? = some x → slot ((head + i) % n) = x

namespace Ring

variable {α : Type u} {n head tail : Nat} {slot : Nat → α} {q : List α} {x y : α}

/-- Positions at distance less than `n` from each other have different slots. -/
theorem slot_inj (head : Nat) (hij : i < j) (hj : j < n) : (head + i) % n ≠ (head + j) % n := by
  intro h
  have hd := Nat.dvd_of_mod_eq_zero (Nat.sub_mod_eq_zero_of_mod_eq h.symm)
  have := Nat.le_of_dvd (by omega) hd
  omega

theorem tail_lt (h : Ring n head tail slot q) : tail < n := by
  rw [h.tail_eq]
  exact Nat.mod_lt _ (Nat.zero_lt_of_lt h.head_lt)

theorem empty (hn : 0 < n) : Ring n 0 0 slot ([] : List α) :=
  ⟨hn, hn, by simp, by simp⟩

/-- The queue is empty exactly where the two indices meet. -/
theorem head_eq_tail (h : Ring n head tail slot q) : head = tail ↔ q = [] := by
  constructor
  · intro he
    by_contra hq
    have := slot_inj head (List.length_pos_iff.mpr hq) h.length_lt
    rw [← h.tail_eq, Nat.add_zero, Nat.mod_eq_of_lt h.head_lt] at this
    exact this he
  · rintro rfl
    simpa [Nat.mod_eq_of_lt h.head_lt] using h.tail_eq.symm

/-- The number of elements, read off the two indices. -/
theorem count (h : Ring n head tail slot q) : (tail + n - head) % n = q.length := by
  have hh := h.head_lt
  have hl := h.length_lt
  rcases Nat.lt_or_ge (head + q.length) n with hs | hs
  · have : tail + n - head = q.length + n := by
      rw [h.tail_eq, Nat.mod_eq_of_lt hs]
      omega
    rw [this, Nat.add_mod_right, Nat.mod_eq_of_lt hl]
  · have : tail + n - head = q.length := by
      rw [h.tail_eq, Nat.mod_eq_sub_mod hs, Nat.mod_eq_of_lt (by omega)]
      omega
    rw [this, Nat.mod_eq_of_lt hl]

/-- With room for one more element the tail is not right behind the head. -/
theorem not_full (h : Ring n head tail slot q) (hq : q.length + 1 < n) : tail + 1 ≠ head := by
  intro he
  have hc := h.count
  have ht : tail + n - head = n - 1 := by omega
  rw [ht, Nat.mod_eq_of_lt (by omega)] at hc
  omega

theorem store (h : Ring n head tail slot q) (x : α) :
    Ring n head tail (update slot tail x) q := by
  refine ⟨h.head_lt, h.length_lt, h.tail_eq, fun i y hi => ?_⟩
  have hi' := (List.getElem?_eq_some_iff.mp hi).1
  rw [Function.update_of_ne (h.tail_eq ▸ slot_inj head hi' h.length_lt)]
  exact h.entry i y hi

theorem push (h : Ring n head tail slot q) (hq : q.length + 1 < n) (hx : slot tail = x) :
    Ring n head ((tail + 1) % n) slot (q ++ [x]) := by
  refine ⟨h.head_lt, by simpa using hq, ?_, fun i y hi => ?_⟩
  · rw [h.tail_eq, Nat.mod_add_mod, List.length_append, List.length_singleton, Nat.add_assoc]
  · rcases Nat.lt_trichotomy i q.length with hl | rfl | hl
    · rw [List.getElem?_append_left hl] at hi
      exact h.entry i y hi
    · obtain rfl : x = y := by simpa using hi
      rwa [← h.tail_eq]
    · rw [List.getElem?_eq_none (by simpa using Nat.succ_le_of_lt hl)] at hi
      simp at hi

theorem front (h : Ring n head tail slot (x :: q)) : slot head = x := by
  simpa [Nat.mod_eq_of_lt h.head_lt] using h.entry 0 x rfl

/-- The head slot may be overwritten once its element is taken out. -/
theorem pop (h : Ring n head tail slot (x :: q)) (y : α) :
    Ring n ((head + 1) % n) tail (update slot head y) q := by
  have hn : 0 < n := Nat.zero_lt_of_lt h.head_lt
  have hl : q.length + 1 < n := h.length_lt
  refine ⟨Nat.mod_lt _ hn, by omega, ?_, fun i z hi => ?_⟩
  · rw [h.tail_eq, Nat.mod_add_mod, List.length_cons, Nat.add_assoc, Nat.add_comm 1]
  · have hi' := (List.getElem?_eq_some_iff.mp hi).1
    have hne := slot_inj head (Nat.succ_pos i) (Nat.lt_trans (Nat.succ_lt_succ hi') hl)
    rw [Nat.add_zero, Nat.mod_eq_of_lt h.head_lt] at hne
    rw [Nat.mod_add_mod, Nat.add_assoc, Nat.add_comm 1, Function.update_of_ne hne.symm]
    exact h.entry (i + 1) z (by simpa using hi)

end Ring

end Lib
