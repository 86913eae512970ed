import Mathlib.Data.List.Basic

/-!
# Lists kept by recency

Whatever is used goes to the front of the list. The list is then sorted by how
long ago its elements were last used, so a search from its end finds the
element that has been unused for longest.
-/

namespace Lib.Recency

universe u

variable {α : Type u} [DecidableEq α] {uses order : List α} {a b : α} {free : α → Bool}

def toFront (a : α) (order : List α) : List α := a :: order.erase a

/-- How many uses ago the element was last used: 0 for the last use. The uses are listed oldest
first. -/
def age (uses : List α) (a : α) : Nat := uses.reverse.idxOf a

theorem age_concat (uses : List α) (a b : α) :
    age (uses ++ [a]) b = if a = b then 0 else age uses b + 1 := by
  rw [age, List.reverse_append, List.reverse_singleton, List.singleton_append, List.idxOf_cons]
  by_cases h : a = b
  · simp [h]
  · simp [h, age, beq_eq_false_iff_ne.mpr h]

/-- Sorted by age, most recent first. -/
def Sorted (uses order : List α) : Prop := order.Pairwise fun a b => age uses a ≤ age uses b

theorem sorted_nil (order : List α) : Sorted [] order :=
  List.pairwise_of_forall fun _ _ => Nat.le_refl _

theorem Sorted.toFront (h : Sorted uses order) (hnodup : order.Nodup) (a : α) :
    Sorted (uses ++ [a]) (toFront a order) := by
  refine List.pairwise_cons.mpr ⟨fun b _ => ?_, ?_⟩
  · rw [age_concat, if_pos rfl]
    exact Nat.zero_le _
  · refine (h.sublist (List.erase_sublist)).imp_of_mem fun {b c} hb hc hle => ?_
    have hne {b : α} (hb : b ∈ order.erase a) : a ≠ b := (hnodup.mem_erase_iff.mp hb).1.symm
    rw [age_concat, age_concat, if_neg (hne hb), if_neg (hne hc)]
    exact Nat.succ_le_succ hle

theorem toFront_nodup (hnodup : order.Nodup) (a : α) : (toFront a order).Nodup :=
  List.nodup_cons.mpr ⟨fun h => (hnodup.mem_erase_iff.mp h).1 rfl, hnodup.erase a⟩

theorem mem_toFront (h : b ∈ order) : b ∈ toFront a order := by
  rw [toFront, List.mem_cons]
  by_cases he : b = a
  · exact .inl he
  · exact .inr (List.mem_erase_of_ne he |>.mpr h)

/-- The first free element from the end is one that has been unused for longest. -/
theorem Sorted.age_le (h : Sorted uses order) (hfind : order.reverse.find? free = some a)
    (hb : b ∈ order) (hfree : free b = true) : age uses b ≤ age uses a := by
  obtain ⟨ha, later, earlier, heq, hnone⟩ := List.find?_eq_some_iff_append.mp hfind
  have horder : order = earlier.reverse ++ a :: later.reverse := by
    rw [← List.reverse_reverse order, heq]
    simp
  rw [horder, List.mem_append, List.mem_cons, List.mem_reverse, List.mem_reverse] at hb
  rw [horder] at h
  rcases hb with hb | rfl | hb
  · exact (List.pairwise_append.mp h).2.2 b (List.mem_reverse.mpr hb) a (List.mem_cons_self ..)
  · exact Nat.le_refl _
  · have := hnone b hb
    rw [hfree] at this
    cases this

end Lib.Recency
