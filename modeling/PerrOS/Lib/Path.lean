import Mathlib.Data.List.Basic

/-!
# Null-terminated linked lists

`Path next p L q`: following `next` from `p` visits the nodes `L`, in order,
and arrives at `q`; the null pointer is `0` and is no node. A linked list is a
path to `0`. A path reads the pointers of its own nodes alone, so that an edit
of other nodes leaves it as it is.
-/

namespace Lib

/-- A walk through `next`. -/
def Path (next : Nat → Nat) : Nat → List Nat → Nat → Prop
  | p, [], q => p = q
  | p, a :: L, q => p = a ∧ a ≠ 0 ∧ Path next (next a) L q

namespace Path

@[simp] theorem nil_iff : Path next p [] q ↔ p = q := Iff.rfl

@[simp] theorem cons_iff : Path next p (a :: L) q ↔ p = a ∧ a ≠ 0 ∧ Path next (next a) L q :=
  Iff.rfl

theorem append_iff : Path next p (A ++ B) q ↔ ∃ r, Path next p A r ∧ Path next r B q := by
  induction A generalizing p with
  | nil => simp
  | cons a A ih =>
    simp only [List.cons_append, cons_iff, ih]
    constructor
    · rintro ⟨hp, ha, r, hA, hB⟩
      exact ⟨r, ⟨hp, ha, hA⟩, hB⟩
    · rintro ⟨r, ⟨hp, ha, hA⟩, hB⟩
      exact ⟨hp, ha, r, hA, hB⟩

/-- A path through `A ++ a :: B` passes `a`. -/
theorem split_iff : Path next p (A ++ a :: B) q ↔
    Path next p A a ∧ a ≠ 0 ∧ Path next (next a) B q := by
  rw [append_iff]
  constructor
  · rintro ⟨r, hA, rfl, ha, hB⟩
    exact ⟨hA, ha, hB⟩
  · rintro ⟨hA, ha, hB⟩
    exact ⟨a, hA, rfl, ha, hB⟩

/-- A path reads only the pointers of its own nodes. -/
theorem congr (h : Path next p L q) (hn : ∀ a ∈ L, next' a = next a) : Path next' p L q := by
  induction L generalizing p with
  | nil => exact h
  | cons a L ih =>
    obtain ⟨hp, ha, hL⟩ := h
    refine ⟨hp, ha, ?_⟩
    rw [hn a List.mem_cons_self]
    exact ih hL fun b hb => hn b (List.mem_cons_of_mem _ hb)

theorem ne_zero (h : Path next p L q) : ∀ a ∈ L, a ≠ 0 := by
  induction L generalizing p with
  | nil => simp
  | cons a L ih =>
    obtain ⟨-, ha, hL⟩ := h
    intro b hb
    rcases List.mem_cons.mp hb with rfl | hb
    · exact ha
    · exact ih hL b hb

/-- A node's pointer leads to another node of the path or to its end. -/
theorem next_mem (h : Path next p L q) (ha : a ∈ L) : next a = q ∨ next a ∈ L := by
  induction L generalizing p with
  | nil => simp at ha
  | cons b L ih =>
    obtain ⟨-, -, hL⟩ := h
    rcases List.mem_cons.mp ha with rfl | ha
    · cases L with
      | nil => exact .inl hL
      | cons c L => exact .inr (by simp [hL.1])
    · exact (ih hL ha).imp_right (List.mem_cons_of_mem b)

-- ---------------------------------------------------------------------------
-- Going round
-- ---------------------------------------------------------------------------

/-- Following `next`, and starting again from `head` at the end of the list. -/
def wrap (head : Nat) (next : Nat → Nat) (a : Nat) : Nat :=
  if next a = 0 then head else next a

theorem wrap_prefix (h : Path next p A q) (hq : q ≠ 0) : Path (wrap head next) p A q := by
  induction A generalizing p with
  | nil => exact h
  | cons a A ih =>
    obtain ⟨hp, ha, hA⟩ := h
    refine ⟨hp, ha, ?_⟩
    have hne : next a ≠ 0 := by
      cases A with
      | nil => exact hA ▸ hq
      | cons b A => exact hA.1 ▸ hA.2.1
    rw [wrap, if_neg hne]
    exact ih hA

theorem wrap_suffix (h : Path next p (a :: B) 0) : Path (wrap head next) p (a :: B) head := by
  induction B generalizing p a with
  | nil =>
    obtain ⟨hp, ha, hn⟩ := h
    exact ⟨hp, ha, if_pos hn⟩
  | cons b B ih =>
    obtain ⟨hp, ha, hB⟩ := h
    refine ⟨hp, ha, ?_⟩
    have hne : next a ≠ 0 := hB.1 ▸ hB.2.1
    rw [wrap, if_neg hne]
    exact ih hB

/-- Going round a null-terminated list from any of its nodes visits every
node once and returns to that node. -/
theorem rotate (h : Path next head (A ++ a :: B) 0) :
    Path (wrap head next) a (a :: B ++ A) a := by
  obtain ⟨hA, ha, hB⟩ := split_iff.mp h
  have hsuf : Path next a (a :: B) 0 := ⟨rfl, ha, hB⟩
  exact append_iff.mpr ⟨head, wrap_suffix hsuf, wrap_prefix hA ha⟩

/-- A null-terminated list is determined by its first pointer. -/
theorem unique (h : Path next p L 0) (h' : Path next p L' 0) : L = L' := by
  induction L generalizing p L' with
  | nil =>
    cases L' with
    | nil => rfl
    | cons b L' =>
      obtain ⟨rfl, hb, -⟩ := h'
      exact absurd h hb
  | cons a L ih =>
    obtain ⟨rfl, ha, hL⟩ := h
    cases L' with
    | nil => exact absurd h' ha
    | cons b L' =>
      obtain ⟨rfl, -, hL'⟩ := h'
      rw [ih hL hL']

/-- The list is empty exactly at the null pointer. -/
theorem eq_nil_iff (h : Path next p L 0) : L = [] ↔ p = 0 := by
  cases L with
  | nil => simpa using h
  | cons a L =>
    obtain ⟨rfl, ha, -⟩ := h
    simp [ha]

end Path

end Lib
