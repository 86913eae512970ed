import Mathlib.Data.List.Basic

/-!
# Lines of a stream

A stream is a sequence of lines, each with the separator that ends it; only the
last may lack one. A reader with a buffer takes a line at a time, or as much of
it as the buffer has room for.
-/

namespace Lib

universe u

variable {α : Type u} [DecidableEq α] {sep : α} {n : Nat} {xs l : List α} {ls : List (List α)}

def lines (sep : α) : List α → List (List α)
  | [] => []
  | x :: xs =>
    if x = sep then [x] :: lines sep xs
    else match lines sep xs with
      | [] => [[x]]
      | l :: ls => (x :: l) :: ls

/-- What a reader with room for so many takes of a stream. -/
def readLine (sep : α) : Nat → List α → List α
  | 0, _ => []
  | _ + 1, [] => []
  | n + 1, x :: xs => if x = sep then [x] else x :: readLine sep n xs

theorem lines_eq_nil : lines sep xs = [] ↔ xs = [] := by
  cases xs with
  | nil => simp [lines]
  | cons x xs =>
    simp only [lines, reduceCtorEq, iff_false]
    split
    · simp
    · split <;> simp

/-- The first line and the lines of what follows it. -/
theorem lines_cons (h : lines sep xs = l :: ls) :
    ∃ ys, xs = l ++ ys ∧ l ≠ [] ∧ lines sep ys = ls := by
  induction xs generalizing l ls with
  | nil => simp [lines] at h
  | cons x xs ih =>
    simp only [lines] at h
    split at h
    · cases h
      exact ⟨xs, rfl, by simp, rfl⟩
    · split at h
      · next hnil =>
        cases h
        exact ⟨[], by simpa using lines_eq_nil.mp hnil, by simp, rfl⟩
      · next l' ls' hcons =>
        cases h
        obtain ⟨ys, rfl, -, hys⟩ := ih hcons
        exact ⟨ys, rfl, by simp, hys⟩

theorem lines_of_not_mem (hne : xs ≠ []) (h : sep ∉ xs) : lines sep xs = [xs] := by
  induction xs with
  | nil => exact absurd rfl hne
  | cons x xs ih =>
    rw [List.mem_cons, not_or] at h
    simp only [lines, if_neg (Ne.symm h.1)]
    by_cases hnil : xs = []
    · rw [hnil, lines]
    · rw [ih hnil h.2]

theorem readLine_eq (n : Nat) (xs : List α) :
    readLine sep n xs = ((lines sep xs).headD []).take n := by
  induction xs generalizing n with
  | nil => cases n <;> simp [readLine, lines]
  | cons x xs ih =>
    cases n with
    | zero => simp [readLine]
    | succ n =>
      simp only [readLine, lines]
      split
      · simp
      · rw [ih]
        split
        · next hnil => simp [hnil]
        · next hcons => simp [hcons]

theorem readLine_initial (sep : α) (n : Nat) (xs : List α) : readLine sep n xs <+: xs := by
  induction xs generalizing n with
  | nil => cases n <;> simp [readLine]
  | cons x xs ih =>
    cases n with
    | zero => simp [readLine]
    | succ n =>
      simp only [readLine]
      split
      · simp
      · simpa using ih n

theorem length_readLine_le (n : Nat) (xs : List α) : (readLine sep n xs).length ≤ n := by
  rw [readLine_eq]
  exact List.length_take_le ..

theorem readLine_eq_nil : readLine sep (n + 1) xs = [] ↔ xs = [] := by
  cases xs with
  | nil => simp [readLine]
  | cons x xs =>
    simp only [readLine, reduceCtorEq, iff_false]
    split <;> simp

theorem append_drop_readLine (n : Nat) (xs : List α) :
    readLine sep n xs ++ xs.drop (readLine sep n xs).length = xs :=
  List.prefix_iff_eq_append.mp (readLine_initial sep n xs)

theorem length_drop_readLine (h : readLine sep (n + 1) xs ≠ []) :
    (xs.drop (readLine sep (n + 1) xs).length).length < xs.length := by
  have hpos := List.length_pos_of_ne_nil h
  have hle := (readLine_initial sep (n + 1) xs).length_le
  rw [List.length_drop]
  omega

/-- What a reader with room for `n + 1` takes of a stream, one after another. -/
def chunks (sep : α) (n : Nat) (xs : List α) : List (List α) :=
  if h : readLine sep (n + 1) xs = [] then []
  else readLine sep (n + 1) xs :: chunks sep n (xs.drop (readLine sep (n + 1) xs).length)
termination_by xs.length
decreasing_by exact length_drop_readLine h

theorem chunks_eq_nil (h : readLine sep (n + 1) xs = []) : chunks sep n xs = [] := by
  rw [chunks, dif_pos h]

theorem chunks_eq_cons (h : readLine sep (n + 1) xs ≠ []) :
    chunks sep n xs =
      readLine sep (n + 1) xs :: chunks sep n (xs.drop (readLine sep (n + 1) xs).length) := by
  rw [chunks, dif_neg h]

theorem chunks_flatten (n : Nat) (xs : List α) : (chunks sep n xs).flatten = xs := by
  fun_induction chunks sep n xs with
  | case1 xs h => simpa using (readLine_eq_nil.mp h).symm
  | case2 xs h ih => rw [List.flatten_cons, ih, append_drop_readLine]

/-- No piece fills the buffer just where no line is too long for it. -/
theorem forall_chunks_length_iff (n : Nat) (xs : List α) :
    (∀ c ∈ chunks sep n xs, c.length < n + 1) ↔ ∀ l ∈ lines sep xs, l.length < n + 1 := by
  fun_induction chunks sep n xs with
  | case1 xs h =>
    obtain rfl := readLine_eq_nil.mp h
    simp [lines]
  | case2 xs h ih =>
    cases hl : lines sep xs with
    | nil => exact absurd (readLine_eq_nil.mpr (lines_eq_nil.mp hl)) h
    | cons l ls =>
      obtain ⟨ys, rfl, -, rfl⟩ := lines_cons hl
      have hread : readLine sep (n + 1) (l ++ ys) = l.take (n + 1) := by
        rw [readLine_eq, hl, List.headD_cons]
      rw [List.forall_mem_cons, List.forall_mem_cons, hread]
      by_cases hlong : l.length < n + 1
      · rw [hread, List.take_of_length_le (by omega), List.drop_left] at ih
        rw [List.take_of_length_le (by omega), List.drop_left, ih]
      · refine iff_of_false (fun hshort => ?_) fun hshort => hlong hshort.1
        have := hshort.1
        rw [List.length_take] at this
        omega

/-- Pieces of which none shrinks join to the same only where each is kept. -/
theorem flatMap_eq_flatten_iff {f : List α → List α} {cs : List (List α)}
    (h : ∀ c ∈ cs, f c = c ∨ c.length < (f c).length) :
    cs.flatMap f = cs.flatten ↔ ∀ c ∈ cs, f c = c := by
  constructor
  · intro heq
    have hlen := congrArg List.length heq
    clear heq
    suffices hle : cs.flatten.length ≤ (cs.flatMap f).length ∧
        ((cs.flatMap f).length = cs.flatten.length → ∀ c ∈ cs, f c = c) from hle.2 hlen
    clear hlen
    induction cs with
    | nil => simp
    | cons c cs ih =>
      obtain ⟨hle, hkept⟩ := ih fun d hd => h d (List.mem_cons_of_mem c hd)
      simp only [List.flatMap_cons, List.flatten_cons, List.length_append, List.forall_mem_cons]
      rcases h c List.mem_cons_self with hc | hc
      · rw [hc]
        exact ⟨by omega, fun hsum => ⟨rfl, hkept (by omega)⟩⟩
      · exact ⟨by omega, fun hsum => by omega⟩
  · intro hkept
    rw [List.flatMap_def, List.map_congr_left hkept, List.map_id']

end Lib
