import Mathlib.Data.List.Basic
import PerrOS.User.Format

/-!
# Counting words

`wc` looks at each byte once, whatever the buffers that `read` fills, and counts
a word where it enters one.
-/

namespace PerrOS.User

def newline : Byte := letter '\n'

/-- The rest of the string from `c` on. -/
def strchr : List Byte → Byte → Option (List Byte)
  | [], _ => none
  | x :: s, c => if x = c then some (x :: s) else strchr s c

def blanks : List Byte := [letter ' ', letter '\r', letter '\t', newline, 11]

structure Counts where
  l : Word
  w : Word
  c : Word
  inword : Bool

namespace Counts

/-- A turn of the inner loop. -/
def count (s : Counts) (x : Byte) : Counts :=
  let s := { s with c := s.c + 1 }
  let s := if x = newline then { s with l := s.l + 1 } else s
  if (strchr blanks x).isSome then { s with inword := false }
  else if s.inword then s
  else { s with w := s.w + 1, inword := true }

end Counts

/-- `wc` of the buffers that are read. -/
def wc (bufs : List (List Byte)) : Counts :=
  bufs.foldl (fun s buf => buf.foldl Counts.count s) ⟨0, 0, 0, false⟩

-- ---------------------------------------------------------------------------
-- Words
-- ---------------------------------------------------------------------------

/-- What stands between blanks. -/
noncomputable def pieces (text : List Byte) : List (List Byte) :=
  text.splitOnP fun x => decide (x ∈ blanks)

noncomputable def words (text : List Byte) : List (List Byte) :=
  (pieces text).filter (!·.isEmpty)

theorem strchr_isSome (s : List Byte) (c : Byte) : (strchr s c).isSome ↔ c ∈ s := by
  induction s with
  | nil => simp [strchr]
  | cons x s ih =>
    rw [strchr, List.mem_cons]
    split
    · rename_i hx
      exact iff_of_true rfl (.inl hx.symm)
    · rename_i hx
      rw [ih, or_iff_right (Ne.symm hx)]

/-- The words that are entered: the first piece goes on with the word that has been entered. -/
noncomputable def entered (inword : Bool) (text : List Byte) : Nat :=
  if inword then ((pieces text).tail.filter (!·.isEmpty)).length else (words text).length

variable {x : Byte} {text : List Byte}

theorem entered_blank (hx : x ∈ blanks) (inword : Bool) :
    entered inword (x :: text) = entered false text := by
  have hpieces : pieces (x :: text) = [] :: pieces text := by
    unfold pieces
    rw [List.splitOnP_cons_eq_if_modifyHead, if_pos (decide_eq_true hx)]
  unfold entered words
  rw [hpieces]
  cases inword <;> rfl

theorem entered_letter (hx : x ∉ blanks) (inword : Bool) :
    entered inword (x :: text) = (if inword then 0 else 1) + entered true text := by
  obtain ⟨p, ps, hp⟩ := List.exists_cons_of_ne_nil
    (List.splitOnP_ne_nil (fun x => decide (x ∈ blanks)) text)
  have hpieces : pieces (x :: text) = (x :: p) :: ps := by
    unfold pieces
    rw [List.splitOnP_cons_eq_if_modifyHead, if_neg (by simpa using hx), hp]
    rfl
  unfold entered words
  rw [hpieces, show pieces text = p :: ps from hp]
  cases inword with
  | true => exact (Nat.zero_add _).symm
  | false => exact Nat.add_comm _ 1

-- ---------------------------------------------------------------------------
-- Counts
-- ---------------------------------------------------------------------------

namespace Counts

variable (s : Counts)

theorem count_c (x : Byte) : (s.count x).c = s.c + 1 := by
  unfold count
  by_cases hn : x = newline <;> cases strchr blanks x <;> cases s.inword <;> simp [hn]

theorem count_l (x : Byte) : (s.count x).l = s.l + .ofNat 32 (if x = newline then 1 else 0) := by
  unfold count
  by_cases hn : x = newline <;> cases strchr blanks x <;> cases s.inword <;> simp [hn]

theorem count_blank (hx : x ∈ blanks) :
    (s.count x).inword = false ∧ (s.count x).w = s.w := by
  have hfound := (strchr_isSome blanks x).mpr hx
  unfold count
  simp only [hfound, if_true]
  split <;> simp

theorem count_letter (hx : x ∉ blanks) :
    (s.count x).inword = true ∧
      (s.count x).w = s.w + .ofNat 32 (if s.inword then 0 else 1) := by
  have hnone : (strchr blanks x).isSome = false := by
    rw [← Bool.not_eq_true, strchr_isSome]
    exact hx
  unfold count
  simp only [hnone, Bool.false_eq_true, if_false]
  by_cases hn : x = newline <;> cases s.inword <;> simp [hn]

end Counts

/-- What the rest of the text adds to the counts. -/
structure Adds (s t : Counts) (text : List Byte) : Prop where
  l : t.l = s.l + .ofNat 32 (text.count newline)
  w : t.w = s.w + .ofNat 32 (entered s.inword text)
  c : t.c = s.c + .ofNat 32 text.length

theorem Adds.nil (s : Counts) : Adds s s [] where
  l := (BitVec.add_zero _).symm
  w := by
    have hnone : entered s.inword [] = 0 := by
      unfold entered words pieces
      rw [List.splitOnP_nil]
      cases s.inword <;> rfl
    rw [hnone]
    exact (BitVec.add_zero _).symm
  c := (BitVec.add_zero _).symm

theorem Adds.cons {s t : Counts} (h : Adds (s.count x) t text) : Adds s t (x :: text) where
  l := by
    rw [h.l, s.count_l, BitVec.add_assoc, ← BitVec.ofNat_add, List.count_cons, Nat.add_comm]
    simp only [beq_iff_eq]
  w := by
    by_cases hx : x ∈ blanks
    · rw [h.w, (s.count_blank hx).1, (s.count_blank hx).2, entered_blank hx]
    · rw [h.w, (s.count_letter hx).1, (s.count_letter hx).2, entered_letter hx, BitVec.add_assoc,
        ← BitVec.ofNat_add]
  c := by
    rw [h.c, s.count_c, BitVec.add_assoc, List.length_cons, Nat.add_comm, BitVec.ofNat_add]
    rfl

theorem foldl_adds (s : Counts) (text : List Byte) : Adds s (text.foldl Counts.count s) text := by
  induction text generalizing s with
  | nil => exact .nil s
  | cons x text ih => exact .cons (ih (s.count x))

/-- The counts are those of the text, however it is cut into buffers. -/
theorem wc_counts (bufs : List (List Byte)) :
    (wc bufs).l = .ofNat 32 (bufs.flatten.count newline) ∧
      (wc bufs).w = .ofNat 32 (words bufs.flatten).length ∧
      (wc bufs).c = .ofNat 32 bufs.flatten.length := by
  obtain ⟨hl, hw, hc⟩ := foldl_adds ⟨0, 0, 0, false⟩ bufs.flatten
  rw [List.foldl_flatten] at hl hw hc
  exact ⟨hl.trans (BitVec.zero_add _), hw.trans (BitVec.zero_add _), hc.trans (BitVec.zero_add _)⟩

end PerrOS.User
