import Mathlib.Data.List.Basic

/-!
# Lists as files

A list is read from an offset on, and written over from an offset on, which may
be its end: then it grows.
-/

namespace Lib

universe u

variable {α : Type u} {data src : List α} {off n i : Nat}

def overwrite (data : List α) (off : Nat) (src : List α) : List α :=
  data.take off ++ (src ++ data.drop (off + src.length))

theorem length_overwrite (h : off ≤ data.length) :
    (overwrite data off src).length = max data.length (off + src.length) := by
  simp only [overwrite, List.length_append, List.length_take, List.length_drop]
  omega

/-- Each element is the new one where there is one. -/
theorem getElem?_overwrite (h : off ≤ data.length) (i : Nat) : (overwrite data off src)[i]? =
    if off ≤ i ∧ i < off + src.length then src[i - off]? else data[i]? := by
  have hlen : (data.take off).length = off := by
    rw [List.length_take]
    omega
  unfold overwrite
  by_cases hlo : i < off
  · rw [List.getElem?_append_left (by omega), List.getElem?_take_of_lt hlo, if_neg (by omega)]
  · rw [List.getElem?_append_right (by omega), hlen]
    by_cases hhi : i < off + src.length
    · rw [List.getElem?_append_left (by omega), if_pos (by omega)]
    · rw [List.getElem?_append_right (by omega), List.getElem?_drop, if_neg (by omega)]
      congr 1
      omega

/-- What is written is read back. -/
theorem read_overwrite (h : off ≤ data.length) :
    ((overwrite data off src).drop off).take src.length = src := by
  have hlen : (data.take off).length = off := by
    rw [List.length_take]
    omega
  rw [overwrite, List.drop_append_of_le_length (by omega), List.drop_eq_nil_of_le (by omega),
    List.nil_append, List.take_left']
  rfl

/-- What lies before or behind what is written is read as it was. -/
theorem read_overwrite_other (h : off ≤ data.length) (hi : i + n ≤ off ∨ off + src.length ≤ i) :
    ((overwrite data off src).drop i).take n = (data.drop i).take n := by
  apply List.ext_getElem?
  intro j
  by_cases hj : j < n
  · rw [List.getElem?_take_of_lt hj, List.getElem?_take_of_lt hj, List.getElem?_drop,
      List.getElem?_drop, getElem?_overwrite h, if_neg (by omega)]
  · rw [List.getElem?_eq_none (by rw [List.length_take]; omega),
      List.getElem?_eq_none (by rw [List.length_take]; omega)]

/-- A file given by its bytes, part of which are new. -/
theorem map_range_overwrite {f g : Nat → α} (default : α) (h : off ≤ n)
    (hf : ∀ i, f i = if off ≤ i ∧ i < off + src.length then src.getD (i - off) default else g i) :
    (List.range (max n (off + src.length))).map f =
      overwrite ((List.range n).map g) off src := by
  have hlen : ((List.range n).map g).length = n := by simp
  apply List.ext_getElem?
  intro i
  rw [getElem?_overwrite (by omega), List.getElem?_map, List.getElem?_map]
  by_cases hin : off ≤ i ∧ i < off + src.length
  · rw [if_pos hin, List.getElem?_range (by omega), Option.map_some, hf, if_pos hin,
      List.getD_eq_getElem?_getD, List.getElem?_eq_getElem (by omega), Option.getD_some]
  · rw [if_neg hin]
    by_cases hi : i < n
    · rw [List.getElem?_range (by omega), List.getElem?_range hi, Option.map_some, Option.map_some,
        hf, if_neg hin]
    · rw [List.getElem?_eq_none (by rw [List.length_range]; omega),
        List.getElem?_eq_none (by rw [List.length_range]; omega)]
      rfl

theorem map_range_read (g : Nat → α) (h : off + i ≤ n) :
    (((List.range n).map g).drop off).take i = (List.range i).map fun j => g (off + j) := by
  apply List.ext_getElem?
  intro j
  by_cases hj : j < i
  · rw [List.getElem?_take_of_lt hj, List.getElem?_drop, List.getElem?_map, List.getElem?_map,
      List.getElem?_range (by omega), List.getElem?_range hj, Option.map_some, Option.map_some]
  · rw [List.getElem?_eq_none (by rw [List.length_take]; omega),
      List.getElem?_eq_none (by simp; omega)]

end Lib
