import Mathlib.Data.List.Basic
import Mathlib.Logic.Function.Basic

/-!
# Tables of slots

A map kept in an array of slots, each empty or with a key and a value, where no
key is in two slots. A key is looked up from the first slot on; a new one goes
into any empty slot or behind the last.
-/

namespace Lib

open Function (update)

universe u v

structure Table (κ : Type u) (ν : Type v) where
  length : Nat
  slot : Nat → Option (κ × ν)

namespace Table

variable {κ : Type u} {ν : Type v} [DecidableEq κ] {t t' : Table κ ν} {i j : Nat} {k k' : κ}
  {x y : ν}

/-- The first slot with the key. -/
def find (t : Table κ ν) (k : κ) : Option Nat :=
  (List.range t.length).find? fun i => (t.slot i).any (·.1 = k)

def get (t : Table κ ν) (k : κ) : Option ν := (t.find k).bind fun i => (t.slot i).map (·.2)

/-- The first empty slot, or the one behind the last. -/
def vacant (t : Table κ ν) : Nat :=
  ((List.range t.length).find? fun i => (t.slot i).isNone).getD t.length

/-- No key is in two slots. -/
def Unique (t : Table κ ν) : Prop := ∀ i j k x y, i < t.length → j < t.length →
  t.slot i = some (k, x) → t.slot j = some (k, y) → i = j

theorem find_eq_some : t.find k = some i ↔ i < t.length ∧ (∃ x, t.slot i = some (k, x)) ∧
    ∀ j < i, ∀ x, t.slot j ≠ some (k, x) := by
  have hany (j : Nat) : (t.slot j).any (·.1 = k) = true ↔ ∃ x, t.slot j = some (k, x) := by
    rw [Option.any_eq_true]
    constructor
    · rintro ⟨⟨k', x⟩, hx, hk⟩
      obtain rfl : k' = k := of_decide_eq_true hk
      exact ⟨x, hx⟩
    · rintro ⟨x, hx⟩
      exact ⟨(k, x), hx, decide_eq_true rfl⟩
  rw [find, List.find?_range_eq_some, List.mem_range, hany]
  constructor
  · rintro ⟨hx, hi, hall⟩
    refine ⟨hi, hx, fun j hj x hx => ?_⟩
    have := hall j hj
    rw [(hany j).mpr ⟨x, hx⟩] at this
    cases this
  · rintro ⟨hi, hx, hall⟩
    refine ⟨hx, hi, fun j hj => ?_⟩
    rw [Bool.not_eq_true', ← Bool.not_eq_true, hany]
    exact fun ⟨x, hx⟩ => hall j hj x hx

theorem find_eq_none : t.find k = none ↔ ∀ i < t.length, ∀ x, t.slot i ≠ some (k, x) := by
  rw [find, List.find?_eq_none]
  constructor
  · intro h i hi x hx
    refine h i (List.mem_range.mpr hi) ?_
    rw [hx]
    exact decide_eq_true rfl
  · intro h i hi hany
    obtain ⟨⟨k', x⟩, hx, hk⟩ := (Option.any_eq_true _ _).mp hany
    obtain rfl : k' = k := of_decide_eq_true hk
    exact h i (List.mem_range.mp hi) x hx

theorem get_of_find (h : t.find k = some i) : ∃ x, t.slot i = some (k, x) ∧ t.get k = some x := by
  obtain ⟨-, ⟨x, hx⟩, -⟩ := find_eq_some.mp h
  exact ⟨x, hx, by rw [get, h, Option.bind_some, hx, Option.map_some]⟩

theorem get_eq_none : t.get k = none ↔ t.find k = none := by
  cases h : t.find k with
  | none => simp [get, h]
  | some i =>
    obtain ⟨x, -, hx⟩ := get_of_find h
    simp [hx]

omit [DecidableEq κ] in
theorem vacant_eq (hle : j ≤ t.length) (hempty : j < t.length → t.slot j = none)
    (hfull : ∀ i < j, t.slot i ≠ none) : t.vacant = j := by
  unfold vacant
  rcases Nat.lt_or_eq_of_le hle with hlt | rfl
  · have hfind : (List.range t.length).find? (fun i => (t.slot i).isNone) = some j := by
      rw [List.find?_range_eq_some, hempty hlt]
      refine ⟨rfl, List.mem_range.mpr hlt, fun i hi => ?_⟩
      rw [Bool.not_eq_true', Option.isNone_eq_false_iff, ← Option.ne_none_iff_isSome]
      exact hfull i hi
    rw [hfind, Option.getD_some]
  · have hfind : (List.range t.length).find? (fun i => (t.slot i).isNone) = none := by
      rw [List.find?_eq_none]
      intro i hi hnone
      exact hfull i (List.mem_range.mp hi) (Option.isNone_iff_eq_none.mp hnone)
    rw [hfind, Option.getD_none]

omit [DecidableEq κ] in
theorem vacant_le (t : Table κ ν) : t.vacant ≤ t.length := by
  unfold vacant
  cases h : (List.range t.length).find? fun i => (t.slot i).isNone with
  | none => exact Nat.le_refl _
  | some i => exact Nat.le_of_lt (List.mem_range.mp (List.mem_of_find?_eq_some h))

omit [DecidableEq κ] in
theorem slot_vacant (h : t.vacant < t.length) : t.slot t.vacant = none := by
  unfold vacant at *
  cases hf : (List.range t.length).find? fun i => (t.slot i).isNone with
  | none =>
    rw [hf] at h
    exact absurd h (Nat.lt_irrefl _)
  | some i =>
    have hnone := List.find?_some hf
    exact Option.isNone_iff_eq_none.mp hnone

theorem Unique.get_eq_some (hu : t.Unique) :
    t.get k = some x ↔ ∃ i < t.length, t.slot i = some (k, x) := by
  constructor
  · intro h
    cases hf : t.find k with
    | none => simp [get, hf] at h
    | some i =>
      obtain ⟨y, hy, hget⟩ := get_of_find hf
      cases hget.symm.trans h
      exact ⟨i, (find_eq_some.mp hf).1, hy⟩
  · rintro ⟨i, hi, hx⟩
    cases hf : t.find k with
    | none => exact absurd hx (find_eq_none.mp hf i hi x)
    | some j =>
      obtain ⟨y, hy, hget⟩ := get_of_find hf
      obtain rfl := hu i j k x y hi (find_eq_some.mp hf).1 hx hy
      cases hx.symm.trans hy
      exact hget

/-- `t'` is `t` with the slot `j` replaced, where `j` may be behind the last. -/
structure Put (t : Table κ ν) (j : Nat) (e : Option (κ × ν)) (t' : Table κ ν) : Prop where
  le : j ≤ t.length
  length : t'.length = max t.length (j + 1)
  slot : ∀ i < t'.length, t'.slot i = if i = j then e else t.slot i

/-- A key that is not there is put into an empty slot. -/
theorem Put.add (h : Put t j (some (k, x)) t') (hu : t.Unique) (hfind : t.find k = none)
    (hempty : j < t.length → t.slot j = none) : t'.Unique ∧ t'.get = update t.get k (some x) := by
  have hlen := h.length
  have hle := h.le
  have hnone := find_eq_none.mp hfind
  have hother {i : Nat} (hi : i < t'.length) (hij : i ≠ j) : i < t.length ∧
      t'.slot i = t.slot i := by
    refine ⟨by omega, ?_⟩
    rw [h.slot i hi, if_neg hij]
  have hself : t'.slot j = some (k, x) := by
    rw [h.slot j (by omega), if_pos rfl]
  have hu' : t'.Unique := by
    intro a b k' y z ha hb hya hzb
    by_cases haj : a = j
    · by_cases hbj : b = j
      · rw [haj, hbj]
      · subst haj
        cases hself.symm.trans hya
        obtain ⟨hlt, hs⟩ := hother hb hbj
        exact absurd (hs ▸ hzb) (hnone b hlt z)
    · obtain ⟨hlt, hs⟩ := hother ha haj
      rw [hs] at hya
      by_cases hbj : b = j
      · subst hbj
        cases hself.symm.trans hzb
        exact absurd hya (hnone a hlt y)
      · obtain ⟨hlt', hs'⟩ := hother hb hbj
        rw [hs'] at hzb
        exact hu a b k' y z hlt hlt' hya hzb
  refine ⟨hu', funext fun k' => Option.ext fun y => ?_⟩
  rw [hu'.get_eq_some]
  by_cases hk : k' = k
  · subst hk
    rw [Function.update_self]
    constructor
    · rintro ⟨i, hi, hy⟩
      by_cases hij : i = j
      · subst hij
        cases hself.symm.trans hy
        rfl
      · obtain ⟨hlt, hs⟩ := hother hi hij
        exact absurd (hs ▸ hy) (hnone i hlt y)
    · intro hy
      cases hy
      exact ⟨j, by omega, hself⟩
  · rw [Function.update_of_ne hk, hu.get_eq_some]
    constructor
    · rintro ⟨i, hi, hy⟩
      by_cases hij : i = j
      · subst hij
        cases hself.symm.trans hy
        exact absurd rfl hk
      · obtain ⟨hlt, hs⟩ := hother hi hij
        exact ⟨i, hlt, hs ▸ hy⟩
    · rintro ⟨i, hi, hy⟩
      have hij : i ≠ j := by
        rintro rfl
        exact absurd ((hempty hi).symm.trans hy) (by simp)
      exact ⟨i, by omega, by rw [h.slot i (by omega), if_neg hij, hy]⟩

/-- The slot of a key is emptied. -/
theorem Put.erase (h : Put t j none t') (hu : t.Unique) (hfind : t.find k = some j) :
    t'.Unique ∧ t'.get = update t.get k none := by
  obtain ⟨hj, ⟨x, hx⟩, -⟩ := find_eq_some.mp hfind
  have hlen : t'.length = t.length := by
    rw [h.length]
    omega
  have hother {i : Nat} (hi : i < t.length) {e : κ × ν} :
      t'.slot i = some e ↔ i ≠ j ∧ t.slot i = some e := by
    rw [h.slot i (by omega)]
    split
    · rename_i hij
      simp [hij]
    · rename_i hij
      simp [hij]
  have hu' : t'.Unique := fun a b k' y z ha hb hya hzb => by
    rw [hlen] at ha hb
    exact hu a b k' y z ha hb ((hother ha).mp hya).2 ((hother hb).mp hzb).2
  refine ⟨hu', funext fun k' => Option.ext fun y => ?_⟩
  rw [hu'.get_eq_some, hlen]
  by_cases hk : k' = k
  · subst hk
    rw [Function.update_self]
    refine iff_of_false (fun ⟨i, hi, hy⟩ => ?_) (by simp)
    obtain ⟨hij, hy⟩ := (hother hi).mp hy
    exact hij (hu i j k' y x hi hj hy hx)
  · rw [Function.update_of_ne hk, hu.get_eq_some]
    refine exists_congr fun i => and_congr_right fun hi => ?_
    rw [hother hi]
    refine and_iff_right_of_imp fun hy hij => ?_
    subst hij
    cases hx.symm.trans hy
    exact hk rfl

end Table

end Lib
