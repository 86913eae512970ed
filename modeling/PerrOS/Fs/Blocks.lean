import Mathlib.Data.List.Basic
import PerrOS.Fs.Disk

/-!
# Blocks in use

What `balloc` and `bfree` do to the bitmap, and who owns the blocks: an owner has
slots, a block of data in use is in exactly one slot, and a block that is not in
use is clear. Both routines rely on it: `balloc` does not clear the block it
hands out.
-/

namespace PerrOS.Fs

open Lib
open Function (update)

/-- The first block of the bitmap. -/
def Superblock.bitmap (sb : Superblock) : Nat := sb.ninodes.toNat / IPB + 3

/-- The first block of data. -/
def Superblock.data (sb : Superblock) : Nat := sb.bitmap + sb.size.toNat / BPB + 1

/-- The file system fills its disk. -/
structure Formatted (sb : Superblock) (d : Disk) : Prop where
  super : Superblock.ofBytes (d.block 1) = sb
  size : d.size = sb.size.toNat
  data_le : sb.data ≤ sb.size.toNat
  small : sb.size.toNat ≤ 2 ^ 28

namespace Disk

variable (sb : Superblock) (d : Disk) (b : Nat)

def busy : Bool := (d.block (BBLOCK b sb.ninodes.toNat)).bit (b % BPB)

def mark : Disk :=
  d.set (BBLOCK b sb.ninodes.toNat) ((d.block (BBLOCK b sb.ninodes.toNat)).setBit (b % BPB))

def unmark : Disk :=
  d.set (BBLOCK b sb.ninodes.toNat) ((d.block (BBLOCK b sb.ninodes.toNat)).clearBit (b % BPB))

end Disk

variable {sb : Superblock} {d d' : Disk} {a : Word} {b c : Nat} {x : Block}

theorem BPB_pos : 0 < BPB := by
  unfold BPB BSIZE
  decide

theorem BBLOCK_eq (b : Nat) : BBLOCK b sb.ninodes.toNat = sb.bitmap + b / BPB := by
  rw [BBLOCK, Superblock.bitmap, Nat.add_assoc, Nat.add_comm]

theorem le_BBLOCK (sb : Superblock) (b : Nat) : sb.bitmap ≤ BBLOCK b sb.ninodes.toNat := by
  rw [BBLOCK_eq]
  exact Nat.le_add_right ..

theorem BBLOCK_lt (h : b ≤ sb.size.toNat) : BBLOCK b sb.ninodes.toNat < sb.data := by
  rw [BBLOCK_eq, Superblock.data]
  have := Nat.div_le_div_right (c := BPB) h
  omega

theorem lt_bitmap (sb : Superblock) : 2 < sb.bitmap := by
  have := Nat.zero_le (sb.ninodes.toNat / IPB)
  rw [Superblock.bitmap]
  omega

theorem lt_BBLOCK (sb : Superblock) (b : Nat) : 1 < BBLOCK b sb.ninodes.toNat := by
  have := lt_bitmap sb
  have := le_BBLOCK sb b
  omega

theorem bitmap_lt_data (sb : Superblock) : sb.bitmap < sb.data := by
  have := Nat.zero_le (sb.size.toNat / BPB)
  rw [Superblock.data]
  omega

/-- Two bits of the bitmap. -/
theorem bit_inj (hb : c / BPB = b / BPB) : c % BPB = b % BPB ↔ c = b := by
  constructor
  · intro h
    rw [← Nat.div_add_mod c BPB, ← Nat.div_add_mod b BPB, hb, h]
  · rintro rfl
    rfl

namespace Disk

@[simp] theorem mark_size : (d.mark sb b).size = d.size := rfl

@[simp] theorem unmark_size : (d.unmark sb b).size = d.size := rfl

theorem busy_mark (b c : Nat) : (d.mark sb b).busy sb c = (d.busy sb c || decide (c = b)) := by
  by_cases h : c / BPB = b / BPB
  · have hblock : BBLOCK c sb.ninodes.toNat = BBLOCK b sb.ninodes.toNat := by
      rw [BBLOCK_eq, BBLOCK_eq, h]
    rw [busy, mark, hblock, set_self, Memory.bit_setBit, busy, hblock]
    simp only [bit_inj h]
  · have hblock : BBLOCK c sb.ninodes.toNat ≠ BBLOCK b sb.ninodes.toNat := by
      rw [BBLOCK_eq, BBLOCK_eq]
      omega
    have hne : c ≠ b := fun he => h (by rw [he])
    rw [busy, mark, set_of_ne _ hblock, busy]
    simp [hne]

theorem busy_unmark (b c : Nat) : (d.unmark sb b).busy sb c = (d.busy sb c && !decide (c = b)) := by
  by_cases h : c / BPB = b / BPB
  · have hblock : BBLOCK c sb.ninodes.toNat = BBLOCK b sb.ninodes.toNat := by
      rw [BBLOCK_eq, BBLOCK_eq, h]
    rw [busy, unmark, hblock, set_self, Memory.bit_clearBit, busy, hblock]
    simp only [bit_inj h]
  · have hblock : BBLOCK c sb.ninodes.toNat ≠ BBLOCK b sb.ninodes.toNat := by
      rw [BBLOCK_eq, BBLOCK_eq]
      omega
    have hne : c ≠ b := fun he => h (by rw [he])
    rw [busy, unmark, set_of_ne _ hblock, busy]
    simp [hne]

/-- A block outside the bitmap is written. -/
theorem busy_set (hb : b < sb.bitmap ∨ sb.data ≤ b) (hc : c ≤ sb.size.toNat) (x : Block) :
    (d.set b x).busy sb c = d.busy sb c := by
  have hlt := BBLOCK_lt hc
  have hle := le_BBLOCK sb c
  have hne : BBLOCK c sb.ninodes.toNat ≠ b := by omega
  rw [busy, set_of_ne _ hne, busy]

/-- The blocks of data are not in the bitmap. -/
theorem block_mark (hb : b < sb.size.toNat) (hc : c < sb.bitmap ∨ sb.data ≤ c) :
    (d.mark sb b).block c = d.block c := by
  have hlt := BBLOCK_lt (Nat.le_of_lt hb)
  have hle := le_BBLOCK sb b
  exact set_of_ne _ (by omega)

theorem block_unmark (hb : b < sb.size.toNat) (hc : c < sb.bitmap ∨ sb.data ≤ c) :
    (d.unmark sb b).block c = d.block c := by
  have hlt := BBLOCK_lt (Nat.le_of_lt hb)
  have hle := le_BBLOCK sb b
  exact set_of_ne _ (by omega)

end Disk

namespace Formatted

theorem lt_size (h : Formatted sb d) (hb : b < sb.data) : b < d.size := by
  rw [h.size]
  exact Nat.lt_of_lt_of_le hb h.data_le

theorem set (h : Formatted sb d) (hb : b ≠ 1) (x : Block) : Formatted sb (d.set b x) where
  super := by rw [Disk.set_of_ne x (Ne.symm hb), h.super]
  size := h.size
  data_le := h.data_le
  small := h.small

theorem mark (h : Formatted sb d) (b : Nat) : Formatted sb (d.mark sb b) :=
  h.set (Nat.ne_of_gt (lt_BBLOCK sb b)) _

theorem unmark (h : Formatted sb d) (b : Nat) : Formatted sb (d.unmark sb b) :=
  h.set (Nat.ne_of_gt (lt_BBLOCK sb b)) _

theorem one_lt (h : Formatted sb d) : 1 < d.size := by
  have := h.data_le
  have := lt_bitmap sb
  have := bitmap_lt_data sb
  rw [h.size]
  omega

end Formatted

-- ---------------------------------------------------------------------------
-- The routines
-- ---------------------------------------------------------------------------

theorem bread_outcome {Q : Block → Disk → Prop} {E : Fault → Disk → Prop} :
    Outcome (bread b) Q E d ↔ if b < d.size then Q (d.block b) d else E (.beyond b) d := by
  unfold bread
  rw [Outcome.bind, Outcome.get]
  split <;> exact Iff.rfl

theorem bread_ok {Q : Block → Disk → Prop} {E : Fault → Disk → Prop} (hb : b < d.size) :
    Outcome (bread b) Q E d ↔ Q (d.block b) d := by
  rw [bread_outcome, if_pos hb]

theorem bwrite_outcome {Q : Unit → Disk → Prop} {E : Fault → Disk → Prop} :
    Outcome (bwrite b x) Q E d ↔ Q () (d.set b x) := Iff.rfl

theorem readsb_ok {Q : Superblock → Disk → Prop} {E : Fault → Disk → Prop}
    (h : Formatted sb d) : Outcome readsb Q E d ↔ Q sb d := by
  unfold readsb
  rw [Outcome.bind, bread_ok h.one_lt, Outcome.pure, h.super]

theorem freeBit_some (h : freeBit x = some bi) :
    bi < BPB ∧ x.bit bi = false ∧ ∀ j < bi, x.bit j = true := by
  obtain ⟨hp, hlt, hall⟩ := List.find?_range_eq_some.mp h
  refine ⟨List.mem_range.mp hlt, (Memory.mask_eq_zero x bi).mp (of_decide_eq_true hp), ?_⟩
  intro j hj
  have := hall j hj
  rw [Bool.not_eq_true', decide_eq_false_iff_not, Memory.mask_eq_zero] at this
  simpa using this

theorem freeBit_none (h : freeBit x = none) : ∀ j < BPB, x.bit j = true := by
  intro j hj
  have := List.find?_eq_none.mp h j (List.mem_range.mpr hj)
  rw [decide_eq_true_eq, Memory.mask_eq_zero] at this
  simpa using this

/-- What `balloc` returns: the first block that is not in use. -/
structure Allocated (sb : Superblock) (d : Disk) (a : Word) (d' : Disk) : Prop where
  free : d.busy sb a.toNat = false
  first : ∀ b < a.toNat, d.busy sb b = true
  eq : d' = d.mark sb a.toNat

theorem ballocFrom_outcome (h : Formatted sb d) (hb : b % BPB = 0)
    (hbusy : ∀ c < b, d.busy sb c = true) (hk : sb.size.toNat < b + k * BPB) :
    Outcome (ballocFrom sb k b) (Allocated sb d)
      (fun e t => e = .panic "balloc: out of blocks" ∧ t = d ∧
        ∀ c < sb.size.toNat, d.busy sb c = true) d := by
  induction k generalizing b with
  | zero =>
    rw [Nat.zero_mul] at hk
    rw [ballocFrom, Outcome.throw]
    exact ⟨rfl, rfl, fun c hc => hbusy c (by omega)⟩
  | succ k ih =>
    unfold ballocFrom
    split
    · rename_i hlt
      have hblock := BBLOCK_lt (Nat.le_of_lt hlt)
      rw [Outcome.bind, bread_ok (h.lt_size hblock)]
      -- the bits of the block are those of the next `BPB` blocks
      have hbit (j : Nat) (hj : j < BPB) :
          (d.block (BBLOCK b sb.ninodes.toNat)).bit j = d.busy sb (b + j) := by
        have hdiv : (b + j) / BPB = b / BPB := by
          unfold BPB BSIZE at *
          omega
        have hmod : (b + j) % BPB = j := by
          unfold BPB BSIZE at *
          omega
        rw [Disk.busy, BBLOCK_eq, BBLOCK_eq, hdiv, hmod]
      cases hfree : freeBit (d.block (BBLOCK b sb.ninodes.toNat)) with
      | some bi =>
        obtain ⟨hbi, hclear, hfull⟩ := freeBit_some hfree
        have hsmall := h.small
        have hnat : (BitVec.ofNat 32 (b + bi)).toNat = b + bi := by
          rw [BitVec.toNat_ofNat, Nat.mod_eq_of_lt]
          unfold BPB BSIZE at hbi
          omega
        refine Outcome.bind.mpr (bwrite_outcome.mpr (Outcome.pure.mpr ⟨?_, fun c hc => ?_, ?_⟩))
        · rw [hnat, ← hbit bi hbi, hclear]
        · rw [hnat] at hc
          by_cases hcb : c < b
          · exact hbusy c hcb
          · have := hbit (c - b) (by omega)
            rw [Nat.add_sub_cancel' (Nat.le_of_not_lt hcb)] at this
            rw [← this, hfull _ (by omega)]
        · have hdiv : (b + bi) / BPB = b / BPB := by
            unfold BPB BSIZE at *
            omega
          have hmod : (b + bi) % BPB = bi := by
            unfold BPB BSIZE at *
            omega
          rw [hnat, Disk.mark, BBLOCK_eq, BBLOCK_eq, hdiv, hmod]
      | none =>
        refine ih ((Nat.add_mod_right ..).trans hb) (fun c hc => ?_)
          (by rw [Nat.succ_mul] at hk; omega)
        by_cases hcb : c < b
        · exact hbusy c hcb
        · have := hbit (c - b) (by omega)
          rw [Nat.add_sub_cancel' (Nat.le_of_not_lt hcb)] at this
          rw [← this, freeBit_none hfree _ (by omega)]
    · rw [Outcome.throw]
      exact ⟨rfl, rfl, fun c hc => hbusy c (by omega)⟩

/-- `balloc` hands out the first block that is not in use, or every block is. -/
theorem balloc_outcome (h : Formatted sb d) : Outcome balloc (Allocated sb d)
    (fun e t => e = .panic "balloc: out of blocks" ∧ t = d ∧
      ∀ c < sb.size.toNat, d.busy sb c = true) d := by
  unfold balloc
  rw [Outcome.bind, readsb_ok h]
  refine ballocFrom_outcome h rfl (fun c hc => absurd hc (Nat.not_lt_zero c)) ?_
  have := Nat.div_add_mod sb.size.toNat BPB
  have := Nat.mod_lt sb.size.toNat BPB_pos
  rw [Nat.succ_mul, Nat.mul_comm]
  omega

/-- The block is cleared and not in use afterwards. -/
def Disk.release (sb : Superblock) (d : Disk) (b : Nat) : Disk :=
  (d.set b fun _ => 0).unmark sb b

theorem bfree_outcome {Q : Unit → Disk → Prop} {E : Fault → Disk → Prop} (h : Formatted sb d)
    (hlo : sb.data ≤ a.toNat) (hhi : a.toNat < sb.size.toNat) (hbusy : d.busy sb a.toNat = true) :
    Outcome (bfree a) Q E d ↔ Q () (d.release sb a.toNat) := by
  have hblock := BBLOCK_lt (Nat.le_of_lt hhi)
  have hne : BBLOCK a.toNat sb.ninodes.toNat ≠ a.toNat := by omega
  have hone : a.toNat ≠ 1 := by
    have := lt_BBLOCK sb a.toNat
    omega
  have hset := h.set hone fun _ => 0
  unfold bfree bzero
  rw [Outcome.bind, Outcome.bind, bread_ok (by rw [h.size]; exact hhi), bwrite_outcome,
    Outcome.bind, readsb_ok hset, Outcome.bind, bread_ok (hset.lt_size hblock)]
  rw [Disk.set_of_ne _ hne, if_neg, bwrite_outcome, Disk.release, Disk.unmark,
    Disk.set_of_ne _ hne]
  rw [Memory.mask_eq_zero]
  exact fun hfalse => absurd (hfalse.symm.trans hbusy) Bool.false_ne_true

-- ---------------------------------------------------------------------------
-- Owners
-- ---------------------------------------------------------------------------

/-- The blocks of data in use are those in the slots. -/
structure Owned {K : Type} (sb : Superblock) (d : Disk) (slot : K → Word) : Prop where
  range : ∀ k, slot k ≠ 0 → sb.data ≤ (slot k).toNat ∧ (slot k).toNat < sb.size.toNat
  inj : ∀ k k', slot k = slot k' → slot k ≠ 0 → k = k'
  low : ∀ b < sb.data, d.busy sb b = true
  busy_iff : ∀ b, sb.data ≤ b → b < sb.size.toNat →
    (d.busy sb b = true ↔ ∃ k, (slot k).toNat = b)
  clear : ∀ b, sb.data ≤ b → b < sb.size.toNat → d.busy sb b = false → d.block b = fun _ => 0

namespace Owned

variable {K : Type} {slot : K → Word} {k : K}

theorem toNat_ne (h : sb.data ≤ b) (hk : slot k = 0) : (slot k).toNat ≠ b := by
  have := bitmap_lt_data sb
  rw [hk]
  exact Nat.ne_of_lt (Nat.lt_of_lt_of_le (Nat.zero_lt_of_lt this) h)

theorem busy (h : Owned sb d slot) (hk : slot k ≠ 0) : d.busy sb (slot k).toNat = true :=
  (h.busy_iff _ (h.range k hk).1 (h.range k hk).2).mpr ⟨k, rfl⟩

/-- A block that is not in use is in no slot. -/
theorem fresh (h : Owned sb d slot) (ha : a.toNat < sb.size.toNat)
    (hfree : d.busy sb a.toNat = false) : sb.data ≤ a.toNat ∧ ∀ k, slot k ≠ a := by
  have hdata : sb.data ≤ a.toNat := Nat.le_of_not_lt fun hlt =>
    Bool.false_ne_true (hfree.symm.trans (h.low _ hlt))
  refine ⟨hdata, fun k hk => Bool.false_ne_true (hfree.symm.trans ?_)⟩
  exact (h.busy_iff _ hdata ha).mpr ⟨k, by rw [hk]⟩

/-- The bitmap and the blocks that are not in use are as before. -/
theorem same (h : Owned sb d slot) (hbusy : ∀ b < sb.size.toNat, d'.busy sb b = d.busy sb b)
    (hdata : sb.data ≤ sb.size.toNat)
    (hclear : ∀ b, sb.data ≤ b → d.busy sb b = false → d'.block b = d.block b) :
    Owned sb d' slot where
  range := h.range
  inj := h.inj
  low b hb := by rw [hbusy b (Nat.lt_of_lt_of_le hb hdata), h.low b hb]
  busy_iff b hlo hhi := by rw [hbusy b hhi, h.busy_iff b hlo hhi]
  clear b hlo hhi hb := by
    rw [hbusy b hhi] at hb
    rw [hclear b hlo hb, h.clear b hlo hhi hb]

/-- A block in a slot is written. -/
theorem set_slot (h : Owned sb d slot) (hf : Formatted sb d) (hk : slot k ≠ 0) (x : Block) :
    Owned sb (d.set (slot k).toNat x) slot := by
  refine h.same (fun b hb => Disk.busy_set (.inr (h.range k hk).1) (Nat.le_of_lt hb) x) hf.data_le
    fun b hlo hfree => Disk.set_of_ne x ?_
  rintro rfl
  exact Bool.false_ne_true (hfree.symm.trans (h.busy hk))

/-- A block of inodes is written. -/
theorem set_inodes (h : Owned sb d slot) (hf : Formatted sb d) (hb : b < sb.bitmap) (x : Block) :
    Owned sb (d.set b x) slot := by
  have := bitmap_lt_data sb
  exact h.same (fun c hc => Disk.busy_set (.inl hb) (Nat.le_of_lt hc) x) hf.data_le
    fun c hlo _ => Disk.set_of_ne x (by omega)

variable [DecidableEq K]

/-- What `balloc` hands out is put into an empty slot. -/
theorem alloc (h : Owned sb d slot) (ha : a.toNat < sb.size.toNat)
    (hfree : d.busy sb a.toNat = false) (hk : slot k = 0) :
    Owned sb (d.mark sb a.toNat) (update slot k a) := by
  obtain ⟨hdata, hfresh⟩ := h.fresh ha hfree
  refine ⟨fun k' hk' => ?_, fun i j hij hi => ?_, fun b hb => ?_, fun b hlo hhi => ?_,
    fun b hlo hhi hb => ?_⟩
  · by_cases he : k' = k
    · subst he
      rw [Function.update_self]
      exact ⟨hdata, ha⟩
    · rw [Function.update_of_ne he] at hk' ⊢
      exact h.range k' hk'
  · by_cases hik : i = k
    · by_cases hjk : j = k
      · rw [hik, hjk]
      · rw [hik, Function.update_self, Function.update_of_ne hjk] at hij
        exact absurd hij.symm (hfresh j)
    · by_cases hjk : j = k
      · rw [hjk, Function.update_self, Function.update_of_ne hik] at hij
        exact absurd hij (hfresh i)
      · rw [Function.update_of_ne hik] at hij hi
        rw [Function.update_of_ne hjk] at hij
        exact h.inj i j hij hi
  · rw [Disk.busy_mark, h.low b hb, Bool.true_or]
  · rw [Disk.busy_mark, Bool.or_eq_true, decide_eq_true_eq, h.busy_iff b hlo hhi]
    constructor
    · rintro (⟨k', rfl⟩ | rfl)
      · have hne : k' ≠ k := fun he => toNat_ne hlo hk (by rw [he])
        exact ⟨k', by rw [Function.update_of_ne hne]⟩
      · exact ⟨k, by rw [Function.update_self]⟩
    · rintro ⟨k', rfl⟩
      by_cases he : k' = k
      · subst he
        rw [Function.update_self]
        exact .inr rfl
      · rw [Function.update_of_ne he]
        exact .inl ⟨k', rfl⟩
  · rw [Disk.busy_mark, Bool.or_eq_false_iff] at hb
    rw [Disk.block_mark ha (.inr hlo), h.clear b hlo hhi hb.1]

/-- `bfree` of the block in a slot. -/
theorem release (h : Owned sb d slot) (hk : slot k ≠ 0) :
    Owned sb (d.release sb (slot k).toNat) (update slot k 0) := by
  obtain ⟨hdata, hsize⟩ := h.range k hk
  have hbusy (b : Nat) (hb : b < sb.size.toNat) : (d.release sb (slot k).toNat).busy sb b =
      (d.busy sb b && !decide (b = (slot k).toNat)) := by
    rw [Disk.release, Disk.busy_unmark, Disk.busy_set (.inr hdata) (Nat.le_of_lt hb)]
  refine ⟨fun k' hk' => ?_, fun i j hij hi => ?_, fun b hb => ?_, fun b hlo hhi => ?_,
    fun b hlo hhi hb => ?_⟩
  · have hne : k' ≠ k := by
      rintro rfl
      exact hk' (Function.update_self ..)
    rw [Function.update_of_ne hne] at hk' ⊢
    exact h.range k' hk'
  · have hik : i ≠ k := by
      rintro rfl
      exact hi (Function.update_self ..)
    rw [Function.update_of_ne hik] at hij hi
    have hjk : j ≠ k := by
      rintro rfl
      rw [Function.update_self] at hij
      exact hi hij
    rw [Function.update_of_ne hjk] at hij
    exact h.inj i j hij hi
  · have hne : b ≠ (slot k).toNat := by omega
    rw [hbusy b (by omega), h.low b hb]
    simp [hne]
  · rw [hbusy b hhi, Bool.and_eq_true, h.busy_iff b hlo hhi]
    simp only [Bool.not_eq_true', decide_eq_false_iff_not]
    constructor
    · rintro ⟨⟨k', rfl⟩, hne⟩
      have hkk : k' ≠ k := fun he => hne (by rw [he])
      exact ⟨k', by rw [Function.update_of_ne hkk]⟩
    · rintro ⟨k', hk'⟩
      have hkk : k' ≠ k := by
        rintro rfl
        have h0 : update slot k' 0 k' = 0 := Function.update_self ..
        exact toNat_ne hlo h0 hk'
      rw [Function.update_of_ne hkk] at hk'
      refine ⟨⟨k', hk'⟩, ?_⟩
      rintro rfl
      have hne : slot k' ≠ 0 := fun h0 => toNat_ne hlo h0 hk'
      exact hkk (h.inj k' k (BitVec.eq_of_toNat_eq hk') hne)
  · rw [hbusy b hhi, Bool.and_eq_false_iff] at hb
    rw [Disk.release, Disk.block_unmark hsize (.inr hlo)]
    by_cases he : b = (slot k).toNat
    · rw [he, Disk.set_self]
    · rw [Disk.set_of_ne _ he]
      refine h.clear b hlo hhi (hb.resolve_right ?_)
      simp [he]

end Owned

end PerrOS.Fs
