import PerrOS.Fs.Blocks

/-!
# Inodes on the disk

An inode is read back as it was stored, and storing it changes no other inode.
The slots of an inode are the blocks of its data, by their number in the file,
and the block of their addresses.
-/

namespace PerrOS.Fs

open Lib
open Function (update)

namespace Inode

variable {ip : Inode} {x : Block} {i j : Nat}

theorem stores_pairwise (ip : Inode) (i : Nat) :
    (ip.stores i).Pairwise fun st st' => st.addr + st.width ≤ st'.addr := by
  refine List.pairwise_append.mpr ⟨by simp, ?_, ?_⟩
  · refine List.pairwise_map.mpr ((List.pairwise_lt_finRange _).imp fun {a b} hab => ?_)
    have : a.val < b.val := hab
    dsimp only
    omega
  · intro st hst st' hst'
    obtain ⟨k, -, rfl⟩ := List.mem_map.mp hst'
    simp only [List.mem_cons, List.not_mem_nil, or_false] at hst
    rcases hst with rfl | rfl | rfl | rfl | rfl <;> dsimp only <;> omega

theorem stores_within (ip : Inode) (i : Nat) :
    Store.Within (ip.stores i) (64 * i) (64 * i + 64) := by
  intro st hst
  rcases List.mem_append.mp hst with hst | hst
  · simp only [List.mem_cons, List.not_mem_nil, or_false] at hst
    rcases hst with rfl | rfl | rfl | rfl | rfl <;> dsimp only <;> omega
  · obtain ⟨k, -, rfl⟩ := List.mem_map.mp hst
    have := k.isLt
    unfold NDIRECT at this
    dsimp only
    omega

theorem load_store (ip : Inode) (x : Block) (i : Nat) : load (ip.store x i) i = ip := by
  have hread (st : Store) (hst : st ∈ ip.stores i) (hval : st.val < 256 ^ st.width) :
      (ip.store x i).read st.addr st.width = st.val :=
    Store.read_run_mem (ip.stores_pairwise i) hst hval
  have ht := hread ⟨64 * i, 2, ip.type.toNat⟩ (by simp [stores]) ip.type.isLt
  have hmaj := hread ⟨64 * i + 2, 2, ip.major.toNat⟩ (by simp [stores]) ip.major.isLt
  have hmin := hread ⟨64 * i + 4, 2, ip.minor.toNat⟩ (by simp [stores]) ip.minor.isLt
  have hn := hread ⟨64 * i + 6, 2, ip.nlink.toNat⟩ (by simp [stores]) ip.nlink.isLt
  have hs := hread ⟨64 * i + 8, 4, ip.size.toNat⟩ (by simp [stores]) ip.size.isLt
  have ha (j : Fin (NDIRECT + 1)) := hread ⟨64 * i + 12 + 4 * j, 4, (ip.addrs j).toNat⟩
    (List.mem_append_right _ (List.mem_map.mpr ⟨j, List.mem_finRange j, rfl⟩)) (ip.addrs j).isLt
  dsimp only at ht hmaj hmin hn hs ha
  simp only [load, ht, hmaj, hmin, hn, hs, ha, BitVec.ofNat_toNat, BitVec.setWidth_eq]

theorem load_congr {x' : Block} (h : ∀ a n, 64 * j ≤ a → a + n ≤ 64 * j + 64 →
    x'.read a n = x.read a n) : load x' j = load x j := by
  have ha (k : Fin (NDIRECT + 1)) : x'.read (64 * j + 12 + 4 * k) 4 =
      x.read (64 * j + 12 + 4 * k) 4 := by
    have := k.isLt
    unfold NDIRECT at this
    exact h _ _ (by omega) (by omega)
  simp only [load, h (64 * j) 2 (by omega) (by omega), h (64 * j + 2) 2 (by omega) (by omega),
    h (64 * j + 4) 2 (by omega) (by omega), h (64 * j + 6) 2 (by omega) (by omega),
    h (64 * j + 8) 4 (by omega) (by omega), ha]

theorem load_store_of_ne (ip : Inode) (x : Block) (h : j ≠ i) :
    load (ip.store x i) j = load x j := by
  refine load_congr fun a n hlo hhi => Store.read_run fun st hst => ?_
  have := ip.stores_within i st hst
  omega

/-- An inode that is not in use. -/
def none : Inode := ⟨0, 0, 0, 0, 0, fun _ => 0⟩

end Inode

/-- The inode with the number `n`. -/
def Disk.inode (sb : Superblock) (d : Disk) (n : Nat) : Inode :=
  if n < sb.ninodes.toNat then .load (d.block (IBLOCK n)) (n % IPB) else .none

variable {sb : Superblock} {d d' : Disk} {a : Word} {b n : Nat} {x : Block} {ip : Inode}

theorem IBLOCK_lt (h : n < sb.ninodes.toNat) : 1 < IBLOCK n ∧ IBLOCK n < sb.bitmap := by
  unfold IBLOCK Superblock.bitmap IPB
  omega

theorem Disk.inode_congr (h : ∀ b < sb.bitmap, d'.block b = d.block b) :
    d'.inode sb = d.inode sb := by
  funext n
  unfold Disk.inode
  split
  · rename_i hn
    rw [h _ (IBLOCK_lt hn).2]
  · rfl

theorem Disk.inode_store (hn : n < sb.ninodes.toNat) (ip : Inode) :
    (d.set (IBLOCK n) (ip.store (d.block (IBLOCK n)) (n % IPB))).inode sb =
      update (d.inode sb) n ip := by
  funext m
  by_cases hmn : m = n
  · subst hmn
    rw [Function.update_self, Disk.inode, if_pos hn, Disk.set_self, Inode.load_store]
  · rw [Function.update_of_ne hmn]
    unfold Disk.inode
    split
    · by_cases hb : IBLOCK m = IBLOCK n
      · have hslot : m % IPB ≠ n % IPB := by
          unfold IBLOCK IPB at *
          omega
        rw [hb, Disk.set_self, Inode.load_store_of_ne _ _ hslot]
      · rw [Disk.set_of_ne _ hb]
    · rfl

theorem iupdate_outcome {Q : Unit → Disk → Prop} {E : Fault → Disk → Prop} (h : Formatted sb d)
    (hn : n < sb.ninodes.toNat) : Outcome (iupdate n ip) Q E d ↔
      Q () (d.set (IBLOCK n) (ip.store (d.block (IBLOCK n)) (n % IPB))) := by
  have hlt := (IBLOCK_lt hn).2
  have := bitmap_lt_data sb
  unfold iupdate
  rw [Outcome.bind, bread_ok (h.lt_size (by omega)), bwrite_outcome]

theorem iread_outcome {Q : Inode → Disk → Prop} {E : Fault → Disk → Prop} (h : Formatted sb d)
    (hn : n < sb.ninodes.toNat) : Outcome (iread n) Q E d ↔
      if (d.inode sb n).type = 0 then E (.panic "ilock: no type") d else Q (d.inode sb n) d := by
  have hlt := (IBLOCK_lt hn).2
  have := bitmap_lt_data sb
  unfold iread Disk.inode
  rw [Outcome.bind, bread_ok (h.lt_size (by omega)), if_pos hn]
  dsimp only
  by_cases ht : (Inode.load (d.block (IBLOCK n)) (n % IPB)).type = 0
  · rw [if_pos ht, if_pos ht, Outcome.throw]
  · rw [if_neg ht, if_neg ht, Outcome.pure]

-- ---------------------------------------------------------------------------
-- The slots of an inode
-- ---------------------------------------------------------------------------

inductive Slot
  | table
  | data (bn : Nat)
deriving DecidableEq

/-- The address of block `bn` of a file, or 0. -/
def Inode.addr (ip : Inode) (d : Disk) (bn : Nat) : Word :=
  if h : bn < NDIRECT then ip.addrs ⟨bn, Nat.lt_succ_of_lt h⟩
  else if ip.table ≠ 0 ∧ bn < MAXFILE then entry (d.block ip.table.toNat) (bn - NDIRECT)
  else 0

def Inode.slot (ip : Inode) (d : Disk) : Slot → Word
  | .table => ip.table
  | .data bn => ip.addr d bn

theorem entry_setEntry (x : Block) (j : Nat) (a : Word) (k : Nat) :
    entry (setEntry x j a) k = if k = j then a else entry x k := by
  unfold entry setEntry
  split
  · rename_i h
    subst h
    rw [Memory.read_write_of_lt a.isLt, BitVec.ofNat_toNat, BitVec.setWidth_eq]
  · rw [Memory.read_write_disjoint (by omega)]

end PerrOS.Fs
