import PerrOS.Fs.Inodes

/-!
# The blocks of a file

`bmap` hands out the block of a file, allocating it where it is the next one. The
blocks of data in use are those of the inodes, each of one inode and one place in
it, and a file has its blocks without a gap: both are kept, and what the file
holds is not changed, since a block that was not in use is clear.
-/

namespace PerrOS.Fs

open Lib
open Function (update)

/-- The slots of all the inodes. -/
def slots (d : Disk) (inode : Nat → Inode) (k : Nat × Slot) : Word := (inode k.1).slot d k.2

structure Consistent (sb : Superblock) (d : Disk) (inode : Nat → Inode) : Prop where
  formatted : Formatted sb d
  owned : Owned sb d (slots d inode)

/-- The file has the blocks below `nb`. -/
structure Mapped (ip : Inode) (d : Disk) (nb : Nat) : Prop where
  addr : ∀ bn, ip.addr d bn ≠ 0 ↔ bn < nb
  table : ip.table ≠ 0 ↔ NDIRECT < nb

/-- The byte of the file at `pos`. -/
def Inode.byte (ip : Inode) (d : Disk) (pos : Nat) : Byte :=
  if ip.addr d (pos / BSIZE) = 0 then 0
  else d.block (ip.addr d (pos / BSIZE)).toNat (pos % BSIZE)

/-- The blocks of the inode are as before. -/
def Untouched (d d' : Disk) (ip : Inode) : Prop :=
  ∀ s, ip.slot d s ≠ 0 → d'.block (ip.slot d s).toNat = d.block (ip.slot d s).toNat

/-- The inodes other than `n` are as before. -/
def Frame (n : Nat) (d : Disk) (inode : Nat → Inode) (d' : Disk) (inode' : Nat → Inode) : Prop :=
  ∀ m, m ≠ n → inode' m = inode m ∧ Untouched d d' (inode m)

/-- Every block is in use. -/
def Full (sb : Superblock) (d : Disk) : Prop := ∀ b < sb.size.toNat, d.busy sb b = true

/-- A failure for want of a block. -/
def NoRoom (sb : Superblock) (e : Fault) (d : Disk) : Prop :=
  (e = .panic "balloc: out of blocks" ∨ ∃ b, e = .beyond b) ∧ Full sb d

variable {sb : Superblock} {d d' d'' : Disk} {inode inode' inode'' : Nat → Inode}
  {n nb bn pos : Nat} {ip ip' : Inode} {a : Word} {s : Slot} {x : Block}

namespace Inode

theorem addr_direct (h : bn < NDIRECT) : ip.addr d bn = ip.addrs ⟨bn, Nat.lt_succ_of_lt h⟩ :=
  dif_pos h

theorem addr_entry (h : ¬ bn < NDIRECT) (ht : ip.table ≠ 0) (hbn : bn < MAXFILE) :
    ip.addr d bn = entry (d.block ip.table.toNat) (bn - NDIRECT) := by
  rw [addr, dif_neg h, if_pos ⟨ht, hbn⟩]

theorem addr_of_table (h : ¬ bn < NDIRECT) (ht : ip.table = 0) : ip.addr d bn = 0 := by
  rw [addr, dif_neg h, if_neg (fun hand => hand.1 ht)]

theorem addr_of_max (h : ¬ bn < MAXFILE) : ip.addr d bn = 0 := by
  have hbn : ¬ bn < NDIRECT := by
    unfold MAXFILE at h
    omega
  rw [addr, dif_neg hbn, if_neg (fun hand => h hand.2)]

theorem addr_congr (h : ip.table ≠ 0 → d'.block ip.table.toNat = d.block ip.table.toNat) :
    ip.addr d' bn = ip.addr d bn := by
  unfold addr
  split
  · rfl
  · split
    · rename_i hand
      rw [h hand.1]
    · rfl

theorem slot_congr (h : ip.table ≠ 0 → d'.block ip.table.toNat = d.block ip.table.toNat)
    (s : Slot) : ip.slot d' s = ip.slot d s := by
  cases s with
  | table => rfl
  | data bn => exact addr_congr h

/-- A block that was clear is added to the file. -/
theorem byte_alloc (haddr : ∀ k, ip'.addr d' k = if k = bn then a else ip.addr d k)
    (hnone : ip.addr d bn = 0) (hclear : d'.block a.toNat = fun _ => 0)
    (hsame : ∀ k, ip.addr d k ≠ 0 → d'.block (ip.addr d k).toNat = d.block (ip.addr d k).toNat)
    (pos : Nat) : ip'.byte d' pos = ip.byte d pos := by
  unfold byte
  rw [haddr]
  by_cases hk : pos / BSIZE = bn
  · rw [if_pos hk, hk, hnone, if_pos rfl, hclear]
    exact ite_self _
  · rw [if_neg hk]
    split
    · rfl
    · rename_i hne
      rw [hsame _ hne]

end Inode

namespace Untouched

theorem slot (h : Untouched d d' ip) (s : Slot) : ip.slot d' s = ip.slot d s :=
  Inode.slot_congr (h .table) s

theorem refl (d : Disk) (ip : Inode) : Untouched d d ip := fun _ _ => rfl

theorem trans (h : Untouched d d' ip) (h' : Untouched d' d'' ip) : Untouched d d'' ip := by
  intro s hs
  have h1 := h' s (by rwa [h.slot s])
  rw [h.slot s] at h1
  rw [h1, h s hs]

theorem addr (h : Untouched d d' ip) (bn : Nat) : ip.addr d' bn = ip.addr d bn :=
  h.slot (.data bn)

theorem byte (h : Untouched d d' ip) (pos : Nat) : ip.byte d' pos = ip.byte d pos := by
  unfold Inode.byte
  rw [h.addr]
  split
  · rfl
  · rename_i hne
    exact congrFun (h (.data _) hne) _

theorem mapped (h : Untouched d d' ip) (hm : Mapped ip d nb) : Mapped ip d' nb where
  addr bn := by rw [h.addr, hm.addr]
  table := hm.table

end Untouched

namespace Frame

theorem refl (n : Nat) (d : Disk) (inode : Nat → Inode) : Frame n d inode d inode :=
  fun _ _ => ⟨rfl, .refl d _⟩

theorem trans (h : Frame n d inode d' inode') (h' : Frame n d' inode' d'' inode'') :
    Frame n d inode d'' inode'' := by
  intro m hm
  obtain ⟨he, hu⟩ := h m hm
  obtain ⟨he', hu'⟩ := h' m hm
  rw [he] at he' hu'
  exact ⟨he', hu.trans hu'⟩

end Frame

-- ---------------------------------------------------------------------------
-- Changes of the disk
-- ---------------------------------------------------------------------------

namespace Consistent

theorem table_range (h : Consistent sb d inode) (ht : (inode n).table ≠ 0) :
    sb.data ≤ (inode n).table.toNat ∧ (inode n).table.toNat < sb.size.toNat :=
  h.owned.range (n, .table) ht

theorem addr_range (h : Consistent sb d inode) (ha : (inode n).addr d bn ≠ 0) :
    sb.data ≤ ((inode n).addr d bn).toNat ∧ ((inode n).addr d bn).toNat < sb.size.toNat :=
  h.owned.range (n, .data bn) ha

/-- No block is used twice. -/
theorem slot_ne (h : Consistent sb d inode) {m : Nat} {t : Slot} (hs : (inode m).slot d t ≠ 0)
    (hne : (m, t) ≠ (n, s)) : ((inode m).slot d t).toNat ≠ ((inode n).slot d s).toNat := by
  intro he
  exact hne (h.owned.inj (m, t) (n, s) (BitVec.eq_of_toNat_eq he) hs)

theorem untouched_mark (h : Consistent sb d inode) (ha : a.toNat < sb.size.toNat) (m : Nat) :
    Untouched d (d.mark sb a.toNat) (inode m) := fun t ht =>
  Disk.block_mark ha (.inr (h.owned.range (m, t) ht).1)

theorem untouched_set (h : Consistent sb d inode) (x : Block) {m : Nat} (hm : m ≠ n) :
    Untouched d (d.set ((inode n).slot d s).toNat x) (inode m) := fun _ ht =>
  Disk.set_of_ne x (h.slot_ne ht fun he => hm (Prod.mk.inj he).1)

end Consistent

/-- A block of data that is in use is written: no slot changes. -/
theorem Consistent.set_data (h : Consistent sb d inode) (ha : (inode n).addr d bn ≠ 0)
    (x : Block) : slots (d.set ((inode n).addr d bn).toNat x) inode = slots d inode ∧
      Consistent sb (d.set ((inode n).addr d bn).toNat x) inode := by
  have hslots : slots (d.set ((inode n).addr d bn).toNat x) inode = slots d inode := by
    funext k
    refine Inode.slot_congr (fun ht => Disk.set_of_ne x ?_) k.2
    exact h.slot_ne (n := n) (s := .data bn) (t := .table) ht (by simp)
  have hone : ((inode n).addr d bn).toNat ≠ 1 := by
    have := (h.addr_range ha).1
    have := lt_bitmap sb
    have := bitmap_lt_data sb
    omega
  refine ⟨hslots, h.formatted.set hone x, ?_⟩
  rw [hslots]
  exact Owned.set_slot (k := (n, Slot.data bn)) h.owned h.formatted ha x

/-- What is written to a block of the file is at its place there. -/
theorem Consistent.byte_set (h : Consistent sb d inode) (ha : (inode n).addr d bn ≠ 0)
    (x : Block) (pos : Nat) : (inode n).byte (d.set ((inode n).addr d bn).toNat x) pos =
      if pos / BSIZE = bn then x (pos % BSIZE) else (inode n).byte d pos := by
  have haddr (k : Nat) : (inode n).addr (d.set ((inode n).addr d bn).toNat x) k =
      (inode n).addr d k := congrFun (h.set_data ha x).1 (n, .data k)
  unfold Inode.byte
  rw [haddr]
  split
  · rename_i h0
    by_cases hk : pos / BSIZE = bn
    · rw [hk] at h0
      exact absurd h0 ha
    · rw [if_neg hk]
  · rename_i hne
    by_cases hk : pos / BSIZE = bn
    · rw [if_pos hk, hk, Disk.set_self]
    · rw [if_neg hk, Disk.set_of_ne]
      exact h.slot_ne (t := .data _) (s := .data bn) hne fun he =>
        hk (Slot.data.inj (Prod.mk.inj he).2)

-- ---------------------------------------------------------------------------
-- bmap
-- ---------------------------------------------------------------------------

namespace Inode

@[simp] theorem setAddr_self (ip : Inode) (i : Fin (NDIRECT + 1)) (a : Word) :
    (ip.setAddr i a).addrs i = a := Function.update_self ..

theorem setAddr_of_ne {i j : Fin (NDIRECT + 1)} (h : j ≠ i) :
    (ip.setAddr i a).addrs j = ip.addrs j := Function.update_of_ne h ..

@[simp] theorem setAddr_table (ip : Inode) (a : Word) :
    (ip.setAddr (Fin.last NDIRECT) a).table = a := setAddr_self ..

/-- A direct block. -/
theorem table_setAddr (h : bn < NDIRECT) :
    (ip.setAddr ⟨bn, Nat.lt_succ_of_lt h⟩ a).table = ip.table :=
  setAddr_of_ne fun he => Nat.ne_of_gt h (Fin.mk.inj he)

theorem addr_setAddr (h : bn < NDIRECT) (k : Nat) :
    (ip.setAddr ⟨bn, Nat.lt_succ_of_lt h⟩ a).addr d k = if k = bn then a else ip.addr d k := by
  by_cases hk : k < NDIRECT
  · rw [addr_direct hk, addr_direct hk]
    split
    · rename_i he
      subst he
      exact setAddr_self ..
    · rename_i he
      exact setAddr_of_ne fun hf => he (Fin.mk.inj hf)
  · rw [if_neg (by omega)]
    unfold addr
    rw [dif_neg hk, dif_neg hk, table_setAddr h]

end Inode

/-- The blocks of the inode `n` have changed, and what it holds has not. -/
structure Grown (sb : Superblock) (n : Nat) (d : Disk) (inode : Nat → Inode) (ip' : Inode)
    (d' : Disk) : Prop where
  consistent : Consistent sb d' (update inode n ip')
  frame : Frame n d inode d' (update inode n ip')
  byte : ∀ pos, ip'.byte d' pos = (inode n).byte d pos
  fields : ip' = { inode n with addrs := ip'.addrs }
  low : ∀ b < sb.bitmap, d'.block b = d.block b

namespace Grown

theorem refl (h : Consistent sb d inode) (n : Nat) : Grown sb n d inode (inode n) d where
  consistent := by rwa [Function.update_eq_self]
  frame := by
    rw [Function.update_eq_self]
    exact .refl n d inode
  byte _ := rfl
  fields := rfl
  low _ _ := rfl

theorem trans (h : Grown sb n d inode ip d') (h' : Grown sb n d' (update inode n ip) ip' d'') :
    Grown sb n d inode ip' d'' where
  consistent := by simpa using h'.consistent
  frame := h.frame.trans (by simpa using h'.frame)
  byte pos := by
    have := h'.byte pos
    rw [Function.update_self] at this
    rw [this, h.byte]
  fields := by
    have := h'.fields
    rw [Function.update_self] at this
    rw [this, h.fields]
  low b hb := by rw [h'.low b hb, h.low b hb]

end Grown

/-- The blocks of an inode that has not changed. -/
theorem slots_update (hother : ∀ m, m ≠ n → Untouched d d' (inode m))
    (hslot : ∀ t, ip'.slot d' t = if t = s then a else (inode n).slot d t) :
    slots d' (update inode n ip') = update (slots d inode) (n, s) a := by
  funext ⟨m, t⟩
  by_cases hm : m = n
  · subst hm
    rw [slots, Function.update_self]
    dsimp only
    rw [hslot]
    split
    · rename_i ht
      rw [ht, Function.update_self]
    · rename_i ht
      rw [Function.update_of_ne (fun he => ht (Prod.mk.inj he).2)]
      rfl
  · rw [slots, Function.update_of_ne hm, (hother m hm).slot t,
      Function.update_of_ne (fun he => hm (Prod.mk.inj he).1)]
    rfl

namespace Consistent

/-- A block that is not in use goes into a slot of an inode. -/
theorem grow (h : Consistent sb d inode) (ha : Allocated sb d a d') (hlt : a.toNat < sb.size.toNat)
    (hnone : (inode n).slot d s = 0) (hslot : ∀ t, ip'.slot d' t =
      if t = s then a else (inode n).slot d t) (hfields : ip' = { inode n with addrs := ip'.addrs })
    (hbyte : ∀ pos, ip'.byte d' pos = (inode n).byte d pos) : Grown sb n d inode ip' d' := by
  obtain rfl := ha.eq
  have hother (m : Nat) : Untouched d (d.mark sb a.toNat) (inode m) := h.untouched_mark hlt m
  refine ⟨⟨h.formatted.mark _, ?_⟩, fun m hm => ⟨Function.update_of_ne hm .., hother m⟩, hbyte,
    hfields, fun b hb => Disk.block_mark hlt (.inl hb)⟩
  rw [slots_update (fun m _ => hother m) hslot]
  exact h.owned.alloc hlt ha.free hnone

/-- What `balloc` hands out is clear. -/
theorem clear (h : Consistent sb d inode) (ha : Allocated sb d a d')
    (hlt : a.toNat < sb.size.toNat) : a ≠ 0 ∧ d'.block a.toNat = fun _ => 0 := by
  obtain rfl := ha.eq
  obtain ⟨hdata, -⟩ := h.owned.fresh hlt ha.free
  refine ⟨?_, ?_⟩
  · rintro rfl
    have := lt_bitmap sb
    have := bitmap_lt_data sb
    simp at hdata
    omega
  · rw [Disk.block_mark hlt (.inr hdata), h.owned.clear _ hdata hlt ha.free]

theorem grow_direct (h : Consistent sb d inode) (ha : Allocated sb d a d')
    (hlt : a.toNat < sb.size.toNat) (hbn : bn < NDIRECT) (hnone : (inode n).addr d bn = 0) :
    Grown sb n d inode ((inode n).setAddr ⟨bn, Nat.lt_succ_of_lt hbn⟩ a) d' ∧
      ∀ k, ((inode n).setAddr ⟨bn, Nat.lt_succ_of_lt hbn⟩ a).addr d' k =
        if k = bn then a else (inode n).addr d k := by
  have hu : Untouched d d' (inode n) := ha.eq ▸ h.untouched_mark hlt n
  have haddr (k : Nat) : ((inode n).setAddr ⟨bn, Nat.lt_succ_of_lt hbn⟩ a).addr d' k =
      if k = bn then a else (inode n).addr d k := by
    rw [Inode.addr_setAddr hbn, hu.addr]
  refine ⟨h.grow (s := .data bn) ha hlt hnone (fun t => ?_) rfl
    (Inode.byte_alloc haddr hnone (h.clear ha hlt).2 fun k hk => hu (.data k) hk), haddr⟩
  cases t with
  | table =>
    rw [if_neg (by simp)]
    exact Inode.table_setAddr hbn
  | data k =>
    rw [Inode.slot, haddr]
    simp [Inode.slot]

theorem grow_table (h : Consistent sb d inode) (ha : Allocated sb d a d')
    (hlt : a.toNat < sb.size.toNat) (hnone : (inode n).table = 0) :
    Grown sb n d inode ((inode n).setAddr (Fin.last NDIRECT) a) d' ∧
      ∀ k, ((inode n).setAddr (Fin.last NDIRECT) a).addr d' k = (inode n).addr d k := by
  obtain ⟨hne, hclear⟩ := h.clear ha hlt
  have hu : Untouched d d' (inode n) := ha.eq ▸ h.untouched_mark hlt n
  have haddr (k : Nat) : ((inode n).setAddr (Fin.last NDIRECT) a).addr d' k =
      (inode n).addr d k := by
    by_cases hk : k < NDIRECT
    · rw [Inode.addr_direct hk, Inode.addr_direct hk]
      exact Inode.setAddr_of_ne fun he => Nat.ne_of_lt hk (Fin.mk.inj he)
    · rw [Inode.addr_of_table hk hnone, Inode.addr, dif_neg hk]
      split
      · rw [Inode.setAddr_table, hclear]
        -- a clear block has no entries
        rw [entry, Memory.read_zero]
        rfl
      · rfl
  have hbyte (pos : Nat) : ((inode n).setAddr (Fin.last NDIRECT) a).byte d' pos =
      (inode n).byte d pos := by
    unfold Inode.byte
    rw [haddr]
    split
    · rfl
    · rename_i hne
      exact congrFun (hu (.data _) hne) _
  refine ⟨h.grow (s := .table) ha hlt hnone (fun t => ?_) rfl hbyte, haddr⟩
  cases t with
  | table =>
    rw [if_pos rfl]
    exact Inode.setAddr_table ..
  | data k =>
    rw [if_neg (by simp)]
    exact haddr k

/-- An entry of the block of addresses, which is written. -/
theorem grow_entry (h : Consistent sb d inode) (ha : Allocated sb d a d')
    (hlt : a.toNat < sb.size.toNat) (ht : (inode n).table ≠ 0) (hj : j < NINDIRECT)
    (hnone : entry (d.block (inode n).table.toNat) j = 0) :
    Grown sb n d inode (inode n) (d'.set (inode n).table.toNat
        (setEntry (d.block (inode n).table.toNat) j a)) ∧
      ∀ k, (inode n).addr (d'.set (inode n).table.toNat
          (setEntry (d.block (inode n).table.toNat) j a)) k =
        if k = NDIRECT + j then a else (inode n).addr d k := by
  obtain ⟨hne, hclear⟩ := h.clear ha hlt
  obtain ⟨hdata, hfresh⟩ := h.owned.fresh hlt ha.free
  have hu (m : Nat) : Untouched d d' (inode m) := ha.eq ▸ h.untouched_mark hlt m
  have haddr (k : Nat) : (inode n).addr (d'.set (inode n).table.toNat
      (setEntry (d.block (inode n).table.toNat) j a)) k =
        if k = NDIRECT + j then a else (inode n).addr d k := by
    by_cases hk : k < NDIRECT
    · rw [Inode.addr_direct hk, Inode.addr_direct hk, if_neg (by omega)]
    · by_cases hmax : k < MAXFILE
      · rw [Inode.addr_entry hk ht hmax, Inode.addr_entry hk ht hmax, Disk.set_self,
          entry_setEntry]
        have he : k - NDIRECT = j ↔ k = NDIRECT + j := by omega
        simp only [he]
      · rw [Inode.addr_of_max hmax, Inode.addr_of_max hmax, if_neg]
        unfold MAXFILE at hmax
        omega
  have hnone' : (inode n).addr d (NDIRECT + j) = 0 := by
    rw [Inode.addr_entry (by omega) ht (by unfold MAXFILE; omega), Nat.add_sub_cancel_left, hnone]
  have hother (m : Nat) (hm : m ≠ n) : Untouched d (d'.set (inode n).table.toNat
      (setEntry (d.block (inode n).table.toNat) j a)) (inode m) := by
    intro t hs
    rw [Disk.set_of_ne, hu m t hs]
    exact h.slot_ne (s := .table) hs fun he => hm (Prod.mk.inj he).1
  have htable : a.toNat ≠ (inode n).table.toNat := fun he =>
    hfresh (n, .table) (BitVec.eq_of_toNat_eq he).symm
  have hbyte := Inode.byte_alloc haddr hnone'
    (by rw [Disk.set_of_ne _ htable, hclear]) fun k hk => by
      have hne : ((inode n).addr d k).toNat ≠ (inode n).table.toNat :=
        h.slot_ne (s := .table) (t := .data k) hk (by simp)
      rw [Disk.set_of_ne _ hne]
      exact hu n (.data k) hk
  obtain rfl := ha.eq
  have hrange := h.table_range ht
  have howned := h.owned.alloc (k := (n, Slot.data (NDIRECT + j))) hlt ha.free hnone'
  have hslots : slots ((d.mark sb a.toNat).set (inode n).table.toNat
      (setEntry (d.block (inode n).table.toNat) j a)) (update inode n (inode n)) =
        update (slots d inode) (n, .data (NDIRECT + j)) a := by
    refine slots_update hother fun t => ?_
    cases t with
    | table => rw [if_neg (by simp)]; rfl
    | data k =>
      rw [Inode.slot, haddr]
      simp [Inode.slot]
  have hkey : update (slots d inode) (n, Slot.data (NDIRECT + j)) a (n, Slot.table) =
      (inode n).table := Function.update_of_ne (by simp) ..
  refine ⟨⟨⟨?_, ?_⟩, fun m hm => ⟨Function.update_of_ne hm .., hother m hm⟩, hbyte, rfl,
    fun b hb => ?_⟩, haddr⟩
  · refine (h.formatted.mark _).set ?_ _
    have := lt_bitmap sb
    have := bitmap_lt_data sb
    omega
  · rw [hslots, ← hkey]
    exact howned.set_slot (h.formatted.mark _) (by rwa [hkey]) _
  · have := bitmap_lt_data sb
    rw [Disk.set_of_ne _ (by omega), Disk.block_mark hlt (.inl hb)]

end Consistent

-- ---------------------------------------------------------------------------
-- bmap
-- ---------------------------------------------------------------------------

/-- A block that the disk does not have is handed out only where all others are in use. -/
theorem Allocated.full (ha : Allocated sb d a d') (hle : sb.size.toNat ≤ a.toNat) : Full sb d' := by
  intro b hb
  rw [ha.eq, Disk.busy_mark, ha.first b (Nat.lt_of_lt_of_le hb hle), Bool.true_or]

theorem balloc_room (h : Formatted sb d) : Outcome balloc (Allocated sb d) (NoRoom sb) d := by
  refine (balloc_outcome h).mono (fun _ _ ha => ha) ?_
  rintro e t ⟨rfl, rfl, hfull⟩
  exact ⟨.inl rfl, hfull⟩

theorem NoRoom.beyond (b : Nat) (h : Full sb d) : NoRoom sb (.beyond b) d := ⟨.inr ⟨b, rfl⟩, h⟩

/-- A block that is asked for is there or beyond the disk. -/
theorem bread_room {Q : Block → Disk → Prop} {E : Fault → Disk → Prop}
    (hsize : d.size = sb.size.toNat) (hok : b < sb.size.toNat → Q (d.block b) d)
    (hfull : sb.size.toNat ≤ b → E (.beyond b) d) : Outcome (bread b) Q E d := by
  rw [bread_outcome, hsize]
  split
  · rename_i hlt
    exact hok hlt
  · rename_i hle
    exact hfull (Nat.le_of_not_lt hle)

theorem bmapTable_outcome (h : Consistent sb d inode) (n : Nat) :
    Outcome (bmapTable (inode n)) (fun ip' d' => d'.size = sb.size.toNat ∧
      (ip'.table.toNat < sb.size.toNat → Grown sb n d inode ip' d' ∧ ip'.table ≠ 0 ∧
        ∀ k, ip'.addr d' k = (inode n).addr d k) ∧
      (sb.size.toNat ≤ ip'.table.toNat → Full sb d')) (NoRoom sb) d := by
  unfold bmapTable
  split
  · rename_i hnone
    refine (balloc_room h.formatted).seq fun a d' ha => ?_
    rw [Outcome.pure, Inode.setAddr_table]
    refine ⟨?_, fun hlt => ?_, ha.full⟩
    · rw [ha.eq, Disk.mark_size, h.formatted.size]
    · obtain ⟨hgrown, haddr⟩ := h.grow_table ha hlt hnone
      exact ⟨hgrown, (h.clear ha hlt).1, haddr⟩
  · rename_i hne
    refine Outcome.pure.mpr ⟨h.formatted.size, fun _ => ⟨.refl h n, hne, fun _ => rfl⟩,
      fun hle => ?_⟩
    exact absurd (h.table_range hne).2 (Nat.not_lt.mpr hle)

theorem bmapEntry_outcome (h : Consistent sb d inode) (ht : (inode n).table ≠ 0)
    (hj : j < NINDIRECT) : Outcome (bmapEntry (inode n) j) (fun a d' =>
      d'.size = sb.size.toNat ∧
      (a.toNat < sb.size.toNat → Grown sb n d inode (inode n) d' ∧ a ≠ 0 ∧
        ∀ k, (inode n).addr d' k = if k = NDIRECT + j then a else (inode n).addr d k) ∧
      (sb.size.toNat ≤ a.toNat → Full sb d')) (NoRoom sb) d := by
  obtain ⟨hdata, hsize⟩ := h.table_range ht
  have haddr : (inode n).addr d (NDIRECT + j) = entry (d.block (inode n).table.toNat) j := by
    rw [Inode.addr_entry (by omega) ht (by unfold MAXFILE; omega), Nat.add_sub_cancel_left]
  unfold bmapEntry
  rw [Outcome.bind, bread_ok (by rw [h.formatted.size]; exact hsize)]
  split
  · rename_i hnone
    refine (balloc_room h.formatted).seq fun a d' ha => ?_
    rw [Outcome.bind, bwrite_outcome, Outcome.pure]
    refine ⟨?_, fun hlt => ?_, fun hle b hb => ?_⟩
    · rw [Disk.set_size, ha.eq, Disk.mark_size, h.formatted.size]
    · obtain ⟨hgrown, haddr⟩ := h.grow_entry ha hlt ht hj hnone
      exact ⟨hgrown, (h.clear ha hlt).1, haddr⟩
    · rw [Disk.busy_set (.inr hdata) (Nat.le_of_lt hb)]
      exact ha.full hle b hb
  · rename_i hne
    have hused : (inode n).addr d (NDIRECT + j) ≠ 0 := by rwa [haddr]
    have hrange := h.addr_range hused
    rw [haddr] at hrange
    refine Outcome.pure.mpr ⟨h.formatted.size, fun _ => ⟨.refl h n, hne, fun k => ?_⟩,
      fun hle => absurd hrange.2 (Nat.not_lt.mpr hle)⟩
    split
    · rename_i hk
      rw [hk, haddr]
    · rfl

theorem Mapped.le_max (hm : Mapped ip d nb) : nb ≤ MAXFILE :=
  Nat.le_of_not_lt fun hlt => (hm.addr MAXFILE).mpr hlt (Inode.addr_of_max (Nat.lt_irrefl _))

/-- `bmap` of a block that the file has. -/
theorem bmap_found {Q : Word × Inode → Disk → Prop} {E : Fault → Disk → Prop}
    (h : Consistent sb d inode) (hm : Mapped (inode n) d nb) (hlt : bn < nb) :
    Outcome (bmap (inode n) bn) Q E d ↔ Q ((inode n).addr d bn, inode n) d := by
  have hne := (hm.addr bn).mpr hlt
  have hmax := hm.le_max
  unfold bmap
  split
  · rename_i hdirect
    rw [Inode.addr_direct hdirect] at hne ⊢
    dsimp only
    rw [if_neg hne, Outcome.pure]
  · rename_i hdirect
    have ht : (inode n).table ≠ 0 := hm.table.mpr (by omega)
    rw [Inode.addr_entry hdirect ht (by omega)] at hne ⊢
    have hlt := (h.table_range ht).2
    unfold bmapTable bmapEntry
    rw [if_pos (by unfold MAXFILE at hmax; omega), if_neg ht, Outcome.bind, Outcome.pure,
      Outcome.bind, Outcome.bind, bread_ok (by rw [h.formatted.size]; exact hlt), if_neg hne,
      Outcome.pure, Outcome.pure]

/-- What `bmap` returns where the disk has the block: the file has it, and no other new one. -/
structure Fetched (sb : Superblock) (d : Disk) (inode : Nat → Inode) (n nb bn : Nat)
    (r : Word × Inode) (d' : Disk) : Prop where
  grown : Grown sb n d inode r.2 d'
  addr : r.2.addr d' bn = r.1
  mapped : Mapped r.2 d' (max nb (bn + 1))
  same : bn < nb → r.2 = inode n

theorem Mapped.add (haddr : ∀ k, ip.addr d k ≠ 0 ↔ k < nb) (hle : bn ≤ nb) (ha : a ≠ 0)
    (hnew : ∀ k, ip'.addr d' k = if k = bn then a else ip.addr d k)
    (ht : ip'.table ≠ 0 ↔ NDIRECT < max nb (bn + 1)) : Mapped ip' d' (max nb (bn + 1)) where
  addr k := by
    rw [hnew]
    split
    · rename_i hk
      exact ⟨fun _ => by omega, fun _ => ha⟩
    · rename_i hk
      rw [haddr]
      omega
  table := ht

/-- `bmap` of the next block. -/
theorem bmap_next (h : Consistent sb d inode) (hm : Mapped (inode n) d nb) (hle : bn ≤ nb)
    (hlt : ¬ bn < nb) (hmax : bn < MAXFILE) : Outcome (bmap (inode n) bn)
      (fun r d' => d'.size = sb.size.toNat ∧
        (r.1.toNat < sb.size.toNat → Fetched sb d inode n nb bn r d') ∧
        (sb.size.toNat ≤ r.1.toNat → Full sb d')) (NoRoom sb) d := by
  unfold bmap
  split
  · rename_i hdirect
    have haddr : (inode n).addr d bn = (inode n).addrs _ := Inode.addr_direct hdirect
    dsimp only
    split
    · rename_i hnone
      refine (balloc_room h.formatted).seq fun a d' ha =>
        Outcome.pure.mpr ⟨?_, fun hsize => ?_, ha.full⟩
      · rw [ha.eq, Disk.mark_size, h.formatted.size]
      · obtain ⟨hgrown, hnew⟩ := h.grow_direct ha hsize hdirect (haddr.trans hnone)
        refine ⟨hgrown, ?_, .add hm.addr hle (h.clear ha hsize).1 hnew ?_,
          fun hin => absurd hin hlt⟩
        · rw [hnew, if_pos rfl]
        · rw [Inode.table_setAddr hdirect, hm.table]
          omega
    · rename_i hne
      exact absurd ((hm.addr bn).mp (by rwa [haddr])) hlt
  · rename_i hdirect
    have hj : bn - NDIRECT < NINDIRECT := by
      unfold MAXFILE at hmax
      omega
    have hbn : NDIRECT + (bn - NDIRECT) = bn := by omega
    rw [if_pos hj]
    refine (bmapTable_outcome h n).seq fun ip' d1 ⟨hsize, hok, hfull⟩ => ?_
    by_cases htable : ip'.table.toNat < sb.size.toNat
    · obtain ⟨hgrown, ht, haddr⟩ := hok htable
      have hentry := bmapEntry_outcome (n := n) (j := bn - NDIRECT) hgrown.consistent
        (by rwa [Function.update_self]) hj
      simp only [Function.update_self, hbn] at hentry
      refine hentry.seq fun a d2 ⟨hsize2, hok2, hfull2⟩ => Outcome.pure.mpr
        ⟨hsize2, fun hlt2 => ?_, hfull2⟩
      obtain ⟨hgrown2, hne, hnew⟩ := hok2 hlt2
      refine ⟨hgrown.trans hgrown2, ?_, .add (fun k => ?_) hle hne hnew ?_,
        fun hin => absurd hin hlt⟩
      · rw [hnew, if_pos rfl]
      · rw [haddr, hm.addr]
      · exact iff_of_true ht (by omega)
    · unfold bmapEntry
      rw [Outcome.bind, Outcome.bind]
      exact bread_room hsize (fun hlt' => absurd hlt' htable) fun hle => .beyond _ (hfull hle)

/-- `bmap` of a block of a file or of the next one, for which there may be no room. -/
theorem bmap_outcome {F : Prop} (h : Consistent sb d inode) (hm : Mapped (inode n) d nb)
    (hle : bn ≤ nb) (hmax : bn < MAXFILE) (hF : nb ≤ bn → F) : Outcome (bmap (inode n) bn)
      (fun r d' => d'.size = sb.size.toNat ∧
        (r.1.toNat < sb.size.toNat → Fetched sb d inode n nb bn r d') ∧
        (sb.size.toNat ≤ r.1.toNat → Full sb d' ∧ F)) (fun e d' => NoRoom sb e d' ∧ F) d := by
  by_cases hlt : bn < nb
  · have hsize := (h.addr_range ((hm.addr bn).mpr hlt)).2
    refine (bmap_found h hm hlt).mpr ⟨h.formatted.size, fun _ => ⟨.refl h n, rfl, ?_, fun _ => rfl⟩,
      fun hle => absurd hsize (Nat.not_lt.mpr hle)⟩
    rwa [show max nb (bn + 1) = nb by omega]
  · have hF := hF (Nat.le_of_not_lt hlt)
    refine (bmap_next h hm hle hlt hmax).mono (fun r d' hr => ?_) fun e d' he => ⟨he, hF⟩
    obtain ⟨hsize, hok, hfull⟩ := hr
    exact ⟨hsize, hok, fun hle => ⟨hfull hle, hF⟩⟩

end PerrOS.Fs
