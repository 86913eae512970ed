import PerrOS.Fs.Map

/-!
# Reading and writing files

The loops of `readi` and `writei` cut a range of a file at the ends of its
blocks. What is read is what the file holds there; what is written is there
afterwards, and the rest of the file and all other files are as before.
-/

namespace PerrOS.Fs

open Lib
open Function (update)

variable {sb : Superblock} {d d' : Disk} {inode : Nat → Inode}
  {n nb bn off pos k : Nat} {ip ip' : Inode} {src : List Byte} {x : Block}

/-- The number of blocks that `len` bytes take. -/
def blocks (len : Nat) : Nat := (len + (BSIZE - 1)) / BSIZE

theorem lt_blocks (pos len : Nat) (h : pos < len) : pos / BSIZE < blocks len := by
  unfold blocks BSIZE
  omega

-- ---------------------------------------------------------------------------
-- readi
-- ---------------------------------------------------------------------------

/-- The bytes of a file from `off` on. -/
def Inode.bytes (ip : Inode) (d : Disk) (off n : Nat) : List Byte :=
  (List.range n).map fun i => ip.byte d (off + i)

theorem Inode.bytes_add (ip : Inode) (d : Disk) (off m n : Nat) :
    ip.bytes d off (m + n) = ip.bytes d off m ++ ip.bytes d (off + m) n := by
  unfold bytes
  rw [List.range_add, List.map_append, List.map_map]
  refine congrArg _ (List.map_congr_left fun i _ => ?_)
  rw [Function.comp_apply, Nat.add_assoc]

/-- A part of one block. -/
theorem Inode.slice_eq (ha : ip.addr d (off / BSIZE) ≠ 0) (hm : off % BSIZE + m ≤ BSIZE) :
    (d.block (ip.addr d (off / BSIZE)).toNat).slice (off % BSIZE) m = ip.bytes d off m := by
  refine List.map_congr_left fun i hi => ?_
  have hi := List.mem_range.mp hi
  have hdiv : (off + i) / BSIZE = off / BSIZE := by
    unfold BSIZE at *
    omega
  have hmod : (off + i) % BSIZE = off % BSIZE + i := by
    unfold BSIZE at *
    omega
  rw [byte, hdiv, if_neg ha, hmod]

theorem readiFrom_outcome {Q : List Byte × Inode → Disk → Prop} {E : Fault → Disk → Prop}
    (h : Consistent sb d inode) (hm : Mapped (inode n) d nb) (hnb : off + left ≤ BSIZE * nb)
    (hk : left ≤ k) : Outcome (readiFrom k (inode n) off left) Q E d ↔
      Q ((inode n).bytes d off left, inode n) d := by
  induction k generalizing off left Q with
  | zero =>
    obtain rfl := Nat.le_zero.mp hk
    exact Iff.rfl
  | succ k ih =>
    unfold readiFrom
    by_cases h0 : left = 0
    · subst h0
      rw [if_pos rfl]
      exact Iff.rfl
    · rw [if_neg h0]
      have hlt : off / BSIZE < nb := by
        unfold BSIZE at *
        omega
      have ha := (hm.addr _).mpr hlt
      obtain ⟨m, hmin⟩ : ∃ m, m = min left (BSIZE - off % BSIZE) := ⟨_, rfl⟩
      have hmod := Nat.mod_lt off (by decide : BSIZE > 0)
      rw [Outcome.bind, bmap_found h hm hlt, Outcome.bind,
        bread_ok (by rw [h.formatted.size]; exact (h.addr_range ha).2)]
      dsimp only
      rw [← hmin, Outcome.bind, ih (by omega) (by omega), Outcome.pure,
        Inode.slice_eq ha (by omega), ← Inode.bytes_add, Nat.add_sub_cancel' (by omega)]

-- ---------------------------------------------------------------------------
-- writei
-- ---------------------------------------------------------------------------

/-- `src` is written at `off` of a file that has the blocks below `nb`. -/
structure Written (sb : Superblock) (d : Disk) (inode : Nat → Inode) (n nb off : Nat)
    (src : List Byte) (ip' : Inode) (d' : Disk) : Prop where
  consistent : Consistent sb d' (update inode n ip')
  frame : Frame n d inode d' (update inode n ip')
  mapped : Mapped ip' d' (max nb (blocks (off + src.length)))
  byte : ∀ pos, ip'.byte d' pos = if off ≤ pos ∧ pos < off + src.length
    then src.getD (pos - off) 0 else (inode n).byte d pos
  fields : ip' = { inode n with addrs := ip'.addrs }
  low : ∀ b < sb.bitmap, d'.block b = d.block b
  same : off + src.length ≤ BSIZE * nb → ip' = inode n

theorem Written.nil (h : Consistent sb d inode) (hm : Mapped (inode n) d nb)
    (hoff : off ≤ BSIZE * nb) : Written sb d inode n nb off [] (inode n) d where
  consistent := (Grown.refl h n).consistent
  frame := (Grown.refl h n).frame
  mapped := by
    have : max nb (blocks (off + ([] : List Byte).length)) = nb := by
      unfold blocks BSIZE at *
      rw [List.length_nil]
      omega
    rwa [this]
  byte pos := by
    rw [if_neg]
    rw [List.length_nil]
    omega
  fields := rfl
  low _ _ := rfl
  same _ := rfl

/-- One block of the file is written. -/
theorem Fetched.write {r : Word × Inode} {d1 : Disk} (hf : Fetched sb d inode n nb bn r d1)
    (hr : r.1 ≠ 0) (x : Block) : Consistent sb (d1.set r.1.toNat x) (update inode n r.2) ∧
      Frame n d inode (d1.set r.1.toNat x) (update inode n r.2) ∧
      Mapped r.2 (d1.set r.1.toNat x) (max nb (bn + 1)) ∧
      (∀ pos, r.2.byte (d1.set r.1.toNat x) pos =
        if pos / BSIZE = bn then x (pos % BSIZE) else (inode n).byte d pos) ∧
      ∀ b < sb.bitmap, (d1.set r.1.toNat x).block b = d.block b := by
  obtain ⟨a, ip⟩ := r
  obtain ⟨hgrown, haddr, hmapped, -⟩ := hf
  dsimp only at hgrown haddr hmapped hr ⊢
  subst haddr
  have hcons := hgrown.consistent
  have ha : (update inode n ip n).addr d1 bn ≠ 0 := by rwa [Function.update_self]
  obtain ⟨hslots, hset⟩ := hcons.set_data ha x
  have hbyte := hcons.byte_set ha x
  have hframe (m : Nat) (hm : m ≠ n) := hcons.untouched_set (s := .data bn) x hm
  simp only [Function.update_self, Inode.slot] at hslots hset hbyte hframe
  refine ⟨hset, hgrown.frame.trans fun m hm => ⟨rfl, hframe m hm⟩, ⟨fun k => ?_, hmapped.table⟩,
    fun pos => ?_, fun b hb => ?_⟩
  · have hk := congrFun hslots (n, .data k)
    simp only [slots, Function.update_self, Inode.slot] at hk
    rw [hk, hmapped.addr]
  · rw [hbyte, hgrown.byte]
  · have hrange := hcons.addr_range ha
    rw [Function.update_self] at hrange
    have := bitmap_lt_data sb
    rw [Disk.set_of_ne _ (by omega), hgrown.low b hb]

/-- The part of `src` that goes into the block of `off`, and the rest. -/
theorem getD_splice {old : Byte} (hm : m = min src.length (BSIZE - off % BSIZE))
    (hx : pos / BSIZE = off / BSIZE → x (pos % BSIZE) = old) :
    (if off + m ≤ pos ∧ pos < off + m + (src.drop m).length
      then (src.drop m).getD (pos - (off + m)) 0
      else if pos / BSIZE = off / BSIZE
        then x.splice (off % BSIZE) (src.take m) (pos % BSIZE) else old) =
      if off ≤ pos ∧ pos < off + src.length then src.getD (pos - off) 0 else old := by
  have hlen : (src.take m).length = m := by
    rw [List.length_take]
    omega
  have hmod := Nat.mod_lt off (by decide : BSIZE > 0)
  rw [List.length_drop]
  by_cases hrest : off + m ≤ pos ∧ pos < off + m + (src.length - m)
  · rw [if_pos hrest, if_pos (by omega), List.getD_eq_getElem?_getD, List.getElem?_drop,
      List.getD_eq_getElem?_getD]
    congr 2
    omega
  · rw [if_neg hrest]
    by_cases hblock : pos / BSIZE = off / BSIZE
    · rw [if_pos hblock, Memory.splice, hlen, hx hblock]
      by_cases hin : off ≤ pos ∧ pos < off + src.length
      · rw [if_pos hin, if_pos (by unfold BSIZE at *; omega), List.getD_eq_getElem?_getD,
          List.getElem?_take, if_pos (by unfold BSIZE at *; omega), List.getD_eq_getElem?_getD]
        congr 2
        unfold BSIZE at *
        omega
      · rw [if_neg hin, if_neg (by unfold BSIZE at *; omega)]
    · rw [if_neg hblock, if_neg (by unfold BSIZE at *; omega)]

theorem writeiFrom_outcome (h : Consistent sb d inode) (hm : Mapped (inode n) d nb)
    (hoff : off ≤ BSIZE * nb) (hmax : off + src.length ≤ MAXFILE * BSIZE) (hk : src.length ≤ k) :
    Outcome (writeiFrom k (inode n) off src) (Written sb d inode n nb off src)
      (fun e d' => NoRoom sb e d' ∧ BSIZE * nb < off + src.length) d := by
  induction k generalizing d inode nb off src with
  | zero =>
    obtain rfl := List.eq_nil_of_length_eq_zero (Nat.le_zero.mp hk)
    exact Outcome.pure.mpr (.nil h hm hoff)
  | succ k ih =>
    unfold writeiFrom
    by_cases h0 : src = []
    · subst h0
      rw [if_pos rfl]
      exact Outcome.pure.mpr (.nil h hm hoff)
    · rw [if_neg h0]
      have hpos := List.length_pos_iff.mpr h0
      obtain ⟨m, hmin⟩ : ∃ m, m = min src.length (BSIZE - off % BSIZE) := ⟨_, rfl⟩
      have hmod := Nat.mod_lt off (by decide : BSIZE > 0)
      have hnext : nb ≤ off / BSIZE → BSIZE * nb < off + src.length := by
        unfold BSIZE at *
        omega
      refine (bmap_outcome h hm (by unfold BSIZE at *; omega) (by unfold BSIZE at *; omega)
        hnext).seq fun r d1 ⟨hsize, hok, hfull⟩ => ?_
      refine Outcome.bind.mpr (bread_room hsize (fun hlt => ?_) fun hle =>
        ⟨.beyond _ (hfull hle).1, (hfull hle).2⟩)
      have hf := hok hlt
      have hr : r.1 ≠ 0 := by
        rw [← hf.addr]
        exact (hf.mapped.addr _).mpr (by omega)
      obtain ⟨hcons, hframe, hmapped, hbyte, hlow⟩ :=
        hf.write hr ((d1.block r.1.toNat).splice (off % BSIZE) (src.take m))
      have hmax' : off + m + (src.drop m).length ≤ MAXFILE * BSIZE := by
        rw [List.length_drop]
        omega
      have hrest := ih hcons (by rwa [Function.update_self]) (by unfold BSIZE at *; omega) hmax'
        (by rw [List.length_drop]; omega)
      dsimp only
      rw [Outcome.bind, bwrite_outcome, ← hmin]
      rw [Function.update_self] at hrest
      refine hrest.mono (fun ip' d' hw => ⟨by simpa using hw.consistent,
        hframe.trans (by simpa using hw.frame), ?_, fun pos => ?_, ?_,
        fun b hb => by rw [hw.low b hb, hlow b hb], fun hin => ?_⟩) fun e d' he => ⟨he.1, ?_⟩
      · have hlen : max (max nb (off / BSIZE + 1)) (blocks (off + m + (src.drop m).length)) =
            max nb (blocks (off + src.length)) := by
          rw [List.length_drop]
          unfold blocks BSIZE at *
          omega
        rw [← hlen]
        exact hw.mapped
      · rw [hw.byte, Function.update_self, hbyte]
        refine getD_splice hmin fun hblock => ?_
        rw [← hf.grown.byte, Inode.byte, hblock, hf.addr, if_neg hr]
      · have := hw.fields
        rw [Function.update_self] at this
        rw [this, hf.grown.fields]
      · have := hw.same (by rw [List.length_drop]; unfold BSIZE at *; omega)
        rw [this, Function.update_self, hf.same (by unfold BSIZE at *; omega)]
      · have := he.2
        rw [List.length_drop] at this
        unfold BSIZE at *
        omega

end PerrOS.Fs
