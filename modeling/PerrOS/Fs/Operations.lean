import PerrOS.Fs.Truncate
import PerrOS.Lib.Overwrite

/-!
# The operations on inodes

What each routine makes of the files of a disk, as lists of bytes: it changes one
file and leaves the disk sound. The copy of the inode in memory is the one on the
disk before and after.
-/

namespace PerrOS.Fs

open Lib
open Function (update)

structure File where
  type : BitVec 16
  major : BitVec 16
  minor : BitVec 16
  nlink : BitVec 16
  data : List Byte
deriving DecidableEq

def File.read (f : File) (off n : Word) : Option (List Byte) :=
  if f.data.length < off.toNat ∨ 2 ^ 32 ≤ off.toNat + n.toNat then none
  else some ((f.data.drop off.toNat).take n.toNat)

/-- The number of bytes written, and the file. -/
def File.write (f : File) (off : Word) (src : List Byte) : Option Nat × File :=
  if f.data.length < off.toNat ∨ 2 ^ 32 ≤ off.toNat + src.length then (none, f)
  else
    let src := src.take (MAXFILE * BSIZE - off.toNat)
    (some src.length, { f with data := overwrite f.data off.toNat src })

/-- The file of an inode. -/
def Inode.file (ip : Inode) (d : Disk) : File :=
  ⟨ip.type, ip.major, ip.minor, ip.nlink, ip.bytes d 0 ip.size.toNat⟩

/-- The file with the number `n`, where the inode is in use. -/
def Disk.file (sb : Superblock) (d : Disk) (n : Nat) : Option File :=
  if (d.inode sb n).type = 0 then none else some ((d.inode sb n).file d)

/-- A disk between the operations. -/
structure Sound (sb : Superblock) (d : Disk) : Prop where
  consistent : Consistent sb d (d.inode sb)
  mapped : ∀ n, Mapped (d.inode sb n) d (blocks (d.inode sb n).size.toNat)
  free : ∀ n, (d.inode sb n).type = 0 → (d.inode sb n).size = 0
  /-- The rest of the last block is clear. -/
  tail : ∀ n pos, (d.inode sb n).size.toNat ≤ pos → (d.inode sb n).byte d pos = 0

variable {sb : Superblock} {d d' : Disk} {n nb : Nat} {ip ip' : Inode} {off : Word}
  {src : List Byte}

theorem Sound.size_le (h : Sound sb d) (n : Nat) :
    (d.inode sb n).size.toNat ≤ MAXFILE * BSIZE := by
  have := (h.mapped n).le_max
  unfold blocks BSIZE at *
  omega

theorem Inode.length_bytes (ip : Inode) (d : Disk) (off n : Nat) :
    (ip.bytes d off n).length = n := by
  simp [bytes]

/-- The operation has changed the inode `n`, on the disk as well, and no other file. -/
structure Commit (sb : Superblock) (d : Disk) (n : Nat) (ip' : Inode) (d' : Disk) : Prop where
  sound : Sound sb d'
  inode : d'.inode sb = update (d.inode sb) n ip'
  others : ∀ m, m ≠ n → d'.file sb m = d.file sb m

theorem Commit.refl (h : Sound sb d) (n : Nat) : Commit sb d n (d.inode sb n) d :=
  ⟨h, (Function.update_eq_self ..).symm, fun _ _ => rfl⟩

theorem Commit.inode_self (h : Commit sb d n ip' d') : d'.inode sb n = ip' := by
  rw [h.inode, Function.update_self]

/-- The changed file. -/
theorem Commit.file_self (h : Commit sb d n ip' d') (ht : ip'.type ≠ 0) :
    d'.file sb n = some (ip'.file d') := by
  rw [Disk.file, h.inode_self, if_neg ht]

theorem Untouched.file (h : Untouched d d' ip) : ip.file d' = ip.file d := by
  unfold Inode.file Inode.bytes
  simp only [h.byte]

/-- The steps of an operation that end with the inode on the disk. -/
theorem Sound.commit (h : Sound sb d) (hcons : Consistent sb d' (update (d.inode sb) n ip'))
    (hframe : Frame n d (d.inode sb) d' (update (d.inode sb) n ip'))
    (hinode : d'.inode sb = update (d.inode sb) n ip')
    (hmapped : Mapped ip' d' (blocks ip'.size.toNat)) (hfree : ip'.type = 0 → ip'.size = 0)
    (htail : ∀ pos, ip'.size.toNat ≤ pos → ip'.byte d' pos = 0) : Commit sb d n ip' d' := by
  refine ⟨⟨hinode ▸ hcons, fun m => ?_, fun m hm => ?_, fun m pos hpos => ?_⟩, hinode,
    fun m hm => ?_⟩
  · by_cases he : m = n
    · subst he
      rw [hinode, Function.update_self]
      exact hmapped
    · obtain ⟨hsame, hu⟩ := hframe m he
      rw [hinode, hsame]
      exact hu.mapped (h.mapped m)
  · by_cases he : m = n
    · subst he
      rw [hinode, Function.update_self] at hm ⊢
      exact hfree hm
    · rw [hinode, Function.update_of_ne he] at hm ⊢
      exact h.free m hm
  · by_cases he : m = n
    · subst he
      rw [hinode, Function.update_self] at hpos ⊢
      exact htail pos hpos
    · obtain ⟨hsame, hu⟩ := hframe m he
      rw [hinode, hsame] at hpos ⊢
      rw [hu.byte, h.tail m pos hpos]
  · obtain ⟨hsame, hu⟩ := hframe m hm
    rw [Disk.file, Disk.file, hinode, hsame, hu.file]

/-- An inode is changed in memory and written to the disk. -/
theorem Sound.commit_iupdate (h : Sound sb d) (hn : n < sb.ninodes.toNat) (ip' : Inode) (d1 : Disk)
    (hcons : Consistent sb d1 (update (d.inode sb) n ip'))
    (hframe : Frame n d (d.inode sb) d1 (update (d.inode sb) n ip'))
    (hinode : update (d1.inode sb) n ip' = update (d.inode sb) n ip')
    (hmapped : Mapped ip' d1 (blocks ip'.size.toNat)) (hfree : ip'.type = 0 → ip'.size = 0)
    (htail : ∀ pos, ip'.size.toNat ≤ pos → ip'.byte d1 pos = 0) :
    Commit sb d n ip' (d1.set (IBLOCK n) (ip'.store (d1.block (IBLOCK n)) (n % IPB))) ∧
      ip'.file (d1.set (IBLOCK n) (ip'.store (d1.block (IBLOCK n)) (n % IPB))) = ip'.file d1 := by
  obtain ⟨hcons', hu⟩ := hcons.iupdate hn (ip'.store (d1.block (IBLOCK n)) (n % IPB))
  have hself := hu n
  rw [Function.update_self] at hself
  refine ⟨h.commit hcons' (hframe.trans fun m _ => ⟨rfl, hu m⟩) ?_ (hself.mapped hmapped) hfree
    fun pos hpos => by rw [hself.byte, htail pos hpos], hself.file⟩
  rw [Disk.inode_store hn, hinode]

-- ---------------------------------------------------------------------------
-- iupdate, ialloc, iput
-- ---------------------------------------------------------------------------

/-- The links of an inode and its device are changed. -/
def Inode.relink (ip : Inode) (major minor nlink : BitVec 16) : Inode :=
  { ip with major, minor, nlink }

theorem relink_outcome {E : Fault → Disk → Prop} (h : Sound sb d) (hn : n < sb.ninodes.toNat)
    (major minor nlink : BitVec 16) :
    Outcome (iupdate n ((d.inode sb n).relink major minor nlink)) (fun _ d' =>
      Commit sb d n ((d.inode sb n).relink major minor nlink) d' ∧
        ((d.inode sb n).relink major minor nlink).file d' =
          { (d.inode sb n).file d with major, minor, nlink }) E d := by
  refine (iupdate_outcome h.consistent.formatted hn).mpr ?_
  have hbyte (pos : Nat) : ((d.inode sb n).relink major minor nlink).byte d pos =
      (d.inode sb n).byte d pos := Inode.byte_addrs rfl d pos
  obtain ⟨hcommit, hfile⟩ := h.commit_iupdate hn ((d.inode sb n).relink major minor nlink) d
    (h.consistent.addrs _ rfl) (fun m hm => ⟨Function.update_of_ne hm .., .refl d _⟩) rfl
    ((h.mapped n).addrs rfl) (h.free n) fun pos hpos => (hbyte pos).trans (h.tail n pos hpos)
  refine ⟨hcommit, hfile.trans ?_⟩
  unfold Inode.file Inode.bytes
  simp only [hbyte]
  rfl

theorem blocks_zero : blocks (0 : Word).toNat = 0 := by decide

/-- The slots of an inode that is not in use. -/
theorem Sound.slot_free (h : Sound sb d) (ht : (d.inode sb n).type = 0) (s : Slot) :
    (d.inode sb n).slot d s = 0 := by
  have hm := h.mapped n
  rw [h.free n ht, blocks_zero] at hm
  refine Classical.not_not.mp fun hne => ?_
  cases s with
  | table => exact Nat.not_lt_zero _ (hm.table.mp hne)
  | data bn => exact Nat.not_lt_zero _ ((hm.addr bn).mp hne)

/-- The inode that `ialloc` writes. -/
def Inode.fresh (type : BitVec 16) : Inode := ⟨type, 0, 0, 0, 0, fun _ => 0⟩

theorem Sound.commit_ialloc (h : Sound sb d) (hn : n < sb.ninodes.toNat)
    (ht : (d.inode sb n).type = 0) (type : BitVec 16) :
    Commit sb d n (.fresh type) (d.set (IBLOCK n)
        ((Inode.fresh type).store (d.block (IBLOCK n)) (n % IPB))) ∧
      (Inode.fresh type).file (d.set (IBLOCK n)
        ((Inode.fresh type).store (d.block (IBLOCK n)) (n % IPB))) = ⟨type, 0, 0, 0, []⟩ := by
  have hslots : slots d (update (d.inode sb) n (.fresh type)) = slots d (d.inode sb) := by
    funext ⟨m, t⟩
    by_cases hm : m = n
    · subst hm
      rw [slots, Function.update_self]
      exact (Inode.slot_cleared (.fresh type) d t).trans (h.slot_free ht t).symm
    · rw [slots, Function.update_of_ne hm]
      rfl
  have hmapped : Mapped (.fresh type) d (blocks (0 : Word).toNat) := by
    rw [blocks_zero]
    exact .cleared (.fresh type) d
  obtain ⟨hcommit, hfile⟩ := h.commit_iupdate hn (.fresh type) d
    ⟨h.consistent.formatted, by rw [hslots]; exact h.consistent.owned⟩
    (fun m hm => ⟨Function.update_of_ne hm .., .refl d _⟩) rfl hmapped (fun _ => rfl)
    fun pos _ => Inode.byte_cleared (.fresh type) d pos
  exact ⟨hcommit, hfile⟩

/-- What `ialloc` returns: the first inode that is not in use. -/
structure Ialloced (sb : Superblock) (d : Disk) (type : BitVec 16) (n : Nat) (d' : Disk) :
    Prop where
  pos : 1 ≤ n
  lt : n < sb.ninodes.toNat
  free : (d.inode sb n).type = 0
  first : ∀ m, 1 ≤ m → m < n → (d.inode sb m).type ≠ 0
  commit : Commit sb d n (.fresh type) d'
  file : (Inode.fresh type).file d' = ⟨type, 0, 0, 0, []⟩

theorem iallocFrom_outcome (h : Sound sb d) (type : BitVec 16) (hpos : 1 ≤ n)
    (hused : ∀ m, 1 ≤ m → m < n → (d.inode sb m).type ≠ 0) (hk : sb.ninodes.toNat ≤ n + k) :
    Outcome (iallocFrom sb.ninodes.toNat type k n) (Ialloced sb d type)
      (fun e t => e = .panic "ialloc: no inodes" ∧ t = d ∧
        ∀ m, 1 ≤ m → m < sb.ninodes.toNat → (d.inode sb m).type ≠ 0) d := by
  induction k generalizing n with
  | zero =>
    rw [iallocFrom, Outcome.throw]
    exact ⟨rfl, rfl, fun m hm hlt => hused m hm (by omega)⟩
  | succ k ih =>
    unfold iallocFrom
    split
    · rename_i hlt
      have hblock := (IBLOCK_lt hlt).2
      have := bitmap_lt_data sb
      have htype : (d.inode sb n).type = (Inode.load (d.block (IBLOCK n)) (n % IPB)).type := by
        rw [Disk.inode, if_pos hlt]
      rw [Outcome.bind, bread_ok (h.consistent.formatted.lt_size (by omega)), ← htype]
      split
      · rename_i hfree
        dsimp only
        rw [Outcome.bind, bwrite_outcome, Outcome.pure]
        obtain ⟨hcommit, hfile⟩ := h.commit_ialloc hlt hfree type
        exact ⟨hpos, hlt, hfree, hused, hcommit, hfile⟩
      · rename_i hne
        refine ih (by omega) (fun m hm hmn => ?_) (by omega)
        rcases Nat.lt_succ_iff_lt_or_eq.mp hmn with hlt | rfl
        · exact hused m hm hlt
        · exact hne
    · rename_i hge
      rw [Outcome.throw]
      exact ⟨rfl, rfl, fun m hm hlt => hused m hm (by omega)⟩

theorem ialloc_outcome (h : Sound sb d) (type : BitVec 16) :
    Outcome (ialloc type) (Ialloced sb d type) (fun e t => e = .panic "ialloc: no inodes" ∧ t = d ∧
      ∀ m, 1 ≤ m → m < sb.ninodes.toNat → (d.inode sb m).type ≠ 0) d := by
  unfold ialloc
  rw [Outcome.bind, readsb_ok h.consistent.formatted]
  exact iallocFrom_outcome h type (Nat.le_refl 1) (fun m hm hlt => absurd hlt (by omega))
    (Nat.le_add_left ..)

theorem ifree_outcome {E : Fault → Disk → Prop} (h : Sound sb d) (hn : n < sb.ninodes.toNat) :
    Outcome (ifree n (d.inode sb n)) (fun _ d' =>
      Commit sb d n { (d.inode sb n).cleared with type := 0 } d') E d := by
  unfold ifree
  refine (itrunc_outcome h.consistent hn).seq fun ip1 d1 ⟨he, hcons, hframe, hinode⟩ => ?_
  subst he
  have hcons1 := hcons.addrs (n := n) { (d.inode sb n).cleared with type := 0 }
    (by rw [Function.update_self])
  rw [Function.update_idem] at hcons1
  have hmapped : Mapped { (d.inode sb n).cleared with type := 0 } d1 (blocks (0 : Word).toNat) := by
    rw [blocks_zero]
    exact .cleared { d.inode sb n with type := 0 } d1
  refine (iupdate_outcome hcons.formatted hn).mpr (h.commit_iupdate hn _ d1 hcons1 ?_ ?_ hmapped
    (fun _ => rfl) fun pos _ => Inode.byte_cleared { d.inode sb n with type := 0 } d1 pos).1
  · intro m hm
    obtain ⟨-, hu⟩ := hframe m hm
    exact ⟨Function.update_of_ne hm .., hu⟩
  · rw [hinode, Function.update_idem]

-- ---------------------------------------------------------------------------
-- readi and writei
-- ---------------------------------------------------------------------------

/-- The test for a sum that wraps around. -/
theorem add_lt_iff (off n : Word) : off + n < off ↔ 2 ^ 32 ≤ off.toNat + n.toNat := by
  rw [BitVec.lt_def, BitVec.toNat_add]
  have := off.isLt
  have := n.isLt
  omega

theorem toNat_add (off n : Word) (h : ¬ off + n < off) :
    (off + n).toNat = off.toNat + n.toNat := by
  rw [add_lt_iff] at h
  rw [BitVec.toNat_add, Nat.mod_eq_of_lt (by omega)]

theorem length_file (ip : Inode) (d : Disk) : (ip.file d).data.length = ip.size.toNat :=
  ip.length_bytes ..

/-- What `readi` returns, which changes nothing. -/
theorem readi_outcome {Q : Option (List Byte) × Inode → Disk → Prop} {E : Fault → Disk → Prop}
    (h : Sound sb d) (off cnt : Word) : Outcome (readi (d.inode sb n) off cnt) Q E d ↔
      Q (((d.inode sb n).file d).read off cnt, d.inode sb n) d := by
  unfold readi
  by_cases hout : (d.inode sb n).size < off ∨ off + cnt < off
  · have hspec : ((d.inode sb n).file d).read off cnt = none := by
      rw [File.read, if_pos]
      rwa [length_file, ← add_lt_iff, ← BitVec.lt_def]
    rw [if_pos hout, Outcome.pure, hspec]
  · have hspec : ((d.inode sb n).file d).read off cnt =
        some ((((d.inode sb n).file d).data.drop off.toNat).take cnt.toNat) := by
      rw [File.read, if_neg]
      rwa [length_file, ← add_lt_iff, ← BitVec.lt_def]
    obtain ⟨hle, hadd⟩ := not_or.mp hout
    have hsum := toNat_add off cnt hadd
    rw [BitVec.lt_def, Nat.not_lt] at hle
    obtain ⟨m, hm⟩ : ∃ m, m = if (d.inode sb n).size < off + cnt
        then (d.inode sb n).size - off else cnt := ⟨_, rfl⟩
    have hmin : m.toNat = min cnt.toNat ((d.inode sb n).size.toNat - off.toNat) := by
      rw [hm]
      split
      · rename_i hlt
        rw [BitVec.lt_def, hsum] at hlt
        rw [BitVec.toNat_sub_of_le (by rwa [BitVec.le_def])]
        omega
      · rename_i hge
        rw [BitVec.lt_def, hsum] at hge
        omega
    have hbytes : (((d.inode sb n).file d).data.drop off.toNat).take cnt.toNat =
        (d.inode sb n).bytes d off.toNat m.toNat := by
      have hlen : (((d.inode sb n).file d).data.drop off.toNat).length =
          (d.inode sb n).size.toNat - off.toNat := by
        rw [List.length_drop, length_file]
      rw [List.take_eq_take_min, hlen, ← hmin]
      unfold Inode.file Inode.bytes
      rw [map_range_read _ (by omega)]
      simp only [Nat.zero_add]
    rw [if_neg hout]
    dsimp only
    rw [← hm, Outcome.bind, readiFrom_outcome h.consistent (h.mapped n)
      (by unfold blocks BSIZE; omega) (Nat.le_refl _), Outcome.pure, hspec, hbytes]

/-- What `writei` leaves of a file. -/
structure WroteI (sb : Superblock) (d : Disk) (n : Nat) (off : Word) (src : List Byte)
    (r : Option Word × Inode) (d' : Disk) : Prop where
  commit : Commit sb d n r.2 d'
  count : r.1.map BitVec.toNat = (((d.inode sb n).file d).write off src).1
  file : r.2.file d' = (((d.inode sb n).file d).write off src).2

/-- The file whose bytes have been written. -/
theorem Written.file {src : List Byte} {off : Nat}
    (hw : Written sb d (d.inode sb) n nb off src ip' d') (hle : off ≤ (d.inode sb n).size.toNat)
    (hsize : ip.size.toNat = max (d.inode sb n).size.toNat (off + src.length))
    (hip : ip = { d.inode sb n with addrs := ip'.addrs, size := ip.size }) :
    ip.file d' = { (d.inode sb n).file d with
      data := overwrite ((d.inode sb n).file d).data off src } := by
  have hbyte (pos : Nat) : ip.byte d' pos = ip'.byte d' pos :=
    Inode.byte_addrs (by rw [hip]) d' pos
  have hdata : (List.range ip.size.toNat).map (fun i => ip.byte d' (0 + i)) =
      overwrite ((d.inode sb n).file d).data off src := by
    rw [hsize]
    refine map_range_overwrite 0 hle fun i => ?_
    rw [Nat.zero_add, hbyte, hw.byte]
  simp only [Inode.file, Inode.bytes] at hdata ⊢
  rw [hdata, hip]

/-- There may be no room where the file grows. -/
theorem writei_outcome (h : Sound sb d) (hn : n < sb.ninodes.toNat)
    (ht : (d.inode sb n).type ≠ 0) (hsrc : src.length < 2 ^ 32) :
    Outcome (writei n (d.inode sb n) src off (.ofNat 32 src.length)) (WroteI sb d n off src)
      (fun e d' => NoRoom sb e d' ∧ (d.inode sb n).size.toNat < off.toNat + src.length) d := by
  have hcnt : (BitVec.ofNat 32 src.length).toNat = src.length := by
    rw [BitVec.toNat_ofNat, Nat.mod_eq_of_lt hsrc]
  obtain ⟨cnt, hcnteq⟩ : ∃ cnt, cnt = BitVec.ofNat 32 src.length := ⟨_, rfl⟩
  rw [← hcnteq] at hcnt ⊢
  unfold writei
  by_cases hout : (d.inode sb n).size < off ∨ off + cnt < off
  · have hspec : ((d.inode sb n).file d).write off src = (none, (d.inode sb n).file d) := by
      rw [File.write, if_pos]
      rwa [length_file, ← hcnt, ← add_lt_iff, ← BitVec.lt_def]
    rw [if_pos hout]
    exact Outcome.pure.mpr ⟨.refl h n, by rw [hspec]; rfl, by rw [hspec]⟩
  · obtain ⟨hle, hadd⟩ := not_or.mp hout
    have hsum := toNat_add off cnt hadd
    have hlimit := h.size_le n
    have hspec : ((d.inode sb n).file d).write off src =
        (some (src.take (MAXFILE * BSIZE - off.toNat)).length, { (d.inode sb n).file d with
          data := overwrite ((d.inode sb n).file d).data off.toNat
            (src.take (MAXFILE * BSIZE - off.toNat)) }) := by
      rw [File.write, if_neg]
      rwa [length_file, ← hcnt, ← add_lt_iff, ← BitVec.lt_def]
    rw [BitVec.lt_def, Nat.not_lt] at hle
    rw [if_neg hout]
    dsimp only
    obtain ⟨m, hm⟩ : ∃ m, m = if BitVec.ofNat 32 (MAXFILE * BSIZE) < off + cnt
        then BitVec.ofNat 32 (MAXFILE * BSIZE) - off else cnt := ⟨_, rfl⟩
    have hmax : (BitVec.ofNat 32 (MAXFILE * BSIZE)).toNat = MAXFILE * BSIZE := by decide
    have hmin : m.toNat = min src.length (MAXFILE * BSIZE - off.toNat) := by
      rw [hm]
      split
      · rename_i hlt
        rw [BitVec.lt_def, hsum, hmax] at hlt
        rw [BitVec.toNat_sub_of_le (by rw [BitVec.le_def, hmax]; omega), hmax]
        omega
      · rename_i hge
        rw [BitVec.lt_def, hsum, hmax] at hge
        omega
    have hnew : off.toNat + m.toNat ≤ MAXFILE * BSIZE := by omega
    have hmlt : ¬ off + m < off := by
      rw [add_lt_iff]
      unfold MAXFILE NDIRECT NINDIRECT BSIZE at hnew
      omega
    have hsum' := toNat_add off m hmlt
    have htake : src.take m.toNat = src.take (MAXFILE * BSIZE - off.toNat) := by
      rw [hmin, List.take_eq_take_iff]
      omega
    have hlen : (src.take m.toNat).length = m.toNat := by
      rw [List.length_take]
      omega
    rw [← htake, hlen] at hspec
    rw [← hm]
    have hwritten : Outcome
        (writeiFrom m.toNat (d.inode sb n) off.toNat (src.take m.toNat)) _ _ d :=
      writeiFrom_outcome h.consistent (h.mapped n) (by unfold blocks BSIZE; omega)
        (by rw [hlen]; exact hnew) (Nat.le_of_eq hlen)
    refine Outcome.seq (hwritten.mono (fun _ _ hw => hw) fun e d' he => ⟨he.1, ?_⟩)
      fun ip' d' hw => ?_
    · have := he.2
      rw [hlen] at this
      unfold blocks BSIZE at this
      omega
    have hsize' : ip'.size = (d.inode sb n).size := by
      rw [hw.fields]
    have hinode : d'.inode sb = d.inode sb := Disk.inode_congr hw.low
    have hmapped := hw.mapped
    rw [hlen] at hmapped
    split
    · rename_i hgrow
      rw [BitVec.lt_def, BitVec.lt_def, hsum', hsize'] at hgrow
      have hcons := hw.consistent.addrs (n := n) { ip' with size := off + m }
        (by rw [Function.update_self])
      rw [Function.update_idem] at hcons
      have hblocks : max (blocks (d.inode sb n).size.toNat) (blocks (off.toNat + m.toNat)) =
          blocks (off + m).toNat := by
        rw [hsum']
        unfold blocks BSIZE
        omega
      rw [hblocks] at hmapped
      obtain ⟨hcommit, hfile⟩ := h.commit_iupdate hn
        { ip' with size := off + m } d' hcons
        (fun k hk => ⟨Function.update_of_ne hk .., (hw.frame k hk).2⟩) (by rw [hinode])
        (hmapped.addrs rfl) (fun h0 => by rw [hw.fields] at h0; exact absurd h0 ht)
        fun pos hpos => by
          have hpos : (off + m).toNat ≤ pos := hpos
          have hbyte : { ip' with size := off + m }.byte d' pos = ip'.byte d' pos :=
            Inode.byte_addrs rfl d' pos
          rw [hbyte, hw.byte, hlen, if_neg (by omega), h.tail n pos (by omega)]
      rw [Outcome.bind, iupdate_outcome hw.consistent.formatted hn, Outcome.pure]
      refine ⟨hcommit, by rw [hspec]; rfl, ?_⟩
      rw [hspec, hfile]
      exact hw.file hle (by rw [hlen, hsum']; omega) (by rw [hw.fields])
    · rename_i hsame
      rw [BitVec.lt_def, BitVec.lt_def, hsum', hsize'] at hsame
      have hzero : (0 : Word).toNat = 0 := rfl
      have hin : off.toNat + m.toNat ≤ (d.inode sb n).size.toNat := by omega
      have hip := hw.same (by rw [hlen]; unfold blocks BSIZE; omega)
      have hblocks : max (blocks (d.inode sb n).size.toNat) (blocks (off.toNat + m.toNat)) =
          blocks (d.inode sb n).size.toNat := by
        unfold blocks BSIZE
        omega
      rw [hblocks, ← hsize'] at hmapped
      refine Outcome.pure.mpr ⟨h.commit hw.consistent hw.frame ?_ hmapped (fun h0 => ?_)
        fun pos hpos => ?_, by rw [hspec]; rfl, ?_⟩
      · rw [hip, Function.update_eq_self, hinode]
      · rw [hip] at h0
        exact absurd h0 ht
      · rw [hsize'] at hpos
        rw [hw.byte, hlen, if_neg (by omega), h.tail n pos hpos]
      · rw [hspec]
        exact hw.file hle (by rw [hlen, hsize']; omega) (by rw [hip])

end PerrOS.Fs
