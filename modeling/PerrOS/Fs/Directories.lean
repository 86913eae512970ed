import PerrOS.Fs.Operations
import PerrOS.Lib.Table

/-!
# Directories

A directory is a file of entries of 16 bytes, each with a name of up to `DIRSIZ`
bytes. The routines of `fs.c` on entries find, add and erase in it as in a table
of names.
-/

namespace PerrOS.Fs

open Lib
open Function (update)

def T_DIR : BitVec 16 := 1

def DIRSIZ : Nat := 14

-- ---------------------------------------------------------------------------
-- Names
-- ---------------------------------------------------------------------------

/-- Of strings that end with a list, or before with a 0. -/
def strncmp : Nat → List Byte → List Byte → Int
  | 0, _, _ => 0
  | n + 1, p, q =>
    if p.headD 0 ≠ 0 ∧ p.headD 0 = q.headD 0 then strncmp n p.tail q.tail
    else (p.headD 0).toNat - (q.headD 0).toNat

def namecmp (s t : List Byte) : Int := strncmp DIRSIZ s t

/-- What is copied. -/
def strncpy : Nat → List Byte → List Byte
  | 0, _ => []
  | n + 1, t => if t.headD 0 = 0 then List.replicate (n + 1) 0 else t.headD 0 :: strncpy n t.tail

/-- The string of at most `n` bytes. -/
def cstring (n : Nat) (p : List Byte) : List Byte := (p.take n).takeWhile (· ≠ 0)

theorem cstring_succ (n : Nat) (p : List Byte) : cstring (n + 1) p =
    if p.headD 0 = 0 then [] else p.headD 0 :: cstring n p.tail := by
  cases p with
  | nil => rfl
  | cons c p => simp [cstring, List.takeWhile_cons]

/-- Names are compared as strings. -/
theorem strncmp_eq_zero : strncmp n p q = 0 ↔ cstring n p = cstring n q := by
  induction n generalizing p q with
  | zero => simp [strncmp, cstring]
  | succ n ih =>
    rw [strncmp, cstring_succ, cstring_succ]
    generalize p.headD 0 = a, q.headD 0 = b
    by_cases h : a = b
    · subst h
      by_cases h0 : a = 0
      · simp [h0]
      · rw [if_pos ⟨h0, rfl⟩, if_neg h0, if_neg h0, ih, List.cons_inj_right]
    · have hne : (a.toNat : Int) - b.toNat ≠ 0 := fun h0 => h (BitVec.eq_of_toNat_eq (by omega))
      simp only [h, and_false, if_false, hne, false_iff]
      by_cases ha : a = 0
      · rw [if_pos ha, if_neg fun hb => h (ha.trans hb.symm)]
        simp
      · rw [if_neg ha]
        split <;> simp [h]

theorem cstring_strncpy (n : Nat) (t : List Byte) : cstring n (strncpy n t) = cstring n t := by
  induction n generalizing t with
  | zero => rfl
  | succ n ih =>
    rw [cstring_succ, cstring_succ, strncpy]
    split
    · rfl
    · rename_i h
      rw [List.headD_cons, if_neg h, List.tail_cons, ih]

theorem length_strncpy (n : Nat) (t : List Byte) : (strncpy n t).length = n := by
  induction n generalizing t with
  | zero => rfl
  | succ n ih =>
    rw [strncpy]
    split
    · exact List.length_replicate
    · rw [List.length_cons, ih]

-- ---------------------------------------------------------------------------
-- Entries
-- ---------------------------------------------------------------------------

structure Dirent where
  inum : BitVec 16
  name : List Byte

/-- `sizeof(struct dirent)`. -/
def DIRENT : Nat := 16

namespace Dirent

def ofBytes (bytes : List Byte) : Dirent :=
  ⟨bytes.getD 1 0 ++ bytes.getD 0 0, (bytes.drop 2).take DIRSIZ⟩

def bytes (de : Dirent) : List Byte :=
  de.inum.setWidth 8 :: (de.inum >>> 8).setWidth 8 :: de.name

theorem ofBytes_bytes (de : Dirent) (h : de.name.length = DIRSIZ) : ofBytes de.bytes = de := by
  have hinum : (de.inum >>> 8).setWidth 8 ++ de.inum.setWidth 8 = de.inum := by
    ext i hi
    simp only [BitVec.getElem_append, BitVec.getElem_setWidth, BitVec.getLsbD_ushiftRight]
    split
    · rfl
    · rw [show 8 + (i - 8) = i by omega]
      rfl
  obtain ⟨inum, name⟩ := de
  simp only [ofBytes, bytes] at *
  rw [List.getD_cons_succ, List.getD_cons_zero, List.getD_cons_zero, hinum, List.drop_succ_cons,
    List.drop_succ_cons, List.drop_zero, List.take_of_length_le (Nat.le_of_eq h)]

/-- What an entry says: its name and its inode number, where it is in use. -/
def slot (de : Dirent) : Option (List Byte × BitVec 16) :=
  if de.inum = 0 then none else some (cstring DIRSIZ de.name, de.inum)

end Dirent

/-- The first entry of a block with the name. -/
def findEntry (bp : Block) (name : List Byte) : Option Nat :=
  (List.range (BSIZE / DIRENT)).find? fun i =>
    let de := Dirent.ofBytes (bp.slice (DIRENT * i) DIRENT)
    de.inum ≠ 0 ∧ namecmp name de.name = 0

/-- The loop of `dirlookup` from `off` on: the offset of the entry and its inode number. -/
def dirlookupFrom (name : List Byte) : Nat → Inode → Nat → FsM (Option (Nat × BitVec 16) × Inode)
  | 0, dp, _ => return (none, dp)
  | k + 1, dp, off =>
    if off < dp.size.toNat then do
      let (addr, dp) ← bmap dp (off / BSIZE)
      let bp ← bread addr.toNat
      match findEntry bp name with
      | some i =>
        return (some (off + DIRENT * i, (Dirent.ofBytes (bp.slice (DIRENT * i) DIRENT)).inum), dp)
      | none => dirlookupFrom name k dp (off + BSIZE)
    else return (none, dp)

def dirlookup (dp : Inode) (name : List Byte) : FsM (Option (Nat × BitVec 16) × Inode) :=
  if dp.type ≠ T_DIR then throw (.panic "dirlookup not DIR")
  else dirlookupFrom name (dp.size.toNat / BSIZE + 1) dp 0

/-- A loop over the entries from `off` on, up to one with an inode number for which `stop` holds:
where it ends. -/
def scanFrom (stop : BitVec 16 → Bool) (msg : String) : Nat → Inode → Word → FsM (Word × Inode)
  | 0, dp, off => return (off, dp)
  | k + 1, dp, off =>
    if off < dp.size then do
      let (r, dp) ← readi dp off (.ofNat 32 DIRENT)
      if r.map List.length ≠ some DIRENT then throw (.panic msg)
      else if stop (Dirent.ofBytes (r.getD [])).inum then return (off, dp)
      else scanFrom stop msg k dp (off + .ofNat 32 DIRENT)
    else return (off, dp)

/-- `inum` is the number of the inode that is linked, `n` that of the directory. -/
def dirlink (n : Nat) (dp : Inode) (name : List Byte) (inum : Nat) : FsM (Int × Inode) := do
  let (r, dp) ← dirlookup dp name
  if r.isSome then return (-1, dp)
  else do
    let (off, dp) ← scanFrom (· = 0) "dirlink read" (dp.size.toNat / DIRENT + 1) dp 0
    let de : Dirent := ⟨.ofNat 16 inum, strncpy DIRSIZ name⟩
    let (r, dp) ← writei n dp de.bytes off (.ofNat 32 DIRENT)
    if r ≠ some (.ofNat 32 DIRENT) then throw (.panic "dirlink") else return (0, dp)

def isdirempty (dp : Inode) : FsM (Bool × Inode) := do
  let (off, dp) ← scanFrom (· ≠ 0) "isdirempty: readi" (dp.size.toNat / DIRENT + 1) dp
    (.ofNat 32 (2 * DIRENT))
  return (!decide (off < dp.size), dp)

/-- What `sys_unlink` does to the directory, and the inode number of the entry. -/
def unlinkEntry (n : Nat) (dp : Inode) (name : List Byte) : FsM (Option (BitVec 16) × Inode) := do
  let (r, dp) ← dirlookup dp name
  match r with
  | none => return (none, dp)
  | some (off, inum) => do
    let (r, dp) ← writei n dp (List.replicate DIRENT 0) (.ofNat 32 off) (.ofNat 32 DIRENT)
    if r ≠ some (.ofNat 32 DIRENT) then throw (.panic "unlink: writei")
    else return (some inum, dp)

end PerrOS.Fs
