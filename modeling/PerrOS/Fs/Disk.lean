import Mathlib.Data.List.FinRange
import PerrOS.Lib.Bits
import PerrOS.Lib.Outcome
import PerrOS.Lib.Stores

/-!
# The file system on its disk

`fs.c` over the blocks of one disk: superblock, inodes, bitmap, data. A buffer
is held from `bread` to `brelse`, so a block is read and written in place, and
an inode is locked while it is used, so its copy in memory is a value that the
routines take and return.

Left out: device files, and the panics of routines that have no other effect.
-/

namespace PerrOS.Fs

open Lib
open Function (update)

abbrev Byte := BitVec 8

/-- `uint`. -/
abbrev Word := BitVec 32

def BSIZE : Nat := 512

def NDIRECT : Nat := 12

/-- `BSIZE / sizeof(uint)`. -/
def NINDIRECT : Nat := 128

def MAXFILE : Nat := NDIRECT + NINDIRECT

/-- `BSIZE / sizeof(struct dinode)`. -/
def IPB : Nat := 8

/-- Bits of a block. -/
@[irreducible] def BPB : Nat := BSIZE * 8

/-- The block of an inode. -/
def IBLOCK (i : Nat) : Nat := i / IPB + 2

/-- The block with the bit of `b`. -/
def BBLOCK (b ninodes : Nat) : Nat := b / BPB + ninodes / IPB + 3

abbrev Block := Memory

structure Disk where
  /-- The number of its blocks. -/
  size : Nat
  block : Nat → Block

namespace Disk

def set (d : Disk) (b : Nat) (x : Block) : Disk := { d with block := update d.block b x }

@[simp] theorem set_size (d : Disk) (b : Nat) (x : Block) : (d.set b x).size = d.size := rfl

@[simp] theorem set_self (d : Disk) (b : Nat) (x : Block) : (d.set b x).block b = x :=
  Function.update_self ..

theorem set_of_ne {d : Disk} (x : Block) (h : c ≠ b) : (d.set b x).block c = d.block c :=
  Function.update_of_ne h ..

end Disk

structure Superblock where
  size : Word
  nblocks : Word
  ninodes : Word
deriving DecidableEq

def Superblock.ofBytes (x : Block) : Superblock where
  size := .ofNat 32 (x.read 0 4)
  nblocks := .ofNat 32 (x.read 4 4)
  ninodes := .ofNat 32 (x.read 8 4)

/-- What `struct dinode` and `struct inode` share. -/
structure Inode where
  type : BitVec 16
  major : BitVec 16
  minor : BitVec 16
  nlink : BitVec 16
  size : Word
  addrs : Fin (NDIRECT + 1) → Word

namespace Inode

/-- The address of the block of addresses. -/
def table (ip : Inode) : Word := ip.addrs (Fin.last NDIRECT)

def setAddr (ip : Inode) (i : Fin (NDIRECT + 1)) (a : Word) : Inode :=
  { ip with addrs := update ip.addrs i a }

/-- The inode in slot `i` of a block. -/
def load (x : Block) (i : Nat) : Inode where
  type := .ofNat 16 (x.read (64 * i) 2)
  major := .ofNat 16 (x.read (64 * i + 2) 2)
  minor := .ofNat 16 (x.read (64 * i + 4) 2)
  nlink := .ofNat 16 (x.read (64 * i + 6) 2)
  size := .ofNat 32 (x.read (64 * i + 8) 4)
  addrs j := .ofNat 32 (x.read (64 * i + 12 + 4 * j) 4)

/-- The fields of the inode are stored in slot `i`. -/
def stores (ip : Inode) (i : Nat) : List Store :=
  [⟨64 * i, 2, ip.type.toNat⟩, ⟨64 * i + 2, 2, ip.major.toNat⟩, ⟨64 * i + 4, 2, ip.minor.toNat⟩,
    ⟨64 * i + 6, 2, ip.nlink.toNat⟩, ⟨64 * i + 8, 4, ip.size.toNat⟩] ++
  (List.finRange (NDIRECT + 1)).map fun j => ⟨64 * i + 12 + 4 * j, 4, (ip.addrs j).toNat⟩

def store (ip : Inode) (x : Block) (i : Nat) : Block := Store.run x (ip.stores i)

end Inode

/-- Entry `j` of a block of addresses. -/
def entry (x : Block) (j : Nat) : Word := .ofNat 32 (x.read (4 * j) 4)

def setEntry (x : Block) (j : Nat) (a : Word) : Block := x.write (4 * j) 4 a.toNat

inductive Fault
  | panic (msg : String)
  /-- The disk does not have the block. -/
  | beyond (b : Nat)
deriving DecidableEq

abbrev FsM := ExceptT Fault (StateM Disk)

-- ---------------------------------------------------------------------------
-- Blocks
-- ---------------------------------------------------------------------------

def bread (b : Nat) : FsM Block := do
  let d ← get
  if b < d.size then return d.block b else throw (.beyond b)

/-- Of a block that is held. -/
def bwrite (b : Nat) (x : Block) : FsM Unit := modify fun d => d.set b x

def readsb : FsM Superblock := do
  let bp ← bread 1
  return .ofBytes bp

def bzero (bno : Nat) : FsM Unit := do
  let _ ← bread bno
  bwrite bno fun _ => 0

/-- The first bit of a bitmap block that is clear. -/
def freeBit (bp : Block) : Option Nat :=
  (List.range BPB).find? fun bi => bp (bi / 8) &&& 1#8 <<< (bi % 8) = 0

/-- The loop of `balloc` from `b` on, with at most `k` turns to go. -/
def ballocFrom (sb : Superblock) : Nat → Nat → FsM Word
  | 0, _ => throw (.panic "balloc: out of blocks")
  | k + 1, b =>
    if b < sb.size.toNat then do
      let bp ← bread (BBLOCK b sb.ninodes.toNat)
      match freeBit bp with
      | some bi => do
        bwrite (BBLOCK b sb.ninodes.toNat) (bp.setBit bi)
        return .ofNat 32 (b + bi)
      | none => ballocFrom sb k (b + BPB)
    else throw (.panic "balloc: out of blocks")

def balloc : FsM Word := do
  let sb ← readsb
  ballocFrom sb (sb.size.toNat / BPB + 1) 0

def bfree (b : Word) : FsM Unit := do
  bzero b.toNat
  let sb ← readsb
  let bp ← bread (BBLOCK b.toNat sb.ninodes.toNat)
  let bi := b.toNat % BPB
  if bp (bi / 8) &&& 1#8 <<< (bi % 8) = 0 then throw (.panic "freeing free block")
  else bwrite (BBLOCK b.toNat sb.ninodes.toNat) (bp.clearBit bi)

-- ---------------------------------------------------------------------------
-- Inodes
-- ---------------------------------------------------------------------------

/-- The loop of `ialloc` from `inum` on. -/
def iallocFrom (ninodes : Nat) (type : BitVec 16) : Nat → Nat → FsM Nat
  | 0, _ => throw (.panic "ialloc: no inodes")
  | k + 1, inum =>
    if inum < ninodes then do
      let bp ← bread (IBLOCK inum)
      if (Inode.load bp (inum % IPB)).type = 0 then do
        let dip : Inode := ⟨type, 0, 0, 0, 0, fun _ => 0⟩
        bwrite (IBLOCK inum) (dip.store bp (inum % IPB))
        return inum
      else iallocFrom ninodes type k (inum + 1)
    else throw (.panic "ialloc: no inodes")

def ialloc (type : BitVec 16) : FsM Nat := do
  let sb ← readsb
  iallocFrom sb.ninodes.toNat type sb.ninodes.toNat 1

def iupdate (inum : Nat) (ip : Inode) : FsM Unit := do
  let bp ← bread (IBLOCK inum)
  bwrite (IBLOCK inum) (ip.store bp (inum % IPB))

/-- The part of `ilock` that reads the inode. -/
def iread (inum : Nat) : FsM Inode := do
  let bp ← bread (IBLOCK inum)
  let ip := Inode.load bp (inum % IPB)
  if ip.type = 0 then throw (.panic "ilock: no type") else return ip

/-- The indirect block of an inode, allocated where it has none. -/
def bmapTable (ip : Inode) : FsM Inode :=
  if ip.table = 0 then do
    let addr ← balloc
    return ip.setAddr (Fin.last NDIRECT) addr
  else return ip

def bmapEntry (ip : Inode) (bn : Nat) : FsM Word := do
  let bp ← bread ip.table.toNat
  if entry bp bn = 0 then do
    let addr ← balloc
    bwrite ip.table.toNat (setEntry bp bn addr)
    return addr
  else return entry bp bn

def bmap (ip : Inode) (bn : Nat) : FsM (Word × Inode) :=
  if h : bn < NDIRECT then
    let i : Fin (NDIRECT + 1) := ⟨bn, Nat.lt_succ_of_lt h⟩
    if ip.addrs i = 0 then do
      let addr ← balloc
      return (addr, ip.setAddr i addr)
    else return (ip.addrs i, ip)
  else if bn - NDIRECT < NINDIRECT then do
    let ip ← bmapTable ip
    let addr ← bmapEntry ip (bn - NDIRECT)
    return (addr, ip)
  else throw (.panic "bmap: out of range")

/-- `bfree` of each address that is not 0. -/
def bfreeEach : List Word → FsM Unit
  | [] => return ()
  | a :: as => do
    if a ≠ 0 then bfree a
    bfreeEach as

/-- The loops of `itrunc`. -/
def bfreeAll (ip : Inode) : FsM Unit := do
  bfreeEach ((List.finRange NDIRECT).map fun i => ip.addrs i.castSucc)
  if ip.table ≠ 0 then do
    let bp ← bread ip.table.toNat
    bfreeEach ((List.range NINDIRECT).map (entry bp))
    bfree ip.table

def itrunc (inum : Nat) (ip : Inode) : FsM Inode := do
  bfreeAll ip
  let ip := { ip with addrs := fun _ => 0, size := 0 }
  iupdate inum ip
  return ip

/-- The last reference to an inode without links is dropped. -/
def ifree (inum : Nat) (ip : Inode) : FsM Unit := do
  let ip ← itrunc inum ip
  iupdate inum { ip with type := 0 }

-- ---------------------------------------------------------------------------
-- Contents
-- ---------------------------------------------------------------------------

/-- The loop of `readi`: `left` bytes to go. -/
def readiFrom : Nat → Inode → Nat → Nat → FsM (List Byte × Inode)
  | 0, ip, _, _ => return ([], ip)
  | k + 1, ip, off, left =>
    if left = 0 then return ([], ip)
    else do
      let (addr, ip) ← bmap ip (off / BSIZE)
      let bp ← bread addr.toNat
      let m := min left (BSIZE - off % BSIZE)
      let (rest, ip) ← readiFrom k ip (off + m) (left - m)
      return (bp.slice (off % BSIZE) m ++ rest, ip)

/-- Without a result where it returns -1. -/
def readi (ip : Inode) (off n : Word) : FsM (Option (List Byte) × Inode) :=
  if ip.size < off ∨ off + n < off then return (none, ip)
  else do
    let n := if ip.size < off + n then ip.size - off else n
    let (bytes, ip) ← readiFrom n.toNat ip off.toNat n.toNat
    return (some bytes, ip)

/-- The loop of `writei`. -/
def writeiFrom : Nat → Inode → Nat → List Byte → FsM Inode
  | 0, ip, _, _ => return ip
  | k + 1, ip, off, src =>
    if src = [] then return ip
    else do
      let (addr, ip) ← bmap ip (off / BSIZE)
      let bp ← bread addr.toNat
      let m := min src.length (BSIZE - off % BSIZE)
      bwrite addr.toNat (bp.splice (off % BSIZE) (src.take m))
      writeiFrom k ip (off + m) (src.drop m)

/-- The first `n` bytes of `src` are written. -/
def writei (inum : Nat) (ip : Inode) (src : List Byte) (off n : Word) :
    FsM (Option Word × Inode) :=
  if ip.size < off ∨ off + n < off then return (none, ip)
  else do
    let limit : Word := .ofNat 32 (MAXFILE * BSIZE)
    let n := if limit < off + n then limit - off else n
    let ip ← writeiFrom n.toNat ip off.toNat (src.take n.toNat)
    if 0 < n ∧ ip.size < off + n then do
      let ip := { ip with size := off + n }
      iupdate inum ip
      return (some n, ip)
    else return (some n, ip)

end PerrOS.Fs
