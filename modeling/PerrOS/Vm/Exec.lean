import PerrOS.Lib.Bytes
import PerrOS.Vm.Process

/-!
# Replacing a process's image

`readi` of `fs.c` for a regular file, `loaduvm`, `uva2ka` and `copyout` of
`vm.c`, and `exec.c`. What `exec` decides depends on the file's bytes, the
strings of `argv` and the pages that `kalloc` finds.
-/

namespace PerrOS.Vm

abbrev Byte := BitVec 8

def BSIZE : Nat := 512
def NDIRECT : Nat := 12
def NINDIRECT : Nat := BSIZE / 4
def MAXFILE : Nat := NDIRECT + NINDIRECT

/-- A regular file that `namei` has found. -/
structure File where
  data : List Byte
  size_le : data.length ≤ MAXFILE * BSIZE

namespace File

def size (ip : File) : Word := BitVec.ofNat 32 ip.data.length

/-- The bytes that `readi(ip, dst, off, n)` stores, unless it returns -1. -/
def bytes (ip : File) (off n : Word) : Option (List Byte) :=
  if ip.size < off ∨ off + n < off then none
  else
    let n := if ip.size < off + n then ip.size - off else n
    some ((ip.data.drop off.toNat).take n.toNat)

end File

/-- `memmove(dst, bs, n)` for the `n` bytes of `bs`. -/
def store (dst : Word) (bs : List Byte) : Kernel Unit :=
  modify fun s => { s with mem := fun a => bs[(a - dst).toNat]?.getD (s.mem a) }

/-- The result is an `int` as the `uint` its callers compare it as. -/
def readi (ip : File) (dst off n : Word) : Kernel Word :=
  match ip.bytes off n with
  | none => return -1
  | some bs => do
    store dst bs
    return BitVec.ofNat 32 bs.length

-- ---------------------------------------------------------------------------
-- ELF
-- ---------------------------------------------------------------------------

def ELF_MAGIC : Word := 0x464C457F
def ELF_PROG_LOAD : Word := 1

/-- The fields of `struct elfhdr` that `exec` reads. -/
structure Elfhdr where
  magic : Word
  entry : Word
  phoff : Word
  phnum : BitVec 16
deriving DecidableEq

/-- The fields of `struct proghdr` that `exec` reads. -/
structure Proghdr where
  type : Word
  offset : Word
  va : Word
  filesz : Word
  memsz : Word
deriving DecidableEq

/-- The little-endian field of `n` bytes at `k`. -/
def field (bs : List Byte) (k n : Nat) : Nat := Lib.Memory.read (fun i => bs.getD i 0) k n

def uint (bs : List Byte) (k : Nat) : Word := BitVec.ofNat 32 (field bs k 4)

namespace File

/-- The header, unless the file is shorter. A read from 0 does not return -1,
which the comparison with `sizeof(elf)` would let through. -/
def elfhdr (ip : File) : Option Elfhdr :=
  (ip.bytes 0 52).bind fun bs =>
    if bs.length < 52 then none
    else some ⟨uint bs 0, uint bs 24, uint bs 28, BitVec.ofNat 16 (field bs 44 2)⟩

/-- The program header at `off`, unless the read is short or fails. -/
def proghdr (ip : File) (off : Word) : Option Proghdr :=
  (ip.bytes off 32).bind fun bs =>
    if bs.length ≠ 32 then none
    else some ⟨uint bs 0, uint bs 4, uint bs 8, uint bs 16, uint bs 20⟩

end File

-- ---------------------------------------------------------------------------
-- Loading and copying
-- ---------------------------------------------------------------------------

/-- A page that bytes of the file were read into: its address, and the entry
that named the physical page. -/
structure Load where
  va : Word
  pte : Word

/-- The loop of `loaduvm`, with the pages it has read into. The entry of a
page is not checked for `PTE_P`. -/
def loadLoop (pgdir : Pgdir) (addr : Word) (ip : File) (offset sz : Word) :
    Nat → Word → Kernel (Int × List Load)
  | 0, i => if i < sz then failure else return (0, [])
  | k + 1, i =>
    if i < sz then
      match pgdir.pte (addr + i) with
      | none => panic -- "loaduvm: address should exist"
      | some pte => do
        let n := if sz - i < PGSIZE then sz - i else PGSIZE
        let r ← readi ip (PTE_ADDR pte) (offset + i) n
        let loads := if 0 < r.toInt then [⟨addr + i, pte⟩] else []
        if r ≠ n then return (-1, loads)
        else do
          let rest ← loadLoop pgdir addr ip offset sz k (i + PGSIZE)
          return (rest.1, loads ++ rest.2)
    else return (0, [])

def loaduvm (pgdir : Pgdir) (addr : Word) (ip : File) (offset sz : Word) :
    Kernel (Int × List Load) :=
  if addr % PGSIZE ≠ 0 then panic -- "loaduvm: addr must be page aligned"
  else loadLoop pgdir addr ip offset sz NPAGES 0

/-- `*pte` of a null `pte` faults. -/
def uva2ka (pgdir : Pgdir) (uva : Word) : Kernel Word :=
  match pgdir.pte uva with
  | none => panic
  | some pte =>
    if present pte = false then return 0
    else if pte &&& PTE_U = 0 then return 0
    else return PTE_ADDR pte

theorem toNat_sub_PGROUNDDOWN (va : Word) : (va - PGROUNDDOWN va).toNat = va.toNat % 4096 := by
  have h := toNat_PGROUNDDOWN va
  unfold pageDown at h
  rw [BitVec.toNat_sub_of_le (by rw [BitVec.le_def]; omega)]
  omega

/-- The bytes of the page of `va` from `va` on. -/
theorem toNat_pageRest (va : Word) :
    (PGSIZE - (va - PGROUNDDOWN va)).toNat = 4096 - va.toNat % 4096 := by
  have h := toNat_sub_PGROUNDDOWN va
  rw [BitVec.toNat_sub_of_le (by rw [BitVec.le_def, toNat_PGSIZE]; omega), toNat_PGSIZE, h]

def copyout (pgdir : Pgdir) (va : Word) (p : List Byte) : Kernel Int :=
  if p.length = 0 then return 0
  else do
    let va0 := PGROUNDDOWN va
    let pa0 ← uva2ka pgdir va0
    if pa0 = 0 then return -1
    else do
      let n := min (PGSIZE - (va - va0)).toNat p.length
      store (pa0 + (va - va0)) (p.take n)
      copyout pgdir (va0 + PGSIZE) (p.drop n)
termination_by p.length
decreasing_by
  have := toNat_pageRest va
  rw [List.length_drop]
  omega

-- ---------------------------------------------------------------------------
-- The system call
-- ---------------------------------------------------------------------------

/-- Max exec arguments. -/
def MAXARG : Nat := 32

/-- A string of `argv` without its NUL; `fetchstr` has found the NUL below
`USERTOP`. -/
structure Arg where
  chars : List Byte
  nonzero : ∀ c ∈ chars, c ≠ 0
  below : chars.length < USERTOP.toNat

/-- What `exec` returns, the caller's entry of the process table, and the
pages the segments were read into. -/
structure Outcome where
  proc : Proc
  ret : Int
  loads : List Load

variable (img : Image)

/-- The loop over `n` program headers from `off` on; no size for `goto bad`. -/
def loadSegments (ip : File) : Nat → Word → Pgdir → Word → List Load →
    Kernel (Pgdir × Option Word × List Load)
  | 0, _, pgdir, sz, loads => return (pgdir, some sz, loads)
  | n + 1, off, pgdir, sz, loads =>
    match ip.proghdr off with
    | none => return (pgdir, none, loads)
    | some ph =>
      if ph.type ≠ ELF_PROG_LOAD then loadSegments ip n (off + 32) pgdir sz loads
      else if ph.memsz < ph.filesz then return (pgdir, none, loads)
      else do
        let a ← allocuvm img pgdir sz (ph.va + ph.memsz)
        if a.2 = 0 then return (a.1, none, loads)
        else do
          let r ← loaduvm a.1 ph.va ip ph.offset ph.filesz
          if r.1 < 0 then return (a.1, none, loads ++ r.2)
          else loadSegments ip n (off + 32) a.1 a.2 (loads ++ r.2)

/-- The loop over `argv`, with the addresses in `ustack[3..]` so far. -/
def pushArgs (pgdir : Pgdir) : List Arg → Word → List Word → Kernel (Option (Word × List Word))
  | [], sp, ustack => return some (sp, ustack)
  | arg :: argv, sp, ustack =>
    if MAXARG ≤ ustack.length then return none
    else do
      let sp := (sp - (BitVec.ofNat 32 arg.chars.length + 1)) &&& ~~~3
      let r ← copyout pgdir sp (arg.chars ++ [0])
      if r < 0 then return none
      else pushArgs pgdir argv sp (ustack ++ [sp])

/-- The bytes of `ustack`. -/
def wordBytes (w : Word) : List Byte :=
  [w.setWidth 8, (w >>> 8).setWidth 8, (w >>> 16).setWidth 8, (w >>> 24).setWidth 8]

/-- `for(last=s=path; *s; s++) if(*s == '/') last = s+1;` -/
def lastName : List Char → List Char → List Char
  | last, [] => last
  | last, c :: s => if c = '/' then lastName s s else lastName last s

/-- `bad`, once there is a page directory. -/
def bad (p : Proc) (pgdir : Pgdir) (loads : List Load) : Kernel Outcome := do
  freevm img pgdir
  return ⟨p, -1, loads⟩

/-- `exec` from the allocation of the stack on. -/
def startImage (path : List Char) (argv : List Arg) (p : Proc) (entry : Word) (pgdir : Pgdir)
    (sz : Word) (loads : List Load) : Kernel Outcome := do
  let a ← allocuvm img pgdir (USERTOP - PGSIZE) USERTOP
  if a.2 = 0 then bad img p a.1 loads
  else do
    match ← pushArgs a.1 argv USERTOP [] with
    | none => bad img p a.1 loads
    | some (sp, args) => do
      let argc := BitVec.ofNat 32 args.length
      let ustack := [0xFFFFFFFF, argc, sp - (argc + 1) * 4] ++ args ++ [0]
      let sp := sp - (3 + argc + 1) * 4
      let r ← copyout a.1 sp (ustack.flatMap wordBytes)
      if r < 0 then bad img p a.1 loads
      else
        match p.pgdir with
        | none => panic -- "freevm: no pgdir"
        | some oldpgdir => do
          freevm img oldpgdir
          let proc := { p with
            name := String.ofList ((lastName path path).take 15)
            pgdir := some a.1
            sz
            stackSz := USERTOP - PGSIZE
            tf := { p.tf with eip := entry, esp := sp } }
          return ⟨proc, 0, loads⟩

/-- `exec(path, argv)` by the process `p`, once `namei(path)` has found `ip`. -/
def exec (ip : File) (path : List Char) (argv : List Arg) (p : Proc) : Kernel Outcome :=
  match ip.elfhdr with
  | none => return ⟨p, -1, []⟩
  | some elf =>
    if elf.magic ≠ ELF_MAGIC then return ⟨p, -1, []⟩
    else do
      match ← setupkvm img with
      | none => return ⟨p, -1, []⟩
      | some pgdir => do
        let r ← loadSegments img ip elf.phnum.toNat elf.phoff pgdir PGSIZE []
        match r.2.1 with
        | none => bad img p r.1 r.2.2
        | some sz => startImage img path argv p elf.entry r.1 sz r.2.2

end PerrOS.Vm
