import Mathlib.Control.Monad.Basic
import PerrOS.Vm.Paging

/-!
# Physical pages and user memory

`kalloc.c` and `vm.c`, as programs over the physical memory that fail where
the kernel panics. A loop over page addresses is a recursion on the list of
the addresses it visits.
-/

namespace PerrOS.Vm

open Function (update)

/-- What the linker decides: where the kernel's data begins and where the
kernel ends. -/
structure Image where
  data : Word
  kend : Word
  data_aligned : data.toNat % 4096 = 0
  text : 0x100000 < data.toNat
  below : data.toNat < PHYSTOP.toNat

/-- Physical memory, and the pages of the free list. The `n`-th call of
`kalloc` finds the list empty unless `grant n`: whoever else runs may have
taken the pages. -/
structure Kmem where
  mem : Word → BitVec 8
  freelist : List Word
  grant : Nat → Bool
  calls : Nat

abbrev Kernel := StateT Kmem Option

/-- `panic`. -/
def panic {α : Type} : Kernel α := failure

/-- `kalloc`: a page, or null. -/
def kalloc : Kernel Word := do
  let s ← get
  match s.grant s.calls, s.freelist with
  | true, r :: rest =>
    set { s with freelist := rest, calls := s.calls + 1 }
    return r
  | _, _ =>
    set { s with calls := s.calls + 1 }
    return 0

/-- `memset(v, c, PGSIZE)`. -/
def memset (v : Word) (c : BitVec 8) : Kernel Unit :=
  modify fun s => { s with mem := fun a => if (a - v).toNat < PGSIZE.toNat then c else s.mem a }

/-- `memmove(dst, src, PGSIZE)`. -/
def memmove (dst src : Word) : Kernel Unit :=
  modify fun s => { s with
    mem := fun a => if (a - dst).toNat < PGSIZE.toNat then s.mem (src + (a - dst)) else s.mem a }

variable (img : Image)

def kfree (v : Word) : Kernel Unit :=
  if v % PGSIZE ≠ 0 ∨ v < img.kend ∨ PHYSTOP ≤ v then panic
  else do
    memset v 1
    modify fun s => { s with freelist := v :: s.freelist }

-- ---------------------------------------------------------------------------
-- Page tables
-- ---------------------------------------------------------------------------

/-- `walkpgdir(pgdir, va, 1)`; false where a table was needed and no page was
left for it. -/
def walkpgdir (pgdir : Pgdir) (va : Word) : Kernel (Pgdir × Bool) :=
  match pgdir.pde (PDX va) with
  | some _ => return (pgdir, true)
  | none => do
    let pgtab ← kalloc
    if pgtab = 0 then return (pgdir, false)
    else do
      memset pgtab 0
      return (pgdir.addPtab va pgtab, true)

/-- The loop of `mappages`, from the page `a` up to the page `last`. -/
def mapLoop (last : Word) (perm : Word) : Nat → Pgdir → Word → Word → Kernel (Pgdir × Int)
  | 0, _, _, _ => failure
  | n + 1, pgdir, a, pa => do
    let r ← walkpgdir pgdir a
    if r.2 = false then return (r.1, -1)
    else if (r.1.pte a).any present then panic -- "remap"
    else
      let pgdir := r.1.setPte a (pa ||| perm ||| PTE_P)
      if a = last then return (pgdir, 0)
      else mapLoop last perm n pgdir (a + PGSIZE) (pa + PGSIZE)

/-- More pages than there are addresses of pages. -/
def NPAGES : Nat := 2 ^ 20

def mappages (pgdir : Pgdir) (la size pa perm : Word) : Kernel (Pgdir × Int) :=
  mapLoop (PGROUNDDOWN (la + size - 1)) perm NPAGES pgdir (PGROUNDDOWN la) pa

/-- The addresses that `for(; a < limit; a += PGSIZE)` visits, unless it
never ends. -/
def pages (limit : Word) : Nat → Word → Option (List Word)
  | 0, a => if a < limit then none else some []
  | n + 1, a => if a < limit then (pages limit n (a + PGSIZE)).map (a :: ·) else some []

def deallocLoop : Pgdir → List Word → Kernel Pgdir
  | pgdir, [] => return pgdir
  | pgdir, a :: as =>
    match pgdir.pte a with
    | some pte =>
      if present pte then
        if PTE_ADDR pte = 0 then panic -- "kfree"
        else do
          kfree img (PTE_ADDR pte)
          deallocLoop (pgdir.setPte a 0) as
      else deallocLoop pgdir as
    | none => deallocLoop pgdir as

def deallocuvm (pgdir : Pgdir) (oldsz newsz : Word) : Kernel (Pgdir × Word) :=
  if oldsz ≤ newsz then return (pgdir, oldsz)
  else do
    let as ← (pages oldsz NPAGES (PGROUNDUP newsz) : Option (List Word))
    let pgdir ← deallocLoop img pgdir as
    return (pgdir, newsz)

/-- The loop of `allocuvm`, which does not look at what `mappages` returns. -/
def allocLoop (oldsz newsz : Word) : Pgdir → List Word → Kernel (Pgdir × Word)
  | pgdir, [] => return (pgdir, newsz)
  | pgdir, a :: as => do
    let mem ← kalloc
    if mem = 0 then do
      let r ← deallocuvm img pgdir newsz oldsz
      return (r.1, 0)
    else do
      memset mem 0
      let r ← mappages pgdir a PGSIZE mem (PTE_W ||| PTE_U)
      allocLoop oldsz newsz r.1 as

def allocuvm (pgdir : Pgdir) (oldsz newsz : Word) : Kernel (Pgdir × Word) :=
  if USERTOP < newsz then return (pgdir, 0)
  else if newsz < oldsz then return (pgdir, oldsz)
  else do
    let as ← (pages newsz NPAGES (PGROUNDUP oldsz) : Option (List Word))
    allocLoop img oldsz newsz pgdir as

/-- `kfree` for the tables `pgdir[i]`, `i` in the list. -/
def freeTables (pgdir : Pgdir) : List (BitVec 10) → Kernel Unit
  | [] => return ()
  | i :: is =>
    match pgdir.pde i with
    | some pgtab => do
      kfree img pgtab.frame
      freeTables pgdir is
    | none => freeTables pgdir is

def freevm (pgdir : Pgdir) : Kernel Unit := do
  let r ← deallocuvm img pgdir USERTOP 0
  freeTables img r.1 ((List.finRange 1024).map BitVec.ofFin)
  kfree img pgdir.frame

/-- `struct kmap`. -/
structure Kmap where
  p : Word
  e : Word
  perm : Word

def kmap : List Kmap :=
  [⟨USERTOP, 0x100000, PTE_W⟩, ⟨0x100000, img.data, 0⟩, ⟨img.data, PHYSTOP, PTE_W⟩,
    ⟨0xFE000000, 0, PTE_W⟩]

def mapKernel : Pgdir → List Kmap → Kernel (Option Pgdir)
  | pgdir, [] => return some pgdir
  | pgdir, k :: ks => do
    let r ← mappages pgdir k.p (k.e - k.p) k.p k.perm
    if r.2 < 0 then return none
    else mapKernel r.1 ks

def setupkvm : Kernel (Option Pgdir) := do
  let frame ← kalloc
  if frame = 0 then return none
  else do
    memset frame 0
    mapKernel ⟨frame, fun _ => none⟩ (kmap img)

/-- One of the loops of `copyuvm`; false for `goto bad`. -/
def copyLoop (pgdir : Pgdir) : Pgdir → List Word → Kernel (Pgdir × Bool)
  | d, [] => return (d, true)
  | d, i :: is =>
    match pgdir.pte i with
    | none => panic -- "copyuvm: pte should exist"
    | some pte =>
      if present pte = false then panic -- "copyuvm: page not present"
      else do
        let mem ← kalloc
        if mem = 0 then return (d, false)
        else do
          memmove mem (PTE_ADDR pte)
          let r ← mappages d i PGSIZE mem (PTE_W ||| PTE_U)
          if r.2 < 0 then return (r.1, false)
          else copyLoop pgdir r.1 is

def copyuvm (pgdir : Pgdir) (sz stackSz : Word) : Kernel (Option Pgdir) := do
  match ← setupkvm img with
  | none => return none
  | some d => do
    let heap ← (pages sz NPAGES PGSIZE : Option (List Word))
    let r ← copyLoop pgdir d heap
    if r.2 = false then do
      freevm img r.1
      return none
    else do
      let stack ← (pages USERTOP NPAGES stackSz : Option (List Word))
      let r ← copyLoop pgdir r.1 stack
      if r.2 = false then do
        freevm img r.1
        return none
      else return some r.1

end PerrOS.Vm
