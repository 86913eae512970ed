import PerrOS.Lib.Bytes

/-!
# The slab and next-fit allocators

`mem.c` on LP64. Headers, slab links, free list and payloads share one byte
memory; an access outside what `mmap` mapped, and a failed `assert`, stop the
program (`none`). A loop gives up, also with `none`, after more turns than
the mapping has bytes.

Both headers are 16 bytes: the `int` length at offset 0, and `next` or
`magic` at offset 8.
-/

namespace PerrOS.Mem

open Lib (Memory)

def ALIGN_SIZE : Int := 16
def MAGIC : Nat := 0x5077604
def NULL : Nat := 0

/-- `sizeof(struct FreeHeader)` and `sizeof(struct AllocatedHeader)`. -/
def headerSize : Nat := 16

/-- The `int` with the low 32 bits of `i`. -/
def int32 (i : Int) : Int := i.bmod (2 ^ 32)

/-- The `size_t` with the low 64 bits of `i`. -/
def sizeT (i : Int) : Nat := (i % 2 ^ 64).toNat

/-- `p + i` on a `void *`. -/
def ptrAdd (p : Nat) (i : Int) : Nat := sizeT (p + i)

/-- `struct memAllocators`, `initializedOnce`, the memory and what of it is
mapped. -/
structure State where
  freeHead : Nat
  nextPtr : Nat
  regionStartPtr : Nat
  topOfSlabStack : Nat
  nextFitRegionStartPtr : Nat
  slabUnitSize : Int
  roundedSlabAllocationSize : Int
  sizeOfRegion : Int
  initializedOnce : Bool
  mem : Memory
  mapStart : Nat
  mapLen : Nat

/-- The static storage a program starts with. -/
def State.static : State where
  freeHead := NULL
  nextPtr := NULL
  regionStartPtr := NULL
  topOfSlabStack := NULL
  nextFitRegionStartPtr := NULL
  slabUnitSize := 0
  roundedSlabAllocationSize := 0
  sizeOfRegion := 0
  initializedOnce := false
  mem := fun _ => 0
  mapStart := 0
  mapLen := 0

-- ---------------------------------------------------------------------------
-- Memory accesses
-- ---------------------------------------------------------------------------

/-- The `int` at `a`. -/
def intAt (m : Memory) (a : Nat) : Int := (BitVec.ofNat 32 (m.read a 4)).toInt

/-- The pointer at `a`. -/
def ptrAt (m : Memory) (a : Nat) : Nat := m.read a 8

def setInt (m : Memory) (a : Nat) (v : Int) : Memory := m.write a 4 (v % 2 ^ 32).toNat
def setPtr (m : Memory) (a : Nat) (p : Nat) : Memory := m.write a 8 p

/-- The `n` bytes at `a` are mapped. -/
def State.Mapped (s : State) (a n : Nat) : Prop :=
  s.mapStart ≤ a ∧ a + n ≤ s.mapStart + s.mapLen

instance (s : State) (a n : Nat) : Decidable (s.Mapped a n) := inferInstanceAs (Decidable (_ ∧ _))

def State.loadInt (s : State) (a : Nat) : Option Int :=
  if s.Mapped a 4 then some (intAt s.mem a) else none

def State.loadPtr (s : State) (a : Nat) : Option Nat :=
  if s.Mapped a 8 then some (ptrAt s.mem a) else none

def State.storeInt (s : State) (a : Nat) (v : Int) : Option State :=
  if s.Mapped a 4 then some { s with mem := setInt s.mem a v } else none

def State.storePtr (s : State) (a : Nat) (p : Nat) : Option State :=
  if s.Mapped a 8 then some { s with mem := setPtr s.mem a p } else none

/-- The bound on the turns of a loop. -/
def State.turns (s : State) : Nat := s.mapLen + 1

-- ---------------------------------------------------------------------------
-- The slab stack
-- ---------------------------------------------------------------------------

def slabPush (s : State) (nodeToAdd : Nat) : Option State :=
  if nodeToAdd = NULL then none
  else do
    let s ← s.storePtr nodeToAdd s.topOfSlabStack
    some { s with topOfSlabStack := nodeToAdd }

def slabPop (s : State) : Option (State × Nat) :=
  if s.topOfSlabStack = NULL then some (s, NULL)
  else do
    let next ← s.loadPtr s.topOfSlabStack
    some ({ s with topOfSlabStack := next }, s.topOfSlabStack)

-- ---------------------------------------------------------------------------
-- The free list
-- ---------------------------------------------------------------------------

def removeLoop : Nat → State → Nat → Nat → Option State
  | 0, _, _, _ => none
  | turns + 1, s, itr, freePtr =>
    if itr = NULL then some s
    else do
      let next ← s.loadPtr (itr + 8)
      if next = freePtr then do
        let after ← s.loadPtr (freePtr + 8)
        s.storePtr (itr + 8) after
      else removeLoop turns s next freePtr

def removeFreeNode (s : State) (freePtr : Nat) : Option State :=
  if s.freeHead = freePtr then do
    let next ← s.loadPtr (s.freeHead + 8)
    some { s with freeHead := next }
  else removeLoop s.turns s s.freeHead freePtr

def addLoop : Nat → State → Nat → Nat → Option State
  | 0, _, _, _ => none
  | turns + 1, s, itr, freePtr =>
    if itr = NULL then some s
    else if itr = freePtr then some s
    else do
      let next ← s.loadPtr (itr + 8)
      if next = NULL then do
        let s ← s.storePtr (itr + 8) freePtr
        s.storePtr (freePtr + 8) NULL
      else if next > freePtr then do
        let s ← s.storePtr (freePtr + 8) next
        s.storePtr (itr + 8) freePtr
      else addLoop turns s next freePtr

def addFreeNode (s : State) (freePtr : Nat) : Option State :=
  if freePtr = NULL then none
  else if s.freeHead = NULL then do
    let s ← s.storePtr (freePtr + 8) NULL
    some { s with freeHead := freePtr }
  else if s.freeHead > freePtr then do
    let s ← s.storePtr (freePtr + 8) s.freeHead
    some { s with freeHead := freePtr }
  else addLoop s.turns s s.freeHead freePtr

-- ---------------------------------------------------------------------------
-- Next fit
-- ---------------------------------------------------------------------------

/-- The remainder has the sign of `size`, as in C. -/
def fitToAlignSize (size : Int) : Int :=
  if size.tmod ALIGN_SIZE ≠ 0 then int32 (size + (ALIGN_SIZE - size.tmod ALIGN_SIZE)) else size

/-- `length + sizeof(struct FreeHeader)`, whose type is `size_t`. -/
def withHeader (length : Int) : Nat := sizeT (length + headerSize)

/-- "we can use this chunk": what the loop of `nextFitAlloc` does with the
first block that is long enough. -/
def useChunk (s : State) (itr : Nat) (alignedSize : Int) : Option State := do
  let currLen ← s.loadInt itr
  let s ←
    if withHeader currLen = withHeader alignedSize then do
      let next ← s.loadPtr (itr + 8)
      some { s with nextPtr := next }
    else some s
  let s ← removeFreeNode s itr
  let s ← s.storePtr (itr + 8) MAGIC
  let s ← s.storeInt itr alignedSize
  if withHeader currLen > withHeader alignedSize then do
    let leftOver := ptrAdd itr (alignedSize + headerSize)
    let s ← s.storeInt leftOver (currLen - alignedSize - headerSize)
    let s ← addFreeNode s leftOver
    some { s with nextPtr := leftOver }
  else some s

def allocLoop : Nat → State → Nat → Int → Option (State × Nat)
  | 0, _, _, _ => none
  | turns + 1, s, itr, alignedSize => do
    let length ← s.loadInt itr
    if withHeader length ≥ withHeader alignedSize then do
      let s ← useChunk s itr alignedSize
      some (s, itr + headerSize)
    else do
      let next ← s.loadPtr (itr + 8)
      let itr := if next = NULL then s.freeHead else next
      if itr ≠ s.nextPtr then allocLoop turns s itr alignedSize else some (s, NULL)

def nextFitAlloc (s : State) (size : Int) : Option (State × Nat) :=
  let alignedSize := fitToAlignSize size
  if s.freeHead = NULL then some (s, NULL)
  else
    let s := if s.nextPtr = NULL then { s with nextPtr := s.freeHead } else s
    allocLoop s.turns s s.nextPtr alignedSize

/-- The loop of `nextFitCoalesce`: `prevNeighbor` and `nextNeighborIsFree`. -/
def neighborLoop : Nat → State → Nat → Nat → Nat → Nat → Bool → Option (Nat × Bool)
  | 0, _, _, _, _, _, _ => none
  | turns + 1, s, itr, freeHeadPtr, nextNeighbor, prevNeighbor, nextNeighborIsFree =>
    if itr = NULL then some (prevNeighbor, nextNeighborIsFree)
    else do
      let length ← s.loadInt itr
      let nextNode := ptrAdd itr (length + headerSize)
      let next ← s.loadPtr (itr + 8)
      if nextNode = freeHeadPtr then
        neighborLoop turns s next freeHeadPtr nextNeighbor itr nextNeighborIsFree
      else if itr = nextNeighbor then
        neighborLoop turns s next freeHeadPtr nextNeighbor prevNeighbor true
      else neighborLoop turns s next freeHeadPtr nextNeighbor prevNeighbor nextNeighborIsFree

/-- "coalesce with next neighbor" -/
def coalesceNext (s : State) (freeHeadPtr nextNeighbor : Nat) : Option State := do
  let s := if nextNeighbor = s.nextPtr then { s with nextPtr := freeHeadPtr } else s
  let s ← removeFreeNode s nextNeighbor
  let length ← s.loadInt freeHeadPtr
  let nextLength ← s.loadInt nextNeighbor
  s.storeInt freeHeadPtr (length + (nextLength + headerSize))

/-- "coalesce with prev neighbor" -/
def coalescePrev (s : State) (freeHeadPtr prevNeighbor : Nat) : Option State := do
  let s := if freeHeadPtr = s.nextPtr then { s with nextPtr := prevNeighbor } else s
  let next ← s.loadPtr (freeHeadPtr + 8)
  let s ← s.storePtr (prevNeighbor + 8) next
  let prevLength ← s.loadInt prevNeighbor
  let length ← s.loadInt freeHeadPtr
  let s ← s.storeInt prevNeighbor (prevLength + (length + headerSize))
  removeFreeNode s freeHeadPtr

def nextFitCoalesce (s : State) (freeHeadPtr : Nat) : Option State := do
  let length ← s.loadInt freeHeadPtr
  let nextNeighbor := ptrAdd freeHeadPtr (length + headerSize)
  let (prevNeighbor, nextNeighborIsFree) ←
    neighborLoop s.turns s s.freeHead freeHeadPtr nextNeighbor NULL false
  let s ← if nextNeighborIsFree then coalesceNext s freeHeadPtr nextNeighbor else some s
  if prevNeighbor ≠ NULL then coalescePrev s freeHeadPtr prevNeighbor else some s

def nextFitFree (s : State) (ptr : Nat) : Option (State × Int) := do
  let allocatedPtr := ptrAdd ptr (-headerSize)
  let magic ← s.loadPtr (allocatedPtr + 8)
  if magic ≠ MAGIC then some (s, -1)
  else do
    let s ← s.storePtr (allocatedPtr + 8) NULL
    let length ← s.loadInt allocatedPtr
    let s ← s.storeInt allocatedPtr length
    let s ← addFreeNode s allocatedPtr
    let s ← nextFitCoalesce s allocatedPtr
    some (s, 0)

-- ---------------------------------------------------------------------------
-- Mem_Init
-- ---------------------------------------------------------------------------

/-- The loop that carves the slab region, from its top downwards. -/
def carveLoop : Nat → State → Nat → Option State
  | 0, _, _ => none
  | turns + 1, s, itr =>
    if itr < s.regionStartPtr then some s
    else do
      let s ← slabPush s itr
      carveLoop turns s (ptrAdd itr (-s.roundedSlabAllocationSize))

/-- `Mem_Init`, where `mmap` is the address `mmap` returns or `none` for
`MAP_FAILED`. -/
def memInit (s : State) (sizeOfRegion slabSize : Int) (mmap : Option Nat) :
    Option (State × Nat) :=
  let s := { s with roundedSlabAllocationSize := fitToAlignSize slabSize }
  if sizeOfRegion < 4 ∨ slabSize < 1 ∨ sizeOfRegion.tdiv 4 < s.roundedSlabAllocationSize ∨
      sizeOfRegion < s.roundedSlabAllocationSize then some (s, NULL)
  else if s.initializedOnce then some (s, NULL)
  else if sizeOfRegion.tmod 4 ≠ 0 then none
  else
    let s := { s with
      initializedOnce := true
      slabUnitSize := slabSize
      sizeOfRegion := sizeOfRegion
      roundedSlabAllocationSize := fitToAlignSize slabSize }
    let slabRegionSize := sizeOfRegion.tdiv 4
    let nextFitRegionSize := sizeOfRegion - slabRegionSize
    match mmap with
    | none => some ({ s with regionStartPtr := sizeT (-1) }, NULL)
    | some start => do
      let s := { s with
        regionStartPtr := start
        mapStart := start
        mapLen := sizeT sizeOfRegion
        mem := fun a => if start ≤ a ∧ a < start + sizeT sizeOfRegion then 0 else s.mem a
        topOfSlabStack := NULL
        nextFitRegionStartPtr := ptrAdd start slabRegionSize }
      let s ← carveLoop s.turns s
        (ptrAdd s.nextFitRegionStartPtr (-s.roundedSlabAllocationSize))
      let s := { s with freeHead := s.nextFitRegionStartPtr }
      let s ← s.storeInt s.freeHead (nextFitRegionSize - headerSize)
      let s ← s.storePtr (s.freeHead + 8) NULL
      some ({ s with nextPtr := s.freeHead }, s.regionStartPtr)

end PerrOS.Mem
