import PerrOS.Mem.FreeList
import PerrOS.Lib.Blocks

/-!
# The next-fit heap

A next-fit region is a tiling by blocks. `Heap s bs` says that the memory and
the registers of `s` represent the blocks `bs`: every header holds its block's
length, the headers of blocks in use hold `MAGIC`, and the free blocks are the
free list. A block in use is tagged with the size that was asked for.
-/

namespace PerrOS.Mem

open Lib (Memory Path Block)
open Lib.Block (Tiles frees used Coalesced)

/-- Where the next-fit region lies in the mapping. -/
structure Region (s : State) : Prop where
  start_pos : 0 < s.mapStart
  start_le : s.mapStart ≤ s.nextFitRegionStartPtr
  aligned : s.nextFitRegionStartPtr % 16 = 0
  addressable : s.mapStart + s.mapLen < 2 ^ 64
  int_size : s.mapLen < 2 ^ 31

/-- What the header of a block holds. -/
structure Header (s : State) (b : Block Int) : Prop where
  length : intAt s.mem b.addr = b.len
  magic : b.free = false → nextAt s.mem b.addr = MAGIC

/-- The length of a block is a multiple of `ALIGN_SIZE`, and for a block in
use the request rounded up. -/
structure Fitted (b : Block Int) : Prop where
  aligned : b.len % 16 = 0
  request : ∀ n, b.use = some n → 0 ≤ n ∧ n < 2 ^ 31 ∧ (b.len : Int) = fitToAlignSize n

/-- A heap in which free blocks may be adjacent, as while a block is freed. -/
structure Blocks (s : State) (bs : List (Block Int)) : Prop where
  region : Region s
  tiles : Tiles headerSize s.nextFitRegionStartPtr bs (s.mapStart + s.mapLen)
  fitted : ∀ b ∈ bs, Fitted b
  header : ∀ b ∈ bs, Header s b
  chain : FreeList s (frees bs)
  cursor : s.nextPtr = NULL ∨ s.nextPtr ∈ frees bs

structure Heap (s : State) (bs : List (Block Int)) : Prop extends Blocks s bs where
  coalesced : Coalesced bs

section
variable {s s' : State} {bs pre post : List (Block Int)} {b c : Block Int} {a : Nat}

-- ---------------------------------------------------------------------------
-- Geometry
-- ---------------------------------------------------------------------------

theorem Region.of_edit (h : Region s) (he : Edit N s s') : Region s' := by
  rw [he.rest]
  exact ⟨h.start_pos, h.start_le, h.aligned, h.addressable, h.int_size⟩

theorem tiles_aligned (h : Tiles headerSize lo bs hi) (hlo : lo % 16 = 0)
    (hf : ∀ b ∈ bs, Fitted b) (hb : b ∈ bs) : b.addr % 16 = 0 := by
  induction bs generalizing lo with
  | nil => simp at hb
  | cons c bs ih =>
    obtain ⟨rfl, h⟩ := h
    rcases List.mem_cons.mp hb with rfl | hb
    · exact hlo
    · have := (hf c (by simp)).aligned
      refine ih h ?_ (fun d hd => hf d (List.mem_cons_of_mem _ hd)) hb
      simp only [Block.stop, headerSize]
      omega

theorem Blocks.addr_aligned (h : Blocks s bs) (hb : b ∈ bs) : b.addr % 16 = 0 :=
  tiles_aligned h.tiles h.region.aligned h.fitted hb

theorem Blocks.bounds (h : Blocks s bs) (hb : b ∈ bs) :
    s.nextFitRegionStartPtr ≤ b.addr ∧ b.addr + 16 + b.len ≤ s.mapStart + s.mapLen :=
  h.tiles.bounds hb

theorem Blocks.node (h : Blocks s bs) (hb : b ∈ bs) : s.Node b.addr := by
  have hbd := h.bounds hb
  have hst := h.region.start_le
  have hadr := h.region.addressable
  refine ⟨h.addr_aligned hb, ⟨?_, ?_⟩, ?_⟩
  · omega
  · omega
  · omega

theorem Blocks.addr_pos (h : Blocks s bs) (hb : b ∈ bs) : 0 < b.addr := by
  have := h.bounds hb
  have := h.region.start_pos
  have := h.region.start_le
  omega

theorem Blocks.len_lt (h : Blocks s bs) (hb : b ∈ bs) : b.len + 16 < 2 ^ 31 := by
  have := h.bounds hb
  have := h.region.start_le
  have := h.region.int_size
  omega

/-- Distinct blocks have distinct addresses. -/
theorem Blocks.addr_ne (h : Blocks s (pre ++ b :: post)) (hc : c ∈ pre ++ post) :
    c.addr ≠ b.addr := by
  intro he
  rcases List.mem_append.mp hc with hc | hc
  · have := h.tiles.before hc
    simp only [Block.stop, headerSize] at this
    omega
  · have := h.tiles.after hc
    simp only [Block.stop, headerSize] at this
    omega

-- ---------------------------------------------------------------------------
-- Headers under writes
-- ---------------------------------------------------------------------------

theorem Header.setInt (h : Header s c) (ha : a % 16 = 0) (hc : c.addr % 16 = 0)
    (hne : c.addr ≠ a) (v : Int) : Header { s with mem := setInt s.mem a v } c :=
  ⟨(intAt_setInt_ne ha hc hne).trans h.length,
    fun hu => (nextAt_setInt ha hc).trans (h.magic hu)⟩

theorem Header.setNext (h : Header s c) (ha : a % 16 = 0) (hc : c.addr % 16 = 0)
    (hne : c.free = false → c.addr ≠ a) (p : Nat) :
    Header { s with mem := setPtr s.mem (a + 8) p } c :=
  ⟨(intAt_setPtr ha hc).trans h.length,
    fun hu => (nextAt_setPtr_ne ha hc (hne hu)).trans (h.magic hu)⟩

theorem Header.relink (h : Header s c) (hr : Relink N s s') (hN : ∀ a ∈ N, s.Node a)
    (hc : c.addr % 16 = 0) (hne : c.free = false → c.addr ∉ N) : Header s' c :=
  ⟨(hr.intAt hN hc).trans h.length, fun hu => (hr.nextAt hN hc (hne hu)).trans (h.magic hu)⟩

theorem Header.of_mem (h : Header s c) (hm : s'.mem = s.mem) : Header s' c :=
  ⟨hm ▸ h.length, hm ▸ h.magic⟩

/-- A block in use is not in the free list. -/
theorem Blocks.used_not_mem (h : Blocks s bs) (hc : c ∈ bs) (hu : c.free = false) :
    c.addr ∉ frees bs := by
  intro hm
  obtain ⟨d, hd, hf, he⟩ := Block.mem_frees.mp hm
  obtain rfl := h.tiles.eq_of_addr (by decide) hd hc he
  simp [hu] at hf

/-- A free block's header does not hold `MAGIC`, which is no aligned address. -/
theorem Blocks.free_not_magic (h : Blocks s bs) (hb : b ∈ bs) (hf : b.free = true) :
    nextAt s.mem b.addr ≠ MAGIC := by
  intro he
  rcases h.chain.path.next_mem (Block.mem_frees.mpr ⟨b, hb, hf, rfl⟩) with hn | hn
  · rw [he] at hn
    exact absurd hn (by decide)
  · have := (h.chain.node _ hn).aligned
    rw [he] at this
    exact absurd this (by decide)

/-- The heap depends on the free list's registers, the layout and the bytes
of its headers. -/
theorem Heap.congr (h : Heap s bs)
    (hm : ∀ b ∈ bs, ∀ x, b.addr ≤ x → x < b.addr + 16 → s'.mem x = s.mem x)
    (hs : s' = { s with mem := s'.mem, topOfSlabStack := s'.topOfSlabStack }) : Heap s' bs := by
  have hint : ∀ b ∈ bs, intAt s'.mem b.addr = intAt s.mem b.addr := fun b hb =>
    intAt_congr fun x hx hx' => hm b hb x hx (by omega)
  have hnext : ∀ b ∈ bs, nextAt s'.mem b.addr = nextAt s.mem b.addr := fun b hb =>
    ptrAt_congr fun x hx hx' => hm b hb x (by omega) (by omega)
  have hhead : s'.freeHead = s.freeHead := by rw [hs]
  have hcur : s'.nextPtr = s.nextPtr := by rw [hs]
  have hstart : s'.mapStart = s.mapStart := by rw [hs]
  have hlen : s'.mapLen = s.mapLen := by rw [hs]
  have hlo : s'.nextFitRegionStartPtr = s.nextFitRegionStartPtr := by rw [hs]
  refine ⟨⟨⟨?_, ?_, ?_, ?_, ?_⟩, ?_, h.fitted, fun b hb => ⟨?_, fun hu => ?_⟩,
    h.chain.congr hhead (fun a ha => ?_) hstart hlen, ?_⟩, h.coalesced⟩
  · exact hstart ▸ h.region.start_pos
  · exact hstart ▸ hlo ▸ h.region.start_le
  · exact hlo ▸ h.region.aligned
  · exact hstart ▸ hlen ▸ h.region.addressable
  · exact hlen ▸ h.region.int_size
  · rw [hlo, hstart, hlen]
    exact h.tiles
  · exact (hint b hb).trans (h.header b hb).length
  · exact (hnext b hb).trans ((h.header b hb).magic hu)
  · obtain ⟨b, hb, -, rfl⟩ := Block.mem_frees.mp ha
    exact hnext b hb
  · rw [hcur]
    exact h.cursor

end

end PerrOS.Mem
