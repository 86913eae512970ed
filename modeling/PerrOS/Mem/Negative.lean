import PerrOS.Mem.Client

/-!
# Negative requests

`fitToAlignSize` rounds a negative size towards 0 and then up by 16, and the
sum with `sizeof(struct AllocatedHeader)` is a `size_t`. Sizes that round to 16
or 0 are served like requests of 16 or 0 bytes, and sizes below -32 fit no
block. A size that rounds to -16 cancels the header: it fits every block, and
`Mem_Alloc` returns a pointer into the first, which stays on the free list.
-/

namespace PerrOS.Mem

open Lib (Memory Block)
open Lib.Block (frees)

/-- The negative sizes that `fitToAlignSize` takes to `-sizeof` of a header. -/
def CancelsHeader (size : Int) : Prop := size = -16 ∨ -47 ≤ size ∧ size ≤ -33

instance (size : Int) : Decidable (CancelsHeader size) := inferInstanceAs (Decidable (_ ∨ _))

section
variable {s s' : State} {bs : List (Block Int)} {b : Block Int} {L : List Nat} {a p : Nat} {size : Int}

-- ---------------------------------------------------------------------------
-- Rounding
-- ---------------------------------------------------------------------------

theorem fitToAlignSize_negative (h : -2 ^ 31 ≤ size) (hneg : size < 0) :
    (¬CancelsHeader size ∧ (fitToAlignSize size = fitToAlignSize 16 ∨
      fitToAlignSize size = fitToAlignSize 0)) ∨
    (CancelsHeader size ∧ fitToAlignSize size = -16) ∨
    (¬CancelsHeader size ∧ -2 ^ 31 ≤ fitToAlignSize size ∧ fitToAlignSize size ≤ -32) := by
  have hmod : size.tmod 16 = -(-size % 16) := by
    rw [← Int.tmod_eq_emod_of_nonneg (by omega), Int.neg_tmod, neg_neg]
  have h16 : fitToAlignSize 16 = 16 := by decide
  have h0 : fitToAlignSize 0 = 0 := by decide
  rw [h16, h0]
  unfold CancelsHeader
  simp only [fitToAlignSize, ALIGN_SIZE, hmod]
  by_cases he : -(-size % 16) = 0
  · rw [if_neg (not_not_intro he)]
    omega
  · have hint : int32 (size + (16 - -(-size % 16))) = size + (16 - -(-size % 16)) := by
      rw [int32, Int.bmod]
      split <;> omega
    rw [if_pos he, hint]
    omega

theorem withHeader_negative (h : -2 ^ 31 ≤ size) (hneg : size ≤ -32) :
    2 ^ 32 ≤ withHeader size := by
  simp only [withHeader, sizeT, headerSize]
  omega

-- ---------------------------------------------------------------------------
-- Requests that no block fits, or the first
-- ---------------------------------------------------------------------------

theorem nextFitAlloc_eq (hnull : s.freeHead ≠ NULL) : Mem.nextFitAlloc s size =
    Mem.allocLoop s.fromCursor.turns s.fromCursor s.fromCursor.nextPtr (fitToAlignSize size) := by
  rw [Mem.nextFitAlloc, if_neg hnull]
  rfl

theorem fromCursor_eq (s : State) : ∃ p, s.fromCursor = { s with nextPtr := p } := by
  unfold State.fromCursor
  split
  · exact ⟨_, rfl⟩
  · exact ⟨_, rfl⟩

/-- A request that no block fits moves the cursor at most. -/
theorem Heap.nextFitAlloc_none (h : Heap s bs) (hf : ∀ b ∈ bs, ¬Fits b size) :
    ∃ p, (p = NULL ∨ p ∈ frees bs) ∧
      Mem.nextFitAlloc s size = some ({ s with nextPtr := p }, NULL) := by
  by_cases hnull : s.freeHead = NULL
  · exact ⟨s.nextPtr, h.cursor, by rw [Mem.nextFitAlloc, if_pos hnull]⟩
  · obtain ⟨h', hc, -⟩ := h.fromCursor hnull
    obtain ⟨b, O, hO, hbc, hpath, hnot, hlt⟩ := h'.searchOrder_cons hc
    have hmem : ∀ d ∈ b :: O, d ∈ bs := fun d hd => (mem_searchOrder.mp (hO ▸ hd)).1
    have hnone : (b :: O).find? (Fits · size) = none :=
      List.find?_eq_none.mpr fun d hd => by simpa using hf d (hmem d hd)
    obtain ⟨p, hp⟩ := fromCursor_eq s
    refine ⟨s.fromCursor.nextPtr, .inr hc, ?_⟩
    rw [nextFitAlloc_eq hnull, ← hbc, h'.allocLoop hpath hmem hnot hlt, hnone, hbc, hp]

/-- A request that every block fits gets the block at the cursor. -/
theorem Heap.nextFitAlloc_first (h : Heap s bs) (hf : ∀ b ∈ bs, Fits b size)
    (hnull : s.freeHead ≠ NULL) : ∃ b ∈ bs, b.free = true ∧ Mem.nextFitAlloc s size =
      (Mem.useChunk s.fromCursor b.addr (fitToAlignSize size)).bind fun s =>
        some (s, b.addr + headerSize) := by
  obtain ⟨h', hc, -⟩ := h.fromCursor hnull
  obtain ⟨b, O, hO, hbc, -⟩ := h'.searchOrder_cons hc
  obtain ⟨hb, hfree⟩ := mem_searchOrder.mp (hO ▸ List.mem_cons_self : b ∈ searchOrder _ bs)
  refine ⟨b, hb, hfree, ?_⟩
  rw [nextFitAlloc_eq hnull, ← hbc, State.turns, h'.allocLoop_step hb, if_pos (hf b hb)]

-- ---------------------------------------------------------------------------
-- A header's size less
-- ---------------------------------------------------------------------------

/-- The left-over is the block itself: it goes back to the free list. -/
theorem Blocks.useChunk_cancelled (h : Blocks s bs) (hb : b ∈ bs) (hf : b.free = true) :
    ∃ s', Mem.useChunk s b.addr (-16) = some s' ∧ FreeList s' (frees bs) ∧
      s' = { s with freeHead := s'.freeHead, nextPtr := s'.nextPtr, mem := s'.mem } := by
  obtain ⟨pre, post, rfl⟩ := List.append_of_mem hb
  have hnode := h.node hb
  have hlen := h.len_lt hb
  have hfrees : frees (pre ++ b :: post) = frees pre ++ b.addr :: frees post := by simp [hf]
  have hchain := hfrees ▸ h.chain
  obtain ⟨hsA, hsB, hAB⟩ := List.pairwise_append.mp hchain.sorted
  obtain ⟨s₁, hs₁, hl₁, hr₁⟩ := removeFreeNode_spec hchain
  have hn₁ : s₁.Node b.addr := hr₁.node hnode
  -- the stores to the header between the two list operations
  obtain ⟨m, hm⟩ : ∃ m, m = setInt (setInt (setPtr s₁.mem (b.addr + 8) MAGIC) b.addr (-16)) b.addr
    (b.len - -16 - headerSize) := ⟨_, rfl⟩
  have hnotin : b.addr ∉ frees pre ++ frees post := by
    intro hmem
    rcases List.mem_append.mp hmem with hmem | hmem
    · exact absurd (hAB _ hmem _ List.mem_cons_self) (Nat.lt_irrefl _)
    · exact absurd ((List.pairwise_cons.mp hsB).1 _ hmem) (Nat.lt_irrefl _)
  have hl₂ : FreeList { s₁ with mem := m } (frees pre ++ frees post) := by
    rw [hm]
    exact ((hl₁.setNext hnode.aligned hnotin MAGIC).setInt hnode.aligned _).setInt hnode.aligned _
  obtain ⟨s₃, hs₃, hl₃, hr₃⟩ := addFreeNode_spec hl₂ (hn₁.of_map rfl rfl)
    (Nat.pos_iff_ne_zero.mp (h.addr_pos hb)) (fun x hx => hAB x hx _ List.mem_cons_self)
    (List.pairwise_cons.mp hsB).1
  have hadd : ptrAdd b.addr (-16 + headerSize) = b.addr := by
    have := hnode.addressable
    simp only [ptrAdd, sizeT, headerSize]
    omega
  have hn₂ (m : Memory) : State.Node { s₁ with mem := m } b.addr := hn₁.of_map rfl rfl
  have hwith : withHeader b.len = b.len + 16 := withHeader_ofNat (by omega)
  have hzero : withHeader (-16) = 0 := by decide
  refine ⟨{ s₃ with nextPtr := b.addr }, ?_, ?_, ?_⟩
  · rw [hm] at hs₃
    simp only [Mem.useChunk, hnode.loadInt, (h.header b hb).length, Option.bind_eq_bind,
      Option.bind_some, hwith, hzero, if_neg (Nat.succ_ne_zero _), hs₁, hn₁.storeNext,
      (hn₂ _).storeInt, if_pos (Nat.succ_pos _), hadd, hs₃]
  · rw [hfrees]
    exact hl₃.setCursor _
  · rw [hr₃.rest, hr₁.rest]

-- ---------------------------------------------------------------------------
-- Mem_Alloc and Mem_Free
-- ---------------------------------------------------------------------------

theorem FreeList.next_ne_magic (h : FreeList s L) (ha : a ∈ L) : nextAt s.mem a ≠ MAGIC := by
  intro he
  rcases h.path.next_mem ha with hn | hn
  · rw [he] at hn
    exact absurd hn (by decide)
  · have := (h.node _ hn).aligned
    rw [he] at this
    exact absurd this (by decide)

/-- `Mem_Free` refuses what follows the header of a free block. -/
theorem FreeList.memFree_listed (h : FreeList s L) (ha : a ∈ L)
    (hlo : s.nextFitRegionStartPtr ≤ a) : Mem.memFree s (a + headerSize) = some (s, -1) := by
  have hnode := h.node a ha
  have hback : ptrAdd (a + headerSize) (-headerSize) = a := by
    have := hnode.addressable
    simp only [ptrAdd, sizeT, headerSize]
    omega
  unfold Mem.memFree
  cases ht : freeTarget s (a + headerSize) with
  | error => rfl
  | nextFit =>
    simp only [Mem.nextFitFree, hback, hnode.loadNext, Option.bind_eq_bind, Option.bind_some,
      if_pos (h.next_ne_magic ha)]
  | slab =>
    have hhigh : ¬a + headerSize < s.nextFitRegionStartPtr := by omega
    unfold freeTarget at ht
    rw [if_neg hhigh] at ht
    split_ifs at ht

/-- A request for another size than the slabs' goes to the heap. -/
theorem memAlloc_eq (hinit : s.initializedOnce = true) (hsize : size ≠ s.slabUnitSize)
    (hr : Mem.nextFitAlloc s size = some (s', p)) (hunit : s'.slabUnitSize = s.slabUnitSize) :
    Mem.memAlloc s size = some (s', p) := by
  simp only [Mem.memAlloc, hinit, Bool.true_eq_false, if_false, hsize, allocNextFit, hr,
    Option.bind_eq_bind, Option.bind_some, hunit, false_and]

/-- `Mem_Alloc(size)` returns null, or a new pointer that `Mem_Free` takes;
and the region is tiled by free blocks and blocks in use, among these one for
every pointer into the region. -/
def Harmless (c : Client) (size : Int) : Prop :=
  ∃ s' p, Mem.memAlloc c.state size = some (s', p) ∧
    (p = NULL ∨ p ∉ c.live.map Prod.fst ∧ ∃ s'', Mem.memFree s' p = some (s'', 0)) ∧
    ∃ bs, Heap s' bs ∧ ∀ a, (a ∈ c.live.map Prod.fst ∨ a = p ∧ p ≠ NULL) →
      s'.nextFitRegionStartPtr ≤ a → ∃ b ∈ bs, b.free = false ∧ a = b.addr + headerSize

variable {sizeOfRegion slabSize : Int} {start : Nat} {c : Client}

theorem Shares.live_block {owned : List (Nat × Int)}
    (h : Shares sizeOfRegion slabSize start s bs L owned) (ha : a ∈ owned.map Prod.fst)
    (hlo : s.nextFitRegionStartPtr ≤ a) :
    ∃ b ∈ bs, b.free = false ∧ a = b.addr + headerSize := by
  obtain ⟨q, hq, rfl⟩ := List.mem_map.mp ha
  obtain ⟨b, hb, huse, hqb⟩ := h.block q hq hlo
  exact ⟨b, hb, by simp [Block.free, huse], hqb⟩

namespace Client.Shared

section
variable (h : c.Shared sizeOfRegion slabSize start bs L)
include h

theorem memAlloc_negative (hneg : size < 0) (hr : Mem.nextFitAlloc c.state size = some (s', p))
    (hunit : s'.slabUnitSize = c.state.slabUnitSize) : Mem.memAlloc c.state size = some (s', p) := by
  refine memAlloc_eq h.shares.layout.initialized ?_ hr hunit
  have := h.slabSize_pos
  rw [h.shares.layout.slabUnitSize]
  omega

/-- A size that rounds like `n` is served like a request for `n` bytes. -/
theorem harmless_of_rounds (hreq : Request sizeOfRegion start) (h1 : slabSize < 2 ^ 31)
    {n : Int} (h0 : 0 ≤ n) (hn : n < 2 ^ 31) (hneg : size < 0)
    (hround : fitToAlignSize size = fitToAlignSize n) : Harmless c size := by
  have hsame : Mem.nextFitAlloc c.state size = Mem.nextFitAlloc c.state n := by
    unfold Mem.nextFitAlloc
    rw [hround]
  obtain ⟨s', p, bs', hr, hcase⟩ := h.shares.nextFitAlloc h0 hn
  rw [← hsame] at hr
  have hunit := h.shares.layout.slabUnitSize
  rcases hcase with ⟨rfl, h'⟩ | ⟨hp, -, h'⟩
  · refine ⟨s', NULL, h.memAlloc_negative hneg hr (h'.layout.slabUnitSize.trans hunit.symm),
      .inl rfl, bs', h'.heap, fun a ha hlo => ?_⟩
    exact h'.live_block (ha.resolve_right fun hc => hc.2 rfl) hlo
  · obtain ⟨s'', -, -, hfree, -, -⟩ := h'.memFree_live hreq h.slabSize_pos h1 List.mem_cons_self
    refine ⟨s', p, h.memAlloc_negative hneg hr (h'.layout.slabUnitSize.trans hunit.symm),
      .inr ⟨(List.nodup_cons.mp h'.nodup).1, s'', hfree⟩, bs', h'.heap, fun a ha hlo => ?_⟩
    refine h'.live_block ?_ hlo
    rcases ha with ha | ⟨rfl, -⟩
    · exact List.mem_cons_of_mem _ ha
    · exact List.mem_cons_self

theorem harmless_of_none (hneg : size < 0) (hf : ∀ b ∈ bs, ¬Fits b size) : Harmless c size := by
  obtain ⟨p, hp, hr⟩ := h.shares.heap.nextFitAlloc_none hf
  exact ⟨_, NULL, h.memAlloc_negative hneg hr rfl, .inl rfl, bs, h.shares.heap.setCursor hp,
    fun a ha hlo => h.shares.live_block (ha.resolve_right fun hc => hc.2 rfl) hlo⟩

/-- The pointer into the first free block cannot be freed. -/
theorem not_harmless (hneg : size < 0) (hround : fitToAlignSize size = -16)
    (hnull : c.state.freeHead ≠ NULL) : ¬Harmless c size := by
  have hzero : withHeader (-16) = 0 := by decide
  have hfits : ∀ b ∈ bs, Fits b size := fun b _ => by
    rw [Fits, hround, hzero]
    exact Nat.zero_le _
  obtain ⟨b, hb, hfree, hr⟩ := h.shares.heap.nextFitAlloc_first hfits hnull
  obtain ⟨h', -⟩ := h.shares.heap.fromCursor hnull
  obtain ⟨s', hs', hl, hrest⟩ := h'.useChunk_cancelled hb hfree
  obtain ⟨q, hq⟩ := fromCursor_eq c.state
  rw [hq] at hrest
  rw [hround, hs', Option.bind_some] at hr
  have halloc := h.memAlloc_negative hneg hr (by rw [hrest])
  have hlo : s'.nextFitRegionStartPtr ≤ b.addr := by
    have := (h.shares.heap.bounds hb).1
    rwa [hrest]
  have hmem : b.addr ∈ frees bs := Block.mem_frees.mpr ⟨b, hb, hfree, rfl⟩
  rintro ⟨t, p, ht, hp, -⟩
  obtain ⟨rfl, rfl⟩ := Prod.mk.inj (Option.some.inj (halloc.symm.trans ht))
  rcases hp with hp | ⟨-, s'', hs''⟩
  · exact absurd hp (Nat.succ_ne_zero _)
  · rw [hl.memFree_listed hmem hlo] at hs''
    exact absurd (Prod.mk.inj (Option.some.inj hs'')).2 (by decide)

end

end Client.Shared

theorem negative_harmless_iff (hreq : Request sizeOfRegion start) (h1 : slabSize < 2 ^ 31)
    (h : (Client.liveSystem sizeOfRegion slabSize start).Reachable c) (hint : -2 ^ 31 ≤ size)
    (hneg : size < 0) : Harmless c size ↔ c.state.freeHead = NULL ∨ ¬CancelsHeader size := by
  obtain ⟨bs, L, hshared⟩ := Client.reachable_shared hreq h1 h
  have hheap := hshared.shares.heap
  rcases fitToAlignSize_negative hint hneg with ⟨hcan, hround⟩ | ⟨hcan, hround⟩ | ⟨hcan, hlo, hhi⟩
  · refine iff_of_true ?_ (.inr hcan)
    rcases hround with hround | hround
    · exact hshared.harmless_of_rounds hreq h1 (by decide) (by decide) hneg hround
    · exact hshared.harmless_of_rounds hreq h1 (by decide) (by decide) hneg hround
  · by_cases hnull : c.state.freeHead = NULL
    · have hnone : Mem.nextFitAlloc c.state size = some (c.state, NULL) := by
        rw [Mem.nextFitAlloc, if_pos hnull]
      refine iff_of_true ⟨_, _, hshared.memAlloc_negative hneg hnone rfl, .inl rfl, bs, hheap,
        fun a ha => hshared.shares.live_block (ha.resolve_right fun hc => hc.2 rfl)⟩ (.inl hnull)
    · exact iff_of_false (hshared.not_harmless hneg hround hnull) (by simp [hnull, hcan])
  · refine iff_of_true (hshared.harmless_of_none hneg fun b hb hf => ?_) (.inr hcan)
    have hlen := hheap.len_lt hb
    have hwith : withHeader b.len = b.len + 16 := withHeader_ofNat (by omega)
    have hbig := withHeader_negative hlo hhi
    rw [Fits, hwith] at hf
    omega

/-- A region of 64 bytes, right after `Mem_Init`. -/
theorem exists_started_64 : ∃ c, Client.Started 64 1 4096 c := by
  obtain ⟨s, hs⟩ := started_64
  obtain ⟨L, hL, -⟩ := (memInit_spec hs (by decide) request_64 (by decide)).2.slabs
  exact ⟨⟨s, [], L⟩, ⟨State.static, 4096, hs, by decide⟩, rfl, hL.path⟩

theorem negative_harmless_one : ∃ c, Harmless c (-1) := by
  obtain ⟨c, hc⟩ := exists_started_64
  exact ⟨c, (negative_harmless_iff request_64 (by decide) (.init hc) (by decide) (by decide)).mpr
    (.inr (by decide))⟩

/-- The first call asks for -16 bytes. -/
theorem negative_harmful : ¬∀ (sizeOfRegion slabSize : Int) (start : Nat) (c : Client) (size : Int),
    Request sizeOfRegion start → slabSize < 2 ^ 31 →
    (Client.liveSystem sizeOfRegion slabSize start).Reachable c → -2 ^ 31 ≤ size → size < 0 →
    Harmless c size := by
  intro h
  obtain ⟨c, hc⟩ := exists_started_64
  have hshared := Client.started_shared request_64 (by decide) hc
  have hnull : c.state.freeHead ≠ NULL := by
    rw [ne_eq, hshared.shares.heap.chain.freeHead_eq_null]
    simp [wholeBlock, Block.frees_cons, Block.free]
  exact hshared.not_harmless (by decide) (by decide) hnull
    (h 64 1 4096 c (-16) request_64 (by decide) (.init hc) (by decide) (by decide))

end

end PerrOS.Mem
