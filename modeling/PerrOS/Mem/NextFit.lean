import PerrOS.Mem.Heap

/-!
# Allocation

`nextFitAlloc` walks the free list once round from the cursor. It carves the
first block that is long enough, or leaves the heap alone when there is none.
-/

namespace PerrOS.Mem

open Lib (Memory Path Block)
open Lib.Block (Tiles frees used Coalesced)

section
variable {s s' : State} {bs pre post : List (Block Int)} {b c : Block Int} {a k : Nat} {size : Int}

-- ---------------------------------------------------------------------------
-- Sizes
-- ---------------------------------------------------------------------------

theorem withHeader_ofNat (h : k < 2 ^ 31) : withHeader (k : Int) = k + 16 := by
  simp only [withHeader, sizeT, headerSize]
  omega

/-- Rounding up succeeds, or wraps to a length that no block has. -/
theorem fitToAlignSize_cases (h0 : 0 ≤ size) (h1 : size < 2 ^ 31) :
    (∃ k : Nat, fitToAlignSize size = k ∧ k % 16 = 0 ∧ size ≤ k ∧ (k : Int) < size + 16 ∧
      k < 2 ^ 31) ∨ fitToAlignSize size = -2 ^ 31 := by
  have hmod : size.tmod 16 = size % 16 := Int.tmod_eq_emod_of_nonneg h0
  simp only [fitToAlignSize, ALIGN_SIZE, hmod]
  by_cases he : size % 16 = 0
  · refine .inl ⟨size.toNat, ?_, ?_, ?_, ?_, ?_⟩
    · rw [if_neg (by simp [he])]
      omega
    · omega
    · omega
    · omega
    · omega
  · rw [if_pos he]
    by_cases hw : size + (16 - size % 16) < 2 ^ 31
    · refine .inl ⟨(size + (16 - size % 16)).toNat, ?_, ?_, ?_, ?_, ?_⟩
      · rw [int32, Int.bmod]
        split <;> omega
      · omega
      · omega
      · omega
      · omega
    · refine .inr ?_
      rw [int32, Int.bmod]
      split <;> omega

/-- A request fits the block it was given. -/
theorem Blocks.size_le (h : Blocks s bs) (hb : b ∈ bs) (hn : b.use = some n) :
    0 ≤ n ∧ n < 2 ^ 31 ∧ n ≤ b.len := by
  obtain ⟨h0, h1, hl⟩ := (h.fitted b hb).request n hn
  rcases fitToAlignSize_cases h0 h1 with ⟨k, hk, -, hle, -, -⟩ | hw
  · exact ⟨h0, h1, by omega⟩
  · omega

/-- The comparison that `nextFitAlloc` makes before it uses a block. -/
def Fits (b : Block Int) (size : Int) : Prop :=
  withHeader b.len ≥ withHeader (fitToAlignSize size)

instance : Decidable (Fits b size) := inferInstanceAs (Decidable (_ ≥ _))

theorem Fits.carves (h : Fits b size) (h0 : 0 ≤ size) (h1 : size < 2 ^ 31)
    (hb : b.len + 16 < 2 ^ 31) (hba : b.len % 16 = 0) :
    ∃ k : Nat, fitToAlignSize size = k ∧ k % 16 = 0 ∧ (b.len = k ∨ k + 16 ≤ b.len) := by
  rw [Fits, withHeader_ofNat (by omega)] at h
  rcases fitToAlignSize_cases h0 h1 with ⟨k, hk, hka, -, -, hlt⟩ | hw
  · rw [hk, withHeader_ofNat hlt] at h
    exact ⟨k, hk, hka, by omega⟩
  · simp only [hw, withHeader, sizeT, headerSize] at h
    omega

-- ---------------------------------------------------------------------------
-- Using a block
-- ---------------------------------------------------------------------------

/-- What the first half of `useChunk` leaves: `b` has become a block in use
that is `k` bytes long, and the free list is that of the other blocks. -/
structure Taken (s s' : State) (pre : List (Block Int)) (b : Block Int)
    (post : List (Block Int)) (k : Nat) : Prop where
  edit : Edit (frees (pre ++ b :: post)) s s'
  chain : FreeList s' (frees (pre ++ post))
  length : intAt s'.mem b.addr = k
  magic : nextAt s'.mem b.addr = MAGIC
  header : ∀ c ∈ pre ++ post, Header s' c

theorem Blocks.take (h : Blocks s (pre ++ b :: post)) (hb : b.free = true) (hk : k ≤ b.len)
    (p : Nat) :
    ∃ s₁ s₂, removeFreeNode { s with nextPtr := p } b.addr = some s₁ ∧
      s₁.storePtr (b.addr + 8) MAGIC = some s₂ ∧
      ∃ s₃, s₂.storeInt b.addr k = some s₃ ∧ s₃.nextPtr = p ∧ Taken s s₃ pre b post k := by
  have hbm : b ∈ pre ++ b :: post := by simp
  have hmem : ∀ c ∈ pre ++ post, c ∈ pre ++ b :: post := fun c hc => by
    rcases List.mem_append.mp hc with hc | hc <;> simp [hc]
  have hnode := h.node hbm
  have hba := hnode.aligned
  have hfrees : frees (pre ++ b :: post) = frees pre ++ b.addr :: frees post := by
    simp [hb]
  have hchain := hfrees ▸ h.chain.setCursor p
  obtain ⟨s₁, hs₁, hl₁, hr⟩ := removeFreeNode_spec hchain
  have hpn : ∀ a ∈ frees pre, s.Node a := fun a ha => h.chain.node a (by simp [ha])
  have hn₁ : s₁.Node b.addr := hr.node (hnode.of_map rfl rfl)
  have hnotin : b.addr ∉ frees pre ++ frees post := by
    intro hm
    rw [← Block.frees_append] at hm
    obtain ⟨d, hd, -, he⟩ := Block.mem_frees.mp hm
    exact h.addr_ne hd he
  have hn₂ : State.Node { s₁ with mem := setPtr s₁.mem (b.addr + 8) MAGIC } b.addr :=
    hn₁.of_map rfl rfl
  refine ⟨s₁, _, hs₁, hn₁.storeNext MAGIC, _, hn₂.storeInt k, ?_, ?_⟩
  · simp only [hr.nextPtr]
  · refine ⟨⟨?_, fun x hx => ?_⟩, ?_, ?_, ?_, fun c hc => ?_⟩
    · rw [hr.rest]
    · have := hx b.addr (by simp [hb])
      simp only
      rw [setInt_outside (by omega), setPtr_outside (by omega)]
      exact hr.bytes x fun a ha => by
        have := hx a (by simp [ha])
        omega
    · rw [Block.frees_append]
      exact (hl₁.setNext hba hnotin MAGIC).setInt hba k
    · have := h.len_lt hbm
      exact intAt_setInt (by omega) (by omega)
    · rw [nextAt_setInt hba hba]
      exact ptrAt_setPtr (by decide)
    · have hca := h.addr_aligned (hmem c hc)
      have hne := h.addr_ne hc
      refine Header.setInt (Header.setNext ?_ hba hca (fun _ => hne) MAGIC) hba hca hne k
      refine Header.relink (s := { s with nextPtr := p }) ((h.header c (hmem c hc)).of_mem rfl) hr
        (fun a ha => (hpn a ha).of_map rfl rfl) hca fun hu hm => ?_
      exact h.used_not_mem (hmem c hc) hu (by simp [hm])

/-- The block a request of `size` bytes takes. -/
abbrev taken (b : Block Int) (k : Nat) (size : Int) : Block Int := ⟨b.addr, k, some size⟩

/-- What is left of a block that is longer than needed. -/
abbrev leftOver (b : Block Int) (k : Nat) : Block Int :=
  ⟨b.addr + headerSize + k, b.len - k - headerSize, none⟩

theorem carve_exact (hk : b.len = k) : b.carve headerSize k size = [taken b k size] := by
  simp [Block.carve, hk]

theorem carve_split (hk : b.len ≠ k) :
    b.carve headerSize k size = [taken b k size, leftOver b k] := by
  simp [Block.carve, hk]

theorem frees_carve_exact (hk : b.len = k) : frees (b.carve headerSize k size) = [] := by
  simp [carve_exact hk, Block.frees_cons, Block.free]

theorem frees_carve_split (hk : b.len ≠ k) :
    frees (b.carve headerSize k size) = [(leftOver b k).addr] := by
  simp [carve_split hk, Block.frees_cons, Block.free]

theorem Taken.node (ht : Taken s s' pre b post k) (h : Blocks s (pre ++ b :: post))
    (hk : k + 16 ≤ b.len) (hka : k % 16 = 0) : s'.Node (b.addr + headerSize + k) := by
  have hbm : b ∈ pre ++ b :: post := by simp
  have hnode := h.node hbm
  have hbd := h.bounds hbm
  have hadr := h.region.addressable
  have := hnode.aligned
  have := hnode.mapped.1
  refine ht.edit.node ⟨?_, ⟨?_, ?_⟩, ?_⟩
  · simp only [headerSize]
    omega
  · omega
  · simp only [headerSize]
    omega
  · simp only [headerSize]
    omega

theorem Heap.useChunk_exact (h : Heap s (pre ++ b :: post)) (hb : b.free = true) (hk : b.len = k)
    (hka : k % 16 = 0) (hs : 0 ≤ size ∧ size < 2 ^ 31 ∧ fitToAlignSize size = k) :
    ∃ s', useChunk s b.addr k = some s' ∧ Heap s' (pre ++ ([taken b k size] ++ post)) ∧
      Edit (frees (pre ++ b :: post)) s s' ∧ s'.nextPtr = (frees post).headD NULL := by
  have hbm : b ∈ pre ++ b :: post := by simp
  have hlen := h.len_lt hbm
  have hnode := h.node hbm
  obtain ⟨s₁, s₂, hs₁, hs₂, s₃, hs₃, hnext, ht⟩ := h.take hb (Nat.le_of_eq hk.symm)
    (nextAt s.mem b.addr)
  -- the cursor moves to the next free block
  have hcursor : s₃.nextPtr = (frees post).headD NULL := by
    have hp := h.chain.path
    rw [Block.frees_append, Block.frees_cons_free hb] at hp
    rw [hnext]
    exact path_head (Path.split_iff.mp hp).2.2
  refine ⟨s₃, ?_, ⟨⟨h.region.of_edit ht.edit, ?_, fun c hc => ?_, fun c hc => ?_, ?_, ?_⟩, ?_⟩,
    ht.edit, hcursor⟩
  · simp only [useChunk, hnode.loadInt, (h.header b hbm).length, hnode.loadNext, hs₁, hs₂, hs₃,
      withHeader_ofNat (show k < 2 ^ 31 by omega), hk, Option.bind_eq_bind, Option.bind_some,
      if_true, if_neg (Nat.lt_irrefl _)]
  · have hmap : s₃.nextFitRegionStartPtr = s.nextFitRegionStartPtr ∧
        s₃.mapStart + s₃.mapLen = s.mapStart + s.mapLen := by rw [ht.edit.rest]; exact ⟨rfl, rfl⟩
    rw [hmap.1, hmap.2, ← carve_exact hk]
    exact h.tiles.carve (.inl hk)
  · simp only [List.mem_append, List.mem_singleton] at hc
    rcases hc with hc | rfl | hc
    · exact h.fitted c (by simp [hc])
    · exact ⟨hka, fun n hn => by cases hn; exact ⟨hs.1, hs.2.1, hs.2.2.symm⟩⟩
    · exact h.fitted c (by simp [hc])
  · simp only [List.mem_append, List.mem_singleton] at hc
    rcases hc with hc | rfl | hc
    · exact ht.header c (by simp [hc])
    · exact ⟨ht.length, fun _ => ht.magic⟩
    · exact ht.header c (by simp [hc])
  · have := ht.chain
    simpa [Block.frees_cons, Block.free] using this
  · rw [hcursor]
    cases hf : frees post with
    | nil => exact .inl rfl
    | cons x L => exact .inr (by simp [Block.frees_cons, Block.free, hf])
  · rw [← carve_exact hk]
    exact h.coalesced.carve hb

/-- The left-over lies between the blocks before and after. -/
theorem Blocks.leftOver_between (h : Blocks s (pre ++ b :: post)) (hk : k + 16 ≤ b.len) :
    (∀ c ∈ pre, c.addr < (leftOver b k).addr) ∧ ∀ c ∈ post, (leftOver b k).addr < c.addr := by
  refine ⟨fun c hc => ?_, fun c hc => ?_⟩
  · have := h.tiles.before hc
    simp only [Block.stop, headerSize] at this ⊢
    omega
  · have := h.tiles.after hc
    simp only [Block.stop, headerSize] at this ⊢
    omega

/-- The second half of `useChunk`: the left-over becomes a free block. -/
theorem Taken.addLeftOver (ht : Taken s s' pre b post k) (h : Blocks s (pre ++ b :: post))
    (hk : k + 16 ≤ b.len) (hka : k % 16 = 0) :
    ∃ s₁ s₂, s'.storeInt (leftOver b k).addr (leftOver b k).len = some s₁ ∧
      addFreeNode s₁ (leftOver b k).addr = some s₂ ∧
      Edit (frees (pre ++ b :: post) ++ [(leftOver b k).addr]) s s₂ ∧
      FreeList s₂ (frees (pre ++ (leftOver b k) :: post)) ∧
      ∀ c ∈ pre ++ (taken b k size :: leftOver b k :: post), Header s₂ c := by
  have hbm : b ∈ pre ++ b :: post := by simp
  have hba := h.addr_aligned hbm
  have hlen := h.len_lt hbm
  have hl := ht.node h hk hka
  have hla := hl.aligned
  obtain ⟨hbefore, hafter⟩ := h.leftOver_between hk
  obtain ⟨s₁, hs₁, hm₁⟩ : ∃ s₁, s'.storeInt (leftOver b k).addr (leftOver b k).len = some s₁ ∧
      s₁ = { s' with mem := setInt s'.mem (leftOver b k).addr (leftOver b k).len } :=
    ⟨_, hl.storeInt _, rfl⟩
  have hnode₁ : ∀ a, s'.Node a → s₁.Node a := fun a ha => by
    rw [hm₁]
    exact ha.of_map rfl rfl
  have hchain : FreeList s₁ (frees pre ++ frees post) := by
    rw [hm₁, ← Block.frees_append]
    exact ht.chain.setInt hla _
  obtain ⟨s₂, hs₂, hl₂, hr⟩ := addFreeNode_spec hchain (hnode₁ _ hl)
    (by simp only [headerSize]; omega)
    (fun x hx => by
      obtain ⟨c, hc, -, rfl⟩ := Block.mem_frees.mp hx
      exact hbefore c hc)
    (fun x hx => by
      obtain ⟨c, hc, -, rfl⟩ := Block.mem_frees.mp hx
      exact hafter c hc)
  have hrn : ∀ a ∈ frees pre ++ [(leftOver b k).addr], s₁.Node a := fun a ha => by
    rcases List.mem_append.mp ha with ha | ha
    · exact hchain.node a (by simp [ha])
    · exact List.mem_singleton.mp ha ▸ hnode₁ _ hl
  have hmem : ∀ c ∈ pre ++ post, c ∈ pre ++ b :: post := fun c hc => by
    rcases List.mem_append.mp hc with hc | hc <;> simp [hc]
  have hother : ∀ c ∈ pre ++ post, Header s₂ c := fun c hc => by
    have hca := h.addr_aligned (hmem c hc)
    have hne : c.addr ≠ (leftOver b k).addr := by
      rcases List.mem_append.mp hc with hc | hc
      · exact Nat.ne_of_lt (hbefore c hc)
      · exact Nat.ne_of_gt (hafter c hc)
    have h₁ : Header s₁ c := hm₁ ▸ (ht.header c hc).setInt hla hca hne _
    refine h₁.relink hr hrn hca fun hu hm => ?_
    rcases List.mem_append.mp hm with hm | hm
    · exact h.used_not_mem (hmem c hc) hu (by simp [hm])
    · exact hne (List.mem_singleton.mp hm)
  refine ⟨s₁, s₂, hs₁, hs₂, ⟨?_, fun x hx => ?_⟩, ?_, fun c hc => ?_⟩
  · rw [hr.rest, hm₁, ht.edit.rest]
  · rw [hr.bytes x fun a ha => ?_, hm₁]
    · have := hx (leftOver b k).addr (by simp)
      exact (setInt_outside (by omega)).trans (ht.edit.bytes x fun a ha =>
        hx a (List.mem_append_left _ ha))
    · have := hx a (by
        rcases List.mem_append.mp ha with ha | ha
        · simp [ha]
        · simp [List.mem_singleton.mp ha])
      omega
  · simpa [Block.frees_cons, Block.free] using hl₂
  · simp only [List.mem_append, List.mem_cons] at hc
    rcases hc with hc | rfl | rfl | hc
    · exact hother c (by simp [hc])
    · -- the taken block keeps what `useChunk` wrote
      have htk : Header s' (taken b k size) := ⟨ht.length, fun _ => ht.magic⟩
      have hne : b.addr ≠ (leftOver b k).addr := by simp only [headerSize]; omega
      have h₁ : Header s₁ (taken b k size) := hm₁ ▸ htk.setInt hla hba hne _
      refine h₁.relink hr hrn hba fun _ hm => ?_
      rcases List.mem_append.mp hm with hm | hm
      · obtain ⟨d, hd, -, he⟩ := Block.mem_frees.mp hm
        exact h.addr_ne (List.mem_append_left _ hd) he
      · exact hne (List.mem_singleton.mp hm)
    · refine ⟨(hr.intAt hrn hla).trans ?_, fun hu => by simp [Block.free] at hu⟩
      rw [hm₁]
      exact intAt_setInt (by omega) (by simp only [headerSize]; omega)
    · exact hother c (by simp [hc])

theorem Heap.useChunk_split (h : Heap s (pre ++ b :: post)) (hb : b.free = true)
    (hk : k + 16 ≤ b.len) (hka : k % 16 = 0) (hs : 0 ≤ size ∧ size < 2 ^ 31 ∧ fitToAlignSize size = k) :
    ∃ s', useChunk s b.addr k = some s' ∧
      Heap s' (pre ++ ([taken b k size, leftOver b k] ++ post)) ∧
      Edit (frees (pre ++ b :: post) ++ [(leftOver b k).addr]) s s' ∧
      s'.nextPtr = (leftOver b k).addr := by
  have hbm : b ∈ pre ++ b :: post := by simp
  have hlen := h.len_lt hbm
  have hnode := h.node hbm
  have hba := (h.fitted b hbm).aligned
  have hne : b.len ≠ k := by omega
  obtain ⟨s₁, s₂, hs₁, hs₂, s₃, hs₃, -, ht⟩ := h.take hb (show k ≤ b.len by omega) s.nextPtr
  obtain ⟨s₄, s₅, hs₄, hs₅, he, hl, hh⟩ := ht.addLeftOver h.toBlocks hk hka
  have hadd : ptrAdd b.addr (k + headerSize) = (leftOver b k).addr := by
    have := (ht.node h.toBlocks hk hka).addressable
    simp only [ptrAdd, sizeT, headerSize] at this ⊢
    omega
  have hrest : (b.len : Int) - k - headerSize = ((leftOver b k).len : Nat) := by
    simp only [headerSize]
    omega
  have he' : Edit (frees (pre ++ b :: post) ++ [(leftOver b k).addr]) s
      { s₅ with nextPtr := (leftOver b k).addr } := by
    refine ⟨?_, he.bytes⟩
    rw [he.rest]
  refine ⟨_, ?_, ⟨⟨h.region.of_edit he', ?_, fun c hc => ?_, fun c hc => ?_, ?_, ?_⟩, ?_⟩, he',
    rfl⟩
  · simp only [useChunk, hnode.loadInt, (h.header b hbm).length, Option.bind_eq_bind,
      Option.bind_some, withHeader_ofNat (show b.len < 2 ^ 31 by omega),
      withHeader_ofNat (show k < 2 ^ 31 by omega), if_neg (show ¬b.len + 16 = k + 16 by omega),
      hs₁, hs₂, hs₃, if_pos (show b.len + 16 > k + 16 by omega), hadd, hrest, hs₄, hs₅]
  · have hmap : s₅.nextFitRegionStartPtr = s.nextFitRegionStartPtr ∧
        s₅.mapStart + s₅.mapLen = s.mapStart + s.mapLen := by rw [he.rest]; exact ⟨rfl, rfl⟩
    simp only
    rw [hmap.1, hmap.2, ← carve_split hne]
    exact h.tiles.carve (.inr hk)
  · simp only [List.mem_append, List.mem_cons, List.not_mem_nil, or_false] at hc
    rcases hc with hc | (rfl | rfl) | hc
    · exact h.fitted c (by simp [hc])
    · exact ⟨hka, fun n hn => by cases hn; exact ⟨hs.1, hs.2.1, hs.2.2.symm⟩⟩
    · refine ⟨?_, fun n hn => by cases hn⟩
      simp only [headerSize]
      omega
    · exact h.fitted c (by simp [hc])
  · exact (hh c hc).of_mem rfl
  · have hf : frees (pre ++ ([taken b k size, leftOver b k] ++ post)) =
        frees (pre ++ leftOver b k :: post) := by simp [Block.frees_cons, Block.free]
    exact hf ▸ hl.setCursor _
  · exact .inr (by simp [Block.frees_cons, Block.free])
  · rw [← carve_split hne]
    exact h.coalesced.carve hb

/-- What using the block `b` leaves, when `k` bytes of it are taken. -/
structure Carved (s s' : State) (pre : List (Block Int)) (b : Block Int) (post : List (Block Int))
    (k : Nat) (size : Int) : Prop where
  fit : fitToAlignSize size = k
  heap : Heap s' (pre ++ (b.carve headerSize k size ++ post))
  edit : Edit (frees (pre ++ b :: post) ++ frees (b.carve headerSize k size)) s s'
  cursor : s'.nextPtr = if b.len = k then (frees post).headD NULL else (leftOver b k).addr

/-- `useChunk` carves a free block that is long enough. -/
theorem Heap.useChunk (h : Heap s (pre ++ b :: post)) (hb : b.free = true) (hf : Fits b size)
    (h0 : 0 ≤ size) (h1 : size < 2 ^ 31) :
    ∃ (k : Nat) (s' : State), Mem.useChunk s b.addr (fitToAlignSize size) = some s' ∧
      Carved s s' pre b post k size := by
  have hbm : b ∈ pre ++ b :: post := by simp
  obtain ⟨k, hk, hka, hle⟩ := hf.carves h0 h1 (h.len_lt hbm) (h.fitted b hbm).aligned
  refine ⟨k, ?_⟩
  by_cases he : b.len = k
  · obtain ⟨s', hs', hh, hed, hcur⟩ := h.useChunk_exact hb he hka ⟨h0, h1, hk⟩
    refine ⟨s', hk ▸ hs', hk, ?_, ?_, ?_⟩
    · rwa [carve_exact he]
    · rwa [frees_carve_exact he, List.append_nil]
    · rwa [if_pos he]
  · obtain ⟨s', hs', hh, hed, hcur⟩ := h.useChunk_split hb (hle.resolve_left he) hka ⟨h0, h1, hk⟩
    refine ⟨s', hk ▸ hs', hk, ?_, ?_, ?_⟩
    · rwa [carve_split he]
    · rwa [frees_carve_split he]
    · rwa [if_neg he]

-- ---------------------------------------------------------------------------
-- The walk
-- ---------------------------------------------------------------------------

/-- The free blocks in address order, from the cursor on and then up to it. -/
def searchOrder (nextPtr : Nat) (bs : List (Block Int)) : List (Block Int) :=
  (bs.filter Block.free).filter (nextPtr ≤ ·.addr) ++ (bs.filter Block.free).filter (·.addr < nextPtr)

theorem mem_searchOrder : b ∈ searchOrder a bs ↔ b ∈ bs ∧ b.free = true := by
  simp only [searchOrder, List.mem_append, List.mem_filter, decide_eq_true_eq]
  constructor
  · rintro (⟨h, -⟩ | ⟨h, -⟩) <;> exact h
  · intro h
    exact (Nat.lt_or_ge b.addr a).symm.imp (⟨h, ·⟩) (⟨h, ·⟩)

/-- At or below the lowest free block the search goes through the list once. -/
theorem searchOrder_low (h : ∀ b ∈ bs, b.free = true → a ≤ b.addr) :
    searchOrder a bs = bs.filter Block.free := by
  have hall : ∀ b ∈ bs.filter Block.free, a ≤ b.addr := fun b hb =>
    h b (List.mem_filter.mp hb).1 (List.mem_filter.mp hb).2
  have hfrom : (bs.filter Block.free).filter (a ≤ ·.addr) = bs.filter Block.free :=
    List.filter_eq_self.mpr fun b hb => decide_eq_true (hall b hb)
  have hupto : (bs.filter Block.free).filter (·.addr < a) = [] :=
    List.filter_eq_nil_iff.mpr fun b hb =>
      not_iff_not.mpr decide_eq_true_iff |>.mpr (Nat.not_lt.mpr (hall b hb))
  rw [searchOrder, hfrom, hupto, List.append_nil]

/-- With an empty free list there is nothing to search. -/
theorem Blocks.searchOrder_nil (h : Blocks s bs) (hnull : s.freeHead = NULL) :
    searchOrder a bs = [] := by
  refine List.eq_nil_iff_forall_not_mem.mpr fun b hb => ?_
  obtain ⟨hbm, hb⟩ := mem_searchOrder.mp hb
  have := Block.mem_frees.mpr ⟨b, hbm, hb, rfl⟩
  simp [h.chain.freeHead_eq_null.mp hnull] at this

/-- The search from a cursor on the list goes round to it. -/
theorem Blocks.searchOrder_cons (h : Blocks s bs) (hc : s.nextPtr ∈ frees bs) :
    ∃ b O, Mem.searchOrder s.nextPtr bs = b :: O ∧ b.addr = s.nextPtr ∧
      Path (Path.wrap s.freeHead (nextAt s.mem)) b.addr ((b :: O).map Block.addr) s.nextPtr ∧
      s.nextPtr ∉ O.map Block.addr ∧ O.length < s.turns := by
  obtain ⟨b, hb, hbc⟩ := List.mem_map.mp hc
  obtain ⟨A, B, hAB⟩ := List.append_of_mem hb
  have hfrees : frees bs = A.map Block.addr ++ b.addr :: B.map Block.addr := by
    rw [frees, hAB, List.map_append, List.map_cons]
  have hlen := h.chain.length_lt
  have hpath := h.chain.path
  obtain ⟨-, hbB, hA⟩ := List.pairwise_append.mp (hfrees ▸ h.chain.sorted)
  have hB := (List.pairwise_cons.mp hbB).1
  have hbelow : ∀ d ∈ A, d.addr < b.addr := fun d hd =>
    hA _ (List.mem_map_of_mem hd) _ List.mem_cons_self
  have habove : ∀ d ∈ B, b.addr < d.addr := fun d hd => hB _ (List.mem_map_of_mem hd)
  rw [hfrees] at hlen hpath
  rw [← hbc]
  refine ⟨b, B ++ A, ?_, rfl, ?_, fun hm => ?_, ?_⟩
  · rw [Mem.searchOrder, hAB, List.filter_append, List.filter_append,
      List.filter_eq_nil_iff.mpr fun d hd => by simpa using hbelow d hd,
      List.filter_cons_of_pos (by simp),
      List.filter_eq_self.mpr fun d hd => by simpa using Nat.le_of_lt (habove d hd),
      List.filter_eq_self.mpr fun d hd => by simpa using hbelow d hd,
      List.filter_cons_of_neg (by simp),
      List.filter_eq_nil_iff.mpr fun d hd => by simpa using Nat.le_of_lt (habove d hd)]
    simp
  · rw [List.map_cons, List.map_append]
    exact hpath.rotate
  · obtain ⟨d, hd, hdb⟩ := List.mem_map.mp hm
    rcases List.mem_append.mp hd with hd | hd
    · exact Nat.ne_of_gt (habove d hd) hdb
    · exact Nat.ne_of_lt (hbelow d hd) hdb
  · simp only [List.length_append, List.length_cons, List.length_map] at hlen ⊢
    omega

/-- One turn of the walk, at a block. -/
theorem Blocks.allocLoop_step (h : Blocks s bs) (hb : b ∈ bs) :
    Mem.allocLoop (turns + 1) s b.addr (fitToAlignSize size) =
      if Fits b size then
        (Mem.useChunk s b.addr (fitToAlignSize size)).bind fun s => some (s, b.addr + headerSize)
      else
        if Path.wrap s.freeHead (nextAt s.mem) b.addr ≠ s.nextPtr then
          Mem.allocLoop turns s (Path.wrap s.freeHead (nextAt s.mem) b.addr) (fitToAlignSize size)
        else some (s, NULL) := by
  have hnode := h.node hb
  simp only [Mem.allocLoop, hnode.loadInt, (h.header b hb).length, hnode.loadNext,
    Option.bind_eq_bind, Option.bind_some, Path.wrap, NULL]
  rfl

/-- The walk uses the first block that fits. -/
theorem Blocks.allocLoop (h : Blocks s bs)
    (hp : Path (Path.wrap s.freeHead (nextAt s.mem)) b.addr ((b :: O).map Block.addr) s.nextPtr)
    (hO : ∀ d ∈ b :: O, d ∈ bs) (hc : s.nextPtr ∉ O.map Block.addr) (ht : O.length < turns) :
    Mem.allocLoop turns s b.addr (fitToAlignSize size) =
      match (b :: O).find? (Fits · size) with
      | some d =>
        (Mem.useChunk s d.addr (fitToAlignSize size)).bind fun s => some (s, d.addr + headerSize)
      | none => some (s, NULL) := by
  induction O generalizing b turns with
  | nil =>
    obtain _ | turns := turns
    · omega
    have hround : Path.wrap s.freeHead (nextAt s.mem) b.addr = s.nextPtr := hp.2.2
    rw [h.allocLoop_step (hO b List.mem_cons_self)]
    by_cases hf : Fits b size
    · rw [if_pos hf, List.find?_cons_of_pos (by simpa using hf)]
    · rw [if_neg hf, if_neg (not_not_intro hround), List.find?_cons_of_neg (by simpa using hf),
        List.find?_nil]
  | cons d O ih =>
    obtain _ | turns := turns
    · omega
    have hd : Path.wrap s.freeHead (nextAt s.mem) b.addr = d.addr := hp.2.2.1
    have hdc : d.addr ≠ s.nextPtr := fun he => hc (by simp [he])
    rw [h.allocLoop_step (hO b List.mem_cons_self), hd, if_pos hdc]
    by_cases hf : Fits b size
    · rw [if_pos hf, List.find?_cons_of_pos (by simpa using hf)]
    · rw [if_neg hf, List.find?_cons_of_neg (by simpa using hf)]
      have hp' := hp.2.2
      rw [hd] at hp'
      exact ih hp' (fun e he => hO e (List.mem_cons_of_mem _ he))
        (fun hm => hc (List.mem_cons_of_mem _ hm)) (by simpa using ht)

theorem Heap.setCursor (h : Heap s bs) (hp : p = NULL ∨ p ∈ frees bs) :
    Heap { s with nextPtr := p } bs :=
  ⟨⟨⟨h.region.start_pos, h.region.start_le, h.region.aligned, h.region.addressable,
    h.region.int_size⟩, h.tiles, h.fitted, fun b hb => (h.header b hb).of_mem rfl,
    h.chain.setCursor p, hp⟩, h.coalesced⟩

/-- What `nextFitAlloc` does with the first block of its search that fits. -/
def Searched (s : State) (bs : List (Block Int)) (size : Int) (r : Option (State × Nat)) : Prop :=
  match (searchOrder s.nextPtr bs).find? (Fits · size) with
  | some b => ∃ pre post k s', bs = pre ++ b :: post ∧ r = some (s', b.addr + headerSize) ∧
      Carved s s' pre b post k size
  | none => ∃ p, (p = NULL ∨ p ∈ frees bs) ∧ r = some ({ s with nextPtr := p }, NULL)

/-- `nextFitAlloc` from a cursor on the list. -/
theorem Heap.allocFrom (h : Heap s bs) (hc : s.nextPtr ∈ frees bs) (h0 : 0 ≤ size)
    (h1 : size < 2 ^ 31) :
    Searched s bs size (Mem.allocLoop s.turns s s.nextPtr (fitToAlignSize size)) := by
  obtain ⟨b, O, hO, hbc, hpath, hnot, hlt⟩ := h.searchOrder_cons hc
  have hmem : ∀ d ∈ b :: O, d ∈ bs ∧ d.free = true := fun d hd => mem_searchOrder.mp (hO ▸ hd)
  rw [← hbc, h.allocLoop hpath (fun d hd => (hmem d hd).1) hnot hlt, Searched, hO]
  cases hf : (b :: O).find? (Fits · size) with
  | none => exact ⟨s.nextPtr, h.cursor, rfl⟩
  | some d =>
    obtain ⟨hdm, hd⟩ := hmem d (List.mem_of_find?_eq_some hf)
    obtain ⟨pre, post, rfl⟩ := List.append_of_mem hdm
    obtain ⟨k, s', hs', hcarved⟩ := h.useChunk hd (by simpa using List.find?_some hf) h0 h1
    exact ⟨pre, post, k, s', rfl, by simp only [hs', Option.bind_some], hcarved⟩

/-- The loop starts over at the head of the list when the cursor is null. -/
def State.fromCursor (s : State) : State :=
  if s.nextPtr = NULL then { s with nextPtr := s.freeHead } else s

theorem Heap.fromCursor (h : Heap s bs) (hnull : s.freeHead ≠ NULL) :
    Heap s.fromCursor bs ∧ s.fromCursor.nextPtr ∈ frees bs ∧
      Mem.searchOrder s.fromCursor.nextPtr bs = Mem.searchOrder s.nextPtr bs := by
  by_cases hcur : s.nextPtr = NULL
  · obtain ⟨L, hL⟩ : ∃ L, frees bs = s.freeHead :: L := by
      have := path_head h.chain.path
      cases hf : frees bs with
      | nil => exact absurd (h.chain.freeHead_eq_null.mpr hf) hnull
      | cons a L => exact ⟨L, by simp [this, hf]⟩
    have hhead : s.freeHead ∈ frees bs := hL ▸ List.mem_cons_self
    have hlow : ∀ b ∈ bs, b.free = true → s.freeHead ≤ b.addr := fun b hbm hb => by
      have hbL := Block.mem_frees.mpr ⟨b, hbm, hb, rfl⟩
      have hsorted := h.chain.sorted
      rw [hL] at hbL hsorted
      rcases List.mem_cons.mp hbL with he | hbL
      · exact Nat.le_of_eq he.symm
      · exact Nat.le_of_lt ((List.pairwise_cons.mp hsorted).1 _ hbL)
    rw [State.fromCursor, if_pos hcur]
    refine ⟨h.setCursor (.inr hhead), hhead, ?_⟩
    rw [searchOrder_low hlow, hcur]
    exact (searchOrder_low fun _ _ _ => Nat.zero_le _).symm
  · rw [State.fromCursor, if_neg hcur]
    exact ⟨h, h.cursor.resolve_left hcur, rfl⟩

/-- The cursor is only read as the place to start from. -/
theorem Searched.of_cursor (h : Searched s.fromCursor bs size r)
    (ho : searchOrder s.fromCursor.nextPtr bs = searchOrder s.nextPtr bs) :
    Searched s bs size r := by
  have hs : ∃ p, s.fromCursor = { s with nextPtr := p } := by
    unfold State.fromCursor
    split_ifs
    · exact ⟨_, rfl⟩
    · exact ⟨_, rfl⟩
  obtain ⟨p, hp⟩ := hs
  rw [Searched, ho] at h
  rw [hp] at h
  rw [Searched]
  cases hf : (searchOrder s.nextPtr bs).find? (Fits · size) with
  | none => simpa only [hf] using h
  | some b =>
    simp only [hf] at h ⊢
    obtain ⟨pre, post, k, s', hbs, hr, hc⟩ := h
    refine ⟨pre, post, k, s', hbs, hr, hc.fit, hc.heap, ⟨?_, hc.edit.bytes⟩, hc.cursor⟩
    rw [hc.edit.rest]

/-- `nextFitAlloc` carves the first free block that fits, or finds none. -/
theorem Heap.searched (h : Heap s bs) (h0 : 0 ≤ size) (h1 : size < 2 ^ 31) :
    Searched s bs size (Mem.nextFitAlloc s size) := by
  unfold Mem.nextFitAlloc
  by_cases hnull : s.freeHead = NULL
  · rw [if_pos hnull, Searched, h.searchOrder_nil hnull]
    exact ⟨s.nextPtr, h.cursor, rfl⟩
  · rw [if_neg hnull]
    obtain ⟨h', hc, ho⟩ := h.fromCursor hnull
    exact (h'.allocFrom hc h0 h1).of_cursor ho

/-- What an allocation comes to. -/
inductive AllocResult (s : State) (bs : List (Block Int)) (size : Int) :
    Option (State × Nat) → Prop
  | carved {s' : State} {pre post : List (Block Int)} {b : Block Int} (k : Nat) :
      bs = pre ++ b :: post → b.free = true → Fits b size → fitToAlignSize size = k →
      Heap s' (pre ++ (b.carve headerSize k size ++ post)) →
      Edit (frees bs ++ frees (b.carve headerSize k size)) s s' →
      AllocResult s bs size (some (s', b.addr + headerSize))
  | full {s' : State} : (∀ b ∈ bs, b.free = true → ¬Fits b size) → Heap s' bs → Edit [] s s' →
      AllocResult s bs size (some (s', NULL))

/-- `nextFitAlloc` carves a free block, or finds none that fits. -/
theorem Heap.nextFitAlloc (h : Heap s bs) (h0 : 0 ≤ size) (h1 : size < 2 ^ 31) :
    AllocResult s bs size (Mem.nextFitAlloc s size) := by
  have hs := h.searched h0 h1
  rw [Searched] at hs
  cases hf : (searchOrder s.nextPtr bs).find? (Fits · size) with
  | none =>
    simp only [hf] at hs
    obtain ⟨p, hp, hr⟩ := hs
    rw [hr]
    refine .full (fun b hbm hb => ?_) (h.setCursor hp) ⟨rfl, fun _ _ => rfl⟩
    simpa using List.find?_eq_none.mp hf b (mem_searchOrder.mpr ⟨hbm, hb⟩)
  | some b =>
    simp only [hf] at hs
    obtain ⟨pre, post, k, s', rfl, hr, hc⟩ := hs
    rw [hr]
    exact .carved k rfl (mem_searchOrder.mp (List.mem_of_find?_eq_some hf)).2
      (by simpa using List.find?_some hf) hc.fit hc.heap hc.edit

end

end PerrOS.Mem
