import PerrOS.Mem.Coalesce
import PerrOS.Mem.Init

/-!
# Shares of the region

At any moment the region is shared out between the owners of allocations, the
stack of free slabs and the blocks of the next-fit heap. `Shares` says how,
and each critical section of the allocator moves one share.
-/

namespace PerrOS.Mem

open Function (update)
open Lib (Memory Path Block)
open Lib.Block (Tiles frees used Coalesced)

/-- The bytes an allocation gets, for a pointer and the size asked for. -/
def extent (s : State) (q : Nat × Int) : Int :=
  if q.1 < s.nextFitRegionStartPtr then s.roundedSlabAllocationSize else fitToAlignSize q.2

/-- The byte at `x` belongs to the allocation `q`. -/
def Covers (s : State) (q : Nat × Int) (x : Nat) : Prop :=
  q.1 ≤ x ∧ (x : Int) < q.1 + extent s q

section
variable (sizeOfRegion slabSize : Int) (start : Nat)

/-- The heap `bs`, the stack `L` and the allocations `owned` share out the
region. -/
structure Shares (s : State) (bs : List (Block Int)) (L : List Nat) (owned : List (Nat × Int)) :
    Prop where
  layout : LaidOut s sizeOfRegion slabSize start
  heap : Heap s bs
  slabs : Slabs s L
  covered : ∀ a, s.Slab a → a ∈ L ∨ a ∈ owned.map Prod.fst
  apart : ∀ a ∈ L, a ∉ owned.map Prod.fst
  slab : ∀ q ∈ owned, q.1 < s.nextFitRegionStartPtr → s.Slab q.1 ∧ q.2 = slabSize
  block : ∀ q ∈ owned, s.nextFitRegionStartPtr ≤ q.1 →
    ∃ b ∈ bs, b.use = some q.2 ∧ q.1 = b.addr + headerSize
  nodup : (owned.map Prod.fst).Nodup

end

section
variable {sizeOfRegion slabSize size : Int} {start p x a : Nat} {s s' : State}
  {bs bs' pre post : List (Block Int)} {b d : Block Int} {L : List Nat}
  {owned owned' : List (Nat × Int)} {q q' : Nat × Int}

-- ---------------------------------------------------------------------------
-- Where an allocation lies
-- ---------------------------------------------------------------------------

theorem Shares.rounded (h : Shares sizeOfRegion slabSize start s bs L owned) :
    s.roundedSlabAllocationSize = fitToAlignSize slabSize := h.layout.rounded

/-- An allocation that is not a slab is the payload of a block in use. -/
theorem Shares.extent_block (h : Shares sizeOfRegion slabSize start s bs L owned) (hb : b ∈ bs)
    (hbu : b.use = some q.2) (hqb : q.1 = b.addr + headerSize) : extent s q = b.len := by
  have hlo := (h.heap.bounds hb).1
  rw [extent, if_neg (by simp only [hqb, headerSize]; omega)]
  exact ((h.heap.fitted b hb).request _ hbu).2.2.symm

/-- Allocations lie in the region and are as long as was asked for. -/
theorem Shares.bounds (h : Shares sizeOfRegion slabSize start s bs L owned)
    (h0 : 1 ≤ slabSize) (h1 : slabSize < 2 ^ 31) (hq : q ∈ owned) :
    s.mapStart ≤ q.1 ∧ q.1 + extent s q ≤ s.mapStart + s.mapLen ∧ q.2 ≤ extent s q := by
  by_cases hlo : q.1 < s.nextFitRegionStartPtr
  · obtain ⟨hs, hsz⟩ := h.slab q hq hlo
    have hreg := h.slabs.region
    have h2 := hs.low
    have h3 := hs.high
    have h4 := hs.unit
    have h5 := hreg.start_eq
    have h6 := hreg.stop_le
    rw [extent, if_pos hlo, hsz]
    refine ⟨by omega, by omega, ?_⟩
    rw [h.rounded] at h4 ⊢
    rcases fitToAlignSize_cases (Int.le_trans (by decide) h0) h1 with ⟨k, hk, -, hle, -, -⟩ | hw
    · omega
    · omega
  · obtain ⟨b, hb, hbu, hqb⟩ := h.block q hq (Nat.not_lt.mp hlo)
    have hbd := h.heap.bounds hb
    have hst := h.heap.region.start_le
    have hsz := (h.heap.size_le hb hbu).2.2
    rw [h.extent_block hb hbu hqb, hqb, headerSize]
    refine ⟨by omega, by omega, hsz⟩

/-- A byte of an allocation is in no header, and in no free slab. -/
theorem Shares.off_metadata (h : Shares sizeOfRegion slabSize start s bs L owned) (hq : q ∈ owned)
    (hx : Covers s q x) :
    (∀ b ∈ bs, x < b.addr ∨ b.addr + 16 ≤ x) ∧
      ∀ a ∈ L, (x : Int) < a ∨ a + s.roundedSlabAllocationSize ≤ x := by
  obtain ⟨hlow, hhigh⟩ := hx
  by_cases hlo : q.1 < s.nextFitRegionStartPtr
  · obtain ⟨hs, -⟩ := h.slab q hq hlo
    have hend := hs.high
    rw [extent, if_pos hlo] at hhigh
    refine ⟨fun b hb => ?_, fun a ha => ?_⟩
    · have := (h.heap.bounds hb).1
      omega
    · rcases hs.apart (h.slabs.slab a ha) with he | hap | hap
      · exact absurd (he ▸ List.mem_map_of_mem hq) (h.apart a ha)
      · omega
      · omega
  · obtain ⟨b, hb, hbu, hqb⟩ := h.block q hq (Nat.not_lt.mp hlo)
    rw [h.extent_block hb hbu hqb] at hhigh
    refine ⟨fun d hd => ?_, fun a ha => ?_⟩
    · rcases h.heap.tiles.apart hb hd with rfl | hap | hap
      · simp only [headerSize] at hqb
        omega
      · simp only [Block.stop, headerSize] at hqb hap
        omega
      · simp only [Block.stop, headerSize] at hqb hap
        omega
    · have := (h.slabs.slab a ha).high
      omega

/-- Two allocations share no byte. -/
theorem Shares.disjoint (h : Shares sizeOfRegion slabSize start s bs L owned) (hq : q ∈ owned)
    (hq' : q' ∈ owned) (hne : q.1 ≠ q'.1) (hx : Covers s q x) : ¬Covers s q' x := by
  rintro ⟨hlow', hhigh'⟩
  obtain ⟨hlow, hhigh⟩ := hx
  by_cases hlo : q.1 < s.nextFitRegionStartPtr
  · have hs := (h.slab q hq hlo).1
    have hend := hs.high
    rw [extent, if_pos hlo] at hhigh
    by_cases hlo' : q'.1 < s.nextFitRegionStartPtr
    · rw [extent, if_pos hlo'] at hhigh'
      rcases hs.apart (h.slab q' hq' hlo').1 with he | hap | hap
      · exact hne he
      · omega
      · omega
    · omega
  · obtain ⟨b, hb, hbu, hqb⟩ := h.block q hq (Nat.not_lt.mp hlo)
    rw [h.extent_block hb hbu hqb] at hhigh
    by_cases hlo' : q'.1 < s.nextFitRegionStartPtr
    · have hend := (h.slab q' hq' hlo').1.high
      rw [extent, if_pos hlo'] at hhigh'
      omega
    · obtain ⟨d, hd, hdu, hqd⟩ := h.block q' hq' (Nat.not_lt.mp hlo')
      rw [h.extent_block hd hdu hqd] at hhigh'
      simp only [headerSize] at hqb hqd
      rcases h.heap.tiles.apart hb hd with rfl | hap | hap
      · exact hne (hqb.trans hqd.symm)
      · simp only [Block.stop, headerSize] at hap
        omega
      · simp only [Block.stop, headerSize] at hap
        omega

-- ---------------------------------------------------------------------------
-- Bytes of an allocation
-- ---------------------------------------------------------------------------

/-- Writing a byte of an allocation leaves the shares alone. -/
theorem Shares.write (h : Shares sizeOfRegion slabSize start s bs L owned) (hq : q ∈ owned)
    (hx : Covers s q x) (v : BitVec 8) :
    Shares sizeOfRegion slabSize start { s with mem := update s.mem x v } bs L owned := by
  obtain ⟨hheader, hslab⟩ := h.off_metadata hq hx
  have hl : SameLayout s { s with mem := update s.mem x v } := ⟨rfl, rfl, rfl, rfl, rfl⟩
  refine ⟨h.layout.of_eq rfl, h.heap.congr (fun b hb y hy hy' => ?_) rfl,
    h.slabs.congr hl rfl fun a ha y hy hy' => ?_, fun a ha => h.covered a (ha.congr hl.symm),
    h.apart, fun q hq hlo => ?_, h.block, h.nodup⟩
  · have := hheader b hb
    exact Function.update_of_ne (by omega) _ _
  · have := hslab a ha
    have := (h.slabs.slab a ha).unit
    exact Function.update_of_ne (by omega) _ _
  · obtain ⟨hs, hsz⟩ := h.slab q hq hlo
    exact ⟨hs.congr hl, hsz⟩

-- ---------------------------------------------------------------------------
-- The slab sections
-- ---------------------------------------------------------------------------

theorem Shares.slabPop (h : Shares sizeOfRegion slabSize start s bs L owned) :
    (Mem.slabPop s = some (s, NULL)) ∨
    ∃ a L' s', Mem.slabPop s = some (s', a) ∧ a ≠ NULL ∧ s'.Slab a ∧
      Shares sizeOfRegion slabSize start s' bs L' ((a, slabSize) :: owned) := by
  rcases h.slabs.slabPop with ⟨-, hs⟩ | ⟨a, L', rfl, s', hs, hL', he⟩
  · exact .inl hs
  · have ha := h.slabs.slab a (by simp)
    have hl : SameLayout s s' := by
      rw [he]
      exact ⟨rfl, rfl, rfl, rfl, rfl⟩
    have hlo : s'.nextFitRegionStartPtr = s.nextFitRegionStartPtr := hl.stop
    have hnd := List.nodup_cons.mp h.slabs.nodup
    refine .inr ⟨a, L', s', hs, ha.ne_null h.slabs.region, ha.congr hl, h.layout.of_eq (by rw [he]),
      h.heap.congr (fun _ _ _ _ _ => by rw [he]) (by rw [he]), hL', fun d hd => ?_,
      fun d hd => ?_, fun q hq hq' => ?_, fun q hq hq' => ?_, ?_⟩
    · rcases h.covered d (hd.congr hl.symm) with hd | hd
      · rcases List.mem_cons.mp hd with rfl | hd
        · exact .inr (by simp)
        · exact .inl hd
      · exact .inr (List.mem_cons_of_mem _ hd)
    · intro hm
      rcases List.mem_cons.mp hm with rfl | hm
      · exact hnd.1 hd
      · exact h.apart d (List.mem_cons_of_mem _ hd) hm
    · rcases List.mem_cons.mp hq with rfl | hq
      · exact ⟨ha.congr hl, rfl⟩
      · obtain ⟨hs, hsz⟩ := h.slab q hq (hlo ▸ hq')
        exact ⟨hs.congr hl, hsz⟩
    · rcases List.mem_cons.mp hq with rfl | hq
      · have := ha.high
        have := ha.unit
        simp only [hlo] at hq'
        omega
      · exact h.block q hq (hlo ▸ hq')
    · exact List.nodup_cons.mpr ⟨h.apart a (by simp), h.nodup⟩

theorem mem_map_filter_ne : a ∈ (owned.filter fun q => decide (q.1 ≠ p)).map Prod.fst ↔
    a ∈ owned.map Prod.fst ∧ a ≠ p := by
  simp only [List.mem_map, List.mem_filter, decide_eq_true_eq]
  constructor
  · rintro ⟨q, ⟨hq, hne⟩, rfl⟩
    exact ⟨⟨q, hq, rfl⟩, hne⟩
  · rintro ⟨⟨q, hq, rfl⟩, hne⟩
    exact ⟨q, ⟨hq, hne⟩, rfl⟩

theorem Shares.slabPush (h : Shares sizeOfRegion slabSize start s bs L owned) (hq : q ∈ owned)
    (hlo : q.1 < s.nextFitRegionStartPtr) :
    ∃ s', Mem.slabPush s q.1 = some s' ∧ Shares sizeOfRegion slabSize start s' bs (q.1 :: L)
      (owned.filter fun r => decide (r.1 ≠ q.1)) := by
  obtain ⟨hslab, hsz⟩ := h.slab q hq hlo
  have hmem : q.1 ∈ owned.map Prod.fst := List.mem_map_of_mem hq
  obtain ⟨s', hs, hL', he⟩ := h.slabs.slabPush hslab fun hm => h.apart _ hm hmem
  have hl : SameLayout s s' := by
    rw [he]
    exact ⟨rfl, rfl, rfl, rfl, rfl⟩
  have hlo' : s'.nextFitRegionStartPtr = s.nextFitRegionStartPtr := hl.stop
  refine ⟨s', hs, h.layout.of_eq (by rw [he]),
    h.heap.congr (fun b hb y hy hy' => ?_) (by rw [he]), hL', fun d hd => ?_, fun d hd => ?_,
    fun r hr hr' => ?_, fun r hr hr' => ?_, ?_⟩
  · have := (h.heap.bounds hb).1
    have := hslab.high
    have := hslab.unit
    rw [he]
    exact setPtr_outside (by omega)
  · rcases h.covered d (hd.congr hl.symm) with hd | hd
    · exact .inl (List.mem_cons_of_mem _ hd)
    · by_cases hdq : d = q.1
      · exact .inl (by simp [hdq])
      · exact .inr (mem_map_filter_ne.mpr ⟨hd, hdq⟩)
  · intro hm
    obtain ⟨hm, hne⟩ := mem_map_filter_ne.mp hm
    rcases List.mem_cons.mp hd with rfl | hd
    · exact hne rfl
    · exact h.apart d hd hm
  · obtain ⟨hs, hsz⟩ := h.slab r (List.mem_filter.mp hr).1 (hlo' ▸ hr')
    exact ⟨hs.congr hl, hsz⟩
  · exact h.block r (List.mem_filter.mp hr).1 (hlo' ▸ hr')
  · exact h.nodup.sublist (List.filter_sublist.map _)

-- ---------------------------------------------------------------------------
-- The next-fit sections
-- ---------------------------------------------------------------------------

/-- Editing headers of the next-fit region leaves the slab share alone. -/
theorem Shares.of_edit (h : Shares sizeOfRegion slabSize start s bs L owned) (he : Edit N s s')
    (hN : ∀ a ∈ N, s.nextFitRegionStartPtr ≤ a) :
    LaidOut s' sizeOfRegion slabSize start ∧ Slabs s' L ∧ SameLayout s s' := by
  have hl : SameLayout s s' := by
    rw [he.rest]
    exact ⟨rfl, rfl, rfl, rfl, rfl⟩
  have htop : s'.topOfSlabStack = s.topOfSlabStack := by rw [he.rest]
  refine ⟨h.layout.of_eq (by rw [he.rest]), h.slabs.congr hl htop fun a ha x hx hx' => ?_, hl⟩
  refine he.bytes x fun n hn => .inl ?_
  have := hN n hn
  have := (h.slabs.slab a ha).high
  have := (h.slabs.slab a ha).unit
  omega

theorem Blocks.frees_low (h : Blocks s bs) (ha : a ∈ frees bs) :
    s.nextFitRegionStartPtr ≤ a := by
  obtain ⟨b, hb, -, rfl⟩ := Block.mem_frees.mp ha
  exact (h.bounds hb).1

theorem Shares.nextFitAlloc (h : Shares sizeOfRegion slabSize start s bs L owned)
    (h0 : 0 ≤ size) (h1 : size < 2 ^ 31) :
    ∃ s' p bs', Mem.nextFitAlloc s size = some (s', p) ∧
      (p = NULL ∧ Shares sizeOfRegion slabSize start s' bs' L owned ∨
        p ≠ NULL ∧ s'.nextFitRegionStartPtr ≤ p ∧
          Shares sizeOfRegion slabSize start s' bs' L ((p, size) :: owned)) := by
  have hr := h.heap.nextFitAlloc h0 h1
  generalize Mem.nextFitAlloc s size = r at hr
  cases hr with
  | @full s' hn hh he =>
    obtain ⟨hlay, hsl, hl⟩ := h.of_edit he (by simp)
    refine ⟨s', NULL, bs, rfl, .inl ⟨rfl, hlay, hh, hsl, fun a ha => h.covered a (ha.congr hl.symm),
      h.apart, fun q hq hlo => ?_, fun q hq hlo => h.block q hq (hl.stop ▸ hlo), h.nodup⟩⟩
    obtain ⟨hs, hsz⟩ := h.slab q hq (hl.stop ▸ hlo)
    exact ⟨hs.congr hl, hsz⟩
  | @carved s' pre post b k hbs hb hf hk hh he =>
    subst hbs
    have hbm : b ∈ pre ++ b :: post := by simp
    have hblo := (h.heap.bounds hbm).1
    obtain ⟨hlay, hsl, hl⟩ := h.of_edit he fun a ha => by
      rcases List.mem_append.mp ha with ha | ha
      · exact h.heap.frees_low ha
      · have hlow : s'.nextFitRegionStartPtr ≤ a := hh.frees_low (by simp [ha])
        have hs : s'.nextFitRegionStartPtr = s.nextFitRegionStartPtr := by rw [he.rest]
        omega
    -- the blocks in use are still there
    have hkeep : ∀ d ∈ pre ++ b :: post, d.free = false →
        d ∈ pre ++ (b.carve headerSize k size ++ post) := fun d hd hdu => by
      rcases List.mem_append.mp hd with hd | hd
      · simp [hd]
      · rcases List.mem_cons.mp hd with rfl | hd
        · simp [hb] at hdu
        · simp [hd]
    have hnew : b.addr + headerSize ∉ owned.map Prod.fst := fun hm => by
      obtain ⟨q, hq, hqb⟩ := List.mem_map.mp hm
      obtain ⟨d, hd, hdu, hqd⟩ := h.block q hq (by simp only [hqb, headerSize]; omega)
      obtain rfl := h.heap.tiles.eq_of_addr (by decide) hd hbm (by omega)
      simp [Block.free, hdu] at hb
    refine ⟨s', _, _, rfl, .inr ⟨by simp [headerSize, NULL], ?_, hlay, hh, hsl, fun a ha => ?_,
      fun a ha hm => ?_, fun q hq hlo => ?_, fun q hq hlo => ?_, List.nodup_cons.mpr ⟨hnew, h.nodup⟩⟩⟩
    · rw [hl.stop, headerSize]
      omega
    · exact (h.covered a (ha.congr hl.symm)).imp_right (List.mem_cons_of_mem _)
    · rcases List.mem_cons.mp hm with rfl | hm
      · have := (h.slabs.slab _ ha).high
        have := (h.slabs.slab _ ha).unit
        omega
      · exact h.apart a ha hm
    · rcases List.mem_cons.mp hq with rfl | hq
      · rw [hl.stop, headerSize] at hlo
        omega
      · obtain ⟨hs, hsz⟩ := h.slab q hq (hl.stop ▸ hlo)
        exact ⟨hs.congr hl, hsz⟩
    · rcases List.mem_cons.mp hq with rfl | hq
      · exact ⟨taken b k size, by simp [Block.carve], rfl, rfl⟩
      · obtain ⟨d, hd, hdu, hqd⟩ := h.block q hq (hl.stop ▸ hlo)
        exact ⟨d, hkeep d hd (by simp [Block.free, hdu]), hdu, hqd⟩

theorem Shares.nextFitFree (h : Shares sizeOfRegion slabSize start s bs L owned) (hq : q ∈ owned)
    (hlo : s.nextFitRegionStartPtr ≤ q.1) :
    ∃ s' bs', Mem.nextFitFree s q.1 = some (s', 0) ∧ Shares sizeOfRegion slabSize start s' bs' L
      (owned.filter fun r => decide (r.1 ≠ q.1)) := by
  obtain ⟨b, hb, hbu, hqb⟩ := h.block q hq hlo
  obtain ⟨pre, post, rfl⟩ := List.append_of_mem hb
  obtain ⟨s', hs', hh, he, -⟩ := h.heap.nextFitFree hbu
  have hbf : b.free = false := by simp [Block.free, hbu]
  have hblo := (h.heap.bounds hb).1
  obtain ⟨hlay, hsl, hl⟩ := h.of_edit he fun a ha => by
    rcases List.mem_append.mp ha with ha | ha
    · exact h.heap.frees_low (by simp [ha])
    · rcases List.mem_cons.mp ha with rfl | ha
      · exact hblo
      · exact h.heap.frees_low (by simp [hbf, ha])
  refine ⟨s', _, hqb ▸ hs', hlay, hh, hsl, fun a ha => ?_, fun a ha hm => ?_, fun r hr hr' => ?_,
    fun r hr hr' => ?_, h.nodup.sublist (List.filter_sublist.map _)⟩
  · refine (h.covered a (ha.congr hl.symm)).imp_right fun hm => ?_
    refine mem_map_filter_ne.mpr ⟨hm, fun hne => ?_⟩
    have := (ha.congr hl.symm).high
    have := (ha.congr hl.symm).unit
    omega
  · exact h.apart a ha (mem_map_filter_ne.mp hm).1
  · obtain ⟨hs, hsz⟩ := h.slab r (List.mem_filter.mp hr).1 (hl.stop ▸ hr')
    exact ⟨hs.congr hl, hsz⟩
  · obtain ⟨hr, hne⟩ := List.mem_filter.mp hr
    obtain ⟨d, hd, hdu, hrd⟩ := h.block r hr (hl.stop ▸ hr')
    have hdb : d ≠ b := fun hd => by
      simp only [hd, ← hqb, decide_eq_true_eq] at hrd hne
      exact hne hrd
    refine ⟨d, ?_, hdu, hrd⟩
    have hdf : d.free = false := by simp [Block.free, hdu]
    have : d ∈ used (Block.release headerSize pre b post) := by
      rw [Block.used_release]
      rcases List.mem_append.mp hd with hd | hd
      · exact List.mem_append_left _ (Block.mem_used.mpr ⟨hd, hdf⟩)
      · exact List.mem_append_right _
          (Block.mem_used.mpr ⟨(List.mem_cons.mp hd).resolve_left hdb, hdf⟩)
    exact (Block.mem_used.mp this).1

end

end PerrOS.Mem
