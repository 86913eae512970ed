import Mathlib.Data.List.Nodup
import PerrOS.Mem.Threads

/-!
# Ownership under threads

Every interleaving of the atomic pieces keeps the region shared out. Each
allocation belongs to one owner; the bytes that a thread zeroes lie in the
allocation its own call has made.
-/

namespace PerrOS.Mem

open Function (update)
open Lib (Memory Path Block System)
open Lib.Block (Tiles frees used Coalesced)

section
variable {Thread : Type} {m m' : Threads Thread} {t t' : Thread}
  {sizeOfRegion slabSize : Int} {start ptr : Nat} {s s' : State} {pc : Pc} {size : Int}
  {bs bs' : List (Block Int)} {L L' : List Nat} {owned owned' : List (Allocation Thread)} {e e' : Allocation Thread}

/-- The pointer and the size of an allocation. -/
def Allocation.span (e : Allocation Thread) : Nat × Int := (e.ptr, e.size)

/-- The thread `t` is in a call that works on the allocation `e`. -/
def InCall (owned : List (Allocation Thread)) (t : Thread) (e : Allocation Thread) : Prop :=
  e ∈ owned ∧ e.call = some t

/-- What holds of a thread where it stands. -/
def PcOk (slabSize : Int) (s : State) (owned : List (Allocation Thread)) (t : Thread) :
    Pc → Prop
  | .idle => True
  | .slabAlloc size => size = slabSize
  | .nextFitAlloc size => 0 ≤ size ∧ size < 2 ^ 31
  | .zero itr stop ret =>
    ∃ e, InCall owned t e ∧ e.ptr = ret ∧ ret ≤ itr ∧ (stop : Int) ≤ ret + extent s e.span
  | .slabFree ptr => ∃ e, InCall owned t e ∧ e.ptr = ptr ∧ ptr < s.nextFitRegionStartPtr
  | .nextFitFree ptr => ∃ e, InCall owned t e ∧ e.ptr = ptr ∧ s.nextFitRegionStartPtr ≤ ptr

/-- The region is shared out and every thread is where it should be. -/
structure Inv (sizeOfRegion slabSize : Int) (start : Nat) (m : Threads Thread)
    (bs : List (Block Int)) (L : List Nat) : Prop where
  shares : Shares sizeOfRegion slabSize start m.state bs L (m.owned.map Allocation.span)
  pcs : ∀ t, PcOk slabSize m.state m.owned t (m.pc t)

-- ---------------------------------------------------------------------------
-- Frames
-- ---------------------------------------------------------------------------

theorem map_fst_span : (owned.map Allocation.span).map Prod.fst = owned.map Allocation.ptr := by
  rw [List.map_map]
  rfl

/-- The pointer tells allocations apart. -/
theorem Inv.eq_of_ptr (h : Inv sizeOfRegion slabSize start m bs L) (he : e ∈ m.owned)
    (he' : e' ∈ m.owned) (hp : e.ptr = e'.ptr) : e = e' := by
  have hnd := h.shares.nodup
  rw [map_fst_span] at hnd
  exact List.inj_on_of_nodup_map hnd he he' hp

theorem LaidOut.sameExtent (h : LaidOut s sizeOfRegion slabSize start)
    (h' : LaidOut s' sizeOfRegion slabSize start) :
    s'.nextFitRegionStartPtr = s.nextFitRegionStartPtr ∧ ∀ q, extent s' q = extent s q := by
  have hlo : s'.nextFitRegionStartPtr = s.nextFitRegionStartPtr := by
    have := h.nextFitRegionStartPtr
    have := h'.nextFitRegionStartPtr
    omega
  refine ⟨hlo, fun q => ?_⟩
  rw [extent, extent, hlo, h.rounded, h'.rounded]

/-- A thread is not affected by what leaves its own allocation alone. -/
theorem PcOk.frame (h : PcOk slabSize s owned t pc) (hl : LaidOut s sizeOfRegion slabSize start)
    (hl' : LaidOut s' sizeOfRegion slabSize start)
    (hk : ∀ e ∈ owned, e.call = some t → e ∈ owned') : PcOk slabSize s' owned' t pc := by
  obtain ⟨hlo, hext⟩ := hl.sameExtent hl'
  cases pc with
  | idle => trivial
  | slabAlloc size => exact h
  | nextFitAlloc size => exact h
  | zero itr stop ret =>
    obtain ⟨e, ⟨he, hc⟩, hp, h1, h2⟩ := h
    exact ⟨e, ⟨hk e he hc, hc⟩, hp, h1, by rwa [hext]⟩
  | slabFree ptr =>
    obtain ⟨e, ⟨he, hc⟩, hp, h1⟩ := h
    exact ⟨e, ⟨hk e he hc, hc⟩, hp, hlo ▸ h1⟩
  | nextFitFree ptr =>
    obtain ⟨e, ⟨he, hc⟩, hp, h1⟩ := h
    exact ⟨e, ⟨hk e he hc, hc⟩, hp, hlo ▸ h1⟩

theorem map_span_setCall : (setCall ptr c owned).map Allocation.span = owned.map Allocation.span := by
  rw [setCall, List.map_map]
  refine List.map_congr_left fun e _ => ?_
  by_cases hp : e.ptr = ptr
  · simp [hp, Allocation.span]
  · simp [hp]

theorem mem_setCall_of_ne (he : e ∈ owned) (hp : e.ptr ≠ ptr) : e ∈ setCall ptr c owned :=
  List.mem_map.mpr ⟨e, he, if_neg hp⟩

theorem map_span_filter : (owned.filter fun e => decide (e.ptr ≠ ptr)).map Allocation.span =
    (owned.map Allocation.span).filter fun q => decide (q.1 ≠ ptr) := by
  rw [List.filter_map]
  rfl

/-- Other threads' allocations are not the one that `t`'s call works on. -/
theorem Inv.ptr_ne (h : Inv sizeOfRegion slabSize start m bs L) (he : InCall m.owned t e)
    (ht : t' ≠ t) (he' : e' ∈ m.owned) (hc : e'.call = some t') : e'.ptr ≠ e.ptr := by
  intro hp
  obtain rfl := h.eq_of_ptr he' he.1 hp
  exact ht (Option.some.inj (hc.symm.trans he.2))

theorem inCall_setCall (he : e ∈ owned) :
    ∃ e', InCall (setCall e.ptr (some t) owned) t e' ∧ e'.ptr = e.ptr :=
  ⟨{ e with call := some t }, ⟨List.mem_map.mpr ⟨e, he, if_pos rfl⟩, rfl⟩, rfl⟩

/-- The allocation that a free removes belongs to no other thread. -/
theorem Inv.mem_filter (h : Inv sizeOfRegion slabSize start m bs L) (he : InCall m.owned t e)
    (ht : t' ≠ t) (he' : e' ∈ m.owned) (hc : e'.call = some t') :
    e' ∈ m.owned.filter fun d => decide (d.ptr ≠ e.ptr) :=
  List.mem_filter.mpr ⟨he', by simpa using h.ptr_ne he ht he' hc⟩

/-- A byte of an allocation can be stored. -/
theorem Inv.storeByte (h : Inv sizeOfRegion slabSize start m bs L) (h0 : 1 ≤ slabSize)
    (h1 : slabSize < 2 ^ 31) (he : e ∈ m.owned) (hx : Covers m.state e.span x) (v : BitVec 8) :
    Mem.storeByte m.state x v = some { m.state with mem := update m.state.mem x v } ∧
      Shares sizeOfRegion slabSize start { m.state with mem := update m.state.mem x v } bs L
        (m.owned.map Allocation.span) := by
  have hq : e.span ∈ m.owned.map Allocation.span := List.mem_map_of_mem he
  obtain ⟨hlo, hhi, -⟩ := h.shares.bounds h0 h1 hq
  obtain ⟨hx1, hx2⟩ := id hx
  exact ⟨if_pos ⟨by omega, by omega⟩, h.shares.write hq hx v⟩

/-- The first turn of `initToZero` stands at the start of the allocation, and
the loop ends with it. -/
theorem pcOk_initToZero (hs : Shares sizeOfRegion slabSize start s bs L
      ((⟨ptr, slabSize, some t⟩ :: owned : List (Allocation Thread)).map Allocation.span))
    (h0 : 1 ≤ slabSize) (h1 : slabSize < 2 ^ 31) (isNextFit : Bool) :
    PcOk slabSize s (⟨ptr, slabSize, some t⟩ :: owned) t (initToZero s ptr isNextFit) := by
  have hext : extent s (ptr, slabSize) = s.roundedSlabAllocationSize := by
    rw [extent, hs.rounded]
    split_ifs <;> rfl
  obtain ⟨hlo, hhi, hsz⟩ := hs.bounds h0 h1 (List.mem_cons_self (a := (ptr, slabSize)))
  have hadr := hs.slabs.region.addressable
  refine ⟨⟨ptr, slabSize, some t⟩, ⟨List.mem_cons_self, rfl⟩, rfl, ?_, ?_⟩
  · by_cases hn : isNextFit
    · simp [hn]
    · simp [hn]
  · simp only [Allocation.span, hext] at hhi hsz ⊢
    simp only [ptrAdd, sizeT]
    omega

theorem Inv.write (h : Inv sizeOfRegion slabSize start m bs L) (h0 : 1 ≤ slabSize)
    (h1 : slabSize < 2 ^ 31) (he : e ∈ m.owned) (hlo : e.ptr ≤ x)
    (hhi : (x : Int) < e.ptr + e.size) (v : BitVec 8) :
    ∃ s', Mem.storeByte m.state x v = some s' ∧
      Inv sizeOfRegion slabSize start { m with state := s' } bs L := by
  have hsz := (h.shares.bounds h0 h1 (List.mem_map_of_mem he)).2.2
  have hx : Covers m.state e.span x := ⟨hlo, by simp only [Allocation.span] at hsz ⊢; omega⟩
  obtain ⟨hs, hsh⟩ := h.storeByte h0 h1 he hx v
  exact ⟨_, hs, hsh, fun t => (h.pcs t).frame h.shares.layout hsh.layout fun _ he _ => he⟩

theorem init_inv (hr : Request sizeOfRegion start) (h1 : slabSize < 2 ^ 31)
    (h : Threads.Init sizeOfRegion slabSize start m) :
    1 ≤ slabSize ∧ ∃ bs L, Inv sizeOfRegion slabSize start m bs L := by
  obtain ⟨⟨s₀, p, hm, hp⟩, hpc, howned⟩ := h
  obtain ⟨-, hf⟩ := memInit_spec hm hp hr h1
  obtain ⟨L, hL, hall⟩ := hf.slabs
  refine ⟨hf.slabSize_pos, _, L, ⟨hf.toLaidOut, hf.heap, hL, fun a ha => .inl (hall a ha), ?_, ?_, ?_,
    ?_⟩, fun t => ?_⟩
  · simp [howned]
  · simp [howned]
  · simp [howned]
  · simp [howned]
  · rw [hpc]
    trivial

-- ---------------------------------------------------------------------------
-- Ownership
-- ---------------------------------------------------------------------------

/-- The next-fit region of `m` consists of the blocks `bs`, its slab stack of
`L`, and nobody shares a byte. -/
structure Ownership (sizeOfRegion : Int) (start : Nat) (m : Threads Thread) (bs : List (Block Int))
    (L : List Nat) : Prop where
  disjoint : m.owned.Pairwise fun e e' =>
    ∀ x, Covers m.state e.span x → ¬Covers m.state e'.span x
  inside : ∀ e ∈ m.owned,
    start ≤ e.ptr ∧ e.ptr + extent m.state e.span ≤ start + sizeOfRegion
  long : ∀ e ∈ m.owned, e.size ≤ extent m.state e.span
  tiled : Tiles headerSize m.state.nextFitRegionStartPtr bs (start + sizeOfRegion.toNat)
  length : ∀ b ∈ bs, intAt m.state.mem b.addr = b.len
  off_headers : ∀ e ∈ m.owned, ∀ b ∈ bs, ∀ x, Covers m.state e.span x →
    x < b.addr ∨ b.addr + headerSize ≤ x
  stack : Path (ptrAt m.state.mem) m.state.topOfSlabStack L NULL
  stack_nodup : L.Nodup
  stack_slab : ∀ a ∈ L, m.state.Slab a
  free_slab : ∀ a, m.state.Slab a → (a ∈ L ↔ ∀ e ∈ m.owned, e.ptr ≠ a)
  off_slabs : ∀ e ∈ m.owned, ∀ a ∈ L, ∀ x, Covers m.state e.span x →
    (x : Int) < a ∨ a + m.state.roundedSlabAllocationSize ≤ x
  zeroed : ∀ t itr stop ret, m.pc t = .zero itr stop ret → itr < stop →
    ∃ e ∈ m.owned, e.ptr = ret ∧ e.call = some t ∧ Covers m.state e.span itr ∧
      ∀ e' ∈ m.owned, Covers m.state e'.span itr → e' = e

theorem Inv.ownership (h : Inv sizeOfRegion slabSize start m bs L) (h0 : 1 ≤ slabSize)
    (h1 : slabSize < 2 ^ 31) : Ownership sizeOfRegion start m bs L := by
  have hspan : ∀ e ∈ m.owned, e.span ∈ m.owned.map Allocation.span := fun e he =>
    List.mem_map_of_mem he
  have hlen := h.shares.layout.mapLen
  have hstart := h.shares.layout.mapStart
  have honly : ∀ e ∈ m.owned, ∀ e' ∈ m.owned, ∀ x, Covers m.state e.span x →
      Covers m.state e'.span x → e' = e := fun e he e' he' x hx hx' => by
    by_contra hne
    exact h.shares.disjoint (hspan e he) (hspan e' he')
      (fun hp => hne (h.eq_of_ptr he' he hp.symm)) hx hx'
  refine ⟨?_, fun e he => ?_, fun e he => (h.shares.bounds h0 h1 (hspan e he)).2.2, ?_,
    fun b hb => (h.shares.heap.header b hb).length,
    fun e he b hb x hx => (h.shares.off_metadata (hspan e he) hx).1 b hb, h.shares.slabs.path,
    h.shares.slabs.nodup, h.shares.slabs.slab, fun a ha => ⟨fun haL e he hp => ?_, fun hn => ?_⟩,
    fun e he a ha x hx => (h.shares.off_metadata (hspan e he) hx).2 a ha,
    fun t itr stop ret hpc hlt => ?_⟩
  · have hnd := h.shares.nodup
    rw [map_fst_span] at hnd
    refine (List.pairwise_map.mp hnd).imp_of_mem fun he he' hne x hx hx' => ?_
    exact h.shares.disjoint (hspan _ he) (hspan _ he') hne hx hx'
  · have hb := h.shares.bounds h0 h1 (hspan e he)
    simp only [Allocation.span] at hb ⊢
    omega
  · have ht := h.shares.heap.tiles
    rwa [hstart, show m.state.mapLen = sizeOfRegion.toNat by omega] at ht
  · exact h.shares.apart a haL (List.mem_map.mpr ⟨e.span, hspan e he, hp⟩)
  · rcases h.shares.covered a ha with haL | hm
    · exact haL
    · rw [map_fst_span] at hm
      obtain ⟨e, he, hp⟩ := List.mem_map.mp hm
      exact absurd hp (hn e he)
  · have hz := h.pcs t
    rw [hpc] at hz
    obtain ⟨e, he, hp, hlo, hhi⟩ := hz
    have hx : Covers m.state e.span itr := ⟨by simp only [Allocation.span]; omega, by
      simp only [Allocation.span, hp] at hhi ⊢
      omega⟩
    exact ⟨e, he.1, hp, he.2, hx, fun e' he' hx' => honly e he.1 e' he' itr hx hx'⟩

/-- `Mem_Free` refuses no pointer that `Mem_Alloc` gave out. -/
theorem Inv.freeTarget_ne_error (h : Inv sizeOfRegion slabSize start m bs L)
    (hr : Request sizeOfRegion start) (h0 : 1 ≤ slabSize) (h1 : slabSize < 2 ^ 31)
    (he : e ∈ m.owned) : freeTarget m.state e.ptr ≠ .error := by
  have hq : e.span ∈ m.owned.map Allocation.span := List.mem_map_of_mem he
  obtain ⟨hlo, hhi, hsz⟩ := h.shares.bounds h0 h1 hq
  have hreg := h.shares.slabs.region
  have hpos := hreg.start_pos
  have hstart := hreg.start_eq
  have hlen := h.shares.layout.mapLen
  have hadr := hr.addressable
  have hrs := h.shares.layout.regionStartPtr
  have hend : ptrAdd m.state.regionStartPtr m.state.sizeOfRegion = start + sizeOfRegion.toNat := by
    rw [hrs, h.shares.layout.size_eq]
    have := hr.size_pos
    simp only [ptrAdd, sizeT]
    omega
  simp only [Allocation.span] at hlo hhi hsz
  have hin (hn : 0 ≤ e.size) :
      ¬(e.ptr = NULL ∨ e.ptr < m.state.regionStartPtr ∨ e.ptr > start + sizeOfRegion.toNat) := by
    have := h.shares.layout.mapStart
    simp only [NULL]
    omega
  by_cases hlow : e.ptr < m.state.nextFitRegionStartPtr
  · obtain ⟨hs, hn⟩ := h.shares.slab _ hq hlow
    have halign : ¬(e.ptr : Int) % ALIGN_SIZE ≠ 0 := by
      have ha : e.ptr % 16 = 0 := hs.aligned
      simp only [ALIGN_SIZE]
      omega
    have hdist : int32 (m.state.nextFitRegionStartPtr - e.ptr) =
        m.state.nextFitRegionStartPtr - e.ptr := by
      have := h.shares.heap.region.int_size
      have := hreg.stop_le
      rw [int32, Int.bmod]
      split <;> omega
    have hgrid : ¬(int32 (m.state.nextFitRegionStartPtr - e.ptr)).tmod
        m.state.roundedSlabAllocationSize ≠ 0 := by
      rw [hdist]
      exact not_not_intro (Int.tmod_eq_zero_of_dvd hs.grid)
    have hn : e.size = slabSize := hn
    rw [freeTarget, hend, if_neg (by simp [h.shares.layout.initialized]), if_neg (hin (by omega)),
      if_neg halign, if_pos hlow, if_neg hgrid]
    decide
  · obtain ⟨b, hb, hbu, hqb⟩ := h.shares.block _ hq (Nat.not_lt.mp hlow)
    have hn : 0 ≤ e.size := (h.shares.heap.size_le hb hbu).1
    have halign : ¬(e.ptr : Int) % ALIGN_SIZE ≠ 0 := by
      have ha := h.shares.heap.addr_aligned hb
      have hqb : e.ptr = b.addr + 16 := hqb
      simp only [ALIGN_SIZE]
      omega
    rw [freeTarget, hend, if_neg (by simp [h.shares.layout.initialized]), if_neg (hin hn),
      if_neg halign, if_neg hlow]
    decide

-- ---------------------------------------------------------------------------
-- The atomic pieces
-- ---------------------------------------------------------------------------

section
variable [DecidableEq Thread]

/-- A step of `t` that moves one share and keeps what other threads hold. -/
theorem Inv.step (h : Inv sizeOfRegion slabSize start m bs L)
    (hs : Shares sizeOfRegion slabSize start s' bs' L' (owned'.map Allocation.span))
    (hk : ∀ t', t' ≠ t → ∀ e ∈ m.owned, e.call = some t' → e ∈ owned')
    (hpc : PcOk slabSize s' owned' t pc) :
    Inv sizeOfRegion slabSize start ⟨s', update m.pc t pc, owned'⟩ bs' L' := by
  refine ⟨hs, fun t' => ?_⟩
  by_cases ht : t' = t
  · subst ht
    simpa only [Function.update_self] using hpc
  · simpa only [Function.update_of_ne ht] using
      (h.pcs t').frame h.shares.layout hs.layout (hk t' ht)

theorem Inv.memAlloc (h : Inv sizeOfRegion slabSize start m bs L)
    (hs : 0 ≤ size ∧ size < 2 ^ 31) :
    Inv sizeOfRegion slabSize start
      { m with pc := update m.pc t (allocEntry m.state size) } bs L := by
  refine h.step h.shares (fun _ _ _ he _ => he) ?_
  rw [allocEntry]
  split_ifs with h1 h2
  · trivial
  · exact h2.trans h.shares.layout.slabUnitSize
  · exact hs

theorem Inv.slabAlloc (h : Inv sizeOfRegion slabSize start m bs L) (h0 : 1 ≤ slabSize)
    (h1 : slabSize < 2 ^ 31) (hpc : m.pc t = .slabAlloc size) :
    ∃ m', runPiece m t = some m' ∧ ∃ bs' L', Inv sizeOfRegion slabSize start m' bs' L' := by
  have hsz := h.pcs t
  rw [hpc] at hsz
  obtain rfl : size = slabSize := hsz
  rcases h.shares.slabPop with hs | ⟨a, L', s', hs, ha, -, hsh⟩
  · refine ⟨{ m with pc := update m.pc t (.nextFitAlloc size) }, ?_, bs, L,
      h.step h.shares (fun _ _ _ he _ => he) ⟨by omega, h1⟩⟩
    simp only [runPiece, hpc, hs, Option.bind_eq_bind, Option.bind_some, ne_eq, not_true_eq_false,
      if_false]
  · refine ⟨⟨s', update m.pc t (initToZero s' a false), ⟨a, size, some t⟩ :: m.owned⟩, ?_, bs, L',
      h.step hsh (fun _ _ _ he _ => List.mem_cons_of_mem _ he) (pcOk_initToZero hsh h0 h1 false)⟩
    simp only [runPiece, hpc, hs, Option.bind_eq_bind, Option.bind_some, if_pos ha]

theorem Inv.nextFitAlloc (h : Inv sizeOfRegion slabSize start m bs L) (h0 : 1 ≤ slabSize)
    (h1 : slabSize < 2 ^ 31) (hpc : m.pc t = .nextFitAlloc size) :
    ∃ m', runPiece m t = some m' ∧ ∃ bs' L', Inv sizeOfRegion slabSize start m' bs' L' := by
  have hsz := h.pcs t
  rw [hpc] at hsz
  obtain ⟨s', p, bs', hs, ⟨hp, hsh⟩ | ⟨hp, -, hsh⟩⟩ := h.shares.nextFitAlloc hsz.1 hsz.2
  · refine ⟨{ m with state := s', pc := update m.pc t .idle }, ?_, bs', L,
      h.step hsh (fun _ _ _ he _ => he) trivial⟩
    simp only [runPiece, hpc, hs, Option.bind_eq_bind, Option.bind_some, if_pos hp]
  · have hunit := hsh.layout.slabUnitSize
    by_cases hu : size = s'.slabUnitSize
    · obtain rfl : size = slabSize := hu.trans hunit
      refine ⟨⟨s', update m.pc t (initToZero s' p true), ⟨p, size, some t⟩ :: m.owned⟩, ?_, bs', L,
        h.step hsh (fun _ _ _ he _ => List.mem_cons_of_mem _ he) (pcOk_initToZero hsh h0 h1 true)⟩
      simp only [runPiece, hpc, hs, Option.bind_eq_bind, Option.bind_some, if_neg hp, if_pos hu]
    · refine ⟨⟨s', update m.pc t .idle, ⟨p, size, none⟩ :: m.owned⟩, ?_, bs', L,
        h.step hsh (fun _ _ _ he _ => List.mem_cons_of_mem _ he) trivial⟩
      simp only [runPiece, hpc, hs, Option.bind_eq_bind, Option.bind_some, if_neg hp, if_neg hu]

theorem Inv.zero (h : Inv sizeOfRegion slabSize start m bs L) (h0 : 1 ≤ slabSize)
    (h1 : slabSize < 2 ^ 31) (hpc : m.pc t = .zero itr stop ret) :
    ∃ m', runPiece m t = some m' ∧ ∃ bs' L', Inv sizeOfRegion slabSize start m' bs' L' := by
  have hz := h.pcs t
  rw [hpc] at hz
  obtain ⟨e, he, hp, hlo, hhi⟩ := hz
  by_cases hlt : itr < stop
  · have hx : Covers m.state e.span itr := ⟨by simp only [Allocation.span]; omega, by
      simp only [Allocation.span, hp] at hhi ⊢
      omega⟩
    obtain ⟨hs, hsh⟩ := h.storeByte h0 h1 he.1 hx 0
    refine ⟨{ m with
      state := { m.state with mem := update m.state.mem itr 0 }
      pc := update m.pc t (.zero (itr + 1) stop ret) }, ?_, bs, L,
      h.step hsh (fun _ _ _ he _ => he) ⟨e, he, hp, by omega, hhi⟩⟩
    simp only [runPiece, hpc, if_pos hlt, hs, Option.bind_eq_bind, Option.bind_some]
  · refine ⟨{ m with pc := update m.pc t .idle, owned := setCall ret none m.owned }, ?_, bs, L,
      h.step (by rw [map_span_setCall]; exact h.shares) (fun t' ht e' he' hc => ?_) trivial⟩
    · simp only [runPiece, hpc, if_neg hlt]
    · exact mem_setCall_of_ne he' (hp ▸ h.ptr_ne he ht he' hc)

theorem Inv.slabFree (h : Inv sizeOfRegion slabSize start m bs L) (hpc : m.pc t = .slabFree ptr) :
    ∃ m', runPiece m t = some m' ∧ ∃ bs' L', Inv sizeOfRegion slabSize start m' bs' L' := by
  have hz := h.pcs t
  rw [hpc] at hz
  obtain ⟨e, he, rfl, hlo⟩ := hz
  obtain ⟨s', hs, hsh⟩ := h.shares.slabPush (List.mem_map_of_mem he.1) hlo
  refine ⟨⟨s', update m.pc t .idle, m.owned.filter fun d => decide (d.ptr ≠ e.ptr)⟩, ?_, bs, _,
    h.step (map_span_filter ▸ hsh) (fun t' ht e' he' hc => h.mem_filter he ht he' hc) trivial⟩
  simp only [runPiece, hpc, Option.bind_eq_bind]
  rw [show slabPush m.state e.ptr = some s' from hs]
  rfl

theorem Inv.nextFitFree (h : Inv sizeOfRegion slabSize start m bs L)
    (hpc : m.pc t = .nextFitFree ptr) :
    ∃ m', runPiece m t = some m' ∧ ∃ bs' L', Inv sizeOfRegion slabSize start m' bs' L' := by
  have hz := h.pcs t
  rw [hpc] at hz
  obtain ⟨e, he, rfl, hlo⟩ := hz
  obtain ⟨s', bs', hs, hsh⟩ := h.shares.nextFitFree (List.mem_map_of_mem he.1) hlo
  refine ⟨⟨s', update m.pc t .idle, m.owned.filter fun d => decide (d.ptr ≠ e.ptr)⟩, ?_, bs', L,
    h.step (map_span_filter ▸ hsh) (fun t' ht e' he' hc => h.mem_filter he ht he' hc) trivial⟩
  simp only [runPiece, hpc, Option.bind_eq_bind]
  rw [show Mem.nextFitFree m.state e.ptr = some (s', 0) from hs]
  rfl

/-- Every atomic piece of a call succeeds and keeps the invariant. -/
theorem Inv.runPiece (h : Inv sizeOfRegion slabSize start m bs L) (h0 : 1 ≤ slabSize)
    (h1 : slabSize < 2 ^ 31) (ht : m.pc t ≠ .idle) :
    ∃ m', Mem.runPiece m t = some m' ∧ ∃ bs' L', Inv sizeOfRegion slabSize start m' bs' L' := by
  cases hpc : m.pc t with
  | idle => exact absurd hpc ht
  | slabAlloc size => exact h.slabAlloc h0 h1 hpc
  | nextFitAlloc size => exact h.nextFitAlloc h0 h1 hpc
  | zero itr stop ret => exact h.zero h0 h1 hpc
  | slabFree ptr => exact h.slabFree hpc
  | nextFitFree ptr => exact h.nextFitFree hpc

-- ---------------------------------------------------------------------------
-- Calls and writes
-- ---------------------------------------------------------------------------

theorem freeTarget_slab (h : freeTarget s ptr = .slab) : ptr < s.nextFitRegionStartPtr := by
  by_contra hlo
  simp only [freeTarget, if_neg hlo] at h
  split_ifs at h

theorem freeTarget_nextFit (h : freeTarget s ptr = .nextFit) : s.nextFitRegionStartPtr ≤ ptr := by
  by_contra hlo
  simp only [freeTarget, if_pos (Nat.not_le.mp hlo)] at h
  split_ifs at h

/-- `Mem_Free` of a live pointer takes the pointer away from the program. -/
theorem Inv.memFree (h : Inv sizeOfRegion slabSize start m bs L) (he : e ∈ m.owned)
    (hc : e.call = none) (hpc : PcOk slabSize m.state (setCall e.ptr (some t) m.owned) t pc) :
    Inv sizeOfRegion slabSize start
      { m with pc := update m.pc t pc, owned := setCall e.ptr (some t) m.owned } bs L := by
  refine h.step (by rw [map_span_setCall]; exact h.shares) (fun t' _ e' he' hc' => ?_) hpc
  refine mem_setCall_of_ne he' fun hp => ?_
  obtain rfl := h.eq_of_ptr he' he hp
  simp [hc] at hc'

/-- What every step preserves. -/
theorem Inv.next (h : Inv sizeOfRegion slabSize start m bs L) (h0 : 1 ≤ slabSize)
    (h1 : slabSize < 2 ^ 31) (hn : m.next l = some m') :
    ∃ bs' L', Inv sizeOfRegion slabSize start m' bs' L' := by
  cases l with
  | memAlloc t size =>
    simp only [Threads.next] at hn
    split_ifs at hn with hs
    cases hn
    exact ⟨bs, L, h.memAlloc hs.2⟩
  | memFree t ptr =>
    simp only [Threads.next] at hn
    split_ifs at hn with hs
    obtain ⟨-, e, he, rfl, hc⟩ := hs
    obtain ⟨e', he', hp⟩ := inCall_setCall (t := t) he
    split at hn
    · cases hn
      exact ⟨bs, L, h⟩
    · next htarget =>
      cases hn
      exact ⟨bs, L, h.memFree he hc ⟨e', he', hp, freeTarget_slab htarget⟩⟩
    · next htarget =>
      cases hn
      exact ⟨bs, L, h.memFree he hc ⟨e', he', hp, freeTarget_nextFit htarget⟩⟩
  | piece t =>
    have ht : m.pc t ≠ .idle := fun hidle => by simp [Threads.next, Mem.runPiece, hidle] at hn
    obtain ⟨m'', hm, hinv⟩ := h.runPiece h0 h1 ht
    obtain rfl : m'' = m' := Option.some.inj (hm.symm.trans hn)
    exact hinv
  | write a v =>
    simp only [Threads.next] at hn
    split_ifs at hn with hs
    obtain ⟨e, he, -, hlo, hhi⟩ := hs
    obtain ⟨s', hs', hinv⟩ := h.write h0 h1 he hlo hhi v
    rw [hs'] at hn
    cases hn
    exact ⟨bs, L, hinv⟩

/-- What holds in every reachable state. -/
theorem reachable_inv (hr : Request sizeOfRegion start) (h1 : slabSize < 2 ^ 31)
    (h : (Threads.system sizeOfRegion slabSize start).Reachable m) :
    1 ≤ slabSize ∧ ∃ bs L, Inv sizeOfRegion slabSize start m bs L := by
  refine h.invariant (P := fun m => 1 ≤ slabSize ∧ ∃ bs L, Inv sizeOfRegion slabSize start m bs L)
    (fun m hm => init_inv hr h1 hm) ?_
  rintro m l m' - ⟨h0, bs, L, hinv⟩ hs
  exact ⟨h0, hinv.next h0 h1 hs⟩

-- ---------------------------------------------------------------------------
-- Every interleaving
-- ---------------------------------------------------------------------------

end

end

end PerrOS.Mem
