import PerrOS.Mem.Client

/-!
# Geometries

Which of the regions that `Mem_Init` accepts it can work with. The checks look
at the rounded slab size only; where the next-fit region starts, a quarter of
the way up, decides how everything is aligned.
-/

namespace PerrOS.Mem

open Lib (Memory Path Block System)
open Lib.Block (Tiles frees used)

/-- What `mmap` promises for a region. -/
structure Mmap (sizeOfRegion : Int) (start : Nat) : Prop where
  size_lt : sizeOfRegion < 2 ^ 31
  start_pos : 0 < start
  page : start % 4096 = 0
  addressable : start + sizeOfRegion < 2 ^ 64

/-- The `n` bytes at `a` lie in the region. -/
def Inside (sizeOfRegion : Int) (start : Nat) (a : Nat) (n : Int) : Prop :=
  start ≤ a ∧ a + n ≤ start + sizeOfRegion

/-- What a caller relies on between two calls. -/
structure Works (sizeOfRegion : Int) (start : Nat) (c : Client) : Prop where
  slabs : ∀ a ∈ c.bases, Inside sizeOfRegion start a c.state.roundedSlabAllocationSize
  headers : ∃ chain, Path (nextAt c.state.mem) c.state.freeHead chain NULL ∧
    ∀ a, a ∈ chain ∨ (∃ q ∈ c.live, c.state.nextFitRegionStartPtr ≤ q.1 ∧ a + headerSize = q.1) →
      Inside sizeOfRegion start a headerSize
  aligned : ∀ q ∈ c.live, q.1 % 16 = 0
  freed : ∀ q ∈ c.live, ∃ s, memFree c.state q.1 = some (s, 0)
  returns : ∀ size, 0 ≤ size → size < 2 ^ 31 → ∃ s p, memAlloc c.state size = some (s, p)

section
variable {sizeOfRegion slabSize : Int} {start p itr : Nat} {s₀ s s' : State}
  {bs : List (Block Int)} {L : List Nat} {c : Client}

theorem Client.Shared.works (h : c.Shared sizeOfRegion slabSize start bs L)
    (hr : Request sizeOfRegion start) (h1 : slabSize < 2 ^ 31) : Works sizeOfRegion start c where
  slabs a ha := by
    have hslab := (h.bases a).mp ha
    have := hslab.low
    have := hslab.high
    have := h.shares.layout.regionStartPtr
    have := h.shares.layout.nextFitRegionStartPtr
    have := hr.size_pos
    constructor <;> omega
  headers := by
    have hstart := h.shares.layout.mapStart
    have hlen := h.shares.layout.mapLen
    have hinside : ∀ b ∈ bs, Inside sizeOfRegion start b.addr headerSize := fun b hb => by
      have := h.shares.heap.bounds hb
      have := h.shares.heap.region.start_le
      simp only [headerSize]
      constructor <;> omega
    refine ⟨frees bs, h.shares.heap.chain.path, fun a ha => ?_⟩
    rcases ha with ha | ⟨q, hq, hlo, hqa⟩
    · obtain ⟨b, hb, -, rfl⟩ := Block.mem_frees.mp ha
      exact hinside b hb
    · obtain ⟨b, hb, -, hqb⟩ := h.shares.block q hq hlo
      obtain rfl : a = b.addr := by omega
      exact hinside b hb
  aligned _ hq := h.shares.ptr_aligned hq
  freed _ hq := by
    obtain ⟨s', -, -, hs, -⟩ := h.shares.memFree_live hr h.slabSize_pos h1 hq
    exact ⟨s', hs⟩
  returns _ h0 hs := by
    obtain ⟨s', p, ha, -⟩ := h.shares.memAlloc h.slabSize_pos h1 h0 hs
    exact ⟨s', p, ha⟩

-- ---------------------------------------------------------------------------
-- Regions of any size
-- ---------------------------------------------------------------------------

/-- The loop of `Mem_Init`, when it ends, has linked what it pushed, whatever
the alignment. -/
theorem carveLoop_path (h : carveLoop turns s itr = some s')
    (hunit : 16 ≤ s.roundedSlabAllocationSize) (hunit' : s.roundedSlabAllocationSize < 2 ^ 31)
    (hlen : s.mapLen < 2 ^ 31) (hadr : s.mapStart + s.mapLen < 2 ^ 64)
    (hL : Path (ptrAt s.mem) s.topOfSlabStack L NULL) (hmap : ∀ a ∈ L, s.Mapped a 8 ∧ a ≤ first)
    (hitr : s.Mapped itr 8 →
      itr ≤ first ∧ ∀ a ∈ L, (itr : Int) + s.roundedSlabAllocationSize ≤ a) :
    ∃ L', Path (ptrAt s'.mem) s'.topOfSlabStack L' NULL ∧ ∀ a ∈ L', s.Mapped a 8 ∧ a ≤ first := by
  induction turns generalizing s L itr with
  | zero => cases h
  | succ turns ih =>
    rw [carveLoop] at h
    split_ifs at h with hend
    · cases h
      exact ⟨L, hL, hmap⟩
    · obtain ⟨s₁, hs₁, h⟩ := Option.bind_eq_some_iff.mp h
      obtain ⟨hnull, hm⟩ := slabPush_mapped hs₁
      obtain ⟨hle, hbelow⟩ := hitr hm
      obtain rfl := slabPush_eq hs₁
      have htop : s.topOfSlabStack < 2 ^ 64 := by
        cases L with
        | nil => simp [show s.topOfSlabStack = 0 from hL]
        | cons b L =>
          have := (hmap b List.mem_cons_self).1.2
          have := hL.1
          omega
      refine ih (s := { s with mem := setPtr s.mem itr s.topOfSlabStack, topOfSlabStack := itr })
        (L := itr :: L) h hunit hunit' hlen hadr ⟨rfl, hnull, ?_⟩ (fun a ha => ?_) fun hm' => ?_
      · rw [ptrAt_setPtr htop]
        refine hL.congr fun a ha => ptrAt_congr fun x hx hx' => setPtr_outside ?_
        have := hbelow a ha
        omega
      · rcases List.mem_cons.mp ha with rfl | ha
        · exact ⟨hm, hle⟩
        · exact hmap a ha
      · -- the next slab down, unless the subtraction wraps to an unmapped address
        obtain ⟨hlo, hhi⟩ := hm
        obtain ⟨hlo', hhi'⟩ := hm'
        simp only [ptrAdd, sizeT] at hlo' hhi' ⊢
        refine ⟨by omega, fun a ha => ?_⟩
        rcases List.mem_cons.mp ha with rfl | ha
        · omega
        · have := hbelow a ha
          omega

theorem carveLoop_unmapped (h : carveLoop turns s itr = some s') (hm : ¬s.Mapped itr 8) :
    s' = s := by
  obtain _ | turns := turns
  · cases h
  · rw [carveLoop] at h
    split_ifs at h
    · exact (Option.some.inj h).symm
    · obtain ⟨s₁, hs₁, -⟩ := Option.bind_eq_some_iff.mp h
      exact absurd (slabPush_mapped hs₁).2 hm

/-- A successful `Mem_Init` leaves a state from which calls can be made. -/
theorem Initialized.started (h : Initialized s₀ sizeOfRegion slabSize start s)
    (hm : Mmap sizeOfRegion start) (h1 : slabSize < 2 ^ 31)
    (hinit : memInit s₀ sizeOfRegion slabSize (some start) = some (s, p)) (hp : p ≠ NULL) :
    ∃ L, Client.Started sizeOfRegion slabSize start ⟨s, [], L⟩ := by
  obtain ⟨hlt, hpos, -, hadr⟩ := hm
  obtain ⟨-, hsz, hone, hfit, -, s₁, s₂, s₃, hs₁, hs₂, hs₃, rfl⟩ := h
  have hlen : ((layout s₀ sizeOfRegion slabSize start).mapLen : Int) = sizeOfRegion := by
    simp only [layout, sizeT]
    omega
  have hstop : ((layout s₀ sizeOfRegion slabSize start).nextFitRegionStartPtr : Int) =
      start + sizeOfRegion / 4 := by
    simp only [layout, ptrAdd, sizeT]
    omega
  have hstart : (layout s₀ sizeOfRegion slabSize start).mapStart = start := rfl
  have hround : (layout s₀ sizeOfRegion slabSize start).roundedSlabAllocationSize =
      fitToAlignSize slabSize := rfl
  have htop : (layout s₀ sizeOfRegion slabSize start).topOfSlabStack = NULL := rfl
  have hframe := carveLoop_frame hs₁
  generalize layout s₀ sizeOfRegion slabSize start = s₄ at *
  obtain ⟨L, hL, hbelow⟩ : ∃ L, Path (ptrAt s₁.mem) s₁.topOfSlabStack L NULL ∧
      ∀ a ∈ L, a + 8 ≤ s₄.nextFitRegionStartPtr := by
    rcases fitToAlignSize_cases (Int.le_trans (by decide) hone) h1 with
      ⟨k, hk, hka, hle, -, hlt'⟩ | hw
    · obtain ⟨L, hL, hmap⟩ := carveLoop_path (L := []) hs₁ (by omega) (by omega) (by omega)
        (by omega) htop (by simp) fun _ => ⟨Nat.le_refl _, by simp⟩
      refine ⟨L, hL, fun a ha => ?_⟩
      have := (hmap a ha).2
      rw [hk] at this hfit
      simp only [ptrAdd, sizeT] at this
      omega
    · -- rounding wrapped, and 2 ^ 31 bytes up nothing is mapped
      obtain rfl := carveLoop_unmapped hs₁ fun hm => by
        rw [hw, show ptrAdd s₄.nextFitRegionStartPtr (- -2 ^ 31) =
          (s₄.nextFitRegionStartPtr + 2147483648) % 2 ^ 64 from ptrAdd_ofNat _ 2147483648] at hm
        obtain ⟨hlo, hhi⟩ := hm
        rcases Nat.lt_or_ge (s₄.nextFitRegionStartPtr + 2147483648) (2 ^ 64) with hlow | hhigh
        · rw [Nat.mod_eq_of_lt hlow] at hhi
          omega
        · rw [Nat.mod_eq_sub_mod hhigh, Nat.mod_eq_of_lt (by omega)] at hlo
          omega
      exact ⟨[], htop, by simp⟩
  obtain rfl := storePtr_eq hs₃
  obtain rfl := storeInt_eq hs₂
  have hstop₁ : s₁.nextFitRegionStartPtr = s₄.nextFitRegionStartPtr := by rw [hframe]
  refine ⟨L, ⟨⟨s₀, p, hinit, hp⟩, rfl, hL.congr fun a ha => ptrAt_congr fun x hx hx' => ?_⟩⟩
  have := hbelow a ha
  simp only
  rw [setPtr_outside (by omega), setInt_outside (by omega)]

/-- Where the one block of a new heap lies, and how long it is. -/
structure OneBlock (sizeOfRegion slabSize : Int) (start : Nat) (s : State) : Prop where
  initialized : s.initializedOnce = true
  slabUnitSize : s.slabUnitSize = slabSize
  freeHead : s.freeHead = s.nextPtr
  nextPtr : (s.nextPtr : Int) = start + sizeOfRegion / 4
  length : intAt s.mem s.nextPtr = sizeOfRegion - sizeOfRegion / 4 - headerSize
  mapped : s.Mapped s.nextPtr headerSize
  room : headerSize ≤ sizeOfRegion - sizeOfRegion / 4

theorem Initialized.oneBlock (h : Initialized s₀ sizeOfRegion slabSize start s)
    (hm : Mmap sizeOfRegion start) : OneBlock sizeOfRegion slabSize start s := by
  obtain ⟨hlt, hpos, -, hadr⟩ := hm
  obtain ⟨-, hsz, -, -, -, s₁, s₂, s₃, hs₁, hs₂, hs₃, rfl⟩ := h
  have hframe := carveLoop_frame hs₁
  have hmap₂ := storeInt_mapped hs₂
  have hmap₃ := storePtr_mapped hs₃
  obtain rfl := storePtr_eq hs₃
  obtain rfl := storeInt_eq hs₂
  have hlen : (s₁.mapLen : Int) = sizeOfRegion := by
    rw [hframe]
    simp only [layout, sizeT]
    omega
  have hstop : (s₁.nextFitRegionStartPtr : Int) = start + sizeOfRegion / 4 := by
    rw [hframe]
    simp only [layout, ptrAdd, sizeT]
    omega
  have hstart : s₁.mapStart = start := by rw [hframe]; rfl
  obtain ⟨hlo, -⟩ := hmap₂
  obtain ⟨-, hhi⟩ := hmap₃
  simp only at hlo hhi
  refine ⟨by rw [hframe]; rfl, by rw [hframe]; rfl, rfl, hstop, ?_, ⟨hlo, ?_⟩, ?_⟩
  · simp only
    rw [intAt_congr fun x hx hx' => setPtr_outside (by omega)]
    exact intAt_setInt (by simp only [headerSize]; omega) (by simp only [headerSize]; omega)
  · simp only [headerSize]
    omega
  · simp only [headerSize]
    omega

/-- The first request of no bytes is served at the start of the block. -/
theorem OneBlock.memAlloc_zero (h : OneBlock sizeOfRegion slabSize start s)
    (hm : Mmap sizeOfRegion start) (hsz : 0 ≤ sizeOfRegion) (hone : 1 ≤ slabSize)
    (ha : memAlloc s 0 = some (s', p)) : p = s.nextPtr + headerSize := by
  have hnull : ¬s.nextPtr = NULL := by
    have := h.nextPtr
    have := hm.start_pos
    simp only [NULL]
    omega
  have hinit : ¬s.initializedOnce = false := by simp [h.initialized]
  have hunit : ¬(0 : Int) = s.slabUnitSize := by
    rw [h.slabUnitSize]
    omega
  have hload : s.loadInt s.nextPtr = some (intAt s.mem s.nextPtr) :=
    if_pos ⟨h.mapped.1, by have := h.mapped.2; simp only [headerSize] at this; omega⟩
  have hfits : withHeader (intAt s.mem s.nextPtr) ≥ withHeader (fitToAlignSize 0) := by
    have := hm.size_lt
    have := h.room
    rw [h.length, show fitToAlignSize 0 = 0 by decide]
    simp only [withHeader, sizeT, headerSize] at this ⊢
    omega
  -- what is zeroed, if anything, does not change the pointer
  have hret : ∃ s₁, nextFitAlloc s 0 = some (s₁, p) := by
    rw [memAlloc, if_neg hinit, if_neg hunit, allocNextFit] at ha
    obtain ⟨⟨s₁, p₁⟩, hs₁, ha⟩ := Option.bind_eq_some_iff.mp ha
    dsimp only at ha
    split_ifs at ha
    · obtain ⟨s₂, -, ha⟩ := Option.bind_eq_some_iff.mp ha
      cases ha
      exact ⟨s₁, hs₁⟩
    · cases ha
      exact ⟨s', hs₁⟩
  obtain ⟨s₁, hs₁⟩ := hret
  simp only [nextFitAlloc, h.freeHead, if_neg hnull, State.turns, allocLoop, hload,
    Option.bind_eq_bind, Option.bind_some, if_pos hfits] at hs₁
  obtain ⟨s₂, -, hs₂⟩ := Option.bind_eq_some_iff.mp hs₁
  cases hs₂
  rfl

/-- A geometry that `Mem_Init` accepts works exactly when the region is a
multiple of 64 bytes: then its quarter is a multiple of `ALIGN_SIZE`. -/
theorem geometry_works_iff (hm : Mmap sizeOfRegion start) (h1 : slabSize < 2 ^ 31)
    (hinit : memInit s₀ sizeOfRegion slabSize (some start) = some (s, p)) (hp : p ≠ NULL) :
    (∀ c, (Client.liveSystem sizeOfRegion slabSize start).Reachable c →
      Works sizeOfRegion start c) ↔ sizeOfRegion % 64 = 0 := by
  obtain ⟨-, hi⟩ := memInit_success hinit hp
  have hsz := hi.size_ge
  have hone := hi.slabSize_pos
  have hdvd := hi.size_dvd
  constructor
  · intro hall
    obtain ⟨L, hstarted⟩ := hi.started hm h1 hinit hp
    have hblock := hi.oneBlock hm
    have hreach := System.Reachable.init (T := Client.liveSystem sizeOfRegion slabSize start) hstarted
    obtain ⟨s', p', ha⟩ := (hall _ hreach).returns 0 (by decide) (by decide)
    obtain rfl := hblock.memAlloc_zero hm (by omega) hone ha
    have hnext : Client.liveNext ⟨s, [], L⟩ (.memAlloc 0) =
        some ⟨s', [(s.nextPtr + headerSize, 0)], L⟩ := by
      have hne : s.nextPtr + headerSize ≠ NULL := by simp [headerSize, NULL]
      simp only [Client.liveNext, Client.next, ha, Option.bind_eq_bind, Option.bind_some,
        if_neg hne]
      rfl
    have haligned := (hall _ (hreach.step hnext)).aligned _ List.mem_cons_self
    have := hblock.nextPtr
    have := hm.page
    simp only [headerSize] at haligned
    omega
  · intro h64 c hc
    have hr : Request sizeOfRegion start :=
      ⟨by omega, hm.size_lt, h64, hm.start_pos, hm.page, hm.addressable⟩
    obtain ⟨bs, L, hshared⟩ := Client.reachable_shared hr h1 hc
    exact hshared.works hr h1

theorem geometry_works_64 : ∃ c : Client, c.live = [] ∧ Works 64 4096 c := by
  obtain ⟨s, hs⟩ := started_64
  have hm : Mmap 64 4096 := by constructor <;> decide
  obtain ⟨L, hstarted⟩ := (memInit_success hs (by decide)).2.started hm (by decide) hs (by decide)
  exact ⟨⟨s, [], L⟩, rfl, (geometry_works_iff hm (by decide) hs (by decide)).mpr (by decide) _
    (.init hstarted)⟩

/-- With 68 bytes the first slab is at 4097, and `Mem_Free` refuses it. -/
theorem geometry_68 : ¬ ∀ (sizeOfRegion slabSize : Int) (start p : Nat) (s₀ s : State),
    Mmap sizeOfRegion start → slabSize < 2 ^ 31 →
    memInit s₀ sizeOfRegion slabSize (some start) = some (s, p) → p ≠ NULL →
    ∀ c, (Client.liveSystem sizeOfRegion slabSize start).Reachable c →
      Works sizeOfRegion start c := by
  intro h
  have hrun : ((memInit State.static 68 1 (some 4096)).bind fun r =>
      (memAlloc r.1 1).map fun r' =>
        (r.2, r.1.topOfSlabStack, ptrAt r.1.mem 4097, r'.2, (memFree r'.1 4097).map Prod.snd)) =
      some (4096, 4097, 0, 4097, some (-1)) := by decide +kernel
  obtain ⟨⟨s, p⟩, hs, hrun⟩ := Option.bind_eq_some_iff.mp hrun
  obtain ⟨⟨s', p'⟩, ha, hrun⟩ := Option.map_eq_some_iff.mp hrun
  obtain ⟨rfl, htop, hlink, rfl, hfree⟩ := by simpa only [Prod.mk.injEq] using hrun
  have hstarted : Client.Started 68 1 4096 ⟨s, [], [4097]⟩ :=
    ⟨⟨State.static, 4096, hs, by decide⟩, rfl, htop, by decide, hlink⟩
  have hnext : Client.liveNext ⟨s, [], [4097]⟩ (.memAlloc 1) =
      some ⟨s', [(4097, 1)], [4097]⟩ := by
    simp only [Client.liveNext, Client.next, ha, Option.bind_eq_bind, Option.bind_some]
    rfl
  have hworks := h 68 1 4096 4096 State.static s (by constructor <;> decide) (by decide) hs
    (by decide) _ ((System.Reachable.init hstarted).step hnext)
  obtain ⟨t, ht⟩ := hworks.freed (4097, 1) List.mem_cons_self
  rw [ht, Option.map_some] at hfree
  exact absurd (Option.some.inj hfree) (by decide : ¬(0 : Int) = -1)

end

end PerrOS.Mem
