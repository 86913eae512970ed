import PerrOS.Mem.NextFit
import PerrOS.Mem.Slab

/-!
# Mem_Init

A successful `Mem_Init` leaves one free block, which covers the next-fit
region, and a stack of free slabs. A failing one has changed registers.
-/

namespace PerrOS.Mem

open Lib (Memory Path Block)
open Lib.Block (Tiles frees used Coalesced)

/-- The regions that the callers ask for, and what `mmap` promises. -/
structure Request (sizeOfRegion : Int) (start : Nat) : Prop where
  size_pos : 0 ≤ sizeOfRegion
  size_lt : sizeOfRegion < 2 ^ 31
  size_dvd : sizeOfRegion % 64 = 0
  start_pos : 0 < start
  page : start % 4096 = 0
  addressable : start + sizeOfRegion < 2 ^ 64

/-- The block that covers the whole next-fit region of `s`. -/
def wholeBlock (s : State) : Block Int :=
  ⟨s.nextFitRegionStartPtr, s.mapStart + s.mapLen - s.nextFitRegionStartPtr - headerSize, none⟩

section
variable {s₀ s s' : State} {sizeOfRegion slabSize : Int} {start p : Nat}

/-- The state in which `Mem_Init` starts to carve slabs. -/
def layout (s : State) (sizeOfRegion slabSize : Int) (start : Nat) : State :=
  { s with
    initializedOnce := true
    slabUnitSize := slabSize
    sizeOfRegion := sizeOfRegion
    roundedSlabAllocationSize := fitToAlignSize slabSize
    regionStartPtr := start
    mapStart := start
    mapLen := sizeT sizeOfRegion
    mem := fun a => if start ≤ a ∧ a < start + sizeT sizeOfRegion then 0 else s.mem a
    topOfSlabStack := NULL
    nextFitRegionStartPtr := ptrAdd start (sizeOfRegion / 4) }

/-- The registers of a state with the layout of a request. -/
structure LaidOut (s : State) (sizeOfRegion slabSize : Int) (start : Nat) : Prop where
  initialized : s.initializedOnce = true
  regionStartPtr : s.regionStartPtr = start
  mapStart : s.mapStart = start
  mapLen : (s.mapLen : Int) = sizeOfRegion
  nextFitRegionStartPtr : (s.nextFitRegionStartPtr : Int) = start + sizeOfRegion / 4
  slabUnitSize : s.slabUnitSize = slabSize
  rounded : s.roundedSlabAllocationSize = fitToAlignSize slabSize
  size_eq : s.sizeOfRegion = sizeOfRegion

theorem layout_laidOut (hr : Request sizeOfRegion start) :
    LaidOut (layout s sizeOfRegion slabSize start) sizeOfRegion slabSize start := by
  obtain ⟨hpos, hlt, hdvd, hstart, hpage, hadr⟩ := hr
  refine ⟨rfl, rfl, rfl, ?_, ?_, rfl, rfl, rfl⟩
  · simp only [layout, sizeT]
    omega
  · simp only [layout, ptrAdd, sizeT]
    omega

/-- No operation changes the layout. -/
theorem LaidOut.of_eq (h : LaidOut s sizeOfRegion slabSize start)
    (he : s' = { s with
      freeHead := s'.freeHead
      nextPtr := s'.nextPtr
      topOfSlabStack := s'.topOfSlabStack
      mem := s'.mem }) : LaidOut s' sizeOfRegion slabSize start := by
  rw [he]
  exact ⟨h.initialized, h.regionStartPtr, h.mapStart, h.mapLen, h.nextFitRegionStartPtr,
    h.slabUnitSize, h.rounded, h.size_eq⟩

theorem LaidOut.slabRegion (h : LaidOut s sizeOfRegion slabSize start)
    (hr : Request sizeOfRegion start) : SlabRegion s := by
  obtain ⟨hpos, hlt, hdvd, hstart, hpage, hadr⟩ := hr
  have h1 := h.regionStartPtr
  have h2 := h.mapStart
  have h3 := h.mapLen
  have h4 := h.nextFitRegionStartPtr
  constructor <;> omega

/-- No slab lies above the one that is carved first. -/
theorem LaidOut.slab_le (h : LaidOut s sizeOfRegion slabSize start)
    (hr : Request sizeOfRegion start) (ha : s.Slab a) :
    a ≤ ptrAdd s.nextFitRegionStartPtr (-s.roundedSlabAllocationSize) := by
  have hreg := h.slabRegion hr
  have h1 := ha.high
  have h2 := ha.unit
  have h3 := hreg.stop_le
  have h4 := hreg.addressable
  simp only [ptrAdd, sizeT]
  omega

/-- The first slab is carved at the top of the slab region. When rounding
`slabSize` up wraps, the loop leaves the mapping at once. -/
theorem LaidOut.firstSlab (h : LaidOut s sizeOfRegion slabSize start)
    (hr : Request sizeOfRegion start) (h0 : 1 ≤ slabSize) (h1 : slabSize < 2 ^ 31)
    (hfit : fitToAlignSize slabSize ≤ sizeOfRegion / 4)
    (hm : s.Mapped (ptrAdd s.nextFitRegionStartPtr (-s.roundedSlabAllocationSize)) 8) :
    s.Slab (ptrAdd s.nextFitRegionStartPtr (-s.roundedSlabAllocationSize)) := by
  obtain ⟨hpos, hlt, hdvd, hstart, hpage, hadr⟩ := hr
  have hs := h.regionStartPtr
  have hms := h.mapStart
  have hml := h.mapLen
  have hn := h.nextFitRegionStartPtr
  have hround := h.rounded
  obtain ⟨hm1, hm2⟩ := hm
  rcases fitToAlignSize_cases (Int.le_trans (by decide) h0) h1 with ⟨k, hk, hka, hle, -, -⟩ | hw
  · rw [hk] at hround hfit
    have heq : (ptrAdd s.nextFitRegionStartPtr (-s.roundedSlabAllocationSize) : Int) =
        s.nextFitRegionStartPtr - k := by
      simp only [ptrAdd, sizeT]
      omega
    constructor
    · omega
    · omega
    · omega
    · omega
    · omega
    · rw [heq, hround]
      exact ⟨1, by rw [Int.mul_one, Int.sub_sub_self]⟩
  · -- 2 ^ 31 bytes up: past the end of the mapping, or wrapped to below its start
    have hw' : s.roundedSlabAllocationSize = -2147483648 := hround.trans hw
    have heq : ptrAdd s.nextFitRegionStartPtr (-s.roundedSlabAllocationSize) =
        (s.nextFitRegionStartPtr + 2147483648) % 18446744073709551616 := by
      rw [hw']
      exact ptrAdd_ofNat _ 2147483648
    rw [heq] at hm1 hm2
    omega

theorem LaidOut.region (h : LaidOut s sizeOfRegion slabSize start)
    (hr : Request sizeOfRegion start) : Region s := by
  obtain ⟨hpos, hlt, hdvd, hstart, hpage, hadr⟩ := hr
  have h2 := h.mapStart
  have h3 := h.mapLen
  have h4 := h.nextFitRegionStartPtr
  constructor <;> omega

/-- `Mem_Init`'s last step: the header of the one free block. -/
theorem LaidOut.firstBlock (h : LaidOut s sizeOfRegion slabSize start)
    (hr : Request sizeOfRegion start) (hsz : 4 ≤ sizeOfRegion) :
    ∃ s₁ s₂, State.storeInt { s with freeHead := s.nextFitRegionStartPtr } s.nextFitRegionStartPtr
        (sizeOfRegion - sizeOfRegion / 4 - headerSize) = some s₁ ∧
      s₁.storePtr (s₁.freeHead + 8) NULL = some s₂ ∧
      Heap { s₂ with nextPtr := s₂.freeHead } [wholeBlock s] ∧
      s₂ = { s with freeHead := s.nextFitRegionStartPtr, mem := s₂.mem } ∧
      ∀ x, x < s.nextFitRegionStartPtr → s₂.mem x = s.mem x := by
  have hreg := h.region hr
  obtain ⟨hpos, hlt, hdvd, hstart, hpage, hadr⟩ := hr
  have hms := h.mapStart
  have hml := h.mapLen
  have hn := h.nextFitRegionStartPtr
  have hnode : State.Node { s with freeHead := s.nextFitRegionStartPtr } s.nextFitRegionStartPtr := by
    refine ⟨hreg.aligned, ⟨hreg.start_le, ?_⟩, ?_⟩
    · simp only
      omega
    · omega
  have hnode' : ∀ m, State.Node { s with freeHead := s.nextFitRegionStartPtr, mem := m }
      s.nextFitRegionStartPtr := fun m => hnode.of_map rfl rfl
  have hlen : (sizeOfRegion - sizeOfRegion / 4 - headerSize : Int) = ((wholeBlock s).len : Nat) := by
    simp only [wholeBlock, headerSize]
    omega
  obtain ⟨m, hm⟩ : ∃ m, m = setInt s.mem s.nextFitRegionStartPtr ((wholeBlock s).len : Nat) :=
    ⟨_, rfl⟩
  have hba := hreg.aligned
  have hnext : nextAt (setPtr m (s.nextFitRegionStartPtr + 8) NULL) s.nextFitRegionStartPtr = 0 :=
    ptrAt_setPtr (by decide)
  have hint : intAt (setPtr m (s.nextFitRegionStartPtr + 8) NULL) s.nextFitRegionStartPtr =
      ((wholeBlock s).len : Nat) := by
    rw [intAt_setPtr hba hba, hm]
    refine intAt_setInt ?_ ?_ <;> simp only [wholeBlock] <;> omega
  refine ⟨{ s with freeHead := s.nextFitRegionStartPtr, mem := m },
    { s with
      freeHead := s.nextFitRegionStartPtr
      mem := setPtr m (s.nextFitRegionStartPtr + 8) NULL }, ?_, (hnode' m).storeNext NULL,
    ⟨⟨⟨hreg.start_pos, hreg.start_le, hba, hreg.addressable, hreg.int_size⟩, ?_, fun b hb => ?_,
      fun b hb => ?_, ⟨⟨rfl, ?_, hnext⟩, ?_, fun a ha => ?_⟩, .inr ?_⟩, ?_⟩, rfl,
    fun x hx => ?_⟩
  · rw [hlen, hm]
    exact hnode.storeInt _
  · refine ⟨rfl, ?_⟩
    simp only [Tiles, Block.stop, wholeBlock, headerSize]
    omega
  · obtain rfl := List.mem_singleton.mp hb
    refine ⟨?_, fun n hn => by cases hn⟩
    simp only [wholeBlock, headerSize]
    omega
  · obtain rfl := List.mem_singleton.mp hb
    exact ⟨hint, fun hu => by simp [wholeBlock, Block.free] at hu⟩
  · have := hreg.start_pos
    have := hreg.start_le
    simp only [wholeBlock]
    omega
  · exact List.pairwise_singleton _ _
  · obtain rfl : a = s.nextFitRegionStartPtr := by
      simpa [wholeBlock, Block.frees_cons, Block.free] using ha
    exact hnode.of_map rfl rfl
  · simp [wholeBlock, Block.frees_cons, Block.free]
  · exact List.isChain_singleton _
  · simp only [hm]
    rw [setPtr_outside (by omega), setInt_outside (by omega)]

/-- What a successful `Mem_Init` leaves. -/
structure Fresh (s : State) (sizeOfRegion slabSize : Int) (start : Nat) : Prop
    extends LaidOut s sizeOfRegion slabSize start where
  heap : Heap s [wholeBlock s]
  slabs : ∃ L, Slabs s L ∧ ∀ a, s.Slab a → a ∈ L
  slabSize_pos : 1 ≤ slabSize
  size_ge : 4 ≤ sizeOfRegion

/-- What a `Mem_Init` that succeeds has checked and done. -/
structure Initialized (s₀ : State) (sizeOfRegion slabSize : Int) (start : Nat) (s : State) : Prop where
  first : s₀.initializedOnce = false
  size_ge : 4 ≤ sizeOfRegion
  slabSize_pos : 1 ≤ slabSize
  slab_fits : fitToAlignSize slabSize ≤ sizeOfRegion / 4
  size_dvd : sizeOfRegion % 4 = 0
  steps : ∃ s₁ s₂ s₃, carveLoop (layout s₀ sizeOfRegion slabSize start).turns
      (layout s₀ sizeOfRegion slabSize start)
      (ptrAdd (layout s₀ sizeOfRegion slabSize start).nextFitRegionStartPtr
        (-fitToAlignSize slabSize)) = some s₁ ∧
    State.storeInt { s₁ with freeHead := s₁.nextFitRegionStartPtr } s₁.nextFitRegionStartPtr
      (sizeOfRegion - sizeOfRegion / 4 - headerSize) = some s₂ ∧
    s₂.storePtr (s₂.freeHead + 8) NULL = some s₃ ∧ s = { s₃ with nextPtr := s₃.freeHead }

/-- `Mem_Init` is rejected before it looks at anything else. -/
def Rejected (sizeOfRegion slabSize : Int) : Prop :=
  sizeOfRegion < 4 ∨ slabSize < 1 ∨ sizeOfRegion.tdiv 4 < fitToAlignSize slabSize ∨
    sizeOfRegion < fitToAlignSize slabSize

instance : Decidable (Rejected sizeOfRegion slabSize) := inferInstanceAs (Decidable (_ ∨ _))

/-- `Mem_Init` returns at its first check, at its second one, when `mmap`
fails, or with the region. -/
theorem memInit_cases (h : memInit s₀ sizeOfRegion slabSize mmap = some (s, p)) :
    (p = NULL ∧ (Rejected sizeOfRegion slabSize ∨ s₀.initializedOnce = true) ∧
      s = { s₀ with roundedSlabAllocationSize := fitToAlignSize slabSize }) ∨
    (p = NULL ∧ ¬Rejected sizeOfRegion slabSize ∧ s₀.initializedOnce = false ∧
      s.initializedOnce = true) ∨
    ∃ start, mmap = some start ∧ p = start ∧
      Initialized s₀ sizeOfRegion slabSize start s := by
  unfold memInit at h
  dsimp only at h
  split_ifs at h with h1 h2 h3
  · obtain ⟨rfl, rfl⟩ := Prod.ext_iff.mp (Option.some.inj h)
    exact .inl ⟨rfl, .inl h1, rfl⟩
  · obtain ⟨rfl, rfl⟩ := Prod.ext_iff.mp (Option.some.inj h)
    exact .inl ⟨rfl, .inr h2, rfl⟩
  · have hfirst : s₀.initializedOnce = false := by simpa using h2
    cases mmap with
    | none =>
      obtain ⟨rfl, rfl⟩ := Prod.ext_iff.mp (Option.some.inj h)
      exact .inr (.inl ⟨rfl, h1, hfirst, rfl⟩)
    | some start =>
      have hdiv : sizeOfRegion.tdiv 4 = sizeOfRegion / 4 := Int.tdiv_eq_ediv_of_nonneg (by omega)
      have hmod : sizeOfRegion.tmod 4 = sizeOfRegion % 4 := Int.tmod_eq_emod_of_nonneg (by omega)
      simp only [hdiv] at h h1
      obtain ⟨s₁, hs₁, h⟩ := Option.bind_eq_some_iff.mp h
      obtain ⟨s₂, hs₂, h⟩ := Option.bind_eq_some_iff.mp h
      obtain ⟨s₃, hs₃, h⟩ := Option.bind_eq_some_iff.mp h
      obtain ⟨rfl, rfl⟩ := Prod.ext_iff.mp (Option.some.inj h)
      refine .inr (.inr ⟨start, rfl, ?_, hfirst, by omega, by omega, by omega, by omega,
        s₁, s₂, s₃, hs₁, hs₂, hs₃, rfl⟩)
      rw [storePtr_eq hs₃, storeInt_eq hs₂, carveLoop_frame hs₁]

theorem memInit_success (h : memInit s₀ sizeOfRegion slabSize (some start) = some (s, p))
    (hp : p ≠ NULL) : p = start ∧ Initialized s₀ sizeOfRegion slabSize start s := by
  rcases memInit_cases h with ⟨hn, -⟩ | ⟨hn, -⟩ | ⟨start', hs, rfl, hi⟩
  · exact absurd hn hp
  · exact absurd hn hp
  · cases hs
    exact ⟨rfl, hi⟩

theorem memInit_spec (h : memInit s₀ sizeOfRegion slabSize (some start) = some (s, p))
    (hp : p ≠ NULL) (hr : Request sizeOfRegion start) (hslab : slabSize < 2 ^ 31) :
    p = start ∧ Fresh s sizeOfRegion slabSize start := by
  obtain ⟨hp, -, hsz, hpos, hfit, -, s₁, s₂, s₃, hs₁, hs₂, hs₃, rfl⟩ := memInit_success h hp
  have hl₀ : LaidOut (layout s₀ sizeOfRegion slabSize start) sizeOfRegion slabSize start :=
    layout_laidOut hr
  have hlen : (layout s₀ sizeOfRegion slabSize start).mapLen < 2 ^ 31 := (hl₀.region hr).int_size
  have hempty : Slabs (layout s₀ sizeOfRegion slabSize start) [] :=
    ⟨hl₀.slabRegion hr, rfl, .nil, by simp⟩
  obtain ⟨L, hL, hall, he⟩ := hempty.carveLoop hs₁
    (fun hm => ⟨hl₀.firstSlab hr hpos hslab hfit hm, by simp⟩)
    (fun a ha hlt => absurd hlt (Nat.not_lt.mpr (hl₀.slab_le hr ha))) hlen
  have hl₁ : LaidOut s₁ sizeOfRegion slabSize start := hl₀.of_eq (by rw [he])
  obtain ⟨t₂, t₃, ht₂, ht₃, hheap, he₃, hlow⟩ := hl₁.firstBlock hr hsz
  obtain rfl : t₂ = s₂ := Option.some.inj (ht₂.symm.trans hs₂)
  obtain rfl : t₃ = s₃ := Option.some.inj (ht₃.symm.trans hs₃)
  have hl₃ : LaidOut { t₃ with nextPtr := t₃.freeHead } sizeOfRegion slabSize start :=
    hl₁.of_eq (by rw [he₃])
  have hwhole : wholeBlock { t₃ with nextPtr := t₃.freeHead } = wholeBlock s₁ := by
    rw [he₃]
    rfl
  have hsame₁ : SameLayout (layout s₀ sizeOfRegion slabSize start) s₁ := by
    rw [he]
    exact ⟨rfl, rfl, rfl, rfl, rfl⟩
  have hsame₃ : SameLayout s₁ { t₃ with nextPtr := t₃.freeHead } := by
    rw [he₃]
    exact ⟨rfl, rfl, rfl, rfl, rfl⟩
  have htop : t₃.topOfSlabStack = s₁.topOfSlabStack := by rw [he₃]
  refine ⟨hp, hl₃, hwhole ▸ hheap,
    ⟨L, hL.congr hsame₃ htop fun a ha x hx hx' => hlow x ?_, fun a ha => ?_⟩, hpos, hsz⟩
  · have h1 := (hL.slab a ha).unit
    have h2 := (hL.slab a ha).high
    omega
  · exact hall a ((ha.congr hsame₃.symm).congr hsame₁.symm)

/-- A region of 64 bytes at address 4096, with slabs of one byte. -/
theorem started_64 : ∃ s, memInit State.static 64 1 (some 4096) = some (s, 4096) := by
  have h : ((memInit State.static 64 1 (some 4096)).map Prod.snd) = some 4096 := by decide
  obtain ⟨⟨s, p⟩, hs, rfl⟩ := Option.map_eq_some_iff.mp h
  exact ⟨s, hs⟩

theorem request_64 : Request 64 4096 := by constructor <;> decide

-- ---------------------------------------------------------------------------
-- Failure
-- ---------------------------------------------------------------------------

theorem memInit_rejected (h : Rejected sizeOfRegion slabSize) :
    memInit s₀ sizeOfRegion slabSize mmap =
      some ({ s₀ with roundedSlabAllocationSize := fitToAlignSize slabSize }, NULL) :=
  if_pos h

/-- A `Mem_Init` that returns null leaves the allocator as it was exactly when
one of its checks fails and `slabSize` rounds up to what the last call had:
the rounded size is stored before any check, and a failing `mmap` comes after
`initializedOnce` is set. -/
theorem memInit_failure (hmmap : ∀ start, mmap = some start → start ≠ NULL)
    (h : memInit s₀ sizeOfRegion slabSize mmap = some (s, NULL)) :
    s = s₀ ↔ (Rejected sizeOfRegion slabSize ∨ s₀.initializedOnce = true) ∧
      fitToAlignSize slabSize = s₀.roundedSlabAllocationSize := by
  rcases memInit_cases h with ⟨-, hcheck, rfl⟩ | ⟨-, hpass, hfirst, honce⟩ | ⟨start, hs, hnull, -⟩
  · constructor
    · intro he
      exact ⟨hcheck, congrArg State.roundedSlabAllocationSize he⟩
    · rintro ⟨-, he⟩
      rw [he]
  · refine iff_of_false (fun he => ?_) fun hcheck => ?_
    · rw [he, hfirst] at honce
      cases honce
    · rcases hcheck.1 with hr | honce
      · exact hpass hr
      · rw [hfirst] at honce
        cases honce
  · exact absurd hnull.symm (hmmap start hs)

theorem memInit_failure_static :
    ∃ s, memInit State.static 0 0 none = some (s, NULL) ∧ s = State.static := by
  have h : memInit State.static 0 0 none = some (_, NULL) := memInit_rejected (by decide)
  refine ⟨_, h, (memInit_failure (fun start hs => ?_) h).mpr ⟨.inl (by decide), by decide⟩⟩
  cases hs

/-- After `Mem_Init(64, 1)`, a rejected `Mem_Init(64, 32)` doubles the length
that slabs are zeroed to and checked against. -/
theorem second_memInit_rounds : ∃ s₀ s, memInit State.static 64 1 (some 4096) = some (s₀, 4096) ∧
    memInit s₀ 64 32 none = some (s, NULL) ∧ s₀.roundedSlabAllocationSize = 16 ∧
    s.roundedSlabAllocationSize = 32 ∧ s ≠ s₀ := by
  obtain ⟨s₀, hs⟩ := started_64
  have hround : s₀.roundedSlabAllocationSize = 16 :=
    (memInit_spec hs (by decide) request_64 (by decide)).2.rounded
  refine ⟨s₀, _, hs, memInit_rejected (by decide), hround, rfl, fun he => ?_⟩
  have hsame : fitToAlignSize 32 = 16 := (congrArg State.roundedSlabAllocationSize he).trans hround
  exact absurd hsame (by decide)

end

end PerrOS.Mem
