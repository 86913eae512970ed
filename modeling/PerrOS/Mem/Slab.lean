import PerrOS.Mem.Access

/-!
# The slab stack

The free slabs are linked through their first eight bytes. They lie on a grid
that `Mem_Init` lays downwards from the next-fit region, so that two of them
never overlap.
-/

namespace PerrOS.Mem

open Lib (Memory Path)

/-- The slab at `a` is one of those that `Mem_Init` lays out. -/
structure State.Slab (s : State) (a : Nat) : Prop where
  unit : 16 ≤ s.roundedSlabAllocationSize
  unit_aligned : s.roundedSlabAllocationSize % 16 = 0
  aligned : a % 16 = 0
  low : s.regionStartPtr ≤ a
  high : a + s.roundedSlabAllocationSize ≤ s.nextFitRegionStartPtr
  grid : s.roundedSlabAllocationSize ∣ s.nextFitRegionStartPtr - a

/-- The slab region lies in the mapping. -/
structure SlabRegion (s : State) : Prop where
  start_pos : 0 < s.regionStartPtr
  start_eq : s.mapStart = s.regionStartPtr
  stop_le : s.nextFitRegionStartPtr ≤ s.mapStart + s.mapLen
  addressable : s.mapStart + s.mapLen < 2 ^ 64

/-- The slab stack of `s` is `L`, the top first. -/
structure Slabs (s : State) (L : List Nat) : Prop where
  region : SlabRegion s
  path : Path (ptrAt s.mem) s.topOfSlabStack L 0
  nodup : L.Nodup
  slab : ∀ a ∈ L, s.Slab a

section
variable {s s' : State} {L : List Nat} {a b : Nat}

/-- Two slabs are the same or do not overlap. -/
theorem State.Slab.apart (ha : s.Slab a) (hb : s.Slab b) :
    a = b ∨ a + s.roundedSlabAllocationSize ≤ b ∨ b + s.roundedSlabAllocationSize ≤ a := by
  have hab : s.roundedSlabAllocationSize ∣ (a : Int) - b := by
    have := Int.dvd_sub hb.grid ha.grid
    rwa [show (s.nextFitRegionStartPtr : Int) - b - (s.nextFitRegionStartPtr - a) = a - b by
      omega] at this
  rcases Int.lt_trichotomy a b with h | h | h
  · have hba : s.roundedSlabAllocationSize ∣ (b : Int) - a := by
      have := Int.dvd_neg.mpr hab
      rwa [Int.neg_sub] at this
    have := Int.le_of_dvd (by omega) hba
    omega
  · omega
  · have := Int.le_of_dvd (by omega) hab
    omega

theorem State.Slab.mapped (h : s.Slab a) (hr : SlabRegion s) : s.Mapped a 8 := by
  have h1 := h.unit
  have h2 := h.low
  have h3 := h.high
  have h4 := hr.stop_le
  have h5 := hr.start_eq
  constructor <;> omega

theorem State.Slab.addressable (h : s.Slab a) (hr : SlabRegion s) : a < 2 ^ 64 := by
  have := (h.mapped hr).2
  have := hr.addressable
  omega

theorem State.Slab.ne_null (h : s.Slab a) (hr : SlabRegion s) : a ≠ NULL := by
  have h1 := h.low
  have h2 := hr.start_pos
  simp only [NULL]
  omega

/-- Slabs and their region depend on the registers that `Mem_Init` sets. -/
structure SameLayout (s s' : State) : Prop where
  start : s'.regionStartPtr = s.regionStartPtr
  unit : s'.roundedSlabAllocationSize = s.roundedSlabAllocationSize
  stop : s'.nextFitRegionStartPtr = s.nextFitRegionStartPtr
  mapStart : s'.mapStart = s.mapStart
  mapLen : s'.mapLen = s.mapLen

theorem SameLayout.symm (h : SameLayout s s') : SameLayout s' s :=
  ⟨h.start.symm, h.unit.symm, h.stop.symm, h.mapStart.symm, h.mapLen.symm⟩

theorem State.Slab.congr (h : s.Slab a) (hl : SameLayout s s') : s'.Slab a := by
  obtain ⟨h1, h2, h3, h4, h5, h6⟩ := h
  constructor
  · rwa [hl.unit]
  · rwa [hl.unit]
  · exact h3
  · rwa [hl.start]
  · rwa [hl.unit, hl.stop]
  · rwa [hl.unit, hl.stop]

theorem SlabRegion.congr (h : SlabRegion s) (hl : SameLayout s s') : SlabRegion s' := by
  obtain ⟨h1, h2, h3, h4⟩ := h
  constructor
  · rwa [hl.start]
  · rwa [hl.mapStart, hl.start]
  · rwa [hl.stop, hl.mapStart, hl.mapLen]
  · rwa [hl.mapStart, hl.mapLen]

/-- The stack is kept by what leaves its top and its links alone. -/
theorem Slabs.congr (h : Slabs s L) (hl : SameLayout s s')
    (htop : s'.topOfSlabStack = s.topOfSlabStack)
    (hm : ∀ a ∈ L, ∀ x, a ≤ x → x < a + 8 → s'.mem x = s.mem x) : Slabs s' L :=
  ⟨h.region.congr hl, htop ▸ h.path.congr fun a ha => ptrAt_congr (hm a ha), h.nodup,
    fun a ha => (h.slab a ha).congr hl⟩

-- ---------------------------------------------------------------------------
-- slabPush and slabPop
-- ---------------------------------------------------------------------------

theorem slabPush_eq (h : Mem.slabPush s a = some s') :
    s' = { s with mem := setPtr s.mem a s.topOfSlabStack, topOfSlabStack := a } := by
  unfold Mem.slabPush at h
  split_ifs at h
  obtain ⟨s₁, hs₁, h⟩ := Option.bind_eq_some_iff.mp h
  obtain rfl := storePtr_eq hs₁
  exact (Option.some.inj h).symm

theorem slabPush_mapped (h : Mem.slabPush s a = some s') : a ≠ NULL ∧ s.Mapped a 8 := by
  unfold Mem.slabPush at h
  split_ifs at h with hnull
  obtain ⟨s₁, hs₁, -⟩ := Option.bind_eq_some_iff.mp h
  exact ⟨hnull, storePtr_mapped hs₁⟩

theorem Slabs.slabPush (h : Slabs s L) (ha : s.Slab a) (haL : a ∉ L) :
    ∃ s', Mem.slabPush s a = some s' ∧ Slabs s' (a :: L) ∧
      s' = { s with mem := setPtr s.mem a s.topOfSlabStack, topOfSlabStack := a } := by
  have hnull := ha.ne_null h.region
  have hm := ha.mapped h.region
  refine ⟨{ s with mem := setPtr s.mem a s.topOfSlabStack, topOfSlabStack := a }, ?_,
    ⟨h.region.congr ⟨rfl, rfl, rfl, rfl, rfl⟩, ⟨rfl, hnull, ?_⟩,
    List.nodup_cons.mpr ⟨haL, h.nodup⟩, fun b hb => ?_⟩, rfl⟩
  · simp only [Mem.slabPush, if_neg hnull, State.storePtr, if_pos hm, Option.bind_eq_bind,
      Option.bind_some]
  · have htop : s.topOfSlabStack < 2 ^ 64 := by
      cases L with
      | nil => simp [show s.topOfSlabStack = 0 from h.path]
      | cons b L => exact h.path.1 ▸ (h.slab b (by simp)).addressable h.region
    rw [ptrAt_setPtr htop]
    refine h.path.congr fun b hb => ptrAt_congr fun x hx hx' => setPtr_outside ?_
    have hu := ha.unit
    rcases ha.apart (h.slab b hb) with rfl | hab | hab
    · exact absurd hb haL
    · omega
    · omega
  · rcases List.mem_cons.mp hb with rfl | hb
    · exact ha.congr ⟨rfl, rfl, rfl, rfl, rfl⟩
    · exact (h.slab b hb).congr ⟨rfl, rfl, rfl, rfl, rfl⟩

theorem Slabs.slabPop (h : Slabs s L) :
    (L = [] ∧ Mem.slabPop s = some (s, NULL)) ∨
    ∃ a L', L = a :: L' ∧ ∃ s', Mem.slabPop s = some (s', a) ∧ Slabs s' L' ∧
      s' = { s with topOfSlabStack := ptrAt s.mem a } := by
  cases L with
  | nil => exact .inl ⟨rfl, if_pos h.path⟩
  | cons a L =>
    obtain ⟨htop, ha0, hL⟩ := h.path
    have ha := h.slab a (by simp)
    refine .inr ⟨a, L, rfl, { s with topOfSlabStack := ptrAt s.mem a }, ?_,
      ⟨h.region.congr ⟨rfl, rfl, rfl, rfl, rfl⟩, hL, (List.nodup_cons.mp h.nodup).2, fun b hb => ?_⟩, rfl⟩
    · simp only [Mem.slabPop, NULL, htop, if_neg ha0, State.loadPtr, if_pos (ha.mapped h.region),
        Option.bind_eq_bind, Option.bind_some]
    · exact (h.slab b (by simp [hb])).congr ⟨rfl, rfl, rfl, rfl, rfl⟩

-- ---------------------------------------------------------------------------
-- Carving the slab region
-- ---------------------------------------------------------------------------

/-- The next slab down, unless the subtraction wraps to an unmapped address. -/
theorem State.Slab.next (h : s.Slab a) (hr : SlabRegion s) (hlen : s.mapLen < 2 ^ 31)
    (hm : s.Mapped (ptrAdd a (-s.roundedSlabAllocationSize)) 8) :
    s.Slab (ptrAdd a (-s.roundedSlabAllocationSize)) ∧
      ptrAdd a (-s.roundedSlabAllocationSize) < a := by
  obtain ⟨hu, hua, ha, hlo, hhi, hg⟩ := h
  obtain ⟨-, hstart, hstop, hadr⟩ := hr
  obtain ⟨hm1, hm2⟩ := hm
  have hle : s.roundedSlabAllocationSize ≤ a := by
    by_contra hlt
    simp only [ptrAdd, sizeT] at hm2
    omega
  have heq : (ptrAdd a (-s.roundedSlabAllocationSize) : Int) = a - s.roundedSlabAllocationSize := by
    simp only [ptrAdd, sizeT]
    omega
  refine ⟨⟨hu, hua, ?_, ?_, ?_, ?_⟩, ?_⟩
  · omega
  · omega
  · omega
  · rw [heq, show (s.nextFitRegionStartPtr : Int) - (a - s.roundedSlabAllocationSize) =
      s.nextFitRegionStartPtr - a + s.roundedSlabAllocationSize by omega]
    exact Int.dvd_add hg (Int.dvd_refl _)
  · omega

/-- No slab lies strictly between two neighbours of the grid. -/
theorem State.Slab.le_of_next_lt (h : s.Slab a) (hr : SlabRegion s) (hb : s.Slab b)
    (hlt : ptrAdd a (-s.roundedSlabAllocationSize) < b) : a ≤ b := by
  rcases h.apart hb with rfl | hab | hab
  · exact Nat.le_refl _
  · have := h.unit
    omega
  · -- then `b` is at most the next slab down
    have := h.unit
    have := h.high
    have := hr.stop_le
    have := hr.addressable
    simp only [ptrAdd, sizeT] at hlt
    omega

/-- The loop of `Mem_Init` moves the top of the stack and writes links. -/
theorem carveLoop_frame (h : Mem.carveLoop turns s itr = some s') :
    s' = { s with mem := s'.mem, topOfSlabStack := s'.topOfSlabStack } := by
  induction turns generalizing s itr with
  | zero => cases h
  | succ turns ih =>
    rw [Mem.carveLoop] at h
    split_ifs at h
    · cases h
      rfl
    · obtain ⟨s₁, hs₁, h⟩ := Option.bind_eq_some_iff.mp h
      have he := ih h
      rw [slabPush_eq hs₁] at he
      exact he

/-- The loop of `Mem_Init`, when it ends, has pushed every slab of the grid. -/
theorem Slabs.carveLoop (h : Slabs s L) (hc : Mem.carveLoop turns s itr = some s')
    (hitr : s.Mapped itr 8 → s.Slab itr ∧ ∀ a ∈ L, itr < a)
    (hall : ∀ a, s.Slab a → itr < a → a ∈ L) (hlen : s.mapLen < 2 ^ 31) :
    ∃ L', Slabs s' L' ∧ (∀ a, s.Slab a → a ∈ L') ∧
      s' = { s with mem := s'.mem, topOfSlabStack := s'.topOfSlabStack } := by
  induction turns generalizing s L itr with
  | zero => cases hc
  | succ turns ih =>
    rw [Mem.carveLoop] at hc
    by_cases hend : itr < s.regionStartPtr
    · rw [if_pos hend] at hc
      cases hc
      exact ⟨L, h, fun a ha => hall a ha (Nat.lt_of_lt_of_le hend ha.low), rfl⟩
    · rw [if_neg hend] at hc
      obtain ⟨s₁, hs₁, hc⟩ := Option.bind_eq_some_iff.mp hc
      obtain ⟨hslab, hbelow⟩ := hitr (slabPush_mapped hs₁).2
      obtain ⟨s₂, hs₂, h₂, he₂⟩ := h.slabPush hslab fun hm => Nat.lt_irrefl _ (hbelow itr hm)
      obtain rfl : s₁ = s₂ := Option.some.inj (hs₁.symm.trans hs₂)
      have hl : SameLayout s s₁ := by
        rw [he₂]
        exact ⟨rfl, rfl, rfl, rfl, rfl⟩
      have hnext : s₁.Mapped (ptrAdd itr (-s₁.roundedSlabAllocationSize)) 8 →
          s₁.Slab (ptrAdd itr (-s₁.roundedSlabAllocationSize)) ∧
            ∀ a ∈ itr :: L, ptrAdd itr (-s₁.roundedSlabAllocationSize) < a := fun hm => by
        obtain ⟨hs, hlt⟩ := (hslab.congr hl).next h₂.region (by rwa [hl.mapLen]) hm
        refine ⟨hs, fun a ha => ?_⟩
        rcases List.mem_cons.mp ha with rfl | ha
        · exact hlt
        · exact Nat.lt_trans hlt (hbelow a ha)
      have hall' : ∀ a, s₁.Slab a → ptrAdd itr (-s₁.roundedSlabAllocationSize) < a →
          a ∈ itr :: L := fun a ha hlt => by
        have hle := (hslab.congr hl).le_of_next_lt h₂.region ha hlt
        rcases Nat.lt_or_eq_of_le hle with hlt | rfl
        · exact List.mem_cons_of_mem _ (hall a (ha.congr hl.symm) hlt)
        · exact List.mem_cons_self
      obtain ⟨L', hL', hcov, he⟩ := ih h₂ hc hnext hall' (by rwa [hl.mapLen])
      refine ⟨L', hL', fun a ha => hcov a (ha.congr hl), ?_⟩
      rw [he, he₂]

end

end PerrOS.Mem
