import PerrOS.Mem.Client

/-!
# Zeroed requests

`Mem_Alloc` zeroes what it returns for the slab size. A slab is zeroed whole.
What the heap returns is a pointer past the header, and `initToZero` skips a
header once more: the first 16 bytes stay as they were.
-/

namespace PerrOS.Mem

open Lib (Memory Path Block System)
open Lib.Block (Tiles frees used)

/-- The block that the heap would use for the slab size, if any, begins with
16 bytes of zeros. -/
def CleanFit (s : State) (bs : List (Block Int)) : Prop :=
  ∀ b, (searchOrder s.nextPtr bs).find? (Fits · s.slabUnitSize) = some b →
    ∀ x, b.addr + headerSize ≤ x → x < b.addr + 2 * headerSize → s.mem x = 0

section
variable {sizeOfRegion slabSize size : Int} {start p x : Nat} {s s₁ s' : State}
  {bs pre post : List (Block Int)} {b : Block Int} {L : List Nat} {owned : List (Nat × Int)}
  {c : Client}

/-- Carving a block leaves the bytes that it hands out alone. -/
theorem Carved.payload (h : Carved s s' pre b post k size) (hb : Blocks s (pre ++ b :: post))
    (hk : k ≤ b.len) (hlo : b.addr + headerSize ≤ x) (hhi : x < b.addr + headerSize + k) :
    s'.mem x = s.mem x := by
  have hbm : b ∈ pre ++ b :: post := by simp
  simp only [headerSize] at hlo hhi
  refine h.edit.bytes x fun a ha => ?_
  rcases List.mem_append.mp ha with ha | ha
  · obtain ⟨d, hd, -, rfl⟩ := Block.mem_frees.mp ha
    rcases hb.tiles.apart hbm hd with rfl | hap | hap
    · omega
    · simp only [Block.stop, headerSize] at hap
      omega
    · simp only [Block.stop, headerSize] at hap
      omega
  · by_cases he : b.len = k
    · simp [frees_carve_exact he] at ha
    · rw [frees_carve_split he, List.mem_singleton] at ha
      simp only [headerSize] at ha
      omega

/-- What `initToZero` does to a new allocation of the slab size. -/
theorem Shares.zeroed_bytes (h : Shares sizeOfRegion slabSize start s bs L ((p, slabSize) :: owned))
    (h0 : 1 ≤ slabSize) (h1 : slabSize < 2 ^ 31) (hz : Mem.zeroed s p isNextFit = some s') :
    16 ≤ s.roundedSlabAllocationSize ∧
      (∀ x, (if isNextFit then p + headerSize else p) ≤ x →
        (x : Int) < p + s.roundedSlabAllocationSize → s'.mem x = 0) ∧
      ∀ x, x < (if isNextFit then p + headerSize else p) ∨
        (p : Int) + s.roundedSlabAllocationSize ≤ x → s'.mem x = s.mem x := by
  have hunit : 16 ≤ s.roundedSlabAllocationSize := by
    have hsize := (h.bounds h0 h1 List.mem_cons_self).2.2
    have hround := h.rounded
    have hext : extent s (p, slabSize) = fitToAlignSize slabSize := by
      rw [extent, hround]
      split_ifs <;> rfl
    rcases fitToAlignSize_cases (Int.le_trans (by decide) h0) h1 with ⟨k, hk, hka, -, -, -⟩ | hw
    · simp only at hsize
      omega
    · simp only at hsize
      omega
  obtain ⟨s'', a, n, hz', ha, hstop, hst, hzero, -⟩ := h.zeroed h0 h1 isNextFit
  cases hz.symm.trans hz'
  rw [← ha]
  have hap : (a : Int) ≤ p + s.roundedSlabAllocationSize := by
    rw [ha, headerSize]
    split_ifs <;> omega
  exact ⟨hunit, fun x hx hx' => hzero x hx (by omega), fun x hx => hst.bytes x (by omega)⟩

/-- The state in which `Mem_Alloc` starts to zero the allocation at `p`. -/
def Obtained (s s₁ : State) (p : Nat) : Bool → Prop
  | false => slabPop s = some (s₁, p)
  | true => nextFitAlloc s s.slabUnitSize = some (s₁, p)

theorem slabPop_top (h : slabPop s = some (s₁, p)) : s.topOfSlabStack = p := by
  unfold slabPop at h
  split_ifs at h with htop
  · cases h
    exact htop
  · obtain ⟨next, -, h⟩ := Option.bind_eq_some_iff.mp h
    cases h
    rfl

/-- The heap does not write to what it returns for the slab size. -/
theorem Shares.cleanFit_iff (h : Shares sizeOfRegion slabSize start s bs L owned)
    (hs0 : 0 ≤ s.slabUnitSize) (hs1 : s.slabUnitSize < 2 ^ 31)
    (ha : Mem.nextFitAlloc s s.slabUnitSize = some (s₁, p)) (hp : p ≠ NULL)
    (hge : 16 ≤ s.roundedSlabAllocationSize) :
    CleanFit s bs ↔ ∀ x, p ≤ x → x < p + headerSize → s₁.mem x = 0 := by
  have hsearch := h.heap.searched hs0 hs1
  rw [ha, Searched] at hsearch
  cases hf : (searchOrder s.nextPtr bs).find? (Fits · s.slabUnitSize) with
  | none =>
    simp only [hf] at hsearch
    obtain ⟨q, -, hr⟩ := hsearch
    exact absurd (Prod.mk.inj (Option.some.inj hr)).2 hp
  | some b =>
    simp only [hf] at hsearch
    obtain ⟨pre, post, k, s₂, rfl, hr, hc⟩ := hsearch
    cases hr
    have hbm : b ∈ pre ++ b :: post := by simp
    have hfits : Fits b s.slabUnitSize := by simpa using List.find?_some hf
    obtain ⟨k', hk', -, hle⟩ := hfits.carves hs0 hs1 (h.heap.len_lt hbm) (h.heap.fitted b hbm).aligned
    obtain rfl : k = k' := Int.ofNat.inj (hc.fit.symm.trans hk')
    have hunit : s.roundedSlabAllocationSize = k := by
      rw [h.rounded, ← h.layout.slabUnitSize]
      exact hk'
    have hsame : ∀ x, b.addr + headerSize ≤ x → x < b.addr + 2 * headerSize →
        s₁.mem x = s.mem x := fun x hx hx' =>
      hc.payload h.heap.toBlocks (by omega) hx (by simp only [headerSize] at hx' ⊢; omega)
    constructor
    · intro hclean x hx hx'
      have hx' : x < b.addr + 2 * headerSize := by omega
      rw [hsame x hx hx']
      exact hclean b hf x hx hx'
    · intro hzero d hd x hx hx'
      obtain rfl := Option.some.inj (hf.symm.trans hd)
      rw [← hsame x hx hx']
      exact hzero x hx (by omega)

/-- A request of the slab size comes back zeroed exactly when it is a slab, or
the block that the heap uses begins with zeros. -/
theorem Shares.slab_request (h : Shares sizeOfRegion slabSize start s bs L owned)
    (h0 : 1 ≤ slabSize) (h1 : slabSize < 2 ^ 31) (hs : Served s s.slabUnitSize s' p)
    (hp : p ≠ NULL) :
    ((∀ x, p ≤ x → (x : Int) < p + s.roundedSlabAllocationSize → s'.mem x = 0) ↔
      s.topOfSlabStack ≠ NULL ∨ CleanFit s bs) ∧
    ∃ s₁ isNextFit, Obtained s s₁ p isNextFit ∧ Mem.zeroed s₁ p isNextFit = some s' ∧
      ∀ x, x < p ∨ (p : Int) + s.roundedSlabAllocationSize ≤ x → s'.mem x = s₁.mem x := by
  have hunit : s.slabUnitSize = slabSize := h.layout.slabUnitSize
  cases hs with
  | @slab s₁ s' p _ hpop hp hz =>
    rcases h.slabPop with hpop' | ⟨a, L', s₂, hpop', -, -, h₂⟩
    · exact absurd (Prod.mk.inj (Option.some.inj (hpop.symm.trans hpop'))).2 hp
    · cases hpop.symm.trans hpop'
      have hround : s₁.roundedSlabAllocationSize = s.roundedSlabAllocationSize :=
        h₂.rounded.trans h.rounded.symm
      obtain ⟨-, hzero, hkeep⟩ := h₂.zeroed_bytes h0 h1 hz
      rw [hround] at hzero hkeep
      refine ⟨iff_of_true hzero (.inl ?_), s₁, false, hpop, hz, hkeep⟩
      rwa [slabPop_top hpop]
  | heap _ _ hnull => exact absurd (hnull rfl) hp
  | @heapZeroed s₁ s' p _ hpop ha hp hz =>
    have hs0 : 0 ≤ s.slabUnitSize := by omega
    have hs1 : s.slabUnitSize < 2 ^ 31 := by omega
    obtain ⟨s₂, q, bs', ha', hcase⟩ := h.nextFitAlloc hs0 hs1
    cases ha.symm.trans ha'
    obtain ⟨-, -, h'⟩ := hcase.resolve_left fun hn => hp hn.1
    rw [hunit] at h'
    have hround : s₁.roundedSlabAllocationSize = s.roundedSlabAllocationSize :=
      h'.rounded.trans h.rounded.symm
    obtain ⟨hge, hzero, hkeep⟩ := h'.zeroed_bytes h0 h1 hz
    rw [hround] at hge hzero hkeep
    simp only [if_true] at hzero hkeep
    refine ⟨?_, s₁, true, ha, hz, fun x hx => hkeep x (by omega)⟩
    have hclean := h.cleanFit_iff hs0 hs1 ha hp hge
    rw [slabPop_top hpop, or_iff_right (not_not_intro rfl), hclean]
    constructor
    · intro hall x hx hx'
      rw [← hall x hx (by simp only [headerSize] at hx'; omega)]
      exact (hkeep x (.inl hx')).symm
    · intro hfirst x hx hx'
      by_cases hlow : x < p + headerSize
      · rw [hkeep x (.inl hlow)]
        exact hfirst x hx hlow
      · exact hzero x (Nat.not_lt.mp hlow) hx'

/-- In every reachable state a request of the slab size comes back zeroed
exactly when a slab is left or the block that the heap uses begins with zeros,
and zeroing changes nothing outside what is returned. -/
theorem slab_request_zeroed (hr : Request sizeOfRegion start) (h1 : slabSize < 2 ^ 31)
    (h : (Client.liveSystem sizeOfRegion slabSize start).Reachable c) :
    ∃ bs, Heap c.state bs ∧ ∀ s' p,
      memAlloc c.state c.state.slabUnitSize = some (s', p) → p ≠ NULL →
        ((∀ x, p ≤ x → (x : Int) < p + c.state.roundedSlabAllocationSize → s'.mem x = 0) ↔
          c.state.topOfSlabStack ≠ NULL ∨ CleanFit c.state bs) ∧
        ∃ s₁ isNextFit, Obtained c.state s₁ p isNextFit ∧ zeroed s₁ p isNextFit = some s' ∧
          ∀ x, x < p ∨ (p : Int) + c.state.roundedSlabAllocationSize ≤ x →
            s'.mem x = s₁.mem x := by
  obtain ⟨bs, L, hshares, -, h0, -⟩ := Client.reachable_shared hr h1 h
  have hunit : c.state.slabUnitSize = slabSize := hshares.layout.slabUnitSize
  refine ⟨bs, hshares.heap, fun s' p hs hp => hshares.slab_request h0 h1 ?_ hp⟩
  have hret : ∃ s' p, memAlloc c.state c.state.slabUnitSize = some (s', p) ∧
      Served c.state c.state.slabUnitSize s' p := hshares.memAlloc h0 h1 (by omega) (by omega)
  obtain ⟨s'', p', hs', hserved⟩ := hret
  cases hs.symm.trans hs'
  exact hserved

/-- `Mem_Init(64, 1)` at address 4096, whose one slab is at 4096. -/
theorem started_client_64 : ∃ s, Client.Started 64 1 4096 ⟨s, [], [4096]⟩ ∧
    memInit State.static 64 1 (some 4096) = some (s, 4096) := by
  obtain ⟨s, hs⟩ := started_64
  have hlinks : ((memInit State.static 64 1 (some 4096)).map fun r =>
      (r.1.topOfSlabStack, ptrAt r.1.mem 4096)) = some (4096, 0) := by decide +kernel
  rw [hs, Option.map_some, Option.some_inj, Prod.mk.injEq] at hlinks
  exact ⟨s, ⟨⟨State.static, 4096, hs, by decide⟩, rfl, hlinks.1, by decide, hlinks.2⟩, hs⟩

theorem slab_request_zeroed_64 : ∃ c : Client, c.bases = [4096] ∧ ∃ bs, Heap c.state bs ∧
    ∀ s' p, memAlloc c.state c.state.slabUnitSize = some (s', p) → p ≠ NULL →
      ((∀ x, p ≤ x → (x : Int) < p + c.state.roundedSlabAllocationSize → s'.mem x = 0) ↔
        c.state.topOfSlabStack ≠ NULL ∨ CleanFit c.state bs) := by
  obtain ⟨s, hs, -⟩ := started_client_64
  obtain ⟨bs, hheap, hzero⟩ := slab_request_zeroed request_64 (by decide) (.init hs)
  exact ⟨⟨s, [], [4096]⟩, rfl, bs, hheap, fun s' p ha hp => (hzero s' p ha hp).1⟩

/-- The slab is taken, the next request is served by the heap at 4128, written
to and freed; the third one is served there again and still holds the byte. -/
theorem slab_request_dirty : ¬ ∀ (sizeOfRegion slabSize : Int) (start p : Nat) (c : Client)
    (s' : State), Request sizeOfRegion start → slabSize < 2 ^ 31 →
    (Client.liveSystem sizeOfRegion slabSize start).Reachable c →
    memAlloc c.state c.state.slabUnitSize = some (s', p) → p ≠ NULL →
    ∀ x, p ≤ x → (x : Int) < p + c.state.roundedSlabAllocationSize → s'.mem x = 0 := by
  intro h
  obtain ⟨s, hstarted, hs⟩ := started_client_64
  have hrun : ((memInit State.static 64 1 (some 4096)).bind fun r =>
      (System.exec Client.liveNext ⟨r.1, [], [4096]⟩
        [.memAlloc 1, .memAlloc 1, .store 4128 [1], .memFree 4128]).bind fun c =>
        (memAlloc c.state c.state.slabUnitSize).map fun r' =>
          (r'.2, c.state.roundedSlabAllocationSize, r'.1.mem 4128)) = some (4128, 16, 1) := by
    decide +kernel
  rw [hs, Option.bind_some] at hrun
  obtain ⟨c, hc, hrun⟩ := Option.bind_eq_some_iff.mp hrun
  obtain ⟨⟨s', p⟩, ha, hrun⟩ := Option.map_eq_some_iff.mp hrun
  obtain ⟨rfl, hrun⟩ := Prod.mk.inj hrun
  obtain ⟨hround, hbyte⟩ := Prod.mk.inj hrun
  have hreach : (Client.liveSystem 64 1 4096).Reachable c := ⟨_, System.run_exec hstarted hc⟩
  have hzero := h 64 1 4096 4128 c s' request_64 (by decide) hreach ha (by decide) 4128
    (Nat.le_refl _) (by rw [hround]; decide)
  rw [hbyte] at hzero
  exact absurd hzero (by decide)

end

end PerrOS.Mem
