import PerrOS.Mem.Threads

/-!
# One caller

`Mem_Alloc` and `Mem_Free` as single calls, and a program that makes them:
it allocates, frees any next-fit pointer and the slabs it holds, and stores
into the payloads it owns.
-/

namespace PerrOS.Mem

open Function (update)
open Lib (Memory Path Block System)
open Lib.Block (Tiles frees used Coalesced)

-- ---------------------------------------------------------------------------
-- The calls
-- ---------------------------------------------------------------------------

/-- The loop of `initToZero`. -/
def zeroLoop : Nat → State → Nat → Nat → Option State
  | 0, _, _, _ => none
  | turns + 1, s, itr, stop =>
    if itr < stop then do
      let s ← storeByte s itr 0
      zeroLoop turns s (itr + 1) stop
    else some s

/-- `initToZero(ret, isNextFit)`, run to its end. -/
def zeroed (s : State) (ret : Nat) (isNextFit : Bool) : Option State :=
  zeroLoop s.turns s (if isNextFit then ret + headerSize else ret)
    (ptrAdd ret s.roundedSlabAllocationSize)

/-- `Mem_Alloc` from where it takes `nextFitLock` on. -/
def allocNextFit (s : State) (size : Int) : Option (State × Nat) := do
  let (s, ret) ← nextFitAlloc s size
  if size = s.slabUnitSize ∧ ret ≠ NULL then do
    let s ← zeroed s ret true
    some (s, ret)
  else some (s, ret)

def memAlloc (s : State) (size : Int) : Option (State × Nat) :=
  if s.initializedOnce = false then some (s, NULL)
  else if size = s.slabUnitSize then do
    let (s, ret) ← slabPop s
    if ret ≠ NULL then do
      let s ← zeroed s ret false
      some (s, ret)
    else allocNextFit s size
  else allocNextFit s size

def memFree (s : State) (ptr : Nat) : Option (State × Int) :=
  match freeTarget s ptr with
  | .error => some (s, -1)
  | .slab => do
    let s ← slabPush s ptr
    some (s, 0)
  | .nextFit => nextFitFree s ptr

/-- A store of any width. -/
def storeBytes (s : State) (a : Nat) : List (BitVec 8) → Option State
  | [] => some s
  | v :: vs => do
    let s ← storeByte s a v
    storeBytes s (a + 1) vs

-- ---------------------------------------------------------------------------
-- The caller
-- ---------------------------------------------------------------------------

/-- The allocator, the pointers the caller holds with the sizes it asked for,
and the slabs that `Mem_Init` carved. -/
structure Client where
  state : State
  live : List (Nat × Int)
  bases : List Nat

namespace Client

inductive Call
  | memAlloc (size : Int)
  | memFree (ptr : Nat)
  | store (a : Nat) (bytes : List (BitVec 8))

def next (c : Client) : Call → Option Client
  | .memAlloc size =>
    if 0 ≤ size ∧ size < 2 ^ 31 then do
      let (s, p) ← memAlloc c.state size
      some { c with state := s, live := if p = NULL then c.live else (p, size) :: c.live }
    else none
  | .memFree ptr =>
    if c.state.nextFitRegionStartPtr ≤ ptr ∨ ptr ∈ c.live.map Prod.fst then do
      let (s, r) ← memFree c.state ptr
      some { c with
        state := s
        live := if r = 0 then c.live.filter fun q => decide (q.1 ≠ ptr) else c.live }
    else none
  | .store a bytes =>
    if ∃ q ∈ c.live, q.1 ≤ a ∧ (a : Int) + bytes.length ≤ q.1 + q.2 then do
      let s ← storeBytes c.state a bytes
      some { c with state := s }
    else none

/-- The states right after a successful `Mem_Init`. -/
def Started (sizeOfRegion slabSize : Int) (start : Nat) (c : Client) : Prop :=
  (∃ s₀ p, memInit s₀ sizeOfRegion slabSize (some start) = some (c.state, p) ∧ p ≠ NULL) ∧
    c.live = [] ∧ Path (ptrAt c.state.mem) c.state.topOfSlabStack c.bases NULL

def system (sizeOfRegion slabSize : Int) (start : Nat) : System Client Call :=
  .ofNext (Started sizeOfRegion slabSize start) next

/-- A caller that frees live pointers only, and stores anywhere in the blocks
it owns. -/
def liveNext (c : Client) : Call → Option Client
  | .memAlloc size => c.next (.memAlloc size)
  | .memFree ptr => if ptr ∈ c.live.map Prod.fst then c.next (.memFree ptr) else none
  | .store a bytes =>
    if ∃ q ∈ c.live, q.1 ≤ a ∧ (a : Int) + bytes.length ≤ q.1 + extent c.state q then do
      let s ← storeBytes c.state a bytes
      some { c with state := s }
    else none

def liveSystem (sizeOfRegion slabSize : Int) (start : Nat) : System Client Call :=
  .ofNext (Started sizeOfRegion slabSize start) liveNext

end Client

-- ---------------------------------------------------------------------------
-- Bytes of an allocation
-- ---------------------------------------------------------------------------

section
variable {sizeOfRegion slabSize size : Int} {start p x a : Nat} {s s' : State}
  {bs bs' : List (Block Int)} {L L' : List Nat} {owned owned' : List (Nat × Int)} {q : Nat × Int}

theorem Shares.sameLayout (h : Shares sizeOfRegion slabSize start s bs L owned)
    (h' : Shares sizeOfRegion slabSize start s' bs' L' owned') : SameLayout s s' := by
  have h1 := h.layout
  have h2 := h'.layout
  refine ⟨h2.regionStartPtr.trans h1.regionStartPtr.symm, h2.rounded.trans h1.rounded.symm, ?_,
    h2.mapStart.trans h1.mapStart.symm, ?_⟩
  · have := h1.nextFitRegionStartPtr
    have := h2.nextFitRegionStartPtr
    omega
  · have := h1.mapLen
    have := h2.mapLen
    omega

/-- A byte of an allocation can be stored. -/
theorem Shares.storeByte (h : Shares sizeOfRegion slabSize start s bs L owned) (h0 : 1 ≤ slabSize)
    (h1 : slabSize < 2 ^ 31) (hq : q ∈ owned) (hx : Covers s q x) (v : BitVec 8) :
    Mem.storeByte s x v = some { s with mem := update s.mem x v } ∧
      Shares sizeOfRegion slabSize start { s with mem := update s.mem x v } bs L owned := by
  obtain ⟨hlo, hhi, -⟩ := h.bounds h0 h1 hq
  obtain ⟨hx1, hx2⟩ := id hx
  exact ⟨if_pos ⟨by omega, by omega⟩, h.write hq hx v⟩

/-- The memory differs from that of `s` only at the `n` bytes from `a` on. -/
structure Stored (s s' : State) (a n : Nat) : Prop where
  rest : s' = { s with mem := s'.mem }
  bytes : ∀ x, x < a ∨ a + n ≤ x → s'.mem x = s.mem x

theorem Stored.sameLayout (h : Stored s s' a n) : SameLayout s s' := by
  rw [h.rest]
  exact ⟨rfl, rfl, rfl, rfl, rfl⟩

theorem Shares.storeBytes (h : Shares sizeOfRegion slabSize start s bs L owned) (h0 : 1 ≤ slabSize)
    (h1 : slabSize < 2 ^ 31) (hq : q ∈ owned) (vs : List (BitVec 8))
    (hx : ∀ x, a ≤ x → x < a + vs.length → Covers s q x) :
    ∃ s', Mem.storeBytes s a vs = some s' ∧ Stored s s' a vs.length ∧
      Shares sizeOfRegion slabSize start s' bs L owned := by
  induction vs generalizing s a with
  | nil => exact ⟨s, rfl, ⟨rfl, fun _ _ => rfl⟩, h⟩
  | cons v vs ih =>
    rw [List.length_cons] at hx
    obtain ⟨hs, h'⟩ := h.storeByte h0 h1 hq (hx a (Nat.le_refl _) (by omega)) v
    have hrest := ih (s := { s with mem := update s.mem a v }) (a := a + 1) h'
      fun y hy hy' => hx y (by omega) (by omega)
    obtain ⟨s', hs', hst, h''⟩ := hrest
    refine ⟨s', ?_, ⟨?_, fun y hy => ?_⟩, h''⟩
    · simp only [Mem.storeBytes, hs, Option.bind_eq_bind, Option.bind_some, hs']
    · rw [hst.rest]
    · rw [List.length_cons] at hy
      rw [hst.bytes y (by omega)]
      exact Function.update_of_ne (by omega) _ _

/-- Zeroing a part of an allocation. -/
theorem Shares.zeroLoop (h : Shares sizeOfRegion slabSize start s bs L owned) (h0 : 1 ≤ slabSize)
    (h1 : slabSize < 2 ^ 31) (hq : q ∈ owned) (ht : stop - a < turns)
    (hx : ∀ x, a ≤ x → x < stop → Covers s q x) :
    ∃ s', Mem.zeroLoop turns s a stop = some s' ∧ Stored s s' a (stop - a) ∧
      (∀ x, a ≤ x → x < stop → s'.mem x = 0) ∧ Shares sizeOfRegion slabSize start s' bs L owned := by
  induction turns generalizing s a with
  | zero => omega
  | succ turns ih =>
    by_cases hlt : a < stop
    · obtain ⟨hs, h'⟩ := h.storeByte h0 h1 hq (hx a (Nat.le_refl _) hlt) 0
      have hrest := ih (s := { s with mem := update s.mem a 0 }) (a := a + 1) h' (by omega)
        fun y hy hy' => hx y (by omega) hy'
      obtain ⟨s', hs', hst, hzero, h''⟩ := hrest
      refine ⟨s', ?_, ⟨?_, fun y hy => ?_⟩, fun y hy hy' => ?_, h''⟩
      · simp only [Mem.zeroLoop, if_pos hlt, hs, Option.bind_eq_bind, Option.bind_some, hs']
      · rw [hst.rest]
      · rw [hst.bytes y (by omega)]
        exact Function.update_of_ne (by omega) _ _
      · by_cases hya : y = a
        · rw [hst.bytes y (by omega), hya]
          exact Function.update_self _ _ _
        · exact hzero y (by omega) hy'
    · exact ⟨s, by rw [Mem.zeroLoop, if_neg hlt], ⟨rfl, fun _ _ => rfl⟩, fun y hy hy' => by omega, h⟩

/-- `initToZero` stays in the allocation that its call has just made. -/
theorem Shares.zeroed (h : Shares sizeOfRegion slabSize start s bs L ((p, slabSize) :: owned))
    (h0 : 1 ≤ slabSize) (h1 : slabSize < 2 ^ 31) (isNextFit : Bool) :
    ∃ s' a n, Mem.zeroed s p isNextFit = some s' ∧
      a = (if isNextFit then p + headerSize else p) ∧
      ((a + n : Nat) : Int) = max (a : Int) (p + s.roundedSlabAllocationSize) ∧ Stored s s' a n ∧
      (∀ x, a ≤ x → x < a + n → s'.mem x = 0) ∧
      Shares sizeOfRegion slabSize start s' bs L ((p, slabSize) :: owned) := by
  have hext : extent s (p, slabSize) = s.roundedSlabAllocationSize := by
    rw [extent, h.rounded]
    split_ifs <;> rfl
  obtain ⟨hlo, hhi, hsz⟩ := h.bounds h0 h1 (List.mem_cons_self (a := (p, slabSize)))
  have hadr := h.slabs.region.addressable
  rw [hext] at hhi hsz
  have hstop : (ptrAdd p s.roundedSlabAllocationSize : Int) = p + s.roundedSlabAllocationSize := by
    simp only [ptrAdd, sizeT]
    omega
  have hpa : p ≤ (if isNextFit then p + headerSize else p) := by
    split_ifs
    · exact Nat.le_add_right _ _
    · exact Nat.le_refl _
  obtain ⟨s', hs', hst, hzero, h'⟩ := h.zeroLoop
    (a := if isNextFit then p + headerSize else p) h0 h1 List.mem_cons_self
    (by simp only [State.turns]; omega :
      ptrAdd p s.roundedSlabAllocationSize - (if isNextFit then p + headerSize else p) < s.turns)
    fun y hy hy' => ⟨Nat.le_trans hpa hy, by rw [hext]; simp only; omega⟩
  exact ⟨s', _, _, hs', rfl, by omega, hst, fun y hy hy' => hzero y hy (by omega), h'⟩

-- ---------------------------------------------------------------------------
-- Mem_Alloc
-- ---------------------------------------------------------------------------

/-- How a call of `Mem_Alloc` goes: a slab is popped and zeroed, or the heap
serves it, and what the heap gave for the slab size is zeroed too. -/
inductive Served (s : State) (size : Int) : State → Nat → Prop
  | slab {s₁ s' : State} {p : Nat} : size = s.slabUnitSize → slabPop s = some (s₁, p) → p ≠ NULL →
      zeroed s₁ p false = some s' → Served s size s' p
  | heap {s' : State} {p : Nat} : (size = s.slabUnitSize → slabPop s = some (s, NULL)) →
      nextFitAlloc s size = some (s', p) → (size = s.slabUnitSize → p = NULL) →
      Served s size s' p
  | heapZeroed {s₁ s' : State} {p : Nat} : size = s.slabUnitSize → slabPop s = some (s, NULL) →
      nextFitAlloc s size = some (s₁, p) → p ≠ NULL → zeroed s₁ p true = some s' →
      Served s size s' p

theorem Shares.served (h : Shares sizeOfRegion slabSize start s bs L owned) (h0 : 1 ≤ slabSize)
    (h1 : slabSize < 2 ^ 31) (hs0 : 0 ≤ size) (hs1 : size < 2 ^ 31) (hs : Served s size s' p) :
    ∃ bs' L', Shares sizeOfRegion slabSize start s' bs' L'
      (if p = NULL then owned else (p, size) :: owned) := by
  have hunit : s.slabUnitSize = slabSize := h.layout.slabUnitSize
  cases hs with
  | slab hsz hpop hp hz =>
    obtain rfl := hsz.trans hunit
    rcases h.slabPop with hpop' | ⟨a, L', s₂, hpop', -, -, h₂⟩
    · exact absurd (Prod.mk.inj (Option.some.inj (hpop.symm.trans hpop'))).2 hp
    · cases hpop.symm.trans hpop'
      obtain ⟨s₃, a, n, hz', -, -, -, -, h₃⟩ := h₂.zeroed h0 h1 false
      cases hz.symm.trans hz'
      rw [if_neg hp]
      exact ⟨bs, L', h₃⟩
  | heap _ ha _ =>
    obtain ⟨s₁, q, bs', ha', hcase⟩ := h.nextFitAlloc hs0 hs1
    cases ha.symm.trans ha'
    refine ⟨bs', L, ?_⟩
    rcases hcase with ⟨hp, h'⟩ | ⟨hp, -, h'⟩
    · rwa [if_pos hp]
    · rwa [if_neg hp]
  | heapZeroed hsz _ ha hp hz =>
    obtain rfl := hsz.trans hunit
    obtain ⟨s₁, q, bs', ha', hcase⟩ := h.nextFitAlloc hs0 hs1
    cases ha.symm.trans ha'
    have h' := (hcase.resolve_left fun hn => hp hn.1).2.2
    obtain ⟨s₃, a, n, hz', -, -, -, -, h₃⟩ := h'.zeroed h0 h1 true
    cases hz.symm.trans hz'
    rw [if_neg hp]
    exact ⟨bs', L, h₃⟩

/-- `Mem_Alloc` returns. -/
theorem Shares.memAlloc (h : Shares sizeOfRegion slabSize start s bs L owned) (h0 : 1 ≤ slabSize)
    (h1 : slabSize < 2 ^ 31) (hs0 : 0 ≤ size) (hs1 : size < 2 ^ 31) :
    ∃ s' p, Mem.memAlloc s size = some (s', p) ∧ Served s size s' p := by
  have hinit : ¬s.initializedOnce = false := by simp [h.layout.initialized]
  have hunit : s.slabUnitSize = slabSize := h.layout.slabUnitSize
  obtain ⟨s₁, p, bs', ha, hcase⟩ := h.nextFitAlloc hs0 hs1
  have hunit₁ : s₁.slabUnitSize = slabSize := by
    rcases hcase with ⟨-, h'⟩ | ⟨-, -, h'⟩
    · exact h'.layout.slabUnitSize
    · exact h'.layout.slabUnitSize
  by_cases hsz : size = slabSize
  · subst hsz
    rcases h.slabPop with hpop | ⟨a, L', s₂, hpop, hne, -, h₂⟩
    · by_cases hp : p = NULL
      · refine ⟨s₁, p, ?_, .heap (fun _ => hpop) ha fun _ => hp⟩
        simp only [Mem.memAlloc, if_neg hinit, hunit, if_true, hpop, Option.bind_eq_bind,
          Option.bind_some, ne_eq, not_true_eq_false, if_false, Mem.allocNextFit, ha, hp, and_false]
      · obtain ⟨-, -, h'⟩ := hcase.resolve_left fun hn => hp hn.1
        obtain ⟨s₃, -, -, hz, -⟩ := h'.zeroed h0 h1 true
        refine ⟨s₃, p, ?_, .heapZeroed hunit.symm hpop ha hp hz⟩
        simp only [Mem.memAlloc, if_neg hinit, hunit, if_true, hpop, Option.bind_eq_bind,
          Option.bind_some, ne_eq, not_true_eq_false, if_false, Mem.allocNextFit, ha, hunit₁, hz]
        rw [if_pos ⟨trivial, hp⟩]
    · obtain ⟨s₃, -, -, hz, -⟩ := h₂.zeroed h0 h1 false
      refine ⟨s₃, a, ?_, .slab hunit.symm hpop hne hz⟩
      simp only [Mem.memAlloc, if_neg hinit, hunit, if_true, hpop, Option.bind_eq_bind,
        Option.bind_some, hz]
      rw [if_pos hne]
  · refine ⟨s₁, p, ?_, .heap (fun he => absurd (he.trans hunit) hsz) ha
      fun he => absurd (he.trans hunit) hsz⟩
    simp only [Mem.memAlloc, if_neg hinit, hunit, hsz, if_false, Mem.allocNextFit, ha,
      Option.bind_eq_bind, Option.bind_some, hunit₁, false_and]

-- ---------------------------------------------------------------------------
-- Mem_Free
-- ---------------------------------------------------------------------------

theorem Shares.ptr_aligned (h : Shares sizeOfRegion slabSize start s bs L owned) (hq : q ∈ owned) :
    q.1 % 16 = 0 := by
  by_cases hlo : q.1 < s.nextFitRegionStartPtr
  · exact (h.slab q hq hlo).1.aligned
  · obtain ⟨b, hb, -, hqb⟩ := h.block q hq (Nat.not_lt.mp hlo)
    have := h.heap.addr_aligned hb
    simp only [headerSize] at hqb
    omega

/-- What `Mem_Free` makes of an address before it takes a lock. -/
theorem Shares.freeTarget_cases (h : Shares sizeOfRegion slabSize start s bs L owned)
    (hr : Request sizeOfRegion start) (h0 : 1 ≤ slabSize) (h1 : slabSize < 2 ^ 31) (p : Nat) :
    (freeTarget s p = .slab ∧ s.Slab p) ∨
    (freeTarget s p = .nextFit ∧ s.nextFitRegionStartPtr ≤ p ∧ p % 16 = 0 ∧
      p ≤ s.mapStart + s.mapLen) ∨
    (freeTarget s p = .error ∧ ¬s.Slab p ∧
      (s.nextFitRegionStartPtr ≤ p → p % 16 ≠ 0 ∨ s.mapStart + s.mapLen < p)) := by
  have hreg := h.slabs.region
  have hpos := hreg.start_pos
  have hstart := hreg.start_eq
  have hstop := hreg.stop_le
  have hlow := h.heap.region.start_le
  have hlen := h.layout.mapLen
  have hinit : ¬s.initializedOnce = false := by simp [h.layout.initialized]
  have hend : ptrAdd s.regionStartPtr s.sizeOfRegion = s.mapStart + s.mapLen := by
    have := hr.addressable
    have := h.layout.mapStart
    rw [h.layout.size_eq]
    simp only [ptrAdd, sizeT]
    omega
  have hint := h.heap.region.int_size
  by_cases hout : p = NULL ∨ p < s.regionStartPtr ∨ p > s.mapStart + s.mapLen
  · refine .inr (.inr ⟨?_, fun hs => ?_, fun hn => ?_⟩)
    · rw [freeTarget, if_neg hinit, hend, if_pos hout]
    · have := hs.low
      have := hs.high
      have := hs.unit
      simp only [NULL] at hout
      omega
    · simp only [NULL] at hout
      omega
  · by_cases hal : (p : Int) % ALIGN_SIZE ≠ 0
    · refine .inr (.inr ⟨?_, fun hs => ?_, fun _ => .inl ?_⟩)
      · rw [freeTarget, if_neg hinit, hend, if_neg hout, if_pos hal]
      · have := hs.aligned
        simp only [ALIGN_SIZE] at hal
        omega
      · simp only [ALIGN_SIZE] at hal
        omega
    · have hp16 : p % 16 = 0 := by
        simp only [ALIGN_SIZE] at hal
        omega
      by_cases hlo : p < s.nextFitRegionStartPtr
      · have hdist : int32 (s.nextFitRegionStartPtr - p) = s.nextFitRegionStartPtr - p := by
          rw [int32, Int.bmod]
          split <;> omega
        by_cases hgrid : (int32 (s.nextFitRegionStartPtr - p)).tmod s.roundedSlabAllocationSize ≠ 0
        · refine .inr (.inr ⟨?_, fun hs => ?_, fun hn => by omega⟩)
          · rw [freeTarget, if_neg hinit, hend, if_neg hout, if_neg hal, if_pos hlo, if_pos hgrid]
          · rw [hdist] at hgrid
            exact hgrid (Int.tmod_eq_zero_of_dvd hs.grid)
        · refine .inl ⟨?_, ?_⟩
          · rw [freeTarget, if_neg hinit, hend, if_neg hout, if_neg hal, if_pos hlo, if_neg hgrid]
          · have hdvd : s.roundedSlabAllocationSize ∣ s.nextFitRegionStartPtr - p := by
              rw [hdist] at hgrid
              exact Int.dvd_of_tmod_eq_zero (not_not.mp hgrid)
            have hle := Int.le_of_dvd (by omega) hdvd
            have hround := h.rounded
            rcases fitToAlignSize_cases (Int.le_trans (by decide) h0) h1 with
              ⟨k, hk, hka, hsz, -, -⟩ | hw
            · have hge : s.regionStartPtr ≤ p := by
                simp only [NULL] at hout
                omega
              exact ⟨by omega, by omega, hp16, hge, by omega, hdvd⟩
            · -- the rounded size has wrapped to `-2 ^ 31`, which divides no distance
              have hwrap : s.roundedSlabAllocationSize = -2147483648 := hround.trans hw
              rw [hwrap, Int.neg_dvd] at hdvd
              have := Int.le_of_dvd (by omega) hdvd
              omega
      · refine .inr (.inl ⟨?_, Nat.not_lt.mp hlo, hp16, ?_⟩)
        · rw [freeTarget, if_neg hinit, hend, if_neg hout, if_neg hal, if_neg hlo]
        · simp only [NULL] at hout
          omega

/-- In the slab quarter exactly the slabs are taken, live or not. -/
theorem Shares.memFree_slab (h : Shares sizeOfRegion slabSize start s bs L owned)
    (hr : Request sizeOfRegion start) (h0 : 1 ≤ slabSize) (h1 : slabSize < 2 ^ 31)
    (hlo : p < s.nextFitRegionStartPtr) :
    (s.Slab p → ∃ s', Mem.slabPush s p = some s' ∧ memFree s p = some (s', 0)) ∧
      (¬s.Slab p → memFree s p = some (s, -1)) := by
  rcases h.freeTarget_cases hr h0 h1 p with ⟨ht, hslab⟩ | ⟨-, hn, -⟩ | ⟨ht, hn, -⟩
  · refine ⟨fun _ => ?_, fun hn => absurd hslab hn⟩
    have hnull := hslab.ne_null h.slabs.region
    have hm := hslab.mapped h.slabs.region
    have hpush : Mem.slabPush s p =
        some { s with mem := setPtr s.mem p s.topOfSlabStack, topOfSlabStack := p } := by
      simp only [Mem.slabPush, if_neg hnull, State.storePtr, if_pos hm, Option.bind_eq_bind,
        Option.bind_some]
    exact ⟨_, hpush, by simp only [memFree, ht, hpush, Option.bind_eq_bind, Option.bind_some]⟩
  · omega
  · exact ⟨fun hs => absurd hs hn, fun _ => by rw [memFree, ht]⟩

/-- `Mem_Free` takes what is live. -/
theorem Shares.memFree_live (h : Shares sizeOfRegion slabSize start s bs L owned)
    (hr : Request sizeOfRegion start) (h0 : 1 ≤ slabSize) (h1 : slabSize < 2 ^ 31)
    (hq : q ∈ owned) :
    ∃ s' bs' L', Mem.memFree s q.1 = some (s', 0) ∧
      (s.nextFitRegionStartPtr ≤ q.1 → Mem.nextFitFree s q.1 = some (s', 0)) ∧
      Shares sizeOfRegion slabSize start s' bs' L' (owned.filter fun r => decide (r.1 ≠ q.1)) := by
  by_cases hlo : s.nextFitRegionStartPtr ≤ q.1
  · obtain ⟨s', bs', hs, h'⟩ := h.nextFitFree hq hlo
    refine ⟨s', bs', L, ?_, fun _ => hs, h'⟩
    rcases h.freeTarget_cases hr h0 h1 q.1 with ⟨-, hslab⟩ | ⟨ht, -⟩ | ⟨-, -, hn⟩
    · have := hslab.high
      have := hslab.unit
      omega
    · rw [Mem.memFree, ht]
      exact hs
    · obtain ⟨b, hb, hbu, hqb⟩ := h.block q hq hlo
      have := h.bounds h0 h1 hq
      have := (h.heap.size_le hb hbu).1
      have := h.ptr_aligned hq
      have := hn hlo
      omega
  · have hlo' := Nat.not_le.mp hlo
    obtain ⟨s', hpush, h'⟩ := h.slabPush hq hlo'
    obtain ⟨s'', hpush', hs⟩ := (h.memFree_slab hr h0 h1 hlo').1 (h.slab q hq hlo').1
    cases hpush.symm.trans hpush'
    exact ⟨s', bs, _, hs, fun hn => absurd hn hlo, h'⟩

-- ---------------------------------------------------------------------------
-- Every run
-- ---------------------------------------------------------------------------

/-- The region is shared out between the caller and the allocator. -/
structure Client.Shared (sizeOfRegion slabSize : Int) (start : Nat) (c : Client)
    (bs : List (Block Int)) (L : List Nat) : Prop where
  shares : Shares sizeOfRegion slabSize start c.state bs L c.live
  bases : ∀ a, a ∈ c.bases ↔ c.state.Slab a
  slabSize_pos : 1 ≤ slabSize
  size_ge : 4 ≤ sizeOfRegion

variable {c c' : Client}

theorem Client.started_shared (hr : Request sizeOfRegion start) (h1 : slabSize < 2 ^ 31)
    (h : Client.Started sizeOfRegion slabSize start c) :
    c.Shared sizeOfRegion slabSize start [wholeBlock c.state] c.bases := by
  obtain ⟨⟨s₀, p, hm, hp⟩, hlive, hpath⟩ := h
  obtain ⟨-, hf⟩ := memInit_spec hm hp hr h1
  obtain ⟨L, hL, hall⟩ := hf.slabs
  obtain rfl : c.bases = L := hpath.unique hL.path
  refine ⟨⟨hf.toLaidOut, hf.heap, hL, fun a ha => .inl (hall a ha), ?_, ?_, ?_, ?_⟩,
    fun a => ⟨hL.slab a, hall a⟩, hf.slabSize_pos, hf.size_ge⟩
  · simp [hlive]
  · simp [hlive]
  · simp [hlive]
  · simp [hlive]

/-- A call that keeps the layout keeps the slabs. -/
theorem Client.Shared.of_shares (h : c.Shared sizeOfRegion slabSize start bs L)
    (h' : Shares sizeOfRegion slabSize start s' bs' L' owned') :
    Client.Shared sizeOfRegion slabSize start { c with state := s', live := owned' } bs' L' := by
  have hl := h.shares.sameLayout h'
  exact ⟨h', fun a => (h.bases a).trans ⟨fun ha => ha.congr hl, fun ha => ha.congr hl.symm⟩,
    h.slabSize_pos, h.size_ge⟩

/-- What every call preserves. -/
theorem Client.Shared.next (h : c.Shared sizeOfRegion slabSize start bs L)
    (hr : Request sizeOfRegion start) (h1 : slabSize < 2 ^ 31) (hn : c.liveNext l = some c') :
    ∃ bs' L', c'.Shared sizeOfRegion slabSize start bs' L' := by
  cases l with
  | memAlloc size =>
    simp only [Client.liveNext, Client.next] at hn
    split_ifs at hn with hs
    obtain ⟨s, p, hs', hserved⟩ := h.shares.memAlloc h.slabSize_pos h1 hs.1 hs.2
    obtain ⟨bs', L', h'⟩ := h.shares.served h.slabSize_pos h1 hs.1 hs.2 hserved
    rw [hs'] at hn
    cases hn
    exact ⟨bs', L', h.of_shares h'⟩
  | memFree p =>
    simp only [Client.liveNext, Client.next] at hn
    split_ifs at hn with hlive hp
    obtain ⟨q, hq, rfl⟩ := List.mem_map.mp hlive
    obtain ⟨s', bs', L', hs, -, h'⟩ := h.shares.memFree_live hr h.slabSize_pos h1 hq
    rw [hs] at hn
    cases hn
    exact ⟨bs', L', h.of_shares h'⟩
  | store a vs =>
    simp only [Client.liveNext] at hn
    split_ifs at hn with hq
    obtain ⟨q, hq, hlo, hhi⟩ := hq
    obtain ⟨s', hs', -, h'⟩ := h.shares.storeBytes (a := a) h.slabSize_pos h1 hq vs
      fun x hx hx' => ⟨by omega, by omega⟩
    rw [hs'] at hn
    cases hn
    exact ⟨bs, L, h.of_shares h'⟩

/-- What holds in every reachable state. -/
theorem Client.reachable_shared (hr : Request sizeOfRegion start) (h1 : slabSize < 2 ^ 31)
    (h : (Client.liveSystem sizeOfRegion slabSize start).Reachable c) :
    ∃ bs L, c.Shared sizeOfRegion slabSize start bs L := by
  refine h.invariant (P := fun c => ∃ bs L, Client.Shared sizeOfRegion slabSize start c bs L)
    (fun c hc => ⟨_, _, Client.started_shared hr h1 hc⟩) ?_
  rintro c l c' - ⟨bs, L, hshared⟩ hs
  exact hshared.next hr h1 hs

end

end PerrOS.Mem
