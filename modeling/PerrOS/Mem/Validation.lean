import PerrOS.Mem.Client

/-!
# Which pointers Mem_Free takes

`Mem_Free` trusts the word where a header would keep its `magic`, and for
slabs the distance from the next-fit region. While no caller stores `MAGIC`
where a header could be, the word is `MAGIC` in front of live pointers only:
whatever the header words of earlier blocks have become, it is not that.
-/

namespace PerrOS.Mem

open Function (update)
open Lib (Memory Path Block System)
open Lib.Block (Tiles frees used Coalesced)

/-- Some granule that the `n` bytes at `a` reach holds `MAGIC` at offset 8. -/
def Stamps (m : Memory) (a n : Nat) : Prop :=
  ∃ g, g % 16 = 0 ∧ a < g + 16 ∧ g + 8 < a + n ∧ nextAt m g = MAGIC

/-- No payload comes to hold `MAGIC` at offset 8 of a granule. -/
def Client.honest (c : Client) : Client.Call → Prop
  | .store a bytes => ∀ s, storeBytes c.state a bytes = some s → ¬Stamps s.mem a bytes.length
  | _ => True

/-- `MAGIC` stands in the headers of live next-fit allocations only. -/
def Genuine (s : State) (live : List (Nat × Int)) : Prop :=
  ∀ g, g % 16 = 0 → s.Mapped g 16 → nextAt s.mem g = MAGIC →
    s.nextFitRegionStartPtr ≤ g ∧ g + headerSize ∈ live.map Prod.fst

/-- What holds between two calls. -/
structure Client.Inv (sizeOfRegion slabSize : Int) (start : Nat) (c : Client)
    (bs : List (Block Int)) (L : List Nat) : Prop where
  shares : Shares sizeOfRegion slabSize start c.state bs L c.live
  genuine : Genuine c.state c.live
  bases : ∀ a, a ∈ c.bases ↔ c.state.Slab a
  slabSize_pos : 1 ≤ slabSize
  size_ge : 4 ≤ sizeOfRegion

section
variable {sizeOfRegion slabSize size : Int} {start p x a n : Nat} {s s' : State}
  {bs : List (Block Int)} {L : List Nat} {live live' : List (Nat × Int)} {q : Nat × Int}
  {c c' : Client}

-- ---------------------------------------------------------------------------
-- Header words
-- ---------------------------------------------------------------------------

theorem Genuine.of_words (h : Genuine s live) (hl : SameLayout s s')
    (hw : ∀ g, g % 16 = 0 → s.Mapped g 16 → nextAt s'.mem g = MAGIC → nextAt s.mem g = MAGIC)
    (hlive : ∀ q ∈ live, q.1 ∈ live'.map Prod.fst) : Genuine s' live' := by
  intro g hg hmap hm
  have hmap : s.Mapped g 16 := by
    rwa [State.Mapped, hl.mapStart, hl.mapLen] at hmap
  obtain ⟨hlo, hmem⟩ := h g hg hmap (hw g hg hmap hm)
  obtain ⟨q, hq, hqg⟩ := List.mem_map.mp hmem
  exact ⟨hl.stop ▸ hlo, hqg ▸ hlive q hq⟩

/-- A store that stamps no granule it reaches. -/
theorem Genuine.stored (h : Genuine s live) (hst : Stored s s' a n) (hn : ¬Stamps s'.mem a n) :
    Genuine s' live := by
  refine h.of_words hst.sameLayout (fun g hg _ hm => ?_) fun q hq => List.mem_map_of_mem hq
  by_cases hreach : a < g + 16 ∧ g + 8 < a + n
  · exact absurd ⟨g, hg, hreach.1, hreach.2, hm⟩ hn
  · rwa [← show nextAt s'.mem g = nextAt s.mem g from
      ptrAt_congr fun x _ _ => hst.bytes x (by omega)]

/-- Zeros from the start of a granule on stamp nothing. -/
theorem not_stamps_of_zero (ha : a % 16 = 0)
    (hz : ∀ x, a ≤ x → x < a + n → s'.mem x = 0) : ¬Stamps s'.mem a n := by
  rintro ⟨g, hg, hlo, hhi, hm⟩
  have h0 := hz (g + 8) (by omega) hhi
  have hr : nextAt s'.mem g = (s'.mem (g + 8)).toNat + 256 * Memory.read s'.mem (g + 8 + 1) 7 := rfl
  have hlow : (s'.mem (g + 8)).toNat = 0 := by rw [h0]; rfl
  have hmagic : MAGIC = 84375044 := rfl
  omega

/-- Allocating stamps the header of the block it returns, and no other. -/
theorem AllocResult.stamped (h : AllocResult s bs size (some (s', p))) (hb : Blocks s bs)
    (ha : a % 16 = 0) (hm : nextAt s'.mem a = MAGIC) :
    nextAt s.mem a = MAGIC ∨ p ≠ NULL ∧ a + headerSize = p := by
  generalize hr : some (s', p) = r at h
  cases h with
  | full hn hh he =>
    cases hr
    exact .inl ((he.nextAt (by simp) ha (by simp)).symm.trans hm)
  | @carved s₁ pre post b k hbs hbf hf hk hh he =>
    cases hr
    subst hbs
    have hfree : a ∉ frees (pre ++ (b.carve headerSize k size ++ post)) := fun hmem => by
      obtain ⟨e, hem, hef, rfl⟩ := Block.mem_frees.mp hmem
      exact hh.free_not_magic hem hef hm
    by_cases hab : a = b.addr
    · exact .inr ⟨by simp [headerSize, NULL], by rw [hab]⟩
    · refine .inl ?_
      have haN : a ∉ frees (pre ++ b :: post) ++ frees (b.carve headerSize k size) := by
        intro hmem
        simp only [Block.frees_append, Block.frees_cons_free hbf, List.mem_append,
          List.mem_cons] at hmem
        rcases hmem with (hmem | hmem | hmem) | hmem
        · exact hfree (by simp [hmem])
        · exact hab hmem
        · exact hfree (by simp [hmem])
        · exact hfree (by simp [hmem])
      refine (he.nextAt (fun m hmem => ?_) ha haN).symm.trans hm
      rcases List.mem_append.mp hmem with hmem | hmem
      · exact hb.frees_aligned hmem
      · exact hh.frees_aligned (by simp [hmem])

/-- A slab link is no header word. -/
theorem nextAt_setPtr_slab (ha : a % 16 = 0) (hg : g % 16 = 0) (v : Nat) :
    nextAt (setPtr m a v) g = nextAt m g :=
  ptrAt_congr fun _ _ _ => setPtr_outside (by omega)

-- ---------------------------------------------------------------------------
-- Mem_Alloc
-- ---------------------------------------------------------------------------

/-- Zeroing a new allocation stamps nothing. -/
theorem Shares.zeroed_genuine
    (h : Shares sizeOfRegion slabSize start s bs L ((p, slabSize) :: live)) (h0 : 1 ≤ slabSize)
    (h1 : slabSize < 2 ^ 31) (hg : Genuine s ((p, slabSize) :: live)) (isNextFit : Bool) :
    ∃ s', Mem.zeroed s p isNextFit = some s' ∧ Genuine s' ((p, slabSize) :: live) := by
  obtain ⟨s', a, n, hs, ha, -, hst, hz, -⟩ := h.zeroed h0 h1 isNextFit
  have hp : p % 16 = 0 := h.ptr_aligned List.mem_cons_self
  have haligned : a % 16 = 0 := by
    rw [ha, headerSize]
    split_ifs <;> omega
  exact ⟨s', hs, hg.stored hst (not_stamps_of_zero haligned hz)⟩

/-- Popping a slab only moves the top of the stack. -/
theorem slabPop_mem (h : Mem.slabPop s = some (s', p)) : s'.mem = s.mem := by
  unfold Mem.slabPop at h
  split_ifs at h
  · cases h
    rfl
  · obtain ⟨next, -, h⟩ := Option.bind_eq_some_iff.mp h
    cases h
    rfl

/-- Allocating stamps the header in front of the pointer it returns. -/
theorem Shares.alloc_genuine (h : Shares sizeOfRegion slabSize start s bs L live)
    (hg : Genuine s live) (hs0 : 0 ≤ size) (hs1 : size < 2 ^ 31)
    (hs : Mem.nextFitAlloc s size = some (s', p)) :
    Genuine s' (if p = NULL then live else (p, size) :: live) := by
  obtain ⟨s₁, p', bs', hs', hcase⟩ := h.nextFitAlloc hs0 hs1
  cases hs.symm.trans hs'
  have hres := h.heap.nextFitAlloc hs0 hs1
  rw [hs] at hres
  rcases hcase with ⟨hp, h'⟩ | ⟨hp, hlow, h'⟩
  · rw [if_pos hp]
    refine hg.of_words (h.sameLayout h') (fun g hgr _ hm => ?_) fun q hq => List.mem_map_of_mem hq
    exact (hres.stamped h.heap.toBlocks hgr hm).resolve_right fun hr => hr.1 hp
  · rw [if_neg hp]
    intro g hgr hmap hm
    rcases hres.stamped h.heap.toBlocks hgr hm with hm | ⟨-, hgp⟩
    · have hl := h.sameLayout h'
      rw [State.Mapped, hl.mapStart, hl.mapLen] at hmap
      obtain ⟨hlo, hmem⟩ := hg g hgr hmap hm
      exact ⟨hl.stop ▸ hlo, List.mem_cons_of_mem _ hmem⟩
    · obtain ⟨b, hb, -, hqb⟩ := h'.block (p, size) List.mem_cons_self hlow
      have := (h'.heap.bounds hb).1
      simp only [headerSize] at hqb hgp
      exact ⟨by omega, by simp [hgp, headerSize]⟩

theorem Shares.served_genuine (h : Shares sizeOfRegion slabSize start s bs L live)
    (h0 : 1 ≤ slabSize) (h1 : slabSize < 2 ^ 31) (hg : Genuine s live) (hs0 : 0 ≤ size)
    (hs1 : size < 2 ^ 31) (hs : Served s size s' p) :
    Genuine s' (if p = NULL then live else (p, size) :: live) := by
  have hunit : s.slabUnitSize = slabSize := h.layout.slabUnitSize
  cases hs with
  | slab hsz hpop hp hz =>
    obtain rfl := hsz.trans hunit
    rw [if_neg hp]
    rcases h.slabPop with hpop' | ⟨a, L', s₂, hpop', -, -, h₂⟩
    · exact absurd (Prod.mk.inj (Option.some.inj (hpop.symm.trans hpop'))).2 hp
    · have hmem : s₂.mem = s.mem := slabPop_mem hpop'
      have hg₂ : Genuine s₂ ((a, size) :: live) :=
        hg.of_words (h.sameLayout h₂) (fun g _ _ hm => hmem ▸ hm)
          fun q hq => List.mem_cons_of_mem _ (List.mem_map_of_mem hq)
      obtain ⟨s₃, hz', hg₃⟩ := h₂.zeroed_genuine h0 h1 hg₂ false
      cases hpop.symm.trans hpop'
      cases hz.symm.trans hz'
      exact hg₃
  | heap _ ha _ => exact h.alloc_genuine hg hs0 hs1 ha
  | heapZeroed hsz _ ha hp hz =>
    obtain rfl := hsz.trans hunit
    obtain ⟨s₁, p', bs', ha', hcase⟩ := h.nextFitAlloc hs0 hs1
    cases ha.symm.trans ha'
    obtain ⟨-, -, h'⟩ := hcase.resolve_left fun hn => hp hn.1
    have hg₁ := h.alloc_genuine hg hs0 hs1 ha
    rw [if_neg hp] at hg₁ ⊢
    obtain ⟨s₃, hz', hg₃⟩ := h'.zeroed_genuine h0 h1 hg₁ true
    cases hz.symm.trans hz'
    exact hg₃

-- ---------------------------------------------------------------------------
-- Mem_Free
-- ---------------------------------------------------------------------------

/-- A next-fit allocation that is live is freed. -/
theorem Shares.memFree_nextFit (h : Shares sizeOfRegion slabSize start s bs L live)
    (hr : Request sizeOfRegion start) (h0 : 1 ≤ slabSize) (h1 : slabSize < 2 ^ 31)
    (hg : Genuine s live) (hq : q ∈ live) (hlo : s.nextFitRegionStartPtr ≤ q.1) :
    ∃ s' bs', memFree s q.1 = some (s', 0) ∧
      Shares sizeOfRegion slabSize start s' bs' L (live.filter fun r => decide (r.1 ≠ q.1)) ∧
      Genuine s' (live.filter fun r => decide (r.1 ≠ q.1)) := by
  obtain ⟨s', bs', L', hm, hs, -⟩ := h.memFree_live hr h0 h1 hq
  have hs := hs hlo
  obtain ⟨s₁, bs₁, hs₁, h'⟩ := h.nextFitFree hq hlo
  cases hs.symm.trans hs₁
  obtain ⟨b, hb, hbu, hqb⟩ := h.block q hq hlo
  obtain ⟨pre, post, rfl⟩ := List.append_of_mem hb
  obtain ⟨s'', hs'', -, -, hn, hgone⟩ := h.heap.nextFitFree hbu
  rw [← hqb, hs] at hs''
  cases hs''
  refine ⟨s', bs₁, hm, h', fun g hgr hmap hgm => ?_⟩
  have hl := h.sameLayout h'
  rw [State.Mapped, hl.mapStart, hl.mapLen] at hmap
  obtain ⟨hglo, hmem⟩ := hg g hgr hmap (hn g hgr hgm)
  refine ⟨hl.stop ▸ hglo, mem_map_filter_ne.mpr ⟨hmem, fun he => ?_⟩⟩
  obtain rfl : g = b.addr := by omega
  exact hgone hgm

/-- Anything else at or above the next-fit region is refused. -/
theorem Shares.memFree_refused (h : Shares sizeOfRegion slabSize start s bs L live)
    (hr : Request sizeOfRegion start) (h0 : 1 ≤ slabSize) (h1 : slabSize < 2 ^ 31)
    (hsz : 4 ≤ sizeOfRegion) (hg : Genuine s live) (hlo : s.nextFitRegionStartPtr ≤ p)
    (hp : p ∉ live.map Prod.fst) : memFree s p = some (s, -1) := by
  rcases h.freeTarget_cases hr h0 h1 p with ⟨-, hslab⟩ | ⟨ht, -, hal, hhi⟩ | ⟨ht, -⟩
  · have := hslab.high
    have := hslab.unit
    omega
  · have hnf := h.layout.nextFitRegionStartPtr
    have hstart := h.layout.mapStart
    have hdvd := hr.size_dvd
    have hadr := h.slabs.region.addressable
    have hhead : ptrAdd p (-headerSize) = p - 16 := by
      simp only [ptrAdd, sizeT, headerSize]
      omega
    have hmap : s.Mapped (p - 16) 16 := ⟨by omega, by omega⟩
    have hword : s.loadPtr (p - 16 + 8) = some (nextAt s.mem (p - 16)) := if_pos ⟨by omega, by omega⟩
    have hmagic : nextAt s.mem (p - 16) ≠ MAGIC := fun hm => by
      have hmem := (hg (p - 16) (by omega) hmap hm).2
      rw [headerSize, Nat.sub_add_cancel (by omega)] at hmem
      exact hp hmem
    rw [memFree, ht]
    simp only [Mem.nextFitFree, hhead, hword, Option.bind_eq_bind, Option.bind_some, if_pos hmagic]
  · rw [memFree, ht]

-- ---------------------------------------------------------------------------
-- Mem_Init
-- ---------------------------------------------------------------------------

theorem fitToAlignSize_aligned (h0 : 1 ≤ slabSize) (h1 : slabSize < 2 ^ 31) :
    fitToAlignSize slabSize % 16 = 0 := by
  rcases fitToAlignSize_cases (Int.le_trans (by decide) h0) h1 with ⟨k, hk, hka, -⟩ | hw
  · omega
  · rw [hw]
    decide

theorem carveLoop_words (h : Mem.carveLoop turns s itr = some s') (hitr : itr % 16 = 0)
    (hround : s.roundedSlabAllocationSize % 16 = 0) (hg : g % 16 = 0) :
    s'.nextFitRegionStartPtr = s.nextFitRegionStartPtr ∧ nextAt s'.mem g = nextAt s.mem g := by
  induction turns generalizing s itr with
  | zero => cases h
  | succ turns ih =>
    rw [Mem.carveLoop] at h
    split_ifs at h with hend
    · cases h
      exact ⟨rfl, rfl⟩
    · obtain ⟨s₁, hs₁, h⟩ := Option.bind_eq_some_iff.mp h
      obtain rfl := slabPush_eq hs₁
      obtain ⟨hstop, hword⟩ := ih h (by simp only [ptrAdd, sizeT]; omega) hround
      exact ⟨hstop, hword.trans (nextAt_setPtr_slab hitr hg _)⟩

/-- No word that `Mem_Init` leaves is taken for a header's. -/
theorem memInit_words (h : memInit s₀ sizeOfRegion slabSize (some start) = some (s, p))
    (hp : p ≠ NULL) (hr : Request sizeOfRegion start) (h0 : 1 ≤ slabSize) (h1 : slabSize < 2 ^ 31)
    (hg : g % 16 = 0) (hmap : start ≤ g ∧ (g : Int) + 16 ≤ start + sizeOfRegion) :
    nextAt s.mem g ≠ MAGIC := by
  obtain ⟨-, -, -, -, -, -, s₁, s₂, s₃, hs₁, hs₂, hs₃, rfl⟩ := memInit_success h hp
  have hl₀ : LaidOut (layout s₀ sizeOfRegion slabSize start) sizeOfRegion slabSize start :=
    layout_laidOut hr
  have hround := fitToAlignSize_aligned h0 h1
  have hlow := (hl₀.region hr).aligned
  obtain ⟨hstop, hwords⟩ := carveLoop_words hs₁ (by simp only [ptrAdd, sizeT]; omega)
    (by exact hround) hg
  have hzero : nextAt (layout s₀ sizeOfRegion slabSize start).mem g = 0 := by
    have hbytes : nextAt (layout s₀ sizeOfRegion slabSize start).mem g =
        Memory.read (fun _ => 0) (g + 8) 8 := by
      refine Memory.read_congr fun x _ _ => if_pos ⟨by omega, ?_⟩
      simp only [sizeT]
      have := hr.size_pos
      have := hr.size_lt
      omega
    rw [hbytes]
    simp [Memory.read]
  obtain rfl := storeInt_eq hs₂
  obtain rfl := storePtr_eq hs₃
  simp only
  rw [← hstop] at hlow
  by_cases hgb : g = s₁.nextFitRegionStartPtr
  · rw [hgb, show nextAt _ s₁.nextFitRegionStartPtr = NULL from ptrAt_setPtr (by decide)]
    decide
  · rw [nextAt_setPtr_ne hlow hg hgb, nextAt_setInt hlow hg, hwords, hzero]
    decide

-- ---------------------------------------------------------------------------
-- Every run
-- ---------------------------------------------------------------------------

theorem Client.started_inv (hr : Request sizeOfRegion start) (h1 : slabSize < 2 ^ 31)
    (h : Client.Started sizeOfRegion slabSize start c) :
    ∃ bs L, c.Inv sizeOfRegion slabSize start bs L := by
  obtain ⟨hshares, hbases, hpos, hsize⟩ := Client.started_shared hr h1 h
  obtain ⟨⟨s₀, p, hm, hp⟩, -, -⟩ := h
  refine ⟨_, _, hshares, fun g hg hmap hw => ?_, hbases, hpos, hsize⟩
  have h2 := hshares.layout.mapStart
  have h3 := hshares.layout.mapLen
  obtain ⟨hlo, hhi⟩ := hmap
  exact absurd hw (memInit_words hm hp hr hpos h1 hg ⟨by omega, by omega⟩)

/-- A step that keeps the layout keeps the slabs. -/
theorem Client.Inv.of_shares (h : c.Inv sizeOfRegion slabSize start bs L)
    (h' : Shares sizeOfRegion slabSize start s' bs' L' live') (hg : Genuine s' live') :
    Client.Inv sizeOfRegion slabSize start { c with state := s', live := live' } bs' L' := by
  have hl := h.shares.sameLayout h'
  refine ⟨h', hg, fun a => (h.bases a).trans ⟨fun ha => ha.congr hl, fun ha => ha.congr hl.symm⟩,
    h.slabSize_pos, h.size_ge⟩

theorem Client.Inv.memFree (h : c.Inv sizeOfRegion slabSize start bs L)
    (hr : Request sizeOfRegion start) (h1 : slabSize < 2 ^ 31)
    (hn : c.next (.memFree p) = some c') :
    ∃ bs' L', c'.Inv sizeOfRegion slabSize start bs' L' := by
  simp only [Client.next] at hn
  split_ifs at hn with hp
  obtain ⟨⟨s, r⟩, hs, hn⟩ := Option.bind_eq_some_iff.mp hn
  cases hn
  by_cases hlive : p ∈ c.live.map Prod.fst
  · obtain ⟨q, hq, rfl⟩ := List.mem_map.mp hlive
    by_cases hlo : c.state.nextFitRegionStartPtr ≤ q.1
    · obtain ⟨s', bs', hs', h', hg'⟩ :=
        h.shares.memFree_nextFit hr h.slabSize_pos h1 h.genuine hq hlo
      cases hs'.symm.trans hs
      exact ⟨bs', L, h.of_shares h' hg'⟩
    · obtain ⟨s', hpush, h'⟩ := h.shares.slabPush hq (Nat.not_le.mp hlo)
      have hslab := (h.shares.slab q hq (Nat.not_le.mp hlo)).1
      obtain ⟨s'', hpush', hs''⟩ := (h.shares.memFree_slab hr h.slabSize_pos h1
        (Nat.not_le.mp hlo)).1 hslab
      cases hs''.symm.trans hs
      cases hpush.symm.trans hpush'
      refine ⟨bs, _, h.of_shares h' fun g hg hmap hm => ?_⟩
      have hl := h.shares.sameLayout h'
      rw [State.Mapped, hl.mapStart, hl.mapLen] at hmap
      rw [slabPush_eq hpush, nextAt_setPtr_slab hslab.aligned hg] at hm
      obtain ⟨hglo, hmem⟩ := h.genuine g hg hmap hm
      refine ⟨hl.stop ▸ hglo, mem_map_filter_ne.mpr ⟨hmem, fun he => ?_⟩⟩
      -- the block behind a next-fit header is no slab
      simp only [headerSize] at he
      omega
  · have hs' := h.shares.memFree_refused hr h.slabSize_pos h1 h.size_ge h.genuine
      (hp.resolve_right hlive) hlive
    cases hs'.symm.trans hs
    exact ⟨bs, L, h.of_shares h.shares h.genuine⟩

theorem Client.Inv.store (h : c.Inv sizeOfRegion slabSize start bs L) (h1 : slabSize < 2 ^ 31)
    (hn : c.next (.store a vs) = some c') (ho : c.honest (.store a vs)) :
    c'.Inv sizeOfRegion slabSize start bs L := by
  simp only [Client.next] at hn
  split_ifs at hn with hq
  obtain ⟨q, hq, hlo, hhi⟩ := hq
  have hsz := (h.shares.bounds h.slabSize_pos h1 hq).2.2
  obtain ⟨s', hs', hst, h'⟩ := h.shares.storeBytes (a := a) h.slabSize_pos h1 hq vs
    fun x hx hx' => ⟨by omega, by omega⟩
  rw [hs'] at hn
  cases hn
  exact h.of_shares h' (h.genuine.stored hst (ho s' hs'))

/-- What every call preserves. -/
theorem Client.Inv.next (h : c.Inv sizeOfRegion slabSize start bs L)
    (hr : Request sizeOfRegion start) (h1 : slabSize < 2 ^ 31) (hn : c.next l = some c')
    (ho : c.honest l) : ∃ bs' L', c'.Inv sizeOfRegion slabSize start bs' L' := by
  cases l with
  | memAlloc size =>
    simp only [Client.next] at hn
    split_ifs at hn with hs
    obtain ⟨s, p, hs', hserved⟩ := h.shares.memAlloc h.slabSize_pos h1 hs.1 hs.2
    obtain ⟨bs', L', h'⟩ := h.shares.served h.slabSize_pos h1 hs.1 hs.2 hserved
    rw [hs'] at hn
    cases hn
    exact ⟨bs', L', h.of_shares h'
      (h.shares.served_genuine h.slabSize_pos h1 h.genuine hs.1 hs.2 hserved)⟩
  | memFree p => exact h.memFree hr h1 hn
  | store a vs => exact ⟨bs, L, h.store h1 hn ho⟩

/-- What holds in every reachable state. -/
theorem Client.reachable_inv (hr : Request sizeOfRegion start) (h1 : slabSize < 2 ^ 31)
    (h : ((Client.system sizeOfRegion slabSize start).restrict Client.honest).Reachable c) :
    ∃ bs L, c.Inv sizeOfRegion slabSize start bs L := by
  refine h.invariant (P := fun c => ∃ bs L, Client.Inv sizeOfRegion slabSize start c bs L)
    (fun c hc => Client.started_inv hr h1 hc) ?_
  rintro c l c' - ⟨bs, L, hinv⟩ ⟨hs, ho⟩
  exact hinv.next hr h1 hs ho

/-- In every reachable state `Mem_Free` takes, at or above the next-fit
region, exactly the live allocations, in the slab quarter exactly the slabs
that `Mem_Init` carved, and below both nothing; what it refuses leaves the
allocator as it was. -/
theorem pointer_validation (hr : Request sizeOfRegion start) (h1 : slabSize < 2 ^ 31)
    (h : ((Client.system sizeOfRegion slabSize start).restrict Client.honest).Reachable c)
    (p : Nat) :
    (c.state.nextFitRegionStartPtr ≤ p →
      ((∃ s, memFree c.state p = some (s, 0)) ↔ p ∈ c.live.map Prod.fst) ∧
        (p ∉ c.live.map Prod.fst → memFree c.state p = some (c.state, -1))) ∧
    (p < c.state.nextFitRegionStartPtr →
      ((∃ s, memFree c.state p = some (s, 0)) ↔ p ∈ c.bases) ∧
        (p ∉ c.bases → memFree c.state p = some (c.state, -1))) := by
  obtain ⟨bs, L, hinv⟩ := Client.reachable_inv hr h1 h
  have hne : ∀ s s' : State, some (s, (-1 : Int)) ≠ some (s', 0) := by simp
  refine ⟨fun hlo => ?_, fun hlo => ?_⟩
  · have hrefuse := hinv.shares.memFree_refused hr hinv.slabSize_pos h1 hinv.size_ge hinv.genuine hlo
    refine ⟨⟨fun hs => ?_, fun hp => ?_⟩, hrefuse⟩
    · obtain ⟨s, hs⟩ := hs
      by_contra hp
      exact hne _ _ ((hrefuse hp).symm.trans hs)
    · obtain ⟨q, hq, rfl⟩ := List.mem_map.mp hp
      obtain ⟨s', -, hs', -⟩ := hinv.shares.memFree_nextFit hr hinv.slabSize_pos h1 hinv.genuine hq hlo
      exact ⟨s', hs'⟩
  · obtain ⟨htake, hrefuse⟩ := hinv.shares.memFree_slab hr hinv.slabSize_pos h1 hlo
    rw [hinv.bases]
    refine ⟨⟨fun hs => ?_, fun hp => ?_⟩, hrefuse⟩
    · obtain ⟨s, hs⟩ := hs
      by_contra hp
      exact hne _ _ ((hrefuse hp).symm.trans hs)
    · obtain ⟨s', -, hs'⟩ := htake hp
      exact ⟨s', hs'⟩

/-- After `Mem_Init` of 64 bytes the start of the free block is refused. -/
theorem pointer_validation_64 : ∃ c : Client, c.live = [] ∧
    c.state.nextFitRegionStartPtr = 4112 ∧ memFree c.state 4112 = some (c.state, -1) := by
  obtain ⟨s, hs⟩ := started_64
  obtain ⟨-, hf⟩ := memInit_spec hs (by decide) request_64 (by decide)
  obtain ⟨L, hL, -⟩ := hf.slabs
  have hstart : s.nextFitRegionStartPtr = 4112 := by
    have := hf.nextFitRegionStartPtr
    omega
  have hc : Client.Started 64 1 4096 ⟨s, [], L⟩ :=
    ⟨⟨State.static, 4096, hs, by decide⟩, rfl, hL.path⟩
  exact ⟨⟨s, [], L⟩, rfl, hstart,
    ((pointer_validation request_64 (by decide) (.init hc) 4112).1 (Nat.le_of_eq hstart)).2 (by simp)⟩

end

end PerrOS.Mem
