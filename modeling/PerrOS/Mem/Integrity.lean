import PerrOS.Lib.System
import PerrOS.Mem.Coalesce
import PerrOS.Mem.Init

/-!
# Heap integrity

A program that calls `nextFitAlloc` and `nextFitFree` and writes to the
payloads it owns. In every state it can reach the region is tiled by blocks
that its live pointers and the free list share out, and no two free blocks
are adjacent.
-/

namespace PerrOS.Mem

open Function (update)
open Lib (Memory Path Block System)
open Lib.Block (Tiles frees used Coalesced)

/-- The allocator, and the pointers the program holds with the sizes it asked
for. -/
structure Program where
  state : State
  live : List (Nat × Int)

inductive Call
  | alloc (size : Int)
  | free (ptr : Nat)
  | write (a : Nat) (v : BitVec 8)

def next (c : Program) : Call → Option Program
  | .alloc size =>
    if 0 ≤ size ∧ size < 2 ^ 31 then do
      let (s, p) ← nextFitAlloc c.state size
      some ⟨s, if p = NULL then c.live else (p, size) :: c.live⟩
    else none
  | .free p =>
    if p ∈ c.live.map Prod.fst then do
      let (s, _) ← nextFitFree c.state p
      some ⟨s, c.live.filter fun q => q.1 ≠ p⟩
    else none
  | .write a v =>
    if ∃ q ∈ c.live, q.1 ≤ a ∧ (a : Int) < q.1 + q.2 then
      some { c with state := { c.state with mem := update c.state.mem a v } }
    else none

/-- The states right after a successful `Mem_Init`. -/
def Started (sizeOfRegion : Int) (start : Nat) (c : Program) : Prop :=
  ∃ s₀ slabSize p, slabSize < 2 ^ 31 ∧
    memInit s₀ sizeOfRegion slabSize (some start) = some (c.state, p) ∧ p ≠ NULL ∧ c.live = []

def system (sizeOfRegion : Int) (start : Nat) : System Program Call :=
  .ofNext (Started sizeOfRegion start) next

-- ---------------------------------------------------------------------------
-- The invariant
-- ---------------------------------------------------------------------------

/-- The pointer and the size that a block in use stands for. -/
def payload (b : Block Int) : Nat × Int := (b.addr + headerSize, b.use.getD 0)

/-- The live pointers are the payloads of the blocks in use. -/
structure Owned (c : Program) (sizeOfRegion : Int) (start : Nat) (bs : List (Block Int)) :
    Prop where
  heap : Heap c.state bs
  live : c.live.Perm ((used bs).map payload)
  mapStart : c.state.mapStart = start
  mapLen : (c.state.mapLen : Int) = sizeOfRegion
  low : (c.state.nextFitRegionStartPtr : Int) = start + sizeOfRegion / 4
  size_ge : 4 ≤ sizeOfRegion

section
variable {c c' : Program} {sizeOfRegion size : Int} {start p a : Nat} {bs pre post : List (Block Int)}
  {b : Block Int}

theorem started_owned (hr : Request sizeOfRegion start) (h : Started sizeOfRegion start c) :
    Owned c sizeOfRegion start [wholeBlock c.state] := by
  obtain ⟨s₀, slabSize, p, hslab, hm, hp, hlive⟩ := h
  obtain ⟨-, hf⟩ := memInit_spec hm hp hr hslab
  refine ⟨hf.heap, ?_, hf.mapStart, hf.mapLen, hf.nextFitRegionStartPtr, hf.size_ge⟩
  rw [hlive, Block.used_cons_free (by rfl)]
  exact .refl _

/-- Editing headers moves neither the region nor the mapping. -/
theorem Owned.of_edit (h : Owned c sizeOfRegion start bs) (hh : Heap c'.state bs')
    (hl : c'.live.Perm ((used bs').map payload)) (he : Edit N c.state c'.state) :
    Owned c' sizeOfRegion start bs' := by
  refine ⟨hh, hl, ?_, ?_, ?_, h.size_ge⟩
  · rw [he.rest]
    exact h.mapStart
  · rw [he.rest]
    exact h.mapLen
  · rw [he.rest]
    exact h.low

/-- The pointer to a carved block becomes live. -/
theorem Owned.carve (h : Owned c sizeOfRegion start (pre ++ b :: post)) (hb : b.free = true)
    (hh : Heap s (pre ++ (b.carve headerSize k size ++ post))) (he : Edit N c.state s) :
    Owned ⟨s, (b.addr + headerSize, size) :: c.live⟩ sizeOfRegion start
      (pre ++ (b.carve headerSize k size ++ post)) := by
  refine h.of_edit hh ?_ he
  have hlive := h.live
  rw [Block.used_append, Block.used_cons_free hb, List.map_append] at hlive
  rw [Block.used_append, Block.used_append, Block.used_carve, List.map_append, List.map_append]
  exact (hlive.cons _).trans List.perm_middle.symm

theorem Owned.alloc (h : Owned c sizeOfRegion start bs) (hn : next c (.alloc size) = some c') :
    ∃ bs', Owned c' sizeOfRegion start bs' := by
  simp only [next] at hn
  split_ifs at hn with hs
  obtain ⟨⟨s, p⟩, hs', hn⟩ := Option.bind_eq_some_iff.mp hn
  cases hn
  have hr := h.heap.nextFitAlloc hs.1 hs.2
  rw [hs'] at hr
  generalize hres : some (s, p) = r at hr
  cases hr with
  | @carved s' pre post b k hbs hb hf hk hh he =>
    cases hres
    subst hbs
    rw [if_neg (by simp [headerSize, NULL] : b.addr + headerSize ≠ NULL)]
    exact ⟨_, h.carve hb hh he⟩
  | full hn hh he =>
    cases hres
    exact ⟨bs, h.of_edit hh h.live he⟩

/-- A live pointer is the payload of a block in use. -/
theorem Owned.exists_block (h : Owned c sizeOfRegion start bs) (hq : q ∈ c.live) :
    ∃ b ∈ bs, b.use = some q.2 ∧ q.1 = b.addr + headerSize := by
  obtain ⟨b, hb, rfl⟩ := List.mem_map.mp (h.live.mem_iff.mp hq)
  obtain ⟨hb, hu⟩ := Block.mem_used.mp hb
  obtain ⟨n, hn⟩ : ∃ n, b.use = some n := by
    cases hbu : b.use with
    | none => simp [Block.free, hbu] at hu
    | some n => exact ⟨n, rfl⟩
  exact ⟨b, hb, by simp [payload, hn], rfl⟩

theorem Owned.free (h : Owned c sizeOfRegion start bs) (hn : next c (.free p) = some c') :
    ∃ bs', Owned c' sizeOfRegion start bs' := by
  simp only [next] at hn
  split_ifs at hn with hp
  obtain ⟨⟨s, r⟩, hs, hn⟩ := Option.bind_eq_some_iff.mp hn
  cases hn
  obtain ⟨q, hq, rfl⟩ := List.mem_map.mp hp
  obtain ⟨b, hb, hbu, hqb⟩ := h.exists_block hq
  obtain ⟨pre, post, rfl⟩ := List.append_of_mem hb
  obtain ⟨s', hs', hh, he, -⟩ := h.heap.nextFitFree hbu
  rw [hqb, hs'] at hs
  cases hs
  refine ⟨_, h.of_edit hh ?_ he⟩
  -- the freed pointer goes, the pointers of the other blocks stay
  have hkeep : ∀ d ∈ pre ++ post, (payload d).1 ≠ b.addr + headerSize := fun d hd he => by
    have := h.heap.addr_ne hd
    simp only [payload] at he
    omega
  have hstay : ∀ ds : List (Block Int), (∀ d ∈ ds, d ∈ pre ++ post) →
      (ds.map payload).filter (fun q => decide (q.1 ≠ b.addr + headerSize)) = ds.map payload := by
    intro ds hds
    refine List.filter_eq_self.mpr fun x hx => ?_
    obtain ⟨d, hd, rfl⟩ := List.mem_map.mp hx
    simpa using hkeep d (hds d hd)
  have hlive := h.live.filter fun q => decide (q.1 ≠ b.addr + headerSize)
  have hbf : b.free = false := by simp [Block.free, hbu]
  rw [Block.used_append, Block.used_cons_used hbf, List.map_append, List.map_cons,
    List.filter_append, List.filter_cons_of_neg (by simp [payload]),
    hstay (used pre) (fun d hd => by simp [(Block.mem_used.mp hd).1]),
    hstay (used post) (fun d hd => by simp [(Block.mem_used.mp hd).1])] at hlive
  rw [Block.used_release, List.map_append, hqb]
  exact hlive

/-- A byte of a payload lies in no header. -/
theorem Blocks.payload_apart (h : Blocks s bs) (hb : b ∈ bs) (hn : b.use = some n)
    (hlo : b.addr + headerSize ≤ a) (hhi : (a : Int) < (b.addr + headerSize : Nat) + n)
    (hd : d ∈ bs) : a < d.addr ∨ d.addr + 16 ≤ a := by
  have hle := (h.size_le hb hn).2.2
  have hap := h.tiles.apart hb hd
  simp only [headerSize] at hlo hhi
  rcases hap with rfl | hap | hap
  · omega
  · simp only [Block.stop, headerSize] at hap
    omega
  · simp only [Block.stop, headerSize] at hap
    omega

theorem Owned.write (h : Owned c sizeOfRegion start bs) (hn : next c (.write a v) = some c') :
    Owned c' sizeOfRegion start bs := by
  simp only [next] at hn
  split_ifs at hn with hq
  cases hn
  obtain ⟨q, hq, hlo, hhi⟩ := hq
  obtain ⟨b, hb, hbu, hqb⟩ := h.exists_block hq
  rw [hqb] at hlo hhi
  refine ⟨h.heap.congr (fun d hd x hx hx' => ?_) rfl, h.live, h.mapStart, h.mapLen, h.low, h.size_ge⟩
  have := h.heap.payload_apart hb hbu hlo hhi hd
  exact Function.update_of_ne (by omega) _ _

/-- What every call preserves. -/
theorem Owned.next (h : Owned c sizeOfRegion start bs) (hn : Mem.next c l = some c') :
    ∃ bs', Owned c' sizeOfRegion start bs' := by
  cases l with
  | alloc size => exact h.alloc hn
  | free p => exact h.free hn
  | write a v => exact ⟨bs, h.write hn⟩

/-- What holds in every reachable state. -/
theorem reachable_owned (hr : Request sizeOfRegion start)
    (h : (system sizeOfRegion start).Reachable c) : ∃ bs, Owned c sizeOfRegion start bs := by
  refine h.invariant (P := fun c => ∃ bs, Owned c sizeOfRegion start bs)
    (fun c hc => ⟨_, started_owned hr hc⟩) ?_
  rintro c l c' - ⟨bs, hbs⟩ hs
  exact hbs.next hs

-- ---------------------------------------------------------------------------
-- Integrity
-- ---------------------------------------------------------------------------

/-- The next-fit region of `c` consists of the blocks `bs`, and its free list
of the nodes `chain`. -/
structure Integrity (c : Program) (sizeOfRegion : Int) (start : Nat) (bs : List (Block Int))
    (chain : List Nat) : Prop where
  region : (c.state.nextFitRegionStartPtr : Int) = start + sizeOfRegion / 4
  tiled : Tiles headerSize c.state.nextFitRegionStartPtr bs (start + sizeOfRegion.toNat)
  length : ∀ b ∈ bs, intAt c.state.mem b.addr = b.len
  allocated : ∀ b ∈ bs, ∀ n, b.use = some n →
    nextAt c.state.mem b.addr = MAGIC ∧ (b.len : Int) = fitToAlignSize n ∧
      (b.addr + headerSize, n) ∈ c.live ∧ b.addr ∉ chain
  free : ∀ b ∈ bs, b.use = none → b.addr ∈ chain ∧ nextAt c.state.mem b.addr ≠ MAGIC
  live : ∀ q ∈ c.live, ∃ b ∈ bs, b.use = some q.2 ∧ q.1 = b.addr + headerSize
  linked : Path (nextAt c.state.mem) c.state.freeHead chain NULL
  increasing : chain.Pairwise (· < ·)
  node : ∀ a ∈ chain, ∃ b ∈ bs, b.use = none ∧ b.addr = a
  cursor : c.state.nextPtr = NULL ∨ c.state.nextPtr ∈ chain

theorem Owned.integrity (h : Owned c sizeOfRegion start bs) :
    Integrity c sizeOfRegion start bs (frees bs) where
  region := h.low
  tiled := by
    have ht := h.heap.tiles
    rwa [h.mapStart, show c.state.mapLen = sizeOfRegion.toNat by have := h.mapLen; omega] at ht
  length b hb := (h.heap.header b hb).length
  allocated b hb n hn := by
    have hu : b.free = false := by simp [Block.free, hn]
    refine ⟨(h.heap.header b hb).magic hu, ((h.heap.fitted b hb).request n hn).2.2, ?_,
      h.heap.used_not_mem hb hu⟩
    refine h.live.mem_iff.mpr (List.mem_map.mpr ⟨b, Block.mem_used.mpr ⟨hb, hu⟩, ?_⟩)
    simp [payload, hn]
  free b hb hn := by
    have hf : b.free = true := by simp [Block.free, hn]
    exact ⟨Block.mem_frees.mpr ⟨b, hb, hf, rfl⟩, h.heap.free_not_magic hb hf⟩
  live _ hq := h.exists_block hq
  linked := h.heap.chain.path
  increasing := h.heap.chain.sorted
  node a ha := by
    obtain ⟨b, hb, hf, rfl⟩ := Block.mem_frees.mp ha
    exact ⟨b, hb, Option.isNone_iff_eq_none.mp hf, rfl⟩
  cursor := h.heap.cursor

/-- Neither operation faults or loops, and freeing a live pointer succeeds. -/
theorem Owned.returns (h : Owned c sizeOfRegion start bs) :
    (∀ size, 0 ≤ size → size < 2 ^ 31 → ∃ s p, nextFitAlloc c.state size = some (s, p)) ∧
      ∀ q ∈ c.live, ∃ s, nextFitFree c.state q.1 = some (s, 0) := by
  refine ⟨fun size h0 h1 => ?_, fun q hq => ?_⟩
  · have hr := h.heap.nextFitAlloc h0 h1
    generalize nextFitAlloc c.state size = r at hr
    cases hr with
    | carved => exact ⟨_, _, rfl⟩
    | full => exact ⟨_, _, rfl⟩
  · obtain ⟨b, hb, hbu, hqb⟩ := h.exists_block hq
    obtain ⟨pre, post, rfl⟩ := List.append_of_mem hb
    obtain ⟨s', hs', -, -⟩ := h.heap.nextFitFree hbu
    exact ⟨s', hqb ▸ hs'⟩

theorem Owned.not_adjacent (h : Owned c sizeOfRegion start bs) (hb : b ∈ bs) (hd : d ∈ bs)
    (hbf : b.use = none) (hdf : d.use = none) : b.addr + headerSize + b.len ≠ d.addr := by
  intro he
  obtain ⟨pre, post, rfl⟩ := List.append_of_mem hb
  obtain ⟨post, rfl⟩ := h.heap.tiles.next_of_addr (by decide) hd he.symm
  have hc := (List.isChain_append.mp h.heap.coalesced).2.1
  exact (List.isChain_cons_cons.mp hc).1 ⟨by simp [Block.free, hbf], by simp [Block.free, hdf]⟩

/-- When nothing is live the heap is the block that `Mem_Init` made. -/
theorem Owned.whole (h : Owned c sizeOfRegion start bs) (hr : Request sizeOfRegion start)
    (hl : c.live = []) : bs = [wholeBlock c.state] := by
  have hu : used bs = [] := by
    have := h.live
    rw [hl] at this
    exact List.map_eq_nil_iff.mp this.nil_eq.symm
  have h1 := h.mapStart
  have h2 := h.mapLen
  have h3 := h.low
  have h4 := hr.size_dvd
  have h5 := h.size_ge
  exact h.heap.tiles.all_free h.heap.coalesced hu (by omega)

theorem Owned.wholeBlock_len (h : Owned c sizeOfRegion start bs) (hr : Request sizeOfRegion start) :
    ((wholeBlock c.state).len : Int) = sizeOfRegion - sizeOfRegion / 4 - headerSize := by
  have h1 := h.mapStart
  have h2 := h.mapLen
  have h3 := h.low
  have h4 := hr.size_dvd
  have h5 := h.size_ge
  simp only [wholeBlock, headerSize]
  omega

theorem Owned.fits_whole (h : Owned c sizeOfRegion start bs) (h' : Owned c' sizeOfRegion start bs')
    (hr : Request sizeOfRegion start) (hf : Fits (wholeBlock c.state) size) :
    Fits (wholeBlock c'.state) size := by
  have hl := (h.wholeBlock_len hr).trans (h'.wholeBlock_len hr).symm
  rwa [Fits, ← hl]

/-- What one whole block serves, a later one serves at the same address. -/
theorem Owned.alloc_again (h : Owned c sizeOfRegion start [wholeBlock c.state])
    (h' : Owned c' sizeOfRegion start [wholeBlock c'.state]) (hr : Request sizeOfRegion start)
    (h0 : 0 ≤ size) (h1 : size < 2 ^ 31) (ha : nextFitAlloc c.state size = some (s, p))
    (hp : p ≠ NULL) : ∃ s', nextFitAlloc c'.state size = some (s', p) := by
  have hlow : c.state.nextFitRegionStartPtr = c'.state.nextFitRegionStartPtr := by
    have := h.low
    have := h'.low
    omega
  have hr₁ := h.heap.nextFitAlloc h0 h1
  rw [ha] at hr₁
  generalize hres : some (s, p) = r at hr₁
  cases hr₁ with
  | full => exact absurd (congrArg Prod.snd (Option.some.inj hres)) hp
  | @carved s₁ pre post b k hbs _ hf =>
    cases hres
    obtain rfl : wholeBlock c.state = b := by
      cases pre with
      | nil => exact (List.cons.inj hbs).1
      | cons d pre => simpa using (List.cons.inj hbs).2
    have hr₂ := h'.heap.nextFitAlloc h0 h1
    generalize nextFitAlloc c'.state size = r at hr₂
    cases hr₂ with
    | full hn => exact absurd (h.fits_whole h' hr hf) (hn _ (List.mem_singleton_self _) rfl)
    | @carved s₂ pre post d k hbs' =>
      obtain rfl : wholeBlock c'.state = d := by
        cases pre with
        | nil => exact (List.cons.inj hbs').1
        | cons e pre => simpa using (List.cons.inj hbs').2
      exact ⟨s₂, by simp only [wholeBlock, hlow]⟩

end

end PerrOS.Mem
