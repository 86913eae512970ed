import Mathlib.Data.List.Find
import PerrOS.Mem.Integrity

/-!
# Placement

Which block `nextFitAlloc` uses: the first one that is long enough, going
round the free list from the cursor.
-/

namespace PerrOS.Mem

open Lib (Memory Path Block)
open Lib.Block (Tiles frees used)

/-- The headers that `allocLoop` looks at, in order. -/
def allocVisits : Nat → State → Nat → Int → Option (List Nat)
  | 0, _, _, _ => none
  | turns + 1, s, itr, alignedSize => do
    let length ← s.loadInt itr
    if withHeader length ≥ withHeader alignedSize then some [itr]
    else do
      let next ← s.loadPtr (itr + 8)
      let after := if next = NULL then s.freeHead else next
      if after ≠ s.nextPtr then do
        let visits ← allocVisits turns s after alignedSize
        some (itr :: visits)
      else some [itr]

def nextFitVisits (s : State) (size : Int) : Option (List Nat) :=
  let alignedSize := fitToAlignSize size
  if s.freeHead = NULL then some []
  else
    let s := if s.nextPtr = NULL then { s with nextPtr := s.freeHead } else s
    allocVisits s.turns s s.nextPtr alignedSize

/-- The length of the block for a request. -/
def roundUp (size : Int) : Int := (size + 15) / 16 * 16

section
variable {c : Program} {s : State} {sizeOfRegion size : Int} {start : Nat}
  {bs O : List (Block Int)} {b : Block Int}

theorem Blocks.fits_iff (h : Blocks s bs) (hb : b ∈ bs) (h0 : 0 ≤ size) (h1 : size < 2 ^ 31) :
    Fits b size ↔ roundUp size ≤ b.len := by
  have hlen := h.len_lt hb
  rw [Fits, withHeader_ofNat (by omega), roundUp]
  rcases fitToAlignSize_cases h0 h1 with ⟨k, hk, hka, hle, hlt, hk31⟩ | hw
  · rw [hk, withHeader_ofNat hk31]
    omega
  · -- rounding wrapped, so the size is past every block
    have hround : (2 ^ 31 : Int) ≤ (size + 15) / 16 * 16 := by
      simp only [fitToAlignSize, ALIGN_SIZE, Int.tmod_eq_emod_of_nonneg h0, int32, Int.bmod] at hw
      split_ifs at hw <;> omega
    simp only [hw, withHeader, sizeT, headerSize]
    omega

theorem roundUp_eq (h0 : 0 ≤ size) (h1 : size < 2 ^ 31) (hk : fitToAlignSize size = (k : Nat)) :
    roundUp size = k := by
  rw [roundUp]
  rcases fitToAlignSize_cases h0 h1 with ⟨j, hj, hja, hle, hlt, -⟩ | hw
  · omega
  · omega

/-- A free block fits if its length is at least the rounded size. -/
theorem Blocks.find_fits (h : Blocks s bs) (h0 : 0 ≤ size) (h1 : size < 2 ^ 31) :
    (searchOrder s.nextPtr bs).find? (Fits · size) =
      (searchOrder s.nextPtr bs).find? (roundUp size ≤ ·.len) :=
  List.find?_congr fun b hb => by
    simp only [h.fits_iff (mem_searchOrder.mp hb).1 h0 h1]

/-- One turn of the walk, at a block. -/
theorem Blocks.allocVisits_step (h : Blocks s bs) (hb : b ∈ bs) :
    Mem.allocVisits (turns + 1) s b.addr (fitToAlignSize size) =
      if Fits b size then some [b.addr]
      else
        if Path.wrap s.freeHead (nextAt s.mem) b.addr ≠ s.nextPtr then
          (Mem.allocVisits turns s (Path.wrap s.freeHead (nextAt s.mem) b.addr)
            (fitToAlignSize size)).bind fun visits => some (b.addr :: visits)
        else some [b.addr] := by
  have hnode := h.node hb
  simp only [Mem.allocVisits, hnode.loadInt, (h.header b hb).length, hnode.loadNext,
    Option.bind_eq_bind, Option.bind_some, Path.wrap, NULL]
  rfl

theorem Blocks.allocVisits (h : Blocks s bs)
    (hp : Path (Path.wrap s.freeHead (nextAt s.mem)) b.addr ((b :: O).map Block.addr) s.nextPtr)
    (hO : ∀ d ∈ b :: O, d ∈ bs) (ht : O.length < turns) :
    ∃ L, Mem.allocVisits turns s b.addr (fitToAlignSize size) = some L ∧
      L <+: (b :: O).map Block.addr := by
  induction O generalizing b turns with
  | nil =>
    obtain _ | turns := turns
    · omega
    have hround : Path.wrap s.freeHead (nextAt s.mem) b.addr = s.nextPtr := hp.2.2
    refine ⟨[b.addr], ?_, List.prefix_refl _⟩
    rw [h.allocVisits_step (hO b List.mem_cons_self), if_neg (not_not_intro hround), ite_self]
  | cons d O ih =>
    obtain _ | turns := turns
    · omega
    have hd : Path.wrap s.freeHead (nextAt s.mem) b.addr = d.addr := hp.2.2.1
    have hone : [b.addr] <+: (b :: d :: O).map Block.addr := ⟨_, rfl⟩
    rw [h.allocVisits_step (hO b List.mem_cons_self), hd]
    split_ifs
    · exact ⟨[b.addr], rfl, hone⟩
    · have hp' := hp.2.2
      rw [hd] at hp'
      obtain ⟨L, hL, hprefix⟩ := ih hp' (fun e he => hO e (List.mem_cons_of_mem _ he))
        (by simpa using ht)
      exact ⟨b.addr :: L, by rw [hL, Option.bind_some], List.cons_prefix_cons.mpr ⟨rfl, hprefix⟩⟩
    · exact ⟨[b.addr], rfl, hone⟩

theorem searchOrder_perm : (searchOrder a bs).Perm (bs.filter Block.free) := by
  have hupto : (bs.filter Block.free).filter (·.addr < a) =
      (bs.filter Block.free).filter fun b => !decide (a ≤ b.addr) := by
    refine List.filter_congr fun b _ => ?_
    rw [← decide_not, decide_eq_decide, Nat.not_le]
  rw [searchOrder, hupto]
  exact List.filter_append_perm _ _

theorem Blocks.searchOrder_nodup (h : Blocks s bs) : ((searchOrder a bs).map Block.addr).Nodup :=
  (searchOrder_perm.map _).nodup_iff.mpr (h.chain.sorted.imp Nat.ne_of_lt)

/-- Every free block is looked at once at most. -/
theorem Heap.visits (h : Heap s bs) :
    ∃ L, nextFitVisits s size = some L ∧ L.Nodup ∧
      L <+: (searchOrder s.nextPtr bs).map Block.addr := by
  unfold nextFitVisits
  by_cases hnull : s.freeHead = NULL
  · rw [if_pos hnull]
    exact ⟨[], rfl, .nil, List.nil_prefix⟩
  · rw [if_neg hnull]
    obtain ⟨h', hc, ho⟩ := h.fromCursor hnull
    obtain ⟨b, O, hO, hbc, hpath, hnot, hlt⟩ := h'.searchOrder_cons hc
    have hmem : ∀ d ∈ b :: O, d ∈ bs := fun d hd => (mem_searchOrder.mp (hO ▸ hd)).1
    have hvisits : ∃ L, Mem.allocVisits s.fromCursor.turns s.fromCursor b.addr
        (fitToAlignSize size) = some L ∧ L <+: (b :: O).map Block.addr :=
      h'.allocVisits hpath hmem hlt
    obtain ⟨L, hL, hprefix⟩ := hvisits
    rw [← hO, ho] at hprefix
    refine ⟨L, ?_, hprefix.sublist.nodup h.searchOrder_nodup, hprefix⟩
    change Mem.allocVisits s.fromCursor.turns s.fromCursor s.fromCursor.nextPtr _ = some L
    rw [← hbc]
    exact hL

/-- How `nextFitAlloc` serves a request in `c`, whose blocks are `bs`. -/
structure NextFit (c : Program) (sizeOfRegion : Int) (start : Nat) (bs : List (Block Int))
    (size : Int) : Prop where
  visits : ∃ L, nextFitVisits c.state size = some L ∧ L.Nodup ∧
    L <+: (searchOrder c.state.nextPtr bs).map Block.addr
  first : ∀ b, (searchOrder c.state.nextPtr bs).find? (roundUp size ≤ ·.len) = some b →
    ∃ pre post s', bs = pre ++ b :: post ∧
      nextFitAlloc c.state size = some (s', b.addr + headerSize) ∧
      (∃ chain, Integrity ⟨s', (b.addr + headerSize, size) :: c.live⟩ sizeOfRegion start
        (pre ++ (b.carve headerSize (roundUp size).toNat size ++ post)) chain) ∧
      s'.nextPtr = if (b.len : Int) = roundUp size then (frees post).headD NULL
        else b.addr + headerSize + (roundUp size).toNat
  full : (∃ s', nextFitAlloc c.state size = some (s', NULL)) ↔
    ∀ b ∈ bs, b.use = none → b.len < roundUp size
  unchanged : ∀ s', nextFitAlloc c.state size = some (s', NULL) →
    s' = { c.state with nextPtr := s'.nextPtr }

theorem Owned.nextFit (h : Owned c sizeOfRegion start bs) (h0 : 0 ≤ size) (h1 : size < 2 ^ 31) :
    NextFit c sizeOfRegion start bs size := by
  have hs := h.heap.searched h0 h1
  rw [Searched, h.heap.find_fits h0 h1] at hs
  have hfree : ∀ b ∈ bs, b.use = none → b ∈ searchOrder c.state.nextPtr bs := fun b hb hn =>
    mem_searchOrder.mpr ⟨hb, by simp [Block.free, hn]⟩
  cases hf : (searchOrder c.state.nextPtr bs).find? (roundUp size ≤ ·.len) with
  | none =>
    simp only [hf] at hs
    obtain ⟨p, -, hr⟩ := hs
    refine ⟨h.heap.visits, fun b hb => ?_, ?_, fun s' hs' => ?_⟩
    · rw [hf] at hb
      cases hb
    · refine iff_of_true ⟨_, hr⟩ fun b hb hn => ?_
      simpa using List.find?_eq_none.mp hf b (hfree b hb hn)
    · rw [hr] at hs'
      cases hs'
      rfl
  | some b =>
    simp only [hf] at hs
    obtain ⟨pre, post, k, s', rfl, hr, hc⟩ := hs
    have hp : b.addr + headerSize ≠ NULL := by simp [headerSize, NULL]
    have hnot : ∀ s'', nextFitAlloc c.state size ≠ some (s'', NULL) := fun s'' hs'' => by
      rw [hr] at hs''
      exact hp (congrArg Prod.snd (Option.some.inj hs''))
    refine ⟨h.heap.visits, fun d hd => ?_, ?_, fun s'' hs'' => absurd hs'' (hnot s'')⟩
    · obtain rfl := Option.some.inj (hf.symm.trans hd)
      have hround := roundUp_eq h0 h1 hc.fit
      have hb := (mem_searchOrder.mp (List.mem_of_find?_eq_some hf)).2
      have hcursor := hc.cursor
      rw [hround, Int.toNat_natCast]
      refine ⟨pre, post, s', rfl, hr, ⟨_, (h.carve hb hc.heap hc.edit).integrity⟩, ?_⟩
      simpa only [Int.natCast_inj] using hcursor
    · refine iff_of_false (not_exists.mpr hnot) fun hall => ?_
      obtain ⟨hbm, hb⟩ := mem_searchOrder.mp (List.mem_of_find?_eq_some hf)
      have hlt := hall b hbm (Option.isNone_iff_eq_none.mp hb)
      have hle := List.find?_some hf
      simp only [decide_eq_true_eq] at hle
      omega

/-- In every reachable state `nextFitAlloc` looks at each free block once at
most, uses the first one that is long enough, going round from the cursor, and
moves the cursor to what follows the block. It returns null exactly when no
free block is long enough. -/
theorem next_fit_search (hr : Request sizeOfRegion start)
    (h : (system sizeOfRegion start).Reachable c) :
    ∃ bs chain, Integrity c sizeOfRegion start bs chain ∧
      ∀ size, 0 ≤ size → size < 2 ^ 31 → NextFit c sizeOfRegion start bs size := by
  obtain ⟨bs, hbs⟩ := reachable_owned hr h
  exact ⟨bs, frees bs, hbs.integrity, fun _ h0 h1 => hbs.nextFit h0 h1⟩

theorem next_fit_search_64 : ∃ c : Program, Started 64 4096 c ∧ ∃ bs chain,
    Integrity c 64 4096 bs chain ∧ NextFit c 64 4096 bs 16 := by
  obtain ⟨s, hs⟩ := started_64
  have hc : Started 64 4096 ⟨s, []⟩ :=
    ⟨State.static, 1, 4096, by decide, hs, by decide, rfl⟩
  obtain ⟨bs, chain, hint, hfit⟩ := next_fit_search request_64 (.init hc)
  exact ⟨⟨s, []⟩, hc, bs, chain, hint, hfit 16 (by decide) (by decide)⟩

end

end PerrOS.Mem
