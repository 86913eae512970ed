import PerrOS.Mem.Heap

/-!
# Freeing and coalescing

`nextFitFree` puts a block back in the free list and merges it with the
neighbours that are free. Either merge is the same change of the tiling: two
adjacent free blocks become one.
-/

namespace PerrOS.Mem

open Lib (Memory Path Block)
open Lib.Block (Tiles frees used Coalesced)

section
variable {s s' : State} {bs pre post fs : List (Block Int)} {b c d : Block Int} {a : Nat}

/-- Two adjacent free blocks as one. -/
abbrev merged (b c : Block Int) : Block Int := ⟨b.addr, b.len + headerSize + c.len, none⟩

-- ---------------------------------------------------------------------------
-- Stale headers
-- ---------------------------------------------------------------------------

/-- No word where a header may keep its `magic` has become `MAGIC`. -/
def NoStamp (s s' : State) : Prop :=
  ∀ a, a % 16 = 0 → nextAt s'.mem a = MAGIC → nextAt s.mem a = MAGIC

theorem NoStamp.refl (s : State) : NoStamp s s := fun _ _ h => h

theorem NoStamp.trans (h : NoStamp s s') (h' : NoStamp s' s'') : NoStamp s s'' :=
  fun a ha hm => h a ha (h' a ha hm)

/-- A header off the edited ones keeps its `next` or `magic` field. -/
theorem Edit.nextAt (h : Edit N s s') (hN : ∀ n ∈ N, n % 16 = 0) (ha : a % 16 = 0) (haN : a ∉ N) :
    nextAt s'.mem a = nextAt s.mem a :=
  ptrAt_congr fun x _ _ => h.bytes x fun n hn => by
    have := hN n hn
    have : a ≠ n := fun he => haN (he ▸ hn)
    omega

theorem Blocks.frees_aligned (h : Blocks s bs) (ha : a ∈ frees bs) : a % 16 = 0 :=
  (h.chain.node a ha).aligned

/-- Editing headers that end up free stamps none. -/
theorem NoStamp.of_edit (he : Edit N s s') (h : Blocks s' bs) (hN : ∀ n ∈ N, n ∈ frees bs) :
    NoStamp s s' := by
  intro a ha hm
  by_cases haN : a ∈ N
  · obtain ⟨b, hb, hf, rfl⟩ := Block.mem_frees.mp (hN a haN)
    exact absurd hm (h.free_not_magic hb hf)
  · rwa [he.nextAt (fun n hn => h.frees_aligned (hN n hn)) ha haN] at hm

-- ---------------------------------------------------------------------------
-- Merging two blocks
-- ---------------------------------------------------------------------------

/-- What a merge leaves: `c` is gone from the list, the length at `b` covers
both, and a cursor at `c` has moved to `b`. -/
structure Merge (s s' : State) (pre : List (Block Int)) (b c : Block Int)
    (post : List (Block Int)) : Prop where
  edit : Edit (frees pre ++ [b.addr]) s s'
  chain : FreeList s' (frees pre ++ b.addr :: frees post)
  length : intAt s'.mem b.addr = (b.len + headerSize + c.len : Nat)
  header : ∀ d ∈ pre ++ post, Header s' d
  cursor : s'.nextPtr = if c.addr = s.nextPtr then b.addr else s.nextPtr

theorem Tiles.merge (h : Tiles headerSize lo (pre ++ b :: c :: post) hi) :
    Tiles headerSize lo (pre ++ merged b c :: post) hi := by
  obtain ⟨hpre, hc, hpost⟩ := Tiles.split_iff.mp h
  refine Tiles.split_iff.mpr ⟨hpre, ?_⟩
  simp only [Block.stop] at hc hpost ⊢
  rw [show b.addr + headerSize + (b.len + headerSize + c.len) = c.addr + headerSize + c.len by
    omega]
  exact hpost

theorem Merge.blocks (hm : Merge s s' pre b c post) (h : Blocks s (pre ++ b :: c :: post))
    (hb : b.free = true) (hc : c.free = true) : Blocks s' (pre ++ merged b c :: post) := by
  have hba := (h.fitted b (by simp)).aligned
  have hca := (h.fitted c (by simp)).aligned
  have hfrees : frees (pre ++ merged b c :: post) = frees pre ++ b.addr :: frees post := by
    simp [Block.frees_cons, Block.free]
  refine ⟨h.region.of_edit hm.edit, ?_, fun d hd => ?_, fun d hd => ?_, hfrees ▸ hm.chain, ?_⟩
  · have hmap : s'.nextFitRegionStartPtr = s.nextFitRegionStartPtr ∧
        s'.mapStart + s'.mapLen = s.mapStart + s.mapLen := by rw [hm.edit.rest]; exact ⟨rfl, rfl⟩
    rw [hmap.1, hmap.2]
    exact Tiles.merge h.tiles
  · rcases List.mem_append.mp hd with hd | hd
    · exact h.fitted d (by simp [hd])
    · rcases List.mem_cons.mp hd with rfl | hd
      · refine ⟨?_, fun n hn => by cases hn⟩
        simp only [headerSize]
        omega
      · exact h.fitted d (by simp [hd])
  · rcases List.mem_append.mp hd with hd | hd
    · exact hm.header d (by simp [hd])
    · rcases List.mem_cons.mp hd with rfl | hd
      · exact ⟨hm.length, fun hu => by simp [Block.free] at hu⟩
      · exact hm.header d (by simp [hd])
  · rw [hm.cursor, hfrees]
    by_cases he : c.addr = s.nextPtr
    · rw [if_pos he]
      exact .inr (by simp)
    · rw [if_neg he]
      refine h.cursor.imp_right fun hmem => ?_
      simp only [Block.frees_append, Block.frees_cons_free hb, Block.frees_cons_free hc,
        List.mem_append, List.mem_cons] at hmem ⊢
      rcases hmem with hmem | hmem | hmem | hmem
      · exact .inl hmem
      · exact .inr (.inl hmem)
      · exact absurd hmem.symm he
      · exact .inr (.inr hmem)

theorem Merge.noStamp (hm : Merge s s' pre b c post) (h : Blocks s (pre ++ b :: c :: post))
    (hb : b.free = true) (hc : c.free = true) : NoStamp s s' := by
  refine .of_edit hm.edit (hm.blocks h hb hc) fun a ha => ?_
  rw [Block.frees_append, Block.frees_cons_free (by rfl)]
  rcases List.mem_append.mp ha with ha | ha
  · simp [ha]
  · simp [List.mem_singleton.mp ha]

/-- The nodes of the list around two adjacent free blocks. -/
theorem frees_pair (hb : b.free = true) (hc : c.free = true) :
    frees (pre ++ b :: c :: post) = frees pre ++ b.addr :: c.addr :: frees post := by
  simp [hb, hc]

theorem Blocks.merged_lt (h : Blocks s (pre ++ b :: c :: post)) :
    b.len + headerSize + c.len < 2 ^ 31 := by
  have hc : c.addr = b.addr + headerSize + b.len := (Tiles.split_iff.mp h.tiles).2.1
  have := h.bounds (show c ∈ pre ++ b :: c :: post by simp)
  have := h.bounds (show b ∈ pre ++ b :: c :: post by simp)
  have := h.region.start_le
  have := h.region.int_size
  simp only [headerSize] at hc ⊢
  omega

/-- The state after the cursor has moved away from `c`. -/
def awayFrom (s : State) (c b : Nat) : State :=
  { s with nextPtr := if c = s.nextPtr then b else s.nextPtr }

theorem awayFrom_eq (s : State) (c b : Nat) :
    (if c = s.nextPtr then { s with nextPtr := b } else s) = awayFrom s c b := by
  by_cases h : c = s.nextPtr
  · rw [awayFrom, if_pos h, if_pos h]
  · rw [awayFrom, if_neg h, if_neg h]

theorem Blocks.moveCursor (h : Blocks s bs) (hb : p ∈ frees bs) : Blocks (awayFrom s q p) bs := by
  refine ⟨⟨h.region.start_pos, h.region.start_le, h.region.aligned, h.region.addressable,
    h.region.int_size⟩, h.tiles, h.fitted, fun b hb => (h.header b hb).of_mem rfl,
    h.chain.setCursor _, ?_⟩
  rw [awayFrom]
  by_cases he : q = s.nextPtr
  · exact .inr (by simpa only [if_pos he] using hb)
  · simpa only [if_neg he] using h.cursor

theorem Edit.of_awayFrom (hs : s₀ = awayFrom s p q) (h : Edit N s₀ s') : Edit N s s' := by
  subst hs
  exact ⟨by rw [h.rest]; rfl, h.bytes⟩

/-- "coalesce with next neighbor" -/
theorem Blocks.coalesceNext (h : Blocks s (pre ++ b :: c :: post)) (hb : b.free = true)
    (hc : c.free = true) :
    ∃ s', Mem.coalesceNext s b.addr c.addr = some s' ∧ Merge s s' pre b c post := by
  have hpair : frees (pre ++ b :: c :: post) = frees pre ++ b.addr :: c.addr :: frees post :=
    frees_pair hb hc
  obtain ⟨s₀, hs₀⟩ : ∃ s₀, s₀ = awayFrom s c.addr b.addr := ⟨_, rfl⟩
  have h₀ : Blocks s₀ (pre ++ b :: c :: post) := hs₀ ▸ h.moveCursor (by simp [hpair])
  have hbm : b ∈ pre ++ b :: c :: post := by simp
  have hcm : c ∈ pre ++ b :: c :: post := by simp
  have hba := h.addr_aligned hbm
  have hchain := h₀.chain
  rw [hpair, ← List.singleton_append, ← List.append_assoc] at hchain
  obtain ⟨s₁, hs₁, hl₁, hr⟩ := removeFreeNode_spec hchain
  have hN : ∀ a ∈ frees pre ++ [b.addr], s₀.Node a := fun a ha =>
    hchain.node a (List.mem_append_left _ ha)
  have hnb : s₁.Node b.addr := hr.node (h₀.node hbm)
  have hnc : s₁.Node c.addr := hr.node (h₀.node hcm)
  have hlb : intAt s₁.mem b.addr = b.len := (hr.intAt hN hba).trans (h₀.header b hbm).length
  have hlc : intAt s₁.mem c.addr = c.len :=
    (hr.intAt hN (h.addr_aligned hcm)).trans (h₀.header c hcm).length
  have hlen : b.len + headerSize + c.len < 2 ^ 31 := h.merged_lt
  refine ⟨{ s₁ with mem := setInt s₁.mem b.addr (b.len + (c.len + headerSize)) }, ?_,
    ⟨Edit.of_awayFrom hs₀ ⟨?_, fun x hx => ?_⟩, ?_, ?_, fun d hd => ?_, ?_⟩⟩
  · simp only [Mem.coalesceNext, awayFrom_eq, ← hs₀, hs₁, hnb.loadInt, hnc.loadInt, hlb, hlc,
      hnb.storeInt, Option.bind_eq_bind, Option.bind_some]
  · rw [hr.rest]
  · have := hx b.addr (by simp)
    exact (setInt_outside (by omega)).trans (hr.edit.bytes x hx)
  · simpa using hl₁.setInt hba _
  · rw [intAt_setInt]
    · omega
    · omega
    · omega
  · have hdm : d ∈ pre ++ b :: c :: post := by
      rcases List.mem_append.mp hd with hd | hd <;> simp [hd]
    have hda := h.addr_aligned hdm
    have hdb : d.addr ≠ b.addr := h.addr_ne (by
      rcases List.mem_append.mp hd with hd | hd <;> simp [hd])
    refine ((h₀.header d hdm).relink hr hN hda fun hu hm => ?_).setInt hba hda hdb _
    refine h.used_not_mem hdm hu ?_
    rw [hpair]
    rcases List.mem_append.mp hm with hm | hm
    · simp [hm]
    · simp [List.mem_singleton.mp hm]
  · change s₁.nextPtr = _
    rw [hr.nextPtr, hs₀]
    rfl

/-- "coalesce with prev neighbor" -/
theorem Blocks.coalescePrev (h : Blocks s (pre ++ b :: c :: post)) (hb : b.free = true)
    (hc : c.free = true) :
    ∃ s', Mem.coalescePrev s c.addr b.addr = some s' ∧ Merge s s' pre b c post := by
  have hpair : frees (pre ++ b :: c :: post) = frees pre ++ b.addr :: c.addr :: frees post :=
    frees_pair hb hc
  obtain ⟨s₀, hs₀⟩ : ∃ s₀, s₀ = awayFrom s c.addr b.addr := ⟨_, rfl⟩
  have h₀ : Blocks s₀ (pre ++ b :: c :: post) := hs₀ ▸ h.moveCursor (by simp [hpair])
  have hbm : b ∈ pre ++ b :: c :: post := by simp
  have hcm : c ∈ pre ++ b :: c :: post := by simp
  have hba := h.addr_aligned hbm
  have hca := h.addr_aligned hcm
  have hnb := h₀.node hbm
  have hnc := h₀.node hcm
  have hbc := h.addr_ne (List.mem_append_right pre (List.mem_cons_self (a := c) (l := post)))
  have hlen : b.len + headerSize + c.len < 2 ^ 31 := h.merged_lt
  -- `c` leaves the list when `b` is linked to its successor
  have hchain := h₀.chain
  rw [hpair] at hchain
  obtain ⟨m, hm⟩ : ∃ m, m = setPtr s₀.mem (b.addr + 8) (nextAt s₀.mem c.addr) := ⟨_, rfl⟩
  have hchain₁ : FreeList { s₀ with mem := m } (frees pre ++ b.addr :: frees post) := by
    obtain ⟨hA, hb0, -, hc0, hB⟩ := Path.split_iff.mp hchain.path
    have hkeep : ∀ x ∈ frees pre ++ frees post, nextAt m x = nextAt s₀.mem x := fun x hx => by
      rw [← Block.frees_append] at hx
      obtain ⟨d, hd, -, rfl⟩ := Block.mem_frees.mp hx
      have hdm : d ∈ pre ++ b :: c :: post := by
        rcases List.mem_append.mp hd with hd | hd <;> simp [hd]
      rw [hm]
      exact nextAt_setPtr_ne hba (h.addr_aligned hdm) (h.addr_ne (by
        rcases List.mem_append.mp hd with hd | hd <;> simp [hd]))
    refine ⟨Path.split_iff.mpr ⟨hA.congr fun x hx => hkeep x (by simp [hx]), hb0, ?_⟩, ?_, ?_⟩
    · rw [show nextAt m b.addr = nextAt s₀.mem c.addr from hm ▸ ptrAt_setPtr (ptrAt_lt _ _)]
      exact hB.congr fun x hx => hkeep x (by simp [hx])
    · refine hchain.sorted.sublist (List.Sublist.append (.refl _) ?_)
      exact (List.sublist_cons_self c.addr _).cons_cons b.addr
    · intro x hx
      refine (hchain.node x ?_).of_map rfl rfl
      rcases List.mem_append.mp hx with hx | hx
      · simp [hx]
      · rcases List.mem_cons.mp hx with rfl | hx
        · simp
        · simp [hx]
  have hnb₁ : State.Node { s₀ with mem := m } b.addr := hnb.of_map rfl rfl
  have hnc₁ : State.Node { s₀ with mem := m } c.addr := hnc.of_map rfl rfl
  have hlb : intAt m b.addr = b.len := hm ▸ (intAt_setPtr hba hba).trans (h₀.header b hbm).length
  have hlc : intAt m c.addr = c.len := hm ▸ (intAt_setPtr hba hca).trans (h₀.header c hcm).length
  have hchain₂ := hchain₁.setInt hba (b.len + (c.len + headerSize))
  have hcnot : c.addr ∉ frees pre ++ b.addr :: frees post := by
    intro hmem
    obtain ⟨hA, hbc', hAc⟩ := List.pairwise_append.mp hchain.sorted
    obtain ⟨hlt, hcB⟩ := List.pairwise_cons.mp hbc'
    rcases List.mem_append.mp hmem with hmem | hmem
    · exact Nat.lt_irrefl _ (hAc _ hmem c.addr (by simp))
    · rcases List.mem_cons.mp hmem with he | hmem
      · exact hbc he
      · exact Nat.lt_irrefl _ ((List.pairwise_cons.mp hcB).1 _ hmem)
  have hremove := removeFreeNode_absent hchain₂ (by simp) hcnot (h.addr_pos hcm).ne'
  refine ⟨_, ?_, ⟨Edit.of_awayFrom hs₀ ⟨?_, fun x hx => ?_⟩, hchain₂, ?_, fun d hd => ?_, ?_⟩⟩
  · simp only [Mem.coalescePrev, awayFrom_eq, ← hs₀, hnc.loadNext, hnb.storeNext, ← hm,
      hnb₁.loadInt, hnc₁.loadInt, hlb, hlc, hnb₁.storeInt, Option.bind_eq_bind, Option.bind_some]
    exact hremove
  · rfl
  · have := hx b.addr (by simp)
    simp only [hm]
    rw [setInt_outside (by omega), setPtr_outside (by omega)]
  · rw [intAt_setInt]
    · omega
    · omega
    · omega
  · have hdm : d ∈ pre ++ b :: c :: post := by
      rcases List.mem_append.mp hd with hd | hd <;> simp [hd]
    have hda := h.addr_aligned hdm
    have hdb : d.addr ≠ b.addr := h.addr_ne (by
      rcases List.mem_append.mp hd with hd | hd <;> simp [hd])
    have hd₁ : Header { s₀ with mem := m } d :=
      hm ▸ (h₀.header d hdm).setNext hba hda (fun _ => hdb) _
    exact hd₁.setInt hba hda hdb _
  · rw [hs₀]
    rfl

-- ---------------------------------------------------------------------------
-- Finding the neighbours
-- ---------------------------------------------------------------------------

/-- What a turn of the loop of `nextFitCoalesce` makes of its two results. -/
def neighborStep (freed next : Nat) (r : Nat × Bool) (d : Block Int) : Nat × Bool :=
  if d.stop headerSize = freed then (d.addr, r.2)
  else if d.addr = next then (r.1, true)
  else r

theorem Blocks.neighborLoop (h : Blocks s bs) (hfs : ∀ d ∈ fs, d ∈ bs)
    (hp : Path (nextAt s.mem) itr (fs.map Block.addr) 0) (ht : fs.length < turns) :
    Mem.neighborLoop turns s itr freed next r.1 r.2 =
      some (fs.foldl (neighborStep freed next) r) := by
  induction fs generalizing itr turns r with
  | nil =>
    obtain _ | turns := turns
    · omega
    rw [Mem.neighborLoop]
    exact if_pos hp
  | cons d fs ih =>
    obtain ⟨rfl, hd0, hp⟩ := hp
    obtain _ | turns := turns
    · omega
    have hdm := hfs d (by simp)
    have hnode := h.node hdm
    have hstop : ptrAdd d.addr (d.len + headerSize) = d.stop headerSize := by
      have := h.bounds hdm
      have := h.region.addressable
      simp only [ptrAdd, sizeT, Block.stop, headerSize]
      omega
    have ih' (r : Nat × Bool) := ih (r := r) (fun e he => hfs e (List.mem_cons_of_mem _ he)) hp
      (by simpa using ht)
    simp only [Mem.neighborLoop, NULL, if_neg hd0, hnode.loadInt, hnode.loadNext,
      (h.header d hdm).length, hstop, Option.bind_eq_bind, Option.bind_some, List.foldl_cons,
      neighborStep]
    by_cases h1 : d.stop headerSize = freed
    · rw [if_pos h1, if_pos h1]
      exact ih' (d.addr, r.2)
    · rw [if_neg h1, if_neg h1]
      by_cases h2 : d.addr = next
      · rw [if_pos h2, if_pos h2]
        exact ih' (r.1, true)
      · rw [if_neg h2, if_neg h2]
        exact ih' r

theorem foldl_neighborStep_skip (h : ∀ d ∈ fs, d.stop headerSize ≠ freed ∧ d.addr ≠ next) :
    fs.foldl (neighborStep freed next) r = r := by
  induction fs with
  | nil => rfl
  | cons d fs ih =>
    obtain ⟨h1, h2⟩ := h d (by simp)
    rw [List.foldl_cons, neighborStep, if_neg h1, if_neg h2]
    exact ih fun e he => h e (List.mem_cons_of_mem _ he)

/-- The previous neighbour, when it is free. -/
def prevFree (pre : List (Block Int)) : Nat :=
  match pre.getLast? with
  | some d => if d.free then d.addr else NULL
  | none => NULL

/-- Whether the next neighbour is free. -/
def nextFree (post : List (Block Int)) : Bool := post.head?.any Block.free

theorem foldl_before (h : Tiles headerSize lo (pre ++ b :: post) hi) :
    (pre.filter Block.free).foldl (neighborStep b.addr (b.stop headerSize)) (NULL, f) =
      (prevFree pre, f) := by
  have hne : ∀ d ∈ pre, d.addr ≠ b.stop headerSize := fun d hd => by
    have := h.before hd
    simp only [Block.stop, headerSize] at this ⊢
    omega
  rcases pre.eq_nil_or_concat with rfl | ⟨pre, d, rfl⟩
  · rfl
  · rw [List.concat_eq_append] at h hne ⊢
    have hd : d.stop headerSize = b.addr := by
      obtain ⟨-, hb, -⟩ : _ ∧ _ ∧ _ := by simpa [Tiles.split_iff, Tiles] using h
      exact hb.symm
    have hskip : ∀ e ∈ pre.filter Block.free,
        e.stop headerSize ≠ b.addr ∧ e.addr ≠ b.stop headerSize := fun e he => by
      have hem := (List.mem_filter.mp he).1
      refine ⟨?_, hne e (by simp [hem])⟩
      have : e.stop headerSize ≤ d.addr := Tiles.before (by simpa using h) hem
      simp only [Block.stop, headerSize] at this hd ⊢
      omega
    by_cases hf : d.free = true
    · rw [List.filter_append, List.foldl_append, foldl_neighborStep_skip hskip]
      simp [hf, neighborStep, hd, prevFree]
    · rw [List.filter_append, List.foldl_append, foldl_neighborStep_skip hskip]
      simp [hf, prevFree]

theorem foldl_after (h : Tiles headerSize lo (pre ++ b :: post) hi) :
    (post.filter Block.free).foldl (neighborStep b.addr (b.stop headerSize)) (p, false) =
      (p, nextFree post) := by
  cases post with
  | nil => rfl
  | cons d post =>
    have hd : d.addr = b.stop headerSize := (Tiles.split_iff.mp h).2.1
    have hdb : d.stop headerSize ≠ b.addr := by
      simp only [Block.stop, headerSize] at hd ⊢
      omega
    have hskip : ∀ e ∈ post.filter Block.free,
        e.stop headerSize ≠ b.addr ∧ e.addr ≠ b.stop headerSize := fun e he => by
      have hem := (List.mem_filter.mp he).1
      have : d.stop headerSize ≤ e.addr := (Tiles.split_iff.mp h).2.2.bounds hem |>.1
      simp only [Block.stop, headerSize] at this hd ⊢
      omega
    by_cases hf : d.free = true
    · rw [List.filter_cons_of_pos hf, List.foldl_cons, neighborStep, if_neg hdb, if_pos hd,
        foldl_neighborStep_skip hskip]
      simp [nextFree, hf]
    · rw [List.filter_cons_of_neg hf, foldl_neighborStep_skip hskip]
      simp [nextFree, hf]

/-- The loop finds the free neighbours of a free block. -/
theorem Blocks.neighbors (h : Blocks s (pre ++ b :: post)) (hb : b.free = true) :
    Mem.neighborLoop s.turns s s.freeHead b.addr (b.stop headerSize) NULL false =
      some (prevFree pre, nextFree post) := by
  have hlen := h.chain.length_lt
  have hpath := h.chain.path
  rw [frees, List.length_map] at hlen
  rw [frees] at hpath
  refine (h.neighborLoop (r := (NULL, false)) (fun d hd => (List.mem_filter.mp hd).1) hpath
    hlen).trans ?_
  have hself : neighborStep b.addr (b.stop headerSize) (prevFree pre, false) b =
      (prevFree pre, false) := by
    have h1 : b.stop headerSize ≠ b.addr := by
      simp only [Block.stop, headerSize]
      omega
    rw [neighborStep, if_neg h1, if_neg (Ne.symm h1)]
  rw [List.filter_append, List.filter_cons_of_pos hb, List.foldl_append, List.foldl_cons,
    foldl_before h.tiles, hself, foldl_after h.tiles]

-- ---------------------------------------------------------------------------
-- nextFitCoalesce and nextFitFree
-- ---------------------------------------------------------------------------

theorem Blocks.absorbNext (h : Blocks s (pre ++ b :: post)) (hb : b.use = none) :
    ∃ s', (if nextFree post then Mem.coalesceNext s b.addr (b.stop headerSize) else some s) =
        some s' ∧
      Blocks s' (pre ++ (b.absorbNext headerSize post).1 :: (b.absorbNext headerSize post).2) ∧
      Edit (frees (pre ++ b :: post)) s s' ∧ NoStamp s s' := by
  have hbf : b.free = true := by simp [Block.free, hb]
  cases post with
  | nil => exact ⟨s, rfl, h, .refl _ _, .refl _⟩
  | cons c post =>
    by_cases hc : c.free = true
    · obtain ⟨s', hs', hm⟩ := h.coalesceNext hbf hc
      have hca : c.addr = b.stop headerSize := (Tiles.split_iff.mp h.tiles).2.1
      refine ⟨s', ?_, ?_, hm.edit.mono fun a ha => ?_, hm.noStamp h hbf hc⟩
      · rw [← hca, if_pos (by simp [nextFree, hc])]
        exact hs'
      · rw [Block.absorbNext_free hc, hb]
        exact hm.blocks h hbf hc
      · rw [frees_pair hbf hc]
        rcases List.mem_append.mp ha with ha | ha
        · simp [ha]
        · simp [List.mem_singleton.mp ha]
    · refine ⟨s, if_neg (by simp [nextFree, hc]), ?_, .refl _ _, .refl _⟩
      rw [Block.absorbNext_of_not (by simpa using hc)]
      exact h

theorem Blocks.absorbPrev (h : Blocks s (pre ++ b :: post)) (hb : b.use = none) :
    ∃ s', (if prevFree pre ≠ NULL then Mem.coalescePrev s b.addr (prevFree pre) else some s) =
        some s' ∧
      Blocks s' ((Block.absorbPrev headerSize pre b).1 ++
        (Block.absorbPrev headerSize pre b).2 :: post) ∧
      Edit (frees (pre ++ b :: post)) s s' ∧ NoStamp s s' := by
  have hbf : b.free = true := by simp [Block.free, hb]
  rcases pre.eq_nil_or_concat with rfl | ⟨pre, a, rfl⟩
  · exact ⟨s, rfl, h, .refl _ _, .refl _⟩
  · rw [List.concat_eq_append] at h ⊢
    by_cases ha : a.free = true
    · have h' : Blocks s (pre ++ a :: b :: post) := by simpa using h
      obtain ⟨s', hs', hm⟩ := h'.coalescePrev ha hbf
      have hpf : prevFree (pre ++ [a]) = a.addr := by simp [prevFree, ha]
      refine ⟨s', ?_, ?_, hm.edit.mono fun x hx => ?_, hm.noStamp h' ha hbf⟩
      · have ha0 : a.addr ≠ NULL :=
          (h.addr_pos (show a ∈ pre ++ [a] ++ b :: post by simp)).ne'
        rw [hpf, if_pos ha0]
        exact hs'
      · rw [Block.absorbPrev_free ha]
        exact hm.blocks h' ha hbf
      · rcases List.mem_append.mp hx with hx | hx
        · simp [hx]
        · simp [ha, List.mem_singleton.mp hx]
    · have hpf : prevFree (pre ++ [a]) = NULL := by simp [prevFree, ha]
      refine ⟨s, if_neg (by simp [hpf]), ?_, .refl _ _, .refl _⟩
      rw [Block.absorbPrev_of_not (by simpa using ha)]
      exact h

/-- `nextFitCoalesce` merges a free block with its free neighbours. -/
theorem Blocks.nextFitCoalesce (h : Blocks s (pre ++ b :: post)) (hb : b.use = none) :
    ∃ s', Mem.nextFitCoalesce s b.addr = some s' ∧
      Blocks s' (Block.release headerSize pre b post) ∧ Edit (frees (pre ++ b :: post)) s s' ∧
      NoStamp s s' := by
  have hbm : b ∈ pre ++ b :: post := by simp
  have hbf : b.free = true := by simp [Block.free, hb]
  have hstop : ptrAdd b.addr (b.len + headerSize) = b.stop headerSize := by
    have := h.bounds hbm
    have := h.region.addressable
    simp only [ptrAdd, sizeT, Block.stop, headerSize]
    omega
  obtain ⟨addr, len, use⟩ := b
  subst hb
  obtain ⟨s₁, hs₁, h₁, he₁, hn₁⟩ := h.absorbNext rfl
  have huse : (Block.absorbNext headerSize ⟨addr, len, (none : Option Int)⟩ post).1.use = none ∧
      (Block.absorbNext headerSize ⟨addr, len, (none : Option Int)⟩ post).1.addr = addr := by
    unfold Block.absorbNext
    split
    · split <;> exact ⟨rfl, rfl⟩
    · exact ⟨rfl, rfl⟩
  obtain ⟨s₂, hs₂, h₂, he₂, hn₂⟩ := h₁.absorbPrev huse.1
  rw [huse.2] at hs₂
  refine ⟨s₂, ?_, h₂, ?_, hn₁.trans hn₂⟩
  · simp only [Mem.nextFitCoalesce, (h.node hbm).loadInt, (h.header _ hbm).length, hstop,
      h.neighbors hbf, Option.bind_eq_bind, Option.bind_some]
    by_cases hn : nextFree post = true
    · rw [if_pos hn] at hs₁ ⊢
      rw [hs₁]
      exact hs₂
    · rw [if_neg hn] at hs₁ ⊢
      cases hs₁
      exact hs₂
  · refine he₁.trans (he₂.mono fun a ha => ?_)
    rw [Block.frees_append] at ha ⊢
    rcases List.mem_append.mp ha with ha | ha
    · exact List.mem_append_left _ ha
    · exact List.mem_append_right _ (Block.mem_frees_absorbNext ha)

/-- What `nextFitFree` does before it coalesces: the block joins the free
list. -/
theorem Blocks.addFree (h : Blocks s (pre ++ b :: post)) (hb : b.use = some n) :
    ∃ s₁ s₂ s₃, s.storePtr (b.addr + 8) NULL = some s₁ ∧ s₁.loadInt b.addr = some (b.len : Int) ∧
      s₁.storeInt b.addr b.len = some s₂ ∧ addFreeNode s₂ b.addr = some s₃ ∧
      Blocks s₃ (pre ++ ⟨b.addr, b.len, none⟩ :: post) ∧
      Edit (frees pre ++ [b.addr]) s s₃ := by
  have hbm : b ∈ pre ++ b :: post := by simp
  have hmem : ∀ d ∈ pre ++ post, d ∈ pre ++ b :: post := fun d hd => by
    rcases List.mem_append.mp hd with hd | hd <;> simp [hd]
  have hbu : b.free = false := by simp [Block.free, hb]
  have hnode := h.node hbm
  have hba := hnode.aligned
  have hlen := h.len_lt hbm
  have hnode₁ : State.Node { s with mem := setPtr s.mem (b.addr + 8) NULL } b.addr :=
    hnode.of_map rfl rfl
  have hlb : intAt (setPtr s.mem (b.addr + 8) NULL) b.addr = b.len :=
    (intAt_setPtr hba hba).trans (h.header b hbm).length
  -- the two writes leave the list alone, since `b` is not on it
  obtain ⟨m, hm⟩ : ∃ m, m = setInt (setPtr s.mem (b.addr + 8) NULL) b.addr b.len := ⟨_, rfl⟩
  have hsplit : frees (pre ++ b :: post) = frees pre ++ frees post := by simp [hbu]
  have hchain : FreeList { s with mem := m } (frees pre ++ frees post) := by
    rw [hm, ← hsplit]
    exact (h.chain.setNext hba (h.used_not_mem hbm hbu) NULL).setInt hba b.len
  have hnode₂ : State.Node { s with mem := m } b.addr := hnode.of_map rfl rfl
  obtain ⟨s₃, hs₃, hl, hr⟩ := addFreeNode_spec hchain hnode₂ (h.addr_pos hbm).ne'
    (fun x hx => by
      obtain ⟨d, hd, -, rfl⟩ := Block.mem_frees.mp hx
      have := h.tiles.before hd
      simp only [Block.stop, headerSize] at this
      omega)
    (fun x hx => by
      obtain ⟨d, hd, -, rfl⟩ := Block.mem_frees.mp hx
      have := h.tiles.after hd
      simp only [Block.stop, headerSize] at this
      omega)
  have hN : ∀ a ∈ frees pre ++ [b.addr], State.Node { s with mem := m } a := fun a ha => by
    rcases List.mem_append.mp ha with ha | ha
    · exact hchain.node a (by simp [ha])
    · exact List.mem_singleton.mp ha ▸ hnode₂
  have hother : ∀ d ∈ pre ++ post, Header s₃ d := fun d hd => by
    have hda := h.addr_aligned (hmem d hd)
    have hdb := h.addr_ne hd
    have hd₁ : Header { s with mem := setPtr s.mem (b.addr + 8) NULL } d :=
      (h.header d (hmem d hd)).setNext hba hda (fun _ => hdb) NULL
    have hd₂ : Header { s with mem := m } d := hm ▸ hd₁.setInt hba hda hdb b.len
    refine hd₂.relink hr hN hda fun hu hmem' => ?_
    rcases List.mem_append.mp hmem' with hmem' | hmem'
    · exact h.used_not_mem (hmem d hd) hu (by simp [hmem'])
    · exact hdb (List.mem_singleton.mp hmem')
  have hedit : Edit (frees pre ++ [b.addr]) s s₃ := by
    refine ⟨by rw [hr.rest], fun x hx => (hr.edit.bytes x hx).trans ?_⟩
    have := hx b.addr (by simp)
    simp only [hm]
    rw [setInt_outside (by omega), setPtr_outside (by omega)]
  have hfrees : frees (pre ++ ⟨b.addr, b.len, none⟩ :: post) = frees pre ++ b.addr :: frees post := by
    simp [Block.frees_cons, Block.free]
  refine ⟨_, _, s₃, hnode.storeNext NULL, hnode₁.loadInt.trans (congrArg some hlb),
    hnode₁.storeInt b.len, hm ▸ hs₃, ⟨h.region.of_edit hedit, ?_, fun d hd => ?_, fun d hd => ?_,
    hfrees ▸ hl, ?_⟩, hedit⟩
  · have hmap : s₃.nextFitRegionStartPtr = s.nextFitRegionStartPtr ∧
        s₃.mapStart + s₃.mapLen = s.mapStart + s.mapLen := by rw [hr.rest]; exact ⟨rfl, rfl⟩
    rw [hmap.1, hmap.2]
    exact Tiles.split_iff.mpr ⟨(Tiles.split_iff.mp h.tiles).1, (Tiles.split_iff.mp h.tiles).2⟩
  · rcases List.mem_append.mp hd with hd | hd
    · exact h.fitted d (by simp [hd])
    · rcases List.mem_cons.mp hd with rfl | hd
      · exact ⟨(h.fitted b hbm).aligned, fun n hn => by cases hn⟩
      · exact h.fitted d (by simp [hd])
  · rcases List.mem_append.mp hd with hd | hd
    · exact hother d (by simp [hd])
    · rcases List.mem_cons.mp hd with rfl | hd
      · refine ⟨(hr.intAt hN hba).trans ?_, fun hu => by simp [Block.free] at hu⟩
        rw [hm]
        exact intAt_setInt (by omega) (by omega)
      · exact hother d (by simp [hd])
  · have hc := h.cursor
    rw [hsplit] at hc
    rw [hr.nextPtr, hfrees]
    refine hc.imp_right fun hmem' => ?_
    rcases List.mem_append.mp hmem' with hmem' | hmem'
    · exact List.mem_append_left _ hmem'
    · exact List.mem_append_right _ (List.mem_cons_of_mem _ hmem')

/-- `nextFitFree` of a block in use succeeds and releases the block; its
header no longer holds `MAGIC`, and no other has come to. -/
theorem Heap.nextFitFree (h : Heap s (pre ++ b :: post)) (hb : b.use = some n) :
    ∃ s', Mem.nextFitFree s (b.addr + headerSize) = some (s', 0) ∧
      Heap s' (Block.release headerSize pre b post) ∧
      Edit (frees pre ++ b.addr :: frees post) s s' ∧ NoStamp s s' ∧
      nextAt s'.mem b.addr ≠ MAGIC := by
  have hbm : b ∈ pre ++ b :: post := by simp
  have hbu : b.free = false := by simp [Block.free, hb]
  have hptr : ptrAdd (b.addr + headerSize) (-headerSize) = b.addr := by
    have := (h.node hbm).addressable
    simp only [ptrAdd, sizeT, headerSize]
    omega
  have hmagic : ¬nextAt s.mem b.addr ≠ MAGIC := not_not_intro ((h.header b hbm).magic hbu)
  obtain ⟨s₁, s₂, s₃, hs₁, hlen, hs₂, hs₃, h₃, he₃⟩ := h.addFree hb
  obtain ⟨s', hs', h', he', hn'⟩ := h₃.nextFitCoalesce rfl
  have hn₃ : NoStamp s s₃ := .of_edit he₃ h₃ fun a ha => by
    rw [Block.frees_append, Block.frees_cons_free (by rfl)]
    rcases List.mem_append.mp ha with ha | ha
    · simp [ha]
    · simp [List.mem_singleton.mp ha]
  have hgone : nextAt s₃.mem b.addr ≠ MAGIC :=
    h₃.free_not_magic (b := ⟨b.addr, b.len, none⟩) (by simp) rfl
  refine ⟨s', ?_, ⟨h', ?_⟩, (he₃.mono fun a ha => ?_).trans (he'.mono fun a ha => ?_),
    hn₃.trans hn', fun hm => hgone (hn' _ (h.addr_aligned hbm) hm)⟩
  · simp only [Mem.nextFitFree, hptr, (h.node hbm).loadNext, if_neg hmagic, hs₁, hlen, hs₂, hs₃,
      hs', Option.bind_eq_bind, Option.bind_some]
  · exact h.coalesced.release
  · rcases List.mem_append.mp ha with ha | ha
    · simp [ha]
    · simp [List.mem_singleton.mp ha]
  · simpa [Block.frees_cons, Block.free] using ha

end

end PerrOS.Mem
