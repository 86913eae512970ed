import Mathlib.Data.List.Chain
import Mathlib.Data.List.Basic

/-!
# Blocks laid end to end

An allocator's view of an interval of addresses: blocks, each a header of
`hdr` bytes and a payload, that tile the interval in address order. A block
is free or in use with a tag. Allocation carves a free block; release frees a
block and merges it with its free neighbours, so that no two free blocks are
ever adjacent.
-/

namespace Lib

structure Block (Tag : Type u) where
  addr : Nat
  len : Nat
  use : Option Tag
deriving DecidableEq, Repr

namespace Block

variable {Tag : Type u} {hdr lo hi : Nat} {b c : Block Tag} {bs pre post : List (Block Tag)}

def free (b : Block Tag) : Bool := b.use.isNone

/-- The first address after the block. -/
def stop (hdr : Nat) (b : Block Tag) : Nat := b.addr + hdr + b.len

def Tiles (hdr : Nat) : Nat → List (Block Tag) → Nat → Prop
  | lo, [], hi => lo = hi
  | lo, b :: bs, hi => b.addr = lo ∧ Tiles hdr (b.stop hdr) bs hi

/-- The addresses of the free blocks, lowest first. -/
def frees (bs : List (Block Tag)) : List Nat := (bs.filter free).map addr

/-- The blocks in use, lowest first. -/
def used (bs : List (Block Tag)) : List (Block Tag) := bs.filter fun b => !b.free

def Coalesced (bs : List (Block Tag)) : Prop :=
  bs.IsChain fun b c => ¬(b.free = true ∧ c.free = true)

-- ---------------------------------------------------------------------------
-- Tilings
-- ---------------------------------------------------------------------------

theorem Tiles.split_iff :
    Tiles hdr lo (pre ++ b :: post) hi ↔ Tiles hdr lo pre b.addr ∧ Tiles hdr (b.stop hdr) post hi := by
  induction pre generalizing lo with
  | nil => simp [Tiles, eq_comm]
  | cons a pre ih => simp [Tiles, ih, and_assoc]

theorem Tiles.le (h : Tiles hdr lo bs hi) : lo ≤ hi := by
  induction bs generalizing lo with
  | nil => exact Nat.le_of_eq h
  | cons b bs ih =>
    obtain ⟨rfl, h⟩ := h
    have := ih h
    simp only [stop] at this
    omega

theorem Tiles.bounds (h : Tiles hdr lo bs hi) (hb : b ∈ bs) : lo ≤ b.addr ∧ b.stop hdr ≤ hi := by
  obtain ⟨pre, post, rfl⟩ := List.append_of_mem hb
  obtain ⟨hpre, hpost⟩ := split_iff.mp h
  exact ⟨hpre.le, hpost.le⟩

theorem Tiles.before (h : Tiles hdr lo (pre ++ b :: post) hi) (hc : c ∈ pre) :
    c.stop hdr ≤ b.addr := ((split_iff.mp h).1.bounds hc).2

theorem Tiles.after (h : Tiles hdr lo (pre ++ b :: post) hi) (hc : c ∈ post) :
    b.stop hdr ≤ c.addr := ((split_iff.mp h).2.bounds hc).1

/-- Two blocks of a tiling are the same or one lies before the other. -/
theorem Tiles.apart (h : Tiles hdr lo bs hi) (hb : b ∈ bs) (hc : c ∈ bs) :
    b = c ∨ b.stop hdr ≤ c.addr ∨ c.stop hdr ≤ b.addr := by
  obtain ⟨pre, post, rfl⟩ := List.append_of_mem hb
  rcases List.mem_append.mp hc with hc | hc
  · exact .inr (.inr (h.before hc))
  · rcases List.mem_cons.mp hc with rfl | hc
    · exact .inl rfl
    · exact .inr (.inl (h.after hc))

theorem Tiles.eq_of_addr (h : Tiles hdr lo bs hi) (hd : 0 < hdr) (hb : b ∈ bs) (hc : c ∈ bs)
    (he : b.addr = c.addr) : b = c := by
  rcases h.apart hb hc with h | h | h
  · exact h
  · simp only [stop] at h
    omega
  · simp only [stop] at h
    omega

/-- In a tiling a block that starts where `b` stops is the next one. -/
theorem Tiles.next_of_addr (h : Tiles hdr lo (pre ++ b :: post) hi) (hd : 0 < hdr)
    (hc : c ∈ pre ++ b :: post) (he : c.addr = b.stop hdr) : ∃ post', post = c :: post' := by
  have hbc : b.addr < c.addr := by
    simp only [he, stop]
    omega
  have hc : c ∈ post := by
    rcases List.mem_append.mp hc with hc | hc
    · have := h.before hc
      simp only [stop] at this
      omega
    · rcases List.mem_cons.mp hc with rfl | hc
      · omega
      · exact hc
  obtain ⟨mid, post', rfl⟩ := List.append_of_mem hc
  have hpost := (split_iff.mp h).2
  cases mid with
  | nil => exact ⟨post', rfl⟩
  | cons d mid =>
    have hd' : d.addr = b.stop hdr := hpost.1
    have : Tiles hdr (b.stop hdr) ((d :: mid) ++ c :: post') hi := hpost
    have := this.before List.mem_cons_self
    simp only [stop] at this hd' he
    omega

-- ---------------------------------------------------------------------------
-- Free and used blocks
-- ---------------------------------------------------------------------------

@[simp] theorem frees_nil : frees ([] : List (Block Tag)) = [] := rfl

@[simp] theorem frees_append : frees (bs ++ cs) = frees bs ++ frees cs := by simp [frees]

theorem frees_cons : frees (b :: bs) = if b.free then b.addr :: frees bs else frees bs := by
  by_cases hb : b.free <;> simp [frees, hb]

@[simp] theorem frees_cons_free (hb : b.free = true) : frees (b :: bs) = b.addr :: frees bs := by
  simp [frees_cons, hb]

@[simp] theorem frees_cons_used (hb : b.free = false) : frees (b :: bs) = frees bs := by
  simp [frees_cons, hb]

@[simp] theorem used_nil : used ([] : List (Block Tag)) = [] := rfl

@[simp] theorem used_append : used (bs ++ cs) = used bs ++ used cs := by simp [used]

@[simp] theorem used_cons_free (hb : b.free = true) : used (b :: bs) = used bs := by
  simp [used, hb]

@[simp] theorem used_cons_used (hb : b.free = false) : used (b :: bs) = b :: used bs := by
  simp [used, hb]

theorem mem_frees : a ∈ frees bs ↔ ∃ b ∈ bs, b.free = true ∧ b.addr = a := by
  simp [frees, and_assoc]

theorem mem_used : b ∈ used bs ↔ b ∈ bs ∧ b.free = false := by
  simp [used]

-- ---------------------------------------------------------------------------
-- Carving and releasing
-- ---------------------------------------------------------------------------

/-- The blocks that a free block becomes when `n` bytes of it are taken:
the taken block, and the rest unless it was used up exactly. -/
def carve (hdr : Nat) (b : Block Tag) (n : Nat) (t : Tag) : List (Block Tag) :=
  ⟨b.addr, n, some t⟩ ::
    if b.len = n then [] else [⟨b.addr + hdr + n, b.len - n - hdr, none⟩]

theorem Tiles.carve (h : Tiles hdr lo (pre ++ b :: post) hi)
    (hn : b.len = n ∨ n + hdr ≤ b.len) :
    Tiles hdr lo (pre ++ (b.carve hdr n t ++ post)) hi := by
  obtain ⟨hpre, hpost⟩ := split_iff.mp h
  by_cases he : b.len = n
  · simp only [Block.carve, if_pos he, List.cons_append, List.nil_append]
    exact split_iff.mpr ⟨hpre, by simpa [stop, he] using hpost⟩
  · simp only [Block.carve, if_neg he, List.cons_append, List.nil_append]
    refine split_iff.mpr ⟨hpre, rfl, ?_⟩
    have hs : b.addr + hdr + n + hdr + (b.len - n - hdr) = b.addr + hdr + b.len := by omega
    simpa [stop, hs] using hpost

theorem used_carve : used (b.carve hdr n t) = [⟨b.addr, n, some t⟩] := by
  by_cases he : b.len = n <;> simp [carve, used, free, he]

theorem Coalesced.carve (h : Coalesced (pre ++ b :: post)) (hb : b.free = true) :
    Coalesced (pre ++ (b.carve hdr n t ++ post)) := by
  obtain ⟨hpre, hpost, hj⟩ := List.isChain_append.mp h
  by_cases he : b.len = n
  · simp only [Block.carve, if_pos he, List.cons_append, List.nil_append]
    refine List.isChain_append.mpr ⟨hpre, List.isChain_cons.mpr ⟨?_, hpost.tail⟩, ?_⟩
    · simp [free]
    · simp [free]
  · simp only [Block.carve, if_neg he, List.cons_append, List.nil_append]
    refine List.isChain_append.mpr
      ⟨hpre, List.isChain_cons.mpr ⟨?_, List.isChain_cons.mpr ⟨?_, hpost.tail⟩⟩, ?_⟩
    · simp [free]
    · intro c hc
      have := (List.isChain_cons.mp hpost).1 c hc
      simp_all
    · simp [free]

/-- The block grown over the next one, when that is free. -/
def absorbNext (hdr : Nat) (b : Block Tag) : List (Block Tag) → Block Tag × List (Block Tag)
  | c :: post =>
    if c.free then (⟨b.addr, b.len + hdr + c.len, b.use⟩, post) else (b, c :: post)
  | [] => (b, [])

/-- The block absorbed by the one before, when that is free. -/
def absorbPrev (hdr : Nat) (pre : List (Block Tag)) (b : Block Tag) :
    List (Block Tag) × Block Tag :=
  match pre.getLast? with
  | some a =>
    if a.free then (pre.dropLast, ⟨a.addr, a.len + hdr + b.len, none⟩) else (pre, b)
  | none => (pre, b)

/-- The tiling after `b` is freed and merged with its free neighbours. -/
def release (hdr : Nat) (pre : List (Block Tag)) (b : Block Tag) (post : List (Block Tag)) :
    List (Block Tag) :=
  let next := absorbNext hdr ⟨b.addr, b.len, none⟩ post
  let prev := absorbPrev hdr pre next.1
  prev.1 ++ prev.2 :: next.2

theorem absorbNext_free (hc : c.free = true) :
    absorbNext hdr b (c :: post) = (⟨b.addr, b.len + hdr + c.len, b.use⟩, post) := by
  simp [absorbNext, hc]

theorem absorbNext_of_not (h : ∀ c ∈ post.head?, c.free = false) :
    absorbNext hdr b post = (b, post) := by
  cases post with
  | nil => rfl
  | cons c post => simp [absorbNext, h c (by simp)]

theorem absorbPrev_free (ha : a.free = true) :
    absorbPrev hdr (pre ++ [a]) b = (pre, ⟨a.addr, a.len + hdr + b.len, none⟩) := by
  simp [absorbPrev, ha]

theorem absorbPrev_of_not (h : ∀ a ∈ pre.getLast?, a.free = false) :
    absorbPrev hdr pre b = (pre, b) := by
  unfold absorbPrev
  split
  · simp_all
  · rfl

/-- Growing a block over the next one frees no new address. -/
theorem mem_frees_absorbNext
    (h : a ∈ frees ((absorbNext hdr b post).1 :: (absorbNext hdr b post).2)) :
    a ∈ frees (b :: post) := by
  cases post with
  | nil => exact h
  | cons c post =>
    by_cases hc : c.free = true
    · rw [absorbNext_free hc] at h
      by_cases hb : b.free = true
      · rw [frees_cons_free (by exact hb)] at h
        rw [frees_cons_free hb, frees_cons_free hc]
        rcases List.mem_cons.mp h with h | h
        · exact List.mem_cons.mpr (.inl h)
        · exact List.mem_cons_of_mem _ (List.mem_cons_of_mem _ h)
      · have hb : b.free = false := (Bool.not_eq_true _).mp hb
        rw [frees_cons_used (by exact hb)] at h
        rw [frees_cons_used hb, frees_cons_free hc]
        exact List.mem_cons_of_mem _ h
    · rw [absorbNext_of_not (by simpa using hc)] at h
      exact h

theorem Tiles.absorbNext (h : Tiles hdr lo (pre ++ b :: post) hi) :
    Tiles hdr lo (pre ++ (b.absorbNext hdr post).1 :: (b.absorbNext hdr post).2) hi := by
  cases post with
  | nil => exact h
  | cons c post =>
    by_cases hc : c.free = true
    · rw [absorbNext_free hc]
      obtain ⟨hpre, hc', hpost⟩ := split_iff.mp h
      refine split_iff.mpr ⟨hpre, ?_⟩
      simp only [stop] at hc' hpost ⊢
      rw [show b.addr + hdr + (b.len + hdr + c.len) = c.addr + hdr + c.len by omega]
      exact hpost
    · rw [absorbNext_of_not (by simpa using hc)]
      exact h

theorem Tiles.absorbPrev (h : Tiles hdr lo (pre ++ b :: post) hi) :
    Tiles hdr lo ((Block.absorbPrev hdr pre b).1 ++ (Block.absorbPrev hdr pre b).2 :: post) hi := by
  rcases pre.eq_nil_or_concat with rfl | ⟨pre, a, rfl⟩
  · exact h
  · by_cases ha : a.free = true
    · rw [List.concat_eq_append, absorbPrev_free ha]
      obtain ⟨hpre, hb, hpost⟩ : _ ∧ _ ∧ _ := by
        simpa [Tiles.split_iff, Tiles] using h
      refine split_iff.mpr ⟨hpre, ?_⟩
      simp only [stop] at hb hpost ⊢
      rw [show a.addr + hdr + (a.len + hdr + b.len) = b.addr + hdr + b.len by omega]
      exact hpost
    · rw [absorbPrev_of_not (by simpa using ha)]
      exact h

theorem Tiles.release (h : Tiles hdr lo (pre ++ b :: post) hi) :
    Tiles hdr lo (Block.release hdr pre b post) hi := by
  have h' : Tiles hdr lo (pre ++ ⟨b.addr, b.len, none⟩ :: post) hi :=
    split_iff.mpr ⟨(split_iff.mp h).1, (split_iff.mp h).2⟩
  exact h'.absorbNext.absorbPrev

theorem used_release : used (release hdr pre b post) = used pre ++ used post := by
  have hnext (b' : Block Tag) (hb' : b'.free = true) :
      (b'.absorbNext hdr post).1.free = true ∧ used (b'.absorbNext hdr post).2 = used post := by
    cases post with
    | nil => exact ⟨hb', rfl⟩
    | cons c post =>
      by_cases hc : c.free = true
      · rw [absorbNext_free hc, used_cons_free hc]
        exact ⟨hb', rfl⟩
      · rw [absorbNext_of_not (by simpa using hc)]
        exact ⟨hb', rfl⟩
  obtain ⟨hf, hu⟩ := hnext ⟨b.addr, b.len, none⟩ rfl
  simp only [release]
  rcases pre.eq_nil_or_concat with rfl | ⟨pre, a, rfl⟩
  · rw [absorbPrev_of_not (by simp)]
    simp [hf, hu]
  · rw [List.concat_eq_append]
    by_cases ha : a.free = true
    · rw [absorbPrev_free ha]
      simp [ha, hu, used_cons_free (b := ⟨a.addr, _, none⟩) rfl]
    · rw [absorbPrev_of_not (by simpa using ha)]
      simp only [used_append, used_cons_free hf, hu]

/-- Releasing keeps free blocks from being adjacent. -/
theorem Coalesced.release (h : Coalesced (pre ++ b :: post)) :
    Coalesced (Block.release hdr pre b post) := by
  -- what is left of either side starts, towards the freed block, with a used one
  have hpost : ∃ b' post', (Block.absorbNext hdr ⟨b.addr, b.len, none⟩ post) = (b', post') ∧
      Coalesced post' ∧ ∀ c ∈ post'.head?, c.free = false := by
    have hc : Coalesced (b :: post) := (List.isChain_append.mp h).2.1
    cases post with
    | nil => exact ⟨_, _, rfl, .nil, by simp⟩
    | cons c post =>
      have hc := hc.tail
      by_cases hf : c.free = true
      · refine ⟨_, _, absorbNext_free hf, hc.tail, fun d hd => ?_⟩
        have := (List.isChain_cons.mp hc).1 d hd
        simp_all
      · refine ⟨_, _, absorbNext_of_not (by simpa using hf), hc, by simpa using hf⟩
  have hpre (b' : Block Tag) : ∃ pre' b'', Block.absorbPrev hdr pre b' = (pre', b'') ∧
      Coalesced pre' ∧ ∀ a ∈ pre'.getLast?, a.free = false := by
    have hp : Coalesced pre := (List.isChain_append.mp h).1
    rcases pre.eq_nil_or_concat with rfl | ⟨pre, a, rfl⟩
    · exact ⟨_, _, absorbPrev_of_not (by simp), hp, by simp⟩
    · rw [List.concat_eq_append] at hp ⊢
      by_cases hf : a.free = true
      · obtain ⟨hp, -, hj⟩ := List.isChain_append.mp hp
        refine ⟨_, _, absorbPrev_free hf, hp, fun d hd => ?_⟩
        have := hj d hd a (by simp)
        simp_all
      · exact ⟨_, _, absorbPrev_of_not (by simpa using hf), hp, by simpa using hf⟩
  obtain ⟨b', post', hn, hcpost, hhead⟩ := hpost
  obtain ⟨pre', b'', hp, hcpre, hlast⟩ := hpre b'
  simp only [Block.release, hn, hp]
  refine List.isChain_append.mpr ⟨hcpre, List.isChain_cons.mpr ⟨?_, hcpost⟩, ?_⟩
  · intro c hc
    simp [hhead c hc]
  · intro a ha c hc
    simp [hlast a ha]

/-- A tiling without used blocks whose free blocks are coalesced is one block. -/
theorem Tiles.all_free (h : Tiles hdr lo bs hi) (hc : Coalesced bs) (hu : used bs = [])
    (hlt : lo < hi) : bs = [⟨lo, hi - lo - hdr, none⟩] := by
  have hfree : ∀ b ∈ bs, b.free = true := by
    intro b hb
    by_contra hf
    have := mem_used.mpr ⟨hb, by simpa using hf⟩
    simp [hu] at this
  match bs, h, hc, hfree with
  | [], h, _, _ => exact absurd h (Nat.ne_of_lt hlt)
  | [⟨addr, len, use⟩], ht, _, hfree =>
    obtain ⟨rfl, hhi⟩ := ht
    cases Option.isNone_iff_eq_none.mp (hfree _ (List.mem_singleton_self _))
    change addr + hdr + len = hi at hhi
    have hl : hi - addr - hdr = len := by omega
    rw [hl]
  | b :: c :: bs, _, hc, hfree =>
    exact absurd ⟨hfree b (by simp), hfree c (by simp)⟩ (List.isChain_cons_cons.mp hc).1

end Block

end Lib
