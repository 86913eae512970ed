import PerrOS.Mem.Access

/-!
# The free list

`removeFreeNode` and `addFreeNode` on a free list of any length: which list
results, and that only `next` fields change.
-/

namespace PerrOS.Mem

open Lib (Memory Path)

/-- The free list of `s` is `L`: linked from `freeHead`, in address order. -/
structure FreeList (s : State) (L : List Nat) : Prop where
  path : Path (nextAt s.mem) s.freeHead L 0
  sorted : L.Pairwise (· < ·)
  node : ∀ a ∈ L, s.Node a

section
variable {s s' : State} {L A B : List Nat} {a z : Nat}

theorem sorted_length_le (hs : L.Pairwise (· < ·)) (hb : ∀ a ∈ L, lo ≤ a ∧ a < hi) :
    L.length ≤ hi - lo := by
  induction L generalizing lo with
  | nil => simp
  | cons a L ih =>
    obtain ⟨ha, hs⟩ := List.pairwise_cons.mp hs
    have hab := hb a List.mem_cons_self
    have := ih hs fun b hbL =>
      ⟨ha b hbL, (hb b (List.mem_cons_of_mem _ hbL)).2⟩
    simp only [List.length_cons]
    omega

/-- A free list has fewer nodes than a loop has turns. -/
theorem FreeList.length_lt (h : FreeList s L) : L.length < s.turns := by
  have : L.length ≤ s.mapStart + s.mapLen - s.mapStart := sorted_length_le h.sorted fun a ha => by
    have := (h.node a ha).mapped
    simp only [State.Mapped] at this
    omega
  simp only [State.turns]
  omega

theorem FreeList.freeHead_eq_null (h : FreeList s L) : s.freeHead = NULL ↔ L = [] :=
  h.path.eq_nil_iff.symm

/-- The list depends on `freeHead`, its own `next` fields and the mapping. -/
theorem FreeList.congr (h : FreeList s L) (hhead : s'.freeHead = s.freeHead)
    (hnext : ∀ a ∈ L, nextAt s'.mem a = nextAt s.mem a)
    (hstart : s'.mapStart = s.mapStart) (hlen : s'.mapLen = s.mapLen) : FreeList s' L :=
  ⟨hhead ▸ h.path.congr hnext, h.sorted, fun a ha => (h.node a ha).of_map hstart hlen⟩

theorem FreeList.setInt (h : FreeList s L) (ha : a % 16 = 0) (v : Int) :
    FreeList { s with mem := setInt s.mem a v } L :=
  h.congr rfl (fun b hb => nextAt_setInt ha (h.node b hb).aligned) rfl rfl

theorem FreeList.setNext (h : FreeList s L) (ha : a % 16 = 0) (haL : a ∉ L) (p : Nat) :
    FreeList { s with mem := setPtr s.mem (a + 8) p } L :=
  h.congr rfl (fun b hb => nextAt_setPtr_ne ha (h.node b hb).aligned
    fun he => haL (he ▸ hb)) rfl rfl

theorem FreeList.setCursor (h : FreeList s L) (p : Nat) : FreeList { s with nextPtr := p } L :=
  h.congr rfl (fun _ _ => rfl) rfl rfl

/-- The pointer to the rest of a list is its first node, or null. -/
theorem path_head (h : Path next p L 0) : p = L.headD 0 := by
  cases L with
  | nil => exact h
  | cons a L => exact h.1

-- ---------------------------------------------------------------------------
-- removeFreeNode
-- ---------------------------------------------------------------------------

theorem removeLoop_eq (hp : Path (nextAt s.mem) itr (A ++ z :: a :: B) 0)
    (hn : ∀ x ∈ A ++ z :: a :: B, s.Node x) (ha : a ∉ A ++ [z]) (ht : A.length < turns) :
    removeLoop turns s itr a =
      some { s with mem := setPtr s.mem (z + 8) (nextAt s.mem a) } := by
  induction A generalizing itr turns with
  | nil =>
    obtain ⟨rfl, hz, ha', -⟩ := hp
    obtain _ | turns := turns
    · omega
    simp only [removeLoop, NULL, if_neg hz, (hn itr (by simp)).loadNext, (hn a (by simp)).loadNext,
      (hn itr (by simp)).storeNext, Option.bind_eq_bind, Option.bind_some, if_pos ha']
  | cons x A ih =>
    obtain ⟨rfl, hx, hp⟩ := hp
    obtain _ | turns := turns
    · omega
    have hne : nextAt s.mem itr ≠ a := by
      intro he
      cases A with
      | nil => exact ha (by simp [← he, hp.1])
      | cons y A => exact ha (by simp [← he, hp.1])
    simp only [removeLoop, NULL, if_neg hx, (hn itr (by simp)).loadNext, Option.bind_eq_bind,
      Option.bind_some, if_neg hne]
    exact ih hp (fun y hy => hn y (by simp_all)) (fun hm => ha (by simp_all))
      (by simpa using ht)

theorem removeFreeNode_spec (h : FreeList s (A ++ a :: B)) :
    ∃ s', removeFreeNode s a = some s' ∧ FreeList s' (A ++ B) ∧ Relink A s s' := by
  have hsorted : (A ++ B).Pairwise (· < ·) :=
    h.sorted.sublist (List.sublist_append_iff.mpr
      ⟨A, B, rfl, List.Sublist.refl A, List.sublist_cons_self a B⟩)
  have hnode := h.node a (by simp)
  rcases A.eq_nil_or_concat with rfl | ⟨A, z, rfl⟩
  · obtain ⟨hhead, -, hB⟩ := h.path
    refine ⟨{ s with freeHead := nextAt s.mem a }, ?_, ⟨hB, hsorted, fun b hb => ?_⟩,
      ⟨rfl, fun _ _ => rfl⟩⟩
    · rw [removeFreeNode, if_pos hhead, hhead, hnode.loadNext]
      rfl
    · exact (h.node b (List.mem_cons_of_mem a hb)).of_map rfl rfl
  · simp only [List.concat_eq_append, List.append_assoc, List.singleton_append] at h hsorted ⊢
    have hzn := h.node z (by simp)
    have hza : ∀ x ∈ A ++ [z], x < a := fun x hx =>
      (List.pairwise_append.mp (by simpa using h.sorted :
        ((A ++ [z]) ++ a :: B).Pairwise (· < ·))).2.2 x hx a (by simp)
    have hne : s.freeHead ≠ a := by
      intro he
      have hm : s.freeHead ∈ A ++ [z] := by
        have := path_head h.path
        cases A with
        | nil => simp_all
        | cons y A => simp_all
      have := hza _ hm
      omega
    obtain ⟨hz, hz0, -, ha0, hB⟩ := Path.split_iff.mp h.path
    refine ⟨{ s with mem := setPtr s.mem (z + 8) (nextAt s.mem a) }, ?_,
      ⟨?_, hsorted, fun b hb => ?_⟩, ⟨rfl, fun x hx => ?_⟩⟩
    · rw [removeFreeNode, if_neg hne]
      refine removeLoop_eq h.path h.node (fun hm => ?_) ?_
      · exact absurd (hza a hm) (Nat.lt_irrefl a)
      · have := h.length_lt
        simp only [List.length_append] at this
        omega
    · -- only the last node before `a` is redirected
      refine Path.split_iff.mpr ⟨hz.congr fun x hx => ?_, hz0, ?_⟩
      · have hlt := (List.pairwise_append.mp h.sorted).2.2 x hx z (by simp)
        exact nextAt_setPtr_ne hzn.aligned (h.node x (by simp [hx])).aligned (by omega)
      · rw [show nextAt (setPtr s.mem (z + 8) (nextAt s.mem a)) z = nextAt s.mem a from
          ptrAt_setPtr (ptrAt_lt _ _)]
        refine hB.congr fun x hx => ?_
        have hlt := (List.pairwise_cons.mp (List.pairwise_append.mp h.sorted).2.1).1 x (by simp [hx])
        exact nextAt_setPtr_ne hzn.aligned (h.node x (by simp [hx])).aligned (by omega)
    · exact (h.node b (by
        rcases List.mem_append.mp hb with hb | hb
        · simp [hb]
        · rcases List.mem_cons.mp hb with rfl | hb
          · simp
          · simp [hb])).of_map rfl rfl
    · have := hx z (by simp)
      exact setPtr_outside (by omega)

theorem removeLoop_absent (hp : Path (nextAt s.mem) itr L 0) (hn : ∀ x ∈ L, s.Node x)
    (ha : a ∉ L) (ha0 : a ≠ 0) (ht : L.length < turns) : removeLoop turns s itr a = some s := by
  induction L generalizing itr turns with
  | nil =>
    obtain _ | turns := turns
    · omega
    rw [removeLoop]
    exact if_pos hp
  | cons x L ih =>
    obtain ⟨rfl, hx, hp⟩ := hp
    obtain _ | turns := turns
    · omega
    have hne : nextAt s.mem itr ≠ a := by
      rw [path_head hp]
      cases L with
      | nil => exact Ne.symm ha0
      | cons y L => exact fun he => ha (by simp [← he])
    simp only [removeLoop, NULL, if_neg hx, (hn itr (by simp)).loadNext, Option.bind_eq_bind,
      Option.bind_some, if_neg hne]
    exact ih hp (fun y hy => hn y (List.mem_cons_of_mem _ hy))
      (fun hm => ha (List.mem_cons_of_mem _ hm)) (by simpa using ht)

/-- Removing a node that is not in a nonempty list does nothing. -/
theorem removeFreeNode_absent (h : FreeList s L) (hL : L ≠ []) (ha : a ∉ L) (ha0 : a ≠ 0) :
    removeFreeNode s a = some s := by
  have hne : s.freeHead ≠ a := by
    rw [path_head h.path]
    cases L with
    | nil => exact absurd rfl hL
    | cons y L => exact fun he => ha (by simp [← he])
  rw [removeFreeNode, if_neg hne]
  exact removeLoop_absent h.path h.node ha ha0 h.length_lt

-- ---------------------------------------------------------------------------
-- addFreeNode
-- ---------------------------------------------------------------------------

/-- What `addLoop` writes: `a` is linked in between `z` and its successor. -/
structure LinkedAfter (m : Memory) (z a : Nat) (m' : Memory) : Prop where
  prev : nextAt m' z = a
  next : nextAt m' a = nextAt m z
  bytes : ∀ x, (x < z + 8 ∨ z + 16 ≤ x) → (x < a + 8 ∨ a + 16 ≤ x) → m' x = m x

theorem addLoop_eq (hp : Path (nextAt s.mem) itr (A ++ z :: B) 0)
    (hn : ∀ x ∈ A ++ z :: B, s.Node x) (ha : s.Node a)
    (hA : ∀ x ∈ A ++ [z], x < a) (hB : ∀ x ∈ B, a < x) (ht : A.length < turns) :
    ∃ m', addLoop turns s itr a = some { s with mem := m' } ∧ LinkedAfter s.mem z a m' := by
  induction A generalizing itr turns with
  | nil =>
    obtain ⟨rfl, hz, hB'⟩ := hp
    obtain _ | turns := turns
    · omega
    have hnode := hn itr (by simp)
    have hlt := hA itr (by simp)
    have haz : a ≠ itr := by omega
    simp only [addLoop, NULL, if_neg hz, if_neg (Ne.symm haz), hnode.loadNext,
      Option.bind_eq_bind, Option.bind_some]
    cases B with
    | nil =>
      have hnull : nextAt s.mem itr = 0 := hB'
      simp only [if_pos hnull, hnode.storeNext, Option.bind_some,
        State.Node.storeNext (s := { s with mem := setPtr s.mem (itr + 8) a })
          (ha.of_map rfl rfl)]
      refine ⟨_, rfl, ?_, ?_, fun x hx hx' => ?_⟩
      · rw [nextAt_setPtr_ne ha.aligned hnode.aligned (Ne.symm haz)]
        exact ptrAt_setPtr ha.addressable
      · rw [hnull]
        exact ptrAt_setPtr (by decide)
      · rw [setPtr_outside (by omega), setPtr_outside (by omega)]
    | cons y B =>
      have hy : nextAt s.mem itr = y := hB'.1
      have hy0 : y ≠ 0 := hB'.2.1
      have hay := hB y (by simp)
      simp only [hy, if_neg hy0, if_pos hay, ha.storeNext, Option.bind_some,
        State.Node.storeNext (s := { s with mem := setPtr s.mem (a + 8) y })
          (hnode.of_map rfl rfl)]
      refine ⟨_, rfl, ?_, ?_, fun x hx hx' => ?_⟩
      · exact ptrAt_setPtr ha.addressable
      · rw [nextAt_setPtr_ne hnode.aligned ha.aligned haz, hy]
        exact ptrAt_setPtr (hn y (by simp)).addressable
      · rw [setPtr_outside (by omega), setPtr_outside (by omega)]
  | cons x A ih =>
    obtain ⟨rfl, hx, hp⟩ := hp
    obtain _ | turns := turns
    · omega
    have hlt := hA itr (by simp)
    obtain ⟨y, hy, hyA⟩ : ∃ y, nextAt s.mem itr = y ∧ y ∈ A ++ [z] := by
      cases A with
      | nil => exact ⟨z, hp.1, by simp⟩
      | cons y A => exact ⟨y, hp.1, by simp⟩
    have hya := hA y (List.mem_cons_of_mem _ hyA)
    have hy0 : y ≠ 0 := hp.ne_zero y (by
      rcases List.mem_append.mp hyA with h | h
      · simp [h]
      · simp [List.mem_singleton.mp h])
    simp only [addLoop, NULL, if_neg hx, if_neg (Nat.ne_of_lt hlt), (hn itr (by simp)).loadNext,
      Option.bind_eq_bind, Option.bind_some, hy, if_neg hy0, if_neg (Nat.lt_asymm hya)]
    rw [hy] at hp
    exact ih hp (fun w hw => hn w (List.mem_cons_of_mem _ hw))
      (fun w hw => hA w (List.mem_cons_of_mem _ hw)) (by simpa using ht)

theorem addFreeNode_spec (h : FreeList s (A ++ B)) (ha : s.Node a) (ha0 : a ≠ 0)
    (hA : ∀ x ∈ A, x < a) (hB : ∀ x ∈ B, a < x) :
    ∃ s', addFreeNode s a = some s' ∧ FreeList s' (A ++ a :: B) ∧ Relink (A ++ [a]) s s' := by
  obtain ⟨hsA, hsB, hsAB⟩ := List.pairwise_append.mp h.sorted
  have hsorted : (A ++ a :: B).Pairwise (· < ·) := by
    refine List.pairwise_append.mpr ⟨hsA, List.pairwise_cons.mpr ⟨hB, hsB⟩, fun x hx y hy => ?_⟩
    rcases List.mem_cons.mp hy with rfl | hy
    · exact hA x hx
    · exact hsAB x hx y hy
  have hnodes : ∀ b ∈ A ++ a :: B, s.Node b := by
    intro b hb
    rcases List.mem_append.mp hb with hb | hb
    · exact h.node b (by simp [hb])
    · rcases List.mem_cons.mp hb with rfl | hb
      · exact ha
      · exact h.node b (by simp [hb])
  rcases A.eq_nil_or_concat with rfl | ⟨A, z, rfl⟩
  · -- `a` becomes the head, whether the list was empty or starts above `a`
    have hhead : s.freeHead = NULL ∨ s.freeHead > a := by
      cases B with
      | nil => exact .inl h.path
      | cons y B => exact .inr (h.path.1 ▸ hB y (by simp))
    refine ⟨{ s with mem := setPtr s.mem (a + 8) s.freeHead, freeHead := a }, ?_,
      ⟨⟨rfl, ha0, ?_⟩, hsorted, fun b hb => (hnodes b hb).of_map rfl rfl⟩,
      ⟨rfl, fun x hx => ?_⟩⟩
    · by_cases hnull : s.freeHead = 0
      · simp only [addFreeNode, NULL, if_neg ha0, hnull, ha.storeNext, Option.bind_eq_bind,
          Option.bind_some, if_true]
      · simp only [addFreeNode, NULL, if_neg ha0, if_neg hnull, if_pos (hhead.resolve_left hnull),
          ha.storeNext, Option.bind_eq_bind, Option.bind_some]
    · have hlt : s.freeHead < 2 ^ 64 := by
        cases B with
        | nil => simp [show s.freeHead = 0 from h.path]
        | cons y B => exact h.path.1 ▸ (h.node y (by simp)).addressable
      rw [nextAt, ptrAt_setPtr hlt]
      refine Path.congr h.path fun x hx => ?_
      have := hB x hx
      exact nextAt_setPtr_ne ha.aligned (h.node x (by simpa using hx)).aligned (by omega)
    · have := hx a (by simp)
      exact setPtr_outside (by omega)
  · simp only [List.concat_eq_append, List.append_assoc, List.singleton_append] at *
    obtain ⟨hz, hz0, hBp⟩ := Path.split_iff.mp h.path
    have hza := hA z (by simp)
    have hzn := h.node z (by simp)
    have hnull : s.freeHead ≠ 0 := fun hn => by
      simpa using h.freeHead_eq_null.mp hn
    have hle : ¬ s.freeHead > a := by
      have := path_head h.path
      have : s.freeHead ∈ A ++ [z] := by
        cases A with
        | nil => simp_all
        | cons y A => simp_all
      exact Nat.lt_asymm (hA _ this)
    have hturns : A.length < s.turns := by
      have := h.length_lt
      simp only [List.length_append] at this
      omega
    obtain ⟨m', he, hl⟩ := addLoop_eq h.path h.node ha hA hB hturns
    -- the nodes apart from `z` and `a` keep their `next`
    have hkeep : ∀ x, s.Node x → x ≠ z → x ≠ a → nextAt m' x = nextAt s.mem x := by
      intro x hx hxz hxa
      have h1 := hx.aligned
      have h2 := hzn.aligned
      have h3 := ha.aligned
      exact ptrAt_congr fun w _ _ => hl.bytes w (by omega) (by omega)
    refine ⟨{ s with mem := m' }, ?_, ⟨?_, hsorted, fun b hb => (hnodes b hb).of_map rfl rfl⟩,
      ⟨rfl, fun x hx => hl.bytes x (hx z (by simp)) (hx a (by simp))⟩⟩
    · simp only [addFreeNode, NULL, if_neg ha0, if_neg hnull, if_neg hle]
      exact he
    · refine Path.split_iff.mpr ⟨hz.congr fun x hx => ?_, hz0, ?_, ha0, ?_⟩
      · have := hA x (by simp [hx])
        have := (List.pairwise_append.mp h.sorted).2.2 x hx z (by simp)
        exact hkeep x (h.node x (by simp [hx])) (by omega) (by omega)
      · exact hl.prev
      · rw [show nextAt m' a = nextAt s.mem z from hl.next]
        refine hBp.congr fun x hx => ?_
        have := hB x hx
        exact hkeep x (h.node x (by simp [hx])) (by omega) (by omega)

end

end PerrOS.Mem
