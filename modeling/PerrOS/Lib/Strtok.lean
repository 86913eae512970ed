import Mathlib.Data.List.TakeWhile

/-!
# Strings cut in place

`strtok` over a buffer: it skips leading delimiters, overwrites the delimiter
that ends the token and keeps in `save` where the next call goes on. A string
is given by its place between what stands before it and its terminator, so
that every lemma says what the buffer holds afterwards.
-/

namespace Lib

universe u

variable {α : Type u} [DecidableEq α]

-- ---------------------------------------------------------------------------
-- Words
-- ---------------------------------------------------------------------------

/-- The maximal runs of `t` without delimiters. -/
def words (delim : List α) (t : List α) : List (List α) :=
  (t.splitOnP (fun c => decide (c ∈ delim))).filter (fun w => !w.isEmpty)

/-- The leading delimiters of `t` and its first word. -/
def firstWord (delim : List α) (t : List α) : List α :=
  t.takeWhile (fun c => decide (c ∈ delim)) ++
    (t.dropWhile (fun c => decide (c ∈ delim))).takeWhile (fun c => decide (c ∉ delim))

section
variable {delim : List α} {l w r t : List α}

theorem words_cons (hc : c ∈ delim) : words delim (c :: t) = words delim t := by
  have hnil : ∀ d ∈ ([] : List α), decide (d ∈ delim) = false := by simp
  have := List.splitOnP_append_cons_of_forall_mem hnil c (by simpa using hc) t
  rw [List.nil_append] at this
  simp [words, this]

theorem words_skip (hl : ∀ c ∈ l, c ∈ delim) : words delim (l ++ t) = words delim t := by
  induction l with
  | nil => rfl
  | cons c l ih =>
    rw [List.cons_append, words_cons (hl c (by simp))]
    exact ih fun d hd => hl d (by simp [hd])

theorem words_delims (hl : ∀ c ∈ l, c ∈ delim) : words delim l = [] := by
  rw [← List.append_nil l, words_skip hl]
  simp [words]

theorem words_word (hw : ∀ c ∈ w, c ∉ delim) (hne : w ≠ []) : words delim w = [w] := by
  rw [words, List.splitOnP_eq_singleton (by simpa using hw)]
  simp [hne]

theorem words_cut (hw : ∀ c ∈ w, c ∉ delim) (hne : w ≠ []) (hc : c ∈ delim) :
    words delim (w ++ c :: r) = w :: words delim r := by
  rw [words, List.splitOnP_append_cons_of_forall_mem (by simpa using hw) c (by simpa using hc)]
  simp [hne, words]

/-- The three shapes of a string that `strtok` tells apart. -/
theorem token_cases (delim t : List α) :
    (∀ c ∈ t, c ∈ delim) ∨
    (∃ l w, t = l ++ w ∧ (∀ c ∈ l, c ∈ delim) ∧ (∀ c ∈ w, c ∉ delim) ∧ w ≠ []) ∨
    (∃ l w c r, t = l ++ (w ++ c :: r) ∧ (∀ c ∈ l, c ∈ delim) ∧ (∀ c ∈ w, c ∉ delim) ∧
      w ≠ [] ∧ c ∈ delim) := by
  have hl : ∀ c ∈ t.takeWhile (fun c => decide (c ∈ delim)), c ∈ delim := by
    intro c hc
    simpa using List.mem_takeWhile_imp hc
  have ht := List.takeWhile_append_dropWhile (p := fun c => decide (c ∈ delim)) (l := t)
  generalize t.takeWhile (fun c => decide (c ∈ delim)) = l at hl ht
  cases hd : t.dropWhile (fun c => decide (c ∈ delim)) with
  | nil =>
    rw [hd, List.append_nil] at ht
    exact .inl (ht ▸ hl)
  | cons d u =>
    have hnd : d ∉ delim := by
      have := List.head_dropWhile_not (fun c => decide (c ∈ delim)) (l := t) (by simp [hd])
      simpa [hd] using this
    have hw : ∀ c ∈ (d :: u).takeWhile (fun c => decide (c ∉ delim)), c ∉ delim := by
      intro c hc
      simpa using List.mem_takeWhile_imp hc
    have hne : (d :: u).takeWhile (fun c => decide (c ∉ delim)) ≠ [] := by simp [hnd]
    have hu := List.takeWhile_append_dropWhile (p := fun c => decide (c ∉ delim)) (l := d :: u)
    generalize (d :: u).takeWhile (fun c => decide (c ∉ delim)) = w at hw hne hu
    cases he : (d :: u).dropWhile (fun c => decide (c ∉ delim)) with
    | nil =>
      rw [he, List.append_nil] at hu
      exact .inr (.inl ⟨l, w, by rw [← ht, hd, hu], hl, hw, hne⟩)
    | cons c r =>
      have hc : c ∈ delim := by
        have := List.head_dropWhile_not (fun c => decide (c ∉ delim)) (l := d :: u) (by rw [he]; simp)
        simp only [he, List.head_cons] at this
        simpa using this
      rw [he] at hu
      exact .inr (.inr ⟨l, w, c, r, by rw [← ht, hd, hu], hl, hw, hne, hc⟩)

theorem firstWord_initial (delim t : List α) : firstWord delim t <+: t := by
  have h : firstWord delim t <+: t.takeWhile (fun c => decide (c ∈ delim)) ++
      t.dropWhile (fun c => decide (c ∈ delim)) :=
    (List.prefix_append_right_inj _).mpr (List.takeWhile_prefix _)
  rwa [List.takeWhile_append_dropWhile] at h

theorem firstWord_length_le (delim t : List α) : (firstWord delim t).length ≤ t.length :=
  (firstWord_initial delim t).length_le

theorem firstWord_subset (delim t : List α) : firstWord delim t ⊆ t :=
  (firstWord_initial delim t).subset

theorem firstWord_delims (hl : ∀ c ∈ l, c ∈ delim) : firstWord delim l = l := by
  have hl' : ∀ c ∈ l, decide (c ∈ delim) = true := by simpa using hl
  rw [firstWord, List.takeWhile_eq_self_iff.mpr hl', List.dropWhile_eq_nil_iff.mpr hl']
  simp

theorem firstWord_word (hl : ∀ c ∈ l, c ∈ delim) (hw : ∀ c ∈ w, c ∉ delim) :
    firstWord delim (l ++ w) = l ++ w := by
  cases w with
  | nil => rw [List.append_nil]; exact firstWord_delims hl
  | cons d w =>
    have hd : d ∉ delim := hw d (by simp)
    have ht : (d :: w).takeWhile (fun c => decide (c ∉ delim)) = d :: w :=
      List.takeWhile_eq_self_iff.mpr (by simpa using hw)
    rw [firstWord, List.takeWhile_append_of_pos (by simpa using hl),
      List.dropWhile_append_of_pos (by simpa using hl)]
    rw [List.takeWhile_cons_of_neg (by simpa using hd),
      List.dropWhile_cons_of_neg (by simpa using hd), ht]
    simp

theorem firstWord_cut (hl : ∀ c ∈ l, c ∈ delim) (hw : ∀ c ∈ w, c ∉ delim) (hne : w ≠ [])
    (hc : c ∈ delim) : firstWord delim (l ++ (w ++ c :: r)) = l ++ w := by
  obtain ⟨d, w, rfl⟩ := List.exists_cons_of_ne_nil hne
  have hd : d ∉ delim := hw d (by simp)
  rw [firstWord, List.takeWhile_append_of_pos (by simpa using hl),
    List.dropWhile_append_of_pos (by simpa using hl)]
  rw [List.cons_append, List.takeWhile_cons_of_neg (by simpa using hd),
    List.dropWhile_cons_of_neg (by simpa using hd), ← List.cons_append,
    List.takeWhile_append_of_pos (by simpa using hw),
    List.takeWhile_cons_of_neg (by simpa using hc), List.append_nil, List.append_nil]

end

-- ---------------------------------------------------------------------------
-- The buffer
-- ---------------------------------------------------------------------------

structure Strtok (α : Type u) where
  buff : List α
  /-- The pointer `strtok` keeps between calls. -/
  save : Nat

/-- The string that starts at `p`. -/
def cstring (nul : α) (buff : List α) (p : Nat) : List α :=
  (buff.drop p).takeWhile (fun c => decide (c ≠ nul))

/-- `strtok(s, delim)`, where `none` is the null pointer. -/
def strtok (nul : α) (m : Strtok α) (s : Option Nat) (delim : List α) : Strtok α × Option Nat :=
  let p := s.getD m.save
  let start := p + ((m.buff.drop p).takeWhile (fun c => decide (c ∈ delim))).length
  if m.buff.getD start nul = nul then ({ m with save := start }, none)
  else
    let stop := start +
      ((m.buff.drop start).takeWhile (fun c => decide (c ∉ delim ∧ c ≠ nul))).length
    if m.buff.getD stop nul = nul then ({ m with save := stop }, some start)
    else ({ buff := m.buff.set stop nul, save := stop + 1 }, some start)

section
variable {nul : α} {delim a b l w r t : List α} {m : Strtok α}

theorem strtok_length : (strtok nul m s delim).1.buff.length = m.buff.length := by
  unfold strtok
  dsimp only
  split
  · rfl
  · split
    · rfl
    · exact List.length_set

theorem cstring_eq (hp : p = a.length) (ht : nul ∉ t) :
    cstring nul (a ++ (t ++ nul :: b)) p = t := by
  subst hp
  rw [cstring, List.drop_left, List.takeWhile_append_of_pos (by
    intro c hc
    simpa using fun h : c = nul => ht (h ▸ hc))]
  simp

theorem strtok_none (hs : s.getD m.save = a.length) (hb : m.buff = a ++ (t ++ nul :: b))
    (hn : nul ∉ delim) (ht : ∀ c ∈ t, c ∈ delim) :
    strtok nul m s delim = (⟨m.buff, a.length + t.length⟩, none) := by
  have hspan : ((m.buff.drop a.length).takeWhile (fun c => decide (c ∈ delim))) = t := by
    rw [hb, List.drop_left, List.takeWhile_append_of_pos (by simpa using ht)]
    simp [hn]
  have hend : m.buff.getD (a.length + t.length) nul = nul := by simp [hb]
  simp only [strtok, hs, hspan, hend, if_true]

/-- Where a token starts, and how far it reaches. -/
theorem strtok_span (hs : s.getD m.save = a.length) (hb : m.buff = a ++ (l ++ (w ++ x :: r)))
    (hl : ∀ c ∈ l, c ∈ delim) (hw : ∀ c ∈ w, c ∉ delim) (hz : nul ∉ w) (hne : w ≠ [])
    (hx : x ∈ delim ∨ x = nul) :
    strtok nul m s delim =
      (if x = nul then ⟨m.buff, a.length + l.length + w.length⟩
        else ⟨a ++ (l ++ (w ++ nul :: r)), a.length + l.length + w.length + 1⟩,
        some (a.length + l.length)) := by
  obtain ⟨d, w, rfl⟩ := List.exists_cons_of_ne_nil hne
  have hd : d ∉ delim := hw d (by simp)
  have hd0 : d ≠ nul := fun h => hz (by simp [h])
  have hspan : ((m.buff.drop a.length).takeWhile (fun c => decide (c ∈ delim))) = l := by
    rw [hb, List.drop_left, List.takeWhile_append_of_pos (by simpa using hl)]
    simp [hd]
  have hstart : m.buff.getD (a.length + l.length) nul = d := by simp [hb]
  have hreach : ((m.buff.drop (a.length + l.length)).takeWhile
      (fun c => decide (c ∉ delim ∧ c ≠ nul))) = d :: w := by
    have : a ++ (l ++ (d :: w ++ x :: r)) = (a ++ l) ++ (d :: w ++ x :: r) := by simp
    rw [hb, this, ← List.length_append, List.drop_left, List.takeWhile_append_of_pos]
    · rcases hx with hx | rfl <;> simp [*]
    · intro c hc
      simpa using ⟨hw c hc, fun h => hz (h ▸ hc)⟩
  have hstop : m.buff.getD (a.length + l.length + (d :: w).length) nul = x := by
    simp [hb, Nat.add_assoc]
  simp only [strtok, hs, hspan, hstart, if_neg hd0, hreach, hstop]
  by_cases h0 : x = nul
  · simp only [if_pos h0]
  · have hset : m.buff.set (a.length + l.length + (d :: w).length) nul =
        a ++ (l ++ (d :: w ++ nul :: r)) := by
      rw [hb, Nat.add_assoc, List.set_append_right _ _ (by omega),
        List.set_append_right _ _ (by omega), List.set_append_right _ _ (by omega)]
      simp
    simp only [if_neg h0, hset]

end

-- ---------------------------------------------------------------------------
-- Every token of a string
-- ---------------------------------------------------------------------------

/-- `for (; word != NULL; word = strtok(NULL, delim))`, collecting the words;
`none` when the fuel is spent. -/
def tokens (nul : α) (delim : List α) :
    Nat → Strtok α → Option Nat → List (List α) → Option (Strtok α × List (List α))
  | _, m, none, args => some (m, args)
  | 0, _, some _, _ => none
  | fuel + 1, m, some p, args =>
    let word := cstring nul m.buff p
    let (m, next) := strtok nul m none delim
    tokens nul delim fuel m next (args ++ [word])

section
variable {nul : α} {delim a b t : List α} {m : Strtok α}

/-- Cutting up the string at `a.length` yields its words; of the string itself
its first word, with what stands before it, is left. -/
theorem tokens_strtok (hs : s.getD m.save = a.length) (hb : m.buff = a ++ (t ++ nul :: b))
    (hn : nul ∉ delim) (ht : nul ∉ t) (hf : t.length ≤ fuel) (args : List (List α)) :
    ∃ m' u, tokens nul delim fuel (strtok nul m s delim).1 (strtok nul m s delim).2 args =
        some (m', args ++ words delim t) ∧
      m'.buff = a ++ (u ++ nul :: b) ∧ u.length = t.length ∧
      ∃ v, u ++ nul :: b = firstWord delim t ++ nul :: v := by
  induction h : t.length using Nat.strongRecOn generalizing t a m s fuel args with
  | ind n ih =>
  rcases token_cases delim t with hd | ⟨l, w, rfl, hl, hw, hne⟩ | ⟨l, w, c, r, rfl, hl, hw, hne, hc⟩
  · rw [strtok_none hs hb hn hd, words_delims hd, firstWord_delims hd]
    exact ⟨⟨m.buff, a.length + t.length⟩, t, by simp [tokens], hb, h, b, rfl⟩
  · simp only [List.mem_append, not_or] at ht
    rw [List.append_assoc] at hb
    rw [strtok_span hs hb hl hw ht.2 hne (.inr rfl), if_pos rfl, firstWord_word hl hw,
      words_skip hl, words_word hw hne]
    obtain ⟨fuel, rfl⟩ : ∃ k, fuel = k + 1 := by
      have := List.length_pos_iff.mpr hne
      exact ⟨fuel - 1, by simp only [List.length_append] at hf; omega⟩
    have hword : cstring nul m.buff (a.length + l.length) = w := by
      rw [hb, ← List.append_assoc]
      exact cstring_eq List.length_append.symm ht.2
    -- The token reached the end of the string: the next call finds nothing.
    have hlast := strtok_none (s := none) (m := ⟨m.buff, a.length + l.length + w.length⟩)
      (a := a ++ (l ++ w)) (t := []) (b := b)
      (by simp [Nat.add_assoc]) (by simp [hb]) hn (by simp)
    simp only [tokens, hlast, hword]
    exact ⟨_, l ++ w, rfl, by simp [hb], h, b, rfl⟩
  · have htw : nul ∉ w := fun hw' => ht (by simp [hw'])
    have htr : nul ∉ r := fun hr' => ht (by simp [hr'])
    have hc0 : c ≠ nul := fun he => ht (by simp [he])
    have hb' : m.buff = a ++ (l ++ (w ++ c :: (r ++ nul :: b))) := by simpa using hb
    rw [strtok_span hs hb' hl hw htw hne (.inl hc), if_neg hc0, firstWord_cut hl hw hne hc,
      words_skip hl, words_cut hw hne hc]
    simp only [List.length_append, List.length_cons] at hf h
    obtain ⟨fuel, rfl⟩ : ∃ k, fuel = k + 1 := ⟨fuel - 1, by omega⟩
    have hword : cstring nul (a ++ (l ++ (w ++ nul :: (r ++ nul :: b)))) (a.length + l.length) =
        w := by
      rw [← List.append_assoc]
      exact cstring_eq List.length_append.symm htw
    have hrest := @ih r.length (by omega)
    obtain ⟨m', u, hrun, hbuff, hlen, -⟩ := hrest (s := none)
      (m := ⟨a ++ (l ++ (w ++ nul :: (r ++ nul :: b))), a.length + l.length + w.length + 1⟩)
      (a := a ++ (l ++ (w ++ [nul]))) (by simp [Nat.add_assoc]) (by simp) htr (by omega : r.length ≤ fuel)
      (args ++ [w]) rfl
    simp only [tokens, hword]
    refine ⟨m', l ++ (w ++ nul :: u), ?_, by simp [hbuff], ?_, u ++ nul :: b, by simp⟩
    · rw [hrun]
      simp
    · simp only [List.length_append, List.length_cons, hlen]
      omega

end

end Lib
