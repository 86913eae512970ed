import PerrOS.Shell.Line
import Mathlib.Data.List.GetD

/-!
# What `mysh` reads

The scanner over the buffer does to a line what `Parses` does to its text, and
a line is parsed into its commands or reported, unless an operator with nothing
before it is taken for the delimiter it is not.
-/

namespace PerrOS.Shell

open Lib (Strtok strtok tokens words firstWord tokens_strtok strtok_span strtok_none)

variable {s : Scan} {a b seg t rest : List Char} {op inType : CommandType}

theorem operator_text (h : operator t = some (op, rest)) :
    t = op.text ++ rest ∧ op.text ≠ [] ∧ ∀ c ∈ op.text, IsOperator c := by
  unfold operator at h
  split at h <;> cases h <;> simp [CommandType.text, IsOperator]

/-- Past an operator the lookahead accepts, its own character does not follow. -/
theorem head_rest (h : operator t = some (op, rest)) (hb : badCharNext (peek t) = false) :
    ∀ d r, rest = d :: r → d ∉ op.text := by
  rintro d r rfl
  unfold operator at h
  split at h <;> cases h <;> simp_all [badCharNext, peek, CommandType.text]
  · rintro rfl
    exact (hb (by decide)).1 rfl
  · rintro rfl
    exact (hb (by decide)).2.2 rfl
  · rintro rfl
    exact hb (by decide) (by decide) rfl

theorem badCharNext_congr {c c' : Nat → Char} (h0 : c 0 = c' 0) (h1 : c 1 = c' 1)
    (h2 : c 1 ≠ NUL → c 2 = c' 2) : badCharNext c = badCharNext c' := by
  by_cases h : c 1 = NUL
  · simp [badCharNext, h0, ← h1, h]
  · simp [badCharNext, h0, h1, h2 h]

namespace Scan

/-- What the pointers read: the text ahead, then its terminator. -/
theorem char_eq (hb : s.mem.buff = a ++ (seg ++ (t ++ NUL :: b)))
    (hi : s.buffItr = a.length + seg.length) (hj : j ≤ t.length) : s.char j = peek t j := by
  have : s.buffItr + j = (a ++ seg).length + j := by rw [hi, List.length_append]
  rw [char, hb, ← List.append_assoc, this, List.getD_append_right _ _ _ _ (Nat.le_add_right _ _),
    Nat.add_sub_cancel_left, peek]
  rcases Nat.lt_or_eq_of_le hj with hj | rfl
  · rw [List.getD_append _ _ _ _ hj]
  · simp

theorem badCharNext_char (hb : s.mem.buff = a ++ (seg ++ (t ++ NUL :: b)))
    (hi : s.buffItr = a.length + seg.length) (ht : t ≠ []) :
    badCharNext s.char = badCharNext (peek t) := by
  have hlen := List.length_pos_iff.mpr ht
  refine badCharNext_congr (char_eq hb hi (Nat.zero_le _)) (char_eq hb hi hlen) fun h => ?_
  refine char_eq hb hi (Nat.lt_of_not_le fun hle => h ?_)
  rw [char_eq hb hi hlen, peek, List.getD_eq_getElem?_getD, List.getElem?_eq_none hle]
  rfl

theorem switch_operator (hb : s.mem.buff = a ++ (seg ++ (t ++ NUL :: b)))
    (hi : s.buffItr = a.length + seg.length) (ho : operator t = some (op, rest)) :
    s.switch = if badCharNext (peek t) then some { s with errorSeen := true }
      else s.cut op.text op.text.length op := by
  have ht : t ≠ [] := by
    rintro rfl
    simp [operator] at ho
  have hlen := List.length_pos_iff.mpr ht
  rw [switch, badCharNext_char hb hi ht, char_eq hb hi (Nat.zero_le _), char_eq hb hi hlen]
  unfold operator at ho
  split at ho <;> cases ho
  · simp [peek, CommandType.text]
  · simp [peek, CommandType.text]
  · simp [peek, CommandType.text]
  case h_4 hne =>
    have h1 : peek ('>' :: rest) 1 ≠ '>' := by
      cases rest with
      | nil => decide
      | cons d r =>
        intro (hd : d = '>')
        exact hne r (hd ▸ rfl)
    have hp : '>' ≠ '|' := by decide
    have hq : '>' ≠ '%' := by decide
    have h0 : peek ('>' :: rest) 0 = '>' := rfl
    simp only [h0, if_neg hp, if_neg hq, if_true, if_neg h1]
    by_cases hbad : badCharNext (peek ('>' :: rest)) = true
    · rw [if_pos hbad, if_pos hbad]
    · rw [if_neg hbad, if_neg hbad, if_neg hbad]
      rfl

theorem switch_char (hb : s.mem.buff = a ++ (seg ++ (c :: t ++ NUL :: b)))
    (hi : s.buffItr = a.length + seg.length) (ho : operator (c :: t) = none) :
    s.switch = some s := by
  have hc := operator_eq_none.mp ho
  simp only [IsOperator, not_or] at hc
  rw [switch, char_eq hb hi (Nat.zero_le _)]
  simp [peek, hc]

end Scan

-- ---------------------------------------------------------------------------
-- Cutting the buffer
-- ---------------------------------------------------------------------------

theorem nul_not_mem_blanks : NUL ∉ blanks := by decide

/-- What `appendToCommandList` does with a string that ends at `t`. -/
theorem appendToCommandList_eq (mem : Strtok Char) (chunkOfText : Option Nat)
    (hs : chunkOfText.getD mem.save = a.length) (hb : mem.buff = a ++ (t ++ NUL :: b))
    (ht : NUL ∉ t) (list : List Command) (iType oType : CommandType) :
    ∃ m u, appendToCommandList mem list chunkOfText iType oType =
        some (m, list ++ [⟨words blanks t, iType, oType⟩]) ∧
      m.buff = a ++ (u ++ NUL :: b) ∧ u.length = t.length ∧
      ∃ v, u ++ NUL :: b = firstWord blanks t ++ NUL :: v := by
  have hlen : (strtok NUL mem chunkOfText blanks).1.buff.length = mem.buff.length :=
    Lib.strtok_length
  obtain ⟨m, u, hrun, hm, hu, hv⟩ := tokens_strtok hs hb nul_not_mem_blanks ht
    (by rw [hlen, hb]; simp only [List.length_append]; omega :
      t.length ≤ (strtok NUL mem chunkOfText blanks).1.buff.length) []
  refine ⟨m, u, ?_, hm, hu, hv⟩
  rw [List.nil_append] at hrun
  simp only [appendToCommandList, hrun]

namespace Scan

/-- After a segment with some text, the buffer goes on behind the operator. -/
theorem cut_segment (hb : s.mem.buff = a ++ (seg ++ (op.text ++ (rest ++ NUL :: b))))
    (hc : s.currInput = a.length) (hi : s.buffItr = a.length + seg.length) (hne : seg ≠ [])
    (hseg : ∀ c ∈ seg, ¬IsOperator c) (hz : NUL ∉ seg) (ho : op.text ≠ [])
    (hop : ∀ c ∈ op.text, IsOperator c) :
    ∃ m a', s.cut op.text op.text.length op =
        some { s with
          mem := m
          buffItr := s.buffItr + (op.text.length - 1)
          currInput := s.buffItr + (op.text.length - 1) + 1
          inType := op
          commandList := s.commandList ++ [⟨words blanks seg, s.inType, op⟩] } ∧
      m.buff = a' ++ (rest ++ NUL :: b) ∧ a'.length = s.buffItr + op.text.length := by
  obtain ⟨x, o, hx⟩ := List.exists_cons_of_ne_nil ho
  have hx0 : x ≠ NUL := by
    rintro rfl
    exact absurd (hop NUL (by simp [hx])) (by unfold IsOperator; decide)
  have hb' : s.mem.buff = a ++ ([] ++ (seg ++ x :: (o ++ (rest ++ NUL :: b)))) := by
    simpa [hx] using hb
  have hcut : strtok NUL s.mem (some s.currInput) op.text = _ := strtok_span hc hb' (by simp)
    (fun c h h' => hseg c h (hop c h')) hz hne (.inl (by simp [hx]))
  rw [if_neg hx0] at hcut
  obtain ⟨m, u, happ, hm, hu, -⟩ := appendToCommandList_eq
    ⟨a ++ ([] ++ (seg ++ NUL :: (o ++ (rest ++ NUL :: b)))), a.length + seg.length + 1⟩
    (some a.length) (a := a) rfl rfl hz s.commandList s.inType op
  refine ⟨m, a ++ (u ++ NUL :: o), ?_, by simp [hm], ?_⟩
  · simp only [cut, hcut]
    simp only [List.length_nil, Nat.add_zero, happ]
  · rw [hi, hx]
    simp only [List.length_append, List.length_cons, hu]
    omega

/-- With nothing before the operator the words come from the text after it,
and of that text only its first word stays ahead. -/
theorem cut_empty (hb : s.mem.buff = a ++ (op.text ++ (rest ++ NUL :: b)))
    (hc : s.currInput = a.length) (hi : s.buffItr = a.length) (hz : NUL ∉ rest)
    (hop : ∀ c ∈ op.text, IsOperator c)
    (hhead : ∀ d r, rest = d :: r → d ∉ op.text) :
    ∃ m a' b', s.cut op.text op.text.length op =
        some { s with
          mem := m
          buffItr := s.buffItr + (op.text.length - 1)
          currInput := s.buffItr + (op.text.length - 1) + 1
          inType := op
          commandList := s.commandList ++ [⟨words blanks (chunk op rest), s.inType, op⟩] } ∧
      m.buff = a' ++ (firstWord blanks (chunk op rest) ++ NUL :: b') ∧
      a'.length = s.buffItr + op.text.length := by
  have hnul : NUL ∉ op.text := fun h => absurd (hop NUL h) (by unfold IsOperator; decide)
  cases rest with
  | nil =>
    -- The line ends here: `strtok` returns null, and goes on there for the words.
    have hcut : strtok NUL s.mem (some s.currInput) op.text = _ := strtok_none hc
      hb hnul (fun c h => h)
    obtain ⟨m, u, happ, hm, hu, v, hv⟩ := appendToCommandList_eq
      ⟨s.mem.buff, a.length + op.text.length⟩ none (a := a ++ op.text)
      (t := []) (b := b) (by simp) (by simp [hb]) (by simp) s.commandList s.inType op
    refine ⟨m, a ++ op.text, b, ?_, ?_, by simp [hi]⟩
    · simp only [cut, hcut, happ]
      rfl
    · rw [hm, List.eq_nil_of_length_eq_zero hu]
      rfl
  | cons d r =>
    have hd : d ∉ op.text := hhead d r rfl
    have hT : chunk op (d :: r) ≠ [] := by simp [chunk, hd]
    have hTz : NUL ∉ chunk op (d :: r) := fun h => hz (List.takeWhile_subset _ h)
    have hTop : ∀ c ∈ chunk op (d :: r), c ∉ op.text := by
      intro c hc
      simpa using List.mem_takeWhile_imp hc
    -- The token ends at the next delimiter or at the end of the line.
    obtain ⟨x, w, hw, hx⟩ : ∃ x w, d :: r ++ NUL :: b = chunk op (d :: r) ++ x :: w ∧
        (x ∈ op.text ∨ x = NUL) := by
      have := List.takeWhile_append_dropWhile (p := fun c => decide (c ∉ op.text)) (l := d :: r)
      cases hdrop : (d :: r).dropWhile (fun c => decide (c ∉ op.text)) with
      | nil =>
        rw [hdrop, List.append_nil] at this
        exact ⟨NUL, b, by rw [chunk, this], .inr rfl⟩
      | cons x w =>
        have hx := List.head_dropWhile_not (fun c => decide (c ∉ op.text)) (l := d :: r)
          (by rw [hdrop]; simp)
        simp only [hdrop, List.head_cons] at hx
        refine ⟨x, w ++ NUL :: b, ?_, .inl (by simpa using hx)⟩
        rw [← List.cons_append, ← List.append_assoc, chunk, ← hdrop, this]
    rw [hw] at hb
    have hcut : strtok NUL s.mem (some s.currInput) op.text = _ := strtok_span hc hb
      (fun c h => h) hTop hTz hT hx
    obtain ⟨m, u, happ, hm, hu, v, hv⟩ := appendToCommandList_eq
      (strtok NUL s.mem (some s.currInput) op.text).1 (some (a.length + op.text.length))
      (a := a ++ op.text)
      (t := chunk op (d :: r)) (b := w) (by simp) (by
        rw [hcut]
        by_cases h0 : x = NUL
        · rw [if_pos h0, hb, h0, List.append_assoc]
        · rw [if_neg h0, List.append_assoc])
      hTz s.commandList s.inType op
    refine ⟨m, a ++ op.text, v, ?_, by rw [hm, hv], by simp [hi]⟩
    simp only [hcut] at happ
    simp only [cut, hcut, happ]

-- ---------------------------------------------------------------------------
-- The loop
-- ---------------------------------------------------------------------------

theorem run_next (h0 : s.char 0 ≠ NUL) (hs : s.switch = some s') (he : s'.errorSeen = false) :
    run (fuel + 1) s = run fuel { s' with buffItr := s'.buffItr + 1 } := by
  rw [run, loop, if_neg h0, hs]
  simp [he, run]

theorem run_error (h0 : s.char 0 ≠ NUL) (hs : s.switch = some { s with errorSeen := true }) :
    run (fuel + 1) s = (appendToCommandList s.mem s.commandList (some s.currInput) s.inType
      .regular).map fun r => (r.2, true) := by
  rw [run, loop, if_neg h0, hs]
  simp only [if_true]
  cases appendToCommandList s.mem s.commandList (some s.currInput) s.inType .regular <;> rfl

theorem run_end (h0 : s.char 0 = NUL) :
    run fuel s = (appendToCommandList s.mem s.commandList (some s.currInput) s.inType
      .regular).map fun r => (r.2, s.errorSeen) := by
  have hl : loop fuel s = some s := by
    cases fuel <;> rw [loop, if_pos h0]
  rw [run, hl]
  dsimp only
  cases appendToCommandList s.mem s.commandList (some s.currInput) s.inType .regular <;> rfl

theorem peek_zero_ne (ht : NUL ∉ c :: t) : peek (c :: t) 0 ≠ NUL := by
  intro (h : c = NUL)
  exact ht (by simp [h])

/-- The scanner parses the text ahead of it. -/
theorem run_parses (hb : s.mem.buff = a ++ (seg ++ (t ++ NUL :: b)))
    (hc : s.currInput = a.length) (hi : s.buffItr = a.length + seg.length)
    (hseg : ∀ c ∈ seg, ¬IsOperator c) (hz : NUL ∉ seg ++ t) (he : s.errorSeen = false)
    (hf : t.length ≤ fuel) :
    ∃ list e, Parses s.inType seg t list e ∧ s.run fuel = some (s.commandList ++ list, e) := by
  induction hn : t.length using Nat.strongRecOn generalizing s a b seg t fuel with
  | ind n ih =>
  cases t with
  | nil =>
    have h0 : s.char 0 = NUL := char_eq hb hi (Nat.zero_le _)
    obtain ⟨m, _, happ, -⟩ := appendToCommandList_eq s.mem
      (some s.currInput) (a := a) (t := seg) hc hb (by simpa using hz)
      s.commandList s.inType .regular
    exact ⟨_, _, .last, by rw [run_end h0, happ, he]; rfl⟩
  | cons c t =>
    have hzt : NUL ∉ c :: t := fun h => hz (List.mem_append_right _ h)
    have hzs : NUL ∉ seg := fun h => hz (List.mem_append_left _ h)
    have h0 : s.char 0 ≠ NUL := by
      rw [char_eq hb hi (Nat.zero_le _)]
      exact peek_zero_ne hzt
    obtain ⟨fuel, rfl⟩ : ∃ k, fuel = k + 1 := ⟨fuel - 1, by
      rw [List.length_cons] at hf
      omega⟩
    rw [List.length_cons] at hf hn
    cases ho : operator (c :: t) with
    | none =>
      have hrest := @ih t.length (by omega)
      obtain ⟨list, e, hp, hrun⟩ := hrest (s := { s with buffItr := s.buffItr + 1 }) (a := a)
        (by simpa using hb) hc (by simp [hi, Nat.add_assoc]) (plain_snoc hseg ho)
        (by simpa using hz) he (by omega : t.length ≤ fuel) rfl
      exact ⟨list, e, .char ho hp, by rw [run_next h0 (switch_char hb hi ho) he, hrun]⟩
    | some r =>
      obtain ⟨op, rest⟩ := r
      obtain ⟨htext, hne, hop⟩ := operator_text ho
      have hlen : (c :: t).length = op.text.length + rest.length := by
        rw [htext, List.length_append]
      have hpos := List.length_pos_iff.mpr hne
      rw [List.length_cons] at hlen
      have hzr : NUL ∉ rest := fun h => hzt (by rw [htext]; exact List.mem_append_right _ h)
      have hsw := switch_operator hb hi ho
      by_cases hbad : badCharNext (peek (c :: t)) = true
      · rw [if_pos hbad] at hsw
        obtain ⟨m, _, happ, -⟩ := appendToCommandList_eq s.mem
          (some s.currInput) (a := a) (t := seg ++ c :: t) (b := b) hc
          (by simpa using hb) hz s.commandList s.inType .regular
        exact ⟨_, _, .bad ho hbad, by rw [run_error h0 hsw, happ]; rfl⟩
      · rw [if_neg hbad] at hsw
        have hbad : badCharNext (peek (c :: t)) = false := by simpa using hbad
        rw [htext, List.append_assoc] at hb
        by_cases hemp : seg = []
        · subst hemp
          obtain ⟨m, a', b', hcut, hm, ha⟩ := cut_empty hb hc hi hzr hop (head_rest ho hbad)
          have hfw : (firstWord blanks (chunk op rest)).length ≤ rest.length :=
            (Lib.firstWord_length_le _ _).trans (List.takeWhile_prefix _).length_le
          have hzf : NUL ∉ firstWord blanks (chunk op rest) := fun h =>
            hzr (List.takeWhile_subset _ (Lib.firstWord_subset _ _ h))
          have hrest := @ih (firstWord blanks (chunk op rest)).length (by omega)
          obtain ⟨list, e, hp, hrun⟩ := hrest (s := { s with
              mem := m
              buffItr := s.buffItr + (op.text.length - 1) + 1
              currInput := s.buffItr + (op.text.length - 1) + 1
              inType := op
              commandList := s.commandList ++ [⟨words blanks (chunk op rest), s.inType, op⟩] })
            (a := a') (b := b')
            (by simpa using hm :
              m.buff = a' ++ ([] ++ (firstWord blanks (chunk op rest) ++ NUL :: b')))
            (by simp only; omega) (by simp; omega)
            (by simp) (by simpa using hzf) he
            (by omega : (firstWord blanks (chunk op rest)).length ≤ fuel) rfl
          refine ⟨_, e, .skip ho hbad hp, ?_⟩
          rw [run_next h0 (hsw.trans hcut) he, hrun, List.append_assoc]
          rfl
        · obtain ⟨m, a', hcut, hm, ha⟩ := cut_segment hb hc hi hemp hseg hzs hne hop
          have hrest := @ih rest.length (by omega)
          obtain ⟨list, e, hp, hrun⟩ := hrest (s := { s with
              mem := m
              buffItr := s.buffItr + (op.text.length - 1) + 1
              currInput := s.buffItr + (op.text.length - 1) + 1
              inType := op
              commandList := s.commandList ++ [⟨words blanks seg, s.inType, op⟩] })
            (a := a') (b := b) (by simpa using hm : m.buff = a' ++ ([] ++ (rest ++ NUL :: b)))
            (by simp only; omega) (by simp; omega)
            (by simp) (by simpa using hzr) he (by omega : rest.length ≤ fuel) rfl
          refine ⟨_, e, .cut ho hbad hemp hp, ?_⟩
          rw [run_next h0 (hsw.trans hcut) he, hrun, List.append_assoc]
          rfl

end Scan

/-- Every line `getline` can store is read to its end and parsed. -/
theorem turn_parses (buff : List Char) (save : Nat) (hz : NUL ∉ line)
    (hlen : line.length + 2 ≤ MAX_INPUT_LENGTH) :
    ∃ list e action, Parses .regular [] line list e ∧
      turn buff save line = some ⟨list, e, action⟩ ∧
      action = if (list.length = 1 ∧ (list.head?.all fun c => c.argList.isEmpty)) ∨ e then .ignored
        else execCommands list := by
  have hb : line ++ [NUL, NUL] ++ buff.drop (line.length + 2) =
      [] ++ ([] ++ (line ++ NUL :: (NUL :: buff.drop (line.length + 2)))) := by simp
  obtain ⟨list, e, hp, hrun⟩ := Scan.run_parses
    (s := ⟨⟨line ++ [NUL, NUL] ++ buff.drop (line.length + 2), save⟩, 0, 0, .regular, false, []⟩)
    hb rfl rfl (by simp) (by simpa using hz) rfl
    (by simp only [List.length_append]; omega :
      line.length ≤ (line ++ [NUL, NUL] ++ buff.drop (line.length + 2)).length)
  refine ⟨list, e, _, hp, ?_, rfl⟩
  simp only [turn, getcmd, if_pos hlen, hrun]
  rfl

-- ---------------------------------------------------------------------------
-- What a line is owed
-- ---------------------------------------------------------------------------

/-- The turn reports an error or has the line's commands, it executes nothing
for a segment without a word, and a blank line passes in silence. -/
structure Faithful (line : List Char) (r : Turn) : Prop where
  parsed : (r.errorSeen = true ∨ ∃ c ∈ r.commandList, c.argList = []) ∨
    r.commandList = (segments line).commands .regular
  wordless : (segments line).HasOperator → ¬(segments line).Worded →
    (r.errorSeen = true ∨ r.action = .alerted) ∧ ∀ list, r.action ≠ .executed list
  blank : (∀ c ∈ line, c ∈ blanks) → r.errorSeen = false ∧ r.action = .ignored

theorem execCommands_eq (list : List Command) :
    execCommands list = if ∃ c ∈ list, c.argList = [] then .alerted else .executed list := by
  simp [execCommands]

/-- Of a line in which the parser finds something wrong nothing is executed. -/
theorem reported (hp : Parses .regular [] line list e) (ho : (segments line).HasOperator)
    (hn : ¬Taken line) :
    let action := if (list.length = 1 ∧ (list.head?.all fun c => c.argList.isEmpty)) ∨ e then
      Action.ignored else execCommands list
    (e = true ∨ action = .alerted) ∧ ∀ list, action ≠ .executed list := by
  intro action
  cases e with
  | true => exact ⟨.inl rfl, by simp [action]⟩
  | false =>
    have h2 := hp.two_le (by simp) (by simpa using ho) rfl
    have hempty : ∃ c ∈ list, c.argList = [] := by
      by_contra h
      refine hn (hp.taken (by simp) rfl fun c hc he => h ⟨c, hc, he⟩)
    have : action = .alerted := by
      simp only [action]
      rw [if_neg (by simp; omega), execCommands_eq, if_pos hempty]
    exact ⟨.inr this, by simp [this]⟩

/-- A line is treated as it should be exactly when `getline` can store it and
the parser does not take it in spite of a segment without a word. -/
theorem turn_faithful_iff (buff : List Char) (save : Nat) (line : List Char) (hz : NUL ∉ line) :
    (∃ r, turn buff save line = some r ∧ Faithful line r) ↔
      line.length + 2 ≤ MAX_INPUT_LENGTH ∧ (Taken line → (segments line).Worded) := by
  constructor
  · rintro ⟨r, hr, hf⟩
    have hlen : line.length + 2 ≤ MAX_INPUT_LENGTH := by
      by_contra h
      simp [turn, getcmd, h] at hr
    refine ⟨hlen, fun ht => ?_⟩
    obtain ⟨list, e, action, hp, hturn, -⟩ := turn_parses buff save hz hlen
    cases hturn.symm.trans hr
    obtain ⟨rfl, hl⟩ := ht.parses hp
    rw [Line.worded_commands _ .regular]
    rcases hf.parsed with (h | ⟨c, hc, h⟩) | h
    · exact absurd h (by simp)
    · exact absurd h (hl c hc)
    · rwa [← h]
  · rintro ⟨hlen, hw⟩
    obtain ⟨list, e, action, hp, hturn, haction⟩ := turn_parses buff save hz hlen
    refine ⟨_, hturn, ?_, ?_, ?_⟩
    · by_cases ht : Taken line
      · exact .inr (hp.commands (by simp) (hw ht) (ht.parses hp).1)
      · refine .inl ?_
        by_contra h
        rw [not_or] at h
        exact ht (hp.taken (by simp) (by simpa using h.1) fun c hc he => h.2 ⟨c, hc, he⟩)
    · intro ho hn
      rw [haction]
      exact reported hp ho fun ht => hn (hw ht)
    · intro hblank
      obtain ⟨rfl, rfl⟩ := hp.of_blank hblank
      exact ⟨rfl, by rw [haction]; simp⟩

/-- `ls | wc` is stored and has a word in both segments. -/
theorem turn_faithful_iff_ls : (∃ r, turn [] 0 ['l', 's', '|', 'w', 'c'] = some r ∧
      Faithful ['l', 's', '|', 'w', 'c'] r) ↔
    ['l', 's', '|', 'w', 'c'].length + 2 ≤ MAX_INPUT_LENGTH ∧
      (Taken ['l', 's', '|', 'w', 'c'] → (segments ['l', 's', '|', 'w', 'c']).Worded) :=
  turn_faithful_iff [] 0 ['l', 's', '|', 'w', 'c'] (by decide)

/-- `|ls` runs `ls | ls`. -/
theorem turn_pipe_ls : turn [] 0 ['|', 'l', 's'] =
    some ⟨[⟨[['l', 's']], .regular, .pipe⟩, ⟨[['l', 's']], .pipe, .regular⟩], false,
      .executed [⟨[['l', 's']], .regular, .pipe⟩, ⟨[['l', 's']], .pipe, .regular⟩]⟩ := by
  decide +kernel

theorem pipe_ls_unfaithful : ¬∃ r, turn [] 0 ['|', 'l', 's'] = some r ∧ Faithful ['|', 'l', 's'] r := by
  rintro ⟨r, hr, hf⟩
  cases turn_pipe_ls.symm.trans hr
  have hs : segments ['|', 'l', 's'] = .cut [] .pipe (.last ['l', 's']) := by
    rw [segments, segments_last (by simp [IsOperator])]
  have := hf.wordless (by rw [hs]; trivial) (by rw [hs]; simp [Line.Worded, words])
  exact this.2 _ rfl

end PerrOS.Shell
