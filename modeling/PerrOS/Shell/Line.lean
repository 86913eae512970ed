import PerrOS.Shell.Parser

/-!
# Command lines

What a line says, read off its text: the segments between the operators, and
the commands they stand for. Beside it, what the parser makes of a text
without the buffer: `Parses`, which goes through the text the way the scanner
does, and `Taken`, the texts it finds nothing wrong with.
-/

namespace PerrOS.Shell

open Lib (words firstWord)

-- ---------------------------------------------------------------------------
-- Segments
-- ---------------------------------------------------------------------------

/-- The operator a text starts with, the longest one, and what follows it. -/
def operator : List Char → Option (CommandType × List Char)
  | '|' :: t => some (.pipe, t)
  | '%' :: t => some (.tee, t)
  | '>' :: '>' :: t => some (.aRedir, t)
  | '>' :: t => some (.oRedir, t)
  | _ => none

/-- A line as its segments and the operators between them. -/
inductive Line
  | last (seg : List Char)
  | cut (seg : List Char) (op : CommandType) (rest : Line)

namespace Line

def push (c : Char) : Line → Line
  | last seg => last (c :: seg)
  | cut seg op rest => cut (c :: seg) op rest

/-- One node for each segment, typed by the operators at its ends. -/
def commands : CommandType → Line → List Command
  | inType, last seg => [⟨words blanks seg, inType, .regular⟩]
  | inType, cut seg op rest => ⟨words blanks seg, inType, op⟩ :: rest.commands op

/-- Every segment has a word. -/
def Worded : Line → Prop
  | last seg => words blanks seg ≠ []
  | cut seg _ rest => words blanks seg ≠ [] ∧ rest.Worded

/-- Some text stands before every operator. -/
def Gapless : Line → Prop
  | last _ => True
  | cut seg _ rest => seg ≠ [] ∧ rest.Gapless

def HasOperator : Line → Prop
  | last _ => False
  | cut .. => True

end Line

def segments : List Char → Line
  | [] => .last []
  | '|' :: t => .cut [] .pipe (segments t)
  | '%' :: t => .cut [] .tee (segments t)
  | '>' :: '>' :: t => .cut [] .aRedir (segments t)
  | '>' :: t => .cut [] .oRedir (segments t)
  | c :: t => (segments t).push c

def IsOperator (c : Char) : Prop := c = '|' ∨ c = '%' ∨ c = '>'

theorem operator_eq_none : operator (c :: t) = none ↔ ¬IsOperator c := by
  unfold IsOperator
  constructor
  · rintro h (rfl | rfl | rfl)
    · simp [operator] at h
    · simp [operator] at h
    · unfold operator at h
      split at h <;> simp_all
  · intro h
    unfold operator
    split <;> simp_all

theorem segments_operator (h : operator t = some (op, rest)) :
    segments t = .cut [] op (segments rest) := by
  unfold operator at h
  split at h
  · cases h; rw [segments]
  · cases h; rw [segments]
  · cases h; rw [segments]
  · cases h; rw [segments]; assumption
  · cases h

theorem segments_char (h : ¬IsOperator c) : segments (c :: t) = (segments t).push c := by
  simp only [IsOperator, not_or] at h
  obtain ⟨h₁, h₂, h₃⟩ := h
  rw [segments]
  · exact h₁
  · exact h₂
  · exact fun _ h _ => h₃ h
  · exact h₃

theorem segments_append (hs : ∀ c ∈ seg, ¬IsOperator c) (h : operator t = some (op, rest)) :
    segments (seg ++ t) = .cut seg op (segments rest) := by
  induction seg with
  | nil => exact segments_operator h
  | cons c seg ih =>
    rw [List.cons_append, segments_char (hs c (by simp)), ih fun d hd => hs d (by simp [hd])]
    rfl

theorem segments_last (hs : ∀ c ∈ seg, ¬IsOperator c) : segments seg = .last seg := by
  induction seg with
  | nil => rfl
  | cons c seg ih =>
    rw [segments_char (hs c (by simp)), ih fun d hd => hs d (by simp [hd])]
    rfl

theorem Line.worded_commands (l : Line) (inType : CommandType) :
    l.Worded ↔ ∀ c ∈ l.commands inType, c.argList ≠ [] := by
  induction l generalizing inType with
  | last seg => simp [Line.Worded, Line.commands]
  | cut seg op rest ih => simp [Line.Worded, Line.commands, ih op]

-- ---------------------------------------------------------------------------
-- The parser on texts
-- ---------------------------------------------------------------------------

/-- The characters from the start of `t` on. -/
def peek (t : List Char) (j : Nat) : Char := t.getD j NUL

/-- An operator as it is written; its branch gives this to `strtok` as the
delimiters. -/
def CommandType.text : CommandType → List Char
  | .regular => []
  | .pipe => ['|']
  | .tee => ['%']
  | .oRedir => ['>']
  | .aRedir => ['>', '>']

/-- What `strtok` finds when nothing stands before the operator: it skips the
operator itself and takes the text up to the next one of the same character. -/
def chunk (op : CommandType) (rest : List Char) : List Char :=
  rest.takeWhile (fun c => decide (c ∉ op.text))

/-- `Parses inType seg t list e`: with `seg` read since the last operator and
`t` ahead, the commands `list` are appended and `errorSeen` ends as `e`. -/
inductive Parses : CommandType → List Char → List Char → List Command → Bool → Prop
  | last : Parses inType seg [] [⟨words blanks seg, inType, .regular⟩] false
  | char : operator (c :: t) = none → Parses inType (seg ++ [c]) t list e →
      Parses inType seg (c :: t) list e
  | bad : operator t = some (op, rest) → badCharNext (peek t) = true →
      Parses inType seg t [⟨words blanks (seg ++ t), inType, .regular⟩] true
  | cut : operator t = some (op, rest) → badCharNext (peek t) = false → seg ≠ [] →
      Parses op [] rest list e → Parses inType seg t (⟨words blanks seg, inType, op⟩ :: list) e
  /-- An empty segment: the words come from the text after the operator, which
  is cut off behind the first of them. -/
  | skip : operator t = some (op, rest) → badCharNext (peek t) = false →
      Parses op [] (firstWord blanks (chunk op rest)) list e →
      Parses inType [] t (⟨words blanks (chunk op rest), inType, op⟩ :: list) e

/-- The texts in which the parser finds nothing wrong. A segment before an
operator has a word, or it is empty and there is a word after the operator. -/
inductive Taken : List Char → Prop
  | last : (∀ c ∈ seg, ¬IsOperator c) → words blanks seg ≠ [] → Taken seg
  | cut : (∀ c ∈ seg, ¬IsOperator c) → words blanks seg ≠ [] → operator t = some (op, rest) →
      badCharNext (peek t) = false → Taken rest → Taken (seg ++ t)
  | skip : operator t = some (op, rest) → badCharNext (peek t) = false →
      words blanks (chunk op rest) ≠ [] → Taken (firstWord blanks (chunk op rest)) → Taken t

variable {seg t rest : List Char} {list : List Command} {op inType : CommandType} {e : Bool}

theorem plain_snoc (hs : ∀ c ∈ seg, ¬IsOperator c) (ho : operator (c :: t) = none) :
    ∀ d ∈ seg ++ [c], ¬IsOperator d := by
  intro d hd
  rcases List.mem_append.mp hd with hd | hd
  · exact hs d hd
  · rw [List.mem_singleton.mp hd]
    exact operator_eq_none.mp ho

theorem Parses.append (hu : ∀ c ∈ u, ¬IsOperator c) (h : Parses inType seg (u ++ t) list e) :
    Parses inType (seg ++ u) t list e := by
  induction u generalizing seg with
  | nil => rwa [List.append_nil]
  | cons c u ih =>
    have hc : operator (c :: (u ++ t)) = none := operator_eq_none.mpr (hu c (by simp))
    cases h with
    | char _ h => simpa using ih (fun d hd => hu d (by simp [hd])) h
    | bad h => simp [hc] at h
    | cut h => simp [hc] at h
    | skip h => simp [hc] at h

/-- Nothing is wrong with a taken text. -/
theorem Taken.parses (h : Taken t) : ∀ {inType list e}, Parses inType [] t list e →
    e = false ∧ ∀ c ∈ list, c.argList ≠ [] := by
  induction h with
  | @last seg hs hw =>
    intro inType list e hp
    rw [← List.append_nil seg] at hp
    cases hp.append hs with
    | last => simpa using hw
    | bad h => simp [operator] at h
    | cut h => simp [operator] at h
    | skip h => simp [operator] at h
  | @cut seg t op rest hs hw ho hb _ ih =>
    intro inType list e hp
    have hne : seg ≠ [] := by
      rintro rfl
      exact hw (by simp [words])
    have hp := hp.append hs
    rw [List.nil_append] at hp
    cases hp with
    | last => simp [operator] at ho
    | char h => simp [ho] at h
    | bad _ h => simp [hb] at h
    | cut ho' _ _ hp =>
      cases ho.symm.trans ho'
      obtain ⟨rfl, hl⟩ := ih hp
      refine ⟨rfl, ?_⟩
      rw [List.forall_mem_cons]
      exact ⟨hw, hl⟩
    | skip => exact absurd rfl hne
  | @skip t op rest ho hb hw _ ih =>
    intro inType list e hp
    cases hp with
    | last => simp [operator] at ho
    | char h => simp [ho] at h
    | bad _ h => simp [hb] at h
    | cut _ _ hne => exact absurd rfl hne
    | skip ho' _ hp =>
      cases ho.symm.trans ho'
      obtain ⟨rfl, hl⟩ := ih hp
      refine ⟨rfl, ?_⟩
      rw [List.forall_mem_cons]
      exact ⟨hw, hl⟩

/-- The parser takes a line without a word somewhere only by skipping an
operator with nothing before it. -/
theorem Taken.worded (h : Taken t) (hg : (segments t).Gapless) : (segments t).Worded := by
  induction h with
  | last hs hw =>
    rw [segments_last hs]
    exact hw
  | cut hs hw ho _ _ ih =>
    rw [segments_append hs ho] at hg ⊢
    exact ⟨hw, ih hg.2⟩
  | skip ho =>
    rw [segments_operator ho] at hg
    exact absurd rfl hg.1

/-- Only a taken text goes through without a report. -/
theorem Parses.taken (h : Parses inType seg t list e) (hs : ∀ c ∈ seg, ¬IsOperator c)
    (he : e = false) (hl : ∀ c ∈ list, c.argList ≠ []) : Taken (seg ++ t) := by
  induction h with
  | last =>
    rw [List.append_nil]
    exact .last hs (by simpa using hl)
  | @char c t seg inType list e ho _ ih =>
    have := ih (plain_snoc hs ho) he hl
    simpa using this
  | bad => simp at he
  | cut ho hb _ _ ih =>
    rw [List.forall_mem_cons] at hl
    exact .cut hs hl.1 ho hb (ih (by simp) he hl.2)
  | skip ho hb _ ih =>
    rw [List.forall_mem_cons] at hl
    exact .skip ho hb hl.1 (ih (by simp) he hl.2)

/-- A text whose every segment has a word is parsed into its commands, unless
it is rejected for the characters around an operator. -/
theorem Parses.commands (h : Parses inType seg t list e) (hs : ∀ c ∈ seg, ¬IsOperator c)
    (hw : (segments (seg ++ t)).Worded) (he : e = false) :
    list = (segments (seg ++ t)).commands inType := by
  induction h with
  | last =>
    rw [List.append_nil, segments_last hs]
    rfl
  | @char c t seg inType list e ho _ ih =>
    have := ih (plain_snoc hs ho) (by simpa using hw) he
    simpa using this
  | bad => simp at he
  | cut ho _ _ _ ih =>
    rw [segments_append hs ho] at hw ⊢
    rw [ih (by simp) hw.2 he]
    rfl
  | skip ho =>
    rw [segments_append hs ho] at hw
    exact absurd (by simp [words]) hw.1

theorem Parses.ne_nil (h : Parses inType seg t list e) : list ≠ [] := by
  induction h with
  | char _ _ ih => exact ih
  | _ => simp

/-- With an operator in the line there is an error or a second command. -/
theorem Parses.two_le (h : Parses inType seg t list e) (hs : ∀ c ∈ seg, ¬IsOperator c)
    (ho : (segments (seg ++ t)).HasOperator) (he : e = false) : 2 ≤ list.length := by
  induction h with
  | last =>
    rw [List.append_nil, segments_last hs] at ho
    exact ho.elim
  | char h _ ih => exact ih (plain_snoc hs h) (by simpa using ho) he
  | bad => simp at he
  | cut _ _ _ hp _ =>
    have := List.length_pos_iff.mpr hp.ne_nil
    rw [List.length_cons]
    exact Nat.succ_le_succ this
  | skip _ _ hp _ =>
    have := List.length_pos_iff.mpr hp.ne_nil
    rw [List.length_cons]
    exact Nat.succ_le_succ this

theorem Parses.of_blank (h : Parses inType [] t list e) (ht : ∀ c ∈ t, c ∈ blanks) :
    list = [⟨[], inType, .regular⟩] ∧ e = false := by
  have hop : ∀ c ∈ t, ¬IsOperator c := by
    intro c hc
    have := ht c hc
    simp only [blanks, List.mem_cons, List.not_mem_nil, or_false] at this
    rcases this with rfl | rfl <;> simp [IsOperator]
  rw [← List.append_nil t] at h
  cases h.append hop with
  | last =>
    rw [List.nil_append, Lib.words_delims ht]
    exact ⟨rfl, rfl⟩
  | bad ho => simp [operator] at ho
  | cut ho => simp [operator] at ho
  | skip ho => simp [operator] at ho

end PerrOS.Shell
