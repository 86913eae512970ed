import Mathlib.Data.List.Induction
import PerrOS.Console.Input

/-!
# What readers take from the console

The lines that are typed, as they are edited, reach the readers in order, each
byte once: what is on the way is in the buffer, and nobody edits it any more.
-/

namespace PerrOS.Console

open Function (update)
open Lib (Counters System)

/-- What may be taken. -/
def Input.queue (input : Input) : List Byte :=
  Counters.elements INPUT_BUF input.r input.w input.buf

/-- What is edited. -/
def Input.line (input : Input) : List Byte :=
  Counters.elements INPUT_BUF input.w input.e input.buf

/-- The lines that have been typed, what has been taken of them, and the line that is edited. -/
structure Tty where
  typed : List Byte
  taken : List Byte
  line : List Byte

namespace Tty

/-- A character arrives. -/
def key (t : Tty) (c : Byte) : Tty :=
  if c = C 'P' then t
  else if c = C 'U' then { t with line := [] }
  else if c = C 'H' ∨ c = delete then { t with line := t.line.dropLast }
  else if c ≠ 0 ∧ t.typed.length + t.line.length < t.taken.length + INPUT_BUF then
    let c := if c = carriage then newline else c
    let line := t.line ++ [c]
    if c = newline ∨ c = C 'D' ∨ t.typed.length + line.length = t.taken.length + INPUT_BUF then
      { t with typed := t.typed ++ line, line := [] }
    else { t with line }
  else t

def take (t : Tty) (x : Byte) : Tty := { t with taken := t.taken ++ [x] }

end Tty

variable {Proc : Type u}

/-- What a step means for the lines. -/
def event : Label Proc → Tty → Tty
  | .key c, t => t.key c
  | .take _ x, t => t.take x
  | .eof _ false, t => t.take (C 'D')
  | _, t => t

def ttyAfter (ls : List (Label Proc)) : Tty := ls.foldl (fun t l => event l t) ⟨[], [], []⟩

/-- The buffer holds `q` for the readers, and then the line `l`. -/
structure Input.Holds (input : Input) (q l : List Byte) : Prop where
  counters : Counters INPUT_BUF input.r input.e input.buf (q ++ l)
  w : input.w = input.r + BitVec.ofNat 32 q.length

namespace Input.Holds

variable {input : Input} {q l : List Byte} {x c : Byte}

theorem committed (h : input.Holds q l) : Counters INPUT_BUF input.r input.w input.buf q :=
  h.w ▸ h.counters.take

theorem edited (h : input.Holds q l) : Counters INPUT_BUF input.w input.e input.buf l :=
  h.w ▸ h.counters.drop

theorem front (h : input.Holds (x :: q) l) : input.front = x := h.counters.front

theorem advance (h : input.Holds (x :: q) l) : input.advance.Holds q l := by
  refine ⟨h.counters.pop, ?_⟩
  rw [show input.advance.w = input.w from rfl, h.w, List.length_cons, Nat.add_comm,
    BitVec.ofNat_add, ← BitVec.add_assoc]
  rfl

theorem back (h : input.Holds q (l ++ [x])) :
    ({ input with e := input.e - 1 } : Input).Holds q l ∧
      input.buf ((input.e - 1).toNat % INPUT_BUF) = x := by
  have hc := h.counters
  rw [← List.append_assoc] at hc
  exact ⟨⟨hc.unpush.1, h.w⟩, hc.unpush.2⟩

/-- A line is dropped whole, since it has no end yet. -/
theorem killLine (hl : newline ∉ l) (h : input.Holds q l) :
    (Input.killLine l.length input).Holds q [] := by
  induction l using List.reverseRecOn generalizing input with
  | nil => exact h
  | append_singleton l x ih =>
    obtain ⟨hback, hx⟩ := h.back
    have hne : input.e ≠ input.w := fun he => by
      have := h.edited.eq_iff.mp he.symm
      simp at this
    have hend : x ≠ newline := fun he => hl (by simp [he])
    rw [List.length_append, List.length_singleton, Input.killLine, hx, if_pos ⟨hne, hend⟩]
    exact ih (fun hmem => hl (List.mem_append_left _ hmem)) hback

theorem put (h : input.Holds q l) (hroom : (q ++ l).length < INPUT_BUF) (c : Byte) :
    (input.put c).Holds q (l ++ [c]) := by
  have hc := h.counters.push hroom c
  rw [List.append_assoc] at hc
  exact ⟨hc, h.w⟩

/-- The line is complete. -/
theorem commit (h : input.Holds q l) :
    ({ input with w := input.e } : Input).Holds (q ++ l) [] := by
  refine ⟨?_, h.counters.w_eq⟩
  rw [List.append_nil]
  exact h.counters

end Input.Holds

/-- The buffer is that of the lines, with `q` left to take. -/
structure Tty.Shown (t : Tty) (input : Input) (q : List Byte) : Prop where
  holds : input.Holds q t.line
  typed : t.typed = t.taken ++ q
  unended : newline ∉ t.line
  /-- A full buffer can be taken from. -/
  full : q.length + t.line.length = INPUT_BUF → t.line = []

namespace Tty.Shown

variable {t : Tty} {input : Input} {q : List Byte} {x : Byte}

theorem room (h : t.Shown input q) : input.e - input.r < BitVec.ofNat 32 INPUT_BUF ↔
    t.typed.length + t.line.length < t.taken.length + INPUT_BUF := by
  have hsub := h.holds.counters.sub_eq
  rw [List.length_append] at hsub
  rw [BitVec.lt_def, hsub, h.typed, List.length_append]
  have : (BitVec.ofNat 32 INPUT_BUF).toNat = INPUT_BUF := by decide
  omega

theorem set_line (h : t.Shown input q) {input' : Input} {line : List Byte}
    (hh : input'.Holds q line) (hsub : ∀ c ∈ line, c ∈ t.line)
    (hlen : line.length ≤ t.line.length) : Tty.Shown { t with line } input' q where
  holds := hh
  typed := h.typed
  unended hmem := h.unended (hsub _ hmem)
  full hfull := by
    have hle := h.holds.counters.length_le
    rw [List.length_append] at hle
    have hfull : q.length + line.length = INPUT_BUF := hfull
    have hnil := h.full (by omega)
    rw [hnil, List.length_nil, Nat.le_zero] at hlen
    exact List.eq_nil_of_length_eq_zero hlen

/-- A character arrives, and where no reader is woken there is nothing more to take. -/
theorem key (h : t.Shown input q) (c : Byte) : ∃ q', (t.key c).Shown (input.key c).1 q' ∧
    ((input.key c).2 = false → q' = q) := by
  unfold Input.key Tty.key
  by_cases hP : c = C 'P'
  · rw [if_pos hP, if_pos hP]
    exact ⟨q, h, fun _ => rfl⟩
  rw [if_neg hP, if_neg hP]
  by_cases hU : c = C 'U'
  · rw [if_pos hU, if_pos hU, h.holds.edited.sub_eq]
    refine ⟨q, h.set_line (h.holds.killLine h.unended) (fun c hc => ?_) (Nat.zero_le _),
      fun _ => rfl⟩
    cases hc
  rw [if_neg hU, if_neg hU]
  by_cases hH : c = C 'H' ∨ c = delete
  · rw [if_pos hH, if_pos hH]
    refine ⟨q, ?_, fun _ => rfl⟩
    by_cases he : input.e = input.w
    · have hnil := h.holds.edited.eq_iff.mp he.symm
      dsimp only
      have hsame : t.line.dropLast = t.line := by
        rw [hnil]
        rfl
      rw [if_neg (not_not.mpr he), hsame]
      exact h
    · have hne : t.line ≠ [] := fun hnil => he (h.holds.edited.eq_iff.mpr hnil).symm
      have hback := h.holds
      rw [← List.dropLast_append_getLast hne] at hback
      dsimp only
      rw [if_pos he]
      exact h.set_line hback.back.1 (fun c hc => List.dropLast_subset _ hc) (by simp)
  rw [if_neg hH, if_neg hH]
  by_cases hroom : c ≠ 0 ∧ input.e - input.r < BitVec.ofNat 32 INPUT_BUF
  · have hlt := h.room.mp hroom.2
    rw [if_pos hroom, if_pos ⟨hroom.1, hlt⟩]
    obtain ⟨x, hx⟩ : ∃ x, x = if c = carriage then newline else c := ⟨_, rfl⟩
    dsimp only
    rw [← hx]
    rw [h.typed, List.length_append] at hlt
    have hput := h.holds.put (by rw [List.length_append]; omega) x
    have hfull := hput.counters.full_iff
    rw [List.length_append] at hfull
    have hiff : (input.put x).e = (input.put x).r + BitVec.ofNat 32 INPUT_BUF ↔
        t.typed.length + (t.line ++ [x]).length = t.taken.length + INPUT_BUF := by
      rw [hfull, h.typed]
      simp only [List.length_append]
      omega
    by_cases hend : x = newline ∨ x = C 'D' ∨
        (input.put x).e = (input.put x).r + BitVec.ofNat 32 INPUT_BUF
    · rw [if_pos hend, if_pos (hend.imp_right fun h => h.imp_right hiff.mp)]
      refine ⟨q ++ (t.line ++ [x]), ⟨hput.commit, ?_, List.not_mem_nil, fun _ => rfl⟩, fun h => ?_⟩
      · rw [h.typed, List.append_assoc]
      · exact absurd h.symm Bool.false_ne_true
    · rw [if_neg hend, if_neg fun h => hend (h.imp_right fun h => h.imp_right hiff.mpr)]
      refine ⟨q, ⟨hput, h.typed, fun hmem => ?_, fun hall => ?_⟩, fun _ => rfl⟩
      · rcases List.mem_append.mp hmem with hmem | hmem
        · exact h.unended hmem
        · exact hend (.inl (List.mem_singleton.mp hmem).symm)
      · exact absurd (.inr (.inr (hfull.mpr hall))) hend
  · rw [if_neg hroom, if_neg fun hc => hroom ⟨hc.1, h.room.mpr hc.2⟩]
    exact ⟨q, h, fun _ => rfl⟩

/-- The next byte is taken. -/
theorem take (h : t.Shown input q) (hr : input.r ≠ input.w) :
    ∃ q', q = input.front :: q' ∧ (t.take input.front).Shown input.advance q' := by
  cases q with
  | nil => exact absurd (h.holds.committed.eq_iff.mpr rfl) hr
  | cons x q =>
    obtain rfl := h.holds.front
    refine ⟨q, rfl, h.holds.advance, ?_, h.unended, fun hfull => ?_⟩
    · rw [show (t.take input.front).typed = t.typed from rfl, h.typed,
        show (t.take input.front).taken = t.taken ++ [input.front] from rfl, List.append_assoc,
        List.singleton_append]
    · have hle := h.holds.counters.length_le
      rw [List.length_append, List.length_cons] at hle
      have hfull : q.length + t.line.length = INPUT_BUF := hfull
      omega

end Tty.Shown

-- ---------------------------------------------------------------------------
-- Runs
-- ---------------------------------------------------------------------------

section
variable [DecidableEq Proc] {s t : State Proc} {l : Label Proc} {ls : List (Label Proc)} {p : Proc}

omit [DecidableEq Proc] in
theorem consoleintr_input (s : State Proc) (c : Byte) :
    (consoleintr s c).input = (s.input.key c).1 := by
  unfold consoleintr
  split <;> rfl

/-- What is in the buffer, and that a reader sleeps only where there is nothing to take. -/
structure Inv (s : State Proc) (t : Tty) : Prop where
  shown : ∃ q, t.Shown s.input q
  asleep : ∀ p target n, s.pc p = .asleep target n → s.input.r = s.input.w

theorem Tty.Shown.drained {input : Input} {q : List Byte} {t : Tty} (h : t.Shown input q) :
    input.r = input.w ↔ q = [] := h.holds.committed.eq_iff

theorem inv_step {tty : Tty} (h : Inv s tty) (hs : Step s l t) : Inv t (event l tty) := by
  obtain ⟨⟨q, hq⟩, hasleep⟩ := h
  -- one process moves to a place where it is awake, and the buffer stays as it is
  have hmove (p : Proc) (pc : Pc) (hpc : ∀ target n, pc ≠ .asleep target n) (r : Proc)
      (target n : Nat) (hr : update s.pc p pc r = .asleep target n) : s.input.r = s.input.w := by
    by_cases he : r = p
    · subst he
      rw [Function.update_self] at hr
      exact absurd hr (hpc target n)
    · rw [Function.update_of_ne he] at hr
      exact hasleep r target n hr
  cases hs with
  | key c =>
    obtain ⟨q', hq', hsame⟩ := hq.key c
    refine ⟨⟨q', by rw [consoleintr_input]; exact hq'⟩, fun p target n hp => ?_⟩
    unfold consoleintr at hp ⊢
    split at hp
    · rename_i hwoken
      have hp : (s.pc p).wake = .asleep target n := hp
      cases hpc : s.pc p <;> simp [hpc, Pc.wake] at hp
    · rename_i hquiet
      rw [if_neg hquiet]
      rw [Bool.not_eq_true] at hquiet
      have hnil := hq.drained.mp (hasleep p target n hp)
      exact hq'.drained.mpr ((hsame hquiet).trans hnil)
  | kill p =>
    refine ⟨⟨q, hq⟩, hmove p _ fun target n hw => ?_⟩
    cases hpc : s.pc p <;> simp [hpc, Pc.wake] at hw
  | read hpc => exact ⟨⟨q, hq⟩, hmove _ _ (by simp)⟩
  | awake hpc => exact ⟨⟨q, hq⟩, hmove _ _ (by simp)⟩
  | empty hpc hempty => exact ⟨⟨q, hq⟩, fun _ _ _ _ => hempty⟩
  | abandoned hpc => exact ⟨⟨q, hq⟩, hmove _ _ (by simp)⟩
  | takeLine hpc hr hx =>
    obtain ⟨q', -, hq'⟩ := hq.take hr
    rw [hx] at hq'
    exact ⟨⟨q', hq'⟩, fun r target n hp => absurd (hmove _ _ (by simp) r target n hp) hr⟩
  | take hpc hr hx hd =>
    obtain ⟨q', -, hq'⟩ := hq.take hr
    exact ⟨⟨q', hq'⟩, fun r target n hp => absurd (hmove _ _ (by simp) r target n hp) hr⟩
  | eofKept hpc hr hd hn => exact ⟨⟨q, hq⟩, hmove _ _ (by simp)⟩
  | eof hpc hr hd hn =>
    obtain ⟨q', -, hq'⟩ := hq.take hr
    rw [hd] at hq'
    exact ⟨⟨q', hq'⟩, fun r target n hp => absurd (hmove _ _ (by simp) r target n hp) hr⟩
  | full hpc => exact ⟨⟨q, hq⟩, hmove _ _ (by simp)⟩
  | returned hpc => exact ⟨⟨q, hq⟩, hmove _ _ (by simp)⟩

theorem run_inv (h : (system Proc).Run ls s) : Inv s (ttyAfter ls) := by
  refine h.invariant (P := fun ls s => Inv s (ttyAfter ls)) ?_ ?_
  · intro s hs
    obtain ⟨hr, hw, he⟩ := hs.input
    refine ⟨⟨[], ⟨⟨?_, ?_⟩, rfl, List.not_mem_nil, fun _ => rfl⟩⟩, fun p target n hp => ?_⟩
    · rw [hr, he]
      exact Counters.empty (by decide) ⟨2 ^ 25, by decide⟩ (by decide) 0 _
    · rw [hr, hw]
      rfl
    · rw [hr, hw]
  · intro ls s l t hinv hs
    unfold ttyAfter
    rw [List.foldl_append]
    exact inv_step hinv (step_of_next hs)

/-- The lines that have been typed are what has been taken, and then what the buffer holds; it has
room for more, or something to take. -/
theorem typed_eq_taken (h : (system Proc).Run ls s) :
    (ttyAfter ls).typed = (ttyAfter ls).taken ++ s.input.queue ∧
      s.input.line = (ttyAfter ls).line ∧ newline ∉ s.input.line ∧
      s.input.queue.length + s.input.line.length ≤ INPUT_BUF ∧
      (s.input.queue.length + s.input.line.length = INPUT_BUF → s.input.queue ≠ []) := by
  obtain ⟨⟨q, hq⟩, -⟩ := run_inv h
  have hqueue : s.input.queue = q := hq.holds.committed.elements_eq
  have hline : s.input.line = (ttyAfter ls).line := hq.holds.edited.elements_eq
  have hle := hq.holds.counters.length_le
  rw [List.length_append] at hle
  rw [hqueue, hline]
  refine ⟨hq.typed, rfl, hq.unended, hle, fun hfull hnil => ?_⟩
  rw [hq.full hfull, hnil] at hfull
  exact absurd hfull (by decide)

/-- A byte is taken of the line `x`, and `y` is still edited. -/
theorem byte_taken : ∃ s, (system (Fin 1)).Run
    [.key 120, .key newline, .key 121, .read 0 10, .take 0 120] s ∧
    (ttyAfter [.key 120, .key newline, .key 121, .read (0 : Fin 1) 10, .take 0 120]).typed =
      (ttyAfter [.key 120, .key newline, .key 121, .read (0 : Fin 1) 10, .take 0 120]).taken ++
        s.input.queue := by
  have hrun : (system (Fin 1)).Run [.key 120, .key newline, .key 121, .read 0 10, .take 0 120] _ :=
    Lib.System.run_exec quiet_initial rfl
  exact ⟨_, hrun, (typed_eq_taken hrun).1⟩

/-- A reader that sleeps has nothing to take. -/
theorem sleeper_waits (h : (system Proc).Run ls s) (hp : s.pc p = .asleep target n) :
    s.input.queue = [] := by
  obtain ⟨⟨q, hq⟩, hasleep⟩ := run_inv h
  rw [show s.input.queue = q from hq.holds.committed.elements_eq]
  exact hq.drained.mp (hasleep p target n hp)

/-- A reader sleeps while the byte `x` is edited. -/
theorem reader_sleeps : ∃ s, (system (Fin 1)).Run [.read 0 10, .empty 0, .key 120] s ∧
    s.pc 0 = .asleep 10 10 ∧ s.input.queue = [] := by
  have hrun : (system (Fin 1)).Run [.read 0 10, .empty 0, .key 120] _ :=
    Lib.System.run_exec quiet_initial rfl
  exact ⟨_, hrun, rfl, sleeper_waits (p := 0) hrun (show _ = Pc.asleep 10 10 from rfl)⟩

end

end PerrOS.Console
