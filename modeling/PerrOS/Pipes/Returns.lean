import PerrOS.Pipes.Sleepers

/-!
# What the calls return

`pipewrite` returns its count where all the bytes are in the pipe, and -1 where
only some of them are. `piperead` returns how many bytes it has copied, and
none only at the end of the file.
-/

namespace PerrOS.Pipes

universe u

variable {Proc : Type u} [DecidableEq Proc] {s t : State Proc} {p q : Proc} {l : Label Proc}
  {ls : List (Label Proc)} {n : Int} {i : Nat}

/-- How far a label brings a call of the process: its count, and the bytes it has copied. -/
def progress (p : Proc) (c : Option (Int × List Byte)) : Label Proc → Option (Int × List Byte)
  | .write q n | .read q n => if q = p then some (n, []) else c
  | .put q x | .take q x => if q = p then c.map fun c => (c.1, c.2 ++ [x]) else c
  | _ => c

/-- The last call of the process. -/
def call (p : Proc) (ls : List (Label Proc)) : Option (Int × List Byte) :=
  ls.foldl (progress p) none

theorem call_concat (p : Proc) (ls : List (Label Proc)) (l : Label Proc) :
    call p (ls ++ [l]) = progress p (call p ls) l := by
  rw [call, List.foldl_append, List.foldl_cons, List.foldl_nil, call]

/-- The count of the call a process is in, and how many bytes it has copied. -/
def Pc.counts : Pc → Option (Int × Nat)
  | .user => none
  | .writing n i | .writeAsleep n i | .writeAwake n i | .reading n i => some (n, i)
  | .waiting n | .readAsleep n | .readAwake n => some (n, 0)

@[simp] theorem Pc.counts_wakeReader (pc : Pc) : pc.wakeReader.counts = pc.counts := by
  cases pc <;> rfl

@[simp] theorem Pc.counts_wakeWriter (pc : Pc) : pc.wakeWriter.counts = pc.counts := by
  cases pc <;> rfl

/-- A call has copied what the labels say. -/
def Copied (ls : List (Label Proc)) (s : State Proc) : Prop :=
  ∀ p n i, (s.pc p).counts = some (n, i) →
    ∃ bytes, call p ls = some (n, bytes) ∧ bytes.length = i ∧ i ≤ n.toNat

/-- A step that moves no process out of its call, and copies nothing. -/
theorem Copied.keep (h : Copied ls s) (hcall : ∀ p, call p (ls ++ [l]) = call p ls)
    (hpc : ∀ p, (t.pc p).counts = (s.pc p).counts ∨ (t.pc p).counts = none) :
    Copied (ls ++ [l]) t := by
  intro p n i hp
  rcases hpc p with he | he
  · rw [hcall]
    exact h p n i (he ▸ hp)
  · rw [he] at hp
    cases hp

/-- One process is moved, after a `wakeup`. -/
theorem leave_counts {pc : Pc} {f : Pc → Pc} (hf : ∀ pc : Pc, (f pc).counts = pc.counts)
    (hpc : pc.counts = (s.pc p).counts ∨ pc.counts = none) (q : Proc) :
    (Function.update (fun q => f (s.pc q)) p pc q).counts = (s.pc q).counts ∨
      (Function.update (fun q => f (s.pc q)) p pc q).counts = none := by
  by_cases he : q = p
  · subst he
    rwa [Function.update_self]
  · rw [Function.update_of_ne he, hf]
    exact .inl rfl

/-- A step that begins a call or goes on with it. -/
theorem Copied.goOn (h : Copied ls s) (hpc : t.pc = Function.update s.pc p pc)
    (hp : ∀ n i, pc.counts = some (n, i) →
      ∃ bytes, call p (ls ++ [l]) = some (n, bytes) ∧ bytes.length = i ∧ i ≤ n.toNat)
    (hl : ∀ q, q ≠ p → call q (ls ++ [l]) = call q ls) : Copied (ls ++ [l]) t := by
  intro q n i hq
  rw [hpc] at hq
  by_cases he : q = p
  · subst he
    rw [Function.update_self] at hq
    exact hp n i hq
  · rw [Function.update_of_ne he] at hq
    rw [hl q he]
    exact h q n i hq

theorem Copied.step (h : Copied ls s) (hs : Step s l t) : Copied (ls ++ [l]) t := by
  have hkeep (hl : ∀ p c, progress p c l = c) (p : Proc) : call p (ls ++ [l]) = call p ls := by
    rw [call_concat, hl]
  cases hs with
  | kill p =>
    refine h.keep (hkeep fun _ _ => rfl) (leave_counts (f := id) (fun _ => rfl) (.inl ?_))
    simp
  | @close p b hpc hlock =>
    refine h.keep (hkeep fun _ _ => rfl) fun q => .inl ?_
    cases b <;> simp [pipeclose, State.wakeReaders, State.wakeWriters, State.setPipe]
  | @write p n hpc | @read p n hpc =>
    refine h.goOn rfl ?_ fun q hq => ?_
    · rintro _ _ ⟨⟩
      exact ⟨[], by simp [call_concat, progress], rfl, Nat.zero_le _⟩
    · simp [call_concat, progress, Ne.symm hq]
  | writeAwake hpc | readAwake hpc | ready hpc =>
    refine h.keep (hkeep fun _ _ => rfl) (leave_counts (f := id) (fun _ => rfl) (.inl ?_))
    rw [hpc]
    rfl
  | empty hpc =>
    refine h.keep (hkeep fun _ _ => rfl) (leave_counts (f := id) (fun _ => rfl) (.inl ?_))
    rw [hpc]
    rfl
  | refused hpc | abandoned hpc =>
    exact h.keep (hkeep fun _ _ => rfl) (leave_counts (f := id) (fun _ => rfl) (.inr rfl))
  | @put p n i x hpc hi =>
    obtain ⟨bytes, hcall, hlen, hle⟩ := h p n i (by rw [hpc]; rfl)
    refine h.goOn rfl ?_ fun q hq => ?_
    · rintro _ _ ⟨⟩
      exact ⟨bytes ++ [x], by simp [call_concat, progress, hcall], by simp [hlen], by omega⟩
    · simp [call_concat, progress, Ne.symm hq]
  | @take p n i hpc hi =>
    obtain ⟨bytes, hcall, hlen, hle⟩ := h p n i (by rw [hpc]; rfl)
    refine h.goOn rfl ?_ fun q hq => ?_
    · rintro _ _ ⟨⟩
      exact ⟨bytes ++ [s.pipe.front], by simp [call_concat, progress, hcall], by simp [hlen],
        by omega⟩
    · simp [call_concat, progress, Ne.symm hq]
  | full hpc =>
    refine h.keep (hkeep fun _ _ => rfl) (leave_counts Pc.counts_wakeReader (.inl ?_))
    rw [hpc]
    rfl
  | written hpc =>
    exact h.keep (hkeep fun _ _ => rfl) (leave_counts Pc.counts_wakeReader (.inr rfl))
  | returned hpc =>
    exact h.keep (hkeep fun _ _ => rfl) (leave_counts Pc.counts_wakeWriter (.inr rfl))

/-- A process that has begun to copy and has copied nothing yet has found a byte, or the end of the
file. -/
def Ready (s : State Proc) : Prop :=
  ∀ p n, s.pc p = .reading n 0 → ¬ (s.pipe.empty = true ∧ s.pipe.writeopen = true)

omit [DecidableEq Proc] in
/-- Only the process that copies could change what it has found. -/
theorem Ready.keep (h : Ready s) (hpipe : t.pipe = s.pipe)
    (hpc : ∀ q n, t.pc q = .reading n 0 → s.pc q = .reading n 0) : Ready t := by
  intro q n hq
  rw [hpipe]
  exact h q n (hpc q n hq)

theorem Ready.step (hl : Locked s) (h : Ready s) (hs : Step s l t) : Ready t := by
  have hwake {pc : Pc} {n : Int} : pc.wakeReader = .reading n 0 → pc = .reading n 0 := by
    cases pc <;> first | exact id | nofun
  have hwake' {pc : Pc} {n : Int} : pc.wakeWriter = .reading n 0 → pc = .reading n 0 := by
    cases pc <;> first | exact id | nofun
  cases hs with
  | kill p =>
    refine h.keep rfl fun q n hq => ?_
    by_cases he : q = p
    · subst he
      exact hwake (hwake' ((Function.update_self ..).symm.trans hq))
    · exact (Function.update_of_ne he ..).symm.trans hq
  | @close p b hpc hlock =>
    intro q n hq
    have hs : s.pc q = .reading n 0 := by
      cases b with
      | true => exact hwake hq
      | false => exact hwake' hq
    exact absurd hs (hl.pc_ne_of_free hlock rfl q)
  | write | writeAwake | read | readAwake | refused | empty | abandoned =>
    exact h.keep rfl fun q n hq => pc_update hq nofun
  | full | written =>
    exact h.keep rfl fun q n hq => hwake (pc_update (s := s.wakeReaders) hq nofun)
  | returned =>
    exact h.keep rfl fun q n hq => hwake' (pc_update (s := s.wakeWriters) hq nofun)
  | @put p n i x hpc =>
    intro q m hq
    have hin : (s.pc p).inside = true := by rw [hpc]; rfl
    exact absurd (pc_update hq nofun) (hl.pc_ne hin rfl (by simp [hpc]) q)
  | @take p n i hpc =>
    intro q m hq
    have hin : (s.pc p).inside = true := by rw [hpc]; rfl
    by_cases he : q = p
    · subst he
      cases (Function.update_self ..).symm.trans hq
    · have hq : s.pc q = .reading m 0 := (Function.update_of_ne he ..).symm.trans hq
      have hlock := (hl p).mp hin
      rw [(hl q).mp (by rw [hq]; rfl)] at hlock
      exact absurd (Option.some.inj hlock) he
  | @ready p n hpc hready =>
    intro q m hq
    exact hready

theorem run_copied (h : (system Proc).Run ls s) : Locked s ∧ Copied ls s ∧ Ready s := by
  refine h.invariant (P := fun ls s => Locked s ∧ Copied ls s ∧ Ready s)
    (fun s hs => ⟨hs.locked, ?_, ?_⟩) fun ls s l t hinv hs => ?_
  · intro p n i hp
    rw [hs.pc p] at hp
    cases hp
  · intro p n hp
    rw [hs.pc p] at hp
    cases hp
  · have hstep := step_of_next hs
    exact ⟨hinv.1.step hstep, hinv.2.1.step hstep, hinv.2.2.step hinv.1 hstep⟩

/-- What is known where a call returns: of what it was asked for, and of the bytes that it has
copied. -/
def Returns (ls : List (Label Proc)) (s : State Proc) : Label Proc → Prop
  | .written p => ∃ n bytes, call p ls = some (n, bytes) ∧ bytes.length = n.toNat
  | .refused p => ∃ n bytes, call p ls = some (n, bytes) ∧ bytes.length < n.toNat ∧
      s.pipe.queue.length = PIPESIZE
  | .returned p i => ∃ n bytes, call p ls = some (n, bytes) ∧ bytes.length = i ∧ i ≤ n.toNat ∧
      (i = 0 → 0 < n → s.pipe.queue = [] ∧ s.pipe.writeopen = false)
  | .abandoned p => ∃ n, call p ls = some (n, [])
  | _ => True

/-- A `pipewrite` that returns its count has written that many bytes, and one that returns -1 fewer,
all of which stay in the pipe. A `piperead` returns as many bytes as it has taken, and none only
where the pipe is empty and its other end closed. -/
theorem calls_return (h : (system Proc).Run (ls ++ [l]) s) : Returns ls s l := by
  obtain ⟨r, hrun, hs⟩ := h.of_concat
  obtain ⟨bytes, -, hholds⟩ := simulation.run hrun
  obtain ⟨-, hcopied, hready⟩ := run_copied hrun
  cases step_of_next hs with
  | @written p n i hpc hi =>
    obtain ⟨bytes, hcall, hlen, hle⟩ := hcopied p n i (by rw [hpc]; rfl)
    exact ⟨n, bytes, hcall, by omega⟩
  | @refused p n i hpc hi hfull =>
    obtain ⟨bytes, hcall, hlen, hle⟩ := hcopied p n i (by rw [hpc]; rfl)
    refine ⟨n, bytes, hcall, by omega, ?_⟩
    rw [show (r.leave p .user).pipe = r.pipe from rfl, hholds.queue_eq]
    exact hholds.full_iff.mp hfull
  | @returned p n i hpc hi =>
    obtain ⟨bytes, hcall, hlen, hle⟩ := hcopied p n i (by rw [hpc]; rfl)
    refine ⟨n, bytes, hcall, hlen, hle, ?_⟩
    rintro rfl hn
    have hempty := hi.resolve_left (Int.not_le.mpr hn)
    refine ⟨?_, Bool.not_eq_true _ ▸ fun hopen => hready p n hpc ⟨hempty, hopen⟩⟩
    rw [show (r.wakeWriters.leave p .user).pipe = r.pipe from rfl, hholds.queue_eq]
    exact hholds.empty_iff.mp hempty
  | @abandoned p n hpc =>
    obtain ⟨bytes, hcall, hlen, -⟩ := hcopied p n 0 (by rw [hpc]; rfl)
    obtain rfl := List.length_eq_zero_iff.mp hlen
    exact ⟨n, hcall⟩
  | _ => trivial

/-- The process 1 writes two bytes, of which the process 0 reads one. -/
theorem one_byte_read : ∃ s, (system (Fin 2)).Run
    [.write 1 2, .put 1 7, .put 1 9, .written 1, .read 0 1, .ready 0, .take 0 7, .returned 0 1] s ∧
    Returns [.write 1 2, .put 1 7, .put 1 9, .written 1, .read 0 1, .ready 0, .take 0 7] s
      (.returned 0 1) := by
  have hrun : (system (Fin 2)).Run ([.write 1 2, .put 1 7, .put 1 9, .written 1, .read 0 1,
      .ready 0, .take 0 7] ++ [.returned 0 1]) _ := Lib.System.run_exec opened_initial rfl
  exact ⟨_, hrun, calls_return hrun⟩

end PerrOS.Pipes
