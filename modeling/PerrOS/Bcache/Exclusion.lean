import PerrOS.Bcache.Phases

/-!
# One process to a block

A block is in one buffer, which one process has at a time. A process sleeps in
`bget` only while the block it asks for is with another one, and in `iderw`
only while the disk has its request.
-/

namespace PerrOS.Bcache

open Function (update)

universe u v

variable {Proc : Type u} {Data : Type v} {s t : State Proc Data} {p q : Proc} {b c : Id}
  {l : Label Proc Data} {ls : List (Label Proc Data)} {w : Bool} {pc : Pc} {havedisk1 : Bool}
  {disk : Address → Data} {x : Buf Data} {msg : String} {dev sector : Word}

/-- The buffers have different blocks, but for those that have none yet. -/
def Unique (s : State Proc Data) : Prop :=
  ∀ b c, (s.buf b).block = (s.buf c).block → (s.buf b).dev ≠ -1 → b = c

/-- Whoever sleeps in `bget` waits for a buffer that is busy with the block. -/
def Sleepers (s : State Proc Data) : Prop :=
  ∀ p b dev sector, s.pc p = .asleep b dev sector →
    (s.buf b).busy = true ∧ (s.buf b).block = (dev, sector)

/-- The list of `bcache` has every buffer, once. -/
def Listed (s : State Proc Data) : Prop := s.order.Nodup ∧ ∀ b, b ∈ s.order

/-- The controller works on the head of the queue. -/
def Serves (s : State Proc Data) : Prop :=
  match s.ide with
  | .idle => s.queue = []
  | .working r => ∃ b rest, s.queue = b :: rest ∧ r = idestart (s.buf b)
  | .finished _ => s.queue ≠ []

structure Sound (s : State Proc Data) : Prop where
  phases : Phases s
  nodup : s.queue.Nodup
  listed : Listed s
  unique : Unique s
  sleepers : Sleepers s
  serves : Serves s

-- ---------------------------------------------------------------------------
-- What the steps change
-- ---------------------------------------------------------------------------

theorem Unique.mono (h : Unique s) (hbuf : ∀ b, (t.buf b).block = (s.buf b).block) :
    Unique t := by
  intro b c hblock hdev
  rw [hbuf, hbuf] at hblock
  exact h b c hblock fun he => hdev ((congrArg Prod.fst (hbuf b)).trans he)

/-- A buffer gets a block that no other one has. -/
theorem Unique.recycle (h : Unique s) (hnone : ∀ c, (s.buf c).block ≠ x.block)
    (hbuf : t.buf = update s.buf b x) : Unique t := by
  intro c d hblock hdev
  rw [hbuf] at hblock hdev
  by_cases hc : c = b <;> by_cases hd : d = b
  · rw [hc, hd]
  · rw [hc, Function.update_self, Function.update_of_ne hd] at hblock
    exact absurd hblock.symm (hnone d)
  · rw [hd, Function.update_self, Function.update_of_ne hc] at hblock
    exact absurd hblock (hnone c)
  · rw [Function.update_of_ne hc] at hblock hdev
    rw [Function.update_of_ne hd] at hblock
    exact h c d hblock hdev

/-- Fewer sleep, and what is busy stays so. -/
theorem Sleepers.mono (h : Sleepers s)
    (hpc : ∀ q b dev sector, t.pc q = .asleep b dev sector → s.pc q = .asleep b dev sector)
    (hbuf : ∀ b, (s.buf b).busy = true →
      (t.buf b).busy = true ∧ (t.buf b).block = (s.buf b).block) : Sleepers t := by
  intro q b dev sector hq
  obtain ⟨hbusy, hblock⟩ := h q b dev sector (hpc q b dev sector hq)
  exact ⟨(hbuf b hbusy).1, (hbuf b hbusy).2.trans hblock⟩

theorem Pc.wakeup_asleep (h : pc.wakeup b = .asleep c dev sector) :
    pc = .asleep c dev sector ∧ c ≠ b := by
  cases pc with
  | user | bget => cases h
  | asleep d =>
    rw [Pc.wakeup] at h
    split at h
    · cases h
    · rename_i hne
      cases h
      exact ⟨rfl, hne⟩
  | on d stage =>
    cases stage with
    | asleep =>
      rw [Pc.wakeup] at h
      split at h <;> cases h
    | _ => cases h

theorem Pc.wake_ne_asleep (pc : Pc) : pc.wake ≠ .asleep c dev sector := by
  cases pc with
  | on d stage => cases stage <;> nofun
  | _ => nofun

/-- A change to a buffer that leaves it its block and does not release it. -/
theorem update_buf (hbuf : t.buf = update s.buf b x) (hbusy : x.busy = (s.buf b).busy)
    (hblock : x.block = (s.buf b).block) (c : Id) :
    (t.buf c).busy = (s.buf c).busy ∧ (t.buf c).block = (s.buf c).block := by
  rw [hbuf]
  by_cases he : c = b
  · subst he
    rw [Function.update_self]
    exact ⟨hbusy, hblock⟩
  · rw [Function.update_of_ne he]
    exact ⟨rfl, rfl⟩

theorem Listed.toFront (h : Listed s) (b : Id) (horder : t.order = Lib.Recency.toFront b s.order) :
    Listed t := by
  rw [Listed, horder]
  exact ⟨Lib.Recency.toFront_nodup h.1 b, fun c => Lib.Recency.mem_toFront (h.2 c)⟩

variable [DecidableEq Proc]

theorem pc_update (hpc : pc ≠ .asleep c dev sector)
    (h : update s.pc p pc q = .asleep c dev sector) : s.pc q = .asleep c dev sector := by
  by_cases he : q = p
  · subst he
    rw [Function.update_self] at h
    exact absurd h hpc
  · rwa [Function.update_of_ne he] at h

/-- What `bget` can do. -/
theorem bget_cases (s : State Proc Data) (p : Proc) (dev sector : Word) :
    (∃ b ∈ s.order, (s.buf b).block = (dev, sector) ∧ (s.buf b).busy = false ∧
      bget s p dev sector = s.take p b { s.buf b with busy := true }) ∨
    (∃ b ∈ s.order, (s.buf b).block = (dev, sector) ∧ (s.buf b).busy = true ∧
      bget s p dev sector = s.goto p (.asleep b dev sector)) ∨
    (∃ b, (∀ c ∈ s.order, (s.buf c).block ≠ (dev, sector)) ∧ (s.buf b).busy = false ∧
      (s.order.reverse.find? fun b => !(s.buf b).busy) = some b ∧ bget s p dev sector =
        s.take p b { s.buf b with dev, sector, busy := true, valid := false, dirty := false }) ∨
    ((∀ b ∈ s.order, (s.buf b).busy = true) ∧
      bget s p dev sector = s.panic "bget: no buffers") := by
  unfold bget
  split
  · rename_i b hb
    have hmem := List.mem_of_find?_eq_some hb
    have hblock : (s.buf b).block = (dev, sector) := by simpa using List.find?_some hb
    split
    · rename_i hbusy
      exact .inl ⟨b, hmem, hblock, hbusy, rfl⟩
    · rename_i hbusy
      exact .inr (.inl ⟨b, hmem, hblock, by simpa using hbusy, rfl⟩)
  · rename_i hnone
    have hnone : ∀ c ∈ s.order, (s.buf c).block ≠ (dev, sector) := by
      simpa using hnone
    split
    · rename_i b hb
      exact .inr (.inr (.inl ⟨b, hnone, by simpa using List.find?_some hb, hb, rfl⟩))
    · rename_i hbusy
      exact .inr (.inr (.inr ⟨by simpa using hbusy, rfl⟩))

omit [DecidableEq Proc] in
theorem Phases.held (h : Phases s) (hpc : s.pc p = .user) (hholds : s.holds p b = true) :
    (s.buf b).busy = true ∧ (s.buf b).synced = true ∧ b ∉ s.queue := by
  obtain ⟨o, ho⟩ := h b
  obtain rfl := ho.of_holds hpc hholds
  exact ⟨ho.busy, ho.flags⟩

omit [DecidableEq Proc] in
theorem Phases.free (h : Phases s) (hbusy : (s.buf b).busy = false) :
    (s.buf b).dirty = false ∧ b ∉ s.queue := by
  obtain ⟨o, ho⟩ := h b
  obtain rfl := ho.of_free hbusy
  exact ho.flags

theorem Unique.step (h : Unique s) (hl : Listed s) (hs : Step havedisk1 s l t)
    (hok : t.panicked = none) (hp : Phases s) : Unique t := by
  cases hs with
  | @bget p dev sector hpc =>
    obtain ⟨b, -, -, -, he⟩ | ⟨b, -, -, -, he⟩ | ⟨b, hnone, -, -, he⟩ | ⟨-, he⟩ :=
      bget_cases s p dev sector
    · rw [he]
      refine h.mono fun c => ?_
      by_cases hc : c = b
      · subst hc
        simp [State.take, Buf.block]
      · simp [State.take, hc]
    · rw [he]
      exact h.mono fun _ => rfl
    · rw [he]
      refine h.recycle (b := b) (x := { s.buf b with
        dev, sector, busy := true, valid := false, dirty := false }) ?_ rfl
      exact fun c => hnone c (hl.2 c)
    · rw [he]
      exact h.mono fun _ => rfl
  | miss =>
    rw [iderw_of_ok hok]
    exact h.mono fun _ => rfl
  | @store p b x => exact h.mono fun c => (update_buf (t := s.store b x) rfl rfl rfl c).2
  | @bwrite p b =>
    rw [bwrite_of_ok hok]
    exact h.mono fun c => (update_buf (t := s.setDirty b) rfl rfl rfl c).2
  | @brelse p b hpc hholds =>
    rw [brelse_of_busy (hp.held hpc hholds).1]
    refine h.mono fun c => ?_
    by_cases hc : c = b
    · subst hc
      simp [Buf.block]
    · simp [hc]
  | @intr x b rest err =>
    exact h.mono fun c => (update_buf (t := ideintr s b rest x err) rfl rfl rfl c).2
  | _ => exact h.mono fun _ => rfl

theorem Sleepers.step (h : Sleepers s) (hs : Step havedisk1 s l t) (hok : t.panicked = none)
    (hp : Phases s) : Sleepers t := by
  cases hs with
  | @bget p dev sector hpc =>
    have hkeep {b : Id} {x : Buf Data} (hfree : (s.buf b).busy = false) :
        Sleepers (s.take p b x) := by
      refine h.mono (fun q c _ _ => pc_update (s := s) (by simp)) fun c hc => ?_
      have hne : c ≠ b := by
        rintro rfl
        simp [hfree] at hc
      simp [State.take, hne, hc]
    obtain ⟨b, -, -, hfree, he⟩ | ⟨b, -, hblock, hbusy, he⟩ | ⟨b, -, hfree, -, he⟩ | ⟨-, he⟩ :=
      bget_cases s p dev sector
    · rw [he]
      exact hkeep hfree
    · rw [he]
      intro q c dev' sector' hq
      by_cases hqp : q = p
      · subst hqp
        cases (Function.update_self ..).symm.trans hq
        exact ⟨hbusy, hblock⟩
      · exact h q c dev' sector' ((Function.update_of_ne hqp ..).symm.trans hq)
    · rw [he]
      exact hkeep hfree
    · rw [he]
      exact h.mono (fun _ _ _ _ hq => hq) fun b hb => ⟨hb, rfl⟩
  | miss =>
    rw [iderw_of_ok hok]
    exact h.mono (fun _ _ _ _ => pc_update (by simp)) fun b hb => ⟨hb, rfl⟩
  | @store p b x =>
    refine h.mono (fun _ _ _ _ hq => hq) fun c hc => ?_
    have hkeep := update_buf (s := s) (t := s.store b x) rfl rfl rfl c
    exact ⟨hkeep.1.trans hc, hkeep.2⟩
  | @bwrite p b =>
    rw [bwrite_of_ok hok]
    refine h.mono (fun _ _ _ _ => pc_update (s := s) (by simp)) fun c hc => ?_
    have hkeep := update_buf (s := s) (t := s.setDirty b) rfl rfl rfl c
    exact ⟨hkeep.1.trans hc, hkeep.2⟩
  | @brelse p b hpc hholds =>
    rw [brelse_of_busy (hp.held hpc hholds).1]
    intro q c dev sector hq
    obtain ⟨hq, hne⟩ := Pc.wakeup_asleep hq
    simpa [hne] using h q c dev sector hq
  | @intr x b rest err =>
    refine h.mono (fun _ _ _ _ hq => (Pc.wakeup_asleep hq).1) fun c hc => ?_
    have hkeep := update_buf (s := s) (t := ideintr s b rest x err) rfl rfl rfl c
    exact ⟨hkeep.1.trans hc, hkeep.2⟩
  | complete | spurious => exact h.mono (fun _ _ _ _ hq => hq) fun b hb => ⟨hb, rfl⟩
  | kill p =>
    exact h.mono (fun _ _ _ _ => pc_update (Pc.wake_ne_asleep _)) fun b hb => ⟨hb, rfl⟩
  | _ => exact h.mono (fun _ _ _ _ => pc_update (by simp)) fun b hb => ⟨hb, rfl⟩

omit [DecidableEq Proc] in
/-- The requests of the queue are not changed. -/
theorem Serves.mono (h : Serves s) (hide : t.ide = s.ide) (hqueue : t.queue = s.queue)
    (hbuf : ∀ b ∈ s.queue, t.buf b = s.buf b) : Serves t := by
  unfold Serves at *
  rw [hide, hqueue]
  split at h
  · exact h
  · obtain ⟨b, rest, hq, hr⟩ := h
    exact ⟨b, rest, hq, by rw [hbuf b (by simp [hq]), hr]⟩
  · exact h

theorem Serves.step (h : Serves s) (hs : Step havedisk1 s l t) (hok : t.panicked = none)
    (hp : Phases s) (hnodup : s.queue.Nodup) : Serves t := by
  -- a step changes no buffer of the queue
  have hkeep {b : Id} {x : Buf Data} (hb : b ∉ s.queue) :
      ∀ c ∈ s.queue, update s.buf b x c = s.buf c :=
    fun c hc => Function.update_of_ne (fun he : c = b => hb (he ▸ hc)) ..
  cases hs with
  | @bget p dev sector hpc =>
    obtain ⟨b, -, -, hfree, he⟩ | ⟨b, -, -, -, he⟩ | ⟨b, -, hfree, -, he⟩ | ⟨-, he⟩ :=
      bget_cases s p dev sector
    · rw [he]
      exact h.mono rfl rfl (hkeep (hp.free hfree).2)
    · rw [he]
      exact h.mono rfl rfl fun _ _ => rfl
    · rw [he]
      exact h.mono rfl rfl (hkeep (hp.free hfree).2)
    · rw [he]
      exact h.mono rfl rfl fun _ _ => rfl
  | miss =>
    rw [iderw_of_ok hok]
    exact h.mono rfl rfl fun _ _ => rfl
  | store x hpc hholds => exact h.mono rfl rfl (hkeep (hp.held hpc hholds).2.2)
  | bwrite hpc hholds =>
    rw [bwrite_of_ok hok]
    exact h.mono rfl rfl (hkeep (hp.held hpc hholds).2.2)
  | brelse hpc hholds =>
    rw [brelse_of_busy (hp.held hpc hholds).1]
    exact h.mono rfl rfl (hkeep (hp.held hpc hholds).2.2)
  | @submit p b w hpc =>
    unfold Serves at *
    simp only [submit]
    by_cases hqueue : s.queue = []
    · simp [hqueue]
    · rw [if_neg hqueue]
      split at h
      · exact absurd h hqueue
      · obtain ⟨c, rest, hq, hr⟩ := h
        exact ⟨c, rest ++ [b], by simp [hq], hr⟩
      · simp
  | complete hide =>
    unfold Serves at *
    rw [hide] at h
    obtain ⟨b, rest, hq, -⟩ := h
    simp [hq]
  | @intr x b rest err hide hqueue =>
    unfold Serves
    cases rest with
    | nil => simp [ideintr]
    | cons c rest =>
      rw [hqueue] at hnodup
      have hne : c ≠ b := fun he => (List.nodup_cons.mp hnodup).1 (by simp [he])
      simp [ideintr, hne]
  | spurious => exact h
  | _ => exact h.mono rfl rfl fun _ _ => rfl

omit [DecidableEq Proc] in
theorem Initial.sound (h : Initial disk s) : Sound s := by
  refine ⟨fun b => ⟨none, ?_, ?_, ?_, ?_⟩, ?_, ?_, ?_, ?_, ?_⟩
  · simp [h.busy b]
  · simp [h.holds]
  · simp [h.pc, Pc.stage]
  · exact ⟨h.dirty b, by simp [h.queue]⟩
  · simp [h.queue]
  · rw [Listed, h.order]
    exact ⟨by decide, fun b => by simp⟩
  · exact fun b c _ hdev => absurd (h.dev b) hdev
  · intro p b dev sector hp
    rw [h.pc] at hp
    cases hp
  · simp [Serves, h.ide, h.queue]

theorem Sound.step (h : Sound s) (hs : Step havedisk1 s l t) (hok : t.panicked = none) :
    Sound t where
  phases := h.phases.step h.nodup hs hok
  nodup := by
    cases hs with
    | @bget p dev sector =>
      obtain ⟨b, -, -, -, he⟩ | ⟨b, -, -, -, he⟩ | ⟨b, -, -, -, he⟩ | ⟨-, he⟩ :=
        bget_cases s p dev sector <;> (rw [he]; exact h.nodup)
    | miss =>
      rw [iderw_of_ok hok]
      exact h.nodup
    | bwrite =>
      rw [bwrite_of_ok hok]
      exact h.nodup
    | brelse hpc hholds =>
      rw [brelse_of_busy (h.phases.held hpc hholds).1]
      exact h.nodup
    | @submit p b w hpc =>
      obtain ⟨o, ho⟩ := h.phases b
      obtain rfl := ho.of_stage hpc
      have hne (c : Id) (hc : c ∈ s.queue) : c ≠ b := fun he => ho.flags.2 (he ▸ hc)
      simpa [submit, List.nodup_append, h.nodup] using hne
    | intr err hide hqueue =>
      have hnodup := h.nodup
      rw [hqueue] at hnodup
      exact (List.nodup_cons.mp hnodup).2
    | _ => exact h.nodup
  listed := by
    cases hs with
    | @bget p dev sector =>
      obtain ⟨b, -, -, -, he⟩ | ⟨b, -, -, -, he⟩ | ⟨b, -, -, -, he⟩ | ⟨-, he⟩ :=
        bget_cases s p dev sector <;> (rw [he]; exact h.listed)
    | miss =>
      rw [iderw_of_ok hok]
      exact h.listed
    | bwrite =>
      rw [bwrite_of_ok hok]
      exact h.listed
    | @brelse p b hpc hholds =>
      rw [brelse_of_busy (h.phases.held hpc hholds).1]
      exact h.listed.toFront b rfl
    | _ => exact h.listed
  unique := h.unique.step h.listed hs hok h.phases
  sleepers := h.sleepers.step hs hok h.phases
  serves := h.serves.step hs hok h.phases h.nodup

theorem run_sound (h : (system havedisk1 disk).Run ls s) (hok : s.panicked = none) : Sound s := by
  refine h.invariant (P := fun _ s => s.panicked = none → Sound s)
    (fun s hs _ => hs.sound) (fun ls s l t hinv hs hok => ?_) hok
  exact (hinv hs.1).step hs.2 hok

-- ---------------------------------------------------------------------------
-- Results
-- ---------------------------------------------------------------------------

theorem run_step (h : (system havedisk1 disk).Run ls s) (l : Label Proc Data)
    (hs : Step havedisk1 s l t) (hok : s.panicked = none) :
    (system havedisk1 disk).Run (ls ++ [l]) t := h.step ⟨hok, hs⟩

/-- A process that sleeps in `bget` waits for a buffer that some process has, with the very block;
one that sleeps in `iderw` for a request in the queue of the disk, which is not idle. -/
theorem sleep_has_reason (h : (system havedisk1 disk).Run ls s) (hok : s.panicked = none) :
    (∀ p b dev sector, s.pc p = .asleep b dev sector →
      ∃ q, s.holds q b = true ∧ (s.buf b).block = (dev, sector)) ∧
    ∀ p b w, s.pc p = .on b (.asleep w) → b ∈ s.queue ∧ s.ide ≠ .idle := by
  have hsound := run_sound h hok
  refine ⟨fun p b dev sector hp => ?_, fun p b w hp => ?_⟩
  · obtain ⟨hbusy, hblock⟩ := hsound.sleepers p b dev sector hp
    obtain ⟨o, ho⟩ := hsound.phases b
    rw [ho.busy] at hbusy
    obtain ⟨⟨q, st⟩, rfl⟩ := Option.isSome_iff_exists.mp hbusy
    exact ⟨q, (ho.holds q).mpr ⟨st, rfl⟩, hblock⟩
  · obtain ⟨o, ho⟩ := hsound.phases b
    obtain rfl := ho.of_stage hp
    have hmem : b ∈ s.queue := ho.flags.2
    refine ⟨hmem, fun hide => ?_⟩
    have hserves := hsound.serves
    rw [Serves, hide] at hserves
    simp [hserves] at hmem

/-- The process 0 reads the block that the process 1 asks for. -/
theorem second_waits : ∃ s, (system false fun _ => 7).Run [.bread (0 : Fin 2) 0 5, .bget 0, .miss 0,
    .submit 0, .sleep 0, .bread 1 0 5, .bget 1] s ∧ s.pc 1 = .asleep 0 0 5 ∧
    ∃ q, s.holds q 0 = true ∧ (s.buf 0).block = (0, 5) := by
  have h : (system false fun _ => 7).Run [] (clear (Fin 2)) := .init clear_initial
  have h := run_step h (.bread 0 0 5) (.bread 0 5 rfl) rfl
  have h := run_step h (.bget 0) (.bget rfl) rfl
  have h := run_step h (.miss 0) (.miss rfl rfl) rfl
  have h := run_step h (.submit 0) (.submit rfl) rfl
  have h := run_step h (.sleep 0) (.sleep rfl rfl) rfl
  have h := run_step h (.bread 1 0 5) (.bread 0 5 rfl) rfl
  have h := run_step h (.bget 1) (.bget rfl) rfl
  exact ⟨_, h, rfl, (sleep_has_reason h rfl).1 1 0 0 5 rfl⟩

theorem iderw_panic (h : (iderw havedisk1 s p b w).panicked = some msg) (hok : s.panicked = none)
    (hbusy : (s.buf b).busy = true) (hsynced : (s.buf b).synced = false) :
    msg = "iderw: ide disk 1 not present" ∧ havedisk1 = false := by
  rw [iderw, if_neg (by simp [hbusy]), if_neg (by simp [hsynced])] at h
  split at h
  · rename_i hdev
    exact ⟨(Option.some.inj h).symm, hdev.2⟩
  · simp [State.goto, hok] at h

/-- The panics that can happen: every buffer is with some process, or a block is asked for on a disk
that is not there. -/
theorem panics (h : (system havedisk1 disk).Run ls s) (hpanic : s.panicked = some msg) :
    (msg = "bget: no buffers" ∧ ∀ b, ∃ p, s.holds p b = true) ∨
      (msg = "iderw: ide disk 1 not present" ∧ havedisk1 = false) := by
  cases h with
  | init h =>
    rw [h.panicked] at hpanic
    cases hpanic
  | @step ls r l s hrun hs =>
    obtain ⟨hok, hs⟩ := hs
    have hsound := run_sound hrun hok
    cases hs with
    | @bget p dev sector =>
      obtain ⟨b, -, -, -, he⟩ | ⟨b, -, -, -, he⟩ | ⟨b, -, -, -, he⟩ | ⟨hbusy, he⟩ :=
        bget_cases r p dev sector
      · simp [he, State.take, hok] at hpanic
      · simp [he, State.goto, hok] at hpanic
      · simp [he, State.take, hok] at hpanic
      · rw [he] at hpanic ⊢
        refine .inl ⟨(Option.some.inj hpanic).symm, fun b => ?_⟩
        obtain ⟨o, ho⟩ := hsound.phases b
        have hb := hbusy b (hsound.listed.2 b)
        rw [ho.busy] at hb
        obtain ⟨⟨q, st⟩, rfl⟩ := Option.isSome_iff_exists.mp hb
        exact ⟨q, (ho.holds q).mpr ⟨st, rfl⟩⟩
    | @miss p b hpc hvalid =>
      obtain ⟨o, ho⟩ := hsound.phases b
      obtain rfl := ho.of_stage hpc
      exact .inr (iderw_panic hpanic hok ho.busy (by simp [Buf.synced, hvalid]))
    | @bwrite p b hpc hholds =>
      obtain ⟨hbusy, -⟩ := hsound.phases.held hpc hholds
      rw [bwrite, if_neg (by simp [hbusy])] at hpanic
      exact .inr (iderw_panic hpanic hok (by simpa [State.setDirty] using hbusy)
        (by simp [State.setDirty, Buf.synced]))
    | @brelse p b hpc hholds =>
      rw [brelse_of_busy (hsound.phases.held hpc hholds).1] at hpanic
      simp [hok] at hpanic
    | _ => simp [State.goto, State.store, submit, ideintr, hok] at hpanic

/-- A block of the disk 1, which is not there. -/
theorem disk1_panics : ∃ s, (system false fun _ => 7).Run
    [.bread (0 : Fin 1) 1 5, .bget 0, .miss 0] s ∧ ∃ msg, s.panicked = some msg ∧
      ((msg = "bget: no buffers" ∧ ∀ b, ∃ p, s.holds p b = true) ∨
        (msg = "iderw: ide disk 1 not present" ∧ false = false)) := by
  have h : (system false fun _ => 7).Run [] (clear (Fin 1)) := .init clear_initial
  have h := run_step h (.bread 0 1 5) (.bread 1 5 rfl) rfl
  have h := run_step h (.bget 0) (.bget rfl) rfl
  have h := run_step h (.miss 0) (.miss rfl rfl) rfl
  exact ⟨_, h, _, rfl, panics h rfl⟩

end PerrOS.Bcache
