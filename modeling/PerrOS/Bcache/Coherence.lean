import Mathlib.Algebra.Group.Nat.Defs
import PerrOS.Lib.Cells
import PerrOS.Bcache.Exclusion

/-!
# What the cache returns

Through the cache the disk is a plain memory of blocks: `bread` returns what the
last `bwrite` of the block wrote, and a `bwrite` that has returned is on the
disk. This takes callers that release a buffer only as they have written it, and
ask for the sectors that a request can name, and a disk that reports no error.
-/

namespace PerrOS.Bcache

open Function (update)

universe u v

variable {Proc : Type u} {Data : Type v} {s t : State Proc Data} {p q : Proc} {b c : Id}
  {l : Label Proc Data} {ls : List (Label Proc Data)} {w : Bool} {pc : Pc} {havedisk1 : Bool}
  {disk : Address → Data} {x : Buf Data} {dev sector : Word} {k k' : Word × Word}
  {m : Word × Word → Data}

-- ---------------------------------------------------------------------------
-- The sectors a request can name
-- ---------------------------------------------------------------------------

/-- One of two drives, and 28 bits for the sector. -/
def InRange (k : Word × Word) : Prop := k.1.toNat < 2 ∧ k.2.toNat < 2 ^ 28

/-- The ports name the sector of the block. -/
theorem idestart_address (b : Buf Data) : (idestart b).address = address b.block := by
  have hbyte (x : BitVec 8) : x &&& 255#8 = x := BitVec.and_allOnes
  have hlow (x : BitVec 4) : x &&& 15#4 = x := BitVec.and_allOnes
  refine Prod.ext ?_ ?_
  · simp [idestart, Request.address, address, Buf.block]
  · have hbytes : (idestart b).address.2 = (b.sector >>> 24).setWidth 4 ++
        (b.sector >>> 16).setWidth 8 ++ (b.sector >>> 8).setWidth 8 ++ b.sector.setWidth 8 := by
      simp [idestart, Request.address, hbyte, hlow]
    refine BitVec.eq_of_getLsbD_eq fun i hi => ?_
    rw [hbytes]
    simp only [address, Buf.block, BitVec.truncate, BitVec.getLsbD_append, BitVec.getLsbD_setWidth,
      BitVec.getLsbD_ushiftRight]
    rcases (by omega : i < 8 ∨ (8 ≤ i ∧ i < 16) ∨ (16 ≤ i ∧ i < 24) ∨ 24 ≤ i) with h | h | h | h
    · simp [h, hi]
    · simp [hi, show ¬ i < 8 by omega, show i - 8 < 8 by omega, show 8 + (i - 8) = i by omega]
    · simp [hi, show ¬ i < 8 by omega, show ¬ i - 8 < 8 by omega, show i - 8 - 8 < 8 by omega,
        show 16 + (i - 8 - 8) = i by omega]
    · simp [hi, show ¬ i < 8 by omega, show ¬ i - 8 < 8 by omega, show ¬ i - 8 - 8 < 8 by omega,
        show i - 8 - 8 - 8 < 4 by omega, show 24 + (i - 8 - 8 - 8) = i by omega]

theorem address_inj (h : InRange k) (h' : InRange k') (he : address k = address k') : k = k' := by
  obtain ⟨hdev, hsector⟩ := Prod.mk.inj he
  refine Prod.ext (BitVec.eq_of_toNat_eq ?_) (BitVec.eq_of_toNat_eq ?_)
  · have hk := h.1
    have hk' := h'.1
    simp [BitVec.getLsbD] at hdev
    omega
  · have hnat := congrArg BitVec.toNat hsector
    simp only [BitVec.truncate_eq_setWidth, BitVec.toNat_setWidth] at hnat
    rwa [Nat.mod_eq_of_lt h.2, Nat.mod_eq_of_lt h'.2] at hnat

theorem InRange.dev_ne (h : InRange k) : k.1 ≠ -1 := by
  intro he
  have hk := h.1
  rw [he] at hk
  exact absurd hk (by decide)

-- ---------------------------------------------------------------------------
-- What the callers keep
-- ---------------------------------------------------------------------------

def Allowed (s : State Proc Data) : Label Proc Data → Prop
  | .bread _ dev sector => InRange (dev, sector)
  | .brelse _ b => s.unsaved b = false
  | .intr err => err = false
  | _ => True

/-- The block that a process is waiting for in `bget`. -/
def Pc.asks : Pc → Option (Word × Word)
  | .bget dev sector | .asleep _ dev sector => some (dev, sector)
  | _ => none

theorem Pc.asks_wake (pc : Pc) : pc.wake.asks = pc.asks := by
  cases pc with
  | on b stage => cases stage <;> rfl
  | _ => rfl

theorem Pc.asks_wakeup (pc : Pc) : (pc.wakeup b).asks = pc.asks := by
  cases pc with
  | asleep c =>
    rw [Pc.wakeup]
    split <;> rfl
  | on c stage =>
    cases stage with
    | asleep w =>
      rw [Pc.wakeup]
      split <;> rfl
    | _ => rfl
  | _ => rfl

theorem Pc.stage_wake_none (h : pc.stage c = none) : pc.wake.stage c = none := by
  cases pc with
  | on d stage =>
    cases stage with
    | asleep w =>
      rw [Pc.stage] at h
      split at h
      · cases h
      · rename_i hne
        exact if_neg hne
    | _ => exact h
  | _ => rfl

theorem Pc.stage_wakeup_none (h : pc.stage c = none) : (pc.wakeup b).stage c = none := by
  by_cases he : c = b
  · subst he
    rw [Pc.stage_wakeup, h]
  · rw [Pc.stage_wakeup_of_ne he, h]

/-- The blocks in use, and those that are asked for. -/
structure Named (s : State Proc Data) : Prop where
  buf : ∀ b, (s.buf b).busy = true ∨ (s.buf b).valid = true → InRange (s.buf b).block
  asks : ∀ p k, (s.pc p).asks = some k → InRange k

/-- Only a process that works on no buffer has changed one without `bwrite`. -/
def Saved (s : State Proc Data) : Prop :=
  ∀ b, s.unsaved b = true → (s.buf b).busy = true ∧ ∀ p, (s.pc p).stage b = none

/-- The cache and the disk hold the memory `m`. -/
structure Coherent (s : State Proc Data) (m : Word × Word → Data) : Prop where
  /-- The buffer is ahead of the disk. -/
  dirty : ∀ b, (s.buf b).dirty = true → (s.buf b).data = m (s.buf b).block
  clean : ∀ b, (s.buf b).synced = true → s.unsaved b = false → (s.buf b).data = m (s.buf b).block
  disk : ∀ k, InRange k → (∀ b, (s.buf b).block = k → (s.buf b).dirty = false) →
    s.disk (address k) = m k
  /-- The controller has carried out the request of the head of the queue. -/
  served : ∀ x b rest, s.ide = .finished x → s.queue = b :: rest →
    if (s.buf b).dirty then s.disk (address (s.buf b).block) = (s.buf b).data
    else x = s.disk (address (s.buf b).block)

theorem Initial.named (h : Initial disk s) : Named s := by
  refine ⟨fun b hb => ?_, fun p k hp => ?_⟩
  · simp [h.busy b, h.valid b] at hb
  · rw [h.pc] at hp
    cases hp

theorem Initial.saved (h : Initial disk s) : Saved s := by
  intro b hb
  rw [h.unsaved] at hb
  cases hb

theorem Initial.coherent (h : Initial disk s) : Coherent s fun k => disk (address k) := by
  refine ⟨fun b hb => ?_, fun b hb => ?_, fun k _ _ => by rw [h.disk_eq], fun x b rest hide => ?_⟩
  · simp [h.dirty b] at hb
  · simp [Buf.synced, h.valid b] at hb
  · rw [h.ide] at hide
    cases hide

/-- A buffer is put to use that is in use already, or for a block that is asked for. -/
theorem update_named
    (h : ∀ b, (s.buf b).busy = true ∨ (s.buf b).valid = true → InRange (s.buf b).block)
    (hbuf : t.buf = update s.buf b x) (hx : x.busy = true ∨ x.valid = true → InRange x.block)
    (c : Id) :
    (t.buf c).busy = true ∨ (t.buf c).valid = true → InRange (t.buf c).block := by
  rw [hbuf]
  by_cases he : c = b
  · subst he
    rwa [Function.update_self]
  · rw [Function.update_of_ne he]
    exact h c

variable [DecidableEq Proc]

theorem asks_update (h : ∀ p k, (s.pc p).asks = some k → InRange k)
    (hpc : ∀ k, pc.asks = some k → InRange k) (q : Proc) (k : Word × Word)
    (hq : (update s.pc p pc q).asks = some k) : InRange k := by
  by_cases he : q = p
  · subst he
    rw [Function.update_self] at hq
    exact hpc k hq
  · rw [Function.update_of_ne he] at hq
    exact h q k hq

theorem Named.step (h : Named s) (hsound : Sound s) (hs : Step havedisk1 s l t)
    (hok : t.panicked = none) (hl : Allowed s l) : Named t := by
  obtain ⟨hbuf, hasks⟩ := h
  cases hs with
  | bread dev sector =>
    refine ⟨hbuf, asks_update hasks ?_⟩
    rintro _ ⟨⟩
    exact hl
  | @bget p dev sector hpc =>
    have hk : InRange (dev, sector) := hasks p _ (by rw [hpc]; rfl)
    obtain ⟨b, -, hblock, -, he⟩ | ⟨b, -, -, -, he⟩ | ⟨b, -, -, -, he⟩ | ⟨-, he⟩ :=
      bget_cases s p dev sector
    · rw [he]
      exact ⟨update_named (t := s.take p b _) hbuf rfl fun _ => hblock ▸ hk,
        asks_update hasks nofun⟩
    · rw [he]
      refine ⟨hbuf, asks_update hasks ?_⟩
      rintro _ ⟨⟩
      exact hk
    · rw [he]
      exact ⟨update_named (t := s.take p b _) hbuf rfl fun _ => hk, asks_update hasks nofun⟩
    · rw [he]
      exact ⟨hbuf, hasks⟩
  | miss =>
    rw [iderw_of_ok hok]
    exact ⟨hbuf, asks_update hasks nofun⟩
  | @store p b x => exact ⟨update_named (t := s.store b x) hbuf rfl (hbuf b), hasks⟩
  | @bwrite p b =>
    rw [bwrite_of_ok hok]
    exact ⟨update_named (t := s.setDirty b) hbuf rfl (hbuf b), asks_update (s := s) hasks nofun⟩
  | @brelse p b hpc hholds =>
    obtain ⟨hbusy, -⟩ := hsound.phases.held hpc hholds
    rw [brelse_of_busy hbusy]
    exact ⟨update_named hbuf rfl fun _ => hbuf b (.inl hbusy),
      fun q k hq => hasks q k ((Pc.asks_wakeup _).symm.trans hq)⟩
  | @intr x b rest err hide hqueue =>
    have hbusy : (s.buf b).busy = true := by
      rw [← Bool.not_eq_false]
      intro hfree
      exact (hsound.phases.free hfree).2 (by simp [hqueue])
    exact ⟨update_named (t := ideintr s b rest x err) hbuf rfl fun _ => hbuf b (.inl hbusy),
      fun q k hq => hasks q k ((Pc.asks_wakeup _).symm.trans hq)⟩
  | complete | spurious => exact ⟨hbuf, hasks⟩
  | kill p => exact ⟨hbuf, asks_update hasks fun k hk => hasks p k ((Pc.asks_wake _).symm.trans hk)⟩
  | _ => exact ⟨hbuf, asks_update hasks nofun⟩

/-- Where a process is that changes no buffer: it works on none, or on one that it has worked on
before. -/
theorem stage_none_update (hp : (s.pc p).stage c = none → pc.stage c = none)
    (h : ∀ q, (s.pc q).stage c = none) (q : Proc) : (update s.pc p pc q).stage c = none := by
  by_cases he : q = p
  · subst he
    rw [Function.update_self]
    exact hp (h q)
  · rw [Function.update_of_ne he]
    exact h q

theorem Saved.step (h : Saved s) (hsound : Sound s) (hs : Step havedisk1 s l t)
    (hok : t.panicked = none) (hl : Allowed s l) : Saved t := by
  have hgoto {p : Proc} {b c : Id} {stg stg' : Stage} (hpc : s.pc p = .on b stg) :
      (s.pc p).stage c = none → (Pc.on b stg').stage c = none := by
    rw [hpc, Pc.stage, Pc.stage]
    split <;> simp
  cases hs with
  | @bget p dev sector hpc =>
    have htake {b : Id} {x : Buf Data} (hfree : (s.buf b).busy = false) : Saved (s.take p b x) := by
      intro c hc
      obtain ⟨hbusy, hnone⟩ := h c hc
      have hne : c ≠ b := by
        rintro rfl
        simp [hfree] at hbusy
      refine ⟨by simpa [State.take, hne] using hbusy, stage_none_update (fun _ => ?_) hnone⟩
      exact Pc.stage_on_of_ne hne _
    obtain ⟨b, -, -, hfree, he⟩ | ⟨b, -, -, -, he⟩ | ⟨b, -, hfree, -, he⟩ | ⟨-, he⟩ :=
      bget_cases s p dev sector
    · rw [he]
      exact htake hfree
    · rw [he]
      exact fun c hc => ⟨(h c hc).1, stage_none_update (fun _ => rfl) (h c hc).2⟩
    · rw [he]
      exact htake hfree
    · rw [he]
      exact h
  | miss hpc =>
    rw [iderw_of_ok hok]
    exact fun c hc => ⟨(h c hc).1, stage_none_update (hgoto hpc) (h c hc).2⟩
  | @store p b x hpc hholds =>
    intro c hc
    have hkeep := update_buf (s := s) (t := s.store b x) rfl rfl rfl c
    by_cases he : c = b
    · subst he
      obtain ⟨o, ho⟩ := hsound.phases c
      obtain rfl := ho.of_holds hpc hholds
      refine ⟨hkeep.1.trans ho.busy, fun q => ?_⟩
      rw [Option.eq_none_iff_forall_ne_some]
      intro stg hstg
      have := (ho.stage q stg).mp hstg
      simp at this
    · have hc : s.unsaved c = true := by simpa [State.store, he] using hc
      exact ⟨hkeep.1.trans (h c hc).1, (h c hc).2⟩
  | @bwrite p b hpc hholds =>
    rw [bwrite_of_ok hok]
    intro c hc
    by_cases he : c = b
    · subst he
      simp [State.goto, State.setDirty] at hc
    · have hc : s.unsaved c = true := by simpa [State.goto, State.setDirty, he] using hc
      refine ⟨by simpa [State.goto, State.setDirty, he] using (h c hc).1, ?_⟩
      exact stage_none_update (s := s) (fun _ => Pc.stage_on_of_ne he _) (h c hc).2
  | submit hpc | sleep hpc =>
    exact fun c hc => ⟨(h c hc).1, stage_none_update (hgoto hpc) (h c hc).2⟩
  | @brelse p b hpc hholds =>
    rw [brelse_of_busy (hsound.phases.held hpc hholds).1]
    intro c hc
    have hne : c ≠ b := by
      rintro rfl
      exact Bool.false_ne_true (hl.symm.trans hc)
    refine ⟨by simpa [hne] using (h c hc).1, fun q => Pc.stage_wakeup_none ((h c hc).2 q)⟩
  | @intr x b rest err =>
    intro c hc
    have hkeep := update_buf (s := s) (t := ideintr s b rest x err) rfl rfl rfl c
    exact ⟨hkeep.1.trans (h c hc).1, fun q => Pc.stage_wakeup_none ((h c hc).2 q)⟩
  | complete | spurious => exact h
  | kill p =>
    exact fun c hc => ⟨(h c hc).1, stage_none_update Pc.stage_wake_none (h c hc).2⟩
  | _ => exact fun c hc => ⟨(h c hc).1, stage_none_update (fun _ => rfl) (h c hc).2⟩

-- ---------------------------------------------------------------------------
-- The cache as a memory
-- ---------------------------------------------------------------------------

/-- What is `synced` does not wait for the disk. -/
theorem Buf.not_dirty (h : x.synced = true) : x.dirty = false := (Buf.synced_iff.mp h).2

omit [DecidableEq Proc] in
/-- One buffer that is not in the queue changes and is not dirty afterwards. -/
theorem Coherent.change (h : Coherent s m) (hbuf : t.buf = update s.buf b x)
    (hqueue : b ∉ s.queue) (hold : (s.buf b).dirty = false) (hdirty : x.dirty = false)
    (hclean : x.synced = true → t.unsaved b = false → x.data = m x.block)
    (hunsaved : ∀ c, c ≠ b → t.unsaved c = s.unsaved c) (hdisk : t.disk = s.disk)
    (hide : t.ide = s.ide) (hqueue' : t.queue = s.queue) : Coherent t m where
  dirty c hc := by
    rw [hbuf] at hc ⊢
    by_cases he : c = b
    · rw [he, Function.update_self, hdirty] at hc
      cases hc
    · rw [Function.update_of_ne he] at hc ⊢
      exact h.dirty c hc
  clean c hc hs := by
    rw [hbuf] at hc ⊢
    by_cases he : c = b
    · subst he
      rw [Function.update_self] at hc ⊢
      exact hclean hc hs
    · rw [Function.update_of_ne he] at hc ⊢
      exact h.clean c hc (hunsaved c he ▸ hs)
  disk k hk hnone := by
    rw [hdisk]
    refine h.disk k hk fun c hc => ?_
    by_cases he : c = b
    · rw [he, hold]
    · have := hnone c
      rw [hbuf, Function.update_of_ne he] at this
      exact this hc
  served y c rest hi hq := by
    rw [hide] at hi
    rw [hqueue'] at hq
    have hne : c ≠ b := by
      rintro rfl
      exact hqueue (by simp [hq])
    rw [hbuf, Function.update_of_ne hne, hdisk]
    exact h.served y c rest hi hq

omit [DecidableEq Proc] in
/-- The holder of a buffer is about to write it. -/
theorem Coherent.write (h : Coherent s m) (hsound : Sound s)
    (hrange : InRange (s.buf b).block) (hqueue : b ∉ s.queue) :
    Coherent (s.setDirty b) (update m (s.buf b).block (s.buf b).data) := by
  have hother {c : Id} (he : c ≠ b) : (s.buf c).block ≠ (s.buf b).block := fun hblock =>
    he (hsound.unique b c hblock.symm hrange.dev_ne).symm
  have hbuf {c : Id} (he : c ≠ b) : (s.setDirty b).buf c = s.buf c := Function.update_of_ne he ..
  have hself : (s.setDirty b).buf b = { s.buf b with dirty := true } := Function.update_self ..
  refine ⟨fun c hc => ?_, fun c hc hs => ?_, fun k hk hnone => ?_, fun y c rest hi hq => ?_⟩
  · by_cases he : c = b
    · subst he
      rw [hself, Buf.block]
      exact (Function.update_self (s.buf c).block (s.buf c).data m).symm
    · rw [hbuf he] at hc ⊢
      rw [Function.update_of_ne (hother he)]
      exact h.dirty c hc
  · by_cases he : c = b
    · rw [he, hself] at hc
      simp [Buf.synced] at hc
    · rw [hbuf he] at hc ⊢
      rw [Function.update_of_ne (hother he)]
      refine h.clean c hc ?_
      simpa [State.setDirty, he] using hs
  · have hne : k ≠ (s.buf b).block := by
      rintro rfl
      have := hnone b (by rw [hself]; rfl)
      rw [hself] at this
      cases this
    rw [Function.update_of_ne hne]
    refine h.disk k hk fun c hc => ?_
    have he : c ≠ b := by
      rintro rfl
      exact hne hc.symm
    rw [← hbuf he] at hc ⊢
    exact hnone c hc
  · have hne : c ≠ b := by
      rintro rfl
      have hq : s.queue = c :: rest := hq
      exact hqueue (by simp [hq])
    rw [hbuf hne]
    exact h.served y c rest hi hq

omit [DecidableEq Proc] in
/-- The controller carries out the request of the head of the queue. -/
theorem Coherent.complete {r : Request Data} (h : Coherent s m) (hsound : Sound s)
    (hnamed : Named s) (hide : s.ide = .working r) : Coherent { s with
      disk := (r.complete s.disk).1, ide := .finished (r.complete s.disk).2 } m := by
  have hserves := hsound.serves
  rw [Serves, hide] at hserves
  obtain ⟨b, rest, hqueue, rfl⟩ := hserves
  have hbusy : (s.buf b).busy = true := by
    rw [← Bool.not_eq_false]
    exact fun hfree => (hsound.phases.free hfree).2 (by simp [hqueue])
  have hrange := hnamed.buf b (.inl hbusy)
  refine ⟨h.dirty, h.clean, fun k hk hnone => ?_, fun y c rest' hi hq => ?_⟩
  · rw [← h.disk k hk hnone]
    by_cases hdirty : (s.buf b).dirty = true
    · have hne : address k ≠ (idestart (s.buf b)).address := by
        rw [idestart_address]
        intro he
        rw [hnone b (address_inj hrange hk he.symm)] at hdirty
        cases hdirty
      have hwrite : (idestart (s.buf b)).write = some (s.buf b).data := if_pos hdirty
      simp [Request.complete, hwrite, Function.update_of_ne hne]
    · have hwrite : (idestart (s.buf b)).write = none := if_neg hdirty
      simp [Request.complete, hwrite]
  · cases hi
    have hq : s.queue = c :: rest' := hq
    rw [hqueue] at hq
    cases hq
    split
    · rename_i hdirty
      have hwrite : (idestart (s.buf b)).write = some (s.buf b).data := if_pos hdirty
      simp [Request.complete, hwrite, ← idestart_address]
    · rename_i hdirty
      have hwrite : (idestart (s.buf b)).write = none := if_neg hdirty
      simp [Request.complete, hwrite, ← idestart_address]

omit [DecidableEq Proc] in
/-- `ideintr` takes the data of the controller, where the disk was read. -/
theorem Coherent.intr {y : Data} {rest : List Id} (h : Coherent s m) (hsound : Sound s)
    (hnamed : Named s) (hide : s.ide = .finished y) (hqueue : s.queue = b :: rest) :
    Coherent (ideintr s b rest y false) m := by
  have hserved := h.served y b rest hide hqueue
  have hbusy : (s.buf b).busy = true := by
    rw [← Bool.not_eq_false]
    exact fun hfree => (hsound.phases.free hfree).2 (by simp [hqueue])
  have hrange := hnamed.buf b (.inl hbusy)
  -- what the buffer holds now
  have hdata : (if (s.buf b).dirty = false ∧ false = false then y else (s.buf b).data) =
      m (s.buf b).block ∧ s.disk (address (s.buf b).block) = m (s.buf b).block := by
    cases hdirty : (s.buf b).dirty with
    | true =>
      rw [hdirty, if_pos rfl] at hserved
      rw [hserved]
      simpa using h.dirty b hdirty
    | false =>
      rw [hdirty, if_neg nofun] at hserved
      have hdisk := h.disk _ hrange fun c hc => by
        rw [hsound.unique b c hc.symm hrange.dev_ne] at hdirty
        exact hdirty
      exact ⟨by simpa [hserved] using hdisk, hdisk⟩
  have hbuf {c : Id} (he : c ≠ b) : (ideintr s b rest y false).buf c = s.buf c :=
    Function.update_of_ne he ..
  have hself : (ideintr s b rest y false).buf b = _ := Function.update_self ..
  refine ⟨fun c hc => ?_, fun c hc hs => ?_, fun k hk hnone => ?_, fun z c rest' hi hq => ?_⟩
  · by_cases he : c = b
    · rw [he, hself] at hc
      cases hc
    · rw [hbuf he] at hc ⊢
      exact h.dirty c hc
  · by_cases he : c = b
    · rw [he, hself]
      exact hdata.1
    · rw [hbuf he] at hc ⊢
      exact h.clean c hc hs
  · by_cases he : k = (s.buf b).block
    · rw [he]
      exact hdata.2
    · refine h.disk k hk fun c hc => ?_
      have hne : c ≠ b := by
        rintro rfl
        exact he hc.symm
      rw [← hbuf hne] at hc ⊢
      exact hnone c hc
  · cases rest <;> cases hi

/-- What a step does to the memory. -/
def event : Label Proc Data → Option (Lib.Cells.Event (Word × Word) Data)
  | .returned _ k x => some (.read k x)
  | .bwrite _ k x => some (.write k x)
  | _ => none

structure Cached (s : State Proc Data) (m : Word × Word → Data) : Prop where
  sound : Sound s
  named : Named s
  saved : Saved s
  coherent : Coherent s m

omit [DecidableEq Proc] in
/-- The buffer that `bread` returns. -/
theorem Cached.read (h : Cached s m) {stage : Stage} (hpc : s.pc p = .on b stage)
    (hsynced : (s.buf b).synced = true) : m (s.buf b).block = (s.buf b).data := by
  refine (h.coherent.clean b hsynced ?_).symm
  rw [← Bool.not_eq_true]
  intro hunsaved
  have hnone := (h.saved b hunsaved).2 p
  rw [hpc, Pc.stage, if_pos rfl] at hnone
  cases hnone

omit [DecidableEq Proc] in
theorem Cached.hit (h : Cached s m) (hpc : s.pc p = .on b .bread)
    (hvalid : (s.buf b).valid = true) : m (s.buf b).block = (s.buf b).data := by
  obtain ⟨o, ho⟩ := h.sound.phases b
  obtain rfl := ho.of_stage hpc
  exact h.read hpc (Buf.synced_iff.mpr ⟨hvalid, ho.flags.1⟩)

/-- A step that neither reads nor writes the memory. -/
theorem Coherent.step (h : Cached s m) (hs : Step havedisk1 s l t) (hok : t.panicked = none)
    (hl : Allowed s l) (hevent : ∀ p k x, l ≠ .bwrite p k x) : Coherent t m := by
  have hsame := h.coherent
  cases hs with
  | @bget p dev sector hpc =>
    have htake {b : Id} {x : Buf Data} (hfree : (s.buf b).busy = false) (hdirty : x.dirty = false)
        (hclean : x.synced = true → s.unsaved b = false → x.data = m x.block) :
        Coherent (s.take p b x) m :=
      have hb := h.sound.phases.free hfree
      hsame.change rfl hb.2 hb.1 hdirty hclean (fun _ _ => rfl) rfl rfl rfl
    obtain ⟨b, -, -, hfree, he⟩ | ⟨b, -, -, -, he⟩ | ⟨b, -, hfree, -, he⟩ | ⟨-, he⟩ :=
      bget_cases s p dev sector
    · rw [he]
      exact htake hfree (h.sound.phases.free hfree).1 (hsame.clean b)
    · rw [he]
      exact ⟨hsame.dirty, hsame.clean, hsame.disk, hsame.served⟩
    · rw [he]
      exact htake hfree rfl nofun
    · rw [he]
      exact ⟨hsame.dirty, hsame.clean, hsame.disk, hsame.served⟩
  | miss =>
    rw [iderw_of_ok hok]
    exact ⟨hsame.dirty, hsame.clean, hsame.disk, hsame.served⟩
  | @store p b x hpc hholds =>
    obtain ⟨-, hsynced, hqueue⟩ := h.sound.phases.held hpc hholds
    have hdirty := Buf.not_dirty hsynced
    refine hsame.change rfl hqueue hdirty hdirty (fun _ hs => ?_) (fun c hc => ?_) rfl rfl rfl
    · simp [State.store] at hs
    · simp [State.store, hc]
  | bwrite => exact absurd rfl (hevent _ _ _)
  | @submit p b w hpc =>
    refine ⟨hsame.dirty, hsame.clean, hsame.disk, fun y c rest hi hq => ?_⟩
    simp only [submit] at hi hq
    split at hi
    · cases hi
    · rename_i hne
      obtain ⟨d, ds, hqueue⟩ := List.exists_cons_of_ne_nil hne
      rw [hqueue] at hq
      cases hq
      exact hsame.served y c ds hi hqueue
  | @brelse p b hpc hholds =>
    obtain ⟨hbusy, hsynced, hqueue⟩ := h.sound.phases.held hpc hholds
    have hdirty := Buf.not_dirty hsynced
    rw [brelse_of_busy hbusy]
    exact hsame.change rfl hqueue hdirty hdirty (hsame.clean b) (fun _ _ => rfl) rfl rfl rfl
  | complete hide => exact hsame.complete h.sound h.named hide
  | @intr x b rest err hide hqueue =>
    obtain rfl : err = false := hl
    exact hsame.intr h.sound h.named hide hqueue
  | spurious => exact hsame
  | _ => exact ⟨hsame.dirty, hsame.clean, hsame.disk, hsame.served⟩

theorem Coherent.bwrite (h : Cached s m) (hok : (bwrite havedisk1 s p b).panicked = none)
    (hpc : s.pc p = .user) (hholds : s.holds p b = true) :
    Coherent (bwrite havedisk1 s p b) (update m (s.buf b).block (s.buf b).data) := by
  obtain ⟨hbusy, -, hqueue⟩ := h.sound.phases.held hpc hholds
  have hwrite := h.coherent.write h.sound (h.named.buf b (.inl hbusy)) hqueue
  rw [bwrite_of_ok hok]
  exact ⟨hwrite.dirty, hwrite.clean, hwrite.disk, hwrite.served⟩

variable [DecidableEq Data]

/-- The cache is a memory. -/
theorem simulation : ((system havedisk1 disk).restrict Allowed).Simulation
    (Lib.Cells.system fun k => disk (address k))
    (fun (s : State Proc Data) m => s.panicked = none → Cached s m) event where
  init h := ⟨_, rfl, fun _ => ⟨h.sound, h.named, h.saved, h.coherent⟩⟩
  skip hs hevent h hok := by
    obtain ⟨⟨hrun, hs⟩, hl⟩ := hs
    have hcached := h hrun
    refine ⟨hcached.sound.step hs hok, hcached.named.step hcached.sound hs hok hl,
      hcached.saved.step hcached.sound hs hok hl, Coherent.step hcached hs hok hl ?_⟩
    rintro p k x rfl
    cases hevent
  step hs hevent h := by
    obtain ⟨⟨hrun, hs⟩, hl⟩ := hs
    have hcached := h hrun
    have hkeep (hok) (hwrite) : Cached _ _ := ⟨hcached.sound.step hs hok,
      hcached.named.step hcached.sound hs hok hl, hcached.saved.step hcached.sound hs hok hl,
      Coherent.step hcached hs hok hl hwrite⟩
    cases hs with
    | hit hpc hvalid =>
      cases hevent
      exact ⟨_, if_pos (hcached.hit hpc hvalid), fun hok => hkeep hok nofun⟩
    | returned hpc hsynced =>
      cases hevent
      exact ⟨_, if_pos (hcached.read hpc hsynced), fun hok => hkeep hok nofun⟩
    | bwrite hpc hholds =>
      cases hevent
      refine ⟨_, rfl, fun hok => ?_⟩
      have hs : Step havedisk1 _ _ _ := .bwrite hpc hholds
      exact ⟨hcached.sound.step hs hok, hcached.named.step hcached.sound hs hok hl,
        hcached.saved.step hcached.sound hs hok hl, Coherent.bwrite hcached hok hpc hholds⟩
    | _ => cases hevent

/-- What the `bwrite`s of a run have left in each block. -/
def stored (disk : Address → Data) (ls : List (Label Proc Data)) : Word × Word → Data :=
  Lib.Cells.contents (fun k => disk (address k)) (ls.filterMap event)

omit [DecidableEq Data] in
theorem run_step_allowed (h : ((system havedisk1 disk).restrict Allowed).Run ls s)
    (l : Label Proc Data) (hs : Step havedisk1 s l t) (hok : s.panicked = none)
    (hl : Allowed s l) : ((system havedisk1 disk).restrict Allowed).Run (ls ++ [l]) t :=
  h.step ⟨⟨hok, hs⟩, hl⟩

/-- A block is read, written and released, and then found in the cache. -/
def session : List (Label (Fin 1) Nat) :=
  [.bread 0 1 5, .bget 0, .miss 0, .submit 0, .complete, .intr false, .returned 0 (1, 5) 7,
    .store 0 0 8, .bwrite 0 (1, 5) 8, .submit 0, .sleep 0, .complete, .intr false]

theorem run_session : (∃ s, ((system true fun _ => 7).restrict Allowed).Run
      (session ++ [.bwritten 0 (1, 5)]) s) ∧
    ∃ s, ((system true fun _ => 7).restrict Allowed).Run (session ++ [.bwritten 0 (1, 5),
      .brelse 0 0, .bread 0 1 5, .bget 0] ++ [.returned 0 (1, 5) 8]) s := by
  have h : ((system true fun _ => 7).restrict Allowed).Run [] (clear (Fin 1)) :=
    .init clear_initial
  have h := run_step_allowed h (.bread 0 1 5) (.bread 1 5 rfl) rfl ⟨by decide, by decide⟩
  have h := run_step_allowed h (.bget 0) (.bget rfl) rfl trivial
  have h := run_step_allowed h (.miss 0) (.miss rfl rfl) rfl trivial
  have h := run_step_allowed h (.submit 0) (.submit rfl) rfl trivial
  have h := run_step_allowed h .complete (.complete rfl) rfl trivial
  have h := run_step_allowed h (.intr false) (.intr false rfl rfl) rfl rfl
  have h := run_step_allowed h (.returned 0 (1, 5) 7) (.returned (b := 0) rfl rfl) rfl trivial
  have h := run_step_allowed h (.store 0 0 8) (.store 8 rfl rfl) rfl trivial
  have h := run_step_allowed h (.bwrite 0 (1, 5) 8) (.bwrite (b := 0) rfl rfl) rfl trivial
  have h := run_step_allowed h (.submit 0) (.submit rfl) rfl trivial
  have h := run_step_allowed h (.sleep 0) (.sleep rfl rfl) rfl trivial
  have h := run_step_allowed h .complete (.complete rfl) rfl trivial
  have h := run_step_allowed h (.intr false) (.intr false rfl rfl) rfl rfl
  have h := run_step_allowed h (.bwritten 0 (1, 5)) (.bwritten (b := 0) rfl rfl) rfl trivial
  refine ⟨⟨_, h⟩, ?_⟩
  have h := run_step_allowed h (.brelse 0 0) (.brelse rfl rfl) rfl rfl
  have h := run_step_allowed h (.bread 0 1 5) (.bread 1 5 rfl) rfl ⟨by decide, by decide⟩
  have h := run_step_allowed h (.bget 0) (.bget rfl) rfl trivial
  exact ⟨_, run_step_allowed h (.returned 0 (1, 5) 8) (.hit (b := 0) rfl rfl) rfl trivial⟩

/-- Where a `bwrite` returns, its block is on the disk. -/
theorem bwrite_returns_written
    (h : ((system havedisk1 disk).restrict Allowed).Run (ls ++ [.bwritten p k]) s) :
    s.disk (address k) = stored disk ls k := by
  obtain ⟨r, hrun, ⟨hok, hs⟩, -⟩ := h.of_concat
  obtain ⟨m, hm, hcached⟩ := simulation.run hrun
  rw [stored, ← Lib.Cells.run_contents hm]
  have hcached := hcached hok
  cases hs with
  | @bwritten p b hpc hsynced =>
    obtain ⟨o, ho⟩ := hcached.sound.phases b
    obtain rfl := ho.of_stage hpc
    have hrange := hcached.named.buf b (.inl ho.busy)
    refine hcached.coherent.disk _ hrange fun c hc => ?_
    obtain rfl := hcached.sound.unique b c hc.symm hrange.dev_ne
    exact Buf.not_dirty hsynced

theorem session_returns_written : ∃ s, ((system true fun _ => 7).restrict Allowed).Run
    (session ++ [.bwritten 0 (1, 5)]) s ∧ s.disk (true, 5) = 8 := by
  obtain ⟨s, h⟩ := run_session.1
  exact ⟨s, h, bwrite_returns_written h⟩

end PerrOS.Bcache
