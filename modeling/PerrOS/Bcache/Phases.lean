import PerrOS.Bcache.Buffers

/-!
# The phases of a buffer

A buffer is free, or one process has it and is somewhere between `bget` and
`brelse`. Its flags, and whether it is in the queue of the disk, follow from
where that process is.
-/

namespace PerrOS.Bcache

open Function (update)

universe u v

variable {Proc : Type u} {Data : Type v} {s t : State Proc Data} {p q : Proc} {b c : Id}
  {l : Label Proc Data} {ls : List (Label Proc Data)} {o : Option (Proc × Option Stage)}
  {st st' : Option Stage} {w : Bool} {pc : Pc} {havedisk1 : Bool} {disk : Address → Data}
  {x : Buf Data} {msg : String}

/-- The flags of a buffer that `iderw` has still to write or to read. -/
def Buf.Asked (x : Buf Data) (w : Bool) : Prop := x.dirty = w ∧ (w = false → x.valid = false)

theorem Buf.Asked.not_synced (h : x.Asked w) : x.synced = false := by
  cases w with
  | true => simp [Buf.synced, h.1]
  | false => simp [Buf.synced, h.2 rfl]

theorem Buf.synced_iff : x.synced = true ↔ x.valid = true ∧ x.dirty = false := by
  simp [Buf.synced]

/-- What is known of a buffer, by who has it and which stage of a call the process is in. -/
def Flags (s : State Proc Data) (b : Id) : Option (Proc × Option Stage) → Prop
  | none | some (_, some .bread) => (s.buf b).dirty = false ∧ b ∉ s.queue
  | some (_, none) => (s.buf b).synced = true ∧ b ∉ s.queue
  | some (_, some (.iderw w)) => (s.buf b).Asked w ∧ b ∉ s.queue
  | some (_, some (.waiting w)) =>
    (s.buf b).Asked w ∧ b ∈ s.queue ∨ (s.buf b).synced = true ∧ b ∉ s.queue
  | some (_, some (.asleep w)) => (s.buf b).Asked w ∧ b ∈ s.queue

structure Phase (s : State Proc Data) (b : Id) (o : Option (Proc × Option Stage)) : Prop where
  busy : (s.buf b).busy = o.isSome
  holds : ∀ q, s.holds q b = true ↔ ∃ st, o = some (q, st)
  stage : ∀ q st, (s.pc q).stage b = some st ↔ o = some (q, some st)
  flags : Flags s b o

def Phases (s : State Proc Data) : Prop := ∀ b, ∃ o, Phase s b o

namespace Phase

theorem of_stage {stg : Stage} (h : Phase s b o) (hpc : s.pc p = .on b stg) :
    o = some (p, some stg) := (h.stage p stg).mp (by simp [hpc, Pc.stage])

theorem of_holds (h : Phase s b o) (hpc : s.pc p = .user) (hholds : s.holds p b = true) :
    o = some (p, none) := by
  obtain ⟨st, rfl⟩ := (h.holds p).mp hholds
  cases st with
  | none => rfl
  | some st =>
    have := (h.stage p st).mpr rfl
    rw [hpc] at this
    cases this

theorem of_free (h : Phase s b o) (hbusy : (s.buf b).busy = false) : o = none := by
  rw [h.busy] at hbusy
  simpa using hbusy

/-- A step that leaves the buffer alone. -/
theorem frame (h : Phase s b o) (hbuf : t.buf b = s.buf b)
    (hholds : ∀ q, t.holds q b = s.holds q b) (hpc : ∀ q, (t.pc q).stage b = (s.pc q).stage b)
    (hqueue : b ∈ t.queue ↔ b ∈ s.queue) : Phase t b o where
  busy := by rw [hbuf, h.busy]
  holds q := by rw [hholds, h.holds]
  stage q st := by rw [hpc, h.stage]
  flags := by
    have hflags := h.flags
    unfold Flags at *
    rwa [hbuf, hqueue]

/-- The process that has the buffer goes on with it. -/
theorem move (h : Phase s b (some (p, st))) (hbusy : (t.buf b).busy = true)
    (hholds : ∀ q, t.holds q b = s.holds q b)
    (hpc : ∀ q, q ≠ p → (t.pc q).stage b = (s.pc q).stage b) (hp : (t.pc p).stage b = st')
    (hflags : Flags t b (some (p, st'))) : Phase t b (some (p, st')) where
  busy := hbusy
  holds q := by
    rw [hholds, h.holds]
    simp
  stage q stage := by
    by_cases he : q = p
    · subst he
      simp [hp]
    · rw [hpc q he, h.stage]
      simp [Ne.symm he]
  flags := hflags

end Phase

/-- One buffer changes its phase, and the others stay as they are. -/
theorem Phases.of_one (h : Phases s) (hb : ∃ o, Phase t b o)
    (hbuf : ∀ c, c ≠ b → t.buf c = s.buf c) (hholds : ∀ c, c ≠ b → ∀ q, t.holds q c = s.holds q c)
    (hpc : ∀ c, c ≠ b → ∀ q, (t.pc q).stage c = (s.pc q).stage c)
    (hqueue : ∀ c, c ≠ b → (c ∈ t.queue ↔ c ∈ s.queue)) : Phases t := by
  intro c
  by_cases he : c = b
  · subst he
    exact hb
  · obtain ⟨o, ho⟩ := h c
    exact ⟨o, ho.frame (hbuf c he) (hholds c he) (hpc c he) (hqueue c he)⟩

/-- No buffer changes its phase. -/
theorem Phases.frame (h : Phases s) (hbuf : t.buf = s.buf) (hholds : t.holds = s.holds)
    (hpc : ∀ c q, (t.pc q).stage c = (s.pc q).stage c) (hqueue : t.queue = s.queue) :
    Phases t := by
  intro c
  obtain ⟨o, ho⟩ := h c
  exact ⟨o, ho.frame (by rw [hbuf]) (fun q => by rw [hholds]) (hpc c) (by rw [hqueue])⟩

theorem Pc.stage_on_of_ne (h : c ≠ b) (stage : Stage) : (Pc.on b stage).stage c = none :=
  if_neg (Ne.symm h)

/-- A `wakeup` of a buffer that nobody waits for in `iderw`. -/
theorem Pc.stage_wakeup_of_ne (h : c ≠ b) (pc : Pc) : (pc.wakeup b).stage c = pc.stage c := by
  cases pc with
  | user | bget => rfl
  | asleep d =>
    rw [Pc.wakeup]
    split <;> rfl
  | on d stage =>
    cases stage with
    | asleep w =>
      rw [Pc.wakeup]
      split
      · rename_i he
        subst he
        rw [stage_on_of_ne h, stage_on_of_ne h]
      · rfl
    | _ => rfl

theorem Pc.stage_wakeup (b : Id) (pc : Pc) : (pc.wakeup b).stage b =
    match pc.stage b with
    | some (.asleep w) => some (.waiting w)
    | o => o := by
  cases pc with
  | user | bget => rfl
  | asleep d =>
    rw [Pc.wakeup]
    split <;> rfl
  | on d stage =>
    by_cases he : d = b
    · subst he
      cases stage <;> simp [Pc.wakeup, Pc.stage]
    · cases stage <;> simp [Pc.wakeup, Pc.stage, he]

variable [DecidableEq Proc]

theorem stage_update (hp : pc.stage c = (s.pc p).stage c) (q : Proc) :
    (update s.pc p pc q).stage c = (s.pc q).stage c := by
  by_cases he : q = p
  · subst he
    rw [Function.update_self, hp]
  · rw [Function.update_of_ne he]

theorem holds_update (h : c ≠ b) (x : Bool) (q : Proc) :
    update s.holds p (update (s.holds p) b x) q c = s.holds q c := by
  by_cases he : q = p
  · subst he
    rw [Function.update_self, Function.update_of_ne h]
  · rw [Function.update_of_ne he]

/-- A process goes on with its buffer. -/
theorem Phases.goto (pc : Pc) (h : Phases s) (hb : Phase s b (some (p, st)))
    (hother : ∀ c, c ≠ b → pc.stage c = (s.pc p).stage c)
    (hbuf : ∀ c, c ≠ b → t.buf c = s.buf c) (hbusy : (t.buf b).busy = (s.buf b).busy)
    (hholds : t.holds = s.holds) (hpc : t.pc = update s.pc p pc)
    (hqueue : ∀ c, c ≠ b → (c ∈ t.queue ↔ c ∈ s.queue))
    (hflags : Flags t b (some (p, pc.stage b))) : Phases t := by
  refine h.of_one (b := b) ⟨some (p, pc.stage b), hb.move ?_ (fun q => by rw [hholds]) ?_ ?_ hflags⟩
    hbuf (fun c _ q => by rw [hholds]) (fun c hc q => ?_) hqueue
  · rw [hbusy, hb.busy]
    rfl
  · intro q hq
    rw [hpc, Function.update_of_ne hq]
  · rw [hpc, Function.update_self]
  · rw [hpc]
    exact stage_update (hother c hc) q

theorem Phases.take (h : Phases s) (hpc : s.pc p = .bget dev sector)
    (hb : (s.buf b).busy = false) (hbusy : x.busy = true)
    (hdirty : (s.buf b).dirty = false → x.dirty = false) : Phases (s.take p b x) := by
  obtain ⟨o, ho⟩ := h b
  obtain rfl := ho.of_free hb
  refine h.of_one (b := b) ⟨some (p, some .bread), ?_, fun q => ?_, fun q st => ?_, ?_⟩ ?_ ?_ ?_ ?_
  · simpa [State.take] using hbusy
  · by_cases he : q = p
    · subst he
      simp [State.take]
    · have hq := ho.holds q
      simp only [reduceCtorEq, exists_false, iff_false] at hq
      simp [State.take, Function.update_of_ne he, hq, Ne.symm he]
  · by_cases he : q = p
    · subst he
      simp [State.take, Pc.stage]
    · have hq := ho.stage q st
      simp only [reduceCtorEq, iff_false] at hq
      simp [State.take, Function.update_of_ne he, hq, Ne.symm he]
  · refine ⟨?_, ho.flags.2⟩
    simpa [State.take] using hdirty ho.flags.1
  · intro c hc
    simp [State.take, hc]
  · exact fun c hc q => holds_update hc true q
  · intro c hc q
    refine stage_update (s := s) ?_ q
    rw [Pc.stage_on_of_ne hc, hpc]
    rfl
  · exact fun c hc => Iff.rfl

theorem Phases.bget (h : Phases s) (hpc : s.pc p = .bget dev sector) :
    Phases (bget s p dev sector) := by
  unfold Bcache.bget
  split
  · split
    · exact h.take hpc ‹_› rfl id
    · refine h.frame rfl rfl (fun c q => stage_update ?_ q) rfl
      rw [hpc]
      rfl
  · split
    · rename_i b hb
      exact h.take hpc (by simpa using List.find?_some hb) rfl fun _ => rfl
    · exact h.frame rfl rfl (fun _ _ => rfl) rfl

theorem iderw_of_ok (hok : (iderw havedisk1 s p b w).panicked = none) :
    iderw havedisk1 s p b w = s.goto p (.on b (.iderw w)) := by
  unfold iderw at *
  split at hok
  · cases hok
  split at hok
  · cases hok
  split at hok
  · cases hok
  · rename_i hbusy hsynced hdev
    rw [if_neg hbusy, if_neg hsynced, if_neg hdev]

theorem bwrite_of_ok (hok : (bwrite havedisk1 s p b).panicked = none) :
    bwrite havedisk1 s p b =
      (s.setDirty b).goto p (.on b (.iderw true)) := by
  unfold bwrite at *
  split at hok
  · cases hok
  · rename_i hbusy
    rw [if_neg hbusy]
    exact iderw_of_ok hok

theorem brelse_of_busy (hbusy : (s.buf b).busy = true) : brelse s p b =
    { s with
      buf := update s.buf b { s.buf b with busy := false }
      order := Lib.Recency.toFront b s.order
      pc := fun q => (s.pc q).wakeup b
      holds := update s.holds p (update (s.holds p) b false) } := by
  rw [brelse, if_neg (by simp [hbusy])]

theorem Phases.brelse (h : Phases s) (hpc : s.pc p = .user) (hholds : s.holds p b = true) :
    Phases (brelse s p b) := by
  obtain ⟨o, ho⟩ := h b
  obtain rfl := ho.of_holds hpc hholds
  rw [brelse_of_busy ho.busy]
  have hflags := Buf.synced_iff.mp ho.flags.1
  refine h.of_one (b := b) ⟨none, ?_, fun q => ?_, fun q stg => ?_, ?_, ho.flags.2⟩ ?_ ?_ ?_ ?_
  · simp
  · have hq := ho.holds q
    by_cases he : q = p
    · subst he
      simp
    · simp only [Option.some.injEq, Prod.mk.injEq, Ne.symm he, false_and, exists_false,
        iff_false] at hq
      simp [Function.update_of_ne he, hq]
  · -- nobody works on the buffer
    have hq := ho.stage q
    have hnone : (s.pc q).stage b = none := by
      rw [Option.eq_none_iff_forall_ne_some]
      intro stg hstg
      have := (hq stg).mp hstg
      simp at this
    simp [Pc.stage_wakeup, hnone]
  · simpa using hflags.2
  · intro c hc
    simp [hc]
  · exact fun c hc q => holds_update hc false q
  · exact fun c hc q => Pc.stage_wakeup_of_ne hc _
  · exact fun c hc => Iff.rfl

omit [DecidableEq Proc] in
theorem Phases.intr {rest : List Id} {x : Data} (h : Phases s) (hnodup : s.queue.Nodup)
    (hqueue : s.queue = b :: rest) (err : Bool) : Phases (ideintr s b rest x err) := by
  have hmem : b ∈ s.queue := by simp [hqueue]
  have hrest : b ∉ rest := (List.nodup_cons.mp (hqueue ▸ hnodup)).1
  obtain ⟨o, ho⟩ := h b
  -- the buffer has been submitted by the process that has it
  obtain ⟨p, w, st, rfl, hst⟩ : ∃ p w st, o = some (p, some st) ∧
      (st = .waiting w ∨ st = .asleep w) := by
    have hflags := ho.flags
    match o with
    | none | some (_, none) | some (_, some .bread) | some (_, some (.iderw w)) =>
      exact absurd hmem hflags.2
    | some (p, some (.waiting w)) => exact ⟨p, w, _, rfl, .inl rfl⟩
    | some (p, some (.asleep w)) => exact ⟨p, w, _, rfl, .inr rfl⟩
  have hp : (s.pc p).stage b = some st := (ho.stage p st).mpr rfl
  refine h.of_one (b := b) ⟨some (p, some (.waiting w)), ho.move ?_ (fun _ => rfl) ?_ ?_
    (.inr ⟨?_, hrest⟩)⟩ ?_ ?_ ?_ ?_
  · have hbusy := ho.busy
    simpa [ideintr, ] using hbusy
  · intro q hq
    have hnone : (s.pc q).stage b = none := by
      rw [Option.eq_none_iff_forall_ne_some]
      intro stg hstg
      have := (ho.stage q stg).mp hstg
      simp [Ne.symm hq] at this
    simp [ideintr, Pc.stage_wakeup, hnone]
  · simp only [ideintr, Pc.stage_wakeup, hp]
    rcases hst with rfl | rfl <;> rfl
  · simp [ideintr, Buf.synced]
  · intro c hc
    simp [ideintr, hc]
  · exact fun _ _ _ => rfl
  · exact fun c hc q => Pc.stage_wakeup_of_ne hc _
  · intro c hc
    simp [ideintr, hqueue, hc]

theorem Phases.step (h : Phases s) (hnodup : s.queue.Nodup) (hs : Step havedisk1 s l t)
    (hok : t.panicked = none) : Phases t := by
  have hother {p : Proc} {b c : Id} {stg stg' : Stage} (hpc : s.pc p = .on b stg) (hc : c ≠ b) :
      (Pc.on b stg').stage c = (s.pc p).stage c := by
    rw [hpc, Pc.stage_on_of_ne hc, Pc.stage_on_of_ne hc]
  have hself (b : Id) (stg : Stage) : (Pc.on b stg).stage b = some stg := if_pos rfl
  cases hs with
  | bread dev sector hpc =>
    refine h.frame rfl rfl (fun c q => stage_update ?_ q) rfl
    rw [hpc]
    rfl
  | bget hpc => exact h.bget hpc
  | @miss p b hpc hvalid =>
    rw [iderw_of_ok hok]
    obtain ⟨o, ho⟩ := h b
    obtain rfl := ho.of_stage hpc
    refine h.goto _ ho (fun c => hother hpc) (fun _ _ => rfl) rfl rfl rfl (fun _ _ => Iff.rfl) ?_
    rw [hself]
    exact ⟨⟨ho.flags.1, fun _ => hvalid⟩, ho.flags.2⟩
  | @hit p b hpc hvalid =>
    obtain ⟨o, ho⟩ := h b
    obtain rfl := ho.of_stage hpc
    refine h.goto _ ho (fun c hc => ?_) (fun _ _ => rfl) rfl rfl rfl (fun _ _ => Iff.rfl) ?_
    · rw [hpc, Pc.stage_on_of_ne hc]
      rfl
    · exact ⟨Buf.synced_iff.mpr ⟨hvalid, ho.flags.1⟩, ho.flags.2⟩
  | @store p b x hpc hholds =>
    obtain ⟨o, ho⟩ := h b
    obtain rfl := ho.of_holds hpc hholds
    refine h.goto .user ho (fun c hc => ?_) (fun c hc => ?_) ?_ rfl ?_ (fun _ _ => Iff.rfl) ?_
    · rw [hpc]
    · simp [State.store, hc]
    · simp [State.store]
    · simp [State.store, ← hpc]
    · exact ⟨by simpa [State.store, Buf.synced] using ho.flags.1, ho.flags.2⟩
  | @bwrite p b hpc hholds =>
    rw [bwrite_of_ok hok]
    obtain ⟨o, ho⟩ := h b
    obtain rfl := ho.of_holds hpc hholds
    refine h.goto _ ho (fun c hc => ?_) (fun c hc => ?_) ?_ rfl rfl (fun _ _ => Iff.rfl) ?_
    · rw [hpc, Pc.stage_on_of_ne hc]
      rfl
    · simp [State.goto, State.setDirty, hc]
    · simp [State.goto, State.setDirty]
    · rw [hself]
      exact ⟨⟨by simp [State.goto, State.setDirty], nofun⟩, ho.flags.2⟩
  | @submit p b w hpc =>
    obtain ⟨o, ho⟩ := h b
    obtain rfl := ho.of_stage hpc
    refine h.goto _ ho (fun c => hother hpc) (fun _ _ => rfl) rfl rfl rfl (fun c hc => ?_) ?_
    · simp [submit, hc]
    · rw [hself]
      exact .inl ⟨ho.flags.1, by simp [submit]⟩
  | @sleep p b w hpc hsynced =>
    obtain ⟨o, ho⟩ := h b
    obtain rfl := ho.of_stage hpc
    refine h.goto _ ho (fun c => hother hpc) (fun _ _ => rfl) rfl rfl rfl (fun _ _ => Iff.rfl) ?_
    rw [hself]
    exact ho.flags.resolve_right fun hdone => by simp [hdone.1] at hsynced
  | @returned p b hpc hsynced | @bwritten p b hpc hsynced =>
    obtain ⟨o, ho⟩ := h b
    obtain rfl := ho.of_stage hpc
    refine h.goto _ ho (fun c hc => ?_) (fun _ _ => rfl) rfl rfl rfl (fun _ _ => Iff.rfl) ?_
    · rw [hpc, Pc.stage_on_of_ne hc]
      rfl
    · exact ho.flags.resolve_left fun hasked => by simp [hasked.1.not_synced] at hsynced
  | brelse hpc hholds => exact h.brelse hpc hholds
  | complete => exact h.frame rfl rfl (fun _ _ => rfl) rfl
  | intr err hide hqueue => exact h.intr hnodup hqueue err
  | spurious => exact h
  | kill p =>
    cases hpc : s.pc p with
    | user | bget | asleep =>
      refine h.frame rfl rfl (fun c q => stage_update ?_ q) rfl
      rw [hpc]
      rfl
    | on b stg =>
      cases stg with
      | asleep w =>
        obtain ⟨o, ho⟩ := h b
        obtain rfl := ho.of_stage hpc
        refine h.goto (.on b (.waiting w)) ho (fun c => hother hpc) (fun _ _ => rfl) rfl rfl rfl
          (fun _ _ => Iff.rfl) ?_
        rw [hself]
        exact .inl ho.flags
      | _ =>
        refine h.frame rfl rfl (fun c q => stage_update ?_ q) rfl
        rw [hpc]
        rfl

end PerrOS.Bcache
