import PerrOS.Ptable.Shape

/-!
# The ledger of kernel stacks

Every pid gets one kernel stack, which is freed once: where a `fork` fails
after it, or by the one call that returns the pid. The log says which.
-/

namespace PerrOS.Ptable

open Function (update)
open Xv6 (ProcState Slot slots mem_slots)

variable {s t u : State} {p np k : Slot}

namespace Event

def createdPid : Event → Option Pid
  | .created _ pid _ => some pid
  | _ => none

def freedPid : Event → Option Pid
  | .unwound pid _ | .reaped _ pid _ => some pid
  | _ => none

end Event

/-- The pids that got a kernel stack. -/
def created (log : List Event) : List Pid := log.filterMap Event.createdPid

/-- The pids whose kernel stack was freed. -/
def freed (log : List Event) : List Pid := log.filterMap Event.freedPid

@[simp] theorem created_append (log log' : List Event) :
    created (log ++ log') = created log ++ created log' := List.filterMap_append

@[simp] theorem freed_append (log log' : List Event) :
    freed (log ++ log') = freed log ++ freed log' := List.filterMap_append

theorem mem_created {log : List Event} {kind : Kind} {pid : Pid} {kstack : Page}
    (h : .created kind pid kstack ∈ log) : pid ∈ created log :=
  List.mem_filterMap.mpr ⟨_, h, rfl⟩

/-- The new entry that has no kernel stack yet. -/
def Pc.stackless : Pc → Option Slot
  | .forking np .kstack | .cloning np .kstack => some np
  | _ => none

/-- The new entry that has one, and what it is created as. -/
def Pc.stacked : Pc → Option (Slot × Kind)
  | .forking np .pgdir | .forking np .sz | .forking np .parent | .forking np .isThread
  | .forking np .state => some (np, .fork)
  | .cloning np .parent | .cloning np .sz | .cloning np .pgdir | .cloning np .isThread
  | .cloning np .state => some (np, .clone)
  | _ => none

theorem Pc.target_of_stackless {c : Pc} (h : c.stackless = some np) : c.target = some np := by
  cases c with
  | forking _ next | cloning _ next => cases next <;> simp_all [Pc.stackless, Pc.target]
  | _ => cases h

theorem Pc.target_of_stacked {c : Pc} {kind : Kind} (h : c.stacked = some (np, kind)) :
    c.target = some np := by
  cases c with
  | forking _ next | cloning _ next => cases next <;> simp_all [Pc.stacked, Pc.target]
  | _ => cases h

def kindOf (isThread : Bool) : Kind := if isThread then .clone else .fork

/-- The entry has a kernel stack, as a process of the kind. -/
def Born (s : State) (k : Slot) (kind : Kind) : Prop :=
  ((live (s.proc k).state = true ∨ (s.proc k).state = .zombie) ∧
      kind = kindOf (s.proc k).isThread) ∨
    ∃ p, (s.pc p).stacked = some (k, kind)

structure Ledger (s : State) : Prop where
  entry : ∀ k, (s.proc k).state ≠ .unused → (s.proc k).pid.toNat < s.nextpid.toNat
  distinct : ∀ j k, (s.proc j).state ≠ .unused → (s.proc k).state ≠ .unused →
    (s.proc j).pid = (s.proc k).pid → j = k
  created_lt : ∀ pid ∈ created s.log, pid.toNat < s.nextpid.toNat
  born : ∀ k kind, k ≠ initproc → Born s k kind →
    .created kind (s.proc k).pid (s.proc k).kstack ∈ s.log ∧ (s.proc k).pid ∉ freed s.log
  unborn : ∀ p np, (s.pc p).stackless = some np → (s.proc np).pid ∉ created s.log
  created_once : (created s.log).Nodup
  freed_once : (freed s.log).Nodup
  freed_created : ∀ pid ∈ freed s.log, pid ∈ created s.log
  reaped : ∀ call pid kstack, .reaped call pid kstack ∈ s.log →
    ∃ kind, .created kind pid kstack ∈ s.log ∧ call = kind.reaper

/-- Nobody who is `Born` is unused. -/
theorem Born.ne_unused (hshape : Shape s) {kind : Kind} (h : Born s k kind) :
    (s.proc k).state ≠ .unused := by
  rcases h with ⟨h, -⟩ | ⟨p, hp⟩
  · rintro e
    rw [e] at h
    rcases h with h | h <;> cases h
  · rw [(hshape.embryo k).mpr ⟨p, Pc.target_of_stacked hp⟩]
    decide

theorem born_embryo (h : Shape s) (hp : (s.pc p).target = some np) {kind : Kind} :
    Born s np kind ↔ (s.pc p).stacked = some (np, kind) := by
  have hnp := (h.embryo np).mpr ⟨p, hp⟩
  constructor
  · rintro (⟨hl, -⟩ | ⟨q, hq⟩)
    · rw [hnp] at hl
      rcases hl with hl | hl <;> cases hl
    · rwa [h.unique p q np hp (Pc.target_of_stacked hq)]
  · exact fun ha => .inr ⟨p, ha⟩

theorem Written.born (hw : Written s t p np) (hk : k ≠ np) {kind : Kind} (h : Born t k kind) :
    Born s k kind := by
  rcases h with h | ⟨q, hq⟩
  · rw [hw.proc k hk] at h
    exact .inl h
  · refine .inr ⟨q, ?_⟩
    rcases hw.pcs q with hpc | hpc | hpc
    · rwa [← hpc]
    · rw [hpc] at hq
      cases hq
    · rw [Pc.target_of_stacked hq] at hpc
      exact absurd (Option.some.inj hpc) hk

namespace Ledger

/-- The log gets at most a `freevm`. -/
theorem keep (h : Ledger s) (es : List Event) (hlog : t.log = s.log ++ es)
    (hes : ∀ e ∈ es, ∃ owner pgdir, e = .freevm owner pgdir) (hnextpid : t.nextpid = s.nextpid)
    (hpid : ∀ k, (t.proc k).state ≠ .unused →
      (s.proc k).state ≠ .unused ∧ (t.proc k).pid = (s.proc k).pid)
    (hborn : ∀ k kind, Born t k kind →
      Born s k kind ∧ (t.proc k).pid = (s.proc k).pid ∧ (t.proc k).kstack = (s.proc k).kstack)
    (hunborn : ∀ p np, (t.pc p).stackless = some np →
      (s.pc p).stackless = some np ∧ (t.proc np).pid = (s.proc np).pid) : Ledger t := by
  have hcreated : created t.log = created s.log := by
    have hnil : created es = [] := List.filterMap_eq_nil_iff.mpr fun e he => by
      obtain ⟨owner, pgdir, rfl⟩ := hes e he
      rfl
    rw [hlog, created_append, hnil, List.append_nil]
  have hfreed : freed t.log = freed s.log := by
    have hnil : freed es = [] := List.filterMap_eq_nil_iff.mpr fun e he => by
      obtain ⟨owner, pgdir, rfl⟩ := hes e he
      rfl
    rw [hlog, freed_append, hnil, List.append_nil]
  have hmem {e : Event} (he : e ∈ s.log) : e ∈ t.log := by
    rw [hlog]
    exact List.mem_append_left _ he
  refine ⟨fun k hk => ?_, fun j k hj hk e => ?_, fun pid hp => ?_, fun k kind hk hb => ?_,
    fun p np hp => ?_, hcreated ▸ h.created_once, hfreed ▸ h.freed_once, fun pid hp => ?_,
    fun call pid kstack he => ?_⟩
  · rw [(hpid k hk).2, hnextpid]
    exact h.entry k (hpid k hk).1
  · rw [(hpid j hj).2, (hpid k hk).2] at e
    exact h.distinct j k (hpid j hj).1 (hpid k hk).1 e
  · rw [hnextpid]
    exact h.created_lt pid (hcreated ▸ hp)
  · obtain ⟨hb, hpid, hkstack⟩ := hborn k kind hb
    rw [hpid, hkstack, hfreed]
    exact ⟨hmem (h.born k kind hk hb).1, (h.born k kind hk hb).2⟩
  · rw [(hunborn p np hp).2, hcreated]
    exact h.unborn p np (hunborn p np hp).1
  · rw [hcreated]
    exact h.freed_created pid (hfreed ▸ hp)
  · rw [hlog] at he
    rcases List.mem_append.mp he with he | he
    · obtain ⟨kind, hk, hcall⟩ := h.reaped call pid kstack he
      exact ⟨kind, hmem hk, hcall⟩
    · obtain ⟨owner, pgdir, he⟩ := hes _ he
      cases he

/-- Entries keep their states, as far as `Born` reads them, and no process
comes to a point of `fork` or `proc_clone`. -/
theorem idle (h : Ledger s) (es : List Event) (hlog : t.log = s.log ++ es)
    (hes : ∀ e ∈ es, ∃ owner pgdir, e = .freevm owner pgdir) (hnextpid : t.nextpid = s.nextpid)
    (hkept : ∀ k, (t.proc k).pid = (s.proc k).pid ∧ (t.proc k).kstack = (s.proc k).kstack ∧
      (t.proc k).isThread = (s.proc k).isThread)
    (hstate : ∀ k, (t.proc k).state = (s.proc k).state ∨
      live (s.proc k).state = true ∧ (t.proc k).state ≠ .unused)
    (hstacked : ∀ q x, (t.pc q).stacked = some x → (s.pc q).stacked = some x)
    (hstackless : ∀ q x, (t.pc q).stackless = some x → (s.pc q).stackless = some x) :
    Ledger t := by
  refine h.keep es hlog hes hnextpid (fun k hk => ⟨?_, (hkept k).1⟩)
    (fun k kind hb => ⟨?_, (hkept k).1, (hkept k).2.1⟩)
    fun q np hq => ⟨hstackless q np hq, (hkept np).1⟩
  · rcases hstate k with hs | ⟨hs, -⟩
    · rwa [← hs]
    · rintro e
      rw [e] at hs
      cases hs
  · rcases hb with ⟨hl, hkind⟩ | ⟨q, hq⟩
    · rw [(hkept k).2.2] at hkind
      rcases hstate k with hs | ⟨hs, -⟩
      · exact .inl ⟨hs ▸ hl, hkind⟩
      · exact .inl ⟨.inl hs, hkind⟩
    · exact .inr ⟨q, hstacked q _ hq⟩

theorem calm (h : Ledger s) (hc : Calm s t) : Ledger t := by
  refine h.idle [] (by rw [hc.log, List.append_nil]) nofun hc.nextpid
    (fun k => ⟨hc.pid k, hc.kstack k, hc.isThread k⟩) (fun k => ?_)
    (fun q x hq => hc.read (f := Pc.stacked) rfl q ▸ hq)
    fun q x hq => hc.read (f := Pc.stackless) rfl q ▸ hq
  rcases hc.state k with hs | ⟨hs, ht⟩
  · exact .inl hs
  · refine .inr ⟨hs, fun e => ?_⟩
    rw [e] at ht
    cases ht

/-- A pid is handed out. -/
theorem create (h : Ledger s) (hshape : Shape s) (ht : Shape t) {c : Pc}
    (hbound : s.nextpid.toNat < 2 ^ 31) (hnp : (s.proc np).state = .unused)
    (hc : c = .forking np .kstack ∨ c = .cloning np .kstack)
    (ht' : t = ({ s.set np { s.proc np with state := .embryo, pid := s.nextpid } with
      nextpid := s.nextpid + 1 } : State).setPc p c) : Ledger t := by
  subst ht'
  have hnext : (s.nextpid + 1).toNat = s.nextpid.toNat + 1 := by
    have hone : (1 : BitVec 32).toNat = 1 := rfl
    rw [BitVec.toNat_add, hone]
    omega
  have hstackless : c.stackless = some np := by rcases hc with rfl | rfl <;> rfl
  have hstacked : c.stacked = none := by rcases hc with rfl | rfl <;> rfl
  have hold (k : Slot) (hk : k ≠ np) (hs : (s.proc k).state ≠ .unused) :
      (s.proc k).pid ≠ s.nextpid := fun e => by
    have := h.entry k hs
    rw [e] at this
    exact lt_irrefl _ this
  have hother (q k : Slot) (hq : (s.pc q).target = some k) : k ≠ np := by
    rintro rfl
    rw [(hshape.embryo k).mpr ⟨q, hq⟩] at hnp
    cases hnp
  refine ⟨fun k hk => ?_, fun j k hj hk e => ?_, fun pid hp => ?_, fun k kind hk hb => ?_,
    fun q k hq => ?_, h.created_once, h.freed_once, h.freed_created, h.reaped⟩
  · rcases eq_or_ne k np with rfl | hknp
    · simp only [State.setPc_proc, State.set_proc, if_pos, State.setPc_nextpid, hnext]
      omega
    · have := h.entry k (by simpa [hknp] using hk)
      simp only [State.setPc_proc, State.set_proc, if_neg hknp, State.setPc_nextpid, hnext]
      omega
  · rcases eq_or_ne j np with hjnp | hjnp <;> rcases eq_or_ne k np with hknp | hknp
    · rw [hjnp, hknp]
    · exact absurd (by simpa [hjnp, hknp] using e.symm) (hold k hknp (by simpa [hknp] using hk))
    · exact absurd (by simpa [hjnp, hknp] using e) (hold j hjnp (by simpa [hjnp] using hj))
    · exact h.distinct j k (by simpa [hjnp] using hj) (by simpa [hknp] using hk)
        (by simpa [hjnp, hknp] using e)
  · have := h.created_lt pid hp
    simp only [State.setPc_nextpid, hnext]
    omega
  · have hknp : k ≠ np := by
      rintro rfl
      rw [born_embryo ht (p := p) (by simp [Pc.target_of_stackless hstackless])] at hb
      simp [hstacked] at hb
    have hb' : Born s k kind := by
      rcases hb with hb | ⟨q, hq⟩
      · exact .inl (by simpa [hknp] using hb)
      · rcases eq_or_ne q p with rfl | hqp
        · simp [hstacked] at hq
        · exact .inr ⟨q, by simpa [hqp] using hq⟩
    simpa [hknp] using h.born k kind hk hb'
  · rcases eq_or_ne q p with rfl | hqp
    · obtain rfl : np = k := by simpa [hstackless] using hq
      intro hmem
      have := h.created_lt _ hmem
      simp at this
    · have hq : (s.pc q).stackless = some k := by simpa [hqp] using hq
      have hknp := hother q k (Pc.target_of_stackless hq)
      simpa [hknp] using h.unborn q k hq

/-- A step on a new entry that neither allocates nor frees its stack. -/
theorem written (h : Ledger s) (hw : Written s t p np) (hlog : t.log = s.log)
    (hnp : (s.proc np).state ≠ .unused) (hpid : (t.proc np).pid = (s.proc np).pid)
    (hborn : ∀ kind, Born t np kind → Born s np kind ∧ (t.proc np).kstack = (s.proc np).kstack)
    (hunborn : (t.pc p).stackless = none) : Ledger t := by
  refine h.keep [] (by rw [hlog, List.append_nil]) nofun hw.nextpid (fun k hk => ?_)
    (fun k kind hb => ?_) fun q k hq => ?_
  · rcases eq_or_ne k np with rfl | hknp
    · exact ⟨hnp, hpid⟩
    · rw [hw.proc k hknp] at hk ⊢
      exact ⟨hk, rfl⟩
  · rcases eq_or_ne k np with rfl | hknp
    · exact ⟨(hborn kind hb).1, hpid, (hborn kind hb).2⟩
    · exact ⟨hw.born hknp hb, by rw [hw.proc k hknp], by rw [hw.proc k hknp]⟩
  · rcases eq_or_ne q p with rfl | hqp
    · rw [hunborn] at hq
      cases hq
    · have hpc : t.pc q = s.pc q := by
        rcases eq_or_ne q np with rfl | hqnp
        · refine (hw.pcNew hqp).resolve_right fun e => ?_
          rw [e] at hq
          cases hq
        · exact hw.pc q hqp hqnp
      refine ⟨hpc ▸ hq, ?_⟩
      rcases eq_or_ne k np with rfl | hknp
      · exact hpid
      · rw [hw.proc k hknp]

/-- A new entry gets its stack. -/
theorem bear (h : Ledger s) (ht : Shape t) (hw : Written s t p np) {kind : Kind} {kstack : Page}
    (hstackless : (s.pc p).stackless = some np) (hstacked : (t.pc p).stacked = some (np, kind))
    (hnp : (s.proc np).state ≠ .unused) (hpid : (t.proc np).pid = (s.proc np).pid)
    (hkstack : (t.proc np).kstack = kstack)
    (hlog : t.log = s.log ++ [.created kind (s.proc np).pid kstack]) : Ledger t := by
  have hnew := h.unborn p np hstackless
  have hcreated : created t.log = created s.log ++ [(s.proc np).pid] := by
    rw [hlog, created_append]
    rfl
  have hfreed : freed t.log = freed s.log := by
    rw [hlog, freed_append]
    exact List.append_nil _
  have hmem {e : Event} (he : e ∈ s.log) : e ∈ t.log := by
    rw [hlog]
    exact List.mem_append_left _ he
  have hentry (k : Slot) (hk : (t.proc k).state ≠ .unused) :
      (s.proc k).state ≠ .unused ∧ (t.proc k).pid = (s.proc k).pid := by
    rcases eq_or_ne k np with rfl | hknp
    · exact ⟨hnp, hpid⟩
    · rw [hw.proc k hknp] at hk ⊢
      exact ⟨hk, rfl⟩
  refine ⟨fun k hk => ?_, fun j k hj hk e => ?_, fun pid hp => ?_, fun k kind' hk hb => ?_,
    fun q k hq hp => ?_, ?_, hfreed ▸ h.freed_once, fun pid hp => ?_, fun call pid ks he => ?_⟩
  · rw [(hentry k hk).2, hw.nextpid]
    exact h.entry k (hentry k hk).1
  · rw [(hentry j hj).2, (hentry k hk).2] at e
    exact h.distinct j k (hentry j hj).1 (hentry k hk).1 e
  · rw [hw.nextpid]
    rw [hcreated] at hp
    rcases List.mem_append.mp hp with hp | hp
    · exact h.created_lt pid hp
    · rw [List.mem_singleton.mp hp]
      exact h.entry np hnp
  · rw [hfreed]
    rcases eq_or_ne k np with rfl | hknp
    · have htgt := Pc.target_of_stacked hstacked
      rw [born_embryo ht htgt, hstacked] at hb
      obtain rfl : kind = kind' := by simpa using hb
      rw [hpid, hkstack, hlog]
      exact ⟨List.mem_append_right _ (List.mem_singleton_self _), fun hf =>
        hnew (h.freed_created _ hf)⟩
    · rw [hw.proc k hknp]
      have := h.born k kind' hk (hw.born hknp hb)
      exact ⟨hmem this.1, this.2⟩
  · have htgt := Pc.target_of_stackless hq
    have hqp : q ≠ p := by
      rintro rfl
      generalize t.pc q = c at hstacked hq
      cases c with
      | forking _ next | cloning _ next => cases next <;> simp_all [Pc.stacked, Pc.stackless]
      | _ => cases hq
    have hknp : k ≠ np := by
      rintro rfl
      exact hqp (ht.unique q p k htgt (Pc.target_of_stacked hstacked))
    have hqs : (s.pc q).stackless = some k := by
      rcases hw.pcs q with e | e | e
      · rwa [← e]
      · rw [e] at hq
        cases hq
      · rw [htgt] at e
        exact absurd (Option.some.inj e) hknp
    rw [hw.proc k hknp, hcreated] at hp
    rcases List.mem_append.mp hp with hp | hp
    · exact h.unborn q k hqs hp
    · refine hknp (h.distinct k np ?_ hnp (List.mem_singleton.mp hp))
      rw [← hw.proc k hknp, (ht.embryo k).mpr ⟨q, htgt⟩]
      decide
  · rw [hcreated]
    refine List.nodup_append.mpr ⟨h.created_once, List.nodup_singleton _, fun a ha b hb => ?_⟩
    rw [List.mem_singleton.mp hb]
    rintro rfl
    exact hnew ha
  · rw [hcreated]
    exact List.mem_append_left _ (h.freed_created pid (hfreed ▸ hp))
  · rw [hlog] at he
    rcases List.mem_append.mp he with he | he
    · obtain ⟨kind', hk, hcall⟩ := h.reaped call pid ks he
      exact ⟨kind', hmem hk, hcall⟩
    · cases List.mem_singleton.mp he

/-- The stack of an entry is freed, and the entry with it. -/
theorem free (h : Ledger s) (hshape : Shape s) (kind : Kind) (es : List Event) {e : Event}
    (hk : k ≠ initproc) (hb : Born s k kind)
    (hlog : t.log = s.log ++ e :: es) (hfree : e.freedPid = some (s.proc k).pid)
    (hcreated : e.createdPid = none) (hes : ∀ e ∈ es, ∃ owner pgdir, e = .freevm owner pgdir)
    (hcall : ∀ call pid kstack, e = .reaped call pid kstack →
      kstack = (s.proc k).kstack ∧ call = kind.reaper)
    (hnextpid : t.nextpid = s.nextpid) (hgone : (t.proc k).state = .unused)
    (hentry : ∀ j, j ≠ k → t.proc j = s.proc j)
    (hborn : ∀ j kind, Born t j kind → j ≠ k ∧ Born s j kind)
    (hunborn : ∀ q np, (t.pc q).stackless = some np → np ≠ k ∧ (s.pc q).stackless = some np) :
    Ledger t := by
  have hold := h.born k kind hk hb
  have hc : created t.log = created s.log := by
    have hnil : created (e :: es) = [] := by
      refine List.filterMap_eq_nil_iff.mpr fun e' he => ?_
      rcases List.mem_cons.mp he with rfl | he
      · exact hcreated
      · obtain ⟨owner, pgdir, rfl⟩ := hes e' he
        rfl
    rw [hlog, created_append, hnil, List.append_nil]
  have hf : freed t.log = freed s.log ++ [(s.proc k).pid] := by
    have hnil : freed es = [] := List.filterMap_eq_nil_iff.mpr fun e he => by
      obtain ⟨owner, pgdir, rfl⟩ := hes e he
      rfl
    rw [hlog, freed_append]
    unfold freed at hnil ⊢
    rw [List.filterMap_cons, hfree, hnil]
  have hmem {e' : Event} (he : e' ∈ s.log) : e' ∈ t.log := by
    rw [hlog]
    exact List.mem_append_left _ he
  have hne {j : Slot} (hj : (t.proc j).state ≠ .unused) : j ≠ k := by
    rintro rfl
    exact hj hgone
  refine ⟨fun j hj => ?_, fun i j hi hj e => ?_, fun pid hp => ?_, fun j kind' hj hb' => ?_,
    fun q np hq => ?_, hc ▸ h.created_once, ?_, fun pid hp => ?_, fun call pid ks he => ?_⟩
  · rw [hnextpid]
    have hjk := hne hj
    rw [hentry j hjk] at hj ⊢
    exact h.entry j hj
  · have hik := hne hi
    have hjk := hne hj
    rw [hentry i hik] at hi e
    rw [hentry j hjk] at hj e
    exact h.distinct i j hi hj e
  · rw [hnextpid]
    exact h.created_lt pid (hc ▸ hp)
  · obtain ⟨hjk, hb'⟩ := hborn j kind' hb'
    rw [hentry j hjk, hf]
    have := h.born j kind' hj hb'
    refine ⟨hmem this.1, fun hp => ?_⟩
    rcases List.mem_append.mp hp with hp | hp
    · exact this.2 hp
    · exact hjk (h.distinct j k (hb'.ne_unused hshape) (hb.ne_unused hshape)
        (List.mem_singleton.mp hp))
  · obtain ⟨hnpk, hq⟩ := hunborn q np hq
    rw [hentry np hnpk, hc]
    exact h.unborn q np hq
  · rw [hf]
    refine List.nodup_append.mpr ⟨h.freed_once, List.nodup_singleton _, fun a ha b hb => ?_⟩
    rw [List.mem_singleton.mp hb]
    rintro rfl
    exact hold.2 ha
  · rw [hc]
    rw [hf] at hp
    rcases List.mem_append.mp hp with hp | hp
    · exact h.freed_created pid hp
    · rw [List.mem_singleton.mp hp]
      exact mem_created hold.1
  · rw [hlog] at he
    rcases List.mem_append.mp he with he | he
    · obtain ⟨kind', hk, hcall⟩ := h.reaped call pid ks he
      exact ⟨kind', hmem hk, hcall⟩
    · rcases List.mem_cons.mp he with he | he
      · obtain ⟨hks, hcall⟩ := hcall call pid ks he.symm
        have hpid : pid = (s.proc k).pid := by
          rw [← he] at hfree
          exact Option.some.inj hfree
        exact ⟨kind, by rw [hpid, hks]; exact hmem hold.1, hcall⟩
      · obtain ⟨owner, pgdir, he⟩ := hes _ he
        cases he

theorem allocStack (h : Ledger s) (hshape : Shape s) (ht : Shape t) {kind : Kind} {pg : Page}
    {c : Pc} (hstackless : (s.pc p).stackless = some np) (hc : c.stacked = some (np, kind))
    (hs : Ptable.allocStack s p kind np pg c = some t) : Ledger t := by
  have htgt := Pc.target_of_stackless hstackless
  have hnp := (hshape.embryo np).mpr ⟨p, htgt⟩
  have hne : (s.proc np).state ≠ .unused := by
    rw [hnp]
    decide
  have hw := allocStack_written hnp (Pc.target_of_stacked hc) hs
  rcases ite_eq_some.mp hs with ⟨-, hs⟩ | ⟨-, hs⟩
  case inr => cases hs
  rcases ite_eq_some.mp hs with ⟨-, hs⟩ | ⟨-, hs⟩
  · obtain rfl := Option.some.inj hs
    exact h.written hw rfl hne (by simp) (fun kind hb => absurd (by simp) (hb.ne_unused ht))
      (by simp [Pc.stackless])
  · obtain rfl := Option.some.inj hs
    exact h.bear ht hw hstackless (by simpa using hc) hne (by simp) (by simp) rfl

theorem publish (h : Ledger s) (hshape : Shape s) (ht : Shape (publish s p np)) (kind : Kind)
    (hstacked : (s.pc p).stacked = some (np, kind))
    (hflag : kind = kindOf (s.proc np).isThread) : Ledger (publish s p np) := by
  have htgt := Pc.target_of_stacked hstacked
  have hnp := (hshape.embryo np).mpr ⟨p, htgt⟩
  refine h.written publish_written rfl (by rw [hnp]; decide)
    (by simp [Ptable.publish, State.setState])
    (fun kind' hb => ⟨?_, by simp [Ptable.publish, State.setState]⟩)
    (by simp [Ptable.publish, Pc.stackless])
  rcases hb with ⟨-, hk⟩ | ⟨q, hq⟩
  · have : kind' = kind := by
      rw [hk, hflag]
      simp [Ptable.publish, State.setState]
    exact .inr ⟨p, this ▸ hstacked⟩
  · have := (ht.embryo np).mpr ⟨q, Pc.target_of_stacked hq⟩
    simp [Ptable.publish, State.setState] at this

/-- One more assignment to a new entry that has its stack. -/
theorem assign (h : Ledger s) (ht : Shape t) (hw : Written s t p np) {kind : Kind} {c : Pc}
    (hne : (s.proc np).state ≠ .unused) (hc : c.stacked = some (np, kind))
    (hcs : (s.pc p).stacked = c.stacked) (htc : t.pc p = c) (hlog : t.log = s.log)
    (hpid : (t.proc np).pid = (s.proc np).pid) (hkstack : (t.proc np).kstack = (s.proc np).kstack) :
    Ledger t := by
  have hcl : c.stackless = none := by
    cases c with
    | forking _ next | cloning _ next => cases next <;> simp_all [Pc.stacked, Pc.stackless]
    | _ => rfl
  refine h.written hw hlog hne hpid (fun kind hb => ⟨?_, hkstack⟩) (htc ▸ hcl)
  rw [born_embryo ht (htc ▸ Pc.target_of_stacked hc), htc, ← hcs] at hb
  exact .inr ⟨p, hb⟩

theorem forkStep (h : Ledger s) (hshape : Shape s) (ht : Shape t) {pg : Page} {next : ForkStage}
    (hpc : s.pc p = .forking np next) (hs : Ptable.forkStep s p np pg next = some t) :
    Ledger t := by
  have htgt : (s.pc p).target = some np := by rw [hpc]; rfl
  have hnp := (hshape.embryo np).mpr ⟨p, htgt⟩
  have hne : (s.proc np).state ≠ .unused := by
    rw [hnp]
    decide
  have hw := forkStep_written hnp hs
  cases next with
  | kstack => exact h.allocStack hshape ht (by rw [hpc]; rfl) rfl hs
  | state =>
    obtain rfl := Option.some.inj hs
    have hflag := hshape.flag p np false (by rw [hpc]; rfl)
    exact h.publish hshape ht .fork (by rw [hpc]; rfl) (by rw [hflag]; rfl)
  | pgdir =>
    rcases ite_eq_some.mp hs with ⟨-, hs⟩ | ⟨-, hs⟩
    case inr => cases hs
    rcases ite_eq_some.mp hs with ⟨-, hs⟩ | ⟨-, hs⟩
    · obtain rfl := Option.some.inj hs
      have hinit : np ≠ initproc := by
        rintro rfl
        have := hshape.init.1
        rw [hnp] at this
        cases this
      refine h.free hshape .fork [] hinit (.inr ⟨p, by rw [hpc]; rfl⟩) rfl rfl rfl
        nofun nofun rfl (by simp) (fun j hj => by simp [hj]) (fun j kind hb => ?_) fun q k hq => ?_
      · have hj : j ≠ np := by
          rintro rfl
          exact absurd (by simp) (hb.ne_unused ht)
        exact ⟨hj, hw.born hj hb⟩
      · have hqp : q ≠ p := by
          rintro rfl
          simp [Pc.stackless] at hq
        have hq : (s.pc q).stackless = some k := by simpa [hqp] using hq
        exact ⟨fun e => hqp (hshape.unique q p np (e ▸ Pc.target_of_stackless hq) htgt), hq⟩
    · obtain rfl := Option.some.inj hs
      exact h.assign ht hw (c := .forking np .sz) hne rfl (by rw [hpc]; rfl) (by simp) rfl (by simp)
        (by simp)
  | sz | parent | isThread =>
    obtain rfl := Option.some.inj hs
    exact h.assign ht hw hne rfl (by rw [hpc]; rfl) (State.setPc_pc _ p p _ |>.trans (if_pos rfl)) rfl
      (by simp) (by simp)

theorem cloneStep (h : Ledger s) (hshape : Shape s) (ht : Shape t) {pg : Page} {next : CloneStage}
    (hpc : s.pc p = .cloning np next) (hs : Ptable.cloneStep s p np pg next = some t) :
    Ledger t := by
  have htgt : (s.pc p).target = some np := by rw [hpc]; rfl
  have hnp := (hshape.embryo np).mpr ⟨p, htgt⟩
  have hne : (s.proc np).state ≠ .unused := by
    rw [hnp]
    decide
  have hw := cloneStep_written hnp hs
  cases next with
  | kstack => exact h.allocStack hshape ht (by rw [hpc]; rfl) rfl hs
  | state =>
    obtain rfl := Option.some.inj hs
    have hflag := hshape.flag p np true (by rw [hpc]; rfl)
    exact h.publish hshape ht .clone (by rw [hpc]; rfl) (by rw [hflag]; rfl)
  | parent | sz | pgdir | isThread =>
    obtain rfl := Option.some.inj hs
    exact h.assign ht hw hne rfl (by rw [hpc]; rfl) (State.setPc_pc _ p p _ |>.trans (if_pos rfl)) rfl
      (by simp) (by simp)

theorem goto (h : Ledger s) {c : Pc} (hc : c.target = none) : Ledger (s.setPc p c) := by
  refine h.idle [] (by simp) nofun rfl (fun _ => ⟨rfl, rfl, rfl⟩) (fun _ => .inl rfl)
    (fun q x hq => ?_) fun q x hq => ?_
  all_goals
    rw [State.setPc_pc] at hq
    split at hq
  · rw [Pc.target_of_stacked hq] at hc
    cases hc
  · exact hq
  · rw [Pc.target_of_stackless hq] at hc
    cases hc
  · exact hq

/-- `wait` returns the pid of a process that is not a thread, `proc_join` that
of a thread. -/
theorem reap (h : Ledger s) (hshape : Shape s) {call : Reaper} (hz : (s.proc k).state = .zombie)
    (hcall : call = (kindOf (s.proc k).isThread).reaper) : Ledger (reap s call k) := by
  have ht : Shape (Ptable.reap s call k) := hshape.reap hz
  have hinit : k ≠ initproc := by
    rintro rfl
    have := hshape.init.1
    rw [hz] at this
    cases this
  refine h.free hshape (kindOf (s.proc k).isThread) _ hinit (.inl ⟨.inr hz, rfl⟩)
    (reap_log call) rfl rfl (fun e he => ?_) (fun call' pid kstack he => ?_) (by simp)
    (by simp [Proc.reaped]) (fun j hj => by simp [hj]) (fun j kind hb => ?_) fun q np hq => ?_
  · cases call with
    | wait => exact ⟨_, _, List.mem_singleton.mp he⟩
    | join => cases he
  · cases he
    exact ⟨rfl, hcall⟩
  · have hjk : j ≠ k := by
      rintro rfl
      exact absurd (by simp [Proc.reaped]) (hb.ne_unused ht)
    refine ⟨hjk, ?_⟩
    rcases hb with hb | ⟨q, hq⟩
    · exact .inl (by simpa [hjk] using hb)
    · exact .inr ⟨q, by simpa using hq⟩
  · have hqs : (s.pc q).stackless = some np := by simpa using hq
    refine ⟨?_, hqs⟩
    rintro rfl
    rw [(hshape.embryo np).mpr ⟨q, Pc.target_of_stackless hqs⟩] at hz
    cases hz

theorem exits (h : Ledger s) {ks : List Slot} (hp : live (s.proc p).state = true)
    (ht : Exits s p ks t) : Ledger t := by
  have swept {u : State} {pre : List Slot} (hu : Swept s p pre u) : Ledger u := by
    refine h.idle [] (by rw [hu.log, List.append_nil]) nofun hu.nextpid
      (fun k => by rw [hu.kept k]; exact ⟨rfl, rfl, rfl⟩) (fun k => ?_)
      (fun q x => by rw [hu.pc]; exact id) fun q x => by rw [hu.pc]; exact id
    rcases hu.state k with hs | ⟨hs, ht⟩
    · exact .inl hs
    · exact .inr ⟨by rw [hs]; rfl, by rw [ht]; decide⟩
  cases ht with
  | drop hu => exact (swept hu).goto rfl
  | @done u hu =>
    have hv := (swept hu).calm (wakeup1_calm u (chanOf (u.proc p).parent))
    have hp' : live ((wakeup1 u (chanOf (u.proc p).parent)).proc p).state = true := by
      rw [(wakeup1_calm _ _).live_eq, hu.live_eq, hp]
    have hz : Ledger ((wakeup1 u (chanOf (u.proc p).parent)).setState p .zombie) := by
      refine hv.idle [] (by simp [State.setState]) nofun rfl (fun k => ?_)
        (fun k => ?_) (fun _ _ => id) fun _ _ => id
      · rcases eq_or_ne k p with rfl | hk <;> simp_all [State.setState]
      · rcases eq_or_ne k p with rfl | hk
        · exact .inr ⟨hp', by simp [State.setState]⟩
        · exact .inl (by simp [State.setState, hk])
    exact hz.goto rfl

theorem move {l : Label} (h : Ledger s) (hshape : Shape s) (hbound : s.nextpid.toNat < 2 ^ 31)
    (hm : Move s l t) : Ledger t := by
  have ht := hshape.move hm
  cases hm with
  | calm hc => exact h.calm hc
  | create _ _ hnp hc => exact h.create hshape ht hbound hnp (hc.imp_left And.left) rfl
  | fork _ hpc hs => exact h.forkStep hshape ht hpc hs
  | clone _ hpc hs => exact h.cloneStep hshape ht hpc hs
  | @turn l p w u _ _ hp _ _ hcalm _ _ hturn =>
    have hu := h.calm hcalm
    cases hturn with
    | @reap k hk hz =>
      refine (hu.reap (hshape.calm hcalm) hz ?_).goto w.target_done
      cases w with
      | child =>
        simp only [Wait.looksAt, isChild, Bool.and_eq_true, Bool.not_eq_true'] at hk
        rw [hk.2]
        rfl
      | _ =>
        simp only [Wait.looksAt, isJoinable, Bool.and_eq_true] at hk
        rw [hk.1.1]
        rfl
    | fail => exact hu.goto w.target_done
    | sleep =>
      have hs : Ledger (sleep u p (.proc p)) := by
        refine hu.idle [] (by simp [sleep]) (by simp) rfl (fun k => ?_) (fun k => ?_)
          (fun _ _ => id) fun _ _ => id
        · rcases eq_or_ne k p with rfl | hk <;> simp_all [sleep]
        · rcases eq_or_ne k p with rfl | hk
          · exact .inr ⟨live_of_running hp, by simp [sleep]⟩
          · exact .inl (by simp [sleep, hk])
      exact hs.goto w.target_asleep
  | @advance l p c u _ hpc hcalm _ =>
    refine (h.calm hcalm).goto ?_
    generalize s.pc p = c' at hpc
    cases hpc <;> rfl
  | exit hp _ _ hx => exact h.exits (live_of_running hp) hx
  | resume hp _ hcalm _ hx => exact (h.calm hcalm).exits (live_of_running hp) hx
  | @commit p pg sz =>
    refine h.idle [.freevm p (s.proc p).pgdir] (by simp [Ptable.commit])
      (fun e he => ⟨_, _, List.mem_singleton.mp he⟩) rfl (fun k => ?_) (fun k => .inl ?_)
      (fun _ _ => id) fun _ _ => id
    all_goals rcases eq_or_ne k p with rfl | hk <;> simp_all [Ptable.commit]
  | @resize p n mem =>
    refine h.idle [] (List.append_nil _).symm (by simp) rfl (fun k => ?_) (fun k => .inl ?_)
      (fun _ _ => id) fun _ _ => id
    · rw [resize_kept]
      exact ⟨rfl, rfl, rfl⟩
    · rw [resize_kept]

end Ledger

theorem userinit_ledger {kstack pgdir : Page} : Ledger (userinit kstack pgdir) := by
  have hunused (k : Slot) (hk : k ≠ initproc) :
      ((userinit kstack pgdir).proc k).state = .unused := by
    simp [userinit, hk, bss]
  have hborn (k : Slot) {kind : Kind} (hk : k ≠ initproc) : ¬Born (userinit kstack pgdir) k kind :=
    fun hb => hb.ne_unused userinit_shape (hunused k hk)
  have hlog : (userinit kstack pgdir).log = [] := rfl
  refine ⟨fun k hk => ?_, fun j k hj hk _ => ?_, by simp [hlog, created],
    fun k kind hk hb => absurd hb (hborn k hk), by simp [hlog, created], List.nodup_nil,
    List.nodup_nil, by simp [hlog, freed], by simp [hlog]⟩
  · obtain rfl : k = initproc := by
      by_contra hne
      exact hk (hunused k hne)
    simp [userinit]
  · rw [show j = initproc by by_contra hne; exact hj (hunused j hne),
      show k = initproc by by_contra hne; exact hk (hunused k hne)]

end PerrOS.Ptable
