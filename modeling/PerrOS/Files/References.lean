import PerrOS.Files.Owners

/-!
# Reference counts

The reference count of a file is the number of references that the processes
own. An end of a pipe is open as long as a file or a process has it, and at most
one has it.
-/

namespace PerrOS.Files

open Function (update)
open Lib (refs)

variable {Proc : Type} {s t : Shared Proc} {hs hs' : Proc → Owned} {h' : Owned} {p q : Proc}
  {f g : Fid} {x : File} {e : Addr × Bool} {a : Addr} {w : Bool}
  {owner : Addr × Bool → Option (Fid ⊕ Proc)} {o : Option (Fid ⊕ Proc)}

-- ---------------------------------------------------------------------------
-- Files
-- ---------------------------------------------------------------------------

/-- A file, and what the processes own of it. -/
structure FileOk [Fintype Proc] (x : File) (hs : Proc → Owned) (f : Fid) : Prop where
  ref : x.ref = ∑ p, (hs p).share f
  unused : x.ref = 0 → x.type = .none
  fresh : ∀ p, (hs p).fresh f = true → (hs p).share f = 1 ∧ x.ref = 1 ∧ x.type = .none
  typed : x.type = .none → x.ref = 0 ∨ ∃ p, (hs p).fresh f = true
  knows : ∀ p ff, (hs p).knows f = some ff → 1 ≤ (hs p).share f →
    x.type = ff.type ∧ x.writable = ff.writable
  pipes : ∀ a, x.type = .pipe a → x.readable = !x.writable

namespace FileOk

variable [Fintype Proc]

theorem share_le (h : FileOk x hs f) (p : Proc) : (hs p).share f ≤ x.ref := by
  rw [h.ref]
  exact Lib.share_le_sum (fun h : Owned => h.share f) hs p

/-- The processes own the same of the file. -/
theorem congr (h : FileOk x hs f) (hshare : ∀ q, (hs' q).share f = (hs q).share f)
    (hfresh : ∀ q, (hs' q).fresh f = (hs q).fresh f)
    (hknows : ∀ q, (hs' q).knows f = (hs q).knows f) : FileOk x hs' f where
  ref := by simp only [hshare, h.ref]
  unused := h.unused
  fresh q hq := by
    rw [hshare]
    exact h.fresh q (hfresh q ▸ hq)
  typed hx := (h.typed hx).imp_right fun ⟨q, hq⟩ => ⟨q, hfresh q ▸ hq⟩
  knows q ff hq hle := h.knows q ff (hknows q ▸ hq) (hshare q ▸ hle)
  pipes := h.pipes

variable [DecidableEq Proc]

/-- One process changes, and owns the same of the file. -/
theorem same (h : FileOk x hs f) (hshare : h'.share f = (hs p).share f)
    (hfresh : h'.fresh f = (hs p).fresh f) (hknows : h'.knows f = (hs p).knows f) :
    FileOk x (update hs p h') f := by
  refine h.congr (fun q => ?_) (fun q => ?_) (fun q => ?_) <;> by_cases he : q = p
  all_goals
    first
    | (subst he; rw [Function.update_self]; assumption)
    | rw [Function.update_of_ne he]

/-- Whoever has a file that is fresh is the only one that refers to it. -/
theorem share_eq_zero (h : FileOk x hs f) (hp : (hs p).fresh f = true) (hne : q ≠ p) :
    (hs q).share f = 0 := by
  obtain ⟨hshare, href, -⟩ := h.fresh p hp
  refine Lib.share_eq_zero (fun h : Owned => h.share f) hs hne ?_
  rw [← h.ref, href, hshare]

/-- Another process that refers to the file does not have it fresh. -/
theorem not_fresh (h : FileOk x hs f) (hp : 1 ≤ (hs p).share f) (hne : q ≠ p) :
    (hs q).fresh f = false := by
  rw [← Bool.not_eq_true]
  intro hq
  have := h.share_eq_zero hq (Ne.symm hne)
  omega

theorem ref_update (h : FileOk x hs f) (p : Proc) (h' : Owned) :
    ∑ q, (update hs p h' q).share f + (hs p).share f = x.ref + h'.share f := by
  rw [h.ref]
  exact Lib.sum_update (fun h : Owned => h.share f) hs p h'

theorem filealloc (h : FileOk x hs f) (href : x.ref = 0) (p : Proc) :
    FileOk { x with ref := 1 } (update hs p ((hs p).begin f)) f := by
  have hzero (q : Proc) : (hs q).share f = 0 := Nat.le_zero.mp (href ▸ h.share_le q)
  have hfresh (q : Proc) : (hs q).fresh f = false := by
    rw [← Bool.not_eq_true]
    intro hq
    have := (h.fresh q hq).1
    rw [hzero] at this
    cases this
  refine ⟨?_, nofun, fun q hq => ?_, fun _ => .inr ⟨p, by simp [Owned.begin]⟩,
    fun q ff hq hle => ?_,
    h.pipes⟩
  · have hsum := h.ref_update p ((hs p).begin f)
    rw [hzero, href] at hsum
    simpa [Owned.begin] using hsum.symm
  · by_cases he : q = p
    · subst he
      simpa [Owned.begin] using h.unused href
    · rw [Function.update_of_ne he, hfresh] at hq
      cases hq
  · by_cases he : q = p
    · subst he
      simp [Owned.begin] at hq
    · rw [Function.update_of_ne he, hzero] at hle
      cases hle

/-- A file gets its type. -/
theorem settle (h : FileOk x hs f) (hfresh : (hs p).fresh f = true)
    (hshare : h'.share f = (hs p).share f) (hfresh' : h'.fresh f = false)
    (hknows : h'.knows f = none) {type : FType} (htype : type ≠ .none) {readable writable : Bool}
    (hpipe : ∀ a, type = .pipe a → readable = !writable) :
    FileOk { x with type, readable, writable } (update hs p h') f := by
  obtain ⟨hshare', href, -⟩ := h.fresh p hfresh
  refine ⟨?_, fun h0 => ?_, fun q hq => ?_, fun hx => absurd hx htype, fun q ff hq hle => ?_, hpipe⟩
  · have hsum := h.ref_update p h'
    rw [hshare] at hsum
    exact (Nat.add_right_cancel hsum).symm
  · rw [href] at h0
    cases h0
  · by_cases he : q = p
    · subst he
      rw [Function.update_self, hfresh'] at hq
      cases hq
    · rw [Function.update_of_ne he] at hq
      have := h.share_eq_zero hq (Ne.symm he)
      omega
  · by_cases he : q = p
    · subst he
      rw [Function.update_self, hknows] at hq
      cases hq
    · rw [Function.update_of_ne he] at hle
      have := h.share_eq_zero hfresh he
      omega

theorem filedup (h : FileOk x hs f) (hp : 1 ≤ (hs p).share f) (hfresh : (hs p).fresh f = false) :
    FileOk { x with ref := x.ref + 1 } (update hs p ((hs p).dup f)) f := by
  have hnone (q : Proc) : (hs q).fresh f = false := by
    by_cases he : q = p
    · rw [he, hfresh]
    · exact h.not_fresh hp he
  refine ⟨?_, by simp, fun q hq => ?_, fun hx => ?_, fun q ff hq hle => ?_, h.pipes⟩
  · have hsum := h.ref_update p ((hs p).dup f)
    simp only [Owned.dup, Function.update_self] at hsum ⊢
    omega
  · by_cases he : q = p
    · subst he
      rw [Function.update_self] at hq
      exact (Bool.false_ne_true (hfresh.symm.trans hq)).elim
    · rw [Function.update_of_ne he, hnone] at hq
      cases hq
  · rcases h.typed hx with h0 | ⟨q, hq⟩
    · have := h.share_le p
      omega
    · rw [hnone] at hq
      cases hq
  · by_cases he : q = p
    · subst he
      rw [Function.update_self] at hq
      exact h.knows q ff hq hp
    · rw [Function.update_of_ne he] at hq hle
      exact h.knows q ff hq hle

/-- A reference is given up, and there are others. -/
theorem drop (h : FileOk x hs f) (hp : 1 ≤ (hs p).share f)
    (hshare : h'.share f = (hs p).share f - 1)
    (hfresh : h'.fresh f = false) (hknows : h'.knows f = none) (href : 1 < x.ref) :
    FileOk { x with ref := x.ref - 1 } (update hs p h') f := by
  have hnone (q : Proc) : (hs q).fresh f = false := by
    rw [← Bool.not_eq_true]
    intro hq
    have := (h.fresh q hq).2.1
    omega
  refine ⟨?_, fun h0 => ?_, fun q hq => ?_, fun hx => ?_, fun q ff hq hle => ?_, h.pipes⟩
  · have hsum := h.ref_update p h'
    simp only
    omega
  · simp only at h0
    omega
  · by_cases he : q = p
    · subst he
      rw [Function.update_self, hfresh] at hq
      cases hq
    · rw [Function.update_of_ne he, hnone] at hq
      cases hq
  · rcases h.typed hx with h0 | ⟨q, hq⟩
    · omega
    · rw [hnone] at hq
      cases hq
  · by_cases he : q = p
    · subst he
      rw [Function.update_self, hknows] at hq
      cases hq
    · rw [Function.update_of_ne he] at hq hle
      exact h.knows q ff hq hle

/-- The last reference is given up. -/
theorem last (h : FileOk x hs f) (hp : 1 ≤ (hs p).share f)
    (hshare : h'.share f = (hs p).share f - 1)
    (hfresh : h'.fresh f = false) (href : ¬ 1 < x.ref) :
    FileOk { x with ref := 0, type := .none } (update hs p h') f := by
  have hsum := h.ref_update p h'
  have hle := h.share_le p
  have hzero : ∑ q, (update hs p h' q).share f = 0 := by omega
  have hshare (q : Proc) : (update hs p h' q).share f = 0 :=
    Finset.sum_eq_zero_iff.mp hzero q (Finset.mem_univ q)
  refine ⟨hzero.symm, fun _ => rfl, fun q hq => ?_, fun _ => .inl rfl, fun q ff _ hle => ?_, nofun⟩
  · by_cases he : q = p
    · subst he
      rw [Function.update_self, hfresh] at hq
      cases hq
    · have := hshare q
      rw [Function.update_of_ne he] at hq this
      have := (h.fresh q hq).1
      omega
  · rw [hshare] at hle
    cases hle

/-- The process has read the fields of the file. -/
theorem fields (h : FileOk x hs f) (p : Proc) :
    FileOk x (update hs p { hs p with knows := update (hs p).knows f (some x) }) f := by
  refine ⟨?_, h.unused, fun q hq => ?_, fun hx => ?_, fun q ff hq hle => ?_, h.pipes⟩
  · have hsum := h.ref_update p { hs p with knows := update (hs p).knows f (some x) }
    exact (Nat.add_right_cancel hsum).symm
  · by_cases he : q = p
    · subst he
      simp only [Function.update_self] at hq ⊢
      exact h.fresh q hq
    · rw [Function.update_of_ne he] at hq ⊢
      exact h.fresh q hq
  · refine (h.typed hx).imp_right fun ⟨q, hq⟩ => ⟨q, ?_⟩
    by_cases he : q = p
    · subst he
      simpa using hq
    · rwa [Function.update_of_ne he]
  · by_cases he : q = p
    · subst he
      simp only [Function.update_self, Option.some.injEq] at hq
      subst hq
      exact ⟨rfl, rfl⟩
    · rw [Function.update_of_ne he] at hq hle
      exact h.knows q ff hq hle

/-- A child that owned nothing gets some of the references of its parent. -/
theorem spawn (h : FileOk x hs f) {np : Proc} {tbl : Fd → Option Fid} {child : Owned}
    (hne : np ≠ p) (hempty : (hs np).Empty) (hle : refs tbl f ≤ (hs p).share f)
    (hfresh : (hs p).fresh f = true → refs tbl f = 0) (hchild : child.share f = refs tbl f)
    (hfresh' : child.fresh f = false) (hknows' : child.knows f = none)
    (hshare : h'.share f = (hs p).share f - refs tbl f) (hsame : h'.fresh f = (hs p).fresh f)
    (hknows : h'.knows f = (hs p).knows f) :
    FileOk x (update (update hs p h') np child) f := by
  have hother {q : Proc} (hq : q ≠ np) : update (update hs p h') np child q = update hs p h' q :=
    Function.update_of_ne hq ..
  refine ⟨?_, h.unused, fun q hq => ?_, fun hx => ?_, fun q ff hq hle => ?_, h.pipes⟩
  · have hsum := Lib.sum_update (fun h : Owned => h.share f) (update hs p h') np child
    have hsum' := h.ref_update p h'
    have hzero := hempty.share f
    simp only [Function.update_of_ne hne] at hsum
    omega
  · by_cases he : q = np
    · rw [he, Function.update_self, hfresh'] at hq
      cases hq
    · rw [hother he] at hq ⊢
      by_cases he' : q = p
      · subst he'
        rw [Function.update_self] at hq ⊢
        rw [hsame] at hq
        rw [hshare, hfresh hq]
        exact h.fresh q hq
      · rw [Function.update_of_ne he'] at hq ⊢
        exact h.fresh q hq
  · refine (h.typed hx).imp_right fun ⟨q, hq⟩ => ⟨q, ?_⟩
    have he : q ≠ np := by
      rintro rfl
      exact absurd ((hempty.settled.fresh f).symm.trans hq) nofun
    rw [hother he]
    by_cases he' : q = p
    · subst he'
      rw [Function.update_self, hsame, hq]
    · rw [Function.update_of_ne he', hq]
  · by_cases he : q = np
    · rw [he, Function.update_self, hknows'] at hq
      cases hq
    · rw [hother he] at hq hle
      by_cases he' : q = p
      · subst he'
        rw [Function.update_self] at hq hle
        exact h.knows q ff (hknows ▸ hq) (by omega)
      · rw [Function.update_of_ne he'] at hq hle
        exact h.knows q ff hq hle

end FileOk

-- ---------------------------------------------------------------------------
-- Ends of pipes
-- ---------------------------------------------------------------------------

/-- The end of a pipe that the file is. -/
def File.fileEnd (x : File) : Option (Addr × Bool) :=
  match x.type with
  | .pipe a => some (a, x.writable)
  | _ => none

theorem fileEnd_none (h : x.type = .none) : x.fileEnd = none := by
  rw [File.fileEnd, h]

def Ends.isOpen (ends : Ends) (writable : Bool) : Bool :=
  if writable then ends.writeopen else ends.readopen

/-- The end is not closed. -/
def openEnd (s : Shared Proc) (e : Addr × Bool) : Bool :=
  (s.pipe e.1).any fun ends => ends.isOpen e.2

theorem Ends.close_isOpen (ends : Ends) (w v : Bool) :
    ((ends.close w).any fun ends => ends.isOpen v) = if v = w then false else ends.isOpen v := by
  obtain ⟨readopen, writeopen⟩ := ends
  revert readopen writeopen w v
  decide

theorem Ends.close_kept {ends ends' : Ends} (h : ends.close w = some ends') :
    ends'.readopen = true ∨ ends'.writeopen = true := by
  rw [Ends.close] at h
  obtain ⟨hboth, he⟩ := Option.ite_none_left_eq_some.mp h
  cases he
  rw [Decidable.not_and_iff_or_not] at hboth
  simpa using hboth

/-- Who has each end that is not closed. -/
structure Owners (s : Shared Proc) (hs : Proc → Owned)
    (owner : Addr × Bool → Option (Fid ⊕ Proc)) : Prop where
  isOpen : ∀ e, openEnd s e = (owner e).isSome
  file : ∀ f e, (s.file f).fileEnd = some e ↔ owner e = some (.inl f)
  proc : ∀ p e, (hs p).ends e = true ↔ owner e = some (.inr p)
  /-- The page is freed with its last end. -/
  kept : ∀ a ends, s.pipe a = some ends → ends.readopen = true ∨ ends.writeopen = true

namespace Owners

theorem congr (h : Owners s hs owner) (hpipe : t.pipe = s.pipe)
    (hfile : ∀ f, (t.file f).fileEnd = (s.file f).fileEnd)
    (hends : ∀ q, (hs' q).ends = (hs q).ends) : Owners t hs' owner where
  isOpen e := by rw [openEnd, hpipe, ← h.isOpen, openEnd]
  file f e := by rw [hfile, h.file]
  proc q e := by rw [hends, h.proc]
  kept a ends := by
    rw [hpipe]
    exact h.kept a ends

/-- One end changes hands, is opened or is closed. -/
theorem move (h : Owners s hs owner) (e : Addr × Bool) (o : Option (Fid ⊕ Proc))
    (hopen : ∀ e', openEnd t e' = if e' = e then o.isSome else openEnd s e')
    (hfile : ∀ f e', e' ≠ e → ((t.file f).fileEnd = some e' ↔ (s.file f).fileEnd = some e'))
    (hfile' : ∀ f, (t.file f).fileEnd = some e ↔ o = some (.inl f))
    (hends : ∀ q e', e' ≠ e → (hs' q).ends e' = (hs q).ends e')
    (hends' : ∀ q, (hs' q).ends e = true ↔ o = some (.inr q))
    (hkept : ∀ a ends, t.pipe a = some ends → ends.readopen = true ∨ ends.writeopen = true) :
    Owners t hs' (update owner e o) := by
  refine ⟨fun e' => ?_, fun f e' => ?_, fun q e' => ?_, hkept⟩
  · rw [hopen]
    by_cases he : e' = e
    · simp [he]
    · rw [if_neg he, Function.update_of_ne he, h.isOpen]
  · by_cases he : e' = e
    · rw [he, Function.update_self, hfile']
    · rw [Function.update_of_ne he, hfile f e' he, h.file]
  · by_cases he : e' = e
    · rw [he, Function.update_self, hends']
    · rw [Function.update_of_ne he, hends q e' he, h.proc]

variable [DecidableEq Proc]

/-- A process gives its end to a file, which had none. -/
theorem give (h : Owners s hs owner) (hp : (hs p).ends e = true)
    (hfile : t.file = update s.file f x) (hold : (s.file f).fileEnd = none)
    (hx : x.fileEnd = some e) (hpipe : t.pipe = s.pipe)
    (hends : h'.ends = update (hs p).ends e false) :
    Owners t (update hs p h') (update owner e (some (.inl f))) := by
  have howner := (h.proc p e).mp hp
  have hopen (e' : Addr × Bool) : openEnd t e' = openEnd s e' := by
    rw [openEnd, hpipe, openEnd]
  refine h.move e _ (fun e' => ?_) (fun g e' he => ?_) (fun g => ?_) (fun q e' he => ?_)
    (fun q => ?_)
    (hpipe ▸ h.kept)
  · rw [hopen]
    split
    · rename_i he
      rw [he, h.isOpen, howner]
      rfl
    · rfl
  · rw [hfile]
    by_cases hg : g = f
    · subst hg
      rw [Function.update_self, hx, hold]
      simp [Ne.symm he]
    · rw [Function.update_of_ne hg]
  · rw [hfile]
    by_cases hg : g = f
    · subst hg
      simp [hx]
    · rw [Function.update_of_ne hg, h.file, howner]
      simp [Ne.symm hg]
  · by_cases hq : q = p
    · subst hq
      rw [Function.update_self, hends, Function.update_of_ne he]
    · rw [Function.update_of_ne hq]
  · by_cases hq : q = p
    · subst hq
      simp [hends]
    · rw [Function.update_of_ne hq, h.proc, howner]
      simp [Ne.symm hq]

/-- A process takes the end out of a file. -/
theorem takeOut (h : Owners s hs owner) (hf : (s.file f).fileEnd = some e)
    (hfile : t.file = update s.file f x) (hx : x.fileEnd = none) (hpipe : t.pipe = s.pipe)
    (hends : h'.ends = update (hs p).ends e true) :
    Owners t (update hs p h') (update owner e (some (.inr p))) := by
  have howner := (h.file f e).mp hf
  have hopen (e' : Addr × Bool) : openEnd t e' = openEnd s e' := by
    rw [openEnd, hpipe, openEnd]
  refine h.move e _ (fun e' => ?_) (fun g e' he => ?_) (fun g => ?_) (fun q e' he => ?_)
    (fun q => ?_)
    (hpipe ▸ h.kept)
  · rw [hopen]
    split
    · rename_i he
      rw [he, h.isOpen, howner]
      rfl
    · rfl
  · rw [hfile]
    by_cases hg : g = f
    · subst hg
      rw [Function.update_self, hx, hf]
      simp [Ne.symm he]
    · rw [Function.update_of_ne hg]
  · rw [hfile]
    by_cases hg : g = f
    · subst hg
      simp [hx]
    · rw [Function.update_of_ne hg, h.file, howner]
      simp [Ne.symm hg]
  · by_cases hq : q = p
    · subst hq
      rw [Function.update_self, hends, Function.update_of_ne he]
    · rw [Function.update_of_ne hq]
  · by_cases hq : q = p
    · subst hq
      simp [hends]
    · rw [Function.update_of_ne hq, h.proc, howner]
      simp [Ne.symm hq]

/-- A process changes that has the same ends. -/
theorem same (h : Owners s hs owner) (hpipe : t.pipe = s.pipe)
    (hfile : ∀ f, (t.file f).fileEnd = (s.file f).fileEnd) (hends : h'.ends = (hs p).ends) :
    Owners t (update hs p h') owner := by
  refine h.congr hpipe hfile fun q => ?_
  by_cases he : q = p
  · subst he
    rw [Function.update_self, hends]
  · rw [Function.update_of_ne he]

theorem kalloc (h : Owners s hs owner) (ha : s.pipe a = none) (hfile : t.file = s.file)
    (hpipe : t.pipe = update s.pipe a (some ⟨true, true⟩))
    (hends : h'.ends = update (update (hs p).ends (a, false) true) (a, true) true) :
    Owners t (update hs p h') fun e => if e.1 = a then some (.inr p) else owner e := by
  have hnone (w : Bool) : owner (a, w) = none := by
    have hopen := h.isOpen (a, w)
    rw [openEnd, ha] at hopen
    simpa using hopen.symm
  refine ⟨fun ⟨b, w⟩ => ?_, fun f ⟨b, w⟩ => ?_, fun q ⟨b, w⟩ => ?_, fun b ends hb => ?_⟩
  · by_cases hb : b = a
    · subst hb
      cases w <;> simp [openEnd, hpipe, Ends.isOpen]
    · rw [openEnd, hpipe, Function.update_of_ne hb, if_neg hb, ← h.isOpen, openEnd]
  · rw [hfile, h.file]
    by_cases hb : b = a
    · subst hb
      simp [hnone]
    · rw [if_neg hb]
  · by_cases hb : b = a
    · subst hb
      by_cases hq : q = p
      · subst hq
        cases w <;> simp [hends]
      · have hproc := h.proc q (b, w)
        rw [hnone] at hproc
        simpa [Function.update_of_ne hq, Ne.symm hq] using hproc
    · by_cases hq : q = p
      · subst hq
        simpa [hends, hb] using h.proc q (b, w)
      · simpa [Function.update_of_ne hq, hb] using h.proc q (b, w)
  · rw [hpipe] at hb
    by_cases he : b = a
    · subst he
      rw [Function.update_self] at hb
      cases hb
      exact .inl rfl
    · rw [Function.update_of_ne he] at hb
      exact h.kept b ends hb

theorem pipeclose (h : Owners s hs owner) (hp : (hs p).ends (a, w) = true) (hfile : t.file = s.file)
    (hpipe : t.pipe = update s.pipe a ((s.pipe a).bind fun ends => ends.close w))
    (hends : h'.ends = update (hs p).ends (a, w) false) :
    Owners t (update hs p h') (update owner (a, w) none) := by
  have howner := (h.proc p (a, w)).mp hp
  have hopen : openEnd s (a, w) = true := by rw [h.isOpen, howner]; rfl
  obtain ⟨ends, hs'⟩ : ∃ ends, s.pipe a = some ends := by
    cases hs' : s.pipe a with
    | none =>
      rw [openEnd, hs'] at hopen
      cases hopen
    | some ends => exact ⟨ends, rfl⟩
  rw [hs', Option.bind_some] at hpipe
  refine h.move (a, w) none (fun ⟨b, v⟩ => ?_) (fun f e' _ => by rw [hfile]) (fun f => ?_)
    (fun q e' he => ?_) (fun q => ?_) fun b e' hb => ?_
  · rw [openEnd, hpipe]
    by_cases hb : b = a
    · subst hb
      rw [Function.update_self, Ends.close_isOpen, openEnd, hs']
      simp
    · simp [hb, openEnd]
  · rw [hfile, h.file, howner]
    simp
  · by_cases hq : q = p
    · subst hq
      rw [Function.update_self, hends, Function.update_of_ne he]
    · rw [Function.update_of_ne hq]
  · by_cases hq : q = p
    · subst hq
      simp [hends]
    · rw [Function.update_of_ne hq, h.proc, howner]
      simp [Ne.symm hq]
  · rw [hpipe] at hb
    by_cases he : b = a
    · subst he
      rw [Function.update_self] at hb
      exact Ends.close_kept hb
    · rw [Function.update_of_ne he] at hb
      exact h.kept b e' hb

end Owners

-- ---------------------------------------------------------------------------
-- The invariant
-- ---------------------------------------------------------------------------

variable [Fintype Proc] [DecidableEq Proc]

structure Inv (s : Shared Proc) (hs : Proc → Owned) : Prop where
  files : ∀ f, FileOk (s.file f) hs f
  owners : ∃ owner, Owners s hs owner
  ofile : ∀ p, (hs p).ofile = s.ofile p
  panicked : s.panicked = none
  dead : ∀ p, s.running p = false → (hs p).Empty

namespace Inv

omit [DecidableEq Proc] in
theorem init (h : Initial s) : ∃ hs, Inv s hs ∧ ∀ p, (hs p).Idle := by
  let empty : Owned := ⟨fun _ => none, fun _ => 0, fun _ => false, fun _ => none, fun _ => false⟩
  refine ⟨fun _ => empty,
    ⟨fun f => ⟨?_, fun _ => h.type f, nofun, fun _ => .inl (h.ref f), nofun, ?_⟩,
    ⟨fun _ => none, ?_⟩, fun p => funext fun fd => (h.ofile p fd).symm, h.panicked,
    fun p _ => ⟨fun _ => rfl, fun _ => rfl, fun _ => rfl⟩⟩,
    fun p => ⟨fun f => ?_, fun _ => rfl, fun _ => rfl⟩⟩
  · rw [h.ref]
    simp [empty]
  · intro a ha
    rw [h.type] at ha
    cases ha
  · refine ⟨fun e => by simp [openEnd, h.pipe], fun f e => ?_, fun _ _ => ⟨nofun, nofun⟩,
      fun a ends ha => ?_⟩
    · rw [fileEnd_none (h.type f)]
      exact ⟨nofun, nofun⟩
    · rw [h.pipe] at ha
      cases ha
  · simp [empty]

/-- One process changes what it owns. -/
theorem step (h : Inv s hs) (hfiles : ∀ f, FileOk (t.file f) (update hs p h') f)
    (howners : ∃ owner, Owners t (update hs p h') owner)
    (hofile : h'.ofile = t.ofile p) (hothers : ∀ q, q ≠ p → t.ofile q = s.ofile q)
    (hpanicked : t.panicked = none) (hdead : ∀ q, q ≠ p → t.running q = s.running q)
    (hp : t.running p = true ∨ h'.Empty) : Inv t (update hs p h') := by
  refine ⟨hfiles, howners, fun q => ?_, hpanicked, fun q hq => ?_⟩
  · by_cases he : q = p
    · subst he
      rw [Function.update_self, hofile]
    · rw [Function.update_of_ne he, h.ofile, hothers q he]
  · by_cases he : q = p
    · subst he
      rw [Function.update_self]
      exact hp.resolve_left (by simp [hq])
    · rw [Function.update_of_ne he]
      exact h.dead q ((hdead q he).symm.trans hq)

/-- One file changes. -/
theorem files_update (h : Inv s hs) (hself : FileOk x (update hs p h') f)
    (hother : ∀ g, g ≠ f → h'.share g = (hs p).share g ∧ h'.fresh g = (hs p).fresh g ∧
      h'.knows g = (hs p).knows g) (g : Fid) :
    FileOk ((s.setFile f x).file g) (update hs p h') g := by
  by_cases he : g = f
  · subst he
    simpa [Shared.setFile] using hself
  · obtain ⟨hshare, hfresh, hknows⟩ := hother g he
    simpa [Shared.setFile, he] using (h.files g).same hshare hfresh hknows

omit [Fintype Proc] [DecidableEq Proc] in
theorem fileEnd_setFile (h : x.fileEnd = (s.file f).fileEnd) (g : Fid) :
    ((s.setFile f x).file g).fileEnd = (s.file g).fileEnd := by
  by_cases he : g = f
  · subst he
    simpa [Shared.setFile] using h
  · simp [Shared.setFile, he]

/-- What an action of `p` leaves. -/
def After (t : Shared Proc) (hs : Proc → Owned) (p : Proc) (a : Act Proc) (r : Res a) : Prop :=
  ∃ h', post (hs p) a r h' ∧ Inv t (update hs p h')

theorem setOfile (h : Inv s hs) (hp : s.running p = true) (fd : Fd) (o : Option Fid) :
    After { s with ofile := update s.ofile p (update (s.ofile p) fd o) } hs p
      (.setOfile fd o) () := by
  refine ⟨_, rfl, h.step (fun f => (h.files f).same rfl rfl rfl) ?_ ?_ ?_ h.panicked
    (fun _ _ => rfl)
    (.inl hp)⟩
  · obtain ⟨owner, howner⟩ := h.owners
    exact ⟨owner, howner.same rfl (fun _ => rfl) rfl⟩
  · simp [Owned.setOfile, h.ofile]
  · exact fun q hq => Function.update_of_ne hq ..

theorem filealloc (h : Inv s hs) (hp : s.running p = true) (hf : (s.file f).ref = 0) :
    After (s.setFile f { s.file f with ref := 1 }) hs p .filealloc (some f) := by
  refine ⟨_, ⟨Nat.le_zero.mp (hf ▸ (h.files f).share_le p), rfl⟩, h.step ?_ ?_ (h.ofile p)
    (fun _ _ => rfl) h.panicked (fun _ _ => rfl) (.inl hp)⟩
  · exact h.files_update ((h.files f).filealloc hf p) fun g hg => by simp [Owned.begin, hg]
  · obtain ⟨owner, howner⟩ := h.owners
    exact ⟨owner, howner.same rfl (fileEnd_setFile rfl) rfl⟩

theorem fields (h : Inv s hs) (hp : s.running p = true) (hf : 1 ≤ (hs p).share f) :
    After s hs p (.fields f) (s.file f) := by
  refine ⟨_, ⟨fun hfresh => ⟨fun htype => ?_, (h.files f).pipes⟩, rfl⟩, h.step (fun g => ?_) ?_
    (h.ofile p) (fun _ _ => rfl) h.panicked (fun _ _ => rfl) (.inl hp)⟩
  · rcases (h.files f).typed htype with h0 | ⟨q, hq⟩
    · have := (h.files f).share_le p
      omega
    · by_cases he : q = p
      · subst he
        exact absurd (hfresh.symm.trans hq) nofun
      · exact absurd (((h.files f).not_fresh hf he).symm.trans hq) nofun
  · by_cases he : g = f
    · subst he
      exact (h.files g).fields p
    · exact (h.files g).same rfl rfl (Function.update_of_ne he ..)
  · obtain ⟨owner, howner⟩ := h.owners
    exact ⟨owner, howner.same rfl (fun _ => rfl) rfl⟩

theorem setFields (h : Inv s hs) (hp : s.running p = true) {type : FType} {readable writable : Bool}
    (hpre : pre (hs p) (.setFields f type readable writable : Act Proc)) :
    After (s.setFile f { s.file f with type, readable, writable }) hs p
      (.setFields f type readable writable) () := by
  obtain ⟨hfresh, hknows, htype, hpipe⟩ := hpre
  have hnone : (s.file f).type = .none := ((h.files f).fresh p hfresh).2.2
  obtain ⟨owner, howner⟩ := h.owners
  have hother (g : Fid) (hg : g ≠ f) : ((hs p).settle f type writable).share g = (hs p).share g ∧
      ((hs p).settle f type writable).fresh g = (hs p).fresh g ∧
      ((hs p).settle f type writable).knows g = (hs p).knows g := by
    cases type <;> simp [Owned.settle, Owned.setEnd, hg]
  have hfile : FileOk { s.file f with type, readable, writable }
      (update hs p ((hs p).settle f type writable)) f := by
    refine (h.files f).settle hfresh ?_ ?_ ?_ htype fun a ha => (hpipe a ha).1
    · cases type <;> rfl
    · cases type <;> exact Function.update_self ..
    · cases type <;> exact hknows
  refine ⟨_, rfl, h.step (h.files_update hfile hother) ?_ ?_ (fun _ _ => rfl) h.panicked
    (fun _ _ => rfl) (.inl hp)⟩
  · cases type with
    | none => exact absurd rfl htype
    | pipe a =>
      exact ⟨_, howner.give (hpipe a rfl).2 rfl (fileEnd_none hnone) rfl rfl rfl⟩
    | inode ip => exact ⟨owner, howner.same rfl (fileEnd_setFile (fileEnd_none hnone).symm) rfl⟩
  · cases type <;> exact h.ofile p

theorem filedup (h : Inv s hs) (hp : s.running p = true) (hf : 1 ≤ (hs p).share f)
    (hfresh : (hs p).fresh f = false) : After (filedup s f) hs p (.filedup f) () := by
  have hle := (h.files f).share_le p
  rw [Files.filedup, if_neg (by omega)]
  refine ⟨_, rfl, h.step ?_ ?_ (h.ofile p) (fun _ _ => rfl) h.panicked (fun _ _ => rfl) (.inl hp)⟩
  · exact h.files_update ((h.files f).filedup hf hfresh) fun g hg => by simp [Owned.dup, hg]
  · obtain ⟨owner, howner⟩ := h.owners
    exact ⟨owner, howner.same rfl (fileEnd_setFile rfl) rfl⟩

theorem fileclose (h : Inv s hs) (hp : s.running p = true) (hf : 1 ≤ (hs p).share f) :
    After (Files.fileclose s f).2 hs p (.fileclose f) (Files.fileclose s f).1 := by
  have hle := (h.files f).share_le p
  obtain ⟨owner, howner⟩ := h.owners
  have hdrop (g : Fid) (hg : g ≠ f) : ((hs p).drop f).share g = (hs p).share g ∧
      ((hs p).drop f).fresh g = (hs p).fresh g ∧ ((hs p).drop f).knows g = (hs p).knows g := by
    simp [Owned.drop, hg]
  rw [Files.fileclose, if_neg (by omega)]
  by_cases href : (s.file f).ref - 1 > 0
  · rw [if_pos href]
    refine ⟨_, rfl, h.step (h.files_update ?_ hdrop)
      ⟨owner, howner.same rfl (fileEnd_setFile rfl) rfl⟩
      (h.ofile p) (fun _ _ => rfl) h.panicked (fun _ _ => rfl) (.inl hp)⟩
    exact (h.files f).drop hf (Function.update_self ..) (Function.update_self ..)
      (Function.update_self ..) (by omega)
  · rw [if_neg href]
    have htake (g : Fid) (hg : g ≠ f) : ((hs p).take f (s.file f)).share g = (hs p).share g ∧
        ((hs p).take f (s.file f)).fresh g = (hs p).fresh g ∧
        ((hs p).take f (s.file f)).knows g = (hs p).knows g := by
      rw [Owned.take]
      cases (s.file f).type <;> exact hdrop g hg
    have hfile : FileOk { s.file f with ref := 0, type := .none }
        (update hs p ((hs p).take f (s.file f))) f := by
      refine (h.files f).last hf ?_ ?_ (by omega) <;> rw [Owned.take] <;>
        cases (s.file f).type <;> exact Function.update_self ..
    refine ⟨(hs p).take f (s.file f), ⟨fun a ha => ?_, rfl⟩,
      h.step (h.files_update hfile htake) ?_ ?_
      (fun _ _ => rfl) h.panicked (fun _ _ => rfl) (.inl hp)⟩
    · -- the file has the end, so the process does not
      rw [← Bool.not_eq_true, howner.proc p]
      have hend := (howner.file f (a, (s.file f).writable)).mp (by rw [File.fileEnd, ha])
      rw [hend]
      simp
    · have hnone : File.fileEnd { s.file f with ref := 0, type := .none } = none := rfl
      cases htype : (s.file f).type with
      | none =>
        refine ⟨owner, howner.same rfl (fileEnd_setFile (fileEnd_none htype).symm) ?_⟩
        rw [Owned.take, htype]
        rfl
      | pipe a =>
        have hend : (s.file f).fileEnd = some (a, (s.file f).writable) := by
          rw [File.fileEnd, htype]
        refine ⟨_, howner.takeOut hend rfl hnone rfl ?_⟩
        rw [Owned.take, htype]
        rfl
      | inode ip =>
        have hend : (s.file f).fileEnd = none := by rw [File.fileEnd, htype]
        refine ⟨owner, howner.same rfl (fileEnd_setFile (hnone.trans hend.symm)) ?_⟩
        rw [Owned.take, htype]
        rfl
    · rw [Owned.take]
      cases (s.file f).type <;> exact h.ofile p

theorem kalloc (h : Inv s hs) (hp : s.running p = true) (ha : s.pipe a = none) :
    After { s with pipe := update s.pipe a (some ⟨true, true⟩) } hs p .kalloc (some a) := by
  obtain ⟨owner, howner⟩ := h.owners
  have hnone (w : Bool) : (hs p).ends (a, w) = false := by
    have hopen := howner.isOpen (a, w)
    rw [openEnd, ha] at hopen
    rw [← Bool.not_eq_true, howner.proc p]
    intro he
    rw [he] at hopen
    cases hopen
  exact ⟨_, ⟨hnone false, hnone true, rfl⟩, h.step (fun f => (h.files f).same rfl rfl rfl)
    ⟨_, howner.kalloc ha rfl rfl rfl⟩ (h.ofile p) (fun _ _ => rfl) h.panicked (fun _ _ => rfl)
    (.inl hp)⟩

theorem pipeclose (h : Inv s hs) (hp : s.running p = true) (hend : (hs p).ends (a, w) = true) :
    After { s with pipe := update s.pipe a ((s.pipe a).bind fun ends => ends.close w) } hs p
      (.pipeclose a w) () := by
  obtain ⟨owner, howner⟩ := h.owners
  exact ⟨_, rfl, h.step (fun f => (h.files f).same rfl rfl rfl)
    ⟨_, howner.pipeclose hend rfl rfl rfl⟩ (h.ofile p) (fun _ _ => rfl) h.panicked
    (fun _ _ => rfl) (.inl hp)⟩

/-- The process ends. -/
theorem exit (h : Inv s hs) (hempty : (hs p).Empty) :
    After { s with running := update s.running p false } hs p .exit () := by
  obtain ⟨owner, howner⟩ := h.owners
  exact ⟨_, rfl, h.step (fun f => (h.files f).same rfl rfl rfl)
    ⟨owner, howner.same rfl (fun _ => rfl) rfl⟩ (h.ofile p) (fun _ _ => rfl) h.panicked
    (fun q hq => Function.update_of_ne hq ..) (.inr hempty)⟩

/-- An action that changes nothing. -/
theorem stay (h : Inv s hs) {a : Act Proc} {r : Res a} (hpost : post (hs p) a r (hs p)) :
    After s hs p a r :=
  ⟨hs p, hpost, by rwa [Function.update_eq_self]⟩

/-- What a child owns. -/
def child (tbl : Fd → Option Fid) : Owned where
  ofile := tbl
  share := refs tbl
  fresh _ := false
  knows _ := none
  ends _ := false

theorem spawn (h : Inv s hs) (hp : s.running p = true) {np : Proc} {tbl : Fd → Option Fid}
    (hnp : s.running np = false) (hpre : pre (hs p) (.spawn np tbl)) :
    Inv { s with running := update s.running np true, ofile := update s.ofile np tbl }
      (update (update hs p { hs p with share := fun f => (hs p).share f - refs tbl f }) np
        (child tbl)) := by
  have hne : np ≠ p := by
    rintro rfl
    exact absurd (hp.symm.trans hnp) nofun
  have hempty := h.dead np hnp
  refine ⟨fun f => ?_, ?_, fun q => ?_, h.panicked, fun q hq => ?_⟩
  · exact (h.files f).spawn hne hempty (hpre.1 f) (hpre.2 f) rfl rfl rfl rfl rfl rfl
  · obtain ⟨owner, howner⟩ := h.owners
    refine ⟨owner, howner.congr rfl (fun _ => rfl) fun q => ?_⟩
    by_cases he : q = np
    · subst he
      rw [Function.update_self]
      exact funext fun e => (hempty.settled.ends e).symm
    · rw [Function.update_of_ne he]
      by_cases he' : q = p
      · subst he'
        rw [Function.update_self]
      · rw [Function.update_of_ne he']
  · by_cases he : q = np
    · subst he
      simp [child]
    · simp only [Function.update_of_ne he, ← h.ofile]
      by_cases he' : q = p
      · subst he'
        rw [Function.update_self]
      · rw [Function.update_of_ne he']
  · have he : q ≠ np := by
      rintro rfl
      simp at hq
    simp only [Function.update_of_ne he] at hq ⊢
    have he' : q ≠ p := by
      rintro rfl
      exact absurd (hp.symm.trans hq) nofun
    rw [Function.update_of_ne he']
    exact h.dead q hq

omit [Fintype Proc] [DecidableEq Proc] in
theorem child_idle (tbl : Fd → Option Fid) : (child tbl).Idle :=
  ⟨fun f => by simp [child], fun _ => rfl, fun _ => rfl⟩

end Inv

omit [Fintype Proc] [DecidableEq Proc] in
theorem filedup_running (s : Shared Proc) (f : Fid) : (filedup s f).running = s.running := by
  unfold filedup
  split <;> rfl

omit [Fintype Proc] [DecidableEq Proc] in
theorem fileclose_running (s : Shared Proc) (f : Fid) :
    (fileclose s f).2.running = s.running := by
  unfold fileclose
  split
  · rfl
  · split <;> rfl

/-- The rules are right for the open files. -/
def logic : (machine Proc).Logic rules where
  Inv := Inv
  Idle := Owned.Idle
  init s h := by
    obtain ⟨hs, hinv, hidle⟩ := Inv.init h
    exact ⟨hs, hinv, fun p _ => hidle p⟩
  call s hs p c hinv hmay hidle := wp_body hidle c
  act s hs p a r t hinv hmay hpre hexec := by
    have hp : s.running p = true := (Bool.and_eq_true_iff.mp hmay).1
    -- whoever runs afterwards ran before
    have hothers {h' : Owned} (ht : t.panicked = none) (q : Proc) (hq : q ≠ p)
        (hrun : t.running q = s.running q) :
        if (machine Proc).may s q then update hs p h' q = hs q
        else (machine Proc).may t q = true → (update hs p h' q).Idle := by
      split
      · exact Function.update_of_ne hq ..
      · rename_i hnot
        intro hmay
        have hsame : (machine Proc).may t q = (machine Proc).may s q := by
          simp [machine, hrun, ht, hinv.panicked]
        exact absurd (hsame.symm.trans hmay) hnot
    have hafter (h : Inv.After t hs p a r) (hrun : ∀ q, q ≠ p → t.running q = s.running q) :
        ∃ hs', Inv t hs' ∧ post (hs p) a r (hs' p) ∧ ∀ q, q ≠ p →
          if (machine Proc).may s q then hs' q = hs q
          else (machine Proc).may t q = true → (hs' q).Idle := by
      obtain ⟨h', hpost, hinv'⟩ := h
      exact ⟨_, hinv', by rwa [Function.update_self],
        fun q hq => hothers hinv'.panicked q hq (hrun q hq)⟩
    cases a with
    | ofile =>
      obtain ⟨rfl, rfl⟩ := hexec
      exact hafter (hinv.stay ⟨(hinv.ofile p).symm, rfl⟩) fun _ _ => rfl
    | setOfile fd o =>
      obtain rfl := hexec
      exact hafter (hinv.setOfile hp fd o) fun _ _ => rfl
    | filealloc =>
      obtain ⟨hr, rfl⟩ := hexec
      cases r with
      | none => exact hafter (hinv.stay rfl) fun _ _ => rfl
      | some f =>
        have href := List.find?_some hr.symm
        exact hafter (hinv.filealloc hp (by simpa using href)) fun _ _ => rfl
    | fields f =>
      obtain ⟨rfl, rfl⟩ := hexec
      exact hafter (hinv.fields hp hpre) fun _ _ => rfl
    | setFields f type readable writable =>
      obtain rfl := hexec
      exact hafter (hinv.setFields hp hpre) fun _ _ => rfl
    | filedup f =>
      obtain rfl := hexec
      exact hafter (hinv.filedup hp hpre.1 hpre.2) fun q _ => congrFun (filedup_running s f) q
    | fileclose f =>
      obtain ⟨rfl, rfl⟩ := Prod.mk.inj hexec
      exact hafter (hinv.fileclose hp hpre) fun q _ => congrFun (fileclose_running s f) q
    | kalloc =>
      cases r with
      | none =>
        obtain rfl := hexec
        exact hafter (hinv.stay rfl) fun _ _ => rfl
      | some a =>
        obtain ⟨ha, rfl⟩ := hexec
        exact hafter (hinv.kalloc hp ha) fun _ _ => rfl
    | pipeclose a w =>
      obtain rfl := hexec
      exact hafter (hinv.pipeclose hp hpre) fun _ _ => rfl
    | pipeio a w | iput ip =>
      obtain rfl := hexec
      exact hafter (hinv.stay rfl) fun _ _ => rfl
    | spawn np tbl =>
      obtain ⟨hnp, rfl⟩ := hexec
      have hne : np ≠ p := by
        rintro rfl
        exact absurd (hp.symm.trans hnp) nofun
      refine ⟨_, hinv.spawn hp hnp hpre, ?_, fun q hq => ?_⟩
      · rw [Function.update_of_ne (Ne.symm hne), Function.update_self]
        rfl
      · by_cases he : q = np
        · subst he
          rw [if_neg (by simp [machine, hnp]), Function.update_self]
          exact fun _ => Inv.child_idle tbl
        · rw [Function.update_of_ne he]
          exact hothers hinv.panicked q hq (Function.update_of_ne he ..)
    | exit =>
      obtain rfl := hexec
      exact hafter (hinv.exit hpre) fun q hq => Function.update_of_ne hq ..
    | panic msg => exact hpre.elim

-- ---------------------------------------------------------------------------
-- Results
-- ---------------------------------------------------------------------------

abbrev State (Proc : Type) := Lib.Threads.State (Act Proc) Res (Shared Proc) Proc

abbrev Label (Proc : Type) := Lib.Threads.Label (Act Proc) Res Proc (Call Proc)

variable {ls : List (Label Proc)} {σ : State Proc}

/-- Neither `filedup`, `fileclose` nor a read or write of a file without type panics. -/
theorem never_panics (h : (machine Proc).system.Run ls σ) : σ.shared.panicked = none := by
  obtain ⟨hs, hinv, -⟩ := logic.run_safe h
  exact hinv.panicked

/-- Where no process is inside a call. -/
def Quiet (σ : State Proc) : Prop := ∀ p, σ.shared.running p = true → ∃ n, σ.prog p = .ret n

omit [Fintype Proc] [DecidableEq Proc] in
theorem Owned.Idle.share_eq {h : Owned} (hidle : h.Idle) (f : Fid) :
    h.share f = refs h.ofile f := by
  have hf := hidle.share f
  rwa [List.count_nil, Nat.add_zero] at hf

/-- Between the calls, the reference count of a file is the number of descriptors of it in all the
processes. -/
theorem ref_eq_descriptors (h : (machine Proc).system.Run ls σ) (hquiet : Quiet σ) (f : Fid) :
    (σ.shared.file f).ref =
      ∑ p, if σ.shared.running p then refs (σ.shared.ofile p) f else 0 := by
  obtain ⟨hs, hinv, hidle⟩ := logic.safe_idle (logic.run_safe h) fun p hp =>
    hquiet p (Bool.and_eq_true_iff.mp hp).1
  rw [(hinv.files f).ref]
  refine Finset.sum_congr rfl fun p _ => ?_
  split
  · rename_i hp
    rw [(hidle p (by simp [machine, hp, hinv.panicked])).share_eq f, hinv.ofile]
  · rename_i hp
    exact (hinv.dead p (by simpa using hp)).share f

/-- Between the calls, an end of a pipe is open as long as a descriptor of some process refers to
it. -/
theorem open_iff_descriptor (h : (machine Proc).system.Run ls σ) (hquiet : Quiet σ) (a : Addr)
    (w : Bool) : openEnd σ.shared (a, w) = true ↔
      ∃ p fd f, σ.shared.running p = true ∧ σ.shared.ofile p fd = some f ∧
        (σ.shared.file f).fileEnd = some (a, w) := by
  obtain ⟨hs, hinv, hidle⟩ := logic.safe_idle (logic.run_safe h) fun p hp =>
    hquiet p (Bool.and_eq_true_iff.mp hp).1
  obtain ⟨owner, howner⟩ := hinv.owners
  have hends (p : Proc) : (hs p).ends (a, w) = false := by
    cases hp : σ.shared.running p with
    | true => exact (hidle p (by simp [machine, hp, hinv.panicked])).settled.ends _
    | false => exact (hinv.dead p hp).settled.ends _
  rw [howner.isOpen]
  constructor
  · intro hsome
    obtain ⟨o, ho⟩ := Option.isSome_iff_exists.mp hsome
    cases o with
    | inr p => exact absurd ((hends p).symm.trans ((howner.proc p _).mpr ho)) nofun
    | inl f =>
      have hend := (howner.file f _).mpr ho
      -- a file that has an end is referred to
      have href : (σ.shared.file f).ref ≠ 0 := fun h0 => by
        rw [fileEnd_none ((hinv.files f).unused h0)] at hend
        cases hend
      rw [ref_eq_descriptors h hquiet] at href
      obtain ⟨p, -, hp⟩ := Finset.exists_ne_zero_of_sum_ne_zero href
      split at hp
      · rename_i hrun
        obtain ⟨fd, hfd⟩ := (Lib.refs_pos_iff _ f).mp (Nat.pos_of_ne_zero hp)
        exact ⟨p, fd, f, hrun, hfd, hend⟩
      · exact absurd rfl hp
  · rintro ⟨p, fd, f, -, -, hend⟩
    rw [(howner.file f _).mp hend]
    rfl

/-- A process that is in `piperead` or `pipewrite` finds its end of the pipe open, and so the page
not freed. -/
theorem pipeio_open (h : (machine Proc).system.Run ls σ) {p : Proc} {a : Addr} {w : Bool}
    {k : Unit → Prog Proc Int} (hp : σ.shared.running p = true)
    (hprog : σ.prog p = .act (.pipeio a w) k) : openEnd σ.shared (a, w) = true := by
  have hsafe := logic.run_safe h
  obtain ⟨hs, hinv, hpre⟩ := logic.safe_pre hsafe (a := .pipeio a w)
    (by simp [machine, hp, never_panics h]) hprog
  obtain ⟨f, ff, hshare, hknows, htype, hwritable⟩ := hpre
  obtain ⟨htype', hwritable'⟩ := (hinv.files f).knows p ff hknows hshare
  obtain ⟨owner, howner⟩ := hinv.owners
  have hend : (σ.shared.file f).fileEnd = some (a, w) := by
    rw [File.fileEnd, htype', htype, hwritable', hwritable]
  rw [howner.isOpen, (howner.file f (a, w)).mp hend]
  rfl

-- ---------------------------------------------------------------------------
-- A pipe of one process
-- ---------------------------------------------------------------------------

/-- Two processes, of which the first is running. -/
def boot : Shared (Fin 2) where
  file _ := ⟨0, .none, false, false⟩
  ofile _ _ := none
  pipe _ := none
  running p := p.val = 0
  panicked := none

/-- The first process has the program `m` before it. -/
def alone (s : Shared (Fin 2)) (m : Prog (Fin 2) Int) : State (Fin 2) where
  shared := s
  prog p := if p.val = 0 then m else .ret 0

theorem alone_init : (machine (Fin 2)).system.Run [] (alone boot (.ret 0)) :=
  .init ⟨⟨fun _ => rfl, fun _ => rfl, fun _ _ => rfl, fun _ => rfl, rfl⟩, fun _ => ite_self _⟩

variable {s t : Shared (Fin 2)} {ls : List (Label (Fin 2))}

theorem alone_call (h : (machine (Fin 2)).system.Run ls (alone s (.ret n))) (c : Call (Fin 2))
    (hmay : (machine (Fin 2)).may s 0 = true) :
    (machine (Fin 2)).system.Run (ls ++ [.call 0 c]) (alone s c.body) := by
  have hprog : (alone s c.body).prog =
      update (alone s (.ret n)).prog 0 ((machine (Fin 2)).body c) := by
    funext q
    by_cases hq : q = 0
    · subst hq
      rfl
    · have hval : q.val ≠ 0 := fun h => hq (Fin.ext h)
      rw [Function.update_of_ne hq]
      exact (if_neg hval).trans (if_neg hval).symm
  have hs := h.step (.call c hmay rfl)
  rw [← hprog] at hs
  exact hs

theorem alone_act (a : Act (Fin 2)) (r : Res a) {k : Res a → Prog (Fin 2) Int}
    (h : (machine (Fin 2)).system.Run ls (alone s (.act a k)))
    (hmay : (machine (Fin 2)).may s 0 = true) (hexec : exec s 0 a r t) :
    (machine (Fin 2)).system.Run (ls ++ [.act 0 a r]) (alone t (k r)) := by
  have hprog : (alone t (k r)).prog = (machine (Fin 2)).resume (alone s (.act a k)) 0 (k r) := by
    funext q
    by_cases hq : q = 0
    · subst hq
      rfl
    · have hval : q.val ≠ 0 := fun h => hq (Fin.ext h)
      refine (if_neg hval).trans ((if_neg hq).trans ?_).symm
      split
      · exact if_neg hval
      · rfl
  have hs := h.step (.act hmay rfl hexec)
  rw [← hprog] at hs
  exact hs

/-- The first process makes a pipe. -/
theorem alone_pipe : ∃ ls s, (machine (Fin 2)).system.Run ls (alone s (.ret 0)) ∧
    s.running 0 = true ∧ s.panicked = none ∧
    s.ofile 0 1 = some 1 ∧ s.file 1 = ⟨1, .pipe 7, false, true⟩ := by
  have h := alone_call alone_init .pipe rfl
  have h := alone_act .filealloc (some 0) h rfl ⟨rfl, rfl⟩
  have h := alone_act .filealloc (some 1) h rfl ⟨rfl, rfl⟩
  have h := alone_act .kalloc (some 7) h rfl ⟨rfl, rfl⟩
  have h := alone_act (.setFields 0 (.pipe 7) true false) () h rfl rfl
  have h := alone_act (.setFields 1 (.pipe 7) false true) () h rfl rfl
  have h := alone_act .ofile (fun _ => none) h rfl ⟨rfl, rfl⟩
  have h := alone_act (.setOfile 0 (some 0)) () h rfl rfl
  have h := alone_act .ofile (update (fun _ => none) 0 (some 0)) h rfl ⟨rfl, rfl⟩
  have h := alone_act (.setOfile 1 (some 1)) () h rfl rfl
  exact ⟨_, _, h, rfl, rfl, rfl, rfl⟩

theorem alone_quiet : Quiet (alone s (.ret n)) := by
  intro p hp
  by_cases h0 : p.val = 0
  · exact ⟨n, if_pos h0⟩
  · exact ⟨0, if_neg h0⟩

theorem pipe_never_panics : ∃ ls s, (machine (Fin 2)).system.Run ls (alone s (.ret 0)) ∧
    s.ofile 0 1 = some 1 ∧ s.panicked = none := by
  obtain ⟨ls, s, h, -, -, hofile, -⟩ := alone_pipe
  exact ⟨ls, s, h, hofile, never_panics h⟩

theorem pipe_ref_eq : ∃ ls s, (machine (Fin 2)).system.Run ls (alone s (.ret 0)) ∧
    ∑ p, (if s.running p then refs (s.ofile p) 1 else 0) = 1 := by
  obtain ⟨ls, s, h, -, -, -, hfile⟩ := alone_pipe
  have href := ref_eq_descriptors h alone_quiet 1
  change (s.file 1).ref = _ at href
  rw [hfile] at href
  exact ⟨ls, s, h, href.symm⟩

theorem pipe_open : ∃ ls s, (machine (Fin 2)).system.Run ls (alone s (.ret 0)) ∧
    openEnd s (7, true) = true := by
  obtain ⟨ls, s, h, hrun, -, hofile, hfile⟩ := alone_pipe
  exact ⟨ls, s, h, (open_iff_descriptor h alone_quiet 7 true).mpr
    ⟨0, 1, 1, hrun, hofile, congrArg File.fileEnd hfile⟩⟩

/-- The process writes to its pipe. -/
theorem pipe_write_open : ∃ ls s k, (machine (Fin 2)).system.Run ls
    (alone s (.act (.pipeio 7 true) k)) ∧ openEnd s (7, true) = true := by
  obtain ⟨ls, s, h, hrun, hpanic, hofile, hfile⟩ := alone_pipe
  have hmay : (machine (Fin 2)).may s 0 = true := by
    simp [machine, hrun, hpanic]
  have h := alone_call h (.write 1 1) hmay
  have h := alone_act .ofile (s.ofile 0) h hmay ⟨rfl, rfl⟩
  simp only [Lib.Prog.bind, hofile] at h
  have h := alone_act (.fields 1) (s.file 1) h hmay ⟨rfl, rfl⟩
  simp only [hfile] at h
  exact ⟨_, _, _, h, pipeio_open h hrun rfl⟩

end PerrOS.Files
