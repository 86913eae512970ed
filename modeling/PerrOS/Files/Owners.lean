import PerrOS.Files.Descriptors
import PerrOS.Lib.Shares

/-!
# What a process owns

A process owns references to files: one for each of its descriptors, between
its calls. It owns the end of a pipe between taking it out of a file and closing
it, and a file that it has allocated and not yet given a type. The rules say
how each action changes what the process owns.
-/

namespace PerrOS.Files

open Function (update)
open Lib (refs)

structure Owned where
  ofile : Fd → Option Fid
  share : Fid → Nat
  fresh : Fid → Bool
  /-- The fields that the process has read. -/
  knows : Fid → Option File
  ends : Addr × Bool → Bool

namespace Owned

variable (h : Owned) (f : Fid)

def setOfile (fd : Fd) (o : Option Fid) : Owned := { h with ofile := update h.ofile fd o }

/-- The first reference to a file. -/
def begin : Owned :=
  { h with
    share := update h.share f 1, fresh := update h.fresh f true, knows := update h.knows f none }

def dup : Owned := { h with share := update h.share f (h.share f + 1) }

def drop : Owned :=
  { h with
    share := update h.share f (h.share f - 1)
    fresh := update h.fresh f false
    knows := update h.knows f none }

def setEnd (e : Addr × Bool) (x : Bool) : Owned := { h with ends := update h.ends e x }

end Owned

/-- The file has got its type. -/
def Owned.settle (h : Owned) (f : Fid) : FType → Bool → Owned
  | .pipe a, writable => { h.setEnd (a, writable) false with fresh := update h.fresh f false }
  | _, _ => { h with fresh := update h.fresh f false }

/-- The last reference to the file is gone: its end of the pipe is left. -/
def Owned.take (h : Owned) (f : Fid) (ff : File) : Owned :=
  match ff.type with
  | .pipe a => (h.drop f).setEnd (a, ff.writable) true
  | _ => h.drop f

/-- One reference for each descriptor, and one for each of `fs`. -/
def Owned.Extra (h : Owned) (fs : List Fid) : Prop :=
  ∀ f, h.share f = refs h.ofile f + fs.count f

/-- Every file that the process can use has its type, and it holds no end of a pipe. -/
structure Owned.Settled (h : Owned) : Prop where
  fresh : ∀ f, h.fresh f = false
  ends : ∀ e, h.ends e = false

/-- Nothing but what the descriptors refer to. -/
structure Owned.Idle (h : Owned) : Prop where
  share : h.Extra []
  settled : h.Settled

/-- Nothing at all. -/
structure Owned.Empty (h : Owned) : Prop where
  share : ∀ f, h.share f = 0
  settled : h.Settled

variable {Proc : Type}

def pre (h : Owned) : Act Proc → Prop
  | .fields f | .fileclose f => 1 ≤ h.share f
  | .setFields f type readable writable => h.fresh f = true ∧ h.knows f = none ∧ type ≠ .none ∧
    ∀ a, type = .pipe a → readable = !writable ∧ h.ends (a, writable) = true
  | .filedup f => 1 ≤ h.share f ∧ h.fresh f = false
  | .pipeclose a writable => h.ends (a, writable) = true
  | .pipeio a writable => ∃ f ff, 1 ≤ h.share f ∧ h.knows f = some ff ∧ ff.type = .pipe a ∧
    ff.writable = writable
  | .spawn _ t => (∀ f, refs t f ≤ h.share f) ∧ ∀ f, h.fresh f = true → refs t f = 0
  | .exit => h.Empty
  | .panic _ => False
  | _ => True

def post (h : Owned) : (a : Act Proc) → Res a → Owned → Prop
  | .ofile, r, h' => r = h.ofile ∧ h' = h
  | .setOfile fd o, _, h' => h' = h.setOfile fd o
  | .filealloc, none, h' => h' = h
  | .filealloc, some f, h' => h.share f = 0 ∧ h' = h.begin f
  | .fields f, ff, h' => (h.fresh f = false → ff.type ≠ .none ∧
      ∀ a, ff.type = .pipe a → ff.readable = !ff.writable) ∧
    h' = { h with knows := update h.knows f (some ff) }
  | .setFields f type _ writable, _, h' => h' = h.settle f type writable
  | .filedup f, _, h' => h' = h.dup f
  | .fileclose f, none, h' => h' = h.drop f
  | .fileclose f, some ff, h' => (∀ a, ff.type = .pipe a → h.ends (a, ff.writable) = false) ∧
    h' = h.take f ff
  | .kalloc, none, h' => h' = h
  | .kalloc, some a, h' => h.ends (a, false) = false ∧ h.ends (a, true) = false ∧
    h' = (h.setEnd (a, false) true).setEnd (a, true) true
  | .pipeclose a writable, _, h' => h' = h.setEnd (a, writable) false
  | .spawn _ t, _, h' => h' = { h with share := fun f => h.share f - refs t f }
  | _, _, h' => h' = h

def rules : Lib.Rules (Act Proc) Res Owned := ⟨pre, post⟩

-- ---------------------------------------------------------------------------
-- References and descriptors
-- ---------------------------------------------------------------------------

namespace Owned

variable {h : Owned} {f g : Fid} {fd : Fd} {fs : List Fid}

theorem Extra.share_pos (hx : h.Extra fs) (hf : h.ofile fd = some f) : 1 ≤ h.share f := by
  have := (Lib.refs_pos_iff h.ofile f).mpr ⟨fd, hf⟩
  rw [hx f]
  omega

theorem Extra.perm {fs' : List Fid} (hx : h.Extra fs) (hp : fs.Perm fs') : h.Extra fs' := by
  intro g
  rw [← hp.count_eq]
  exact hx g

theorem Extra.begin (hx : h.Extra fs) (hf : h.share f = 0) : (h.begin f).Extra (f :: fs) := by
  intro g
  have hg := hx g
  by_cases he : g = f
  · subst he
    rw [hf] at hg
    simp only [Owned.begin, Function.update_self, List.count_cons_self]
    omega
  · simpa [Owned.begin, he, List.count_cons_of_ne (Ne.symm he)] using hg

theorem Extra.dup (hx : h.Extra fs) (f : Fid) : (h.dup f).Extra (f :: fs) := by
  intro g
  have hg := hx g
  by_cases he : g = f
  · subst he
    simp only [Owned.dup, Function.update_self, List.count_cons_self]
    omega
  · simpa [Owned.dup, he, List.count_cons_of_ne (Ne.symm he)] using hg

theorem Extra.drop (hx : h.Extra (f :: fs)) : (h.drop f).Extra fs := by
  intro g
  have hg := hx g
  by_cases he : g = f
  · subst he
    simp only [Owned.drop, Function.update_self]
    rw [List.count_cons_self] at hg
    omega
  · simpa [Owned.drop, he, List.count_cons_of_ne (Ne.symm he)] using hg

/-- A reference goes into a descriptor. -/
theorem Extra.install (hx : h.Extra (f :: fs)) (hfd : h.ofile fd = none) :
    (h.setOfile fd (some f)).Extra fs := by
  intro g
  have hg := hx g
  have hrefs := Lib.refs_update h.ofile fd (some f) g
  rw [hfd, if_neg nofun] at hrefs
  by_cases he : f = g
  · subst he
    rw [if_pos rfl] at hrefs
    rw [List.count_cons_self] at hg
    simp only [setOfile]
    omega
  · rw [if_neg (fun hs => he (Option.some.inj hs))] at hrefs
    rw [List.count_cons_of_ne he] at hg
    simp only [setOfile]
    omega

/-- A reference is taken out of a descriptor. -/
theorem Extra.remove (hx : h.Extra fs) (hfd : h.ofile fd = some f) :
    (h.setOfile fd none).Extra (f :: fs) := by
  intro g
  have hg := hx g
  have hrefs := Lib.refs_update h.ofile fd none g
  rw [hfd, if_neg (nofun : none ≠ some g)] at hrefs
  by_cases he : f = g
  · subst he
    rw [if_pos rfl] at hrefs
    rw [List.count_cons_self]
    simp only [setOfile]
    omega
  · rw [if_neg (fun hs => he (Option.some.inj hs))] at hrefs
    rw [List.count_cons_of_ne he]
    simp only [setOfile]
    omega

theorem Settled.drop (hs : h.Settled) (f : Fid) : (h.drop f).Settled := by
  refine ⟨fun g => ?_, hs.ends⟩
  by_cases he : g = f
  · simp [Owned.drop, he]
  · simpa [Owned.drop, he] using hs.fresh g

/-- A new file that is closed at once. -/
theorem Settled.begin_drop (hs : h.Settled) (f : Fid) : ((h.begin f).drop f).Settled := by
  refine ⟨fun g => ?_, hs.ends⟩
  by_cases he : g = f
  · simp [Owned.drop, he]
  · simpa [Owned.drop, Owned.begin, he] using hs.fresh g

/-- Two files are allocated, and both get their types or are closed. -/
theorem Settled.pair {fresh : Fid → Bool} (hfresh : ∀ f, fresh f = false) (f0 f1 f : Fid) :
    update (update (update (update fresh f0 true) f1 true) f0 false) f1 false f = false := by
  simp only [Function.update_apply, hfresh]
  split
  · rfl
  · split <;> rfl

/-- The end that `fileclose` takes out of a file and closes. -/
theorem take_close (hend : h.ends e = false) : (h.setEnd e true).setEnd e false = h := by
  simp [setEnd, ← hend]

end Owned

-- ---------------------------------------------------------------------------
-- The calls
-- ---------------------------------------------------------------------------

variable {h : Owned} {f : Fid} {fd : Fd} {fs : List Fid}

theorem wp_fdalloc {Q : Option Fd → Owned → Prop} (hnone : Q none h)
    (hsome : ∀ fd, h.ofile fd = none → Q (some fd) (h.setOfile fd (some f))) :
    (fdalloc f : Prog Proc _).Wp rules Q h := by
  refine Lib.Prog.wp_act.mpr ⟨trivial, ?_⟩
  rintro ofile h' ⟨rfl, rfl⟩
  split
  · rename_i fd hfind
    refine ⟨trivial, ?_⟩
    rintro _ _ rfl
    exact hsome fd (by simpa using List.find?_some hfind)
  · exact hnone

theorem wp_close {Q : Unit → Owned → Prop} (hf : 1 ≤ h.share f) (hQ : Q () (h.drop f)) :
    (close f : Prog Proc _).Wp rules Q h := by
  refine Lib.Prog.wp_act.mpr ⟨hf, ?_⟩
  rintro (_ | ff) h' hpost
  · obtain rfl := hpost
    exact hQ
  · obtain ⟨hend, rfl⟩ := hpost
    obtain ⟨ref, type, readable, writable⟩ := ff
    cases type with
    | none => exact hQ
    | pipe a =>
      refine ⟨Function.update_self .., ?_⟩
      rintro _ _ rfl
      have hclosed : ((h.drop f).setEnd (a, writable) true).setEnd (a, writable) false = h.drop f :=
        Owned.take_close (hend a rfl)
      rw [← hclosed] at hQ
      exact hQ
    | inode ip =>
      refine ⟨trivial, ?_⟩
      rintro _ _ rfl
      exact hQ

theorem wp_sysDup (hidle : h.Idle) (fd : Fd) :
    (sysDup fd : Prog Proc _).Wp rules (fun _ => Owned.Idle) h := by
  refine Lib.Prog.wp_act.mpr ⟨trivial, ?_⟩
  rintro ofile h ⟨rfl, rfl⟩
  split
  · exact hidle
  · rename_i f hf
    rw [Lib.Prog.wp_bind]
    refine wp_fdalloc hidle fun fd' hfd' => ?_
    refine ⟨⟨hidle.share.share_pos hf, hidle.settled.fresh f⟩, ?_⟩
    rintro _ _ rfl
    -- the reference might as well have been taken before
    exact ⟨(hidle.share.dup f).install hfd', hidle.settled.fresh, hidle.settled.ends⟩

theorem wp_sysClose (hidle : h.Idle) (fd : Fd) :
    (sysClose fd : Prog Proc _).Wp rules (fun _ => Owned.Idle) h := by
  refine Lib.Prog.wp_act.mpr ⟨trivial, ?_⟩
  rintro ofile h ⟨rfl, rfl⟩
  split
  · exact hidle
  · rename_i f hf
    refine Lib.Prog.wp_act.mpr ⟨trivial, ?_⟩
    rintro _ _ rfl
    rw [Lib.Prog.wp_bind]
    exact wp_close (hidle.share.share_pos hf)
      ⟨(hidle.share.remove hf).drop,
        Owned.Settled.drop (h := h.setOfile fd none) ⟨hidle.settled.fresh, hidle.settled.ends⟩ f⟩

theorem wp_sysOpen (hidle : h.Idle) (ip : Nat) (readable writable : Bool) :
    (sysOpen ip readable writable : Prog Proc _).Wp rules (fun _ => Owned.Idle) h := by
  refine Lib.Prog.wp_act.mpr ⟨trivial, ?_⟩
  rintro (_ | f) h' hpost
  · obtain rfl := hpost
    refine ⟨trivial, ?_⟩
    rintro _ _ rfl
    exact hidle
  · obtain ⟨hf, rfl⟩ := hpost
    have hextra := hidle.share.begin hf
    rw [Lib.Prog.wp_bind]
    refine wp_fdalloc ?_ fun fd hfd => ?_
    · dsimp only
      rw [Lib.Prog.wp_bind]
      refine wp_close (by simp [Owned.begin]) ⟨trivial, ?_⟩
      rintro _ _ rfl
      exact ⟨hextra.drop, hidle.settled.begin_drop f⟩
    · refine ⟨⟨?_, ?_, nofun, nofun⟩, ?_⟩
      · simp [Owned.setOfile, Owned.begin]
      · simp [Owned.setOfile, Owned.begin]
      rintro _ _ rfl
      refine ⟨hextra.install hfd, fun g => ?_, hidle.settled.ends⟩
      by_cases he : g = f
      · simp [Owned.settle, he]
      · simpa [Owned.settle, Owned.setOfile, Owned.begin, he] using hidle.settled.fresh g

/-- Two files of a new pipe that have no descriptors. -/
structure Owned.Piped (h : Owned) (f0 f1 : Fid) : Prop where
  share : h.Extra [f0, f1]
  settled : h.Settled

theorem wp_pipealloc (hidle : h.Idle) {Q : Option (Fid × Fid) → Owned → Prop}
    (hnone : ∀ h', h'.Idle → Q none h')
    (hsome : ∀ f0 f1 h', h'.Piped f0 f1 → Q (some (f0, f1)) h') :
    (pipealloc : Prog Proc _).Wp rules Q h := by
  refine Lib.Prog.wp_act.mpr ⟨trivial, ?_⟩
  rintro (_ | f0) h' hpost
  · obtain rfl := hpost
    exact hnone _ hidle
  obtain ⟨hf0, rfl⟩ := hpost
  have hx0 := hidle.share.begin hf0
  refine Lib.Prog.wp_act.mpr ⟨trivial, ?_⟩
  rintro (_ | f1) h' hpost
  · obtain rfl := hpost
    rw [Lib.Prog.wp_bind]
    exact wp_close (by simp [Owned.begin]) (hnone _ ⟨hx0.drop, hidle.settled.begin_drop f0⟩)
  obtain ⟨hf1, rfl⟩ := hpost
  have hne : f1 ≠ f0 := by
    rintro rfl
    simp [Owned.begin] at hf1
  have hx1 := hx0.begin hf1
  refine Lib.Prog.wp_act.mpr ⟨trivial, ?_⟩
  rintro (_ | a) h' hpost
  · obtain rfl := hpost
    rw [Lib.Prog.wp_bind]
    refine wp_close (by simp [Owned.begin, Ne.symm hne]) ?_
    rw [Lib.Prog.wp_bind]
    refine wp_close (by simp [Owned.begin, Owned.drop, hne]) (hnone _ ⟨?_, ?_⟩)
    · exact (hx1.perm (.swap ..)).drop.drop
    · exact ⟨Owned.Settled.pair hidle.settled.fresh f0 f1, hidle.settled.ends⟩
  · obtain ⟨-, -, rfl⟩ := hpost
    refine Lib.Prog.wp_act.mpr ⟨⟨?_, ?_, nofun, ?_⟩, ?_⟩
    · simp [Owned.setEnd, Owned.begin, Ne.symm hne]
    · simp [Owned.setEnd, Owned.begin, Ne.symm hne]
    · rintro _ ⟨⟩
      simp [Owned.setEnd]
    rintro _ _ rfl
    refine Lib.Prog.wp_act.mpr ⟨⟨?_, ?_, nofun, ?_⟩, ?_⟩
    · simp [Owned.settle, Owned.setEnd, Owned.begin, hne]
    · simp [Owned.settle, Owned.setEnd, Owned.begin]
    · rintro _ ⟨⟩
      simp [Owned.settle, Owned.setEnd]
    rintro _ _ rfl
    refine hsome f0 f1 _ ⟨hx1.perm (.swap ..),
      Owned.Settled.pair hidle.settled.fresh f0 f1, fun e => ?_⟩
    · obtain ⟨b, w⟩ := e
      have he := hidle.settled.ends (b, w)
      by_cases hb : b = a
      · subst hb
        cases w <;> simp [Owned.settle, Owned.setEnd]
      · simp [Owned.settle, Owned.setEnd, Owned.begin, hb, he]

theorem wp_sysPipe (hidle : h.Idle) :
    (sysPipe : Prog Proc _).Wp rules (fun _ => Owned.Idle) h := by
  rw [sysPipe, Lib.Prog.wp_bind]
  refine wp_pipealloc hidle (fun _ hidle => hidle) fun rf wf h hpiped => ?_
  have hpos {h : Owned} {f : Fid} {fs : List Fid} (hx : h.Extra (f :: fs)) : 1 ≤ h.share f := by
    rw [hx f, List.count_cons_self]
    omega
  dsimp only
  rw [Lib.Prog.wp_bind]
  refine wp_fdalloc ?_ fun fd0 hfd0 => ?_
  · dsimp only
    rw [Lib.Prog.wp_bind]
    refine wp_close (hpos hpiped.share) ?_
    rw [Lib.Prog.wp_bind]
    exact wp_close (hpos hpiped.share.drop)
      ⟨hpiped.share.drop.drop, (hpiped.settled.drop rf).drop wf⟩
  · have hx0 := hpiped.share.install hfd0
    dsimp only
    rw [Lib.Prog.wp_bind]
    refine wp_fdalloc ?_ fun fd1 hfd1 => ?_
    · refine Lib.Prog.wp_act.mpr ⟨trivial, ?_⟩
      rintro _ _ rfl
      have hx : ((h.setOfile fd0 (some rf)).setOfile fd0 none).Extra [rf, wf] :=
        hx0.remove (Function.update_self ..)
      rw [Lib.Prog.wp_bind]
      refine wp_close (hpos hx) ?_
      rw [Lib.Prog.wp_bind]
      refine wp_close (hpos hx.drop)
        ⟨hx.drop.drop, Owned.Settled.drop (Owned.Settled.drop ?_ rf) wf⟩
      exact ⟨hpiped.settled.fresh, hpiped.settled.ends⟩
    · exact ⟨hx0.install hfd1, hpiped.settled.fresh, hpiped.settled.ends⟩

/-- The loop of `piperead` or `pipewrite`. -/
theorem wp_pipeio {ff : File} {a : Addr} {Q : Unit → Owned → Prop} (hf : 1 ≤ h.share f)
    (hknows : h.knows f = some ff) (htype : ff.type = .pipe a) (n : Nat) (hQ : Q () h) :
    Lib.Prog.Wp rules (forM (List.range n) fun _ => perform (.pipeio a ff.writable) :
      Prog Proc PUnit) Q h := by
  refine (Lib.Prog.wp_forM (fun _ h' => h' = h) (fun _ _ h' he => ?_) rfl).mono
    fun _ _ he => he ▸ hQ
  subst he
  refine ⟨⟨f, ff, hf, hknows, htype, rfl⟩, ?_⟩
  rintro _ _ rfl
  rfl

/-- What a process reads of a file that it refers to. -/
theorem Owned.Idle.fields (hidle : h.Idle) (f : Fid) (ff : File) :
    Owned.Idle { h with knows := update h.knows f (some ff) } :=
  ⟨hidle.share, hidle.settled.fresh, hidle.settled.ends⟩

theorem wp_fileread (hidle : h.Idle) (hf : 1 ≤ h.share f) (n : Nat) :
    (fileread f n : Prog Proc _).Wp rules (fun _ => Owned.Idle) h := by
  refine Lib.Prog.wp_act.mpr ⟨hf, ?_⟩
  rintro ff h' ⟨htype, rfl⟩
  have hidle' := hidle.fields f ff
  obtain ⟨hnone, hpipe⟩ := htype (hidle.settled.fresh f)
  split
  · exact hidle'
  · rename_i hreadable
    split
    · rename_i a ha
      have hwritable : ff.writable = false := by simpa [hreadable] using (hpipe a ha).symm
      rw [Lib.Prog.wp_bind, ← hwritable]
      exact wp_pipeio (h := { h with knows := update h.knows f (some ff) }) hf
        (Function.update_self ..) ha n hidle'
    · exact hidle'
    · contradiction

theorem wp_filewrite (hidle : h.Idle) (hf : 1 ≤ h.share f) (n : Nat) :
    (filewrite f n : Prog Proc _).Wp rules (fun _ => Owned.Idle) h := by
  refine Lib.Prog.wp_act.mpr ⟨hf, ?_⟩
  rintro ff h' ⟨htype, rfl⟩
  have hidle' := hidle.fields f ff
  obtain ⟨hnone, hpipe⟩ := htype (hidle.settled.fresh f)
  split
  · exact hidle'
  · rename_i hwritable
    split
    · rename_i a ha
      rw [Lib.Prog.wp_bind, show true = ff.writable by simpa using hwritable]
      exact wp_pipeio (h := { h with knows := update h.knows f (some ff) }) hf
        (Function.update_self ..) ha n hidle'
    · exact hidle'
    · contradiction

theorem wp_sysRead (hidle : h.Idle) (fd : Fd) (n : Nat) :
    (sysRead fd n : Prog Proc _).Wp rules (fun _ => Owned.Idle) h := by
  refine Lib.Prog.wp_act.mpr ⟨trivial, ?_⟩
  rintro ofile h ⟨rfl, rfl⟩
  split
  · exact hidle
  · rename_i f hf
    exact wp_fileread hidle (hidle.share.share_pos hf) n

theorem wp_sysWrite (hidle : h.Idle) (fd : Fd) (n : Nat) :
    (sysWrite fd n : Prog Proc _).Wp rules (fun _ => Owned.Idle) h := by
  refine Lib.Prog.wp_act.mpr ⟨trivial, ?_⟩
  rintro ofile h ⟨rfl, rfl⟩
  split
  · exact hidle
  · rename_i f hf
    exact wp_filewrite hidle (hidle.share.share_pos hf) n

/-- A child gets a reference for each descriptor of its parent. -/
structure Owned.Copied (h : Owned) (child : Fd → Option Fid) : Prop where
  share : ∀ f, h.share f = refs h.ofile f + refs child f
  settled : h.Settled

theorem wp_copyOfile (hidle : h.Idle) : (copyOfile h.ofile : Prog Proc _).Wp rules
    (fun child h' => h'.Copied child) h := by
  refine (Lib.Prog.wp_foldlM (fun xs child h' => h'.ofile = h.ofile ∧ h'.Copied child ∧
    xs.Nodup ∧ ∀ fd ∈ xs, child fd = none) ?_ ?_).mono fun _ _ hc => hc.2.1
  · rintro fd xs child h' ⟨hofile, hcopied, hnodup, hnone⟩
    have hrest : ∀ fd' ∈ xs, child fd' = none := fun fd' hfd' => hnone fd' (by simp [hfd'])
    split
    · rename_i f hf
      refine Lib.Prog.wp_act.mpr ⟨⟨?_, hcopied.settled.fresh f⟩, ?_⟩
      · have := (Lib.refs_pos_iff h'.ofile f).mpr ⟨fd, hofile ▸ hf⟩
        rw [hcopied.share f]
        omega
      rintro _ _ rfl
      refine ⟨hofile, ⟨fun g => ?_, hcopied.settled.fresh, hcopied.settled.ends⟩,
        (List.nodup_cons.mp hnodup).2, fun fd' hfd' => ?_⟩
      · have hg := hcopied.share g
        have hrefs := Lib.refs_update child fd (some f) g
        rw [hnone fd (by simp), if_neg nofun] at hrefs
        by_cases he : f = g
        · subst he
          rw [if_pos rfl] at hrefs
          simp only [Owned.dup, Function.update_self]
          omega
        · rw [if_neg (fun hs => he (Option.some.inj hs))] at hrefs
          simp only [Owned.dup, Function.update_of_ne (Ne.symm he)]
          omega
      · have hne : fd' ≠ fd := fun he => (List.nodup_cons.mp hnodup).1 (he ▸ hfd')
        rw [Function.update_of_ne hne]
        exact hrest fd' hfd'
    · exact ⟨hofile, hcopied, (List.nodup_cons.mp hnodup).2, hrest⟩
  · refine ⟨rfl, ⟨fun f => ?_, hidle.settled⟩, List.nodup_finRange _, fun _ _ => rfl⟩
    have hf := hidle.share f
    rw [Lib.refs_none]
    simpa using hf

theorem wp_fork (hidle : h.Idle) (np : Proc) :
    (fork np : Prog Proc _).Wp rules (fun _ => Owned.Idle) h := by
  refine Lib.Prog.wp_act.mpr ⟨trivial, ?_⟩
  rintro ofile h ⟨rfl, rfl⟩
  rw [Lib.Prog.wp_bind]
  refine (wp_copyOfile hidle).mono fun child h' hcopied => ?_
  refine Lib.Prog.wp_act.mpr ⟨⟨fun f => ?_, fun f hf => ?_⟩, ?_⟩
  · rw [hcopied.share f]
    exact Nat.le_add_left ..
  · rw [hcopied.settled.fresh f] at hf
    cases hf
  rintro _ _ rfl
  refine ⟨fun f => ?_, hcopied.settled.fresh, hcopied.settled.ends⟩
  have hf := hcopied.share f
  simp only [List.count_nil]
  omega

theorem wp_exit (hidle : h.Idle) :
    (exit : Prog Proc _).Wp rules (fun _ => Owned.Idle) h := by
  rw [exit, Lib.Prog.wp_bind]
  refine (Lib.Prog.wp_forM (fun xs h' => h'.Idle ∧ ∀ fd ∉ xs, h'.ofile fd = none) ?_
    ⟨hidle, fun fd hfd => absurd (List.mem_finRange fd) hfd⟩).mono fun _ h' hclosed => ?_
  · rintro fd xs h' ⟨hidle, hnone⟩
    refine Lib.Prog.wp_act.mpr ⟨trivial, ?_⟩
    rintro ofile h ⟨rfl, rfl⟩
    split
    · rename_i f hf
      rw [Lib.Prog.wp_bind]
      refine wp_close (hidle.share.share_pos hf) ⟨trivial, ?_⟩
      rintro _ _ rfl
      have hsettled := hidle.settled.drop f
      refine ⟨⟨(hidle.share.remove hf).drop, hsettled.fresh, hsettled.ends⟩, fun fd' hfd' => ?_⟩
      by_cases he : fd' = fd
      · subst he
        exact Function.update_self ..
      · exact (Function.update_of_ne he ..).trans (hnone fd' (by simp [he, hfd']))
    · rename_i hf
      refine ⟨hidle, fun fd' hfd' => ?_⟩
      by_cases he : fd' = fd
      · rw [he, hf]
      · exact hnone fd' (by simp [he, hfd'])
  · obtain ⟨hidle, hnone⟩ := hclosed
    have hofile : h'.ofile = fun _ => none := funext fun fd => hnone fd (by simp)
    refine Lib.Prog.wp_act.mpr ⟨⟨fun f => ?_, hidle.settled⟩, ?_⟩
    · have hf := hidle.share f
      rwa [hofile, Lib.refs_none] at hf
    · rintro _ _ rfl
      exact hidle

theorem wp_body (hidle : h.Idle) (c : Call Proc) :
    c.body.Wp rules (fun _ => Owned.Idle) h := by
  cases c with
  | dup fd => exact wp_sysDup hidle fd
  | close fd => exact wp_sysClose hidle fd
  | openFile ip readable writable => exact wp_sysOpen hidle ip readable writable
  | pipe => exact wp_sysPipe hidle
  | read fd n => exact wp_sysRead hidle fd n
  | write fd n => exact wp_sysWrite hidle fd n
  | fork np => exact wp_fork hidle np
  | exit => exact wp_exit hidle

end PerrOS.Files
