import Mathlib.Data.Nat.Find
import Mathlib.Logic.Function.Basic

/-!
# Descriptor tables

The open files of a process, by descriptor. A call that opens something takes
the lowest descriptor that is free, so closing what it gave brings back the
table there was.
-/

namespace Lib

open Function (update)

/-- Finitely many descriptors are open. Open files are numbered, from `next` on they are new. -/
structure Descriptors where
  fd : Nat → Option Nat
  bound : Nat
  next : Nat
  closed : ∀ k, bound ≤ k → fd k = none
  used : ∀ k f, fd k = some f → f < next

namespace Descriptors

variable {t t' : Descriptors} {k k' f : Nat}

theorem exists_free (t : Descriptors) : ∃ k, t.fd k = none := ⟨t.bound, t.closed _ (Nat.le_refl _)⟩

/-- The lowest descriptor that is not open. -/
def free (t : Descriptors) : Nat := Nat.find t.exists_free

@[simp]
theorem fd_free (t : Descriptors) : t.fd t.free = none := Nat.find_spec t.exists_free

/-- The three standard streams. -/
def standard : Descriptors where
  fd k := if k < 3 then some k else none
  bound := 3
  next := 3
  closed k hk := if_neg (Nat.not_lt.mpr hk)
  used k f hf := by
    split at hf
    · cases hf
      assumption
    · cases hf

def set (t : Descriptors) (k f : Nat) : Descriptors where
  fd := update t.fd k (some f)
  bound := max t.bound (k + 1)
  next := max t.next (f + 1)
  closed j hj := by
    rw [Function.update_of_ne (by omega)]
    exact t.closed j (by omega)
  used j g hg := by
    by_cases hj : j = k
    · subst hj
      rw [Function.update_self, Option.some.injEq] at hg
      omega
    · rw [Function.update_of_ne hj] at hg
      have := t.used j g hg
      omega

def close (t : Descriptors) (k : Nat) : Descriptors where
  fd := update t.fd k none
  bound := t.bound
  next := t.next
  closed j hj := by
    by_cases hjk : j = k
    · rw [hjk, Function.update_self]
    · rw [Function.update_of_ne hjk]
      exact t.closed j hj
  used j g hg := by
    by_cases hjk : j = k
    · rw [hjk, Function.update_self] at hg
      cases hg
    · rw [Function.update_of_ne hjk] at hg
      exact t.used j g hg

@[simp] theorem set_fd (t : Descriptors) (k f : Nat) :
    (t.set k f).fd = update t.fd k (some f) := rfl

@[simp] theorem close_fd (t : Descriptors) (k : Nat) : (t.close k).fd = update t.fd k none := rfl

/-- A new descriptor for a file that is open. -/
def dup (t : Descriptors) (k : Nat) : Option (Nat × Descriptors) :=
  (t.fd k).map fun f => (t.free, t.set t.free f)

/-- `k'` is made another descriptor for the file of `k`, if there is one. -/
def dup2 (t : Descriptors) (k k' : Nat) : Descriptors :=
  match t.fd k with
  | none => t
  | some f => t.set k' f

/-- A new file. -/
def openFile (t : Descriptors) : Nat × Descriptors := (t.free, t.set t.free t.next)

/-- The two ends of a new pipe, the one to read from first. -/
def pipe (t : Descriptors) : (Nat × Nat) × Descriptors :=
  let r := t.openFile
  let w := r.2.openFile
  ((r.1, w.1), w.2)

/-- A new file under a descriptor of one's own choice. -/
def openAt (t : Descriptors) (k : Nat) : Descriptors :=
  let new := t.openFile
  (new.2.dup2 new.1 k).close new.1

theorem close_of_fd (h : t.fd k = none) : (t.close k).fd = t.fd := by
  rw [close_fd, Function.update_eq_self_iff, h]

theorem set_of_fd (h : t.fd k = some f) : (t.set k f).fd = t.fd := by
  rw [set_fd, Function.update_eq_self_iff, h]

theorem dup_eq_none : t.dup k = none ↔ t.fd k = none := by
  rw [dup, Option.map_eq_none_iff]

theorem dup2_none (h : t.fd k = none) : t.dup2 k k' = t := by
  rw [dup2, h]

theorem dup2_some (h : t.fd k = some f) : t.dup2 k k' = t.set k' f := by
  rw [dup2, h]

/-- What was free is free again once its new file is closed. -/
theorem close_set (h : t.fd k = none) (f : Nat) : ((t.set k f).close k).fd = t.fd := by
  rw [close_fd, set_fd, Function.update_idem, Function.update_eq_self_iff, h]

theorem close_openFile (t : Descriptors) : (t.openFile.2.close t.openFile.1).fd = t.fd :=
  close_set t.fd_free _

theorem close_congr (h : t.fd = t'.fd) (k : Nat) : (t.close k).fd = (t'.close k).fd := by
  rw [close_fd, close_fd, h]

theorem close_comm (t : Descriptors) (j k : Nat) :
    ((t.close j).close k).fd = ((t.close k).close j).fd := by
  by_cases h : j = k
  · rw [h]
  · exact Function.update_comm h ..

/-- Both ends of a pipe are closed. -/
def closeBoth (t : Descriptors) (p : Nat × Nat) : Descriptors := (t.close p.1).close p.2

theorem closeBoth_congr (h : t.fd = t'.fd) (p : Nat × Nat) :
    (t.closeBoth p).fd = (t'.closeBoth p).fd :=
  close_congr (close_congr h p.1) p.2

theorem closeBoth_comm (t : Descriptors) (p q : Nat × Nat) :
    ((t.closeBoth p).closeBoth q).fd = ((t.closeBoth q).closeBoth p).fd := by
  funext j
  simp only [closeBoth, close_fd, Function.update_apply]
  grind

/-- Then the table is the one before the pipe. -/
theorem closeBoth_pipe (t : Descriptors) : (t.pipe.2.closeBoth t.pipe.1).fd = t.fd := by
  rw [closeBoth, close_comm]
  exact (close_congr (close_openFile t.openFile.2) _).trans (close_openFile t)

/-- Of two pipes the first may be closed first. -/
theorem closeBoth_pipe_pipe (t : Descriptors) :
    ((t.pipe.2.pipe.2.closeBoth t.pipe.1).closeBoth t.pipe.2.pipe.1).fd = t.fd := by
  rw [closeBoth_comm]
  exact (closeBoth_congr (closeBoth_pipe t.pipe.2) _).trans (closeBoth_pipe t)

theorem free_ne (h : t.fd k ≠ none) : t.free ≠ k := by
  rintro rfl
  exact h t.fd_free

theorem openFile_fd (h : t.fd k ≠ none) : t.openFile.2.fd k = t.fd k := by
  exact Function.update_of_ne (Ne.symm (free_ne h)) ..

theorem openFile_fd_free (t : Descriptors) : t.openFile.2.fd t.free = some t.next :=
  Function.update_self ..

/-- What is opened where the lowest free descriptor is wanted is closed at once. -/
theorem openAt_free (t : Descriptors) : (t.openAt t.free).fd = t.fd := by
  have hdup : t.openFile.2.dup2 t.free t.free = t.openFile.2.set t.free t.next :=
    dup2_some (openFile_fd_free t)
  have hset : (t.openFile.2.set t.free t.next).fd = t.openFile.2.fd := set_of_fd (openFile_fd_free t)
  exact (close_congr (congrArg fd hdup) _).trans ((close_congr hset _).trans (close_openFile t))

theorem openAt_fd (h : t.free ≠ k) : (t.openAt k).fd = update t.fd k (some t.next) := by
  have hdup : t.openFile.2.dup2 t.free k = t.openFile.2.set k t.next :=
    dup2_some (openFile_fd_free t)
  refine (close_congr (congrArg fd hdup) _).trans ?_
  rw [close_fd, set_fd]
  exact (Function.update_comm (Ne.symm h) ..).trans (congrArg (update · k _) (close_openFile t))

/-- A new file is none of those that were open. -/
theorem fd_ne_next (t : Descriptors) (k : Nat) : t.fd k ≠ some t.next := by
  intro h
  exact Nat.lt_irrefl _ (t.used k t.next h)

theorem pipe_fd (h : t.fd k ≠ none) : t.pipe.2.fd k = t.fd k := by
  have hread := openFile_fd h
  exact (openFile_fd (by rwa [hread])).trans hread

/-- An end of a pipe is open where nothing was. -/
theorem pipe_fd_free (t : Descriptors) : t.pipe.2.fd t.free ≠ none := by
  have hread := openFile_fd_free t
  have hpipe : t.pipe.2.fd t.free = some t.next :=
    (openFile_fd (by rw [hread]; exact Option.some_ne_none _)).trans hread
  rw [hpipe]
  exact Option.some_ne_none _

theorem pipe_fd_ne (t : Descriptors) : t.pipe.2.fd ≠ t.fd := by
  intro h
  have hfree := pipe_fd_free t
  rw [h] at hfree
  exact hfree t.fd_free

theorem pipe_pipe_fd_ne (t : Descriptors) : t.pipe.2.pipe.2.fd ≠ t.fd := by
  intro h
  have hfree := pipe_fd (pipe_fd_free t)
  rw [h, fd_free] at hfree
  exact pipe_fd_free t hfree.symm

end Descriptors

end Lib
