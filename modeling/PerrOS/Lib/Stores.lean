import PerrOS.Lib.Bytes

/-!
# Sequences of stores

The stores a routine makes, in order. What they do to memory is read off the
sequence: bytes that no store covers keep their value, and a word that no
later store touches holds what was stored last.
-/

namespace Lib

/-- The low `width` bytes of `val` go to `addr`. -/
structure Store where
  addr : Nat
  width : Nat
  val : Nat
deriving DecidableEq

namespace Store

variable {m : Memory} {ss ss' : List Store} {st : Store} {x a n lo hi : Nat}

def run (m : Memory) (ss : List Store) : Memory :=
  ss.foldl (fun m st => m.write st.addr st.width st.val) m

/-- The byte `x` is written. -/
def Writes (ss : List Store) (x : Nat) : Prop := ∃ st ∈ ss, st.addr ≤ x ∧ x < st.addr + st.width

/-- All stores are to the bytes from `lo` up to `hi`. -/
def Within (ss : List Store) (lo hi : Nat) : Prop :=
  ∀ st ∈ ss, lo ≤ st.addr ∧ st.addr + st.width ≤ hi

theorem Within.mono (h : Within ss lo hi) (hlo : lo' ≤ lo) (hhi : hi ≤ hi') :
    Within ss lo' hi' := fun st hst =>
  ⟨Nat.le_trans hlo (h st hst).1, Nat.le_trans (h st hst).2 hhi⟩

theorem Within.append (h : Within ss lo hi) (h' : Within ss' lo hi) : Within (ss ++ ss') lo hi := by
  intro st hst
  rcases List.mem_append.mp hst with hst | hst
  · exact h st hst
  · exact h' st hst

theorem Within.cons (hlo : lo ≤ st.addr) (hhi : st.addr + st.width ≤ hi) (h : Within ss lo hi) :
    Within (st :: ss) lo hi := by
  intro st' hst
  rcases List.mem_cons.mp hst with rfl | hst
  · exact ⟨hlo, hhi⟩
  · exact h st' hst

theorem Within.nil : Within [] lo hi := nofun

theorem Within.writes (h : Within ss lo hi) (hx : Writes ss x) : lo ≤ x ∧ x < hi := by
  obtain ⟨st, hst, hle, hlt⟩ := hx
  have := h st hst
  omega

theorem run_append : run m (ss ++ ss') = run (run m ss) ss' := List.foldl_append

/-- A word that the stores stay away from keeps its value. -/
theorem read_run (h : ∀ st ∈ ss, st.addr + st.width ≤ a ∨ a + n ≤ st.addr) :
    (run m ss).read a n = m.read a n := by
  induction ss generalizing m with
  | nil => rfl
  | cons st ss ih =>
    have hrest := ih (m := m.write st.addr st.width st.val) fun st' hst =>
      h st' (List.mem_cons_of_mem _ hst)
    have hst := h st List.mem_cons_self
    exact hrest.trans (Memory.read_write_disjoint (by omega))

/-- The last store to a word decides what it holds. -/
theorem read_run_last (h : ∀ st' ∈ ss', st'.addr + st'.width ≤ st.addr ∨
    st.addr + st.width ≤ st'.addr) (hval : st.val < 256 ^ st.width) :
    (run m (ss ++ st :: ss')).read st.addr st.width = st.val := by
  rw [run_append]
  exact (read_run h).trans (Memory.read_write_of_lt hval)

/-- Stores one after the other are all read back. -/
theorem read_run_mem (hs : ss.Pairwise fun st st' => st.addr + st.width ≤ st'.addr) (h : st ∈ ss)
    (hval : st.val < 256 ^ st.width) : (run m ss).read st.addr st.width = st.val := by
  obtain ⟨pre, post, rfl⟩ := List.append_of_mem h
  have hpost := (List.pairwise_cons.mp (List.pairwise_append.mp hs).2.1).1
  exact read_run_last (fun st' hst => .inr (hpost st' hst)) hval

end Store

end Lib
