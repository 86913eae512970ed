import PerrOS.Lib.LeastCharge
import PerrOS.Stride.Scheduler

/-!
# Proportional share

Scheduling rounds on one CPU, seen from a set `S` of processes that stay
runnable and keep their tickets. Every other process may do anything between
two scans. The rounds that dispatch a member of `S` are services of
`Lib.LeastCharge`, charged to its pass value.
-/

namespace PerrOS.Stride

open Lib (System)
open Function (update)
open Xv6

/-- One scheduling round: an iteration of `scheduler`, then whatever runs
before the next scan, which finds the processes of `S` runnable again with the
stride data the scheduler left them. -/
def Round (S : Set Slot) (k : Kernel) (d : Option Slot) (k' : Kernel) : Prop :=
  d = (scheduler k).1 ∧ k'.globalMinPassVal = (scheduler k).2.globalMinPassVal ∧
    ∀ p ∈ S, (k'.ptable p).state = .runnable ∧
      (k'.ptable p).strideData = ((scheduler k).2.ptable p).strideData

/-- The rounds that follow the scan of `k₀`. -/
def rounds (S : Set Slot) (k₀ : Kernel) : System Kernel (Option Slot) where
  init k := k = k₀
  step := Round S

/-- No pass value reaches `2 ^ 32 - 1`: not one the scan compares, and not the
sum written at the dispatch of a member of `S`. -/
def NoOverflow (S : Set Slot) (k : Kernel) (d : Option Slot) : Prop :=
  NoSentinel k.ptable ∧
    ∀ p ∈ S, d = some p → (k.ptable p).strideData.passVal.toNat +
      (k.ptable p).strideData.strideVal.toNat < 2 ^ 32 - 1

/-- How often `p` was dispatched. -/
def dispatches (ds : List (Option Slot)) (p : Slot) : Nat := ds.count (some p)

/-- The members of `S` at the first scan: runnable, with one pass value. -/
structure Start (S : Set Slot) (k₀ : Kernel) (v : BitVec 32) : Prop where
  runnable : ∀ p ∈ S, (k₀.ptable p).state = .runnable
  passVal : ∀ p ∈ S, (k₀.ptable p).strideData.passVal = v
  strideVal : ∀ p ∈ S, 0 < (k₀.ptable p).strideData.strideVal.toInt

def stride (k : Kernel) (p : Slot) : Nat := (k.ptable p).strideData.strideVal.toNat

/-- The charges of the members of `S` are their pass values. -/
structure Charged (S : Set Slot) (k₀ k : Kernel) (c : Slot → Nat) : Prop where
  runnable : ∀ p ∈ S, (k.ptable p).state = .runnable
  passVal : ∀ p ∈ S, (k.ptable p).strideData.passVal.toNat = c p
  strideVal : ∀ p ∈ S, (k.ptable p).strideData.strideVal = (k₀.ptable p).strideData.strideVal

theorem Charged.skip (h : Charged S k₀ k c) (hr : Round S k d k') (hd : ∀ p ∈ S, d ≠ some p)
    (hok : NoOverflow S k d) : Charged S k₀ k' c := by
  obtain ⟨hd', -, hr⟩ := hr
  have same : ∀ p ∈ S, (k'.ptable p).strideData = (k.ptable p).strideData := by
    intro p hp
    rw [(hr p hp).2]
    obtain ⟨he, -⟩ | ⟨s, -, -, he⟩ := scheduler_cases hok.1
    · rw [he]
    · have hs : s ≠ p := fun hs => hd p hp (by rw [hd', he, hs])
      rw [he]
      simp [Ne.symm hs]
  exact ⟨fun p hp => (hr p hp).1, fun p hp => by rw [same p hp, h.passVal p hp],
    fun p hp => by rw [same p hp, h.strideVal p hp]⟩

theorem Charged.serve (h : Charged S k₀ k c) (hr : Round S k (some d) k') (hd : d ∈ S)
    (hok : NoOverflow S k (some d)) :
    Lib.LeastCharge.Step S (stride k₀) c d (update c d (c d + stride k₀ d)) ∧
      Charged S k₀ k' (update c d (c d + stride k₀ d)) := by
  obtain ⟨hd', -, hr⟩ := hr
  obtain ⟨he, -⟩ | ⟨s, -, hmin, he⟩ := scheduler_cases hok.1
  · simp [he] at hd'
  obtain rfl : d = s := by simpa [he] using hd'
  have hstride := h.strideVal d hd
  have hsum := hok.2 d hd rfl
  refine ⟨.serve c d hd fun j hj => ?_, fun p hp => (hr p hp).1, fun p hp => ?_, fun p hp => ?_⟩
  · rw [← h.passVal d hd, ← h.passVal j hj]
    exact hmin j (h.runnable j hj)
  · rw [(hr p hp).2, he]
    by_cases hpd : p = d
    · subst hpd
      simp only [Function.update_self, Entry.dispatch, BitVec.toNat_add, stride, ← hstride, ← h.passVal p hp]
      exact Nat.mod_eq_of_lt (by omega)
    · simp [hpd, h.passVal p hp]
  · rw [(hr p hp).2, he]
    by_cases hpd : p = d
    · subst hpd
      simpa [Entry.dispatch] using hstride
    · simp [hpd, h.strideVal p hp]

/-- A dispatch of a member of `S` is a service; any other round is none. -/
noncomputable def service (S : Set Slot) (d : Option Slot) : Option Slot :=
  open Classical in d.filter (· ∈ S)

theorem service_eq_some : service S d = some p ↔ d = some p ∧ p ∈ S := by
  classical
  simp [service, Option.filter_eq_some_iff]

theorem service_eq_none : service S d = none ↔ ∀ p ∈ S, d ≠ some p := by
  classical
  cases d with
  | none => simp [service]
  | some d =>
    simp only [service, Option.filter_eq_none_iff]
    aesop

theorem charged_simulation (h₀ : Start S k₀ v) :
    System.Simulation ((rounds S k₀).restrict (NoOverflow S))
      (Lib.LeastCharge.system S (stride k₀) v.toNat) (Charged S k₀) (service S) where
  init := by
    rintro k rfl
    exact ⟨_, rfl, h₀.runnable, fun p hp => by rw [h₀.passVal p hp], fun _ _ => rfl⟩
  skip := fun ⟨hr, hok⟩ hd h => h.skip hr (service_eq_none.mp hd) hok
  step := by
    rintro k d k' m c ⟨hr, hok⟩ hd h
    obtain ⟨rfl, hm⟩ := service_eq_some.mp hd
    exact ⟨_, h.serve hr hm hok⟩

theorem count_service (ds : List (Option Slot)) (hp : p ∈ S) :
    (ds.filterMap (service S)).count p = dispatches ds p := by
  induction ds with
  | nil => rfl
  | cons d ds ih =>
    cases hs : service S d with
    | none =>
      have hne := service_eq_none.mp hs p hp
      simp_all [dispatches]
    | some q =>
      obtain ⟨rfl, -⟩ := service_eq_some.mp hs
      simp_all [dispatches, List.count_cons]

/-- After every round the shares of two members of `S` differ by at most one
quantum. In particular none starves while another runs. -/
theorem proportional_share {S : Set Slot} {k₀ k : Kernel} {v : BitVec 32}
    {ds : List (Option Slot)} (h₀ : Start S k₀ v)
    (h : ((rounds S k₀).restrict (NoOverflow S)).Run ds k) {i j : Slot} (hi : i ∈ S)
    (hj : j ∈ S) :
    dispatches ds i * stride k₀ i ≤ dispatches ds j * stride k₀ j + stride k₀ i ∧
      ∀ m, m * stride k₀ j + stride k₀ i < dispatches ds i * stride k₀ i →
        m < dispatches ds j := by
  obtain ⟨c, hrun, -⟩ := (charged_simulation h₀).run h
  have hs := Lib.LeastCharge.share hrun hi hj
  rw [count_service ds hi, count_service ds hj] at hs
  refine ⟨hs, fun m hm => ?_⟩
  by_contra hle
  have := Nat.mul_le_mul_right (stride k₀ j) (Nat.not_lt.mp hle)
  omega

/-- A process with 10 tickets and one with 150, both never dispatched. -/
def pair : Kernel where
  ptable p :=
    if p = 0 then ⟨.runnable, ⟨1500, 0, 10, 0⟩⟩
    else if p = 1 then ⟨.runnable, ⟨100, 0, 150, 0⟩⟩
    else ⟨.unused, ⟨0, 0, 0, 0⟩⟩
  globalMinPassVal := 0

theorem proportional_share_pair :
    dispatches [some 0] 0 * stride pair 0 ≤
      dispatches [some 0] 1 * stride pair 1 + stride pair 0 := by
  have start : Start {0, 1} pair 0 := by
    constructor <;> simp [pair] <;> decide
  have round : Round {0, 1} pair (some 0)
      { (scheduler pair).2 with
        ptable := fun p => { (scheduler pair).2.ptable p with state := .runnable } } :=
    ⟨by decide, rfl, fun _ _ => ⟨rfl, rfl⟩⟩
  have ok : NoOverflow {0, 1} pair (some 0) := by
    refine ⟨by decide, ?_⟩
    rintro p - ⟨⟩
    decide
  exact (proportional_share start ((System.Run.init rfl).step ⟨round, ok⟩)
    (by simp) (by simp)).1

end PerrOS.Stride
