import PerrOS.Lib.System

/-!
# A lock that serves in arrival order

The specification of a fair lock: clients queue up, the head of the queue
enters, and only the client inside leaves. Any lock simulated by it excludes
its clients from each other and lets them in first come, first served.
-/

namespace Lib.FifoLock

variable {Client : Type u}

/-- The head of the queue is inside when `held`, and next otherwise. -/
structure State (Client : Type u) where
  queue : List Client
  held : Bool

inductive Label (Client : Type u)
  | arrive (c : Client)
  | enter (c : Client)
  | leave (c : Client)

inductive Step : State Client → Label Client → State Client → Prop
  | arrive (c : Client) (q : List Client) (held : Bool) :
      c ∉ q → Step ⟨q, held⟩ (.arrive c) ⟨q ++ [c], held⟩
  | enter (c : Client) (q : List Client) : Step ⟨c :: q, false⟩ (.enter c) ⟨c :: q, true⟩
  | leave (c : Client) (q : List Client) : Step ⟨c :: q, true⟩ (.leave c) ⟨q, false⟩

def system (Client : Type u) : System (State Client) (Label Client) where
  init s := s = ⟨[], false⟩
  step := Step

/-- The clients that have arrived and are not yet inside, in order. -/
@[simp] def State.waiting : State Client → List Client
  | ⟨q, true⟩ => q.tail
  | ⟨q, false⟩ => q

@[simp] def State.holder : State Client → List Client
  | ⟨q, true⟩ => q.take 1
  | ⟨_, false⟩ => []

@[simp] def Label.arrival : Label Client → Option Client
  | .arrive c => some c
  | _ => none

@[simp] def Label.entry : Label Client → Option Client
  | .enter c => some c
  | _ => none

@[simp] def Label.departure : Label Client → Option Client
  | .leave c => some c
  | _ => none

def arrivals (ls : List (Label Client)) : List Client := ls.filterMap Label.arrival
def entries (ls : List (Label Client)) : List Client := ls.filterMap Label.entry
def departures (ls : List (Label Client)) : List Client := ls.filterMap Label.departure

theorem filterMap_concat (f : α → Option β) (ls : List α) (l : α) :
    (ls ++ [l]).filterMap f = ls.filterMap f ++ (f l).toList := by
  cases h : f l <;> simp [List.filterMap_append, h]

@[simp] theorem arrivals_concat : arrivals (ls ++ [l]) = arrivals ls ++ l.arrival.toList :=
  filterMap_concat _ ls l

@[simp] theorem entries_concat : entries (ls ++ [l]) = entries ls ++ l.entry.toList :=
  filterMap_concat _ ls l

@[simp] theorem departures_concat :
    departures (ls ++ [l]) = departures ls ++ l.departure.toList :=
  filterMap_concat _ ls l

/-- What the labels of a run say about the state it ends in. -/
structure Served (ls : List (Label Client)) (s : State Client) : Prop where
  nodup : s.queue.Nodup
  occupied : s.held = true → s.queue ≠ []
  arrivals : arrivals ls = entries ls ++ s.waiting
  entries : entries ls = departures ls ++ s.holder

theorem Served.step (h : Served ls s) (hs : Step s l t) : Served (ls ++ [l]) t := by
  obtain ⟨hn, ho, ha, he⟩ := h
  cases hs with
  | arrive c q held hc =>
    refine ⟨?_, by simp, ?_, ?_⟩
    · exact List.nodup_append.mpr ⟨hn, by simp, fun a ha b hb h => hc (by simp_all)⟩
    · cases held with
      | true =>
        have hq : q ≠ [] := ho rfl
        simp [ha, List.tail_append_of_ne_nil hq]
      | false => simp [ha]
    · cases held with
      | true =>
        obtain ⟨d, q, rfl⟩ := List.exists_cons_of_ne_nil (ho rfl)
        simpa using he
      | false => simpa using he
  | enter c q => exact ⟨hn, by simp, by simp [ha], by simpa using he⟩
  | leave c q => exact ⟨(List.nodup_cons.mp hn).2, by simp, by simpa using ha, by simpa using he⟩

theorem served (h : (system Client).Run ls s) : Served ls s := by
  refine h.invariant ?_ fun _ _ _ _ ih hs => ih.step hs
  rintro s rfl
  exact ⟨by simp, by simp, rfl, rfl⟩

end Lib.FifoLock
