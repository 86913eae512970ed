import PerrOS.Lib.Stores
import PerrOS.Stride.Scheduler
import PerrOS.Xv6.Syscall

/-!
# getpinfo

The record that `proc_getpinfo` writes for every slot of the process table,
and the check of `sys_getpinfo` in front of it. All records together are 64
times as long as what the check asks for, and the reported pass value is cut
off at `MAX_INT`.
-/

namespace PerrOS.Stride

open Lib (Memory Store)
open Vm (Word)
open Xv6

/-- `MAX_INT` of `proc.h`. -/
def MAX_INT : Word := 0x07FFFFFF

/-- What `getpinfo` reads of a `struct proc`; `name` is the bytes from the
start of the field on. -/
structure Named extends Entry where
  pid : Word
  name : Nat → BitVec 8

/-- `sizeof(struct pstat)`: the fields are `inuse`, `pid`, `name`, `tickets`,
`pass`, `stride` and `n_schedule`, at 0, 4, 8, 24, 28, 32 and 36. -/
def pstatSize : Word := 40

/-- An assignment to an `int`. -/
def setInt (a v : Word) : Store := ⟨a.toNat, 4, v.toNat⟩

/-- The loop of `safestrcpy`, with at most `n` bytes to be copied. -/
def strcpyLoop : Nat → Word → (Nat → BitVec 8) → List Store
  | 0, s, _ => [⟨s.toNat, 1, 0⟩]
  | n + 1, s, t =>
    ⟨s.toNat, 1, (t 0).toNat⟩ ::
      if t 0 ≠ 0 then strcpyLoop n (s + 1) fun i => t (i + 1) else [⟨(s + 1).toNat, 1, 0⟩]

def safestrcpy (s : Word) (t : Nat → BitVec 8) (n : Nat) : List Store :=
  if n = 0 then [] else strcpyLoop (n - 1) s t

/-- The `pass` that is reported for a `passVal`. -/
def passOf (passVal : Word) : Word :=
  if passVal < MAX_INT ∧ 0 ≤ passVal.toInt then passVal else MAX_INT

/-- The stores to the record at `a`. -/
def pstatStores (a : Word) (e : Named) : List Store :=
  if e.state = .unused then [setInt a 0]
  else
    [setInt (a + 4) e.pid, setInt (a + 24) e.strideData.numTickets,
      setInt (a + 28) (passOf e.strideData.passVal), setInt (a + 32) e.strideData.strideVal,
      setInt a 1] ++
    safestrcpy (a + 8) e.name 16 ++ [setInt (a + 36) e.strideData.n_schedule]

/-- `pStatPtr + i`. -/
def record (pStatPtr : Word) (i : Slot) : Word := pStatPtr + pstatSize * BitVec.ofNat 32 i

def getpinfoLoop (ptable : Slot → Named) (pStatPtr : Word) : List Slot → List Store × Int
  | [] => ([], 0)
  | i :: is =>
    if record pStatPtr i = 0 then ([], -1)
    else
      let (ss, rc) := getpinfoLoop ptable pStatPtr is
      (pstatStores (record pStatPtr i) (ptable i) ++ ss, rc)

/-- `proc_getpinfo`: its stores and its result. -/
def procGetpinfo (ptable : Slot → Named) (pStatPtr : Word) : List Store × Int :=
  getpinfoLoop ptable pStatPtr slots

def sysGetpinfo (c : Caller) (ptable : Slot → Named) : List Store × Int :=
  match argptr c 0 pstatSize with
  | some p => if p = 0 then ([], -1) else procGetpinfo ptable p
  | none => ([], -1)

/-- `sys_getpinfo` takes `p`. -/
def Accepts (c : Caller) (p : Word) : Prop := argptr c 0 pstatSize = some p ∧ p ≠ 0

variable {c : Caller} {p a s v : Word} {ptable : Slot → Named} {i j : Slot} {m : Memory}

theorem sysGetpinfo_of_accepts (h : Accepts c p) :
    sysGetpinfo c ptable = procGetpinfo ptable p := by
  rw [sysGetpinfo, h.1]
  exact if_neg h.2

-- ---------------------------------------------------------------------------
-- Where the stores are
-- ---------------------------------------------------------------------------

theorem toNat_add_ofNat {k : Nat} (h : a.toNat + k < 2 ^ 32) :
    (a + BitVec.ofNat 32 k).toNat = a.toNat + k := by
  rw [BitVec.toNat_add, BitVec.toNat_ofNat]
  omega

theorem strcpyLoop_within {n : Nat} {t : Nat → BitVec 8} (h : s.toNat + n + 1 ≤ 2 ^ 32) :
    Store.Within (strcpyLoop n s t) s.toNat (s.toNat + n + 1) := by
  induction n generalizing s t with
  | zero => exact .cons (Nat.le_refl _) (Nat.le_refl _) .nil
  | succ n ih =>
    have hs : (s + 1).toNat = s.toNat + 1 := toNat_add_ofNat (k := 1) (by omega)
    refine .cons (Nat.le_refl _) (by dsimp only; omega) ?_
    split
    · exact (ih (by omega)).mono (by omega) (by omega)
    · exact .cons (by dsimp only; omega) (by dsimp only; omega) .nil

/-- The bytes of a record that are written: all of it, or `inuse`. -/
def Named.written (e : Named) : Nat := if e.state = .unused then 4 else 40

theorem pstatStores_within {e : Named} (h : a.toNat + 40 ≤ 2 ^ 32) :
    Store.Within (pstatStores a e) a.toNat (a.toNat + e.written) := by
  have h4 : (a + 4).toNat = a.toNat + 4 := toNat_add_ofNat (k := 4) (by omega)
  have h8 : (a + 8).toNat = a.toNat + 8 := toNat_add_ofNat (k := 8) (by omega)
  have h24 : (a + 24).toNat = a.toNat + 24 := toNat_add_ofNat (k := 24) (by omega)
  have h28 : (a + 28).toNat = a.toNat + 28 := toNat_add_ofNat (k := 28) (by omega)
  have h32 : (a + 32).toNat = a.toNat + 32 := toNat_add_ofNat (k := 32) (by omega)
  have h36 : (a + 36).toNat = a.toNat + 36 := toNat_add_ofNat (k := 36) (by omega)
  have hint {b v : Word} (hlo : a.toNat ≤ b.toNat) (hhi : b.toNat + 4 ≤ a.toNat + 40)
      {ss : List Store} (hss : Store.Within ss a.toNat (a.toNat + 40)) :
      Store.Within (setInt b v :: ss) a.toNat (a.toNat + 40) := .cons hlo hhi hss
  unfold pstatStores Named.written
  split
  · exact .cons (Nat.le_refl _) (Nat.le_refl _) .nil
  · have hname : Store.Within (safestrcpy (a + 8) e.name 16) a.toNat (a.toNat + 40) :=
      (strcpyLoop_within (n := 15) (by omega)).mono (by omega) (by omega)
    refine .append (.append ?_ hname) (hint (by omega) (by omega) .nil)
    exact hint (by omega) (by omega) <| hint (by omega) (by omega) <|
      hint (by omega) (by omega) <| hint (by omega) (by omega) <|
      hint (Nat.le_refl _) (by omega) .nil

/-- The last field of the record is among what is written. -/
theorem exists_store {e : Named} (h : a.toNat + 40 ≤ 2 ^ 32) :
    ∃ st ∈ pstatStores a e, st.addr + st.width = a.toNat + e.written ∧ 0 < st.width := by
  unfold pstatStores Named.written
  split
  · exact ⟨_, List.mem_singleton_self _, rfl, Nat.zero_lt_succ 3⟩
  · refine ⟨setInt (a + 36) _, List.mem_append_right _ (List.mem_singleton_self _), ?_, ?_⟩
    · have : (a + 36).toNat = a.toNat + 36 := toNat_add_ofNat (k := 36) (by omega)
      dsimp only [setInt]
      omega
    · exact Nat.zero_lt_succ 3

/-- A pointer that `sys_getpinfo` takes leaves room for all records below the
top of memory. -/
theorem Accepts.bounds (h : Accepts c p) : 0 < p.toNat ∧ p.toNat + 2560 ≤ 2 ^ 32 := by
  obtain ⟨-, hlt, hle⟩ := (argptr_eq_some (by decide)).mp h.1
  have hsz := c.sz_le
  have hne := h.2
  have htop : Vm.USERTOP.toNat = 0xA0000 := rfl
  rw [BitVec.le_def] at hsz
  have hpos : p.toNat ≠ 0 := fun h0 => hne (BitVec.eq_of_toNat_eq h0)
  omega

theorem toNat_record (h : p.toNat + 2560 ≤ 2 ^ 32) (i : Slot) :
    (record p i).toNat = p.toNat + 40 * i := by
  have hi := i.isLt
  have : NPROC = 64 := rfl
  have hmul : pstatSize * BitVec.ofNat 32 i = BitVec.ofNat 32 (40 * i) := by
    apply BitVec.eq_of_toNat_eq
    simp [pstatSize, BitVec.toNat_mul]
  rw [record, hmul]
  exact toNat_add_ofNat (by omega)

theorem procGetpinfo_eq (h : 0 < p.toNat ∧ p.toNat + 2560 ≤ 2 ^ 32) :
    procGetpinfo ptable p = (slots.flatMap fun i => pstatStores (record p i) (ptable i), 0) := by
  have hne (i : Slot) : record p i ≠ 0 := fun h0 => by
    have := toNat_record h.2 i
    rw [h0] at this
    simp at this
    omega
  unfold procGetpinfo
  generalize slots = is
  induction is with
  | nil => rfl
  | cons i is ih =>
    rw [getpinfoLoop, if_neg (hne i), ih]
    rfl

theorem sysGetpinfo_stores (h : Accepts c p) :
    (sysGetpinfo c ptable).1 = slots.flatMap fun i => pstatStores (record p i) (ptable i) := by
  rw [sysGetpinfo_of_accepts h, procGetpinfo_eq h.bounds]

theorem record_within (h : p.toNat + 2560 ≤ 2 ^ 32) (i : Slot) :
    Store.Within (pstatStores (record p i) (ptable i)) (p.toNat + 40 * i)
      (p.toNat + 40 * i + (ptable i).written) := by
  have hi := i.isLt
  have : NPROC = 64 := rfl
  rw [← toNat_record h i]
  exact pstatStores_within (by rw [toNat_record h i]; omega)

theorem Named.written_le (e : Named) : e.written ≤ 40 := by
  unfold written
  split <;> decide

-- ---------------------------------------------------------------------------
-- The caller's memory
-- ---------------------------------------------------------------------------

/-- All bytes that `getpinfo` writes are the caller's. -/
def StaysInside (c : Caller) (ptable : Slot → Named) : Prop :=
  ∀ x, Store.Writes (sysGetpinfo c ptable).1 x → x < c.sz.toNat

/-- The last slot. -/
def lastSlot : Slot := 63

/-- Where `sys_getpinfo` takes a pointer, the stores stay inside exactly if
what is written of the last record does. -/
theorem getpinfo_inside_iff (h : Accepts c p) :
    StaysInside c ptable ↔ p.toNat + 63 * 40 + (ptable lastSlot).written ≤ c.sz.toNat := by
  have hb := h.bounds
  rw [StaysInside, sysGetpinfo_stores h]
  constructor
  · intro hin
    have hrec : (record p lastSlot).toNat = p.toNat + 40 * 63 := toNat_record hb.2 lastSlot
    obtain ⟨st, hst, hstop, hpos⟩ := exists_store (e := ptable lastSlot)
      (show (record p lastSlot).toNat + 40 ≤ 2 ^ 32 by omega)
    have := hin (st.addr + st.width - 1)
      ⟨st, List.mem_flatMap.mpr ⟨lastSlot, mem_slots _, hst⟩, by omega, by omega⟩
    omega
  · rintro hle x ⟨st, hst, hx⟩
    obtain ⟨i, -, hst⟩ := List.mem_flatMap.mp hst
    have hlt := ((record_within hb.2 i).writes ⟨st, hst, hx⟩).2
    rcases eq_or_ne i lastSlot with rfl | hi
    · have : (lastSlot : Nat) = 63 := rfl
      omega
    · have hw := (ptable i).written_le
      have hi' : (i : Nat) < 63 := Nat.lt_of_le_of_ne (Nat.lt_succ_iff.mp i.isLt)
        fun e => hi (Fin.ext e)
      omega

/-- A caller whose stack holds the pointer `p` as its only argument. -/
def callerWith (sz p : Nat) (h : BitVec.ofNat 32 sz ≤ Vm.USERTOP) : Caller :=
  ⟨BitVec.ofNat 32 sz, 0, Memory.write (fun _ => 0) 4 4 p, h⟩

/-- A table without processes. -/
def noProcs : Slot → Named := fun _ => ⟨⟨.unused, 0, 0, 0, 0⟩, 0, fun _ => 0⟩

theorem getpinfo_inside_empty : StaysInside (callerWith 4096 0x100 (by decide)) noProcs :=
  (getpinfo_inside_iff (p := 0x100) ⟨by decide, by decide⟩).mpr (by decide)

/-- A single record at the end of the caller's memory is accepted. -/
theorem getpinfo_overruns : ¬∀ (c : Caller) (ptable : Slot → Named), StaysInside c ptable := by
  intro h
  have := h (callerWith 4096 0xFD8 (by decide)) noProcs 0x1000
  have hw : Store.Writes (sysGetpinfo (callerWith 4096 0xFD8 (by decide)) noProcs).1 0x1000 :=
    ⟨⟨0x1000, 4, 0⟩, by decide, by decide, by decide⟩
  exact absurd (this hw) (by decide)

-- ---------------------------------------------------------------------------
-- The reported pass values
-- ---------------------------------------------------------------------------

/-- The `pass` that the caller finds in the record of slot `i`. -/
def reported (m : Memory) (c : Caller) (ptable : Slot → Named) (p : Word) (i : Slot) : Word :=
  BitVec.ofNat 32 ((Store.run m (sysGetpinfo c ptable).1).read ((record p i).toNat + 28) 4)

/-- What is stored to a record after its `pass` leaves the `pass` alone. -/
theorem pstatStores_pass {e : Named} (h : a.toNat + 40 ≤ 2 ^ 32) (he : e.state ≠ .unused) :
    ∃ ss ss', pstatStores a e = ss ++ setInt (a + 28) (passOf e.strideData.passVal) :: ss' ∧
      ∀ st ∈ ss', st.addr + st.width ≤ a.toNat + 28 ∨ a.toNat + 32 ≤ st.addr := by
  have h8 : (a + 8).toNat = a.toNat + 8 := toNat_add_ofNat (k := 8) (by omega)
  have h32 : (a + 32).toNat = a.toNat + 32 := toNat_add_ofNat (k := 32) (by omega)
  have h36 : (a + 36).toNat = a.toNat + 36 := toNat_add_ofNat (k := 36) (by omega)
  refine ⟨[setInt (a + 4) e.pid, setInt (a + 24) e.strideData.numTickets],
    setInt (a + 32) e.strideData.strideVal :: setInt a 1 ::
      (safestrcpy (a + 8) e.name 16 ++ [setInt (a + 36) e.strideData.n_schedule]),
    by rw [pstatStores, if_neg he]; simp, fun st hst => ?_⟩
  rcases List.mem_cons.mp hst with rfl | hst
  · exact .inr (by dsimp only [setInt]; omega)
  rcases List.mem_cons.mp hst with rfl | hst
  · exact .inl (by dsimp only [setInt]; omega)
  rcases List.mem_append.mp hst with hst | hst
  · have := strcpyLoop_within (n := 15) (by omega) st hst
    omega
  · obtain rfl := List.mem_singleton.mp hst
    exact .inr (by dsimp only [setInt]; omega)

theorem reported_eq (h : Accepts c p) (hi : (ptable i).state ≠ .unused) :
    reported m c ptable p i = passOf (ptable i).strideData.passVal := by
  have hb := h.bounds.2
  have hrec := toNat_record hb i
  have hlt := i.isLt
  have hn : NPROC = 64 := rfl
  have h28 : (record p i + 28).toNat = (record p i).toNat + 28 :=
    toNat_add_ofNat (k := 28) (by omega)
  obtain ⟨pre, post, hslots⟩ := List.append_of_mem (mem_slots i)
  have hnodup : (pre ++ i :: post).Nodup := hslots ▸ List.nodup_finRange _
  obtain ⟨ss, ss', hss, hafter⟩ := pstatStores_pass (by omega : (record p i).toNat + 40 ≤ 2 ^ 32) hi
  let pass := setInt (record p i + 28) (passOf (ptable i).strideData.passVal)
  let others is := List.flatMap (fun j => pstatStores (record p j) (ptable j)) is
  have hstores : (sysGetpinfo c ptable).1 = (others pre ++ ss) ++ pass :: (ss' ++ others post) := by
    rw [sysGetpinfo_stores h, hslots, List.flatMap_append, List.flatMap_cons, hss]
    simp [others, pass]
  have hlast : ∀ st ∈ ss' ++ others post,
      st.addr + st.width ≤ pass.addr ∨ pass.addr + pass.width ≤ st.addr := by
    intro st hst
    have haddr : pass.addr = p.toNat + 40 * i + 28 := h28.trans (by rw [hrec])
    have hwidth : pass.width = 4 := rfl
    rcases List.mem_append.mp hst with hst | hst
    · have := hafter st hst
      omega
    · obtain ⟨j, hj, hst⟩ := List.mem_flatMap.mp hst
      have hji : (j : Nat) ≠ i := by
        intro e
        rw [Fin.ext e] at hj
        exact (List.nodup_cons.mp (List.nodup_append.mp hnodup).2.1).1 hj
      have := record_within hb j st hst
      have := (ptable j).written_le
      omega
  have hread : (Store.run m (sysGetpinfo c ptable).1).read pass.addr pass.width = pass.val := by
    rw [hstores]
    exact Store.read_run_last hlast (passOf (ptable i).strideData.passVal).isLt
  have haddr : (record p i).toNat + 28 = pass.addr := h28.symm
  calc reported m c ptable p i = BitVec.ofNat 32 pass.val := by
        rw [reported, haddr]
        exact congrArg (BitVec.ofNat 32) hread
    _ = passOf (ptable i).strideData.passVal := BitVec.ofNat_toNat 32 _ |>.trans (BitVec.setWidth_eq _)

/-- The reported values are the pass values where an `int` can hold them, and
keep their order. -/
structure KeepsOrder (m : Memory) (c : Caller) (ptable : Slot → Named) (p : Word) : Prop where
  nonneg : ∀ i, (ptable i).state ≠ .unused → 0 ≤ (reported m c ptable p i).toInt
  exact : ∀ i, (ptable i).state ≠ .unused → (ptable i).strideData.passVal.toNat < 2 ^ 31 →
    (reported m c ptable p i).toInt = (ptable i).strideData.passVal.toNat
  order : ∀ i j, (ptable i).state ≠ .unused → (ptable j).state ≠ .unused →
    (ptable i).strideData.passVal < (ptable j).strideData.passVal →
    if (ptable j).strideData.passVal.toNat < 2 ^ 31 then
      (reported m c ptable p i).toInt < (reported m c ptable p j).toInt
    else (reported m c ptable p i).toInt ≤ (reported m c ptable p j).toInt

/-- The two tests of `proc_getpinfo` cut the pass value off at `MAX_INT`. -/
theorem passOf_toInt (v : Word) : (passOf v).toInt = min v.toNat 0x07FFFFFF := by
  have hv := v.isLt
  have hmax : MAX_INT.toNat = 0x07FFFFFF := rfl
  unfold passOf
  split
  · next h =>
    rw [BitVec.lt_def, hmax] at h
    rw [BitVec.toInt_eq_toNat_of_lt (by omega)]
    omega
  · next h =>
    have hint : MAX_INT.toInt = 0x07FFFFFF := by decide
    have hge : 0x07FFFFFF ≤ v.toNat := by
      by_contra hlt
      refine h ⟨by rw [BitVec.lt_def, hmax]; omega, ?_⟩
      rw [BitVec.toInt_eq_toNat_of_lt (by omega)]
      omega
    rw [hint]
    omega

/-- `getpinfo` keeps the order exactly if no pass value lies above `MAX_INT`
and below `2 ^ 31`. -/
theorem keeps_order_iff (h : Accepts c p) :
    KeepsOrder m c ptable p ↔ ∀ i, (ptable i).state ≠ .unused →
      (ptable i).strideData.passVal ≤ MAX_INT ∨ 2 ^ 31 ≤ (ptable i).strideData.passVal.toNat := by
  have hpass (i : Slot) (hi : (ptable i).state ≠ .unused) : (reported m c ptable p i).toInt =
      min (ptable i).strideData.passVal.toNat 0x07FFFFFF := by
    rw [reported_eq h hi, passOf_toInt]
  have hmax : MAX_INT.toNat = 0x07FFFFFF := rfl
  simp only [BitVec.le_def, hmax]
  constructor
  · intro hk i hi
    by_contra hn
    have := hk.exact i hi (by omega)
    rw [hpass i hi] at this
    omega
  · intro hv
    refine ⟨fun i hi => ?_, fun i hi hlt => ?_, fun i j hi hj hij => ?_⟩
    · rw [hpass i hi]
      omega
    · have := hv i hi
      rw [hpass i hi]
      omega
    · have := hv i hi
      have := hv j hj
      rw [BitVec.lt_def] at hij
      rw [hpass i hi, hpass j hj]
      split <;> omega

/-- Slot 1 is in use, with the given pass value. -/
def oneProc (passVal : Word) : Slot → Named := fun k =>
  if k = 1 then ⟨⟨.runnable, 1500, passVal, 10, 0⟩, 1, fun _ => 0⟩ else noProcs k

theorem keeps_order_low : KeepsOrder (fun _ => 0) (callerWith 4096 0x100 (by decide))
    (oneProc 1500) 0x100 :=
  (keeps_order_iff ⟨by decide, by decide⟩).mpr (by decide)

/-- The pass value `2 ^ 27` is reported as `2 ^ 27 - 1`. -/
theorem order_lost : ¬∀ (m : Memory) (c : Caller) (ptable : Slot → Named) (p : Word),
    Accepts c p → KeepsOrder m c ptable p := by
  intro h
  have hacc : Accepts (callerWith 4096 0x100 (by decide)) 0x100 := ⟨by decide, by decide⟩
  have hk := h (fun _ => 0) _ (oneProc 0x08000000) _ hacc
  have := hk.exact 1 (by decide) (by decide)
  rw [reported_eq hacc (by decide)] at this
  exact absurd this (by decide)

end PerrOS.Stride
