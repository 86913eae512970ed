import PerrOS.Vm.Fetch

/-!
# Strings of the user

`fetchstr` looks for the NUL up to `USERTOP`, whichever segment the string
begins in.
-/

namespace PerrOS.Vm

variable {p : Proc} {mem : Word → Byte} {pp addr s va : Word} {n k : Nat} {g g' : Segment}

/-- A byte of a string before its NUL. -/
def Proc.Nonzero (p : Proc) (mem : Word → Byte) (va : Word) : Prop :=
  ∃ c, c ≠ 0 ∧ p.load mem va = .ok c

/-- No NUL in the `n` bytes from `s` on. -/
def Proc.Text (p : Proc) (mem : Word → Byte) (s : Word) (n : Nat) : Prop :=
  ∀ j < n, p.Nonzero mem (s + BitVec.ofNat 32 j)

/-- The `n` addresses from `s` on. -/
def addresses (s : Word) (n : Nat) : List Word :=
  (List.range n).map fun j => s + BitVec.ofNat 32 j

theorem next_add (s : Word) (k : Nat) :
    s + 1 + BitVec.ofNat 32 k = s + BitVec.ofNat 32 (k + 1) := by
  rw [BitVec.add_assoc, BitVec.ofNat_add, BitVec.add_comm (BitVec.ofNat 32 k)]
  rfl

theorem addresses_succ (s : Word) (n : Nat) : addresses s (n + 1) = s :: addresses (s + 1) n := by
  unfold addresses
  rw [List.range_succ_eq_map, List.map_cons, List.map_map]
  congr 1
  · exact BitVec.add_zero s
  · exact List.map_congr_left fun j _ => (next_add s j).symm

theorem mem_addresses : va ∈ addresses s n ↔ ∃ j < n, s + BitVec.ofNat 32 j = va := by
  simp [addresses]

theorem Proc.load_error {w : Word} (h : p.load mem va = .error w) : w = va := by
  unfold load at h
  split at h
  · split at h
    · cases h
    · exact (Except.error.inj h).symm
  · exact (Except.error.inj h).symm

theorem Proc.Text.cons (h0 : p.Nonzero mem s) (h : p.Text mem (s + 1) n) : p.Text mem s (n + 1) := by
  rintro (_ | j) hj
  · rwa [show s + BitVec.ofNat 32 0 = s from BitVec.add_zero s]
  · rw [← next_add]
    exact h j (by omega)

/-- The loop inspects a text and what stops it. -/
inductive Scanned (p : Proc) (mem : Word → Byte) (pp s : Word) (n : Nat) : Prop
  | nul (k : Nat) (hk : k < n) (text : p.Text mem s k)
      (nul : p.load mem (s + BitVec.ofNat 32 k) = .ok 0)
      (eq : scan p mem pp n s = (addresses s (k + 1), .ok (s + BitVec.ofNat 32 k - pp).toInt))
  | fault (k : Nat) (hk : k < n) (text : p.Text mem s k)
      (fault : p.load mem (s + BitVec.ofNat 32 k) = .error (s + BitVec.ofNat 32 k))
      (eq : scan p mem pp n s = (addresses s (k + 1), .error (s + BitVec.ofNat 32 k)))
  | done (text : p.Text mem s n) (eq : scan p mem pp n s = (addresses s n, .ok (-1)))

theorem scanned (p : Proc) (mem : Word → Byte) (pp s : Word) (n : Nat) : Scanned p mem pp s n := by
  have hzero (s : Word) : s + BitVec.ofNat 32 0 = s := BitVec.add_zero s
  induction n generalizing s with
  | zero => exact .done (fun j hj => absurd hj (Nat.not_lt_zero j)) rfl
  | succ n ih =>
    have hempty : p.Text mem s 0 := fun j hj => absurd hj (Nat.not_lt_zero j)
    cases hload : p.load mem s with
    | error w =>
      obtain rfl := Proc.load_error hload
      refine .fault 0 (Nat.succ_pos n) hempty (by rwa [hzero]) ?_
      rw [scan, hload, hzero, addresses_succ]
      rfl
    | ok c =>
      by_cases hc : c = 0
      · subst hc
        refine .nul 0 (Nat.succ_pos n) hempty (by rwa [hzero]) ?_
        rw [scan, hload, hzero, addresses_succ]
        rfl
      · have hfirst : p.Nonzero mem s := ⟨c, hc, hload⟩
        have hscan : scan p mem pp (n + 1) s =
            (s :: (scan p mem pp n (s + 1)).1, (scan p mem pp n (s + 1)).2) := by
          rw [scan, hload]
          exact if_neg hc
        cases ih (s + 1) with
        | nul k hk text nul eq =>
          rw [next_add] at nul eq
          refine .nul (k + 1) (by omega) (.cons hfirst text) nul ?_
          rw [hscan, eq, addresses_succ s]
        | fault k hk text fault eq =>
          rw [next_add] at fault eq
          refine .fault (k + 1) (by omega) (.cons hfirst text) fault ?_
          rw [hscan, eq, addresses_succ s]
        | done text eq =>
          refine .done (.cons hfirst text) ?_
          rw [hscan, eq, addresses_succ s]

-- ---------------------------------------------------------------------------
-- Strings and segments
-- ---------------------------------------------------------------------------

/-- The string at `addr` has length `n`, and ends in the segment in which it
begins. -/
def Proc.EndsAt (p : Proc) (mem : Word → Byte) (addr : Word) (n : Nat) : Prop :=
  ∃ g, p.Holds g addr.toNat ∧ p.Holds g (addr.toNat + n) ∧ p.Text mem addr n ∧
    p.load mem (addr + BitVec.ofNat 32 n) = .ok 0

/-- A text has no NUL in it. -/
theorem Proc.Text.not_nul (h : p.Text mem s n) (hk : k < n) :
    p.load mem (s + BitVec.ofNat 32 k) ≠ .ok 0 := by
  obtain ⟨c, hc, hload⟩ := h k hk
  intro hz
  rw [hload] at hz
  exact hc (Except.ok.inj hz)

/-- A string has one length. -/
theorem Proc.EndsAt.unique (h : p.EndsAt mem addr n) (htext : p.Text mem addr k)
    (hnul : p.load mem (addr + BitVec.ofNat 32 k) = .ok 0) : n = k := by
  obtain ⟨-, -, -, htext', hnul'⟩ := h
  rcases Nat.lt_trichotomy n k with hlt | rfl | hlt
  · exact absurd hnul' (htext.not_nul hlt)
  · rfl
  · exact absurd hnul (htext'.not_nul hlt)

/-- `fetchstr` stays in the segment of its address and returns the length of a
string that ends there, and -1 otherwise. -/
structure FetchstrBounded (p : Proc) (mem : Word → Byte) (addr : Word) : Prop where
  inspects : ∀ va ∈ (fetchstr p mem addr).1, ∃ g, p.Holds g addr.toNat ∧ p.Holds g va.toNat
  length : ∀ n : Nat, (fetchstr p mem addr).2 = .ok (n : Int) ↔ p.EndsAt mem addr n
  otherwise : (∀ n, ¬ p.EndsAt mem addr n) → (fetchstr p mem addr).2 = .ok (-1)

namespace FetchstrBounded

theorem failing (hs : ∀ va ∈ (fetchstr p mem addr).1, ∃ g, p.Holds g addr.toNat ∧ p.Holds g va.toNat)
    (hr : (fetchstr p mem addr).2 = .ok (-1)) (hn : ∀ n, ¬ p.EndsAt mem addr n) :
    FetchstrBounded p mem addr := by
  refine ⟨hs, fun n => iff_of_false (fun he => ?_) (hn n), fun _ => hr⟩
  rw [hr] at he
  have := Except.ok.inj he
  omega

/-- Outside the segments the answer is -1. -/
theorem outside (hf : fetchstr p mem addr = ([], .ok (-1))) (hn : ∀ g, ¬ p.Holds g addr.toNat) :
    FetchstrBounded p mem addr := by
  refine failing (by simp [hf]) (by rw [hf]) ?_
  rintro n ⟨g, hg, -⟩
  exact hn g hg

theorem inspected (h : Segments p) (hg : p.Holds g addr.toNat) (hn : p.Holds g (addr.toNat + n)) :
    ∀ va ∈ addresses addr (n + 1), ∃ g, p.Holds g addr.toNat ∧ p.Holds g va.toNat := by
  intro va hva
  obtain ⟨j, hj, rfl⟩ := mem_addresses.mp hva
  have hlt := hn.lt h
  refine ⟨g, hg, ?_⟩
  rw [toNat_offset (by omega)]
  exact hg.between hn (by omega) (by omega)

/-- A scan that finds the NUL inside the segment is right. -/
theorem ends (h : Segments p) (hg : p.Holds g addr.toNat) (hk : p.Holds g (addr.toNat + k))
    (text : p.Text mem addr k) (nul : p.load mem (addr + BitVec.ofNat 32 k) = .ok 0)
    (hf : fetchstr p mem addr =
      (addresses addr (k + 1), .ok (addr + BitVec.ofNat 32 k - addr).toInt)) :
    FetchstrBounded p mem addr := by
  have hlt := (hk.lt h).2
  have hlen : (addr + BitVec.ofNat 32 k - addr).toInt = k := by
    have hnat : (BitVec.ofNat 32 k).toNat = k := by
      rw [BitVec.toNat_ofNat]
      omega
    rw [BitVec.add_comm, BitVec.add_sub_cancel, BitVec.toInt_eq_toNat_of_lt (by omega), hnat]
  rw [hlen] at hf
  refine ⟨by rw [hf]; exact inspected h hg hk, fun n => ?_, fun hn => ?_⟩
  · rw [hf, Except.ok.injEq, Int.natCast_inj]
    constructor
    · rintro rfl
      exact ⟨g, hg, hk, text, nul⟩
    · exact fun he => (he.unique text nul).symm
  · exact absurd ⟨g, hg, hk, text, nul⟩ (hn k)

/-- A scan that inspects an address outside the segment is not. -/
theorem not_leaves (h : Segments p) (hg : p.Holds g addr.toNat) (hk : addr.toNat + k ≤ 0xA0000)
    (hout : ¬ p.Holds g (addr.toNat + k)) (hmem : addr + BitVec.ofNat 32 k ∈
      (fetchstr p mem addr).1) : ¬ FetchstrBounded p mem addr := by
  intro hb
  obtain ⟨g', hg', hin⟩ := hb.inspects _ hmem
  rw [toNat_offset hk, h.unique hg' hg] at hin
  exact hout hin

end FetchstrBounded

/-- The addresses that `fetchstr` scans. -/
theorem fetchstr_eq_scan (mem : Word → Byte) (hnull : ¬ (addr < PGSIZE ∧ p.pid ≠ 1))
    (hseg : ¬ (p.sz ≤ addr ∧ (addr < p.stackSz ∨ USERTOP ≤ addr))) :
    fetchstr p mem addr = scan p mem addr (0xA0000 - addr.toNat) addr := by
  unfold fetchstr
  rw [if_neg hnull, if_neg hseg]
  rfl

/-- A scan from the stack ends in the stack. -/
theorem fetchstr_stack (h : Segments p) (hg : p.Holds .stack addr.toNat) :
    FetchstrBounded p mem addr := by
  have hheap := h.heap
  have hgap := h.gap
  have hseg : ¬ (p.sz ≤ addr ∧ (addr < p.stackSz ∨ USERTOP ≤ addr)) := fun hc =>
    hc.2.elim (Nat.not_lt.mpr hg.1) (Nat.not_le.mpr hg.2)
  have hnull : ¬ (addr < PGSIZE ∧ p.pid ≠ 1) := fun hc =>
    Nat.not_lt.mpr (hg.lt h).1 hc.1
  have hf := fetchstr_eq_scan mem hnull hseg
  have hhold {k : Nat} (hk : k < 0xA0000 - addr.toNat) : p.Holds .stack (addr.toNat + k) := by
    unfold Proc.Holds Range at hg ⊢
    omega
  cases scanned p mem addr addr (0xA0000 - addr.toNat) with
  | nul k hk text nul eq => exact .ends h hg (hhold hk) text nul (hf.trans eq)
  | fault k hk text fault eq =>
    obtain ⟨c, hc⟩ : ∃ c, p.load mem (addr + BitVec.ofNat 32 k) = .ok c := by
      refine h.load_ok mem (g := .stack) ?_
      rw [toNat_offset (by omega)]
      exact hhold hk
    rw [hc] at fault
    cases fault
  | done text eq =>
    refine .failing ?_ (by rw [hf, eq]) ?_
    · rw [hf, eq]
      intro va hva
      obtain ⟨j, hj, rfl⟩ := mem_addresses.mp hva
      refine ⟨.stack, hg, ?_⟩
      rw [toNat_offset (by omega)]
      exact hhold hj
    · rintro n ⟨g, -, hn, -, hnul⟩
      have hlt := (hn.lt h).2
      exact text.not_nul (by omega) hnul

/-- A scan from the heap stays there if a NUL stops it. -/
theorem fetchstr_heap (h : Segments p) (hg : p.Holds .heap addr.toNat) :
    FetchstrBounded p mem addr ↔
      ∃ n, p.Holds .heap (addr.toNat + n) ∧ p.load mem (addr + BitVec.ofNat 32 n) = .ok 0 := by
  have hlt : addr.toNat < p.sz.toNat := hg.2
  have hgap := h.gap
  have htop := h.top
  have hseg : ¬ (p.sz ≤ addr ∧ (addr < p.stackSz ∨ USERTOP ≤ addr)) := fun hc =>
    Nat.not_le.mpr hg.2 hc.1
  have hnull : ¬ (addr < PGSIZE ∧ p.pid ≠ 1) := fun hc => Nat.not_lt.mpr hg.1 hc.1
  have hf := fetchstr_eq_scan mem hnull hseg
  have hhold {k : Nat} : p.Holds .heap (addr.toNat + k) ↔ addr.toNat + k < p.sz.toNat := by
    unfold Proc.Holds Range at hg ⊢
    omega
  -- a text that the scan has passed holds every NUL of the heap behind it
  have leaves {k : Nat} (hk : addr.toNat + k ≤ 0xA0000) (text : p.Text mem addr k)
      (hout : ¬ addr.toNat + k < p.sz.toNat)
      (hmem : addr + BitVec.ofNat 32 k ∈ (fetchstr p mem addr).1) :
      FetchstrBounded p mem addr ↔
        ∃ n, p.Holds .heap (addr.toNat + n) ∧ p.load mem (addr + BitVec.ofNat 32 n) = .ok 0 := by
    refine iff_of_false (FetchstrBounded.not_leaves h hg hk (mt hhold.mp hout) hmem) ?_
    rintro ⟨n, hn, hnul⟩
    exact text.not_nul (by have := hhold.mp hn; omega) hnul
  cases scanned p mem addr addr (0xA0000 - addr.toNat) with
  | nul k hk text nul eq =>
    by_cases hin : addr.toNat + k < p.sz.toNat
    · exact iff_of_true (.ends h hg (hhold.mpr hin) text nul (hf.trans eq)) ⟨k, hhold.mpr hin, nul⟩
    · refine leaves (by omega) text hin ?_
      rw [hf, eq]
      exact mem_addresses.mpr ⟨k, by omega, rfl⟩
  | fault k hk text fault eq =>
    refine leaves (k := k) (by omega) text (fun hin => ?_) ?_
    · obtain ⟨c, hc⟩ : ∃ c, p.load mem (addr + BitVec.ofNat 32 k) = .ok c := by
        refine h.load_ok mem (g := .heap) ?_
        rw [toNat_offset (by omega)]
        exact hhold.mpr hin
      rw [hc] at fault
      cases fault
    · rw [hf, eq]
      exact mem_addresses.mpr ⟨k, by omega, rfl⟩
  | done text eq =>
    refine leaves (k := p.sz.toNat - addr.toNat) (by omega) (fun j hj => text j (by omega))
      (by omega) ?_
    rw [hf, eq]
    exact mem_addresses.mpr ⟨p.sz.toNat - addr.toNat, by omega, rfl⟩

/-- `fetchstr` runs out of the heap exactly on a string that does not end
there, and lets process 1 begin in page 0. -/
theorem fetchstr_bounded_iff (h : Segments p) (mem : Word → Byte) (addr : Word) :
    FetchstrBounded p mem addr ↔ (p.pid = 1 → PGSIZE ≤ addr) ∧
      (p.Holds .heap addr.toNat →
        ∃ n, p.Holds .heap (addr.toNat + n) ∧ p.load mem (addr + BitVec.ofNat 32 n) = .ok 0) := by
  have hheap := h.heap
  have hgap := h.gap
  have htop := h.top
  by_cases hlow : addr.toNat < 4096
  · have hnone (g : Segment) : ¬ p.Holds g addr.toNat := fun hg =>
      Nat.not_lt.mpr (hg.lt h).1 hlow
    rw [and_iff_left fun hg => absurd hg (hnone .heap)]
    by_cases hpid : p.pid = 1
    · -- the scan begins with a fault
      refine iff_of_false (fun hb => ?_) fun hc => Nat.not_le.mpr hlow (hc hpid)
      have hseg : ¬ (p.sz ≤ addr ∧ (addr < p.stackSz ∨ USERTOP ≤ addr)) := fun hc =>
        Nat.not_le.mpr (Nat.lt_of_lt_of_le hlow hheap) hc.1
      have hf := fetchstr_eq_scan mem (fun hc => hc.2 hpid) hseg
      obtain ⟨n, hn⟩ : ∃ n, 0xA0000 - addr.toNat = n + 1 := ⟨0xA0000 - addr.toNat - 1, by omega⟩
      rw [hn, scan, h.load_null mem hlow] at hf
      obtain ⟨g, hg, -⟩ := hb.inspects addr (by rw [hf]; exact List.mem_singleton_self addr)
      exact hnone g hg
    · exact iff_of_true (.outside (if_pos ⟨hlow, hpid⟩) hnone) fun hc => absurd hc hpid
  have hnull : ¬ (addr < PGSIZE ∧ p.pid ≠ 1) := fun hc => hlow hc.1
  have hpage : PGSIZE ≤ addr := Nat.not_lt.mp hlow
  rw [and_iff_right fun _ => hpage]
  by_cases hhold : p.Holds .heap addr.toNat
  · rw [fetchstr_heap h hhold]
    exact ⟨fun hn _ => hn, fun hn => hn hhold⟩
  refine iff_of_true ?_ fun hc => absurd hc hhold
  by_cases hstack : p.Holds .stack addr.toNat
  · exact fetchstr_stack h hstack
  · refine .outside ((if_neg hnull).trans (if_pos ?_)) fun g => ?_
    · simp only [BitVec.le_def, BitVec.lt_def, toNat_USERTOP]
      unfold Proc.Holds Range at hhold hstack
      omega
    · cases g
      · exact hhold
      · exact hstack

/-- The string at the end of the heap ends there. -/
theorem fetchstr_bounded_heap :
    FetchstrBounded (twoSegments 2) (fun a => if a = 0x300063 then 0 else 7) 4192 := by
  refine (fetchstr_bounded_iff (segments_twoSegments 2) _ _).mpr ⟨?_, fun _ => ⟨3, ?_, rfl⟩⟩
  · exact fun h => absurd h (by decide)
  · exact (by decide : 4096 ≤ 4195 ∧ 4195 < 4196)

/-- Without the NUL the scan leaves the heap, and takes a page fault in the
gap. -/
theorem fetchstr_leaves : Segments (twoSegments 2) ∧
    ¬ FetchstrBounded (twoSegments 2) (fun _ => 7) 4192 := by
  refine ⟨segments_twoSegments 2, fun hb => ?_⟩
  have hhold : (twoSegments 2).Holds .heap (4192 : Word).toNat :=
    (by decide : 4096 ≤ 4192 ∧ 4192 < 4196)
  obtain ⟨n, -, hnul⟩ := (fetchstr_heap (segments_twoSegments 2) hhold).mp hb
  unfold Proc.load at hnul
  split at hnul
  · split at hnul
    · exact absurd (Except.ok.inj hnul) (by decide : (7 : Byte) ≠ 0)
    · cases hnul
  · cases hnul

end PerrOS.Vm
