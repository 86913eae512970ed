import PerrOS.Vm.Exec
import PerrOS.Vm.Space

/-!
# Reading the user's memory

`fetchint`, `fetchstr`, `argint` and `argptr` of `syscall.c` in the tree with a
stack segment. They check an address against the ends of the two segments and
then use it as it stands, in the page tables of the process.
-/

namespace PerrOS.Vm

/-- The byte that the kernel reads at `va`, or the address of the page fault
that it takes. -/
def Proc.load (p : Proc) (mem : Word → Byte) (va : Word) : Except Word Byte :=
  match p.pgdir.bind fun pgdir => pgdir.pte va with
  | some pte =>
    if present pte then .ok (mem (PTE_ADDR pte + (va - PGROUNDDOWN va))) else .error va
  | none => .error va

/-- `*(int*)(addr)`, the lowest byte first. -/
def Proc.loadInt (p : Proc) (mem : Word → Byte) (addr : Word) : Except Word Word := do
  let b0 ← p.load mem addr
  let b1 ← p.load mem (addr + 1)
  let b2 ← p.load mem (addr + 2)
  let b3 ← p.load mem (addr + 3)
  return b3 ++ b2 ++ b1 ++ b0

variable (p : Proc) (mem : Word → Byte)

/-- The `int` at `addr`, or -1. The process is the current one in every call. -/
def fetchint (addr : Word) : Except Word (Option Word) :=
  if addr < PGSIZE ∧ p.pid ≠ 1 then return none
  else if (p.sz ≤ addr ∨ p.sz < addr + 4) ∧
      (addr < p.stackSz ∨ USERTOP ≤ addr ∨ USERTOP ≤ addr + 4) then
    return none
  else do
    let i ← p.loadInt mem addr
    return some i

/-- The loop of `fetchstr` for the `n` addresses from `s` up to `ep`: those it
has inspected, and its result. -/
def scan (pp : Word) : Nat → Word → List Word × Except Word Int
  | 0, _ => ([], .ok (-1))
  | n + 1, s =>
    match p.load mem s with
    | .error va => ([s], .error va)
    | .ok c =>
      if c = 0 then ([s], .ok (s - pp).toInt)
      else
        let r := scan pp n (s + 1)
        (s :: r.1, r.2)

def fetchstr (addr : Word) : List Word × Except Word Int :=
  if addr < PGSIZE ∧ p.pid ≠ 1 then ([], .ok (-1))
  else if p.sz ≤ addr ∧ (addr < p.stackSz ∨ USERTOP ≤ addr) then ([], .ok (-1))
  else scan p mem addr (USERTOP.toNat - addr.toNat) addr

def argint (n : Word) : Except Word (Option Word) := fetchint p mem (p.tf.esp + 4 + 4 * n)

def insideCodeHeap (aVal size : Word) : Prop := aVal < p.sz ∧ aVal + size ≤ p.sz

def insideOfStack (aVal size : Word) : Prop :=
  aVal < USERTOP ∧ aVal + size ≤ USERTOP ∧ p.stackSz ≤ aVal

instance : Decidable (insideCodeHeap p aVal size) :=
  inferInstanceAs (Decidable (aVal < p.sz ∧ aVal + size ≤ p.sz))

instance : Decidable (insideOfStack p aVal size) :=
  inferInstanceAs (Decidable (aVal < USERTOP ∧ aVal + size ≤ USERTOP ∧ p.stackSz ≤ aVal))

/-- The `n`th argument as a pointer to `size` bytes, or -1. -/
def argptr (n size : Word) : Except Word (Option Word) := do
  match ← argint p mem n with
  | none => return none
  | some i =>
    if i < PGSIZE then return none
    else if ¬ (insideCodeHeap p i size ∨ insideOfStack p i size) then return none
    else return some i

-- ---------------------------------------------------------------------------
-- Segments
-- ---------------------------------------------------------------------------

inductive Segment
  | heap
  | stack

variable {p : Proc} {mem : Word → Byte} {addr va : Word} {g g' : Segment}

/-- The addresses of a segment. -/
def Proc.Holds (p : Proc) : Segment → Nat → Prop
  | .heap => Range 4096 p.sz.toNat
  | .stack => Range p.stackSz.toNat 0xA0000

/-- The heap ends below the stack, and their pages are the user's pages that are
mapped. -/
structure Segments (p : Proc) : Prop where
  heap : 4096 ≤ p.sz.toNat
  gap : p.sz.toNat < p.stackSz.toNat
  top : p.stackSz.toNat ≤ 0xA0000
  mapped : ∃ d, p.pgdir = some d ∧ ∀ va : Word, va.toNat < 0xA0000 →
    (d.Mapped va ↔ Range 4096 (pageUp p.sz.toNat) va.toNat ∨ Range p.stackSz.toNat 0xA0000 va.toNat)

/-- The `n` bytes from `a` on lie in one segment. -/
def Proc.InSegment (p : Proc) (a n : Nat) : Prop := ∃ g, ∀ k < n, p.Holds g (a + k)

theorem Proc.inSegment_iff (p : Proc) (a n : Nat) : p.InSegment a n ↔
    n = 0 ∨ (4096 ≤ a ∧ a + n ≤ p.sz.toNat) ∨ (p.stackSz.toNat ≤ a ∧ a + n ≤ 0xA0000) := by
  constructor
  · rintro ⟨g, hg⟩
    rcases Nat.eq_zero_or_pos n with rfl | hn
    · exact .inl rfl
    have hfirst := hg 0 hn
    have hlast := hg (n - 1) (by omega)
    cases g with
    | heap =>
      unfold Proc.Holds Range at hfirst hlast
      omega
    | stack =>
      unfold Proc.Holds Range at hfirst hlast
      omega
  · rintro (rfl | h | h)
    · exact ⟨.heap, fun k hk => absurd hk (Nat.not_lt_zero k)⟩
    · exact ⟨.heap, fun k hk => ⟨by omega, by omega⟩⟩
    · exact ⟨.stack, fun k hk => ⟨by omega, by omega⟩⟩

theorem Proc.load_of_mapped {d : Pgdir} (hd : p.pgdir = some d) (h : d.Mapped va) :
    ∃ b, p.load mem va = .ok b := by
  obtain ⟨pte, hpte, hpres⟩ := h
  refine ⟨mem (PTE_ADDR pte + (va - PGROUNDDOWN va)), ?_⟩
  simp only [load, hd, Option.bind_some, hpte, hpres, if_true]

theorem Proc.load_of_not_mapped {d : Pgdir} (hd : p.pgdir = some d) (h : ¬ d.Mapped va) :
    p.load mem va = .error va := by
  unfold load
  rw [hd, Option.bind_some]
  split
  · next pte hpte => exact if_neg fun hpres => h ⟨pte, hpte, hpres⟩
  · rfl

theorem Segments.unique (h : Segments p) {a : Nat} (hg : p.Holds g a) (hg' : p.Holds g' a) :
    g = g' := by
  have hgap := h.gap
  cases g <;> cases g'
  · rfl
  · unfold Proc.Holds Range at hg hg'
    omega
  · unfold Proc.Holds Range at hg hg'
    omega
  · rfl

theorem Proc.Holds.lt (h : Segments p) {a : Nat} (hg : p.Holds g a) : 4096 ≤ a ∧ a < 0xA0000 := by
  have hheap := h.heap
  have hgap := h.gap
  have htop := h.top
  cases g <;> unfold Proc.Holds Range at hg <;> omega

/-- A segment has no holes. -/
theorem Proc.Holds.between {a b c : Nat} (ha : p.Holds g a) (hc : p.Holds g c) (hab : a ≤ b)
    (hbc : b ≤ c) : p.Holds g b := by
  cases g <;> exact ⟨Nat.le_trans ha.1 hab, Nat.lt_of_le_of_lt hbc hc.2⟩

namespace Segments

theorem load_iff (h : Segments p) (mem : Word → Byte) (hva : va.toNat < 0xA0000) :
    (∃ b, p.load mem va = .ok b) ↔
      Range 4096 (pageUp p.sz.toNat) va.toNat ∨ Range p.stackSz.toNat 0xA0000 va.toNat := by
  obtain ⟨d, hd, hmap⟩ := h.mapped
  rw [← hmap va hva]
  constructor
  · rintro ⟨b, hb⟩
    by_contra hn
    rw [Proc.load_of_not_mapped hd hn] at hb
    cases hb
  · exact Proc.load_of_mapped hd

/-- A byte of a segment can be read. -/
theorem load_ok (h : Segments p) (mem : Word → Byte) (hg : p.Holds g va.toNat) :
    ∃ b, p.load mem va = .ok b := by
  have hgap := h.gap
  have htop := h.top
  cases g with
  | heap =>
    unfold Proc.Holds Range at hg
    refine (h.load_iff mem (by omega)).mpr (.inl ⟨hg.1, ?_⟩)
    unfold pageUp
    omega
  | stack => exact (h.load_iff mem hg.2).mpr (.inr hg)

/-- Below `PGSIZE` nothing is mapped. -/
theorem load_null (h : Segments p) (mem : Word → Byte) (hva : va.toNat < 4096) :
    p.load mem va = .error va := by
  have hheap := h.heap
  have hgap := h.gap
  obtain ⟨d, hd, hmap⟩ := h.mapped
  refine Proc.load_of_not_mapped hd fun hm => ?_
  have := (hmap va (by omega)).mp hm
  unfold Range at this
  omega

end Segments

-- ---------------------------------------------------------------------------
-- A word
-- ---------------------------------------------------------------------------

theorem toNat_offset {k : Nat} (hk : addr.toNat + k ≤ 0xA0000) :
    (addr + BitVec.ofNat 32 k).toNat = addr.toNat + k := by
  rw [BitVec.toNat_add, BitVec.toNat_ofNat]
  omega

/-- A word in a segment can be read. -/
theorem Segments.loadInt (h : Segments p) (mem : Word → Byte) (hw : p.InSegment addr.toNat 4) :
    ∃ i, p.loadInt mem addr = .ok i := by
  have hbyte (k : Nat) (hk : k < 4) : ∃ b, p.load mem (addr + BitVec.ofNat 32 k) = .ok b := by
    obtain ⟨g, hg⟩ := hw
    refine h.load_ok mem (g := g) ?_
    rw [toNat_offset (Nat.le_of_lt ((hg k hk).lt h).2)]
    exact hg k hk
  obtain ⟨b0, h0⟩ := hbyte 0 (by decide)
  obtain ⟨b1, h1⟩ := hbyte 1 (by decide)
  obtain ⟨b2, h2⟩ := hbyte 2 (by decide)
  obtain ⟨b3, h3⟩ := hbyte 3 (by decide)
  rw [show addr + BitVec.ofNat 32 0 = addr from BitVec.add_zero addr] at h0
  refine ⟨b3 ++ b2 ++ b1 ++ b0, ?_⟩
  unfold Proc.loadInt
  rw [h0, show p.load mem (addr + 1) = .ok b1 from h1, show p.load mem (addr + 2) = .ok b2 from h2,
    show p.load mem (addr + 3) = .ok b3 from h3]
  rfl

/-- The checks of `fetchint` let a word of a segment through, except the last
one below `USERTOP`. -/
theorem fetchint_checks (h : Segments p) (haddr : 4096 ≤ addr.toNat) :
    ¬ ((p.sz ≤ addr ∨ p.sz < addr + 4) ∧
        (addr < p.stackSz ∨ USERTOP ≤ addr ∨ USERTOP ≤ addr + 4)) ↔
      p.InSegment addr.toNat 4 ∧ (addr = USERTOP - 4 → USERTOP ≤ p.sz) := by
  have hgap := h.gap
  have htop := h.top
  have hlt := addr.isLt
  have hnum : (USERTOP - 4).toNat = 0x9FFFC := by decide
  rw [p.inSegment_iff, ← BitVec.toNat_inj, hnum]
  simp only [BitVec.le_def, BitVec.lt_def, BitVec.toNat_add, toNat_USERTOP]
  have hfour : (4 : Word).toNat = 4 := rfl
  rw [hfour]
  omega

/-- What the checks of `argptr` let through, for a size that is not negative. -/
theorem argptr_checks (h : Segments p) {i size : Word} (hsize : size.toNat < 2 ^ 31) :
    ¬ i < PGSIZE ∧ (insideCodeHeap p i size ∨ insideOfStack p i size) ↔
      p.InSegment i.toNat size.toNat ∧ p.InSegment i.toNat 1 := by
  have hheap := h.heap
  have hgap := h.gap
  have htop := h.top
  have hlt := i.isLt
  simp only [p.inSegment_iff, insideCodeHeap, insideOfStack, BitVec.le_def, BitVec.lt_def,
    BitVec.toNat_add, toNat_USERTOP, toNat_PGSIZE]
  omega

theorem argptr_eq_some {n size a : Word} : argptr p mem n size = .ok (some a) ↔
    argint p mem n = .ok (some a) ∧
      ¬ a < PGSIZE ∧ (insideCodeHeap p a size ∨ insideOfStack p a size) := by
  unfold argptr
  cases argint p mem n with
  | error va => exact iff_of_false (fun hc => by cases hc) fun hc => by cases hc.1
  | ok o =>
    cases o with
    | none => exact iff_of_false (fun hc => by cases hc) fun hc => by cases hc.1
    | some i =>
      have hret {o : Option Word} : (pure o : Except Word (Option Word)) = .ok (some a) ↔
          o = some a := ⟨fun hc => Except.ok.inj hc, fun hc => congrArg Except.ok hc⟩
      change (if i < PGSIZE then pure none
        else if ¬ (insideCodeHeap p i size ∨ insideOfStack p i size) then pure none
        else pure (some i) : Except Word (Option Word)) = _ ↔ _
      rw [Except.ok.injEq, Option.some.injEq]
      split
      · next hlow =>
        refine iff_of_false (fun hc => by cases hret.mp hc) ?_
        rintro ⟨rfl, hc, -⟩
        exact hc hlow
      split
      · next hout =>
        refine iff_of_false (fun hc => by cases hret.mp hc) ?_
        rintro ⟨rfl, -, hc⟩
        exact hout hc
      · next hlow hin =>
        rw [hret, Option.some.injEq]
        refine ⟨fun he => ⟨he, ?_⟩, fun hc => hc.1⟩
        rw [← he]
        exact ⟨hlow, not_not.mp hin⟩

/-- `fetchint` takes exactly the words of a segment, as `argptr` does for a
block of four bytes, and reads mapped pages only. -/
structure FetchintExact (p : Proc) (mem : Word → Byte) (addr : Word) : Prop where
  accepts : (∃ i, fetchint p mem addr = .ok (some i)) ↔ p.InSegment addr.toNat 4
  agrees : ∀ n, argint p mem n = .ok (some addr) →
    ((∃ i, fetchint p mem addr = .ok (some i)) ↔ argptr p mem n 4 = .ok (some addr))
  mapped : ∀ va, fetchint p mem addr ≠ .error va

/-- Where the checks let the address through, the word is read. -/
theorem fetchint_eq (mem : Word → Byte) (hnull : ¬ (addr < PGSIZE ∧ p.pid ≠ 1)) :
    fetchint p mem addr =
    if (p.sz ≤ addr ∨ p.sz < addr + 4) ∧
      (addr < p.stackSz ∨ USERTOP ≤ addr ∨ USERTOP ≤ addr + 4) then .ok none
    else (p.loadInt mem addr).map some := by
  unfold fetchint
  rw [if_neg hnull]
  split
  · rfl
  · cases p.loadInt mem addr <;> rfl

/-- Turning an address down is right outside the segments. -/
theorem FetchintExact.rejected (h : Segments p) (hf : fetchint p mem addr = .ok none)
    (hw : ¬ p.InSegment addr.toNat 4) : FetchintExact p mem addr := by
  have hnone : ¬ ∃ i, fetchint p mem addr = .ok (some i) := by simp [hf]
  refine ⟨iff_of_false hnone hw, fun n _ => iff_of_false hnone fun hp => hw ?_, by simp [hf]⟩
  exact ((argptr_checks h (by decide)).mp (argptr_eq_some.mp hp).2).1

/-- Reading a word is right inside a segment. -/
theorem FetchintExact.accepted {i : Word} (h : Segments p)
    (hf : fetchint p mem addr = .ok (some i)) (hw : p.InSegment addr.toNat 4) :
    FetchintExact p mem addr := by
  have hsome : ∃ i, fetchint p mem addr = .ok (some i) := ⟨i, hf⟩
  refine ⟨iff_of_true hsome hw, fun n hn => iff_of_true hsome ?_, by simp [hf]⟩
  obtain ⟨g, hg⟩ := hw
  refine argptr_eq_some.mpr ⟨hn, (argptr_checks h (by decide)).mpr ⟨⟨g, hg⟩, g, ?_⟩⟩
  exact fun k hk => hg k (Nat.lt_trans hk (by decide))

/-- `fetchint` fails on the last word of the stack, and process 1 may pass
addresses of page 0, which is not mapped. -/
theorem fetchint_exact_iff (h : Segments p) (hstack : p.stackSz.toNat + 4096 ≤ 0xA0000)
    (mem : Word → Byte) (addr : Word) :
    FetchintExact p mem addr ↔
      addr ≠ USERTOP - 4 ∧ (p.pid = 1 → PGSIZE ≤ addr ∨ p.sz < addr + 4) := by
  have hheap := h.heap
  have hgap := h.gap
  by_cases haddr : 4096 ≤ addr.toNat
  · have hnull : ¬ (addr < PGSIZE ∧ p.pid ≠ 1) := fun hc => Nat.not_lt.mpr haddr hc.1
    have hsz : ¬ USERTOP ≤ p.sz := by
      rw [BitVec.le_def, toNat_USERTOP]
      omega
    have hchecks := fetchint_checks h haddr
    rw [and_iff_left fun _ => .inl haddr]
    constructor
    · rintro hexact rfl
      have hw : p.InSegment (USERTOP - 4).toNat 4 :=
        (p.inSegment_iff _ _).mpr (.inr (.inr ⟨by
          rw [show (USERTOP - 4).toNat = 0x9FFFC by decide]
          omega, by decide⟩))
      obtain ⟨i, hi⟩ := hexact.accepts.mpr hw
      rw [fetchint_eq mem hnull, if_pos (not_not.mp fun hc => hsz ((hchecks.mp hc).2 rfl))] at hi
      cases hi
    · intro hne
      by_cases hw : p.InSegment addr.toNat 4
      · obtain ⟨i, hi⟩ := h.loadInt mem hw
        refine .accepted (i := i) h ?_ hw
        rw [fetchint_eq mem hnull, if_neg (hchecks.mpr ⟨hw, fun he => absurd he hne⟩), hi]
        rfl
      · refine .rejected h ?_ hw
        rw [fetchint_eq mem hnull, if_pos (not_not.mp fun hc => hw (hchecks.mp hc).1)]
  · have hlow : addr.toNat < 4096 := Nat.not_le.mp haddr
    have hne : addr ≠ USERTOP - 4 := by
      rintro rfl
      exact haddr (by decide)
    have hw : ¬ p.InSegment addr.toNat 4 := by
      rw [p.inSegment_iff]
      omega
    have hle : ¬ PGSIZE ≤ addr := haddr
    rw [and_iff_right hne]
    by_cases hpid : p.pid = 1
    · have hnull : ¬ (addr < PGSIZE ∧ p.pid ≠ 1) := fun hc => hc.2 hpid
      have hfirst : ¬ p.sz ≤ addr := by
        rw [BitVec.le_def]
        omega
      have hbelow : addr < p.stackSz := by
        rw [BitVec.lt_def]
        omega
      have hf := fetchint_eq mem hnull
      by_cases hsz : p.sz < addr + 4
      · rw [if_pos ⟨.inr hsz, .inl hbelow⟩] at hf
        exact iff_of_true (.rejected h hf hw) fun _ => .inr hsz
      · -- the checks pass and the first byte of the word faults
        rw [if_neg fun hc => hc.1.elim hfirst hsz, Proc.loadInt, h.load_null mem hlow] at hf
        exact iff_of_false (fun hexact => hexact.mapped addr hf) fun hc =>
          (hc hpid).elim hle hsz
    · refine iff_of_true (.rejected h ?_ hw) fun hc => absurd hc hpid
      exact if_pos ⟨hlow, hpid⟩

-- Two pages of user memory, with 100 bytes of heap in the first one.
def twoPages : Pgdir where
  frame := 0x200000
  pde i := if i = 0 then
      some ⟨0x201000, fun j => if j = 1 then 0x300007 else if j = 0x9F then 0x301007 else 0⟩
    else none

def twoSegments (pid : Int) : Proc :=
  ⟨4196, 0x9F000, some twoPages, 0x202000, .running, pid, none, ⟨0, 0, 0x9FF00⟩, false,
    fun _ => none, 0, "sh"⟩

theorem mapped_twoPages (hva : va.toNat < 0xA0000) :
    twoPages.Mapped va ↔ va.toNat / 4096 = 1 ∨ va.toNat / 4096 = 0x9F := by
  have hdir : PDX va = 0 := by
    rw [← BitVec.toNat_inj, toNat_PDX]
    exact Nat.div_eq_of_lt (Nat.lt_trans hva (by decide))
  have htab : (PTX va).toNat = va.toNat / 4096 := by
    rw [PTX, BitVec.toNat_setWidth, BitVec.toNat_ushiftRight, Nat.shiftRight_eq_div_pow]
    omega
  have hpte : twoPages.pte va = some (if PTX va = 1 then 0x300007
      else if PTX va = 0x9F then 0x301007 else 0) := by
    rw [Pgdir.pte, hdir]
    rfl
  have hone : PTX va = 1 ↔ va.toNat / 4096 = 1 := by
    rw [← BitVec.toNat_inj, htab]
    rfl
  have htop : PTX va = 0x9F ↔ va.toNat / 4096 = 0x9F := by
    rw [← BitVec.toNat_inj, htab]
    rfl
  rw [Pgdir.Mapped, hpte, ← hone, ← htop]
  by_cases h1 : PTX va = 1
  · simp [h1, present, PTE_P]
  by_cases h2 : PTX va = 0x9F
  · simp [h2, present, PTE_P]
  · refine iff_of_false ?_ fun hc => hc.elim h1 h2
    rintro ⟨q, hq, hpres⟩
    rw [if_neg h1, if_neg h2] at hq
    obtain rfl := Option.some.inj hq
    simp [present] at hpres

theorem segments_twoSegments (pid : Int) : Segments (twoSegments pid) := by
  refine ⟨(by decide : 4096 ≤ (4196 : Word).toNat),
    (by decide : (4196 : Word).toNat < (0x9F000 : Word).toNat),
    (by decide : (0x9F000 : Word).toNat ≤ 0xA0000), twoPages, rfl, fun va hva => ?_⟩
  have hup : pageUp (twoSegments pid).sz.toNat = 8192 := (by decide : pageUp 4196 = 8192)
  rw [mapped_twoPages hva, hup, show (twoSegments pid).stackSz.toNat = 0x9F000 from rfl]
  unfold Range
  omega

theorem fetchint_exact_heap : FetchintExact (twoSegments 2) (fun _ => 7) 4192 :=
  (fetchint_exact_iff (segments_twoSegments 2) (by decide) _ _).mpr ⟨by decide, fun h => by cases h⟩

/-- The last word of the stack, where `argptr` lets four bytes through. -/
theorem fetchint_top : Segments (twoSegments 2) ∧
    (insideOfStack (twoSegments 2) (USERTOP - 4) 4 ∧
      fetchint (twoSegments 2) (fun _ => 7) (USERTOP - 4) = .ok none) ∧
    ¬ FetchintExact (twoSegments 2) (fun _ => 7) (USERTOP - 4) := by
  have hnone : fetchint (twoSegments 2) (fun _ => 7) (USERTOP - 4) = .ok none := rfl
  refine ⟨segments_twoSegments 2, ⟨by decide, hnone⟩, fun h => ?_⟩
  obtain ⟨i, hi⟩ := h.accepts.mpr (((twoSegments 2).inSegment_iff _ _).mpr (.inr (.inr (by decide))))
  rw [hnone] at hi
  cases hi

end PerrOS.Vm
