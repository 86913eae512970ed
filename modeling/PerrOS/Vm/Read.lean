import PerrOS.Vm.Strings

/-!
# Reading a file into the user's memory

`sys_read` and what it calls, down to the addresses that bytes are stored to.
The length of the buffer is an `int` for `argptr`, `piperead` and
`consoleread`, and a `uint` for `readi`.
-/

namespace PerrOS.Vm

/-- Maximum major device number. -/
def NDEV : Int := 10

/-- The major number of the console, the only device that can be read. -/
def CONSOLE : Int := 1

/-- What `readi` looks at in an inode: the characters that reach the console
until the process is killed, or the size of a file. -/
inductive Inode
  | dev (major : Int) (input : List Byte)
  | file (size : Word)

/-- The type of a `struct file`. Of a pipe: the number of bytes in it once the
wait for some is over, unless the process is killed. -/
inductive FileType
  | none
  | pipe (avail : Option Nat)
  | inode (ip : Inode)

/-- The fields of `struct file` that reading looks at. -/
structure OpenFile where
  readable : Bool
  type : FileType
  off : Word

/-- What a read does: the addresses it stores to, were they all mapped, and
what it returns unless the kernel panics. -/
structure Transfer where
  copied : List Word
  ret : Option Int

def Transfer.fail : Transfer := ⟨[], some (-1)⟩

-- ---------------------------------------------------------------------------
-- The code
-- ---------------------------------------------------------------------------

/-- The loop stores one byte a turn while there are some. -/
def piperead (avail : Option Nat) (addr n : Word) : Transfer :=
  match avail with
  | none => .fail
  | some avail =>
    let i := min n.toInt.toNat avail
    ⟨addresses addr i, some i⟩

/-- The loop of `consoleread`, with `n` characters still to read; the second
part is what is then left of `n`, unless the process is killed. -/
def consoleLoop : List Byte → Nat → Word → List Word × Option Nat
  | _, 0, _ => ([], some 0)
  | [], _ + 1, _ => ([], none)
  | c :: input, n + 1, dst =>
    if c = 4 then ([], some (n + 1)) -- C('D')
    else if c = 10 then ([dst], some n) -- '\n'
    else
      let r := consoleLoop input n (dst + 1)
      (dst :: r.1, r.2)

def consoleread (input : List Byte) (dst n : Word) : Transfer :=
  let target := n.toInt.toNat
  let r := consoleLoop input target dst
  ⟨r.1, some (match r.2 with
    | some n => (target : Int) - n
    | none => -1)⟩

/-- The loop of `readi`; it ends in a panic of `bmap` beyond `MAXFILE` blocks,
so `MAXFILE` turns are all there can be. -/
def readLoop (n : Word) : Nat → Word → Word → Word → List Word × Option Unit
  | 0, tot, _, _ => ([], if tot < n then none else some ())
  | k + 1, tot, off, dst =>
    if tot < n then
      if MAXFILE ≤ off.toNat / BSIZE then ([], none)
      else
        let rest := BitVec.ofNat 32 (BSIZE - off.toNat % BSIZE)
        let m := if n - tot < rest then n - tot else rest
        let r := readLoop n k (tot + m) (off + m) (dst + m)
        (addresses dst m.toNat ++ r.1, r.2)
    else ([], some ())

def Inode.readi (ip : Inode) (dst off n : Word) : Transfer :=
  match ip with
  | .dev major input =>
    if major < 0 ∨ NDEV ≤ major ∨ major ≠ CONSOLE then .fail
    else consoleread input dst n
  | .file size =>
    if size < off ∨ off + n < off then .fail
    else
      let n := if size < off + n then size - off else n
      let r := readLoop n MAXFILE 0 off dst
      ⟨r.1, r.2.map fun _ => n.toInt⟩

/-- What is read, and the file with its new offset. -/
def fileread (f : OpenFile) (addr n : Word) : Transfer × OpenFile :=
  if f.readable = false then (.fail, f)
  else
    match f.type with
    | .pipe avail => (piperead avail addr n, f)
    | .inode ip =>
      let r := ip.readi addr f.off n
      match r.ret with
      | some k => (r, if 0 < k then { f with off := f.off + BitVec.ofInt 32 k } else f)
      | none => (r, f)
    | .none => (⟨[], none⟩, f) -- panic

variable (p : Proc) (mem : Word → Byte) (file : Nat → OpenFile)

/-- The `n`th argument as a file descriptor. -/
def argfd (n : Word) : Except Word (Option Nat) := do
  match ← argint p mem n with
  | none => return none
  | some fd =>
    -- as a word, a negative `fd` is not below `NOFILE`
    if h : fd.toNat < NOFILE then return p.ofile ⟨fd.toNat, h⟩
    else return none

def sysRead : Except Word Transfer := do
  match ← argfd p mem 0 with
  | none => return .fail
  | some f =>
    match ← argint p mem 2 with
    | none => return .fail
    | some n =>
      match ← argptr p mem 1 n with
      | none => return .fail
      | some a => return (fileread (file f) a n).1

-- ---------------------------------------------------------------------------
-- What is stored
-- ---------------------------------------------------------------------------

variable {p : Proc} {mem : Word → Byte} {file : Nat → OpenFile}
variable {a addr dst off n size tot va : Word} {k m : Nat} {g : Segment} {f : OpenFile}

theorem addresses_add (s : Word) (m k : Nat) :
    addresses s (m + k) = addresses s m ++ addresses (s + BitVec.ofNat 32 m) k := by
  unfold addresses
  rw [List.range_add, List.map_append, List.map_map]
  congr 1
  refine List.map_congr_left fun j _ => ?_
  change s + BitVec.ofNat 32 (m + j) = _
  rw [BitVec.ofNat_add, BitVec.add_assoc]

/-- The console stores to the first few addresses of the buffer. -/
theorem consoleLoop_copied (input : List Byte) (n : Nat) (dst : Word) :
    ∃ m ≤ n, (consoleLoop input n dst).1 = addresses dst m := by
  induction n generalizing input dst with
  | zero =>
    refine ⟨0, Nat.le_refl 0, ?_⟩
    rw [consoleLoop]
    rfl
  | succ n ih =>
    cases input with
    | nil => exact ⟨0, Nat.zero_le _, rfl⟩
    | cons c input =>
      unfold consoleLoop
      split
      · exact ⟨0, Nat.zero_le _, rfl⟩
      split
      · exact ⟨1, Nat.succ_pos n, by rw [addresses_succ]; rfl⟩
      · obtain ⟨m, hm, he⟩ := ih input (dst + 1)
        exact ⟨m + 1, Nat.succ_le_succ hm, by rw [addresses_succ, ← he]⟩

/-- A turn of the loop of `readi` takes `m` bytes at offset `o`, with `t` of the
`n` bytes taken before. -/
def Turn (n t o m : Nat) : Prop := m = min (n - t) (512 - o % 512)

/-- What a turn leaves to the others. -/
theorem Turn.count {n t o m : Nat} (h : Turn n t o m) (hlt : t < n) (ho : o / 512 < 140) :
    min (n - t) (71680 - o) = m + min (n - (t + m)) (71680 - (o + m)) := by
  unfold Turn at h
  omega

/-- A turn that does not end the transfer ends the block. -/
theorem Turn.block {n t o m : Nat} (h : Turn n t o m) (hk : 140 ≤ o / 512 + (k + 1))
    (hlt : t + m < n) : 140 ≤ (o + m) / 512 + k := by
  unfold Turn at h
  omega

/-- The loop of `readi` stores to addresses that follow each other. -/
theorem readLoop_copied (hn : tot ≤ n) (hoff : off.toNat + (n.toNat - tot.toNat) < 2 ^ 32)
    (hk : tot.toNat < n.toNat → 140 ≤ off.toNat / 512 + k) : (readLoop n k tot off dst).1 =
      addresses dst (min (n.toNat - tot.toNat) (71680 - off.toNat)) := by
  have hle : tot.toNat ≤ n.toNat := hn
  have hfile : MAXFILE = 140 := by decide
  have hblock : BSIZE = 512 := rfl
  induction k generalizing tot off dst with
  | zero =>
    have hzero : min (n.toNat - tot.toNat) (71680 - off.toNat) = 0 := by omega
    rw [hzero]
    rfl
  | succ k ih =>
    unfold readLoop
    by_cases hlt : tot < n
    · have hlt' : tot.toNat < n.toNat := hlt
      rw [if_pos hlt]
      by_cases hend : 140 ≤ off.toNat / 512
      · have hzero : min (n.toNat - tot.toNat) (71680 - off.toNat) = 0 := by omega
        rw [if_pos (by rwa [hfile, hblock]), hzero]
        rfl
      rw [if_neg (by rwa [hfile, hblock])]
      dsimp only
      rw [hblock]
      have hsub : (n - tot).toNat = n.toNat - tot.toNat := BitVec.toNat_sub_of_le hn
      have hrest : (BitVec.ofNat 32 (512 - off.toNat % 512)).toNat = 512 - off.toNat % 512 := by
        rw [BitVec.toNat_ofNat]
        omega
      generalize hm : (if n - tot < BitVec.ofNat 32 (512 - off.toNat % 512) then n - tot
        else BitVec.ofNat 32 (512 - off.toNat % 512)) = m
      have hturn : Turn n.toNat tot.toNat off.toNat m.toNat := by
        unfold Turn
        rw [← hm]
        split
        · next hc =>
          have hc : (n - tot).toNat < _ := hc
          omega
        · next hc =>
          have hc : ¬ (n - tot).toNat < _ := hc
          omega
      have hmle : m.toNat ≤ n.toNat - tot.toNat := hturn.trans_le (Nat.min_le_left ..)
      have htot : (tot + m).toNat = tot.toNat + m.toNat := by
        have := n.isLt
        rw [BitVec.toNat_add, Nat.mod_eq_of_lt (by omega)]
      have hnext : (off + m).toNat = off.toNat + m.toNat := by
        rw [BitVec.toNat_add, Nat.mod_eq_of_lt (by omega)]
      have hdst : dst + m = dst + BitVec.ofNat 32 m.toNat := by
        rw [BitVec.ofNat_toNat, BitVec.setWidth_eq]
      have hcount := hturn.count hlt' (Nat.not_le.mp hend)
      have hle' : (tot + m).toNat ≤ n.toNat := by omega
      have hblocks (h : (tot + m).toNat < n.toNat) : 140 ≤ (off + m).toNat / 512 + k := by
        rw [hnext]
        exact hturn.block (hk hlt') (htot ▸ h)
      rw [ih hle' (by omega) hblocks hle', hcount, addresses_add, ← hdst, htot, hnext]
    · rw [if_neg hlt, Nat.sub_eq_zero_of_le (Nat.not_lt.mp hlt), Nat.zero_min]
      rfl

theorem Inode.readi_file (hoff : ¬ (size < off ∨ off + n < off)) :
    ((Inode.file size).readi dst off n).copied =
      addresses dst (min (min n.toNat (size.toNat - off.toNat)) (71680 - off.toNat)) := by
  obtain ⟨hsize, hwrap⟩ := not_or.mp hoff
  have hsize : off.toNat ≤ size.toNat := Nat.not_lt.mp hsize
  have hsum : (off + n).toNat = off.toNat + n.toNat := by
    rw [BitVec.lt_def, BitVec.toNat_add] at hwrap
    rw [BitVec.toNat_add]
    omega
  have hbound := (off + n).isLt
  have hsub : (size - off).toNat = size.toNat - off.toNat := BitVec.toNat_sub_of_le hsize
  have hfile : MAXFILE = 140 := by decide
  unfold readi
  dsimp only
  rw [if_neg hoff]
  generalize hn : (if size < off + n then size - off else n) = n'
  have hmin : n'.toNat = min n.toNat (size.toNat - off.toNat) := by
    rw [← hn]
    split
    · next hlt =>
      have hlt : size.toNat < (off + n).toNat := hlt
      omega
    · next hlt =>
      have hlt : ¬ size.toNat < (off + n).toNat := hlt
      omega
  have hzero : (0 : Word).toNat = 0 := rfl
  change (readLoop n' MAXFILE 0 off dst).1 = _
  rw [readLoop_copied (BitVec.le_def.mpr (Nat.zero_le _)), hmin, hzero, Nat.sub_zero]
  · rw [hmin, hzero]
    omega
  · rw [hfile]
    omega

theorem Inode.readi_fails (hoff : size < off ∨ off + n < off) :
    (Inode.file size).readi dst off n = .fail := if_pos hoff

theorem fileread_transfer (hr : f.readable = true) : (fileread f a n).1 =
    match f.type with
    | .pipe avail => piperead avail a n
    | .inode ip => ip.readi a f.off n
    | .none => ⟨[], none⟩ := by
  unfold fileread
  rw [if_neg (by rw [hr]; decide)]
  split
  · rfl
  · dsimp only
    split <;> rfl
  · rfl

/-- For a length that is not negative, a read stays within it. -/
theorem fileread_copied (f : OpenFile) (a : Word) (hn : 0 ≤ n.toInt) :
    ∃ m ≤ n.toNat, (fileread f a n).1.copied = addresses a m := by
  have hint : n.toInt.toNat = n.toNat := by
    rw [BitVec.toInt_eq_toNat_cond] at hn ⊢
    split at hn <;> omega
  have hfail : ∃ m ≤ n.toNat, Transfer.fail.copied = addresses a m := ⟨0, Nat.zero_le _, rfl⟩
  cases hr : f.readable with
  | false =>
    unfold fileread
    rw [if_pos hr]
    exact hfail
  | true =>
    rw [fileread_transfer hr]
    split
    · next avail _ =>
      cases avail with
      | none => exact hfail
      | some avail => exact ⟨min n.toInt.toNat avail, by omega, rfl⟩
    · next ip _ =>
      cases ip with
      | dev major input =>
        unfold Inode.readi
        dsimp only
        split
        · exact hfail
        · obtain ⟨m, hm, he⟩ := consoleLoop_copied input n.toInt.toNat a
          exact ⟨m, hint ▸ hm, he⟩
      | file size =>
        by_cases hoff : size < f.off ∨ f.off + n < f.off
        · rw [Inode.readi_fails hoff]
          exact hfail
        · exact ⟨_, by omega, Inode.readi_file hoff⟩
    · exact ⟨0, Nat.zero_le _, rfl⟩

/-- What is left of a regular file behind the offset, where `readi` accepts the
offset and `n`; beyond `MAXFILE` blocks it panics. -/
def OpenFile.rest (f : OpenFile) (n : Word) : Nat :=
  match f.type with
  | .inode (.file size) =>
    if f.readable = true ∧ ¬ (size < f.off ∨ f.off + n < f.off) then
      min size.toNat (MAXFILE * BSIZE) - f.off.toNat
    else 0
  | _ => 0

/-- For a negative length, the rest of the file is read. -/
theorem fileread_copied_neg (f : OpenFile) (a : Word) (hn : n.toInt < 0) :
    (fileread f a n).1.copied = addresses a (f.rest n) := by
  have hint : n.toInt.toNat = 0 := Int.toNat_of_nonpos (Int.le_of_lt hn)
  have hlarge : 2 ^ 31 ≤ n.toNat := by
    rw [BitVec.toInt_eq_toNat_cond] at hn
    split at hn <;> omega
  have hmax : MAXFILE * BSIZE = 71680 := by decide
  unfold OpenFile.rest
  cases hr : f.readable with
  | false =>
    unfold fileread
    rw [if_pos hr]
    split <;> rfl
  | true =>
    rw [fileread_transfer hr]
    cases f.type with
    | none => rfl
    | pipe avail =>
      cases avail with
      | none => rfl
      | some avail =>
        dsimp only [piperead]
        rw [hint, Nat.zero_min]
    | inode ip =>
      cases ip with
      | dev major input =>
        dsimp only [Inode.readi]
        split
        · rfl
        · dsimp only [consoleread]
          rw [hint, consoleLoop]
          rfl
      | file size =>
        dsimp only
        by_cases hoff : size < f.off ∨ f.off + n < f.off
        · rw [Inode.readi_fails hoff, if_neg fun hc => hc.2 hoff]
          rfl
        · rw [Inode.readi_file hoff, if_pos ⟨rfl, hoff⟩, hmax]
          congr 1
          omega

-- ---------------------------------------------------------------------------
-- The buffer and its segment
-- ---------------------------------------------------------------------------

/-- The bytes from `a` to the end of its segment. -/
def Proc.room (p : Proc) (a : Word) : Nat :=
  if a.toNat < p.sz.toNat then p.sz.toNat - a.toNat else 0xA0000 - a.toNat

/-- Every buffer that `argptr` takes begins in a segment. -/
theorem argptr_holds
    (ha : ¬ a < PGSIZE ∧ (insideCodeHeap p a size ∨ insideOfStack p a size)) :
    ∃ g, p.Holds g a.toNat := by
  obtain ⟨hlow, hin | hin⟩ := ha
  · exact ⟨.heap, Nat.not_lt.mp hlow, hin.1⟩
  · exact ⟨.stack, hin.2.2, hin.1⟩

theorem holds_addresses (h : Segments p) (hg : p.Holds g a.toNat) (hm : a.toNat + m ≤ 2 ^ 32) :
    (∀ va ∈ addresses a m, p.Holds g va.toNat) ↔ m ≤ p.room a := by
  have hgap := h.gap
  have hadd {j : Nat} (hj : j < m) : (a + BitVec.ofNat 32 j).toNat = a.toNat + j := by
    rw [BitVec.toNat_add, BitVec.toNat_ofNat]
    omega
  have hroom {j : Nat} : p.Holds g (a.toNat + j) ↔ j < p.room a := by
    unfold Proc.room
    cases g <;> unfold Proc.Holds Range at hg ⊢ <;> split <;> omega
  constructor
  · intro hall
    by_contra hc
    have hlt : p.room a < m := Nat.not_le.mp hc
    have hout := hall _ (mem_addresses.mpr ⟨p.room a, hlt, rfl⟩)
    rw [hadd hlt, hroom] at hout
    exact Nat.lt_irrefl _ hout
  · intro hle va hva
    obtain ⟨j, hj, rfl⟩ := mem_addresses.mp hva
    rw [hadd hj, hroom]
    exact Nat.lt_of_lt_of_le hj hle

/-- What `sys_read` stores lies in the segment in which the buffer begins, and
`argptr` takes no block of a length that is not negative beyond a segment. -/
structure ReadBounded (p : Proc) (mem : Word → Byte) (file : Nat → OpenFile) : Prop where
  stores : ∀ n a t, argint p mem 2 = .ok (some n) → argptr p mem 1 n = .ok (some a) →
    sysRead p mem file = .ok t → ∃ g, p.Holds g a.toNat ∧ ∀ va ∈ t.copied, p.Holds g va.toNat
  rejects : ∀ k n a, 0 ≤ n.toInt → argptr p mem k n = .ok (some a) → p.InSegment a.toNat n.toNat

theorem lt_of_toInt_nonneg (hn : 0 ≤ n.toInt) : n.toNat < 2 ^ 31 := by
  rw [BitVec.toInt_eq_toNat_cond] at hn
  split at hn <;> omega

/-- A block of a length that is not negative ends in the segment. -/
theorem argptr_room (h : Segments p) (hn : 0 ≤ n.toInt)
    (ha : ¬ a < PGSIZE ∧ (insideCodeHeap p a n ∨ insideOfStack p a n)) : n.toNat ≤ p.room a := by
  have hgap := h.gap
  have htop := h.top
  have hin := ((argptr_checks h (lt_of_toInt_nonneg hn)).mp ha)
  simp only [p.inSegment_iff] at hin
  unfold Proc.room
  split <;> omega

theorem sysRead_eq {i : Nat} (hfd : argfd p mem 0 = .ok (some i))
    (hn : argint p mem 2 = .ok (some n)) (ha : argptr p mem 1 n = .ok (some a)) :
    sysRead p mem file = .ok (fileread (file i) a n).1 := by
  unfold sysRead
  rw [hfd]
  change (do
    match ← argint p mem 2 with
    | none => return Transfer.fail
    | some n =>
      match ← argptr p mem 1 n with
      | none => return .fail
      | some a => return (fileread (file i) a n).1) = _
  rw [hn]
  change (do
    match ← argptr p mem 1 n with
    | none => return Transfer.fail
    | some a => return (fileread (file i) a n).1) = _
  rw [ha]
  rfl

/-- `argptr` takes a negative length that does not reach below 0, and `readi`
takes it for a large one: the rest of the file is what counts. -/
theorem read_bounded_iff (h : Segments p) (mem : Word → Byte) (file : Nat → OpenFile) :
    ReadBounded p mem file ↔ ∀ i n a, argfd p mem 0 = .ok (some i) →
      argint p mem 2 = .ok (some n) → argptr p mem 1 n = .ok (some a) → n.toInt < 0 →
      (file i).rest n ≤ p.room a := by
  have hrest (f : OpenFile) (n : Word) : f.rest n ≤ 71680 := by
    have hmax : MAXFILE * BSIZE = 71680 := by decide
    unfold OpenFile.rest
    split
    · split <;> omega
    · exact Nat.zero_le _
  constructor
  · intro hb i n a hfd hn ha hneg
    obtain ⟨g, hg, hall⟩ := hb.stores n a _ hn ha (sysRead_eq hfd hn ha)
    rw [fileread_copied_neg _ _ hneg] at hall
    have := hg.lt h
    have := hrest (file i) n
    exact (holds_addresses h hg (by omega)).mp hall
  · intro hcond
    refine ⟨fun n a t hn ha ht => ?_, fun k n a hpos ha => ?_⟩
    · have hchecks := (argptr_eq_some.mp ha).2
      obtain ⟨g, hg⟩ := argptr_holds hchecks
      have hlt := hg.lt h
      refine ⟨g, hg, ?_⟩
      cases hfd : argfd p mem 0 with
      | error va =>
        rw [sysRead, hfd] at ht
        cases ht
      | ok o =>
        cases o with
        | none =>
          rw [sysRead, hfd] at ht
          obtain rfl : Transfer.fail = t := Except.ok.inj ht
          exact fun va hva => by cases hva
        | some i =>
          obtain rfl : (fileread (file i) a n).1 = t :=
            Except.ok.inj ((sysRead_eq hfd hn ha).symm.trans ht)
          by_cases hneg : n.toInt < 0
          · have := hrest (file i) n
            rw [fileread_copied_neg _ _ hneg]
            exact (holds_addresses h hg (by omega)).mpr (hcond i n a hfd hn ha hneg)
          · have hpos : 0 ≤ n.toInt := Int.not_lt.mp hneg
            obtain ⟨m, hm, he⟩ := fileread_copied (file i) a hpos
            have hsize := lt_of_toInt_nonneg hpos
            rw [he]
            exact (holds_addresses h hg (by omega)).mpr
              (Nat.le_trans hm (argptr_room h hpos hchecks))
    · exact ((argptr_checks h (lt_of_toInt_nonneg hpos)).mp (argptr_eq_some.mp ha).2).1

-- A call `read(0, 0x9FFF0, -1)`, with 16 bytes of stack behind the address.
def reader : Proc := { twoSegments 2 with ofile := fun _ => some 0 }

def arguments (a : Word) : Byte :=
  (wordBytes 0 ++ wordBytes 0x9FFF0 ++ wordBytes (-1)).getD (a - 0x301F04).toNat 0

def regularFile (size : Word) : OpenFile := ⟨true, .inode (.file size), 0⟩

theorem segments_reader : Segments reader :=
  have h := segments_twoSegments 2
  ⟨h.heap, h.gap, h.top, h.mapped⟩

theorem reader_arguments : argfd reader arguments 0 = .ok (some 0) ∧
    argint reader arguments 2 = .ok (some (-1)) ∧
    argptr reader arguments 1 (-1) = .ok (some 0x9FFF0) :=
  ⟨rfl, rfl, rfl⟩

theorem read_bounded_short : ReadBounded reader arguments fun _ => regularFile 10 := by
  refine (read_bounded_iff segments_reader _ _).mpr fun i n a hfd hn ha _ => ?_
  obtain ⟨-, hn', ha'⟩ := reader_arguments
  obtain rfl := Option.some.inj (Except.ok.inj (hn'.symm.trans hn))
  obtain rfl := Option.some.inj (Except.ok.inj (ha'.symm.trans ha))
  decide

/-- From a file of 100 bytes, bytes are stored above `USERTOP`. -/
theorem read_leaves_stack : Segments reader ∧ argptr reader arguments 1 (-1) = .ok (some 0x9FFF0) ∧
    ¬ ReadBounded reader arguments fun _ => regularFile 100 := by
  obtain ⟨hfd, hn, ha⟩ := reader_arguments
  refine ⟨segments_reader, ha, fun hb => ?_⟩
  obtain ⟨g, -, hall⟩ := hb.stores _ _ _ hn ha (sysRead_eq hfd hn ha)
  rw [fileread_copied_neg _ _ (by decide)] at hall
  have hout := hall 0xA0000 (mem_addresses.mpr ⟨16, by decide, by decide⟩)
  exact Nat.lt_irrefl _ (hout.lt segments_reader).2

end PerrOS.Vm
