import PerrOS.Lfs.Resolve
import PerrOS.Lib.Trace

/-!
# The indices of the reader

Which element of `newDirPath`, of `iMapPtr`, of `inodePtr` and of the buffer of
`cat` each step of a run uses, and when it is inside the array: components must
fit, those that a slash follows must be there, inode numbers must have a place
in the map, and a file's blocks must not hold more than its size.
-/

namespace PerrOS.Lfs

open Fsck (Byte Image)
open Lib

variable (env : Env)

-- ---------------------------------------------------------------------------
-- The accesses of a run
-- ---------------------------------------------------------------------------

/-- The arrays, `buff` with the argument of its `malloc`. -/
inductive Buffer
  | newDirPath
  | iMapPtr
  | inodePtr
  | buff (bytes : Int)

/-- The elements of `inodePtr` in a piece of the inode map. -/
def INODE_NUM_DENOM : Int := 16

def Buffer.length : Buffer → Int
  | .newDirPath => PATH_SIZE
  | .iMapPtr => INODEPIECES
  | .inodePtr => INODE_NUM_DENOM
  | .buff bytes => bytes

structure Access where
  buffer : Buffer
  index : Int

def Access.InBounds (a : Access) : Prop := 0 ≤ a.index ∧ a.index < a.buffer.length

/-- What `getIMapPtr` and `getINodePtr` look up for an inode. -/
def lookups (inodeNum : Int) : List Access :=
  [⟨.iMapPtr, calcIMapPtr inodeNum⟩, ⟨.inodePtr, calcINodePtr inodeNum⟩]

/-- The rest of a call of `getINode`, as `Call.scan` runs it: a component is copied, ended and
looked at. What a component that does not fit leaves of the stack is not followed. -/
def Call.accesses (c : Call) (newDirPath : List Byte) : List Byte → List Access
  | [] => [⟨.newDirPath, newDirPath.length⟩, ⟨.newDirPath, 0⟩]
  | x :: name =>
    if x = slash then
      [⟨.newDirPath, newDirPath.length⟩, ⟨.newDirPath, 0⟩] ++
        if PATH_SIZE ≤ newDirPath.length ∨ newDirPath = [] then []
        else
          let (newINodeNum, r) := c.find newDirPath
          lookups newINodeNum ++ (enter env newINodeNum r).accesses [] name
    else ⟨.newDirPath, newDirPath.length⟩ :: c.accesses (newDirPath ++ [x]) name

def getINodeAccesses (name : List Byte) (inodeNum : Int) (r : Reader) : List Access :=
  lookups inodeNum ++ (enter env inodeNum r).accesses env [] name

/-- The lookup of the inspected inode. -/
def inspectAccesses (r : Reader) : List Access :=
  if r.inspecteeINodeNum < 0 then [] else lookups r.inspecteeINodeNum

/-- `inspecteeINode.size + 1`, as an `int`. -/
def Inode.buffBytes (inspecteeINode : Inode) : Int :=
  (BitVec.ofInt 32 (inspecteeINode.size + 1)).toInt

/-- One turn of the loop of `runCat`. -/
def readBlock (inspecteeINode : Inode) (i : Nat) (s : Memory × Image) : Memory × Image :=
  if inspecteeINode.ptr i ≠ 0 then
    let block := (s.2.lseek (inspecteeINode.ptr i)).read BLOCK_SIZE fun k => s.1 (i * BLOCK_SIZE + k)
    (fun k => if i * BLOCK_SIZE ≤ k then block.1 (k - i * BLOCK_SIZE) else s.1 k, block.2)
  else s

/-- What `read` stores of a block. -/
def stored (img : Image) : Nat := min BLOCK_SIZE (img.length - img.pos)

/-- The stores of one turn of the loop of `runCat`. -/
def blockAccesses (inspecteeINode : Inode) (i : Nat) (img : Image) : List Access :=
  if inspecteeINode.ptr i ≠ 0 then
    (List.range (stored (img.lseek (inspecteeINode.ptr i)))).map fun k : Nat =>
      ⟨.buff inspecteeINode.buffBytes, (i * BLOCK_SIZE + k : Nat)⟩
  else []

/-- The blocks are read, `EOF` is stored behind the file, and the bytes up to the first `EOF` are
looked at. -/
def fileAccesses (inspecteeINode : Inode) (buff : Memory) (img : Image) : List Access :=
  let file := (readFile inspecteeINode buff img).1
  let printed := ((List.range inspecteeINode.size.toNat).map file).takeWhile (· ≠ 0xFF)
  ((List.range NUM_PTRS_IN_INODE).flatMap fun i =>
      blockAccesses inspecteeINode i (loop i (readBlock inspecteeINode) (buff, img)).2) ++
    ⟨.buff inspecteeINode.buffBytes, inspecteeINode.size⟩ ::
      (List.range (printed.length + 1)).map fun k : Nat => ⟨.buff inspecteeINode.buffBytes, k⟩

def runCatAccesses (buff : Memory) (r : Reader) : List Access :=
  inspectAccesses r ++
    match inspect env MFS_REGULAR_FILE r with
    | none => []
    | some (inspecteeINode, r) => fileAccesses inspecteeINode buff r.img

def entryAccesses (currDirectory : Memory) (j : Nat) : List Access :=
  if 0 ≤ inum currDirectory j then lookups (inum currDirectory j) else []

/-- The lookups of a turn of `runLs` over the entries of one block. -/
def dirBlockAccesses (inspecteeINode : Inode) (s : Memory × Listing) (i : Nat) : List Access :=
  if 0 < inspecteeINode.ptr i then
    let block := (s.2.reader.img.lseek (inspecteeINode.ptr i)).read BLOCK_SIZE s.1
    let l := { s.2 with reader := { s.2.reader with img := block.2 } }
    trace (listEntry env block.1) (fun _ j => entryAccesses block.1 j) l (List.range DIRECTORY_SIZE)
  else []

/-- The locals with which `runLs` enters its loop. -/
def listing (r : Reader) : Memory × Listing :=
  let buf := env.frame r.calls
  (buf.directory, ⟨[], (buf.inodeMap, buf.inode), { r with calls := r.calls + 1 }⟩)

def runLsAccesses (r : Reader) : List Access :=
  inspectAccesses r ++
    match inspect env MFS_DIRECTORY r with
    | none => []
    | some (inspecteeINode, r) =>
      trace (listBlock env inspecteeINode) (dirBlockAccesses env inspecteeINode) (listing env r)
        (List.range NUM_PTRS_IN_INODE)

/-- Every access of a run of the program to the four arrays. -/
def accesses (cmd path : List Byte) (img : Image) (buff : Memory) : List Access :=
  let inspecteeName := path ++ env.behind
  let r := inspectee env path img
  getINodeAccesses env
      (if inspecteeName.head? = some slash then inspecteeName.tail else inspecteeName)
      ROOT_DIR_INODE_NUM (openImage img) ++
    if cmd = text "cat" then runCatAccesses env buff r
    else if cmd = text "ls" then runLsAccesses env r
    else []

theorem readFile_eq (ino : Inode) (buff : Memory) (img : Image) :
    readFile ino buff img = loop NUM_PTRS_IN_INODE (readBlock ino) (buff, img) := rfl

theorem runLs_eq (r : Reader) : runLs env r =
    match inspect env MFS_DIRECTORY r with
    | none => error []
    | some (inspecteeINode, r) =>
      match (List.range NUM_PTRS_IN_INODE).foldlM (listBlock env inspecteeINode) (listing env r) with
      | .error e => e
      | .ok (_, l) => ⟨l.out, true⟩ := rfl

-- ---------------------------------------------------------------------------
-- Where a run stays in bounds
-- ---------------------------------------------------------------------------

/-- The directory buffer of a call and the image, after the first `n` blocks of its inode. -/
def Call.readDir (c : Call) (n : Nat) : Memory × Image :=
  loop n (fun i s =>
    if 0 < c.currINode.ptr i then (s.2.lseek (c.currINode.ptr i)).read BLOCK_SIZE s.1 else s)
    (c.currDirectory, c.reader.img)

/-- The entry `j` of block `i`, as the call reads the directory, is in use and has the name. -/
def Call.Matches (c : Call) (w : List Byte) (i j : Nat) : Prop :=
  0 < c.currINode.ptr i ∧ 0 ≤ inum (c.readDir (i + 1)).1 j ∧
    NameIs (c.readDir (i + 1)).1 (dirEntSize * j) w

/-- In its first `m` blocks the directory gives the name the number `n`: the last block with the
name counts, and in it the first entry. -/
def Call.ListsIn (c : Call) (w : List Byte) (m : Nat) (n : Int) : Prop :=
  ∃ i < m, ∃ j < DIRECTORY_SIZE, c.Matches w i j ∧ inum (c.readDir (i + 1)).1 j = n ∧
    (∀ j' < j, ¬ c.Matches w i j') ∧
      ∀ i' < m, i < i' → ∀ j' < DIRECTORY_SIZE, ¬ c.Matches w i' j'

def Call.Lists (c : Call) (w : List Byte) (n : Int) : Prop := c.ListsIn w NUM_PTRS_IN_INODE n

/-- The reader of a call that has read the whole directory. -/
def Call.searched (c : Call) : Reader :=
  { c.reader with img := (c.readDir NUM_PTRS_IN_INODE).2 }

/-- A number that has a place in the inode map. -/
def InMap (n : Int) : Prop := 0 ≤ n ∧ n < INODE_NUM_DENOM * INODEPIECES

/-- Every component fits, and one that a slash follows is in the directory, under a number of the
map; so is the last one, if it is there and the command asks for it. -/
def Call.Fits (inspects : Prop) (c : Call) : List (List Byte) → Prop
  | [] => True
  | w :: ws => w.length < PATH_SIZE ∧ (w ≠ [] →
      if ws = [] then ∀ n, c.Lists w n → inspects → InMap n
      else ∃ n, c.Lists w n ∧ InMap n ∧ (enter env n c.searched).Fits inspects ws)

/-- The image after the first `n` blocks of a file. -/
def Inode.readTo (inode : Inode) (img : Image) (n : Nat) : Image :=
  loop n (fun i img =>
    if inode.ptr i ≠ 0 then { img.lseek (inode.ptr i) with
      pos := (img.lseek (inode.ptr i)).pos + stored (img.lseek (inode.ptr i)) } else img) img

/-- What the blocks of a file hold fits into its size and one byte more. -/
structure Inode.Fits (inode : Inode) (img : Image) : Prop where
  size : inode.size + 1 < 2 ^ 31
  block : ∀ i < NUM_PTRS_IN_INODE, inode.ptr i ≠ 0 →
    stored ((inode.readTo img i).lseek (inode.ptr i)) = 0 ∨
      (i * BLOCK_SIZE + stored ((inode.readTo img i).lseek (inode.ptr i)) : Nat) ≤ inode.size + 1

/-- `ls` gets to the entry `j` of a block. -/
def ListsEntry (inode : Inode) (r : Reader) (currDirectory : Memory) (j : Nat) : Prop :=
  ∃ s i l, Reaches (listBlock env inode) (listing env r) (List.range NUM_PTRS_IN_INODE) s i ∧
    0 < inode.ptr i ∧
    currDirectory = ((s.2.reader.img.lseek (inode.ptr i)).read BLOCK_SIZE s.1).1 ∧
    Reaches (listEntry env currDirectory)
      { s.2 with reader := { s.2.reader with
        img := ((s.2.reader.img.lseek (inode.ptr i)).read BLOCK_SIZE s.1).2 } }
      (List.range DIRECTORY_SIZE) l j

/-- The condition under which a run uses no index outside an array. -/
structure Fits (cmd path : List Byte) (img : Image) : Prop where
  walk : (enter env ROOT_DIR_INODE_NUM (openImage img)).Fits env (cmd = text "cat" ∨ cmd = text "ls")
    (pieces (path ++ env.behind))
  file : cmd = text "cat" → ∀ inode r,
    inspect env MFS_REGULAR_FILE (inspectee env path img) = some (inode, r) → inode.Fits r.img
  entries : cmd = text "ls" → ∀ inode r,
    inspect env MFS_DIRECTORY (inspectee env path img) = some (inode, r) →
      ∀ m j, ListsEntry env inode r m j → 0 ≤ inum m j → InMap (inum m j)

variable {env}
variable {c : Call} {w : List Byte} {ws : List (List Byte)} {n : Int} {r : Reader} {img : Image}

-- ---------------------------------------------------------------------------
-- The search of a directory
-- ---------------------------------------------------------------------------

theorem Call.ListsIn.unique {m : Nat} {n n' : Int} (h : c.ListsIn w m n) (h' : c.ListsIn w m n') :
    n = n' := by
  obtain ⟨i, hi, j, hj, hmatch, rfl, hfirst, hlast⟩ := h
  obtain ⟨i', hi', j', hj', hmatch', rfl, hfirst', hlast'⟩ := h'
  rcases Nat.lt_trichotomy i i' with hlt | rfl | hlt
  · exact absurd hmatch' (hlast i' hi' hlt j' hj')
  · rcases Nat.lt_trichotomy j j' with hlt | rfl | hlt
    · exact absurd hmatch (hfirst' j hlt)
    · rfl
    · exact absurd hmatch' (hfirst j' hlt)
  · exact absurd hmatch (hlast' i hi hlt j hj)

theorem findEntry_eq_some {dir : Memory} {j : Nat} : findEntry dir w = some j ↔
    (0 ≤ inum dir j ∧ NameIs dir (dirEntSize * j) w) ∧ j < DIRECTORY_SIZE ∧
      ∀ j' < j, ¬ (0 ≤ inum dir j' ∧ NameIs dir (dirEntSize * j') w) := by
  simp only [findEntry, List.find?_range_eq_some, List.mem_range, decide_eq_true_eq,
    Bool.not_eq_true', decide_eq_false_iff_not]

theorem findEntry_eq_none {dir : Memory} : findEntry dir w = none ↔
    ∀ j < DIRECTORY_SIZE, ¬ (0 ≤ inum dir j ∧ NameIs dir (dirEntSize * j) w) := by
  simp only [findEntry, List.find?_range_eq_none, Bool.not_eq_true', decide_eq_false_iff_not]

/-- What the search knows after the first `m` blocks. -/
structure Call.Searched (c : Call) (w : List Byte) (m : Nat) (s : Search) : Prop where
  read : (s.currDirectory, s.img) = c.readDir m
  number : c.ListsIn w m s.newINodeNum ∨
    s.newINodeNum = -1234 ∧ ∀ i < m, ∀ j < DIRECTORY_SIZE, ¬ c.Matches w i j

theorem Call.Searched.searchBlock {i : Nat} {s : Search} (h : c.Searched w i s) :
    c.Searched w (i + 1) (searchBlock c.currINode w i s) := by
  have hread : c.readDir (i + 1) = if 0 < c.currINode.ptr i then
      (s.img.lseek (c.currINode.ptr i)).read BLOCK_SIZE s.currDirectory
        else (s.currDirectory, s.img) := by
    rw [Call.readDir, loop_succ, ← Call.readDir, ← h.read]
  -- what is known of the first blocks stays known if the block has no match
  have hkeep (hnone : ∀ j < DIRECTORY_SIZE, ¬ c.Matches w i j) :
      c.ListsIn w (i + 1) s.newINodeNum ∨
        s.newINodeNum = -1234 ∧ ∀ i' < i + 1, ∀ j < DIRECTORY_SIZE, ¬ c.Matches w i' j := by
    have hlater (i' : Nat) (hi' : i' < i + 1) (hnot : ¬ i' < i) (j : Nat) (hj : j < DIRECTORY_SIZE) :
        ¬ c.Matches w i' j := by
      obtain rfl : i' = i := by omega
      exact hnone j hj
    rcases h.number with ⟨i₀, hi₀, j₀, hj₀, hmatch, hnum, hfirst, hlast⟩ | ⟨hnum, hmiss⟩
    · refine .inl ⟨i₀, Nat.lt_succ_of_lt hi₀, j₀, hj₀, hmatch, hnum, hfirst, fun i' hi' hlt j hj => ?_⟩
      by_cases hold : i' < i
      · exact hlast i' hold hlt j hj
      · exact hlater i' hi' hold j hj
    · refine .inr ⟨hnum, fun i' hi' j hj => ?_⟩
      by_cases hold : i' < i
      · exact hmiss i' hold j hj
      · exact hlater i' hi' hold j hj
  unfold Lfs.searchBlock
  split
  · next hptr =>
    rw [if_pos hptr] at hread
    refine ⟨hread.symm, ?_⟩
    dsimp only
    split
    · next j hfind =>
      rw [← hread] at hfind ⊢
      obtain ⟨hentry, hj, hfirst⟩ := findEntry_eq_some.mp hfind
      exact .inl ⟨i, Nat.lt_succ_self i, j, hj, ⟨hptr, hentry⟩, rfl,
        fun j' hj' hmatch => hfirst j' hj' hmatch.2, fun i' hi' hlt => by omega⟩
    · next hfind =>
      rw [← hread] at hfind
      exact hkeep fun j hj hmatch => findEntry_eq_none.mp hfind j hj hmatch.2
  · next hptr =>
    rw [if_neg hptr] at hread
    exact ⟨hread.symm, hkeep fun j _ hmatch => hptr hmatch.1⟩

theorem Call.searched_search (c : Call) (w : List Byte) :
    c.Searched w NUM_PTRS_IN_INODE (search c.currINode w c.currDirectory c.reader.img) := by
  refine loop_invariant (P := fun i s => c.Searched w i s) ⟨?_, ?_⟩ fun i s _ h => h.searchBlock
  · rw [Call.readDir, loop_zero]
  · exact .inr ⟨rfl, fun _ hi => absurd hi (Nat.not_lt_zero _)⟩

theorem Call.find_snd (c : Call) (w : List Byte) : (c.find w).2 = c.searched := by
  have hread := (c.searched_search w).read
  rw [Call.find, Call.searched, ← hread]

/-- The search finds what the directory gives. -/
theorem Call.lists_iff (h : 0 ≤ n) : c.Lists w n ↔ (c.find w).1 = n := by
  have hnumber := (c.searched_search w).number
  rw [Call.find]
  dsimp only
  constructor
  · intro hlists
    rcases hnumber with hin | ⟨-, hmiss⟩
    · exact hin.unique hlists
    · obtain ⟨i, hi, j, hj, hmatch, -⟩ := hlists
      exact absurd hmatch (hmiss i hi j hj)
  · rintro rfl
    rcases hnumber with hin | ⟨hnum, -⟩
    · exact hin
    · rw [hnum] at h
      exact absurd h (by decide)

theorem Call.ListsIn.nonneg {m : Nat} (h : c.ListsIn w m n) : 0 ≤ n := by
  obtain ⟨i, -, j, -, hmatch, rfl, -⟩ := h
  exact hmatch.2.1

-- ---------------------------------------------------------------------------
-- Paths
-- ---------------------------------------------------------------------------

theorem forall_lookups (n : Int) : (∀ a ∈ lookups n, a.InBounds) ↔ InMap n := by
  simp only [lookups, List.forall_mem_cons, List.not_mem_nil, Access.InBounds, Buffer.length,
    calcIMapPtr, calcINodePtr, InMap, INODE_NUM_DENOM, INODEPIECES, IsEmpty.forall_iff,
    implies_true, and_true]
  rcases Int.lt_or_le n 0 with hneg | hnonneg
  · have hmod := Int.tmod_def n 16
    have hdiv := Int.neg_tdiv (-n) 16
    rw [Int.neg_neg, Int.tdiv_eq_ediv_of_nonneg (by omega : 0 ≤ -n)] at hdiv
    omega
  · rw [Int.tdiv_eq_ediv_of_nonneg hnonneg, Int.tmod_eq_emod_of_nonneg hnonneg]
    omega

/-- The component is looked at where it fits. -/
theorem forall_component (w : List Byte) :
    (∀ a ∈ [(⟨.newDirPath, w.length⟩ : Access), ⟨.newDirPath, 0⟩], a.InBounds) ↔
      w.length < PATH_SIZE := by
  simp only [List.forall_mem_cons, List.not_mem_nil, Access.InBounds, Buffer.length, PATH_SIZE,
    IsEmpty.forall_iff, implies_true, and_true]
  omega

/-- The number a reader inspects, if any, is in the map. -/
def Reader.InMap (r : Reader) : Prop := 0 ≤ r.inspecteeINodeNum → Lfs.InMap r.inspecteeINodeNum

theorem inMap_zero : InMap 0 := ⟨Int.le_refl 0, by decide⟩

variable {inspects : Prop}

/-- What is copied so far fits if the component does. -/
theorem Call.length_of_fits {name : List Byte}
    (h : c.Fits env inspects ((name.splitOn slash).modifyHead (w ++ ·))) :
    w.length < PATH_SIZE := by
  cases hs : name.splitOn slash with
  | nil => exact absurd hs (splitOn_ne_nil name)
  | cons v vs =>
    rw [hs, List.modifyHead_cons] at h
    have hlen := h.1
    rw [List.length_append] at hlen
    omega

theorem Call.forall_accesses (env : Env) (inspects : Prop) (c : Call) (w name : List Byte)
    (hc : InMap c.inodeNum) (hr : c.reader.inspecteeINodeNum = 0) :
    ((∀ a ∈ c.accesses env w name, a.InBounds) ∧ (inspects → (c.scan env w name).InMap)) ↔
      c.Fits env inspects ((name.splitOn slash).modifyHead (w ++ ·)) := by
  induction name generalizing c w with
  | nil =>
    simp only [List.splitOn_nil, List.modifyHead_cons, List.append_nil, accesses, scan, Fits,
      forall_component, if_true]
    refine and_congr_right fun hlen => ?_
    rw [if_neg (Nat.not_le.mpr hlen)]
    by_cases hw : w = []
    · rw [if_pos hw]
      exact iff_of_true (fun _ _ => hc) fun hne => absurd hw hne
    · rw [if_neg hw]
      simp only [ne_eq, hw, not_false_eq_true, forall_true_left]
      split
      · next hneg =>
        refine iff_of_true (fun _ _ => ?_) fun n hlists => ?_
        · rw [find_inspectee, hr]
          exact inMap_zero
        · rw [(lists_iff hlists.nonneg).mp hlists] at hneg
          exact absurd hlists.nonneg (Int.not_le.mpr hneg)
      · next hneg =>
        have hnonneg := Int.not_lt.mp hneg
        constructor
        · intro h n hlists hins
          rw [← (lists_iff hlists.nonneg).mp hlists]
          exact h hins hnonneg
        · intro h hins _
          exact h _ ((lists_iff hnonneg).mpr rfl) hins
  | cons x name ih =>
    rw [List.splitOn_cons_eq_if_modifyHead]
    by_cases hx : x = slash
    · subst hx
      have hnil := modifyHead_nil_append (name.splitOn slash)
      simp only [accesses, scan, beq_self_eq_true, if_true, List.modifyHead_cons, List.append_nil,
        Fits, if_neg (splitOn_ne_nil name), List.forall_mem_append, forall_component, and_assoc]
      refine and_congr_right fun hlen => ?_
      rw [if_neg (Nat.not_le.mpr hlen)]
      by_cases hw : w = []
      · rw [if_pos (.inr hw), if_pos hw]
        exact iff_of_true ⟨fun _ h => absurd h List.not_mem_nil, fun _ _ => hc⟩
          fun hne => absurd hw hne
      · rw [if_neg (not_or.mpr ⟨Nat.not_le.mpr hlen, hw⟩), if_neg hw]
        simp only [ne_eq, hw, not_false_eq_true, forall_true_left, List.forall_mem_append,
          forall_lookups, and_assoc]
        constructor
        · rintro ⟨hmap, hrest⟩
          refine ⟨_, (lists_iff hmap.1).mpr rfl, hmap, ?_⟩
          rw [← c.find_snd w, ← hnil]
          exact (ih _ [] hmap (by rw [enter_inspectee, find_inspectee, hr])).mp hrest
        · rintro ⟨n, hlists, hmap, hfits⟩
          obtain rfl := (lists_iff hlists.nonneg).mp hlists
          rw [← c.find_snd w, ← hnil] at hfits
          exact ⟨hmap, (ih _ [] hmap (by rw [enter_inspectee, find_inspectee, hr])).mpr hfits⟩
    · simp only [accesses, scan, if_neg hx]
      rw [if_neg (by simpa using hx), modifyHead_append_cons, ← ih c (w ++ [x]) hc hr,
        List.forall_mem_cons, and_assoc]
      refine and_iff_right_of_imp fun h => ?_
      have hlen := length_of_fits ((ih c (w ++ [x]) hc hr).mp h)
      rw [List.length_append] at hlen
      exact ((forall_component w).mpr (by omega)) _ List.mem_cons_self

-- ---------------------------------------------------------------------------
-- Files
-- ---------------------------------------------------------------------------

variable {inode : Inode}

theorem int_lt (m : Memory) (a : Nat) : int m a < 2 ^ 31 :=
  (BitVec.ofNat 32 (m.read a 4)).toInt_lt

theorem buffBytes_eq (hlo : 0 ≤ inode.size) (hhi : inode.size + 1 < 2 ^ 31) :
    inode.buffBytes = inode.size + 1 := by
  rw [Inode.buffBytes, BitVec.toInt_ofInt, Int.bmod_eq_of_le (by omega) (by omega)]

/-- The largest size overflows. -/
theorem buffBytes_neg (h : inode.size + 1 = 2 ^ 31) : inode.buffBytes < 0 := by
  rw [Inode.buffBytes, h]
  decide

theorem loop_readBlock_snd (inode : Inode) (n : Nat) (buff : Memory) (img : Image) :
    (loop n (readBlock inode) (buff, img)).2 = inode.readTo img n := by
  unfold Inode.readTo
  induction n with
  | zero => rw [loop_zero, loop_zero]
  | succ n ih =>
    rw [loop_succ, loop_succ, ← ih, readBlock]
    split <;> rfl

theorem forall_blockAccesses (hbytes : inode.buffBytes = inode.size + 1) (i : Nat) (img : Image) :
    (∀ a ∈ blockAccesses inode i img, a.InBounds) ↔ (inode.ptr i ≠ 0 →
      stored (img.lseek (inode.ptr i)) = 0 ∨
        (i * BLOCK_SIZE + stored (img.lseek (inode.ptr i)) : Nat) ≤ inode.size + 1) := by
  by_cases hptr : inode.ptr i = 0
  · simp [blockAccesses, hptr]
  · rw [blockAccesses, if_pos hptr]
    simp only [hptr, ne_eq, not_false_eq_true, forall_true_left, List.forall_mem_map, List.mem_range,
      Access.InBounds, Buffer.length, hbytes]
    generalize stored (img.lseek (inode.ptr i)) = s
    constructor
    · intro h
      cases s with
      | zero => exact .inl rfl
      | succ s =>
        have hlast := h s (Nat.lt_succ_self s)
        exact .inr (by omega)
    · intro h k hk
      omega

/-- Only the blocks of a file can lie outside the buffer, unless its size overflows. -/
theorem forall_fileAccesses (hlo : 0 ≤ inode.size) (hhi : inode.size < 2 ^ 31) (buff : Memory)
    (img : Image) : (∀ a ∈ fileAccesses inode buff img, a.InBounds) ↔ inode.Fits img := by
  simp only [fileAccesses, List.forall_mem_append, List.forall_mem_cons, List.mem_flatMap,
    List.mem_range, loop_readBlock_snd]
  constructor
  · rintro ⟨hblocks, hsize, -⟩
    have hfit : inode.size + 1 < 2 ^ 31 := by
      by_contra hover
      have hneg := buffBytes_neg (by omega : inode.size + 1 = 2 ^ 31)
      have := hsize.2
      simp only [Buffer.length] at this
      omega
    refine ⟨hfit, fun i hi => ?_⟩
    exact (forall_blockAccesses (buffBytes_eq hlo hfit) i _).mp fun a ha => hblocks a ⟨i, hi, ha⟩
  · intro h
    have hbytes := buffBytes_eq hlo h.size
    refine ⟨?_, ?_, ?_⟩
    · rintro a ⟨i, hi, ha⟩
      exact (forall_blockAccesses hbytes i _).mpr (h.block i hi) a ha
    · simp only [Access.InBounds, Buffer.length, hbytes]
      omega
    · refine List.forall_mem_map.mpr fun k hk => ?_
      have hprinted := (List.takeWhile_sublist (· ≠ 0xFF)
        (l := (List.range inode.size.toNat).map (readFile inode buff img).1)).length_le
      rw [List.length_map, List.length_range] at hprinted
      rw [List.mem_range] at hk
      simp only [Access.InBounds, Buffer.length, hbytes]
      omega

/-- A file with one full block has at least the size of one, but for a byte. -/
theorem Inode.Fits.size_ge (h : inode.Fits img) (hptr : 0 < inode.ptr 0)
    (hblock : (inode.ptr 0).toNat + BLOCK_SIZE ≤ img.length) : BLOCK_SIZE ≤ inode.size + 1 := by
  have hstored : stored ((inode.readTo img 0).lseek (inode.ptr 0)) = BLOCK_SIZE := by
    have hread : inode.readTo img 0 = img := loop_zero ..
    rw [hread, stored, Image.lseek_length, Image.lseek, if_neg (Int.not_lt.mpr (Int.le_of_lt hptr))]
    dsimp only
    omega
  have hfit := h.block 0 (by decide) (Int.ne_of_gt hptr)
  rw [hstored] at hfit
  simp only [BLOCK_SIZE] at *
  omega

-- ---------------------------------------------------------------------------
-- Directories
-- ---------------------------------------------------------------------------

theorem forall_entryAccesses (m : Memory) (j : Nat) :
    (∀ a ∈ entryAccesses m j, a.InBounds) ↔ (0 ≤ inum m j → InMap (inum m j)) := by
  unfold entryAccesses
  split
  · next hused => simp only [forall_lookups, hused, forall_true_left]
  · next hfree => simp [hfree]

theorem forall_listing (inode : Inode) (r : Reader) :
    (∀ a ∈ trace (listBlock env inode) (dirBlockAccesses env inode) (listing env r)
      (List.range NUM_PTRS_IN_INODE), a.InBounds) ↔
      ∀ m j, ListsEntry env inode r m j → 0 ≤ inum m j → InMap (inum m j) := by
  rw [forall_trace]
  constructor
  · rintro h m j ⟨s, i, l, hblock, hptr, rfl, hentry⟩
    have hs := h s i hblock
    rw [dirBlockAccesses, if_pos hptr, forall_trace] at hs
    exact (forall_entryAccesses _ j).mp (hs l j hentry)
  · intro h s i hblock
    by_cases hptr : 0 < inode.ptr i
    · rw [dirBlockAccesses, if_pos hptr, forall_trace]
      exact fun l j hentry => (forall_entryAccesses _ j).mpr
        (h _ j ⟨s, i, l, hblock, hptr, rfl, hentry⟩)
    · rw [dirBlockAccesses, if_neg hptr]
      exact fun _ h => absurd h List.not_mem_nil

-- ---------------------------------------------------------------------------
-- The program
-- ---------------------------------------------------------------------------

theorem forall_inspectAccesses (r : Reader) :
    (∀ a ∈ inspectAccesses r, a.InBounds) ↔ r.InMap := by
  unfold inspectAccesses Reader.InMap
  split
  · next hneg => simp [Int.not_le.mpr hneg]
  · next hneg => simp only [forall_lookups, Int.not_lt.mp hneg, forall_true_left]

theorem Inode.size_lt (m : Memory) : (Inode.ofBytes m).size < 2 ^ 31 := int_lt m 0

theorem getInspecteeINode_size_lt (env : Env) (r : Reader) :
    (getInspecteeINode env r).1.size < 2 ^ 31 := by
  unfold getInspecteeINode
  exact Inode.size_lt _

theorem inspect_size {type : Int} {r' : Reader} (h : inspect env type r = some (inode, r')) :
    0 ≤ inode.size ∧ inode.size < 2 ^ 31 := by
  have hlt := getInspecteeINode_size_lt env r
  unfold inspect at h
  generalize getInspecteeINode env r = i at h hlt
  split at h
  · cases h
  · dsimp only at h
    split at h
    · cases h
    · split at h
      · cases h
      · next hsize =>
        cases h
        exact ⟨Int.not_lt.mp hsize, hlt⟩

theorem forall_runCatAccesses (buff : Memory) (r : Reader) :
    (∀ a ∈ runCatAccesses env buff r, a.InBounds) ↔ r.InMap ∧
      ∀ inode r', inspect env MFS_REGULAR_FILE r = some (inode, r') → inode.Fits r'.img := by
  rw [runCatAccesses, List.forall_mem_append, forall_inspectAccesses]
  refine and_congr_right fun _ => ?_
  cases hi : inspect env MFS_REGULAR_FILE r with
  | none => simp
  | some i =>
    obtain ⟨hlo, hhi⟩ := inspect_size hi
    dsimp only
    rw [forall_fileAccesses hlo hhi]
    constructor
    · rintro h inode r' ⟨⟩
      exact h
    · exact fun h => h _ _ rfl

theorem forall_runLsAccesses (r : Reader) :
    (∀ a ∈ runLsAccesses env r, a.InBounds) ↔ r.InMap ∧
      ∀ inode r', inspect env MFS_DIRECTORY r = some (inode, r') →
        ∀ m j, ListsEntry env inode r' m j → 0 ≤ inum m j → InMap (inum m j) := by
  rw [runLsAccesses, List.forall_mem_append, forall_inspectAccesses]
  refine and_congr_right fun _ => ?_
  cases hi : inspect env MFS_DIRECTORY r with
  | none => simp
  | some i =>
    dsimp only
    rw [forall_listing]
    constructor
    · rintro h inode r' ⟨⟩
      exact h
    · exact fun h => h _ _ rfl

/-- The walk of `getINode`, and the number it leaves if the command looks it up. -/
theorem forall_getINodeAccesses (env : Env) (path : List Byte) (img : Image) (inspects : Prop) :
    ((∀ a ∈ getINodeAccesses env
        (if (path ++ env.behind).head? = some slash then (path ++ env.behind).tail
          else path ++ env.behind) ROOT_DIR_INODE_NUM (openImage img), a.InBounds) ∧
      (inspects → (inspectee env path img).InMap)) ↔
      (enter env ROOT_DIR_INODE_NUM (openImage img)).Fits env inspects
        (pieces (path ++ env.behind)) := by
  rw [getINodeAccesses, List.forall_mem_append, forall_lookups, and_assoc]
  refine (and_iff_right inMap_zero).trans ?_
  have h := (enter env ROOT_DIR_INODE_NUM (openImage img)).forall_accesses env inspects []
    (if (path ++ env.behind).head? = some slash then (path ++ env.behind).tail
      else path ++ env.behind) inMap_zero rfl
  rw [modifyHead_nil_append] at h
  exact h

theorem Fits.of_in_bounds {cmd path : List Byte} {buff : Memory}
    (h : ∀ a ∈ accesses env cmd path img buff, a.InBounds) : Fits env cmd path img := by
  have hpath := forall_getINodeAccesses env path img (cmd = text "cat" ∨ cmd = text "ls")
  have hdiffer : text "ls" ≠ text "cat" := by decide
  simp only [accesses, List.forall_mem_append] at h
  obtain ⟨hget, hrun⟩ := h
  by_cases hcat : cmd = text "cat"
  · rw [if_pos hcat, forall_runCatAccesses] at hrun
    exact ⟨hpath.mp ⟨hget, fun _ => hrun.1⟩, fun _ => hrun.2,
      fun hls => absurd (hls.symm.trans hcat) hdiffer⟩
  · rw [if_neg hcat] at hrun
    by_cases hls : cmd = text "ls"
    · rw [if_pos hls, forall_runLsAccesses] at hrun
      exact ⟨hpath.mp ⟨hget, fun _ => hrun.1⟩, fun h => absurd h hcat, fun _ => hrun.2⟩
    · exact ⟨hpath.mp ⟨hget, fun h => (h.elim hcat hls).elim⟩, fun h => absurd h hcat,
        fun h => absurd h hls⟩

theorem Fits.in_bounds {cmd path : List Byte} (buff : Memory) (h : Fits env cmd path img) :
    ∀ a ∈ accesses env cmd path img buff, a.InBounds := by
  obtain ⟨hget, hinspect⟩ := (forall_getINodeAccesses env path img _).mpr h.walk
  simp only [accesses, List.forall_mem_append]
  refine ⟨hget, ?_⟩
  split
  · next hcat => exact (forall_runCatAccesses buff _).mpr ⟨hinspect (.inl hcat), h.file hcat⟩
  · split
    · next hls => exact (forall_runLsAccesses _).mpr ⟨hinspect (.inr hls), h.entries hls⟩
    · exact fun _ h => absurd h List.not_mem_nil

/-- A run uses no index outside an array exactly if its path, its file and its entries fit. -/
theorem accesses_in_bounds_iff (env : Env) (cmd path : List Byte) (img : Image) (buff : Memory) :
    (∀ a ∈ accesses env cmd path img buff, a.InBounds) ↔ Fits env cmd path img :=
  ⟨Fits.of_in_bounds, Fits.in_bounds buff⟩

/-- A directory that is not there is looked up in the map all the same. -/
theorem missing_directory_out_of_bounds :
    ∃ a ∈ accesses quiet (text "cat") [120, 47, 121] emptyRoot (fun _ => 0), ¬ a.InBounds := by
  by_contra hall
  push Not at hall
  have hget := (forall_getINodeAccesses quiet [120, 47, 121] emptyRoot False).mp
    ⟨fun a ha => hall a (List.mem_append_left _ ha), False.elim⟩
  have hpieces : pieces ([120, 47, 121] ++ quiet.behind) = [[120], [121]] := by decide
  rw [hpieces] at hget
  obtain ⟨n, hlists, hmap, -⟩ := hget.2 (by decide)
  have hroot := enter_at quiet emptyRoot_wellFormed (.openImage emptyRoot_wellFormed) .root
  obtain ⟨-, -, hmiss⟩ := hroot.find (w := [120]) emptyRoot_wellFormed .root
    emptyRoot_wellFormed.root (by decide)
  have hnone (m : Nat) : ¬ Entry emptyRoot 0 [120] m := fun hentry =>
    emptyRoot_missing m (Resolves.one_iff.mpr ⟨emptyRoot_wellFormed.root, hentry⟩)
  have hfound := (Call.lists_iff hmap.1).mp hlists
  rw [show ROOT_DIR_INODE_NUM = ((0 : Nat) : Int) from rfl, hmiss hnone] at hfound
  exact absurd hmap.1 (by rw [← hfound]; decide)

end PerrOS.Lfs
