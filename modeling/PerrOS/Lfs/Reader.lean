import PerrOS.Fsck.Image

/-!
# The reader of log-structured images

`lfsreader.c`: the checkpoint region leads to the inode map, the inode map to
the inode, the inode to the blocks of a directory. The image is a file behind
a descriptor; what C leaves undefined is a parameter.
-/

namespace PerrOS.Lfs

open Fsck (Byte Image)
open Lib

def BLOCK_SIZE : Nat := 4096

/-- `sizeof(checkpoint)`. -/
def checkpointSize : Nat := 1028

def INODEPIECES : Nat := 256

/-- `sizeof(inode)`, and of `inodeMap`. -/
def inodeSize : Nat := 64

def dirEntSize : Nat := 64

def DIRECTORY_SIZE : Nat := BLOCK_SIZE / dirEntSize

def NUM_PTRS_IN_INODE : Nat := 14

def PATH_SIZE : Nat := 64

def MFS_DIRECTORY : Int := 0

def MFS_REGULAR_FILE : Int := 1

/-- The `int` at an address. -/
def int (m : Memory) (a : Nat) : Int := (BitVec.ofNat 32 (m.read a 4)).toInt

structure Inode where
  size : Int
  type : Int
  ptr : Nat → Int

def Inode.ofBytes (m : Memory) : Inode where
  size := int m 0
  type := int m 4
  ptr i := int m (8 + 4 * i)

/-- The uninitialised buffers of a call. -/
structure Frame where
  inodeMap : Memory
  inode : Memory
  directory : Memory

structure Reader where
  img : Image
  myCheckpointRegion : Memory
  inspecteeINodeNum : Int
  calls : Nat

/-- What C leaves undefined: indices outside the arrays `iMapPtr` and
`inodePtr`, the buffers on the stack of each call, a component that does not
fit into `newDirPath`, and the allocated bytes behind the copy of the path, up
to the first zero: `strncpy` does not terminate the copy. -/
structure Env where
  iMapPtr : Int → Int
  inodePtr : Int → Int
  frame : Nat → Frame
  smash : Reader → Reader
  behind : List Byte

variable (env : Env)

-- ---------------------------------------------------------------------------
-- Inodes
-- ---------------------------------------------------------------------------

def calcIMapPtr (inodeNum : Int) : Int := inodeNum.tdiv 16

def calcINodePtr (inodeNum : Int) : Int := inodeNum.tmod 16

def getIMapPtr (r : Reader) (inodeNum : Int) : Int :=
  let index := calcIMapPtr inodeNum
  if 0 ≤ index ∧ index < INODEPIECES then int r.myCheckpointRegion (4 + 4 * index.toNat)
  else env.iMapPtr index

def getINodePtr (i : Memory) (inodeNum : Int) : Int :=
  let index := calcINodePtr inodeNum
  if 0 ≤ index then int i (4 * index.toNat) else env.inodePtr index

/-- The two seeks and reads that fetch an inode into buffers for its piece of
the map and for itself. -/
def load (inodeNum : Int) (buf : Memory × Memory) (r : Reader) : (Memory × Memory) × Reader :=
  let imap := (r.img.lseek (getIMapPtr env r inodeNum)).read inodeSize buf.1
  let ino := (imap.2.lseek (getINodePtr env imap.1 inodeNum)).read inodeSize buf.2
  ((imap.1, ino.1), { r with img := ino.2 })

def getInspecteeINode (r : Reader) : Inode × Reader :=
  let buf := env.frame r.calls
  let l := load env r.inspecteeINodeNum (buf.inodeMap, buf.inode) { r with calls := r.calls + 1 }
  (.ofBytes l.1.2, l.2)

-- ---------------------------------------------------------------------------
-- Paths
-- ---------------------------------------------------------------------------

def slash : Byte := 47

def inum (dir : Memory) (j : Nat) : Int := int dir (dirEntSize * j + 60)

/-- `strcmp` finds the bytes at `a` and the string equal. -/
def NameIs (dir : Memory) (a : Nat) (w : List Byte) : Prop :=
  (∀ k < w.length, dir (a + k) = w.getD k 0) ∧ dir (a + w.length) = 0

instance (dir : Memory) (a : Nat) (w : List Byte) : Decidable (NameIs dir a w) :=
  inferInstanceAs (Decidable (_ ∧ _))

/-- The first entry of a block that is in use and has the name. -/
def findEntry (dir : Memory) (w : List Byte) : Option Nat :=
  (List.range DIRECTORY_SIZE).find? fun j => 0 ≤ inum dir j ∧ NameIs dir (dirEntSize * j) w

structure Search where
  newINodeNum : Int
  currDirectory : Memory
  img : Image

/-- One turn of the search of `getINode` through the blocks of a directory. -/
def searchBlock (currINode : Inode) (newDirPath : List Byte) (i : Nat) (s : Search) : Search :=
  if 0 < currINode.ptr i then
    let block := (s.img.lseek (currINode.ptr i)).read BLOCK_SIZE s.currDirectory
    { newINodeNum :=
        match findEntry block.1 newDirPath with
        | some j => inum block.1 j
        | none => s.newINodeNum
      currDirectory := block.1
      img := block.2 }
  else s

def search (currINode : Inode) (newDirPath : List Byte) (currDirectory : Memory) (img : Image) :
    Search :=
  loop NUM_PTRS_IN_INODE (searchBlock currINode newDirPath) ⟨-1234, currDirectory, img⟩

/-- A call of `getINode`, after it has read its inode. -/
structure Call where
  inodeNum : Int
  currINode : Inode
  currDirectory : Memory
  reader : Reader

def enter (inodeNum : Int) (r : Reader) : Call :=
  let buf := env.frame r.calls
  let l := load env inodeNum (buf.inodeMap, buf.inode) { r with calls := r.calls + 1 }
  ⟨inodeNum, .ofBytes l.1.2, buf.directory, l.2⟩

/-- The search of a call for a component: the inode number found, if any. -/
def Call.find (c : Call) (newDirPath : List Byte) : Int × Reader :=
  let s := search c.currINode newDirPath c.currDirectory c.reader.img
  (s.newINodeNum, { c.reader with img := s.img })

/-- The rest of the call, with the component copied so far. A slash ends the
component and recurses, the end of the string ends the component and the
recursion. -/
def Call.scan (c : Call) (newDirPath : List Byte) : List Byte → Reader
  | [] =>
    if PATH_SIZE ≤ newDirPath.length then env.smash c.reader
    else if newDirPath = [] then { c.reader with inspecteeINodeNum := c.inodeNum }
    else
      let (newINodeNum, r) := c.find newDirPath
      if newINodeNum < 0 then r else { r with inspecteeINodeNum := newINodeNum }
  | x :: name =>
    if x = slash then
      if PATH_SIZE ≤ newDirPath.length then env.smash c.reader
      else if newDirPath = [] then { c.reader with inspecteeINodeNum := c.inodeNum }
      else
        let (newINodeNum, r) := c.find newDirPath
        (enter env newINodeNum r).scan [] name
    else c.scan (newDirPath ++ [x]) name

def getINode (name : List Byte) (inodeNum : Int) (r : Reader) : Reader :=
  (enter env inodeNum r).scan env [] name

-- ---------------------------------------------------------------------------
-- The commands
-- ---------------------------------------------------------------------------

/-- The bytes of a text. -/
def text (s : String) : List Byte := s.toList.map fun c => .ofNat 8 c.toNat

/-- What the program prints and its exit status. -/
structure Exit where
  stdout : List Byte
  success : Bool
deriving DecidableEq

/-- `printf("Error!\n"); exit(EXIT_FAILURE)`, after what was printed. -/
def error (out : List Byte) : Exit := ⟨out ++ text "Error!\n", false⟩

/-- The checks `cat` and `ls` make of the inspected inode: its number, its
type and its size. -/
def inspect (type : Int) (r : Reader) : Option (Inode × Reader) :=
  if r.inspecteeINodeNum < 0 then none
  else
    let i := getInspecteeINode env r
    if i.1.type ≠ type then none else if i.1.size < 0 then none else some i

/-- The loop of `runCat` over the blocks. -/
def readFile (inspecteeINode : Inode) (buff : Memory) (img : Image) : Memory × Image :=
  loop NUM_PTRS_IN_INODE (fun i s =>
    if inspecteeINode.ptr i ≠ 0 then
      let block := (s.2.lseek (inspecteeINode.ptr i)).read BLOCK_SIZE fun k => s.1 (i * BLOCK_SIZE + k)
      (fun k => if i * BLOCK_SIZE ≤ k then block.1 (k - i * BLOCK_SIZE) else s.1 k, block.2)
    else s) (buff, img)

/-- `runCat`, with what `malloc` returns for `buff`. -/
def runCat (buff : Memory) (r : Reader) : Exit :=
  match inspect env MFS_REGULAR_FILE r with
  | none => error []
  | some (inspecteeINode, r) =>
    let buff := (readFile inspecteeINode buff r.img).1
    -- `EOF` is stored behind the file, and printing stops at the first one
    ⟨((List.range inspecteeINode.size.toNat).map buff).takeWhile (· ≠ 0xFF), true⟩

/-- The string in a directory block. -/
def cstring (dir : Memory) (a : Nat) : List Byte :=
  ((List.range (BLOCK_SIZE - a)).map fun k => dir (a + k)).takeWhile (· ≠ 0)

/-- The locals of `runLs`. -/
structure Listing where
  out : List Byte
  buf : Memory × Memory
  reader : Reader

/-- One entry of a directory block: its name, or the end of the program. -/
def listEntry (currDirectory : Memory) (s : Listing) (j : Nat) : Except Exit Listing :=
  if 0 ≤ inum currDirectory j then
    let child := load env (inum currDirectory j) s.buf s.reader
    let name := cstring currDirectory (dirEntSize * j)
    let type := (Inode.ofBytes child.1.2).type
    if type = MFS_DIRECTORY then .ok ⟨s.out ++ name ++ text "/\n", child.1, child.2⟩
    else if type = MFS_REGULAR_FILE then .ok ⟨s.out ++ name ++ text "\n", child.1, child.2⟩
    else .error (error s.out)
  else .ok s

/-- One block of the inspected directory. -/
def listBlock (inspecteeINode : Inode) (s : Memory × Listing) (i : Nat) :
    Except Exit (Memory × Listing) :=
  if 0 < inspecteeINode.ptr i then
    let block := (s.2.reader.img.lseek (inspecteeINode.ptr i)).read BLOCK_SIZE s.1
    let l := { s.2 with reader := { s.2.reader with img := block.2 } }
    ((List.range DIRECTORY_SIZE).foldlM (listEntry env block.1) l).map (block.1, ·)
  else .ok s

def runLs (r : Reader) : Exit :=
  match inspect env MFS_DIRECTORY r with
  | none => error []
  | some (inspecteeINode, r) =>
    let buf := env.frame r.calls
    let r := { r with calls := r.calls + 1 }
    let s := (List.range NUM_PTRS_IN_INODE).foldlM (listBlock env inspecteeINode)
      (buf.directory, ⟨[], (buf.inodeMap, buf.inode), r⟩)
    match s with
    | .error e => e
    | .ok (_, l) => ⟨l.out, true⟩

/-- The image is opened and its checkpoint region read. -/
def openImage (img : Image) : Reader :=
  let region := img.read checkpointSize fun _ => 0
  ⟨region.2, region.1, 0, 0⟩

def ROOT_DIR_INODE_NUM : Int := 0

/-- The reader after `main` has searched for the path. -/
def inspectee (path : List Byte) (img : Image) : Reader :=
  let inspecteeName := path ++ env.behind
  getINode env (if inspecteeName.head? = some slash then inspecteeName.tail else inspecteeName)
    ROOT_DIR_INODE_NUM (openImage img)

/-- `main` with a command, a path, an image and the buffer that `runCat`
allocates. -/
def main (cmd path : List Byte) (img : Image) (buff : Memory) : Exit :=
  let r := inspectee env path img
  if cmd = text "cat" then runCat env buff r
  else if cmd = text "ls" then runLs env r
  else ⟨text "Unknown command\n", false⟩

end PerrOS.Lfs
