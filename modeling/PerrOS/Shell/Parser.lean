import PerrOS.Lib.Strtok

/-!
# The parser of `mysh`

One turn of `main`'s loop up to the execution: `getcmd` stores the line in
`buff`, a pointer goes through it while `strtok` cuts it at the operators and,
within each piece, at the blanks.
-/

namespace PerrOS.Shell

open Lib (Strtok strtok tokens)

/-- What ends a C string. -/
def NUL : Char := Char.ofNat 0

def newline : Char := Char.ofNat 10

/-- The delimiters between words, `" \t"`. -/
def blanks : List Char := [' ', Char.ofNat 9]

def MAX_INPUT_LENGTH : Nat := 1024

inductive CommandType
  | regular
  | pipe
  | tee
  | oRedir
  | aRedir
deriving DecidableEq, Repr

/-- A `Command`; its `ArgList` is the list of the words. -/
structure Command where
  argList : List (List Char)
  inputType : CommandType
  outputType : CommandType
deriving DecidableEq, Repr

/-- `main`'s variables while it goes through a line. Pointers into `buff` are
indices. -/
structure Scan where
  mem : Strtok Char
  buffItr : Nat
  currInput : Nat
  inType : CommandType
  errorSeen : Bool
  commandList : List Command

/-- `c` gives the characters from the pointer on. -/
def badCharNext (c : Nat → Char) : Bool :=
  if c 0 = '|' ∨ c 0 = '%' then
    c 1 ≠ NUL ∧ (c 1 = '|' ∨ c 1 = '>' ∨ c 1 = '%')
  else if c 0 = '>' then
    c 1 ≠ NUL ∧ c 2 ≠ NUL ∧ (c 1 = '|' ∨ c 2 = '>' ∨ c 1 = '%')
  else false

/-- The word splitter calls `strtok` on a pointer `strtok` itself returned,
null included. There are no more words than characters in the buffer. -/
def appendToCommandList (mem : Strtok Char) (list : List Command) (chunkOfText : Option Nat)
    (iType oType : CommandType) : Option (Strtok Char × List Command) :=
  let (mem, word) := strtok NUL mem chunkOfText blanks
  match tokens NUL blanks mem.buff.length mem word [] with
  | none => none
  | some (mem, argList) => some (mem, list ++ [⟨argList, iType, oType⟩])

namespace Scan

/-- `*(buffItr + j)`. -/
def char (s : Scan) (j : Nat) : Char := s.mem.buff.getD (s.buffItr + j) NUL

/-- What the three operators' branches share: the text up to the operator
becomes a command. Only `>>` has a `width` of 2, and moves `buffItr` on. -/
def cut (s : Scan) (delim : List Char) (width : Nat) (oType : CommandType) : Option Scan :=
  let (mem, token) := strtok NUL s.mem (some s.currInput) delim
  let buffItr := s.buffItr + (width - 1)
  match appendToCommandList mem s.commandList token s.inType oType with
  | none => none
  | some (mem, list) =>
    some { s with
      mem := mem
      buffItr := buffItr
      currInput := buffItr + 1
      inType := oType
      commandList := list }

/-- The `switch` on `*buffItr`. -/
def switch (s : Scan) : Option Scan :=
  if s.char 0 = '|' then
    if badCharNext s.char then some { s with errorSeen := true }
    else s.cut ['|'] 1 .pipe
  else if s.char 0 = '%' then
    if badCharNext s.char then some { s with errorSeen := true }
    else s.cut ['%'] 1 .tee
  else if s.char 0 = '>' then
    if badCharNext s.char then some { s with errorSeen := true }
    else if s.char 1 = '>' then s.cut ['>', '>'] 2 .aRedir
    else if badCharNext s.char then some { s with errorSeen := true }
    else s.cut ['>'] 1 .oRedir
  else some s

/-- The loop over the buffer; `none` when the fuel is spent. -/
def loop : Nat → Scan → Option Scan
  | 0, s => if s.char 0 = NUL then some s else none
  | fuel + 1, s =>
    if s.char 0 = NUL then some s
    else match s.switch with
      | none => none
      | some s => if s.errorSeen then some s else loop fuel { s with buffItr := s.buffItr + 1 }

/-- The loop and the call after it: the command list and `errorSeen`. -/
def run (fuel : Nat) (s : Scan) : Option (List Command × Bool) :=
  match loop fuel s with
  | none => none
  | some s =>
    match appendToCommandList s.mem s.commandList (some s.currInput) s.inType .regular with
    | none => none
    | some (_, list) => some (list, s.errorSeen)

end Scan

/-- `getcmd`, and the newline overwritten. `getline` is told that `buff` holds
`MAX_INPUT_LENGTH` characters; a line that does not fit there together with its
newline and the terminator makes it reallocate the array on the stack. -/
def getcmd (buff line : List Char) : Option (List Char) :=
  if line.length + 2 ≤ MAX_INPUT_LENGTH then
    some (line ++ [NUL, NUL] ++ buff.drop (line.length + 2))
  else none

/-- What becomes of a line. -/
inductive Action
  | ignored
  | alerted
  | executed (list : List Command)
deriving DecidableEq, Repr

/-- The loop at the head of `execCommands`. -/
def execCommands (list : List Command) : Action :=
  if list.any (fun c => c.argList.isEmpty) then .alerted else .executed list

structure Turn where
  commandList : List Command
  errorSeen : Bool
  action : Action
deriving DecidableEq, Repr

/-- `buff` and `save` are what earlier lines left of the buffer and of
`strtok`'s pointer. -/
def turn (buff : List Char) (save : Nat) (line : List Char) : Option Turn :=
  match getcmd buff line with
  | none => none
  | some buff =>
    match Scan.run buff.length ⟨⟨buff, save⟩, 0, 0, .regular, false, []⟩ with
    | none => none
    | some (list, errorSeen) =>
      let blank := list.length = 1 ∧ (list.head?.all fun c => c.argList.isEmpty)
      some ⟨list, errorSeen, if blank ∨ errorSeen then .ignored else execCommands list⟩

end PerrOS.Shell
