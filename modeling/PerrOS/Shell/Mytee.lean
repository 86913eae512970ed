import PerrOS.Lib.Lines

/-!
# `mytee`

The shell's tee child (`mytee.c`) reads its input with `fgets`, a line or a full
buffer at a time, and writes what it read to `tee.txt` and to standard output.
It takes the length of what it read from `strlen`, and where that fills the
buffer it writes the buffer whole, its terminator with it.
-/

namespace PerrOS.Shell.Mytee

open Lib (chunks lines readLine)

abbrev Byte := BitVec 8

def MAX_LENGTH : Nat := 1025

def NUL : Byte := 0

def newline : Byte := 10

/-- The buffer `buff`. -/
structure Buffer where
  bytes : List Byte
  length_eq : bytes.length = MAX_LENGTH

variable {s s' : List Byte} {buff : Buffer}

/-- `memset(buff, '\0', MAX_LENGTH)`. -/
def Buffer.zero : Buffer := ⟨List.replicate MAX_LENGTH NUL, List.length_replicate⟩

/-- A string of fewer bytes than the buffer has, and its terminator, over what the buffer held. -/
def Buffer.store (buff : Buffer) (c : List Byte) (h : c.length < MAX_LENGTH) : Buffer where
  bytes := c ++ NUL :: buff.bytes.drop (c.length + 1)
  length_eq := by
    have := buff.length_eq
    rw [List.length_append, List.length_cons, List.length_drop]
    omega

@[simp]
theorem Buffer.bytes_store {c : List Byte} (h : c.length < MAX_LENGTH) :
    (buff.store c h).bytes = c ++ NUL :: buff.bytes.drop (c.length + 1) :=
  rfl

/-- The bytes before the first terminator. -/
def Buffer.string (buff : Buffer) : List Byte := buff.bytes.takeWhile (· != NUL)

def strlen (buff : Buffer) : Nat := buff.string.length

/-- What `fwrite` puts on a stream. -/
def fwrite (buff : Buffer) (len : Nat) : List Byte := buff.bytes.take len

theorem length_readLine_lt (stdin : List Byte) :
    (readLine newline (MAX_LENGTH - 1) stdin).length < MAX_LENGTH :=
  Nat.lt_succ_of_le (Lib.length_readLine_le ..)

/-- `fgets(buff, MAX_LENGTH, stdin)`: the buffer and what is left of the input, unless it is at
its end. -/
def fgets (buff : Buffer) (stdin : List Byte) : Option (Buffer × List Byte) :=
  let c := readLine newline (MAX_LENGTH - 1) stdin
  if c = [] then none
  else some (buff.store c (length_readLine_lt stdin), stdin.drop c.length)

/-- The two streams `mytee` writes. -/
@[ext]
structure Streams where
  teeFile : List Byte
  stdout : List Byte

def Streams.put (out : Streams) (bs : List Byte) : Streams where
  teeFile := out.teeFile ++ bs
  stdout := out.stdout ++ bs

theorem Streams.put_nil (out : Streams) : out.put [] = out := by
  simp [put]

theorem Streams.put_put (out : Streams) (bs cs : List Byte) :
    (out.put bs).put cs = out.put (bs ++ cs) := by
  simp [put]

/-- `main`'s length for `fwrite`. -/
def writeLength (buff : Buffer) : Nat :=
  let len := strlen buff
  if len < MAX_LENGTH - 1 then len else MAX_LENGTH

theorem fgets_length {stdin : List Byte} (h : fgets buff stdin = some (buff', rest)) :
    rest.length < stdin.length := by
  simp only [fgets] at h
  split at h
  · cases h
  · next hc =>
    cases h
    exact Lib.length_drop_readLine hc

/-- The loop of `main`. -/
def copy (buff : Buffer) (stdin : List Byte) (out : Streams) : Streams :=
  match _ : fgets buff stdin with
  | none => out
  | some (buff, rest) => copy Buffer.zero rest (out.put (fwrite buff (writeLength buff)))
termination_by stdin.length
decreasing_by exact fgets_length ‹_›

/-- What a run of `mytee` leaves: the contents of `tee.txt`, if it could be opened, what was
written to the two output streams, and the exit status. -/
structure Result where
  teeFile : Option (List Byte)
  stdout : List Byte
  stderr : String
  status : Nat

def main (opened : Bool) (stdin : List Byte) : Result :=
  if !opened then { teeFile := none, stdout := [], stderr := "Error!\n", status := 1 }
  else
    let out := copy Buffer.zero stdin ⟨[], []⟩
    { teeFile := some out.teeFile, stdout := out.stdout, stderr := "", status := 0 }

-- ---------------------------------------------------------------------------
-- What is written of each chunk
-- ---------------------------------------------------------------------------

/-- A chunk that fills the buffer is written with the terminator. -/
def padded (c : List Byte) : List Byte :=
  if c.length < MAX_LENGTH - 1 then c else c ++ [NUL]

theorem Buffer.string_store {c : List Byte} (h : c.length < MAX_LENGTH) (hc : NUL ∉ c) :
    (buff.store c h).string = c := by
  have hall : ∀ b ∈ c, (b != NUL) = true := by
    intro b hb
    rw [bne_iff_ne]
    rintro rfl
    exact hc hb
  simp [string, List.takeWhile_append_of_pos hall]

theorem fwrite_store (buff : Buffer) {c : List Byte} (h : c.length < MAX_LENGTH) (hc : NUL ∉ c) :
    fwrite (buff.store c h) (writeLength (buff.store c h)) = padded c := by
  rw [fwrite, writeLength, strlen, Buffer.string_store h hc, padded]
  split
  · exact List.take_left
  · next hfull =>
    have hlen : c.length + 1 = MAX_LENGTH := by
      simp only [MAX_LENGTH] at *
      omega
    rw [List.take_of_length_le (Nat.le_of_eq (Buffer.length_eq _)), Buffer.bytes_store,
      List.drop_eq_nil_of_le (Nat.le_of_eq (buff.length_eq.trans hlen.symm))]

/-- The streams get each chunk as it is written. -/
theorem copy_eq {stdin : List Byte} (out : Streams) (h : NUL ∉ stdin) :
    copy buff stdin out = out.put ((chunks newline (MAX_LENGTH - 2) stdin).flatMap padded) := by
  fun_induction copy buff stdin out with
  | case1 buff stdin out hend =>
    have hc : readLine newline (MAX_LENGTH - 1) stdin = [] := by
      simpa [fgets] using hend
    have hchunks : chunks newline (MAX_LENGTH - 2) stdin = [] := Lib.chunks_eq_nil hc
    rw [hchunks, List.flatMap_nil, Streams.put_nil]
  | case2 buff stdin out buff' rest hread ih =>
    simp only [fgets] at hread
    split at hread
    · cases hread
    · next hc =>
      cases hread
      have hchunks := Lib.chunks_eq_cons (n := MAX_LENGTH - 2) hc
      have hinitial := Lib.readLine_initial newline (MAX_LENGTH - 1) stdin
      have hwrite := fwrite_store buff (length_readLine_lt stdin) fun hmem =>
        h (hinitial.subset hmem)
      rw [ih fun hmem => h (List.mem_of_mem_drop hmem), hwrite, hchunks, List.flatMap_cons,
        Streams.put_put]
      rfl

theorem padded_eq_iff {c : List Byte} : padded c = c ↔ c.length < MAX_LENGTH - 1 := by
  rw [padded]
  split <;> simp [*]

theorem padded_or {c : List Byte} : padded c = c ∨ c.length < (padded c).length := by
  rw [padded]
  split <;> simp

-- ---------------------------------------------------------------------------
-- Copies
-- ---------------------------------------------------------------------------

/-- With `tee.txt` open, both streams get exactly the input. -/
def Copies (input : List Byte) : Prop :=
  (main true input).teeFile = some input ∧ (main true input).stdout = input

/-- Only a full buffer is padded. -/
theorem copies_iff_chunks (h : NUL ∉ input) :
    Copies input ↔ ∀ c ∈ chunks newline (MAX_LENGTH - 2) input, c.length < MAX_LENGTH - 1 := by
  have hflatten : (chunks newline (MAX_LENGTH - 2) input).flatten = input :=
    Lib.chunks_flatten _ input
  have hpadded : Copies input ↔
      (chunks newline (MAX_LENGTH - 2) input).flatMap padded = input := by
    simp [Copies, main, copy_eq _ h, Streams.put]
  rw [hpadded]
  nth_rewrite 2 [← hflatten]
  rw [Lib.flatMap_eq_flatten_iff fun _ _ => padded_or]
  simp only [padded_eq_iff]

/-- A line shorter than the buffer is read in one piece, and a longer one fills it. -/
theorem copies_iff_lines_fit (h : NUL ∉ input) :
    Copies input ↔ ∀ l ∈ lines newline input, l.length < MAX_LENGTH - 1 :=
  (copies_iff_chunks h).trans (Lib.forall_chunks_length_iff _ input)

/-- Two lines, the second without a newline. -/
theorem copies_two_lines :
    Copies [104, 105, 10, 120] ↔
      ∀ l ∈ lines newline [104, 105, 10, 120], l.length < MAX_LENGTH - 1 :=
  copies_iff_lines_fit (by decide)

/-- A line of 1024 bytes goes out with a terminator after it. -/
theorem not_copies_full_buffer :
    ¬ ∀ input : List Byte, NUL ∉ input → Copies input := by
  intro hcopies
  have hnul : NUL ∉ List.replicate 1024 (97 : Byte) := by
    rw [List.mem_replicate]
    decide
  have hline : lines newline (List.replicate 1024 (97 : Byte)) = [List.replicate 1024 97] := by
    apply Lib.lines_of_not_mem (by decide)
    rw [List.mem_replicate]
    decide
  have hshort := (Lib.forall_chunks_length_iff _ _).mp
    ((copies_iff_chunks hnul).mp (hcopies _ hnul)) _ (hline ▸ List.mem_singleton_self _)
  rw [List.length_replicate] at hshort
  exact absurd hshort (by decide)

end PerrOS.Shell.Mytee
