import PerrOS.User.Printf

/-!
# Formats

`printf` of the user programs is a machine of two states that goes through the
format: it is behind a `%` or not. What it prints is what the directives of the
format say, and no number overruns its buffer.
-/

namespace PerrOS.User

def letter (c : Char) : Byte := .ofNat 8 c.toNat

def percent : Byte := letter '%'

/-- What is printed for a string at address 0. -/
def null : List Byte := "(null)".toList.map letter

/-- The string that is printed for an argument, where `str` is the memory. -/
def strArg (str : Word → List Byte) (a : Word) : List Byte := if a = 0 then null else str a

/-- The loop of `printf` over the rest of the format, with `state` the one behind a `%`, and the
next argument `ap`. -/
def printfLoop (str : Word → List Byte) (args : Nat → Word) :
    List Byte → Bool → Nat → Option (List Byte)
  | [], _, _ => some []
  | c :: fmt, false, ap =>
    if c = percent then printfLoop str args fmt true ap
    else (printfLoop str args fmt false ap).map ([c] ++ ·)
  | c :: fmt, true, ap =>
    if c = letter 'd' then
      (printint (args ap) 10 true).bind fun out =>
        (printfLoop str args fmt false (ap + 1)).map (out ++ ·)
    else if c = letter 'x' ∨ c = letter 'p' then
      (printint (args ap) 16 false).bind fun out =>
        (printfLoop str args fmt false (ap + 1)).map (out ++ ·)
    else if c = letter 's' then
      (printfLoop str args fmt false (ap + 1)).map (strArg str (args ap) ++ ·)
    else if c = letter 'c' then
      (printfLoop str args fmt false (ap + 1)).map ([(args ap).setWidth 8] ++ ·)
    else if c = percent then (printfLoop str args fmt false ap).map ([c] ++ ·)
    else (printfLoop str args fmt false ap).map ([percent, c] ++ ·)

def printf (str : Word → List Byte) (fmt : List Byte) (args : Nat → Word) : Option (List Byte) :=
  printfLoop str args fmt false 0

-- ---------------------------------------------------------------------------
-- What a format says
-- ---------------------------------------------------------------------------

/-- What a directive says, for the next argument `a`: what is printed, and how many arguments are
taken. -/
inductive Directive (str : Word → List Byte) (a : Word) : Byte → List Byte → Nat → Prop
  | int (hnum : Numeral 10 a.toInt.natAbs ds) :
    Directive str a (letter 'd') ((if a.toInt < 0 then [minus] else []) ++ ds.map digit) 1
  | hex (hc : c = letter 'x' ∨ c = letter 'p') (hnum : Numeral 16 a.toNat ds) :
    Directive str a c (ds.map digit) 1
  | string : Directive str a (letter 's') (strArg str a) 1
  | char : Directive str a (letter 'c') [a.setWidth 8] 1
  | escaped : Directive str a percent [percent] 0
  /-- It is printed to draw attention. -/
  | unknown (hc : c ∉ [letter 'd', letter 'x', letter 'p', letter 's', letter 'c', percent]) :
    Directive str a c [percent, c] 0

/-- What a format says, from the argument `ap` on. -/
inductive Says (str : Word → List Byte) (args : Nat → Word) : List Byte → Nat → List Byte → Prop
  | done : Says str args [] ap []
  /-- A `%` at the end prints nothing. -/
  | cut : Says str args [percent] ap []
  | byte (hc : c ≠ percent) (hrest : Says str args fmt ap out) :
    Says str args (c :: fmt) ap ([c] ++ out)
  | directive (hd : Directive str (args ap) c text k) (hrest : Says str args fmt (ap + k) out) :
    Says str args (percent :: c :: fmt) ap (text ++ out)

variable {str : Word → List Byte} {args : Nat → Word} {c : Byte} {fmt : List Byte} {ap : Nat}

/-- A directive prints what it says, and then the rest of the format is printed. -/
theorem printfLoop_directive (c : Byte) (fmt : List Byte) (ap : Nat) :
    ∃ out k, Directive str (args ap) c out k ∧ printfLoop str args (c :: fmt) true ap =
      (printfLoop str args fmt false (ap + k)).map (out ++ ·) := by
  rw [printfLoop]
  by_cases hd : c = letter 'd'
  · obtain ⟨ds, hnum, htext⟩ := printint_eq (args ap) true (.inl rfl)
    simp only [true_and] at htext
    rw [if_pos hd, htext, Option.bind_some, hd]
    exact ⟨_, 1, .int hnum, rfl⟩
  rw [if_neg hd]
  by_cases hx : c = letter 'x' ∨ c = letter 'p'
  · obtain ⟨ds, hnum, htext⟩ := printint_eq (args ap) false (.inr rfl)
    rw [if_pos hx, htext, Option.bind_some]
    exact ⟨_, 1, .hex hx hnum, rfl⟩
  rw [if_neg hx]
  by_cases hs : c = letter 's'
  · rw [if_pos hs, hs]
    exact ⟨_, 1, .string, rfl⟩
  rw [if_neg hs]
  by_cases hc : c = letter 'c'
  · rw [if_pos hc, hc]
    exact ⟨_, 1, .char, rfl⟩
  rw [if_neg hc]
  by_cases hp : c = percent
  · rw [if_pos hp, hp]
    exact ⟨_, 0, .escaped, rfl⟩
  · rw [if_neg hp]
    exact ⟨_, 0, .unknown (by simp [hd, not_or.mp hx, hs, hc, hp]), rfl⟩

theorem printfLoop_says : ∀ (fmt : List Byte) (ap : Nat),
    ∃ out, printfLoop str args fmt false ap = some out ∧ Says str args fmt ap out
  | [], ap => ⟨[], rfl, .done⟩
  | [c], ap => by
    rw [printfLoop]
    by_cases hc : c = percent
    · rw [if_pos hc, hc]
      exact ⟨[], rfl, .cut⟩
    · rw [if_neg hc]
      exact ⟨[c], rfl, .byte hc .done⟩
  | c :: d :: fmt, ap => by
    rw [printfLoop]
    by_cases hc : c = percent
    · obtain ⟨text, k, hd, hloop⟩ := @printfLoop_directive str args d fmt ap
      obtain ⟨out, hout, hsays⟩ := printfLoop_says fmt (ap + k)
      rw [if_pos hc, hloop, hout, hc]
      exact ⟨text ++ out, rfl, .directive hd hsays⟩
    · obtain ⟨out, hout, hsays⟩ := printfLoop_says (d :: fmt) ap
      rw [if_neg hc, hout]
      exact ⟨[c] ++ out, rfl, .byte hc hsays⟩

/-- `printf` prints what the format says, for any arguments. -/
theorem printf_says (str : Word → List Byte) (fmt : List Byte) (args : Nat → Word) :
    ∃ out, printf str fmt args = some out ∧ Says str args fmt 0 out :=
  printfLoop_says fmt 0

end PerrOS.User
