import Mathlib.Data.Nat.Digits.Defs

/-!
# Numbers as text

`printint` writes the digits of a number into a buffer of 16 bytes, the last one
first, and prints the buffer backwards; `atoi` reads a number from its digits.
-/

namespace PerrOS.User

abbrev Byte := BitVec 8

abbrev Word := BitVec 32

def zero : Byte := 48

def nine : Byte := 57

def minus : Byte := 45

def BUFSIZE : Nat := 16

/-- `digits[d]`. -/
def digit (d : Nat) : Byte := if d < 10 then .ofNat 8 (48 + d) else .ofNat 8 (55 + d)

/-- The loop of `printint`, with `room` bytes left of the buffer: none if it is overrun. -/
def storeDigits (base : Word) : Nat → Word → Option (List Byte)
  | 0, _ => none
  | room + 1, x =>
    if x / base = 0 then some [digit (x % base).toNat]
    else (storeDigits base room (x / base)).map (digit (x % base).toNat :: ·)

/-- `printint`: what is printed, and none if the buffer is overrun. -/
def printint (xx base : Word) (sgn : Bool) : Option (List Byte) :=
  let neg := sgn && decide (xx.toInt < 0)
  (storeDigits base BUFSIZE (if neg then -xx else xx)).bind fun buf =>
    if neg then
      if buf.length < BUFSIZE then some (buf ++ [minus]).reverse else none
    else some buf.reverse

/-- The loop of `atoi`, of a string without its terminator. -/
def atoiLoop (n : Word) : List Byte → Word
  | [] => n
  | c :: s => if zero ≤ c ∧ c ≤ nine then atoiLoop (n * 10 + c.setWidth 32 - 48) s else n

def atoi (s : List Byte) : Word := atoiLoop 0 s

/-- The digits of `n`, the first one first. -/
structure Numeral (base n : Nat) (ds : List Nat) : Prop where
  value : Nat.ofDigits base ds.reverse = n
  lt : ∀ d ∈ ds, d < base
  /-- There are no zeros in front. -/
  head : ∀ d ∈ ds.head?, d = 0 → ds = [0]

namespace Numeral

variable {base n : Nat} {ds : List Nat}

theorem single (h : n < base) : Numeral base n [n] where
  value := Nat.ofDigits_singleton ..
  lt d hd := by
    rw [List.mem_singleton.mp hd]
    exact h
  head d hd h0 := by
    obtain rfl : n = d := Option.some.inj hd
    rw [h0]

theorem snoc (hbase : 0 < base) (h : Numeral base (n / base) ds) (hn : n / base ≠ 0) :
    Numeral base n (ds ++ [n % base]) where
  value := by
    rw [List.reverse_append, List.reverse_singleton, List.singleton_append, Nat.ofDigits_cons,
      h.value]
    exact Nat.mod_add_div n base
  lt d hd := by
    rcases List.mem_append.mp hd with hd | hd
    · exact h.lt d hd
    · rw [List.mem_singleton.mp hd]
      exact Nat.mod_lt n hbase
  head d hd h0 := by
    cases ds with
    | nil => exact absurd h.value.symm hn
    | cons x ds =>
      have hx : x = 0 := (Option.some.inj hd).trans h0
      have hds := h.head x rfl hx
      rw [hx] at hds
      have hvalue := h.value
      rw [hx, hds] at hvalue
      exact absurd hvalue.symm hn

end Numeral

variable {base x xx : Word} {room k : Nat}

/-- A number below the power of `k + 1` is stored in at most as many bytes. -/
theorem storeDigits_eq (hbase : 0 < base.toNat) (hk : k < room)
    (hx : x.toNat < base.toNat ^ (k + 1)) :
    ∃ ds, storeDigits base room x = some (ds.reverse.map digit) ∧
      Numeral base.toNat x.toNat ds ∧ ds.length ≤ k + 1 := by
  induction room generalizing x k with
  | zero => exact absurd hk (Nat.not_lt_zero k)
  | succ room ih =>
    have hdiv : (x / base).toNat = x.toNat / base.toNat := BitVec.toNat_udiv ..
    have hmod : (x % base).toNat = x.toNat % base.toNat := BitVec.toNat_umod ..
    unfold storeDigits
    rw [hmod]
    by_cases hzero : x / base = 0
    · rw [if_pos hzero]
      rw [hzero] at hdiv
      have hlt : x.toNat < base.toNat := (Nat.div_eq_zero_iff_lt hbase).mp hdiv.symm
      rw [Nat.mod_eq_of_lt hlt]
      exact ⟨[x.toNat], rfl, .single hlt, Nat.succ_le_succ (Nat.zero_le k)⟩
    · have hne : x.toNat / base.toNat ≠ 0 := by
        rw [← hdiv]
        exact fun h => hzero (BitVec.eq_of_toNat_eq h)
      rw [if_neg hzero]
      cases k with
      | zero =>
        rw [Nat.zero_add, Nat.pow_one] at hx
        exact absurd (Nat.div_eq_of_lt hx) hne
      | succ k =>
        obtain ⟨ds, hds, hnum, hlen⟩ := ih (x := x / base) (k := k) (by omega) (by
          rw [hdiv, Nat.div_lt_iff_lt_mul hbase, ← Nat.pow_succ]
          exact hx)
        rw [hdiv] at hnum
        refine ⟨ds ++ [x.toNat % base.toNat], ?_, hnum.snoc hbase hne, ?_⟩
        · rw [hds, List.reverse_append, List.reverse_singleton]
          rfl
        · rw [List.length_append, List.length_singleton]
          omega

theorem toNat_neg (h : xx.toInt < 0) : (-xx).toNat = xx.toInt.natAbs := by
  rw [BitVec.toInt_eq_toNat_cond] at h ⊢
  rw [BitVec.toNat_neg]
  have := xx.isLt
  split <;> omega

/-- The number that is printed. -/
def shown (xx : Word) (sgn : Bool) : Nat := if sgn then xx.toInt.natAbs else xx.toNat

theorem shown_of_nonneg (h : ¬ xx.toInt < 0) (sgn : Bool) : shown xx sgn = xx.toNat := by
  unfold shown
  split
  · rw [BitVec.toInt_eq_toNat_cond] at h ⊢
    have := xx.isLt
    split at h <;> split <;> omega
  · rfl

/-- A number is printed as its digits, with a sign in front, and the buffer has room for them. -/
theorem printint_eq (xx : Word) (sgn : Bool) (hbase : base = 10 ∨ base = 16) :
    ∃ ds, Numeral base.toNat (shown xx sgn) ds ∧ printint xx base sgn =
      some ((if sgn ∧ xx.toInt < 0 then [minus] else []) ++ ds.map digit) := by
  have h5 : 5 ≤ base.toNat := by
    rcases hbase with rfl | rfl <;> decide
  have hpow (x : Word) : x.toNat < base.toNat ^ (13 + 1) :=
    x.isLt.trans_le ((by decide : 2 ^ 32 ≤ 5 ^ 14).trans (Nat.pow_le_pow_left h5 14))
  unfold printint
  by_cases hneg : sgn ∧ xx.toInt < 0
  · obtain ⟨ds, hds, hnum, hlen⟩ := @storeDigits_eq base (-xx) BUFSIZE 13 (by omega) (by decide)
      (hpow (-xx))
    rw [toNat_neg hneg.2] at hnum
    refine ⟨ds, by rw [shown, if_pos hneg.1]; exact hnum, ?_⟩
    have hroom : (ds.reverse.map digit).length < BUFSIZE := by
      rw [List.length_map, List.length_reverse, BUFSIZE]
      omega
    simp only [hneg.1, hneg.2, decide_true, Bool.and_self, if_true, hds, Option.bind_some,
      if_pos hroom, and_self]
    rw [List.reverse_append, List.reverse_singleton, ← List.map_reverse, List.reverse_reverse]
  · obtain ⟨ds, hds, hnum, hlen⟩ := @storeDigits_eq base xx BUFSIZE 13 (by omega) (by decide)
      (hpow xx)
    have hfalse : (sgn && decide (xx.toInt < 0)) = false := by
      simpa using hneg
    refine ⟨ds, ?_, ?_⟩
    · cases sgn with
      | false => exact hnum
      | true => exact shown_of_nonneg (fun h => hneg ⟨rfl, h⟩) true ▸ hnum
    · rw [hfalse, if_neg hneg]
      simp only [Bool.false_eq_true, if_false, hds, Option.bind_some]
      rw [← List.map_reverse, List.reverse_reverse, List.nil_append]

/-- The least number is printed. -/
theorem printint_min : ∃ ds, Numeral 10 2147483648 ds ∧
    printint (.ofNat 32 2147483648) 10 true = some (minus :: ds.map digit) :=
  printint_eq (.ofNat 32 2147483648) true (.inl rfl)

-- ---------------------------------------------------------------------------
-- Reading a number
-- ---------------------------------------------------------------------------

/-- A number ends before `s`. -/
def Ended (s : List Byte) : Prop := ∀ c ∈ s.head?, ¬ (zero ≤ c ∧ c ≤ nine)

theorem atoiLoop_ended {s : List Byte} (h : Ended s) (n : Word) : atoiLoop n s = n := by
  cases s with
  | nil => rfl
  | cons c s => exact if_neg (h c rfl)

theorem ended_cons {c : Byte} {s : List Byte} (h : ¬ (zero ≤ c ∧ c ≤ nine)) : Ended (c :: s) :=
  fun _ hd => Option.some.inj hd ▸ h

theorem digit_spec : ∀ d < 10, (zero ≤ digit d ∧ digit d ≤ nine) ∧
    (digit d).setWidth 32 = BitVec.ofNat 32 (48 + d) := by decide

theorem atoiLoop_digits {ds : List Nat} (h : ∀ d ∈ ds, d < 10) (s : List Byte) (n : Nat) :
    atoiLoop (.ofNat 32 n) (ds.map digit ++ s) =
      atoiLoop (.ofNat 32 (ds.foldl (fun n d => d + 10 * n) n)) s := by
  induction ds generalizing n with
  | nil => rfl
  | cons d ds ih =>
    obtain ⟨hd, hwidth⟩ := digit_spec d (h d (List.mem_cons_self ..))
    have hnext : BitVec.ofNat 32 n * 10 + (digit d).setWidth 32 - 48 =
        BitVec.ofNat 32 (d + 10 * n) := by
      rw [hwidth]
      apply BitVec.eq_of_toNat_eq
      simp only [BitVec.toNat_sub, BitVec.toNat_add, BitVec.toNat_mul, BitVec.toNat_ofNat,
        show (10 : Word).toNat = 10 from rfl, show (48 : Word).toNat = 48 from rfl]
      omega
    rw [List.map_cons, List.cons_append, atoiLoop, if_pos hd, hnext]
    exact ih (fun d hd => h d (List.mem_cons_of_mem _ hd)) _

theorem Numeral.foldl {n : Nat} {ds : List Nat} (h : Numeral 10 n ds) :
    ds.foldl (fun n d => d + 10 * n) 0 = n := by
  rw [← h.value, Nat.ofDigits_eq_foldr, List.foldr_reverse]
  rfl

/-- What `atoi` reads of a number that `printint` has printed: the number, and zero where it is
negative, since it stops at the sign. -/
theorem atoi_printint (xx : Word) {s : List Byte} (hs : Ended s) :
    ∃ text, printint xx 10 true = some text ∧
      atoi (text ++ s) = if xx.toInt < 0 then 0 else xx := by
  obtain ⟨ds, hnum, htext⟩ := printint_eq xx true (.inl rfl)
  refine ⟨_, htext, ?_⟩
  by_cases hneg : xx.toInt < 0
  · rw [if_pos ⟨rfl, hneg⟩, if_pos hneg]
    exact atoiLoop_ended (ended_cons (by decide)) 0
  · rw [shown_of_nonneg hneg] at hnum
    rw [if_neg fun h => hneg h.2, if_neg hneg, List.nil_append, atoi]
    rw [show (0 : Word) = .ofNat 32 0 from rfl, atoiLoop_digits hnum.lt, atoiLoop_ended hs,
      hnum.foldl, BitVec.ofNat_toNat, BitVec.setWidth_eq]

theorem atoi_printint_line : ∃ text, printint 540 10 true = some text ∧
    atoi (text ++ [10]) = if (540 : Word).toInt < 0 then 0 else 540 :=
  atoi_printint 540 (ended_cons (by decide))

end PerrOS.User
