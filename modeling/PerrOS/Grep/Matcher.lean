import Mathlib.Computability.Language

/-!
# The matcher of `grep`

`grep.c` tells the lines with a match of a pattern, without building anything
from it. What it accepts is what the pattern says as a regular expression: `^`
and `$` at the ends, `.` for any byte, and `*` behind what may be repeated.
-/

namespace PerrOS.Grep

abbrev Byte := BitVec 8

def caret : Byte := 94

def dollar : Byte := 36

def dot : Byte := 46

def star : Byte := 42

/-- With the rest of the pattern after `c*` as `here`. -/
def matchstar (here : List Byte → Bool) (c : Byte) : List Byte → Bool
  | [] => here []
  | x :: text => here (x :: text) || (decide (x = c ∨ c = dot) && matchstar here c text)

/-- `c` itself, and then the rest of the pattern. -/
def matchone (here : List Byte → Bool) (c : Byte) : List Byte → Bool
  | [] => false
  | x :: text => decide (c = dot ∨ c = x) && here text

def matchhere : List Byte → List Byte → Bool
  | [], _ => true
  | [c], text => if c = dollar then text.isEmpty else matchone (fun _ => true) c text
  | c :: s :: re, text =>
    if s = star then matchstar (matchhere re) c text else matchone (matchhere (s :: re)) c text

/-- The loop of `match`. -/
def search (re : List Byte) : List Byte → Bool
  | [] => matchhere re []
  | x :: text => matchhere re (x :: text) || search re text

/-- `match`, of strings without their terminators. -/
def isMatch (re text : List Byte) : Bool :=
  if re.head? = some caret then matchhere re.tail text else search re text

-- ---------------------------------------------------------------------------
-- The language of a pattern
-- ---------------------------------------------------------------------------

/-- A byte, or any. -/
def atom (c : Byte) : Language Byte := {w | ∃ x, w = [x] ∧ (c = dot ∨ c = x)}

/-- What a pattern without `^` stands for. -/
def language : List Byte → Language Byte
  | [] => 1
  | [c] => if c = dollar then 1 else atom c
  | c :: s :: re =>
    if s = star then KStar.kstar (atom c) * language re else atom c * language (s :: re)

/-- The pattern ends with `$`. -/
def anchored : List Byte → Bool
  | [] => false
  | [c] => c = dollar
  | _ :: s :: re => if s = star then anchored re else anchored (s :: re)

variable {re text w : List Byte} {c : Byte}

theorem mem_atom_mul {l : Language Byte} :
    w ∈ atom c * l ↔ ∃ x t, w = x :: t ∧ (c = dot ∨ c = x) ∧ t ∈ l := by
  rw [Language.mem_mul]
  constructor
  · rintro ⟨_, ⟨x, rfl, hx⟩, t, ht, rfl⟩
    exact ⟨x, t, rfl, hx, ht⟩
  · rintro ⟨x, t, rfl, hx, ht⟩
    exact ⟨[x], ⟨x, rfl, hx⟩, t, ht, rfl⟩

theorem mem_atom_star : w ∈ KStar.kstar (atom c) ↔ ∀ x ∈ w, c = dot ∨ c = x := by
  rw [Language.mem_kstar]
  constructor
  · rintro ⟨L, rfl, hL⟩ x hx
    obtain ⟨y, hy, hxy⟩ := List.mem_flatten.mp hx
    obtain ⟨z, rfl, hz⟩ := hL y hy
    rwa [List.mem_singleton.mp hxy]
  · intro h
    refine ⟨w.map fun x => [x], ?_, fun y hy => ?_⟩
    · rw [← List.flatMap_def, List.flatMap_singleton']
    · obtain ⟨x, hx, rfl⟩ := List.mem_map.mp hy
      exact ⟨x, rfl, h x hx⟩

/-- The words of `c*` before a text that the rest of the pattern accepts. -/
theorem matchstar_iff {here : List Byte → Bool} : matchstar here c text = true ↔
    ∃ u rest, u ++ rest = text ∧ u ∈ KStar.kstar (atom c) ∧ here rest = true := by
  induction text with
  | nil =>
    refine ⟨fun h => ⟨[], [], rfl, Language.nil_mem_kstar _, h⟩, ?_⟩
    rintro ⟨u, rest, hsplit, -, h⟩
    obtain ⟨-, rfl⟩ := List.append_eq_nil_iff.mp hsplit
    exact h
  | cons x text ih =>
    rw [matchstar, Bool.or_eq_true, Bool.and_eq_true, decide_eq_true_eq, ih]
    constructor
    · rintro (h | ⟨hx, u, rest, rfl, hu, h⟩)
      · exact ⟨[], x :: text, rfl, Language.nil_mem_kstar _, h⟩
      · refine ⟨x :: u, rest, rfl, mem_atom_star.mpr fun y hy => ?_, h⟩
        rcases List.mem_cons.mp hy with rfl | hy
        · exact hx.symm.imp_right Eq.symm
        · exact mem_atom_star.mp hu y hy
    · rintro ⟨u, rest, hsplit, hu, h⟩
      cases u with
      | nil =>
        rw [List.nil_append] at hsplit
        exact .inl (hsplit ▸ h)
      | cons y u =>
        obtain ⟨rfl, rfl⟩ := List.cons.inj hsplit
        have hy := mem_atom_star.mp hu y (List.mem_cons_self ..)
        refine .inr ⟨hy.symm.imp_left Eq.symm, u, rest, rfl, mem_atom_star.mpr fun z hz => ?_, h⟩
        exact mem_atom_star.mp hu z (List.mem_cons_of_mem _ hz)

/-- A word of the pattern starts the text, and ends it where the pattern says so. -/
def Here (re text : List Byte) : Prop :=
  ∃ w rest, w ++ rest = text ∧ w ∈ language re ∧ (anchored re = true → rest = [])

theorem matchone_iff {here : List Byte → Bool} : matchone here c text = true ↔
    ∃ x rest, x :: rest = text ∧ (c = dot ∨ c = x) ∧ here rest = true := by
  cases text with
  | nil =>
    refine iff_of_false Bool.false_ne_true ?_
    rintro ⟨x, rest, hsplit, -⟩
    cases hsplit
  | cons x text =>
    rw [matchone, Bool.and_eq_true, decide_eq_true_eq]
    constructor
    · rintro ⟨hx, h⟩
      exact ⟨x, text, rfl, hx, h⟩
    · rintro ⟨y, rest, hsplit, hy, h⟩
      obtain ⟨rfl, rfl⟩ := List.cons.inj hsplit
      exact ⟨hy, h⟩

theorem matchhere_iff : matchhere re text = true ↔ Here re text := by
  induction re using language.induct generalizing text with
  | case1 =>
    refine iff_of_true (by rw [matchhere]) ⟨[], text, rfl, Language.nil_mem_one, fun h => ?_⟩
    exact absurd h Bool.false_ne_true
  | case2 =>
    rw [matchhere, if_pos rfl, List.isEmpty_iff, Here, language, if_pos rfl, anchored]
    constructor
    · rintro rfl
      exact ⟨[], [], rfl, Language.nil_mem_one, fun _ => rfl⟩
    · rintro ⟨w, rest, rfl, hw, hend⟩
      rw [(Language.mem_one w).mp hw, hend (decide_eq_true rfl), List.append_nil]
  | case3 c hc =>
    rw [matchhere, if_neg hc, matchone_iff, Here, language, if_neg hc, anchored]
    constructor
    · rintro ⟨x, rest, rfl, hx, -⟩
      exact ⟨[x], rest, rfl, ⟨x, rfl, hx⟩, fun h => absurd (of_decide_eq_true h) hc⟩
    · rintro ⟨_, rest, rfl, ⟨x, rfl, hx⟩, -⟩
      exact ⟨x, rest, rfl, hx, rfl⟩
  | case4 c re ih =>
    rw [matchhere, if_pos rfl, matchstar_iff, Here, language, if_pos rfl, anchored, if_pos rfl]
    constructor
    · rintro ⟨u, rest, rfl, hu, h⟩
      obtain ⟨w, rest', rfl, hw, hend⟩ := ih.mp h
      exact ⟨u ++ w, rest', List.append_assoc .., Language.append_mem_mul hu hw, hend⟩
    · rintro ⟨_, rest, rfl, hmul, hend⟩
      obtain ⟨u, hu, w, hw, rfl⟩ := Language.mem_mul.mp hmul
      exact ⟨u, w ++ rest, (List.append_assoc ..).symm, hu, ih.mpr ⟨w, rest, rfl, hw, hend⟩⟩
  | case5 c s re hs ih =>
    rw [matchhere, if_neg hs, matchone_iff, Here, language, if_neg hs, anchored, if_neg hs]
    constructor
    · rintro ⟨x, t, rfl, hx, h⟩
      obtain ⟨w, rest, rfl, hw, hend⟩ := ih.mp h
      exact ⟨x :: w, rest, rfl, mem_atom_mul.mpr ⟨x, w, rfl, hx, hw⟩, hend⟩
    · rintro ⟨_, rest, rfl, hw, hend⟩
      obtain ⟨x, t, rfl, hx, ht⟩ := mem_atom_mul.mp hw
      exact ⟨x, t ++ rest, rfl, hx, ih.mpr ⟨t, rest, rfl, ht, hend⟩⟩

theorem search_iff : search re text = true ↔ ∃ before t, before ++ t = text ∧ Here re t := by
  induction text with
  | nil =>
    rw [search, matchhere_iff]
    refine ⟨fun h => ⟨[], [], rfl, h⟩, ?_⟩
    rintro ⟨before, t, hsplit, h⟩
    obtain ⟨-, rfl⟩ := List.append_eq_nil_iff.mp hsplit
    exact h
  | cons x text ih =>
    rw [search, Bool.or_eq_true, matchhere_iff, ih]
    constructor
    · rintro (h | ⟨before, t, rfl, h⟩)
      · exact ⟨[], x :: text, rfl, h⟩
      · exact ⟨x :: before, t, rfl, h⟩
    · rintro ⟨before, t, hsplit, h⟩
      cases before with
      | nil =>
        rw [List.nil_append] at hsplit
        exact .inl (hsplit ▸ h)
      | cons y before =>
        obtain ⟨-, rfl⟩ := List.cons.inj hsplit
        exact .inr ⟨before, t, rfl, h⟩

/-- The pattern without `^`. -/
def body (re : List Byte) : List Byte := if re.head? = some caret then re.tail else re

/-- A line matches where it contains a word of the pattern, at its start and up to its end where the
pattern says so. -/
theorem isMatch_iff (re text : List Byte) : isMatch re text = true ↔
    ∃ before w rest, before ++ (w ++ rest) = text ∧ w ∈ language (body re) ∧
      (re.head? = some caret → before = []) ∧ (anchored (body re) = true → rest = []) := by
  unfold isMatch body
  by_cases hc : re.head? = some caret
  · rw [if_pos hc, if_pos hc, matchhere_iff]
    constructor
    · rintro ⟨w, rest, rfl, hw, hend⟩
      exact ⟨[], w, rest, rfl, hw, fun _ => rfl, hend⟩
    · rintro ⟨before, w, rest, rfl, hw, hstart, hend⟩
      rw [hstart hc, List.nil_append]
      exact ⟨w, rest, rfl, hw, hend⟩
  · rw [if_neg hc, if_neg hc, search_iff]
    constructor
    · rintro ⟨before, t, rfl, w, rest, rfl, hw, hend⟩
      exact ⟨before, w, rest, rfl, hw, fun h => absurd h hc, hend⟩
    · rintro ⟨before, w, rest, rfl, hw, -, hend⟩
      exact ⟨before, w ++ rest, rfl, w, rest, rfl, hw, hend⟩

/-- `^a.*c$`. -/
example : isMatch [94, 97, 46, 42, 99, 36] [97, 98, 98, 99] = true := by decide

end PerrOS.Grep
