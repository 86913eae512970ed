import Mathlib.Data.List.DropRight
import PerrOS.Fs.Names
import PerrOS.Lib.Strtok

/-!
# Paths

`namex` walks a path element by element. What it finds, from any state of the
files and directories, is where the names lead in the maps that the directories
are.
-/

namespace PerrOS.Fs

open Lib
open Function (update)

/-- The character between the elements of a path. -/
def slash : Byte := 47

/-- The number of the root's inode. -/
def ROOTINO : Nat := 1

/-- The rest of the path, and the element that is copied. -/
def skipelem (path : List Byte) : Option (List Byte × List Byte) :=
  let path := path.dropWhile (· = slash)
  if path.headD 0 = 0 then none
  else
    let s := path.takeWhile fun c => c ≠ slash ∧ c ≠ 0
    let path := path.dropWhile fun c => c ≠ slash ∧ c ≠ 0
    some (path.dropWhile (· = slash), s.take DIRSIZ)

/-- The loop of `namex` from the inode `n` on: the inode that is returned, and the name. -/
def namexFrom (nameiparent : Bool) : Nat → Nat → List Byte → FsM (Option (Nat × List Byte))
  | 0, _, _ => return none
  | k + 1, n, path =>
    match skipelem path with
    | some (path, name) => do
      let ip ← iread n
      if ip.type ≠ T_DIR then return none
      else if nameiparent ∧ path.headD 0 = 0 then return some (n, name)
      else do
        let (next, _) ← dirlookup ip name
        match next with
        | some (_, inum) => namexFrom nameiparent k inum.toNat path
        | none => return none
    | none => return if nameiparent then none else some (n, [])

def namex (nameiparent : Bool) (cwd : Nat) (path : List Byte) : FsM (Option (Nat × List Byte)) :=
  namexFrom nameiparent (path.length + 1) (if path.headD 0 = slash then ROOTINO else cwd) path

-- ---------------------------------------------------------------------------
-- Elements
-- ---------------------------------------------------------------------------

/-- The elements of a path that ends with the list, or before with a 0. -/
def elements (path : List Byte) : List (List Byte) :=
  (words [slash] (path.takeWhile (· ≠ 0))).map (List.take DIRSIZ)

variable {path rest name w : List Byte}

theorem text_append {l : List Byte} (hl : ∀ c ∈ l, c ≠ 0) (q : List Byte) :
    (l ++ q).takeWhile (· ≠ 0) = l ++ q.takeWhile (· ≠ 0) :=
  List.takeWhile_append_of_pos fun c hc => decide_eq_true (hl c hc)

theorem text_eq_nil (h : path.headD 0 = 0) : path.takeWhile (· ≠ 0) = [] := by
  cases path with
  | nil => rfl
  | cons c path => exact List.takeWhile_cons_of_neg (by simpa using h)

theorem words_nil : words [slash] ([] : List Byte) = [] := words_delims fun c hc => by simp at hc

/-- Leading slashes are skipped. -/
theorem words_dropWhile (path : List Byte) :
    words [slash] ((path.dropWhile (· = slash)).takeWhile (· ≠ 0)) =
      words [slash] (path.takeWhile (· ≠ 0)) := by
  have hl : ∀ c ∈ path.takeWhile (· = slash), c = slash := fun c hc => by
    have h := List.mem_takeWhile_imp hc
    exact of_decide_eq_true h
  have hsplit := List.takeWhile_append_dropWhile (p := (· = slash)) (l := path)
  conv_rhs => rw [← hsplit]
  rw [text_append fun c hc h0 => absurd ((hl c hc).symm.trans h0) (by decide)]
  exact (words_skip fun c hc => by rw [hl c hc]; exact List.mem_singleton_self _).symm

/-- Behind the leading slashes. -/
theorem not_slash (path : List Byte) :
    match path.dropWhile (· = slash) with
    | [] => True
    | c :: _ => c ≠ slash := by
  have h := List.head?_dropWhile_not (fun c => decide (c = slash)) path
  split
  · trivial
  · rename_i hc
    rw [hc] at h
    exact of_decide_eq_false h

theorem skipelem_eq_none :
    skipelem path = none ↔ (path.dropWhile (· = slash)).headD 0 = 0 := by
  unfold skipelem
  dsimp only
  split
  · rename_i h
    exact iff_of_true rfl h
  · rename_i h
    exact iff_of_false (by simp) h

/-- What `skipelem` takes off a path. -/
theorem skipelem_some (h : skipelem path = some (rest, name)) :
    elements path = name :: elements rest ∧ rest.length < path.length ∧
      cstring DIRSIZ name = name ∧ (rest.headD 0 = 0 ↔ skipelem rest = none) := by
  unfold skipelem at h
  dsimp only at h
  obtain ⟨q, hq⟩ : ∃ q, q = path.dropWhile (· = slash) := ⟨_, rfl⟩
  rw [← hq] at h
  obtain ⟨h0, h⟩ := Option.ite_none_left_eq_some.mp h
  cases h
  obtain ⟨w, hw⟩ : ∃ w, w = q.takeWhile fun c => c ≠ slash ∧ c ≠ 0 := ⟨_, rfl⟩
  obtain ⟨r, hr⟩ : ∃ r, r = q.dropWhile fun c => c ≠ slash ∧ c ≠ 0 := ⟨_, rfl⟩
  have hsplit : w ++ r = q := by
    rw [hw, hr, List.takeWhile_append_dropWhile]
  have hmem : ∀ c ∈ w, c ≠ slash ∧ c ≠ 0 := fun c hc => by
    rw [hw] at hc
    have h := List.mem_takeWhile_imp hc
    exact of_decide_eq_true h
  have hslash := not_slash path
  rw [← hq] at hslash
  have hne : w ≠ [] := by
    cases hc : q with
    | nil =>
      rw [hc] at h0
      exact absurd rfl h0
    | cons c q' =>
      rw [hc] at h0 hslash
      rw [hw, hc, List.takeWhile_cons, if_pos (decide_eq_true ⟨hslash, h0⟩)]
      simp
  have hdelim : ∀ c ∈ w, c ∉ [slash] := fun c hc hs =>
    (hmem c hc).1 (List.mem_singleton.mp hs)
  have hwords : words [slash] (path.takeWhile (· ≠ 0)) =
      w :: words [slash] (r.takeWhile (· ≠ 0)) := by
    rw [← words_dropWhile, ← hq, ← hsplit, text_append fun c hc => (hmem c hc).2]
    cases hc : r with
    | nil => rw [List.takeWhile_nil, List.append_nil, words_nil, words_word hdelim hne]
    | cons c r' =>
      by_cases hc0 : c = 0
      · rw [List.takeWhile_cons_of_neg (by simpa using hc0), List.append_nil, words_nil,
          words_word hdelim hne]
      · have hcut : c = slash := by
          have hstop := List.head?_dropWhile_not (fun c => decide (c ≠ slash ∧ c ≠ 0)) q
          rw [← hr, hc] at hstop
          have hstop : decide (c ≠ slash ∧ c ≠ 0) = false := hstop
          rw [decide_eq_false_iff_not] at hstop
          exact Classical.not_not.mp fun h => hstop ⟨h, hc0⟩
        have hslash : c ∈ [slash] := List.mem_singleton.mpr hcut
        rw [List.takeWhile_cons, if_pos (decide_eq_true hc0), words_cut hdelim hne hslash,
          words_cons hslash]
  refine ⟨?_, ?_, ?_, ?_⟩
  · rw [elements, hwords, List.map_cons, ← hw, ← hr, elements, words_dropWhile]
  · have hlen := congrArg List.length hsplit
    have hpos := List.length_pos_iff.mpr hne
    have hle : q.length ≤ path.length := hq ▸ (List.dropWhile_sublist _).length_le
    have hrest := (List.dropWhile_sublist (fun c => decide (c = slash)) (l := r)).length_le
    rw [List.length_append] at hlen
    rw [← hr]
    omega
  · rw [← hw, cstring, List.take_take, Nat.min_self, List.takeWhile_eq_self_iff]
    exact fun c hc => decide_eq_true (hmem c (List.mem_of_mem_take hc)).2
  · rw [← hr, skipelem_eq_none, List.dropWhile_idempotent]

theorem skipelem_none (h : skipelem path = none) : elements path = [] := by
  rw [skipelem_eq_none] at h
  rw [elements, ← words_dropWhile, text_eq_nil h, words_nil, List.map_nil]

/-- The name is the last. -/
theorem elements_eq_nil (h : rest.headD 0 = 0 ↔ skipelem rest = none) :
    elements rest = [] ↔ rest.headD 0 = 0 := by
  rw [h]
  refine ⟨fun hnil => ?_, skipelem_none⟩
  cases hs : skipelem rest with
  | none => rfl
  | some r =>
    rw [(skipelem_some hs).1] at hnil
    cases hnil

-- ---------------------------------------------------------------------------
-- Walks
-- ---------------------------------------------------------------------------

/-- Where the elements of a path lead from the file `n`, or with `nameiparent` all but the last. -/
def walk (x : Files × (Nat → Dir)) (nameiparent : Bool) :
    Nat → List (List Byte) → Except Fault (Option (Nat × List Byte))
  | n, [] => .ok (if nameiparent then none else some (n, []))
  | n, name :: rest =>
    match x.1 n with
    | some f =>
      if f.type ≠ T_DIR then .ok none
      else if nameiparent ∧ rest = [] then .ok (some (n, name))
      else match x.2 n name with
        | some inum => walk x nameiparent inum.toNat rest
        | none => .ok none
    | none => .error (.panic "ilock: no type")

/-- The names are those of inodes of the disk. -/
def Bounded (ninodes : Nat) (nm : Nat → Dir) : Prop :=
  ∀ n name inum, nm n name = some inum → inum.toNat < ninodes

variable {sb : Superblock} {d : Disk} {nm : Nat → Dir} {n cwd : Nat} {b : Bool} {s : State}
  {ls : List Names.Label}

theorem namexFrom_outcome (h : Sound sb d) (hf : Folders (d.file sb) nm)
    (hb : Bounded sb.ninodes.toNat nm) (hn : n < sb.ninodes.toNat) (hk : path.length < k) :
    Outcome (namexFrom b k n path)
      (fun r t => t = d ∧ walk (d.file sb, nm) b n (elements path) = .ok r)
      (fun e t => t = d ∧ walk (d.file sb, nm) b n (elements path) = .error e) d := by
  induction k generalizing n path with
  | zero => exact absurd hk (Nat.not_lt_zero _)
  | succ k ih =>
    unfold namexFrom
    cases hs : skipelem path with
    | none =>
      rw [skipelem_none hs, walk]
      exact Outcome.pure.mpr ⟨rfl, rfl⟩
    | some r =>
      obtain ⟨rest, name⟩ := r
      obtain ⟨helements, hlen, hname, hlast⟩ := skipelem_some hs
      rw [helements, walk]
      dsimp only
      rw [Outcome.bind, iread_outcome h.consistent.formatted hn]
      split
      · rename_i h0
        rw [file_eq_none.mpr h0]
        exact ⟨rfl, rfl⟩
      · rename_i h0
        rw [file_of_type h0]
        dsimp only
        by_cases ht : (d.inode sb n).type = T_DIR
        · have hfolder := hf n _ (file_of_type h0) ht
          have hdvd := hfolder.whole
          rw [length_file] at hdvd
          have htype : ((d.inode sb n).file d).type = T_DIR := ht
          rw [if_neg (not_not.mpr ht), if_neg (not_not.mpr htype)]
          have hlast := elements_eq_nil hlast
          by_cases hstop : b = true ∧ rest.headD 0 = 0
          · rw [if_pos hstop, if_pos (hstop.imp_right hlast.mpr)]
            exact Outcome.pure.mpr ⟨rfl, rfl⟩
          · rw [if_neg hstop, if_neg fun h => hstop (h.imp_right hlast.mp)]
            have hinum := lookup_inum ((d.inode sb n).file d) name
            rw [hname, hfolder.names] at hinum
            rw [Outcome.bind, dirlookup_outcome h ht hdvd, ← hinum]
            cases hl : ((d.inode sb n).file d).lookup name with
            | none => exact Outcome.pure.mpr ⟨rfl, rfl⟩
            | some e =>
              rw [hl, Option.map_some] at hinum
              exact ih (hb n name e.2 hinum.symm) (by omega)
        · have htype : ((d.inode sb n).file d).type ≠ T_DIR := ht
          rw [if_pos ht, if_pos htype]
          exact Outcome.pure.mpr ⟨rfl, rfl⟩

namespace Names

theorem bounded_effect {icache : Nat → Option Inode} {x : Files × (Nat → Dir)}
    (hb : Bounded sb.ninodes.toNat x.2) (hp : program sb icache op = some m) (r : Reply) :
    Bounded sb.ninodes.toNat (effect op r x).2 := by
  have hset (n : Nat) (dir : Dir)
      (hd : ∀ name inum, dir name = some inum → inum.toNat < sb.ninodes.toNat) :
      Bounded sb.ninodes.toNat (update x.2 n dir) := by
    intro k name inum hk
    by_cases he : k = n
    · subst he
      rw [Function.update_self] at hk
      exact hd name inum hk
    · rw [Function.update_of_ne he] at hk
      exact hb k name inum hk
  cases op with
  | inode c =>
    cases c with
    | ialloc type =>
      cases r with
      | result r =>
        cases r with
        | inum n => exact hset n _ fun name inum h => by cases h
        | _ => exact hb
      | _ => exact hb
    | _ => cases r <;> exact hb
  | dirlookup n name => exact hb
  | dirlink n name inum =>
    obtain ⟨⟨-, hlt, -⟩, -⟩ := Option.ite_none_right_eq_some.mp hp
    cases r with
    | status r =>
      rw [effect]
      split
      · refine hset n _ fun name' inum' h => ?_
        by_cases he : name' = cstring DIRSIZ name
        · subst he
          rw [Function.update_self] at h
          cases h
          rw [BitVec.toNat_ofNat]
          exact Nat.lt_of_le_of_lt (Nat.mod_le ..) hlt
        · rw [Function.update_of_ne he] at h
          exact hb n name' inum' h
      · exact hb
    | _ => exact hb
  | unlink n name =>
    cases r with
    | entry r =>
      refine hset n _ fun name' inum' h => ?_
      by_cases he : name' = cstring DIRSIZ name
      · subst he
        rw [Function.update_self] at h
        cases h
      · rw [Function.update_of_ne he] at h
        exact hb n name' inum' h
    | _ => exact hb
  | isdirempty n => exact hb

theorem run_bounded (hb : Bounded sb.ninodes.toNat nm) (h : (system sb d).Run ls s) :
    Bounded sb.ninodes.toNat (after (d.file sb, nm) ls).2 := by
  refine h.invariant (P := fun ls _ => Bounded sb.ninodes.toNat (after (d.file sb, nm) ls).2) ?_ ?_
  · rintro _ rfl
    exact hb
  · intro ls s l t hbounded hs
    cases hs with
    | done hok hp hrun =>
      rw [after_done]
      exact bounded_effect hbounded hp _
    | fail hok hp hrun =>
      unfold after
      rw [List.filterMap_append, List.foldl_append]
      exact hbounded

end Names

end PerrOS.Fs
