import PerrOS.Lfs.InBounds

/-!
# Paths that lead somewhere

On a well-formed image the numbers in the directories have a place in the map.
For a path that leads somewhere only the blocks of a file can then be outside
an array, so `ls` uses no index outside one.
-/

namespace PerrOS.Lfs

open Fsck (Byte Image)
open Lib

variable {env : Env} {img : Image} {c : Call} {r : Reader} {w path : List Byte}
  {ws us : List (List Byte)} {d e n : Nat} {inspects : Prop}

theorem WellFormed.inMap (hwf : WellFormed img) (hn : Named img n) : InMap n := by
  have hlt := hwf.number n hn
  unfold InMap INODE_NUM_DENOM
  omega

-- ---------------------------------------------------------------------------
-- The walk
-- ---------------------------------------------------------------------------

theorem Resolves.named (h : Resolves img d ws n) (hd : Named img d) : Named img n := by
  induction h with
  | here => exact hd
  | step hdir hentry _ ih => exact ih (.entry hd hdir hentry)

theorem At.lists (hc : At img d c) (hwf : WellFormed img) (hd : Named img d)
    (hdir : IsDirectory img d) (hw : w.length < PATH_SIZE) (h : Entry img d w n) : c.Lists w n :=
  (Call.lists_iff (Int.natCast_nonneg n)).mpr ((hc.find hwf hd hdir hw).2.1 n h)

/-- Components that are there fit if what follows them does. -/
theorem At.fits_append (hc : At img d c) (hwf : WellFormed img)
    (hus : ∀ u ∈ us, u ≠ [] ∧ u.length < PATH_SIZE) (hres : Resolves img d us e) (hd : Named img d)
    (hne : ws ≠ []) (hws : ∀ c, At img e c → c.Fits env inspects ws) :
    c.Fits env inspects (us ++ ws) := by
  induction hres generalizing c with
  | here => exact hws c hc
  | @step d u m us e hdir hentry hres ih =>
    obtain ⟨-, hlen⟩ := hus u List.mem_cons_self
    have hm : Named img m := .entry hd hdir hentry
    have hopen := (hc.find hwf hd hdir hlen).1
    rw [c.find_snd u] at hopen
    rw [List.cons_append, Call.Fits]
    refine ⟨hlen, fun _ => ?_⟩
    rw [if_neg (List.append_ne_nil_of_right_ne_nil _ hne)]
    exact ⟨m, hc.lists hwf hd hdir hlen hentry, hwf.inMap hm, ih (enter_at env hwf hopen hm)
      (fun u hu => hus u (List.mem_cons_of_mem _ hu)) hm hws⟩

/-- Slashes at the end stop the recursion. -/
theorem Call.fits_slashes (env : Env) (inspects : Prop) (c : Call) (k : Nat) :
    c.Fits env inspects (List.replicate k []) := by
  cases k with
  | zero => trivial
  | succ k => exact ⟨by decide, fun h => absurd rfl h⟩

/-- The last component, whether slashes follow it or not. -/
theorem At.fits_last (env : Env) (inspects : Prop) (hc : At img d c) (hwf : WellFormed img)
    (hd : Named img d) (hdir : IsDirectory img d) (hw : w.length < PATH_SIZE)
    (h : Entry img d w n) (k : Nat) : c.Fits env inspects (w :: List.replicate k []) := by
  have hlists := hc.lists hwf hd hdir hw h
  have hmap := hwf.inMap (.entry hd hdir h)
  refine ⟨hw, fun _ => ?_⟩
  cases k with
  | zero =>
    rw [List.replicate_zero, if_pos rfl]
    intro m hm _
    rwa [hm.unique hlists]
  | succ k =>
    rw [if_neg (by simp)]
    exact ⟨n, hlists, hmap, Call.fits_slashes ..⟩

/-- A path to something that is there fits. -/
theorem fits_of_resolves (env : Env) (inspects : Prop) (hwf : WellFormed img)
    (htidy : Tidy (pieces path)) (hlen : ∀ u ∈ components path, u.length < PATH_SIZE)
    (hres : Resolves img 0 (components path) n) :
    (enter env (0 : Nat) (openImage img)).Fits env inspects (pieces path) := by
  have hc := enter_at env hwf (.openImage hwf) .root
  obtain ⟨k, hk⟩ := htidy.eq_append
  rw [← components_eq] at hk
  rcases List.eq_nil_or_concat (components path) with hnil | ⟨us, w, hcomp⟩
  · rw [hk, hnil]
    exact Call.fits_slashes ..
  · rw [List.concat_eq_append] at hcomp
    have hall : ∀ u ∈ us ++ [w], u ≠ [] ∧ u.length < PATH_SIZE := by
      intro u hu
      rw [← hcomp] at hu
      exact ⟨by simpa using (List.mem_filter.mp hu).2, hlen u hu⟩
    rw [hcomp] at hk hres
    obtain ⟨e, hus, hlast⟩ := Resolves.append_iff.mp hres
    obtain ⟨hdir, hentry⟩ := Resolves.one_iff.mp hlast
    rw [hk, List.append_assoc]
    exact hc.fits_append hwf (fun u hu => hall u (List.mem_append_left _ hu)) hus .root (by simp)
      fun c hc => hc.fits_last env inspects hwf (hus.named .root) hdir (hall w (by simp)).2 hentry k

-- ---------------------------------------------------------------------------
-- The entries
-- ---------------------------------------------------------------------------

theorem listBlock_opened {s t : Memory × Listing} {ino : Inode} {i : Nat} (hwf : WellFormed img)
    (hd : Named img d) (hdir : IsDirectory img d) (hino : Inode.Same ino (inodeAt img d))
    (hi : i < NUM_PTRS_IN_INODE) (hs : Opened img s.2.reader)
    (h : listBlock env ino s i = .ok t) : Opened img t.2.reader := by
  obtain ⟨t', ht', hopen⟩ : ∃ t', listBlock env ino s i = .ok t' ∧ Opened img t'.2.reader :=
    listBlock_ok hwf hd hdir hino hi hs
  cases h.symm.trans ht'
  exact hopen

/-- What `ls` of a directory looks up is in the map. -/
theorem ListsEntry.inMap {ino : Inode} {m : Memory} {j : Nat} (hwf : WellFormed img)
    (hd : Named img d) (hdir : IsDirectory img d) (hino : Inode.Same ino (inodeAt img d))
    (hr : Opened img r) (h : ListsEntry env ino r m j) (hused : 0 ≤ inum m j) :
    InMap (inum m j) := by
  obtain ⟨s, i, l, hblock, hptr, rfl, hentry⟩ := h
  have hi := List.mem_range.mp hblock.mem
  have hj := List.mem_range.mp hentry.mem
  have hopen : Opened img s.2.reader := by
    refine hblock.invariant (P := fun s => Opened img s.2.reader) (hr.calls _) ?_
    intro i hi s t hs ht
    exact listBlock_opened hwf hd hdir hino (List.mem_range.mp hi) hs ht
  rw [hino.ptr i hi] at hptr hused ⊢
  have hholds := read_holds hwf hd hdir hi hptr hopen.data hopen.length s.1
  rw [hholds.inum hj] at hused ⊢
  obtain ⟨w, hw⟩ := hwf.name d hd hdir i hi hptr j hj hused
  obtain ⟨n, hn⟩ := Int.eq_ofNat_of_zero_le hused
  rw [hn]
  exact hwf.inMap (.entry hd hdir ⟨i, j, hi, hj, hptr, hn, hw⟩)

-- ---------------------------------------------------------------------------
-- The program
-- ---------------------------------------------------------------------------

theorem Opened.inspectee (h : Opened img r) (n : Int) :
    Opened img { r with inspecteeINodeNum := n } := ⟨h.data, h.length, h.region⟩

theorem Opened.walk_slashes (env : Env) (h : Opened img c.reader) (k : Nat) :
    Opened img (c.walk env (List.replicate k [])) := by
  cases k with
  | zero => exact h
  | succ k =>
    rw [List.replicate_succ, Call.walk, if_neg (by decide), if_pos rfl]
    exact h.inspectee _

theorem At.walk_last_opened (env : Env) (hc : At img d c) (hwf : WellFormed img) (hd : Named img d)
    (hdir : IsDirectory img d) (hne : w ≠ []) (hw : w.length < PATH_SIZE) (k : Nat) :
    Opened img (c.walk env (w :: List.replicate k [])) := by
  obtain ⟨hopen, -⟩ := hc.find hwf hd hdir hw
  rw [Call.walk, if_neg (Nat.not_le.mpr hw), if_neg hne]
  split
  · split
    · exact hopen
    · exact hopen.inspectee _
  · exact .walk_slashes env (load_opened env (hopen.calls _) _ _) k

/-- Where a path leads somewhere, the image is open when the walk ends. -/
theorem inspectee_opened (hwf : WellFormed img) (hbehind : env.behind = [])
    (htidy : Tidy (pieces path)) (hlen : ∀ w ∈ components path, w.length < 60)
    (hres : Resolves img 0 (components path) n) : Opened img (inspectee env path img) := by
  rcases List.eq_nil_or_concat (components path) with hnil | ⟨us, w, hcomp⟩
  · obtain ⟨k, hk⟩ := htidy.eq_append
    rw [← components_eq, hnil, List.nil_append] at hk
    rw [inspectee_eq hbehind, hk]
    exact .walk_slashes env (enter_at env hwf (.openImage hwf) .root).opened k
  · rw [List.concat_eq_append] at hcomp
    rw [hcomp] at hres
    obtain ⟨e, hus, hlast⟩ := Resolves.append_iff.mp hres
    obtain ⟨hdir, -⟩ := Resolves.one_iff.mp hlast
    obtain ⟨c, k, hc, he, -, -, hne, hw, heq⟩ := inspectee_last hwf hbehind htidy hlen hcomp hus
    rw [heq]
    exact hc.walk_last_opened env hwf he hdir hne hw k

/-- The entries of a directory fit, and there is nothing to list elsewhere. -/
theorem entries_fit (env : Env) (hwf : WellFormed img) (hr : Opened img r) (hn : Named img n)
    (h : r.inspecteeINodeNum = n) {ino : Inode} {r' : Reader}
    (hi : inspect env MFS_DIRECTORY r = some (ino, r')) {m : Memory} {j : Nat}
    (hentry : ListsEntry env ino r' m j) (hused : 0 ≤ inum m j) : InMap (inum m j) := by
  by_cases hdir : IsDirectory img n
  · obtain ⟨hsame, hopen⟩ := getInspecteeINode_same env hwf hr hn h
    rw [inspect_some env hwf hr hn h hdir] at hi
    generalize getInspecteeINode env r = i at hi hsame hopen
    cases hi
    exact hentry.inMap hwf hn hdir hsame hopen hused
  · rw [inspect_other env hwf hr hn h hdir] at hi
    cases hi

/-- On a path that leads somewhere only the blocks of a file can be outside an array. -/
theorem resolved_in_bounds_iff (cmd : List Byte) (buff : Memory) (hwf : WellFormed img)
    (hbehind : env.behind = []) (htidy : Tidy (pieces path))
    (hlen : ∀ w ∈ components path, w.length < 60) (hres : Resolves img 0 (components path) n) :
    (∀ a ∈ accesses env cmd path img buff, a.InBounds) ↔
      (cmd = text "cat" → ∀ inode r,
        inspect env MFS_REGULAR_FILE (inspectee env path img) = some (inode, r) →
          inode.Fits r.img) := by
  refine ⟨fun h => (Fits.of_in_bounds h).file, fun hfile => Fits.in_bounds buff ⟨?_, hfile, ?_⟩⟩
  · rw [hbehind, List.append_nil]
    exact fits_of_resolves env _ hwf htidy (fun u hu => Nat.lt_trans (hlen u hu) (by decide)) hres
  · intro _ ino r hi m j hentry hused
    exact entries_fit env hwf (inspectee_opened hwf hbehind htidy hlen hres) (hres.named .root)
      (inspectee_resolves hwf hbehind htidy hlen hres) hi hentry hused

/-- `ls` of a path that leads somewhere uses no index outside an array. -/
theorem ls_in_bounds (buff : Memory) (hwf : WellFormed img) (hbehind : env.behind = [])
    (htidy : Tidy (pieces path)) (hlen : ∀ w ∈ components path, w.length < 60)
    (hres : Resolves img 0 (components path) n) :
    ∀ a ∈ accesses env (text "ls") path img buff, a.InBounds :=
  (resolved_in_bounds_iff (text "ls") buff hwf hbehind htidy hlen hres).mpr fun h =>
    absurd h (by decide)

end PerrOS.Lfs
