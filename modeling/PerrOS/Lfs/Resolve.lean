import PerrOS.Lfs.Tree

/-!
# Path resolution

`getINode` finds what a path names as long as no empty component stops it, it
never goes on past a component that is missing or no directory, and it does
find the last component: for a missing last component it leaves
`inspecteeINodeNum` at the root.
-/

namespace PerrOS.Lfs

open Fsck (Byte Image)
open Lib

variable {env : Env} {img : Image}

-- ---------------------------------------------------------------------------
-- The search of a directory
-- ---------------------------------------------------------------------------

theorem nameIs_congr (h : ∀ k ≤ w.length, m (a + k) = m' (a + k)) :
    NameIs m a w ↔ NameIs m' a w := by
  unfold NameIs
  rw [h _ (Nat.le_refl _)]
  exact and_congr_left fun _ => forall₂_congr fun k hk => by rw [h k (Nat.le_of_lt hk)]

/-- A buffer that holds a block of a directory. -/
def Holds (m : Memory) (img : Image) (d i : Nat) : Prop := ∀ k < BLOCK_SIZE, m k = block img d i k

theorem read_holds {img' : Image} (hwf : WellFormed img) (hd : Named img d) (hdir : IsDirectory img d)
    (hi : i < NUM_PTRS_IN_INODE) (hptr : 0 < (inodeAt img d).ptr i) (hdata : img'.data = img.data)
    (hlength : img'.length = img.length) (buf : Memory) :
    Holds ((img'.lseek ((inodeAt img d).ptr i)).read BLOCK_SIZE buf).1 img d i := by
  intro k hk
  have hlen := hwf.block d hd hdir i hi hptr
  rw [read_lseek (Int.le_of_lt hptr) (by simpa [hlength] using hlen) hk, hdata]
  rfl

theorem Holds.inum (h : Holds m img d i) (hj : j < DIRECTORY_SIZE) :
    inum m j = inum (block img d i) j := by
  refine int_congr fun k hk => h _ ?_
  simp only [DIRECTORY_SIZE, BLOCK_SIZE, dirEntSize] at *
  omega

theorem Holds.nameIs (h : Holds m img d i) (hj : j < DIRECTORY_SIZE) (hw : w.length < PATH_SIZE) :
    NameIs m (dirEntSize * j) w ↔ NameIs (block img d i) (dirEntSize * j) w := by
  refine nameIs_congr fun k hk => h _ ?_
  simp only [DIRECTORY_SIZE, BLOCK_SIZE, dirEntSize, PATH_SIZE] at *
  omega

theorem Holds.findEntry_some (h : Holds m img d i) (hi : i < NUM_PTRS_IN_INODE)
    (hptr : 0 < (inodeAt img d).ptr i) (hw : w.length < PATH_SIZE) (hf : findEntry m w = some j) :
    ∃ n : Nat, Lfs.inum m j = n ∧ Slot img d i j w n := by
  have hj : j < DIRECTORY_SIZE := List.mem_range.mp (List.mem_of_find?_eq_some hf)
  have hp := List.find?_some hf
  simp only [decide_eq_true_eq] at hp
  obtain ⟨n, hn⟩ := Int.eq_ofNat_of_zero_le hp.1
  exact ⟨n, hn, hi, hj, hptr, (h.inum hj).symm.trans hn, (h.nameIs hj hw).mp hp.2⟩

theorem Holds.findEntry_none (h : Holds m img d i) (hw : w.length < PATH_SIZE)
    (hf : findEntry m w = none) : ¬ Slot img d i j w n := by
  intro hslot
  have hj := hslot.entry_lt
  have hnot := List.find?_eq_none.mp hf j (List.mem_range.mpr hj)
  simp only [decide_eq_true_eq] at hnot
  refine hnot ⟨?_, (h.nameIs hj hw).mpr hslot.name⟩
  rw [h.inum hj, hslot.inum]
  exact Int.natCast_nonneg n

/-- What the search has found in the first `n` blocks. -/
structure Found (img : Image) (d : Nat) (w : List Byte) (n : Nat) (s : Search) : Prop where
  data : s.img.data = img.data
  length : s.img.length = img.length
  hit : ∀ i < n, ∀ j m, Slot img d i j w m → s.newINodeNum = m
  miss : (∀ i < n, ∀ j m, ¬ Slot img d i j w m) → s.newINodeNum = -1234

theorem Found.searchBlock (hwf : WellFormed img) (hd : Named img d) (hdir : IsDirectory img d)
    (hw : w.length < PATH_SIZE) (hino : Inode.Same ino (inodeAt img d))
    (hi : i < NUM_PTRS_IN_INODE) (h : Found img d w i s) :
    Found img d w (i + 1) (searchBlock ino w i s) := by
  unfold Lfs.searchBlock
  split
  case isTrue hpos =>
    rw [hino.ptr i hi] at hpos ⊢
    have hholds := read_holds hwf hd hdir hi hpos h.data h.length s.currDirectory
    have hdata : ((s.img.lseek ((inodeAt img d).ptr i)).read BLOCK_SIZE
        s.currDirectory).2.data = img.data := by simp [h.data]
    have hlength : ((s.img.lseek ((inodeAt img d).ptr i)).read BLOCK_SIZE
        s.currDirectory).2.length = img.length := by simp [h.length]
    generalize (s.img.lseek ((inodeAt img d).ptr i)).read BLOCK_SIZE s.currDirectory = b at *
    refine ⟨hdata, hlength, fun i' hi' j m hslot => ?_, fun hnone => ?_⟩
    · cases hf : findEntry b.1 w with
      | some j' =>
        obtain ⟨n, hn, hslot'⟩ := hholds.findEntry_some hi hpos hw hf
        obtain rfl := Entry.unique hwf hd hdir ⟨i', j, hslot⟩ ⟨i, j', hslot'⟩
        simpa [hf] using hn
      | none =>
        have hne : i' ≠ i := by
          rintro rfl
          exact hholds.findEntry_none hw hf hslot
        simpa [hf] using h.hit i' (by omega) j m hslot
    · cases hf : findEntry b.1 w with
      | some j' =>
        obtain ⟨n, -, hslot⟩ := hholds.findEntry_some hi hpos hw hf
        exact absurd hslot (hnone i (Nat.lt_succ_self i) j' n)
      | none => simpa [hf] using h.miss fun i' hi' => hnone i' (Nat.lt_succ_of_lt hi')
  case isFalse hpos =>
    rw [hino.ptr i hi] at hpos
    refine ⟨h.data, h.length, fun i' hi' j m hslot => ?_, fun hnone =>
      h.miss fun i' hi' => hnone i' (Nat.lt_succ_of_lt hi')⟩
    have hne : i' ≠ i := by
      rintro rfl
      exact hpos hslot.ptr_pos
    exact h.hit i' (by omega) j m hslot

theorem search_found (hwf : WellFormed img) (hd : Named img d) (hdir : IsDirectory img d)
    (hw : w.length < PATH_SIZE) (hino : Inode.Same ino (inodeAt img d))
    (hdata : img'.data = img.data) (hlength : img'.length = img.length) (dir : Memory) :
    Found img d w NUM_PTRS_IN_INODE (search ino w dir img') :=
  loop_invariant (P := fun i s => Found img d w i s)
    ⟨hdata, hlength, fun _ hi => absurd hi (Nat.not_lt_zero _), fun _ => rfl⟩
    fun _ _ hi h => h.searchBlock hwf hd hdir hw hino hi

-- ---------------------------------------------------------------------------
-- One call
-- ---------------------------------------------------------------------------

/-- A call of `getINode` for an inode of the tree. -/
structure At (img : Image) (d : Nat) (c : Call) : Prop where
  inodeNum : c.inodeNum = d
  currINode : Inode.Same c.currINode (inodeAt img d)
  opened : Opened img c.reader

theorem enter_at (env : Env) (hwf : WellFormed img) (h : Opened img r) (hd : Named img d) :
    At img d (enter env d r) :=
  ⟨rfl, load_same env hwf (h.calls _) hd _, load_opened env (h.calls _) _ _⟩

@[simp] theorem enter_inspectee : (enter env n r).reader.inspecteeINodeNum = r.inspecteeINodeNum :=
  rfl

@[simp] theorem find_inspectee (c : Call) (w : List Byte) :
    (c.find w).2.inspecteeINodeNum = c.reader.inspecteeINodeNum := rfl

/-- The search of a call for a component. -/
theorem At.find (h : At img d c) (hwf : WellFormed img) (hd : Named img d)
    (hdir : IsDirectory img d) (hw : w.length < PATH_SIZE) :
    Opened img (c.find w).2 ∧ (∀ m, Entry img d w m → (c.find w).1 = m) ∧
      ((∀ m, ¬ Entry img d w m) → (c.find w).1 = -1234) := by
  have hs := search_found hwf hd hdir hw h.currINode h.opened.data h.opened.length c.currDirectory
  refine ⟨⟨hs.data, hs.length, h.opened.region⟩, ?_, fun hnone => ?_⟩
  · rintro m ⟨i, j, hslot⟩
    exact hs.hit i hslot.block_lt j m hslot
  · exact hs.miss fun i _ j m hslot => hnone m ⟨i, j, hslot⟩

-- ---------------------------------------------------------------------------
-- The recursion
-- ---------------------------------------------------------------------------

/-- The recursion of `getINode`, over the components between the slashes. -/
def Call.walk (env : Env) (c : Call) : List (List Byte) → Reader
  | [] => c.reader
  | w :: ws =>
    if PATH_SIZE ≤ w.length then env.smash c.reader
    else if w = [] then { c.reader with inspecteeINodeNum := c.inodeNum }
    else if ws = [] then
      if (c.find w).1 < 0 then (c.find w).2
      else { (c.find w).2 with inspecteeINodeNum := (c.find w).1 }
    else (enter env (c.find w).1 (c.find w).2).walk env ws

theorem splitOn_ne_nil (name : List Byte) : name.splitOn slash ≠ [] := by
  rw [List.splitOn_eq_splitOnP]
  exact List.splitOnP_ne_nil _ _

theorem modifyHead_nil_append (ws : List (List Byte)) : ws.modifyHead ([] ++ ·) = ws := by
  rw [show (fun w : List Byte => [] ++ w) = id from rfl, List.modifyHead_id]
  rfl

/-- The next byte of a component goes behind what is copied of it. -/
theorem modifyHead_append_cons (newDirPath : List Byte) (x : Byte) (ws : List (List Byte)) :
    (ws.modifyHead (x :: ·)).modifyHead (newDirPath ++ ·) =
      ws.modifyHead (newDirPath ++ [x] ++ ·) := by
  rw [List.modifyHead_modifyHead]
  congr 1
  funext w
  simp

theorem scan_eq (c : Call) (newDirPath name : List Byte) :
    c.scan env newDirPath name = c.walk env ((name.splitOn slash).modifyHead (newDirPath ++ ·)) := by
  induction name generalizing c newDirPath with
  | nil => simp [Call.scan, Call.walk, List.splitOn_nil]
  | cons x name ih =>
    rw [List.splitOn_cons_eq_if_modifyHead]
    by_cases hx : x = slash
    · subst hx
      simp only [Call.scan, Call.walk, beq_self_eq_true, if_true, List.modifyHead_cons,
        List.append_nil, if_neg (splitOn_ne_nil name), ih, modifyHead_nil_append]
    · simp only [Call.scan, if_neg hx, ih]
      rw [if_neg (by simpa using hx), modifyHead_append_cons]

/-- No component stands behind an empty one. -/
def Tidy (ws : List (List Byte)) : Prop := ws.Pairwise fun v w => v = [] → w = []

instance (ws : List (List Byte)) : Decidable (Tidy ws) :=
  inferInstanceAs (Decidable (List.Pairwise _ ws))

/-- Only slashes follow the last component of a tidy path. -/
theorem Tidy.eq_append (h : Tidy ws) :
    ∃ k, ws = ws.filter (· ≠ []) ++ List.replicate k [] := by
  induction ws with
  | nil => exact ⟨0, rfl⟩
  | cons w ws ih =>
    obtain ⟨hw, hws⟩ := List.pairwise_cons.mp h
    rcases eq_or_ne w [] with rfl | hne
    · have hall : ∀ v ∈ ws, v = [] := fun v hv => hw v hv rfl
      have hfilter : ws.filter (· ≠ []) = [] := by simpa using hall
      refine ⟨ws.length + 1, ?_⟩
      simp only [ne_eq, not_true_eq_false, decide_false, Bool.false_eq_true, not_false_eq_true,
        List.filter_cons_of_neg, List.replicate_succ]
      rw [hfilter, List.nil_append, ← List.eq_replicate_iff.mpr ⟨rfl, hall⟩]
    · obtain ⟨k, hk⟩ := ih hws
      exact ⟨k, by simpa [hne] using hk⟩

/-- The walk through components that exist ends in a call for the last inode. -/
theorem walk_prefix (env : Env) (hwf : WellFormed img) (hus : ∀ u ∈ us, u ≠ [] ∧ u.length < PATH_SIZE)
    (hres : Resolves img d us e) (hd : Named img d) (hc : At img d c) (ws : List (List Byte))
    (hne : ws ≠ []) :
    ∃ c', At img e c' ∧ c'.reader.inspecteeINodeNum = c.reader.inspecteeINodeNum ∧
      c.walk env (us ++ ws) = c'.walk env ws ∧ Named img e := by
  induction hres generalizing c with
  | here => exact ⟨c, hc, rfl, rfl, hd⟩
  | @step d u m us e hdir hentry hres ih =>
    obtain ⟨hune, hulen⟩ := hus u (by simp)
    obtain ⟨hopen, hfound, -⟩ := hc.find hwf hd hdir hulen
    have hm : Named img m := .entry hd hdir hentry
    obtain ⟨c', hc', hsame, hwalk, he⟩ := ih (fun u hu => hus u (by simp [hu])) hm
      (enter_at env hwf hopen hm)
    rw [enter_inspectee, find_inspectee] at hsame
    refine ⟨c', hc', hsame, ?_, he⟩
    rw [List.cons_append, Call.walk, if_neg (Nat.not_le.mpr hulen), if_neg hune,
      if_neg (by simp [hne]), hfound m hentry, hwalk]

/-- A component that exists and is the last. -/
theorem walk_last (hwf : WellFormed img) (hd : Named img d) (hc : At img d c)
    (hdir : IsDirectory img d) (hw : w ≠ [] ∧ w.length < PATH_SIZE) (hentry : Entry img d w n)
    (k : Nat) : (c.walk env (w :: List.replicate k [])).inspecteeINodeNum = n := by
  obtain ⟨-, hfound, -⟩ := hc.find hwf hd hdir hw.2
  rw [Call.walk, if_neg (Nat.not_le.mpr hw.2), if_neg hw.1, hfound n hentry,
    if_neg (Int.not_lt.mpr (Int.natCast_nonneg n))]
  cases k with
  | zero => simp
  | succ k =>
    simp only [List.replicate_succ, reduceCtorEq, if_false, Call.walk, List.length_nil]
    rw [if_neg (by decide), if_pos trivial]
    rfl

/-- A last component that is missing: the number is left as it was. -/
theorem walk_missing (env : Env) (hwf : WellFormed img) (hd : Named img d) (hc : At img d c)
    (hdir : IsDirectory img d) (hw : w ≠ [] ∧ w.length < PATH_SIZE)
    (hnone : ∀ m, ¬ Entry img d w m) :
    (c.walk env [w]).inspecteeINodeNum = c.reader.inspecteeINodeNum ∧
      Opened img (c.walk env [w]) := by
  obtain ⟨hopen, -, hmiss⟩ := hc.find hwf hd hdir hw.2
  rw [Call.walk, if_neg (Nat.not_le.mpr hw.2), if_neg hw.1, if_pos rfl, hmiss hnone,
    if_pos (by decide)]
  exact ⟨rfl, hopen⟩

/-- Where a slash follows, the number is the mark of the failed search. -/
theorem walk_missing_slash (hwf : WellFormed img) (hd : Named img d) (hc : At img d c)
    (hdir : IsDirectory img d) (hw : w ≠ [] ∧ w.length < PATH_SIZE)
    (hnone : ∀ m, ¬ Entry img d w m) (k : Nat) :
    (c.walk env (w :: List.replicate (k + 1) [])).inspecteeINodeNum = -1234 := by
  obtain ⟨-, -, hmiss⟩ := hc.find hwf hd hdir hw.2
  rw [Call.walk, if_neg (Nat.not_le.mpr hw.2), if_neg hw.1, hmiss hnone]
  simp only [List.replicate_succ, reduceCtorEq, if_false, Call.walk, List.length_nil]
  rw [if_neg (by decide), if_pos trivial]
  rfl

-- ---------------------------------------------------------------------------
-- The program
-- ---------------------------------------------------------------------------

/-- The pieces between the slashes of a path, once `main` has skipped a
leading one. -/
def pieces (path : List Byte) : List (List Byte) :=
  (if path.head? = some slash then path.tail else path).splitOn slash

theorem components_eq (path : List Byte) : components path = (pieces path).filter (· ≠ []) := by
  unfold components pieces
  split
  case isTrue h =>
    cases path with
    | nil => simp at h
    | cons x path =>
      obtain rfl : x = slash := by simpa using h
      simp [List.splitOn_cons_eq_if_modifyHead]
  case isFalse => rfl

theorem inspectee_eq (hbehind : env.behind = []) (path : List Byte) (img : Image) :
    inspectee env path img = (enter env 0 (openImage img)).walk env (pieces path) := by
  simp only [inspectee, getINode, hbehind, List.append_nil, scan_eq, pieces, ROOT_DIR_INODE_NUM,
    modifyHead_nil_append]

/-- The steps of the walk up to the last component of a path, which a number of
slashes follows. -/
theorem inspectee_last (hwf : WellFormed img) (hbehind : env.behind = [])
    (htidy : Tidy (pieces path)) (hlen : ∀ w ∈ components path, w.length < 60)
    (hcomp : components path = us ++ [w]) (hres : Resolves img 0 us e) :
    ∃ c k, At img e c ∧ Named img e ∧ c.reader.inspecteeINodeNum = 0 ∧
      (k = 0 ↔ (pieces path).getLast? ≠ some []) ∧ w ≠ [] ∧ w.length < PATH_SIZE ∧
      inspectee env path img = c.walk env (w :: List.replicate k []) := by
  obtain ⟨k, hk⟩ := htidy.eq_append
  rw [← components_eq, hcomp, List.append_assoc] at hk
  have hall : ∀ u ∈ us ++ [w], u ≠ [] ∧ u.length < PATH_SIZE := by
    intro u hu
    rw [← hcomp] at hu
    refine ⟨?_, Nat.lt_trans (hlen u hu) (by decide)⟩
    simpa using (List.mem_filter.mp hu).2
  obtain ⟨c, hc, hsame, hwalk, he⟩ := walk_prefix env hwf (fun u hu => hall u (by simp [hu])) hres
    .root (enter_at env hwf (.openImage hwf) .root) ([w] ++ List.replicate k []) (by simp)
  refine ⟨c, k, hc, he, hsame, ?_, (hall w (by simp)).1, (hall w (by simp)).2, ?_⟩
  · rw [hk]
    cases k with
    | zero => simp [(hall w (by simp)).1]
    | succ k =>
      rw [List.replicate_succ', ← List.append_assoc, ← List.append_assoc, List.getLast?_concat]
      simp
  · rw [inspectee_eq hbehind, hk]
    exact hwalk

/-- A path that resolves. -/
theorem inspectee_resolves (hwf : WellFormed img) (hbehind : env.behind = [])
    (htidy : Tidy (pieces path)) (hlen : ∀ w ∈ components path, w.length < 60)
    (hres : Resolves img 0 (components path) n) :
    (inspectee env path img).inspecteeINodeNum = n := by
  rcases List.eq_nil_or_concat (components path) with hnil | ⟨us, w, hcomp⟩
  · -- nothing but slashes: the call for the root stops at once
    rw [hnil] at hres
    cases hres
    obtain ⟨k, hk⟩ := htidy.eq_append
    rw [← components_eq, hnil, List.nil_append] at hk
    have hne : pieces path ≠ [] := splitOn_ne_nil _
    rw [inspectee_eq hbehind, hk]
    cases k with
    | zero => exact absurd hk hne
    | succ k => simp [List.replicate_succ, Call.walk, PATH_SIZE, enter]
  · rw [List.concat_eq_append] at hcomp
    rw [hcomp] at hres
    obtain ⟨e, hus, hw⟩ := Resolves.append_iff.mp hres
    obtain ⟨hdir, hentry⟩ := Resolves.one_iff.mp hw
    obtain ⟨c, k, hc, he, -, -, hne, hwlen, heq⟩ :=
      inspectee_last hwf hbehind htidy hlen hcomp hus
    rw [heq]
    exact walk_last hwf he hc hdir ⟨hne, hwlen⟩ hentry k

-- ---------------------------------------------------------------------------
-- The commands
-- ---------------------------------------------------------------------------

theorem inspect_negative (h : r.inspecteeINodeNum < 0) (type : Int) : inspect env type r = none :=
  if_pos h

theorem getInspecteeINode_same (env : Env) (hwf : WellFormed img) (hr : Opened img r) (hn : Named img n)
    (h : r.inspecteeINodeNum = n) :
    Inode.Same (getInspecteeINode env r).1 (inodeAt img n) ∧
      Opened img (getInspecteeINode env r).2 := by
  have hsame := load_same env hwf (hr.calls (r.calls + 1)) hn
    ((env.frame r.calls).inodeMap, (env.frame r.calls).inode)
  rw [← h] at hsame
  exact ⟨hsame, load_opened env (hr.calls _) _ _⟩

theorem inspect_other (env : Env) (hwf : WellFormed img) (hr : Opened img r) (hn : Named img n)
    (h : r.inspecteeINodeNum = n) (htype : (inodeAt img n).type ≠ type) :
    inspect env type r = none := by
  have hsame := (getInspecteeINode_same env hwf hr hn h).1
  rw [inspect, if_neg (by omega)]
  refine if_pos ?_
  rw [hsame.type]
  exact htype

theorem inspect_some (env : Env) (hwf : WellFormed img) (hr : Opened img r) (hn : Named img n)
    (h : r.inspecteeINodeNum = n) (htype : (inodeAt img n).type = type) :
    inspect env type r = some (getInspecteeINode env r) := by
  have hsame := (getInspecteeINode_same env hwf hr hn h).1
  rw [inspect, if_neg (by omega)]
  dsimp only
  rw [if_neg (not_not.mpr (hsame.type.trans htype)), if_neg]
  rw [hsame.size]
  exact Int.not_lt.mpr (hwf.size n hn)

/-- A fold whose steps all succeed. -/
theorem foldlM_ok (f : σ → α → Except ε σ) (l : List α) {P : σ → Prop} (hs : P s)
    (h : ∀ a ∈ l, ∀ s, P s → ∃ t, f s a = .ok t ∧ P t) : ∃ t, l.foldlM f s = .ok t ∧ P t := by
  induction l generalizing s with
  | nil => exact ⟨s, rfl, hs⟩
  | cons a l ih =>
    obtain ⟨t, ht, hP⟩ := h a (by simp) s hs
    obtain ⟨u, hu, hPu⟩ := ih hP fun b hb => h b (by simp [hb])
    exact ⟨u, by rw [List.foldlM_cons, ht]; exact hu, hPu⟩

theorem listEntry_ok (hwf : WellFormed img) (hd : Named img d) (hdir : IsDirectory img d)
    (hi : i < NUM_PTRS_IN_INODE) (hptr : 0 < (inodeAt img d).ptr i) (hm : Holds m img d i)
    (hj : j < DIRECTORY_SIZE) (hs : Opened img s.reader) :
    ∃ t, listEntry env m s j = .ok t ∧ Opened img t.reader := by
  unfold listEntry
  split
  case isTrue hpos =>
    rw [hm.inum hj] at hpos ⊢
    obtain ⟨w, hw⟩ := hwf.name d hd hdir i hi hptr j hj hpos
    obtain ⟨n, hn⟩ := Int.eq_ofNat_of_zero_le hpos
    have hname : Named img n := .entry hd hdir ⟨i, j, hi, hj, hptr, hn, hw⟩
    rw [hn]
    have hsame := load_same env hwf hs hname s.buf
    have hopen := load_opened env hs n s.buf
    dsimp only
    rw [hsame.type]
    split
    · exact ⟨_, rfl, hopen⟩
    · rename_i hnot
      rw [if_pos ((hwf.type n hname).resolve_left hnot)]
      exact ⟨_, rfl, hopen⟩
  case isFalse => exact ⟨s, rfl, hs⟩

theorem listBlock_ok (hwf : WellFormed img) (hd : Named img d) (hdir : IsDirectory img d)
    (hino : Inode.Same ino (inodeAt img d)) (hi : i < NUM_PTRS_IN_INODE)
    (hs : Opened img s.2.reader) :
    ∃ t, listBlock env ino s i = .ok t ∧ Opened img t.2.reader := by
  unfold listBlock
  split
  case isTrue hpos =>
    rw [hino.ptr i hi] at hpos ⊢
    have hholds := read_holds hwf hd hdir hi hpos hs.data hs.length s.1
    dsimp only
    generalize hb : (s.2.reader.img.lseek ((inodeAt img d).ptr i)).read BLOCK_SIZE s.1 = b at hholds
    have hopen : Opened img { s.2.reader with img := b.2 } :=
      ⟨by simp [← hb, hs.data], by simp [← hb, hs.length], hs.region⟩
    obtain ⟨t, ht, hopen⟩ := foldlM_ok (listEntry env b.1) (List.range DIRECTORY_SIZE)
      (P := fun s => Opened img s.reader)
      (s := { s.2 with reader := { s.2.reader with img := b.2 } }) hopen fun j hj s hs =>
        listEntry_ok hwf hd hdir hi hpos hholds (List.mem_range.mp hj) hs
    exact ⟨(b.1, t), by rw [ht]; rfl, hopen⟩
  case isFalse => exact ⟨s, rfl, hs⟩

/-- `ls` of a directory never reports an error. -/
theorem runLs_success (env : Env) (hwf : WellFormed img) (hr : Opened img r) (hd : Named img d)
    (h : r.inspecteeINodeNum = d) (hdir : IsDirectory img d) : (runLs env r).success = true := by
  obtain ⟨hsame, hopen⟩ := getInspecteeINode_same env hwf hr hd h
  simp only [runLs, inspect_some env hwf hr hd h hdir]
  generalize getInspecteeINode env r = i at hsame hopen
  obtain ⟨t, ht, -⟩ := foldlM_ok (listBlock env i.1) (List.range NUM_PTRS_IN_INODE)
    (P := fun s : Memory × Listing => Opened img s.2.reader)
    (s := ((env.frame i.2.calls).directory, ⟨[], ((env.frame i.2.calls).inodeMap,
      (env.frame i.2.calls).inode), { i.2 with calls := i.2.calls + 1 }⟩)) (hopen.calls _)
    fun j hj s hs => listBlock_ok hwf hd hdir hsame (List.mem_range.mp hj) hs
  rw [ht]

-- ---------------------------------------------------------------------------
-- The claim about paths
-- ---------------------------------------------------------------------------

/-- The reader resolves the path: it inspects the inode that the components
lead to, and reports an error where they lead nowhere. -/
def Correct (env : Env) (img : Image) (cmd path : List Byte) (buff : Memory) : Prop :=
  (∀ n, Resolves img 0 (components path) n → (inspectee env path img).inspecteeINodeNum = n) ∧
    ((∀ n, ¬ Resolves img 0 (components path) n) → main env cmd path img buff = error [])

/-- All components but the last exist, and the last one is looked up in a
directory. -/
def LastLookedUp (img : Image) (path : List Byte) : Prop :=
  ∃ us w d, components path = us ++ [w] ∧ Resolves img 0 us d ∧ IsDirectory img d

/-- The path ends in a slash. -/
def EndsInSlash (path : List Byte) : Prop := (pieces path).getLast? = some []

variable {cmd path : List Byte}

/-- A missing last component: without a slash behind it the number of the root
stands, with one the mark of the failed search. -/
theorem inspectee_missing (hwf : WellFormed img) (hbehind : env.behind = [])
    (htidy : Tidy (pieces path)) (hlen : ∀ w ∈ components path, w.length < 60)
    (hlast : LastLookedUp img path) (hnone : ∀ n, ¬ Resolves img 0 (components path) n) :
    (EndsInSlash path → (inspectee env path img).inspecteeINodeNum = -1234) ∧
      (¬ EndsInSlash path → (inspectee env path img).inspecteeINodeNum = 0 ∧
        Opened img (inspectee env path img)) := by
  obtain ⟨us, w, d, hcomp, hus, hdir⟩ := hlast
  obtain ⟨c, k, hc, hd, hzero, hk, hne, hwlen, heq⟩ :=
    inspectee_last hwf hbehind htidy hlen hcomp hus
  have hmiss (m : Nat) : ¬ Entry img d w m := fun h => by
    refine hnone m ?_
    rw [hcomp]
    exact Resolves.append_iff.mpr ⟨d, hus, Resolves.one_iff.mpr ⟨hdir, h⟩⟩
  rw [heq]
  refine ⟨fun hslash => ?_, fun hslash => ?_⟩
  · cases k with
    | zero => exact absurd hslash (hk.mp rfl)
    | succ k => exact walk_missing_slash hwf hd hc hdir ⟨hne, hwlen⟩ hmiss k
  · obtain rfl := hk.mpr hslash
    obtain ⟨hsame, hopen⟩ := walk_missing env hwf hd hc hdir ⟨hne, hwlen⟩ hmiss
    exact ⟨hsame.trans hzero, hopen⟩

theorem Correct.of_resolves (hwf : WellFormed img) (hbehind : env.behind = [])
    (htidy : Tidy (pieces path)) (hlen : ∀ w ∈ components path, w.length < 60)
    (hres : Resolves img 0 (components path) n) : Correct env img cmd path buff :=
  ⟨fun _ h => inspectee_resolves hwf hbehind htidy hlen h, fun hnone => absurd hres (hnone n)⟩

/-- `cat` reports a missing last component: the root is no regular file. -/
theorem Correct.cat_missing (hwf : WellFormed img) (hbehind : env.behind = [])
    (htidy : Tidy (pieces path)) (hlen : ∀ w ∈ components path, w.length < 60)
    (hlast : LastLookedUp img path) (hnone : ∀ n, ¬ Resolves img 0 (components path) n) :
    Correct env img (text "cat") path buff := by
  refine ⟨fun n h => absurd h (hnone n), fun _ => ?_⟩
  obtain ⟨hslash, hno⟩ := inspectee_missing hwf hbehind htidy hlen hlast hnone
  rw [main, if_pos rfl, runCat]
  by_cases h : EndsInSlash path
  · rw [inspect_negative (by rw [hslash h]; decide)]
  · obtain ⟨hzero, hopen⟩ := hno h
    rw [inspect_other env hwf hopen .root hzero]
    rw [hwf.root]
    decide

/-- `ls` reports a missing last component only if a slash follows; otherwise
it lists the root. -/
theorem ls_missing_iff (hwf : WellFormed img) (hbehind : env.behind = [])
    (htidy : Tidy (pieces path)) (hlen : ∀ w ∈ components path, w.length < 60)
    (hlast : LastLookedUp img path) (hnone : ∀ n, ¬ Resolves img 0 (components path) n) :
    Correct env img (text "ls") path buff ↔ EndsInSlash path := by
  obtain ⟨hslash, hno⟩ := inspectee_missing hwf hbehind htidy hlen hlast hnone
  have hls : main env (text "ls") path img buff = runLs env (inspectee env path img) := by
    rw [main, if_neg (by decide), if_pos rfl]
  constructor
  · intro h
    by_contra hends
    obtain ⟨hzero, hopen⟩ := hno hends
    have hsuccess := runLs_success env hwf hopen .root hzero hwf.root
    rw [← hls, h.2 hnone] at hsuccess
    simp [error] at hsuccess
  · intro hends
    refine ⟨fun n h => absurd h (hnone n), fun _ => ?_⟩
    rw [hls, runLs, inspect_negative (by rw [hslash hends]; decide)]

/-- For a path without empty components before others, whose components up to
the last are found: the reader resolves it, except that `ls` of a missing last
component lists the root unless a slash follows. -/
theorem path_resolution (hwf : WellFormed img) (hlen : ∀ w ∈ components path, w.length < 60)
    (hcmd : cmd = text "cat" ∨ cmd = text "ls") (hbehind : env.behind = [])
    (htidy : Tidy (pieces path))
    (hlast : (∃ n, Resolves img 0 (components path) n) ∨ LastLookedUp img path) :
    Correct env img cmd path buff ↔
      (∃ n, Resolves img 0 (components path) n) ∨ cmd = text "cat" ∨ EndsInSlash path := by
  by_cases hres : ∃ n, Resolves img 0 (components path) n
  · obtain ⟨n, hn⟩ := hres
    exact ⟨fun _ => .inl ⟨n, hn⟩, fun _ => .of_resolves hwf hbehind htidy hlen hn⟩
  · have hlast := hlast.resolve_left hres
    have hnone := not_exists.mp hres
    rw [or_iff_right hres]
    rcases hcmd with rfl | rfl
    · exact ⟨fun _ => .inl rfl, fun _ => .cat_missing hwf hbehind htidy hlen hlast hnone⟩
    · rw [ls_missing_iff hwf hbehind htidy hlen hlast hnone]
      exact (or_iff_right (by decide)).symm

-- ---------------------------------------------------------------------------
-- An image with an empty root
-- ---------------------------------------------------------------------------

/-- The checkpoint region, the inode map at 1028, the root at 1092 and its one
block at 1156, with the entries `.` and `..`. -/
def emptyRoot : Image where
  data :=
    let free : Memory := fun a => if 1156 ≤ a ∧ 60 ≤ (a - 1156) % 64 then 0xFF else 0
    let m := ((free.write 4 4 1028).write 1028 4 1092).write 1092 4 4096
    let m := (m.write 1100 4 1156).write 1156 1 46
    (((m.write 1216 4 0).write 1220 1 46).write 1221 1 46).write 1280 4 0
  length := 5252
  pos := 0

theorem emptyRoot_ptr : ∀ i < NUM_PTRS_IN_INODE, 0 < (inodeAt emptyRoot 0).ptr i → i = 0 := by
  decide +kernel

theorem emptyRoot_inum : ∀ j < DIRECTORY_SIZE, 0 ≤ inum (block emptyRoot 0 0) j →
    inum (block emptyRoot 0 0) j = 0 ∧ (j = 0 ∨ j = 1) := by
  decide +kernel

theorem Slot.emptyRoot (h : Slot emptyRoot 0 i j w n) : i = 0 ∧ (j = 0 ∨ j = 1) ∧ n = 0 := by
  obtain rfl := emptyRoot_ptr i h.block_lt h.ptr_pos
  have hj := h.inum
  obtain ⟨hzero, hj'⟩ := emptyRoot_inum j h.entry_lt (by omega)
  exact ⟨rfl, hj', by omega⟩

theorem Named.emptyRoot (h : Named emptyRoot n) : n = 0 := by
  induction h with
  | root => rfl
  | entry _ _ hentry ih =>
    subst ih
    obtain ⟨i, j, hslot⟩ := hentry
    exact hslot.emptyRoot.2.2

/-- The two names differ in their second byte. -/
theorem emptyRoot_names (h : NameIs (block emptyRoot 0 0) (dirEntSize * 0) w)
    (h' : NameIs (block emptyRoot 0 0) (dirEntSize * 1) w) : False := by
  have hfirst : block emptyRoot 0 0 (dirEntSize * 0 + 0) = 46 := by decide +kernel
  have hend : block emptyRoot 0 0 (dirEntSize * 0 + 1) = 0 := by decide +kernel
  have hsecond : block emptyRoot 0 0 (dirEntSize * 1 + 1) = 46 := by decide +kernel
  match w with
  | [] =>
    have hzero := h.2
    rw [List.length_nil, hfirst] at hzero
    exact absurd hzero (by decide)
  | [_] =>
    have hzero := h'.2
    rw [List.length_singleton, hsecond] at hzero
    exact absurd hzero (by decide)
  | _ :: _ :: _ =>
    have hdiffer := (h.1 1 (by simp)).trans (h'.1 1 (by simp)).symm
    rw [hend, hsecond] at hdiffer
    exact absurd hdiffer (by decide)

theorem emptyRoot_wellFormed : WellFormed emptyRoot where
  pos := rfl
  checkpoint := by decide
  root := by unfold IsDirectory; decide +kernel
  number n hn := by
    rw [hn.emptyRoot]
    decide
  map n hn := by
    rw [hn.emptyRoot]
    decide +kernel
  inode n hn := by
    rw [hn.emptyRoot]
    decide +kernel
  type n hn := by
    rw [hn.emptyRoot]
    decide +kernel
  size n hn := by
    rw [hn.emptyRoot]
    decide +kernel
  block d hd _ i hi hptr := by
    obtain rfl := hd.emptyRoot
    obtain rfl := emptyRoot_ptr i hi hptr
    decide +kernel
  name d hd _ i hi hptr j hj hinum := by
    obtain rfl := hd.emptyRoot
    obtain rfl := emptyRoot_ptr i hi hptr
    obtain ⟨-, rfl | rfl⟩ := emptyRoot_inum j hj hinum
    · exact ⟨[46], by decide +kernel⟩
    · exact ⟨[46, 46], by decide +kernel⟩
  unique d hd _ i j w n i' j' n' h h' := by
    obtain rfl := hd.emptyRoot
    obtain ⟨rfl, hj, -⟩ := h.emptyRoot
    obtain ⟨rfl, hj', -⟩ := h'.emptyRoot
    refine ⟨rfl, ?_⟩
    have hname := h.name
    have hname' := h'.name
    rcases hj with rfl | rfl <;> rcases hj' with rfl | rfl
    · rfl
    · exact (emptyRoot_names hname hname').elim
    · exact (emptyRoot_names hname' hname).elim
    · rfl

theorem emptyRoot_missing (n : Nat) : ¬ Resolves emptyRoot 0 (components [120]) n := by
  have hcomp : components [120] = [[120]] := by decide
  rw [hcomp, Resolves.one_iff]
  rintro ⟨-, i, j, h⟩
  obtain ⟨rfl, hj, -⟩ := h.emptyRoot
  have hname := h.name.1 0 (by decide)
  rcases hj with rfl | rfl <;> revert hname <;> decide +kernel

/-- Nothing undefined is met: every buffer is zero. -/
def quiet : Env where
  iMapPtr _ := 0
  inodePtr _ := 0
  frame _ := ⟨fun _ => 0, fun _ => 0, fun _ => 0⟩
  smash r := r
  behind := []

theorem path_resolution_root :
    Correct quiet emptyRoot (text "ls") [47] (fun _ => 0) ↔
      (∃ n, Resolves emptyRoot 0 (components [47]) n) ∨ text "ls" = text "cat" ∨
        EndsInSlash [47] := by
  have hcomp : components [47] = [] := by decide
  refine path_resolution emptyRoot_wellFormed ?_ (.inr rfl) rfl (by decide) ?_
  · rw [hcomp]
    exact fun _ h => absurd h List.not_mem_nil
  rw [hcomp]
  exact .inl ⟨0, .here⟩

/-- `ls` of a name that the root does not have lists the root. -/
theorem missing_lists_root : ¬ ∀ (env : Env) (img : Image) (cmd path : List Byte) (buff : Memory),
    WellFormed img → (∀ w ∈ components path, w.length < 60) →
    cmd = text "cat" ∨ cmd = text "ls" → Correct env img cmd path buff := by
  intro h
  have hcomp : components [120] = [[120]] := by decide
  have hlen : ∀ w ∈ components [120], w.length < 60 := by
    rw [hcomp]
    decide
  have hlast : LastLookedUp emptyRoot [120] :=
    ⟨[], [120], 0, hcomp, .here, emptyRoot_wellFormed.root⟩
  have hcorrect := h quiet emptyRoot (text "ls") [120] (fun _ => 0) emptyRoot_wellFormed hlen
    (.inr rfl)
  have hends := (ls_missing_iff emptyRoot_wellFormed rfl (by decide) hlen hlast
    emptyRoot_missing).mp hcorrect
  revert hends
  unfold EndsInSlash
  decide

end PerrOS.Lfs
