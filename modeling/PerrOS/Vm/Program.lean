import PerrOS.Vm.Exec
import PerrOS.Vm.Space

/-!
# Which programs `exec` can be trusted with

`exec` checks of a program header that `memsz` is not below `filesz` and that
`va + memsz`, as a word, is not beyond `USERTOP`. What it needs is more: here
are exact conditions on the file and on `argv`.
-/

namespace PerrOS.Vm

open Lib (Ensures wp)

variable {img : Image} {ip : File} {ph : Proghdr} {pgdir : Pgdir} {S : Nat → Prop}
variable {off n va sz addr offset dst i : Word} {enough : Prop} {s : Kmem} {k : Nat}

-- ---------------------------------------------------------------------------
-- Reading
-- ---------------------------------------------------------------------------

namespace File

theorem toNat_size (ip : File) : ip.size.toNat = ip.data.length := by
  have : ip.data.length ≤ 71680 := ip.size_le
  rw [size, BitVec.toNat_ofNat]
  omega

theorem length_bytes (ip : File) (hn : n.toNat ≤ 4096) {bs : List Byte}
    (h : ip.bytes off n = some bs) :
    off.toNat ≤ ip.data.length ∧ bs.length = min n.toNat (ip.data.length - off.toNat) := by
  have hmax : ip.data.length ≤ 71680 := ip.size_le
  have hsize := ip.toNat_size
  unfold bytes at h
  split at h
  · cases h
  next hc =>
  obtain ⟨hoff, -⟩ := not_or.mp hc
  have hoff : off.toNat ≤ ip.data.length := hsize ▸ Nat.not_lt.mp hoff
  have hsum : (off + n).toNat = off.toNat + n.toNat := by
    rw [BitVec.toNat_add, Nat.mod_eq_of_lt (by omega)]
  refine ⟨hoff, ?_⟩
  rw [← Option.some.inj h, List.length_take, List.length_drop]
  split
  · next hlt =>
    have hlt : ip.size.toNat < (off + n).toNat := hlt
    have hsub : (ip.size - off).toNat = ip.data.length - off.toNat := by
      rw [BitVec.toNat_sub_of_le (by rw [BitVec.le_def]; omega), hsize]
    omega
  · omega

/-- A read that starts inside the file does not fail. -/
theorem bytes_isSome (ip : File) (hn : n.toNat ≤ 4096) (hoff : off.toNat ≤ ip.data.length) :
    ∃ bs, ip.bytes off n = some bs := by
  have hmax : ip.data.length ≤ 71680 := ip.size_le
  have hsize := ip.toNat_size
  refine ⟨_, if_neg (not_or.mpr ⟨?_, ?_⟩)⟩
  · rw [BitVec.lt_def]
    omega
  · rw [BitVec.lt_def, BitVec.toNat_add, Nat.mod_eq_of_lt (by omega)]
    omega

end File

/-- `readi` of at most a page: whether it reads all of it, and whether it
stores anything. -/
theorem readi_wp (hpos : 0 < n.toNat) (hn : n.toNat ≤ 4096) (hs : Pool img enough k s) :
    wp (readi ip dst off n) (fun r s' => Pool img enough k s' ∧
      (r = n ↔ off.toNat + n.toNat ≤ ip.data.length) ∧
      (0 < r.toInt ↔ off.toNat < ip.data.length)) s := by
  unfold readi
  split
  · next hb =>
    have hoff : ip.data.length < off.toNat := by
      by_contra hle
      obtain ⟨bs, hbs⟩ := ip.bytes_isSome hn (Nat.not_lt.mp hle)
      rw [hb] at hbs
      cases hbs
    refine wp.pure.mpr ⟨hs, ⟨fun h => ?_, by omega⟩, ⟨fun h => absurd h (by decide), by omega⟩⟩
    subst h
    exact absurd hn (by decide)
  · next bs hb =>
    obtain ⟨hoff, hlen⟩ := ip.length_bytes hn hb
    rw [wp.bind, store, wp.modify, wp.pure]
    have hnat : (BitVec.ofNat 32 bs.length).toNat = bs.length := by
      rw [BitVec.toNat_ofNat, Nat.mod_eq_of_lt (by omega)]
    refine ⟨hs.setMem _, ?_, ?_⟩
    · rw [← BitVec.toNat_inj, hnat]
      omega
    · rw [BitVec.toInt_eq_toNat_of_lt (by rw [hnat]; omega), hnat]
      omega

-- ---------------------------------------------------------------------------
-- Segments
-- ---------------------------------------------------------------------------

/-- The bytes went into a page mapped for user code, at or above `PGSIZE`. -/
structure Load.Inside (l : Load) : Prop where
  above : PGSIZE ≤ l.va
  present : present l.pte
  user : l.pte &&& PTE_U ≠ 0

/-- The pages of an image of `sz` bytes. -/
def Program (sz : Word) : Nat → Prop := Range 4096 (pageUp sz.toNat)

/-- `loaduvm` comes to the page at offset `i` of the segment: the file has all
the bytes of the pages before it. -/
def Reached (ip : File) (ph : Proghdr) (i : Word) : Prop :=
  i.toNat < ph.filesz.toNat ∧ i.toNat % 4096 = 0 ∧
    (i.toNat = 0 ∨ ph.offset.toNat + i.toNat ≤ ip.data.length)

/-- The page at offset `i` has a page table, and if there is a byte to read
into it, it is a page of an image of `sz` bytes. -/
def PageSound (ip : File) (ph : Proghdr) (sz i : Word) : Prop :=
  ((ph.va + i).toNat < 0x1000000 ∨ 0xFE000000 ≤ (ph.va + i).toNat) ∧
    (ph.offset.toNat + i.toNat < ip.data.length → Program sz (ph.va + i).toNat)

structure SegmentSound (ip : File) (ph : Proghdr) (sz : Word) : Prop where
  aligned : ph.va.toNat % 4096 = 0
  pages : ∀ i, Reached ip ph i → PageSound ip ph sz i

/-- The file has all the bytes of the segment. -/
def Complete (ip : File) (ph : Proghdr) : Prop :=
  ph.filesz.toNat = 0 ∨ ph.offset.toNat + ph.filesz.toNat ≤ ip.data.length

/-- Of the entries there are, those of the image's pages are the user's. -/
theorem Layout.user_iff (h : Layout img pgdir S) (hS : ∀ m, S m → Range 4096 0xA0000 m)
    {pte : Word} (hpte : pgdir.pte va = some pte) :
    (PGSIZE ≤ va ∧ present pte ∧ pte &&& PTE_U ≠ 0) ↔ S va.toNat := by
  constructor
  · rintro ⟨-, -, huser⟩
    by_contra hs
    by_cases hva : va.toNat < 0xA0000
    · obtain rfl := h.absent va pte hva hs hpte
      exact huser BitVec.zero_and
    · exact huser (h.kernel va pte (Nat.not_lt.mp hva) hpte)
  · intro hs
    have hr := hS _ hs
    have hpage := h.mapped va pte hr.2 hs hpte
    exact ⟨hr.1, hpage.present, hpage.user⟩

theorem program_user (hsz : sz.toNat ≤ 0xA0000) (m : Nat) (h : Program sz m) :
    Range 4096 0xA0000 m := by
  unfold Program Range pageUp at *
  omega

/-- The offset of the next page, once the file has all of this one. -/
theorem toNat_nextOffset (ip : File) {i : Word} (hi : i.toNat < ip.data.length) :
    (i + PGSIZE).toNat = i.toNat + 4096 := by
  have : ip.data.length ≤ 71680 := ip.size_le
  rw [BitVec.toNat_add, toNat_PGSIZE, Nat.mod_eq_of_lt (by omega)]

/-- The state of the loop of `loaduvm`. -/
structure AtPage (ip : File) (ph : Proghdr) (i : Word) : Prop where
  aligned : i.toNat % 4096 = 0
  read : i.toNat = 0 ∨ ph.offset.toNat + min i.toNat ph.filesz.toNat ≤ ip.data.length

namespace AtPage

theorem reached (h : AtPage ip ph i) (hi : i < ph.filesz) : Reached ip ph i := by
  have hi : i.toNat < ph.filesz.toNat := hi
  have := h.read
  exact ⟨hi, h.aligned, by omega⟩

theorem toNat_offset (h : AtPage ip ph i) (hi : i < ph.filesz) :
    (ph.offset + i).toNat = ph.offset.toNat + i.toNat := by
  have hmax : ip.data.length ≤ 71680 := ip.size_le
  have hi : i.toNat < ph.filesz.toNat := hi
  have := h.read
  have := ph.offset.isLt
  rw [BitVec.toNat_add, Nat.mod_eq_of_lt (by omega)]

theorem done (h : AtPage ip ph i) (hi : ¬ i < ph.filesz) : Complete ip ph := by
  have hi : ¬ i.toNat < ph.filesz.toNat := hi
  have := h.read
  unfold Complete
  omega

end AtPage

theorem toNat_chunk (hi : i < sz) :
    (if sz - i < PGSIZE then sz - i else PGSIZE).toNat = min (sz.toNat - i.toNat) 4096 := by
  have hi : i.toNat < sz.toNat := hi
  have hsub : (sz - i).toNat = sz.toNat - i.toNat :=
    BitVec.toNat_sub_of_le (by rw [BitVec.le_def]; omega)
  split
  · next h =>
    have h : (sz - i).toNat < 4096 := h
    omega
  · next h =>
    have h : ¬ (sz - i).toNat < 4096 := h
    rw [toNat_PGSIZE]
    omega

/-- What one turn of the loop of `loaduvm` does. -/
theorem loadPage (h : AtPage ip ph i) (hi : i < ph.filesz) (hs : Pool img enough k s) :
    let n := if ph.filesz - i < PGSIZE then ph.filesz - i else PGSIZE
    wp (readi ip dst (ph.offset + i) n) (fun r s' => Pool img enough k s' ∧
      (0 < r.toInt ↔ ph.offset.toNat + i.toNat < ip.data.length) ∧
      (r ≠ n → ¬ Complete ip ph ∧ ∀ j, i.toNat < j.toNat → ¬ Reached ip ph j) ∧
      (r = n → ph.offset.toNat + i.toNat < ip.data.length ∧ AtPage ip ph (i + PGSIZE))) s := by
  intro n
  have hn : n.toNat = min (ph.filesz.toNat - i.toNat) 4096 := toNat_chunk hi
  have hoff := h.toNat_offset hi
  have hi : i.toNat < ph.filesz.toNat := hi
  refine (readi_wp (by omega) (by omega) hs).mono ?_
  rintro r s' ⟨hs', hall, hsome⟩
  rw [hoff] at hall hsome
  have hal := h.aligned
  refine ⟨hs', hsome, fun hr => ⟨fun hc => ?_, fun j hj hreach => ?_⟩, fun hr => ?_⟩
  · unfold Complete at hc
    exact hr (hall.mpr (by omega))
  · obtain ⟨hlt, haj, hread⟩ := hreach
    exact hr (hall.mpr (by omega))
  · have hall := hall.mp hr
    have hin : ph.offset.toNat + i.toNat < ip.data.length := by omega
    have hnext := toNat_nextOffset ip (i := i) (by omega)
    exact ⟨hin, by omega, .inr (by omega)⟩

section LoadLoop

variable {m : Nat}

theorem loadLoop_wp (hl : Layout img pgdir (Program sz)) (hsz : sz.toNat ≤ 0xA0000)
    (h : AtPage ip ph i) (hm : NPAGES ≤ i.toNat / 4096 + m)
    (hsound : ∀ j, i.toNat ≤ j.toNat → Reached ip ph j → PageSound ip ph sz j)
    (hs : Pool img enough k s) :
    wp (loadLoop pgdir ph.va ip ph.offset ph.filesz m i) (fun r s' => Pool img enough k s' ∧
      (∀ l ∈ r.2, l.Inside ∧ pgdir.pte l.va = some l.pte) ∧ (¬ r.1 < 0 ↔ Complete ip ph)) s := by
  induction m generalizing i s with
  | zero =>
    have := i.isLt
    have : (2 : Nat) ^ 32 = NPAGES * 4096 := by decide
    omega
  | succ m ih =>
    unfold loadLoop
    split
    · next hi =>
      obtain ⟨htable, hin⟩ := hsound i (Nat.le_refl _) (h.reached hi)
      obtain ⟨pte, hpte⟩ := Option.isSome_iff_exists.mp (hl.pte_isSome.mpr htable)
      rw [hpte]
      refine wp.seq (loadPage h hi hs) fun r s' hr => ?_
      obtain ⟨hs', hsome, hshort, hfull⟩ := hr
      have hload : ∀ l ∈ if 0 < r.toInt then [Load.mk (ph.va + i) pte] else [],
          l.Inside ∧ pgdir.pte l.va = some l.pte := by
        intro l hmem
        split at hmem
        · next hpos =>
          obtain rfl := List.mem_singleton.mp hmem
          obtain ⟨h1, h2, h3⟩ :=
            (hl.user_iff (program_user hsz) hpte).mpr (hin (hsome.mp hpos))
          exact ⟨⟨h1, h2, h3⟩, hpte⟩
        · cases hmem
      dsimp only
      by_cases heq : r = if ph.filesz - i < PGSIZE then ph.filesz - i else PGSIZE
      · obtain ⟨hlen, hnext⟩ := hfull heq
        rw [if_neg (not_not.mpr heq)]
        have hnat := toNat_nextOffset ip (i := i) (by omega)
        refine wp.seq (ih hnext (by omega) (fun j hj => hsound j (by omega)) hs') ?_
        rintro rest t ⟨ht, hall, hc⟩
        refine wp.pure.mpr ⟨ht, fun l hmem => ?_, hc⟩
        exact (List.mem_append.mp hmem).elim (hload l) (hall l)
      · rw [if_pos heq]
        refine wp.pure.mpr ⟨hs', hload, ?_⟩
        exact iff_of_false (fun hc => hc (Int.negSucc_lt_zero 0)) (hshort heq).1
    · next hi =>
      exact wp.pure.mpr ⟨hs, nofun, iff_of_true (Int.lt_irrefl 0) (h.done hi)⟩

theorem sound_of_loadLoop (hl : Layout img pgdir (Program sz)) (hsz : sz.toNat ≤ 0xA0000)
    (h : AtPage ip ph i) (hm : NPAGES ≤ i.toNat / 4096 + m) (hs : Pool img enough k s)
    (hw : wp (loadLoop pgdir ph.va ip ph.offset ph.filesz m i) (fun r _ => ∀ l ∈ r.2, l.Inside) s)
    {j : Word} (hj : i.toNat ≤ j.toNat) (hreach : Reached ip ph j) : PageSound ip ph sz j := by
  induction m generalizing i s with
  | zero =>
    have := i.isLt
    have : (2 : Nat) ^ 32 = NPAGES * 4096 := by decide
    omega
  | succ m ih =>
    unfold loadLoop at hw
    split at hw
    · next hi =>
      split at hw
      · exact absurd hw wp.failure
      next pte hpte =>
      obtain ⟨r, s', ⟨hs', hsome, hshort, hfull⟩, hw⟩ := wp.of_bind hw (loadPage h hi hs)
      dsimp only at hw
      rcases Nat.eq_or_lt_of_le hj with heq | hlt
      · obtain rfl := BitVec.eq_of_toNat_eq heq
        refine ⟨hl.pte_isSome.mp (hpte ▸ rfl), fun hlen => ?_⟩
        have hpos := hsome.mpr hlen
        have hload : Load.Inside ⟨ph.va + i, pte⟩ := by
          rw [if_pos hpos, wp.ite] at hw
          by_cases heq : r = if ph.filesz - i < PGSIZE then ph.filesz - i else PGSIZE
          · rw [if_neg (not_not.mpr heq)] at hw
            obtain ⟨rest, t, -, hw⟩ := wp.bind.mp hw
            exact wp.pure.mp hw _ (List.mem_cons_self ..)
          · rw [if_pos heq] at hw
            exact wp.pure.mp hw _ (List.mem_singleton_self _)
        exact (hl.user_iff (program_user hsz) hpte).mp ⟨hload.above, hload.present, hload.user⟩
      · by_cases heq : r = if ph.filesz - i < PGSIZE then ph.filesz - i else PGSIZE
        · obtain ⟨hlen, hnext⟩ := hfull heq
          rw [if_neg (not_not.mpr heq)] at hw
          have hnat := toNat_nextOffset ip (i := i) (by omega)
          have hal := h.aligned
          have halj := hreach.2.1
          refine ih hnext (by omega) hs' ?_ (by omega)
          refine (wp.bind.mp hw).mono fun rest t hrest l hmem => ?_
          exact wp.pure.mp hrest l (List.mem_append_right _ hmem)
        · exact absurd hreach ((hshort heq).2 j hlt)
    · next hi =>
      have hi : ¬ i.toNat < ph.filesz.toNat := hi
      exact absurd hreach.1 (by omega)

end LoadLoop

theorem atPage_zero (ip : File) (ph : Proghdr) : AtPage ip ph 0 := ⟨rfl, .inl rfl⟩

/-- `loaduvm` keeps to the image's pages exactly if the segment is sound. -/
theorem loaduvm_wp (hl : Layout img pgdir (Program sz)) (hsz : sz.toNat ≤ 0xA0000)
    (hsound : SegmentSound ip ph sz) (hs : Pool img enough k s) :
    wp (loaduvm pgdir ph.va ip ph.offset ph.filesz) (fun r s' => Pool img enough k s' ∧
      (∀ l ∈ r.2, l.Inside ∧ pgdir.pte l.va = some l.pte) ∧ (¬ r.1 < 0 ↔ Complete ip ph)) s := by
  have hal : ph.va % PGSIZE = 0 := BitVec.eq_of_toNat_eq (by
    rw [BitVec.toNat_umod]
    exact hsound.aligned)
  unfold loaduvm
  rw [if_neg (not_not.mpr hal)]
  exact loadLoop_wp hl hsz (atPage_zero ip ph) (Nat.le_add_left ..)
    (fun j _ => hsound.pages j) hs

theorem sound_of_loaduvm (hl : Layout img pgdir (Program sz)) (hsz : sz.toNat ≤ 0xA0000)
    (hs : Pool img enough k s)
    (hw : wp (loaduvm pgdir ph.va ip ph.offset ph.filesz) (fun r _ => ∀ l ∈ r.2, l.Inside) s) :
    SegmentSound ip ph sz := by
  unfold loaduvm at hw
  split at hw
  · exact absurd hw wp.failure
  next hal =>
  have hal : (ph.va % PGSIZE).toNat = 0 := congrArg BitVec.toNat (not_not.mp hal)
  rw [BitVec.toNat_umod] at hal
  exact ⟨hal, fun j => sound_of_loadLoop hl hsz (atPage_zero ip ph) (Nat.le_add_left ..) hs hw
    (Nat.zero_le _)⟩

-- ---------------------------------------------------------------------------
-- Program headers
-- ---------------------------------------------------------------------------

/-- Of the `n` program headers from `off` on, each that `exec` comes to is
sound for the size the image has with it; if none is rejected, `P` holds of
the last size. -/
def HeadersSound (ip : File) (P : Word → Prop) : Nat → Word → Word → Prop
  | 0, _, sz => P sz
  | n + 1, off, sz => ∀ ph, ip.proghdr off = some ph →
    (ph.type ≠ ELF_PROG_LOAD → HeadersSound ip P n (off + 32) sz) ∧
    (ph.type = ELF_PROG_LOAD → ph.filesz ≤ ph.memsz → ph.va + ph.memsz ≤ USERTOP →
      SegmentSound ip ph (grow sz (ph.va + ph.memsz)) ∧
      (Complete ip ph → HeadersSound ip P n (off + 32) (grow sz (ph.va + ph.memsz))))

/-- The pages that an image of `sz` bytes leaves to be allocated, the stack's
included. -/
def room (sz : Word) : Nat := (0xA0000 - pageUp sz.toNat) / 4096 + 1

/-- The address space while segments are loaded. -/
structure Loading (img : Image) (enough : Prop) (pgdir : Pgdir) (sz : Word) (loads : List Load)
    (s : Kmem) : Prop where
  low : 4096 ≤ sz.toNat
  high : sz.toNat ≤ 0xA0000
  layout : Layout img pgdir (Program sz)
  pool : Pool img enough (room sz) s
  inside : ∀ l ∈ loads, l.Inside ∧ pgdir.pte l.va = some l.pte

namespace Loading

variable {loads : List Load}

/-- What `allocuvm` makes of it for another segment. -/
theorem allocuvm (h : Loading img enough pgdir sz loads s) (n : Word) :
    wp (allocuvm img pgdir sz n) (fun r s' =>
      (r.2 = 0 ∧ (n ≤ USERTOP → ¬ enough) ∧ Freeable img r.1 ∧ Pool img False 0 s') ∨
      (n ≤ USERTOP ∧ r.2 = grow sz n ∧ r.2 ≠ 0 ∧
        Loading img enough r.1 (grow sz n) loads s')) s := by
  have hlow := h.low
  have hhigh := h.high
  have fresh (m : Nat) : Range (pageUp sz.toNat) (pageUp n.toNat) m → ¬ Program sz m := by
    unfold Program Range
    omega
  by_cases hn : n ≤ USERTOP
  · have hn' : n.toNat ≤ 0xA0000 := hn
    have hgrow := toNat_grow sz n
    have hpool : Pool img enough
        (room (grow sz n) + (pageUp n.toNat - pageUp sz.toNat) / 4096) s := by
      refine h.pool.mono ?_
      unfold room
      rw [hgrow]
      unfold pageUp
      omega
    refine (h.layout.allocuvm hhigh fresh hpool).mono ?_
    rintro r s' ⟨hs', ⟨hr, hne, hf⟩ | ⟨hle, hr, hext, hl⟩⟩
    · exact .inl ⟨hr, hne, hf, hs'.frames, nofun, nofun⟩
    · refine .inr ⟨hle, hr, ?_, by omega, by omega, hl.congr fun m _ => ?_, hs', ?_⟩
      · intro hz
        have hz : (grow sz n).toNat = 0 := congrArg BitVec.toNat (hr.symm.trans hz)
        omega
      · unfold Program Range
        rw [hgrow]
        unfold pageUp
        omega
      · intro l hmem
        obtain ⟨hin, hpte⟩ := h.inside l hmem
        exact ⟨hin, hext _ _ hpte hin.present⟩
  · have hpool : Pool img False (0 + (pageUp n.toNat - pageUp sz.toNat) / 4096) s :=
      ⟨h.pool.frames, nofun, nofun⟩
    refine (h.layout.allocuvm hhigh fresh hpool).mono ?_
    rintro r s' ⟨hs', ⟨hr, -, hf⟩ | ⟨hle, -⟩⟩
    · exact .inl ⟨hr, fun hle => absurd hle hn, hf, hs'⟩
    · exact absurd hle hn

theorem loaduvm (h : Loading img enough pgdir sz loads s) (hsound : SegmentSound ip ph sz) :
    wp (loaduvm pgdir ph.va ip ph.offset ph.filesz) (fun r s' =>
      Loading img enough pgdir sz (loads ++ r.2) s' ∧ (¬ r.1 < 0 ↔ Complete ip ph)) s := by
  refine (loaduvm_wp h.layout h.high hsound h.pool).mono ?_
  rintro r s' ⟨hs', hin, hc⟩
  refine ⟨⟨h.low, h.high, h.layout, hs', fun l hmem => ?_⟩, hc⟩
  exact (List.mem_append.mp hmem).elim (h.inside l) (hin l)

end Loading

/-- The loop forgets no page it has read into. -/
theorem loadSegments_loads (ip : File) (m : Nat) (off : Word) (pgdir : Pgdir) (sz : Word)
    (loads : List Load) :
    Ensures (loadSegments img ip m off pgdir sz loads) fun r => ∀ l ∈ loads, l ∈ r.2.2 := by
  induction m generalizing off pgdir sz loads with
  | zero => exact .pure fun _ hl => hl
  | succ m ih =>
    unfold loadSegments
    split
    · exact .pure fun _ hl => hl
    · refine .ite (fun _ => ih (off + 32) pgdir sz loads) fun _ => ?_
      refine .ite (fun _ => .pure fun _ hl => hl) fun _ => ?_
      refine .seq fun a => .ite (fun _ => .pure fun _ hl => hl) fun _ => .seq fun r => ?_
      refine .ite (fun _ => .pure fun l hl => List.mem_append_left _ hl) fun _ => ?_
      exact (ih (off + 32) a.1 a.2 (loads ++ r.2)).mono fun r' hr l hl =>
        hr l (List.mem_append_left _ hl)

/-- Sound headers are loaded or rejected. -/
theorem loadSegments_wp {P : Word → Prop} {m : Nat} {loads : List Load}
    (h : Loading img enough pgdir sz loads s) (hsound : HeadersSound ip P m off sz) :
    wp (loadSegments img ip m off pgdir sz loads) (fun r s' =>
      (r.2.1 = none ∧ Freeable img r.1 ∧ Pool img False 0 s' ∧ ∀ l ∈ r.2.2, l.Inside) ∨
      ∃ sz', r.2.1 = some sz' ∧ P sz' ∧ Loading img enough r.1 sz' r.2.2 s') s := by
  induction m generalizing off pgdir sz loads s with
  | zero => exact wp.pure.mpr (.inr ⟨sz, rfl, hsound, h⟩)
  | succ m ih =>
    have rejected : Pool img False 0 s := ⟨h.pool.frames, nofun, nofun⟩
    have inside : ∀ l ∈ loads, l.Inside := fun l hl => (h.inside l hl).1
    unfold loadSegments
    split
    · exact wp.pure.mpr (.inl ⟨rfl, h.layout.freeable, rejected, inside⟩)
    next ph hph =>
    obtain ⟨hskip, hload⟩ := hsound ph hph
    split
    · next ht => exact ih h (hskip ht)
    next ht =>
    split
    · exact wp.pure.mpr (.inl ⟨rfl, h.layout.freeable, rejected, inside⟩)
    next hmem =>
    refine wp.seq (h.allocuvm (ph.va + ph.memsz)) fun a t ha => ?_
    rcases ha with ⟨hz, -, hf, ht'⟩ | ⟨hle, hr, hz, hl⟩
    · rw [if_pos hz]
      exact wp.pure.mpr (.inl ⟨rfl, hf, ht', inside⟩)
    rw [if_neg hz]
    obtain ⟨hseg, hrest⟩ := hload (not_not.mp ht) (BitVec.not_lt.mp hmem) hle
    refine wp.seq (hl.loaduvm hseg) fun r t' hr' => ?_
    obtain ⟨hl', hc⟩ := hr'
    split
    · refine wp.pure.mpr (.inl ⟨rfl, hl'.layout.freeable, ⟨hl'.pool.frames, nofun, nofun⟩, ?_⟩)
      exact fun l hmem => (hl'.inside l hmem).1
    · next hneg =>
      rw [hr]
      exact ih hl' (hrest (hc.mp hneg))

/-- With enough memory nothing but sound headers keeps to the image. -/
theorem sound_of_loadSegments {P : Word → Prop} {m : Nat} {loads : List Load} (he : enough)
    (h : Loading img enough pgdir sz loads s)
    (hw : wp (loadSegments img ip m off pgdir sz loads) (fun r s' => (∀ l ∈ r.2.2, l.Inside) ∧
      ∀ sz', r.2.1 = some sz' → Loading img enough r.1 sz' r.2.2 s' → P sz') s) :
    HeadersSound ip P m off sz := by
  induction m generalizing off pgdir sz loads s with
  | zero => exact (wp.pure.mp hw).2 sz rfl h
  | succ m ih =>
    intro ph hph
    unfold loadSegments at hw
    rw [hph] at hw
    dsimp only at hw
    refine ⟨fun ht => ?_, fun ht hmem hle => ?_⟩
    · exact ih h (by simpa only [ne_eq, ht, not_false_eq_true, if_true] using hw)
    rw [if_neg (not_not.mpr ht), if_neg (BitVec.not_lt.mpr hmem)] at hw
    obtain ⟨a, t, ha, hw⟩ := wp.of_bind hw (h.allocuvm (ph.va + ph.memsz))
    rcases ha with ⟨-, hne, -⟩ | ⟨-, hr, hz, hl⟩
    · exact absurd he (hne hle)
    rw [if_neg hz] at hw
    have hseg : SegmentSound ip ph (grow sz (ph.va + ph.memsz)) := by
      refine sound_of_loaduvm hl.layout hl.high hl.pool ((wp.bind.mp hw).mono ?_)
      intro r t' hrest l hmem
      split at hrest
      · exact (wp.pure.mp hrest).1 l (List.mem_append_right _ hmem)
      · obtain ⟨r', t'', -, ⟨hin, -⟩, hall⟩ := hrest.ensures
          (loadSegments_loads ip m (off + 32) a.1 a.2 (loads ++ r.2))
        exact hin l (hall l (List.mem_append_right _ hmem))
    refine ⟨hseg, fun hc => ?_⟩
    obtain ⟨r, t', ⟨hl', hiff⟩, hw⟩ := wp.of_bind hw (hl.loaduvm hseg)
    rw [if_neg (hiff.mpr hc), hr] at hw
    exact ih hl' hw

-- ---------------------------------------------------------------------------
-- Arguments
-- ---------------------------------------------------------------------------

/-- The pages of an image of `sz` bytes with its stack. -/
def Started (sz : Word) (m : Nat) : Prop := Program sz m ∨ Range 0x9F000 0xA0000 m

theorem Layout.page_closed (h : Layout img pgdir S) (hS : ∀ m, S m → Range 4096 0xA0000 m)
    {a b : Word} (hab : a.toNat / 4096 = b.toNat / 4096) (ha : S a.toNat) : S b.toNat := by
  have hr := hS _ ha
  unfold Range at hr
  obtain ⟨pte, hpte⟩ := h.user_pte hr.2
  refine (h.user_iff hS (Pgdir.pte_congr hab ▸ hpte)).mp ?_
  obtain ⟨-, hpres, huser⟩ := (h.user_iff hS hpte).mpr ha
  refine ⟨?_, hpres, huser⟩
  rw [BitVec.le_def, toNat_PGSIZE]
  omega

/-- `uva2ka` of an address that has an entry finds the user's pages. -/
theorem uva2ka_wp (h : Layout img pgdir S) (hS : ∀ m, S m → Range 4096 0xA0000 m)
    (hva : va.toNat < 0x1000000 ∨ 0xFE000000 ≤ va.toNat) (hs : Pool img enough k s) :
    wp (uva2ka pgdir va) (fun pa s' => Pool img enough k s' ∧ (pa ≠ 0 ↔ S va.toNat)) s := by
  obtain ⟨pte, hpte⟩ := Option.isSome_iff_exists.mp (h.pte_isSome.mpr hva)
  have hiff := h.user_iff hS hpte
  unfold uva2ka
  rw [hpte]
  dsimp only
  split
  · next hp =>
    refine wp.pure.mpr ⟨hs, iff_of_false (fun hz => hz rfl) fun hm => ?_⟩
    simp [hp] at hiff
    exact hiff hm
  next hp =>
  split
  · next hu =>
    exact wp.pure.mpr ⟨hs, iff_of_false (fun hz => hz rfl) fun hm => (hiff.mpr hm).2.2 hu⟩
  · next hu =>
    refine wp.pure.mpr ⟨hs, ?_⟩
    have hm : S va.toNat := by
      by_contra hm
      by_cases hlt : va.toNat < 0xA0000
      · obtain rfl := h.absent va pte hlt hm hpte
        exact hu BitVec.zero_and
      · exact hu (h.kernel va pte (Nat.not_lt.mp hlt) hpte)
    exact iff_of_true (h.mapped va pte (hS _ hm).2 hm hpte).frame.ne hm

/-- `copyout` succeeds exactly on the user's pages. -/
theorem copyout_wp (h : Layout img pgdir S) (hS : ∀ m, S m → Range 4096 0xA0000 m)
    (hva : va.toNat < 0x1000000 ∨ 0xFE000000 ≤ va.toNat) {p : List Byte}
    (hs : Pool img enough k s) :
    wp (copyout pgdir va p) (fun r s' => Pool img enough k s' ∧
      (¬ r < 0 ↔ ∀ m, Range va.toNat (va.toNat + p.length) m → S m)) s := by
  induction hlen : p.length using Nat.strong_induction_on generalizing va p s with
  | _ len ih =>
    subst hlen
    unfold copyout
    split
    · next hz =>
      refine wp.pure.mpr ⟨hs, iff_of_true (Int.lt_irrefl 0) fun m hm => ?_⟩
      unfold Range at hm
      omega
    next hz =>
    have hdown : (PGROUNDDOWN va).toNat = va.toNat / 4096 * 4096 := toNat_PGROUNDDOWN va
    have hrest := toNat_pageRest va
    refine wp.seq (uva2ka_wp h hS (by omega) hs) fun pa t hpa => ?_
    obtain ⟨ht, hpa⟩ := hpa
    have hpage {b : Word} (hb : b.toNat / 4096 = va.toNat / 4096) : pa ≠ 0 ↔ S b.toNat :=
      hpa.trans ⟨h.page_closed hS (by omega), h.page_closed hS (by omega)⟩
    split
    · next hp =>
      refine wp.pure.mpr ⟨ht, iff_of_false (fun hc => hc (Int.negSucc_lt_zero 0)) fun hall => ?_⟩
      refine (hpage rfl).mpr (hall _ ?_) hp
      unfold Range
      omega
    next hp =>
    have hin := (hpage rfl).mp hp
    have hr := hS _ hin
    unfold Range at hr
    have hnext : (PGROUNDDOWN va + PGSIZE).toNat = va.toNat / 4096 * 4096 + 4096 := by
      rw [BitVec.toNat_add, toNat_PGSIZE, hdown, Nat.mod_eq_of_lt (by omega)]
    rw [wp.bind, store, wp.modify]
    have hdrop : (p.drop (min (PGSIZE - (va - PGROUNDDOWN va)).toNat p.length)).length =
        p.length - min (PGSIZE - (va - PGROUNDDOWN va)).toNat p.length := List.length_drop
    refine (ih _ (by omega) (by omega) (ht.setMem _) rfl).mono ?_
    rintro r t' ⟨ht', hiff⟩
    refine ⟨ht', hiff.trans ⟨fun hall m hm => ?_, fun hall m hm => hall m ?_⟩⟩
    · by_cases hsame : m / 4096 = va.toNat / 4096
      · have hnat : (BitVec.ofNat 32 m).toNat = m := by
          rw [BitVec.toNat_ofNat]
          omega
        exact hnat ▸ (hpage (b := BitVec.ofNat 32 m) (by rw [hnat, hsame])).mp hp
      · refine hall m ?_
        unfold Range at hm ⊢
        omega
    · unfold Range at hm ⊢
      omega

theorem toNat_align (a : Word) : (a &&& ~~~3).toNat = a.toNat / 4 * 4 := by
  have hmask : ∀ j (h : j < 32), (~~~(3 : Word))[j] = decide (2 ≤ j) := by decide
  have heq : a &&& ~~~(3 : Word) = (a >>> 2) <<< 2 := by
    ext j hj
    rw [BitVec.getElem_and, hmask, BitVec.getElem_shiftLeft]
    by_cases h : j < 2
    · simp [h]
    · simp [h, Nat.not_lt.mp h, BitVec.getLsbD_eq_getElem hj]
  have := a.isLt
  rw [heq, BitVec.toNat_shiftLeft, BitVec.toNat_ushiftRight, Nat.shiftLeft_eq,
    Nat.shiftRight_eq_div_pow, Nat.mod_eq_of_lt (by omega)]

/-- The bytes that the strings of `argv` take on the stack. -/
def argBytes (argv : List Arg) : Nat := (argv.map fun arg => (arg.chars.length + 4) / 4 * 4).sum

/-- Where a string goes: below `sp`, or around the end of the address space. -/
theorem toNat_pushed (arg : Arg) {sp : Word} (hlow : 4096 ≤ sp.toNat) (hhigh : sp.toNat ≤ 0xA0000)
    (hal : sp.toNat % 4 = 0) :
    let sp' := (sp - (BitVec.ofNat 32 arg.chars.length + 1)) &&& ~~~3
    (sp'.toNat + (arg.chars.length + 4) / 4 * 4 = sp.toNat) ∨
      (sp.toNat < (arg.chars.length + 4) / 4 * 4 ∧ 0xFE000000 ≤ sp'.toNat) := by
  intro sp'
  have hbelow : arg.chars.length < 0xA0000 := arg.below
  have hlen : (BitVec.ofNat 32 arg.chars.length + 1 : Word).toNat = arg.chars.length + 1 := by
    rw [BitVec.toNat_add, BitVec.toNat_ofNat, Nat.mod_eq_of_lt (by omega : arg.chars.length < 2 ^ 32)]
    exact Nat.mod_eq_of_lt (by rw [show (1 : Word).toNat = 1 from rfl]; omega)
  have hsp' : sp'.toNat = (sp - (BitVec.ofNat 32 arg.chars.length + 1)).toNat / 4 * 4 :=
    toNat_align _
  rw [BitVec.toNat_sub, hlen] at hsp'
  omega

/-- The strings of `argv` are copied without a panic; they end up below each
other, and where all of the user's pages are mapped they fit exactly if there
are not too many of them. -/
theorem pushArgs_wp (h : Layout img pgdir S) (hS : ∀ m, S m → Range 4096 0xA0000 m)
    {argv : List Arg} {sp : Word} {ustack : List Word} (hlow : 4096 ≤ sp.toNat)
    (hhigh : sp.toNat ≤ 0xA0000) (hal : sp.toNat % 4 = 0) (hlen : ustack.length ≤ MAXARG)
    (hs : Pool img enough k s) :
    wp (pushArgs pgdir argv sp ustack) (fun o s' => Pool img enough k s' ∧
      (∀ sp' args, o = some (sp', args) → 4096 ≤ sp'.toNat ∧
        sp'.toNat + argBytes argv = sp.toNat ∧ args.length = ustack.length + argv.length ∧
        args.length ≤ MAXARG) ∧
      (o = none → (∀ m, Range 4096 0xA0000 m → S m) →
        ¬ (ustack.length + argv.length ≤ MAXARG ∧ 4096 + argBytes argv ≤ sp.toNat))) s := by
  induction argv generalizing sp ustack s with
  | nil =>
    refine wp.pure.mpr ⟨hs, ?_, nofun⟩
    rintro sp' args ⟨⟩
    exact ⟨hlow, rfl, rfl, hlen⟩
  | cons arg argv ih =>
    have hbytes : argBytes (arg :: argv) = (arg.chars.length + 4) / 4 * 4 + argBytes argv := by
      simp [argBytes]
    have hcons : (arg :: argv).length = argv.length + 1 := rfl
    unfold pushArgs
    split
    · exact wp.pure.mpr ⟨hs, nofun, fun _ _ => by omega⟩
    next hmax =>
    have hpush := toNat_pushed arg hlow hhigh hal
    dsimp only at hpush ⊢
    generalize (sp - (BitVec.ofNat 32 arg.chars.length + 1)) &&& ~~~3 = sp' at hpush
    have hlength : (arg.chars ++ [0]).length = arg.chars.length + 1 := List.length_append
    refine wp.seq (copyout_wp h hS (by omega) hs) fun r t hr => ?_
    obtain ⟨ht, hiff⟩ := hr
    rw [hlength] at hiff
    split
    · next hneg =>
      refine wp.pure.mpr ⟨ht, nofun, fun _ hfull hfit => ?_⟩
      refine (not_iff_not.mpr hiff).mp (not_not.mpr hneg) fun m hm => hfull m ?_
      unfold Range at hm ⊢
      omega
    · next hneg =>
      have hfirst := hS _ (hiff.mp hneg sp'.toNat (by unfold Range; omega))
      unfold Range at hfirst
      have hustack : (ustack ++ [sp']).length = ustack.length + 1 := List.length_append
      refine (ih hfirst.1 (by omega) (by omega) (by omega) ht).mono ?_
      rintro o t' ⟨ht', hsome, hnone⟩
      refine ⟨ht', fun sp'' args ho => ?_, fun ho hfull => ?_⟩
      · obtain ⟨h1, h2, h3, h4⟩ := hsome sp'' args ho
        exact ⟨h1, by omega, by omega, h4⟩
      · have := hnone ho hfull
        omega

end PerrOS.Vm
