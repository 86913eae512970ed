import PerrOS.Vm.Guard
import PerrOS.Vm.Program

/-!
# `exec` on any file

For every file and every `argv`: whether `exec` is clean whatever the caller
and the free list are.
-/

namespace PerrOS.Vm

open Lib (Ensures wp)

variable {img : Image} {ip : File} {pgdir : Pgdir} {p : Proc} {argv : List Arg} {path : List Char}
variable {sz entry : Word} {loads : List Load} {enough : Prop} {s : Kmem} {k : Nat}

/-- The process has the new image: a page of stack at the top, an unmapped
page below it, and the program below that. -/
structure Replaced (r : Outcome) : Prop where
  ret : r.ret = 0
  stack : r.proc.stackSz = USERTOP - PGSIZE
  guard : r.proc.sz ≤ r.proc.stackSz - PGSIZE
  image : ∃ d, r.proc.pgdir = some d ∧ (∀ l ∈ r.loads, d.pte l.va = some l.pte) ∧
    (∀ va, r.proc.stackSz - PGSIZE ≤ va → va < r.proc.stackSz → ¬ d.Mapped va) ∧
    ∀ va, r.proc.stackSz ≤ va → va < USERTOP → d.Mapped va

/-- The segments were read into pages mapped for the new image only, and the
process `p` either has that image or is as it was. The kernel's own tables are
in memory too: a failing call that has read into other pages has not left the
process alone. -/
def Clean (p : Proc) (r : Outcome) : Prop :=
  (∀ l ∈ r.loads, l.Inside) ∧ (r.ret = -1 ∧ r.proc = p ∨ Replaced r)

-- ---------------------------------------------------------------------------
-- The stack
-- ---------------------------------------------------------------------------

/-- The strings, their addresses and the three words below them stay above
the first page. -/
def Fits (argv : List Arg) : Prop :=
  argv.length ≤ MAXARG ∧ 4096 + argBytes argv + 4 * (argv.length + 4) ≤ 0xA0000

/-- The program ends two pages below `USERTOP`, or one page below it and
`argv` is too long for any stack. -/
def StackSound (argv : List Arg) (sz : Word) : Prop :=
  sz.toNat ≤ 0x9E000 ∨ (sz.toNat ≤ 0x9F000 ∧ ¬ Fits argv)

theorem bad_clean (hd : Freeable img pgdir) (hs : Pool img enough k s)
    (hin : ∀ l ∈ loads, l.Inside) : wp (bad img p pgdir loads) (fun r _ => Clean p r) s :=
  wp.seq (hd.freevm hs) fun _ _ _ => wp.pure.mpr ⟨hin, .inl ⟨rfl, rfl⟩⟩

theorem bad_loads : Ensures (bad img p pgdir loads) fun r => r.loads = loads :=
  .seq fun _ => .pure rfl

theorem startImage_loads :
    Ensures (startImage img path argv p entry pgdir sz loads) fun r => r.loads = loads := by
  unfold startImage
  refine .seq fun a => .ite (fun _ => bad_loads) fun _ => .seq fun o => ?_
  split
  · exact bad_loads
  · refine .seq fun r => .ite (fun _ => bad_loads) fun _ => ?_
    split
    · exact .failure
    · exact .seq fun _ => .pure rfl

theorem started_user (hsz : sz.toNat ≤ 0xA0000) (m : Nat) (h : Started sz m) :
    Range 4096 0xA0000 m := by
  rcases h with h | h
  · exact program_user hsz m h
  · unfold Range at h ⊢
    omega

/-- The stack is mapped below an image that leaves it its page. -/
theorem Loading.allocStack (h : Loading img enough pgdir sz loads s) (hsz : sz.toNat ≤ 0x9F000) :
    wp (Vm.allocuvm img pgdir (USERTOP - PGSIZE) USERTOP) (fun a s' => Pool img enough 0 s' ∧
      ((a.2 = 0 ∧ ¬ enough ∧ Freeable img a.1) ∨
       (a.2 ≠ 0 ∧ Extends a.1 pgdir ∧ Layout img a.1 (Started sz)))) s := by
  have hlow : (USERTOP - PGSIZE).toNat = 0x9F000 := by decide
  have hup : pageUp (USERTOP - PGSIZE).toNat = 0x9F000 := by decide
  have htop : pageUp USERTOP.toNat = 0xA0000 := by decide
  have hpool : Pool img enough
      (0 + (pageUp USERTOP.toNat - pageUp (USERTOP - PGSIZE).toNat) / 4096) s := by
    refine h.pool.mono ?_
    rw [hup, htop]
    exact Nat.le_add_left 1 _
  refine (h.layout.allocuvm (by rw [hlow]; decide) (fun m hm hp => ?_) hpool).mono ?_
  · rw [hup, htop] at hm
    unfold Program Range pageUp at *
    omega
  · rw [hup, htop]
    rintro a t ⟨ht, ⟨hr, hne, hf⟩ | ⟨-, hr, hext, hl⟩⟩
    · exact ⟨ht, .inl ⟨hr, hne (BitVec.le_refl _), hf⟩⟩
    · exact ⟨ht, .inr ⟨by rw [hr]; decide, hext, hl⟩⟩

/-- The words below the strings. -/
theorem length_ustack (ws : List Word) : (ws.flatMap wordBytes).length = 4 * ws.length := by
  induction ws with
  | nil => rfl
  | cons w ws ih =>
    rw [List.flatMap_cons, List.length_append, ih, List.length_cons, Nat.mul_add, Nat.add_comm]
    rfl

theorem toNat_ustack {args : List Word} {sp : Word} (hlen : args.length ≤ MAXARG)
    (hsp : 4096 ≤ sp.toNat) :
    (sp - (3 + BitVec.ofNat 32 args.length + 1) * 4).toNat = sp.toNat - 4 * (args.length + 4) := by
  unfold MAXARG at hlen
  have hargs : (BitVec.ofNat 32 args.length : Word).toNat = args.length := by
    rw [BitVec.toNat_ofNat, Nat.mod_eq_of_lt (by omega)]
  bv_omega

/-- `exec` after the segments, for an image that ends below the stack: either
it fails, and then the program left a gap or `argv` is too long, or it puts
the image in place. -/
theorem startImage_wp (h : Loading img enough pgdir sz loads s) (hsz : sz.toNat ≤ 0x9F000)
    {old : Pgdir} (hp : p.pgdir = some old) (hold : Freeable img old) :
    wp (startImage img path argv p entry pgdir sz loads) (fun r _ => (∀ l ∈ r.loads, l.Inside) ∧
      ((r.ret = -1 ∧ r.proc = p ∧ (enough → 0x9E000 < sz.toNat → ¬ Fits argv)) ∨
       (Fits argv ∧ r.ret = 0 ∧ r.proc.sz = sz ∧ r.proc.stackSz = USERTOP - PGSIZE ∧
        ∃ d, r.proc.pgdir = some d ∧ (∀ l ∈ r.loads, d.pte l.va = some l.pte) ∧
          Layout img d (Started sz)))) s := by
  have inside : ∀ l ∈ loads, l.Inside := fun l hl => (h.inside l hl).1
  unfold startImage
  refine wp.seq (h.allocStack hsz) fun a t ha => ?_
  obtain ⟨ht, ⟨hz, hne, hf⟩ | ⟨hz, hext, hl⟩⟩ := ha
  · rw [if_pos hz]
    exact wp.seq (hf.freevm ht) fun _ _ _ =>
      wp.pure.mpr ⟨inside, .inl ⟨rfl, rfl, fun he => absurd he hne⟩⟩
  rw [if_neg hz]
  have hS : ∀ m, Started sz m → Range 4096 0xA0000 m := started_user (by omega)
  have hfull (hfill : 0x9E000 < sz.toNat) (m : Nat) (hm : Range 4096 0xA0000 m) : Started sz m := by
    unfold Started Program Range pageUp at *
    omega
  refine wp.seq (pushArgs_wp hl hS (by decide) (by decide) (by decide) (Nat.zero_le _) ht)
    fun o t' ho => ?_
  obtain ⟨ht', hsome, hnone⟩ := ho
  cases o with
  | none =>
    refine wp.seq (hl.freeable.freevm ht') fun _ _ _ =>
      wp.pure.mpr ⟨inside, .inl ⟨rfl, rfl, fun _ hfill hfit => ?_⟩⟩
    refine hnone rfl (hfull hfill) ⟨?_, ?_⟩
    · exact (Nat.zero_add _).symm ▸ hfit.1
    · have := hfit.2
      rw [toNat_USERTOP]
      omega
  | some r =>
    obtain ⟨sp, args⟩ := r
    obtain ⟨hlow, hsum, hlen, hmax⟩ := hsome sp args rfl
    have hlen : args.length = argv.length := hlen.trans (Nat.zero_add _)
    have hsum : sp.toNat + argBytes argv = 0xA0000 := hsum
    have hsp := toNat_ustack hmax hlow
    dsimp only
    have hbytes := length_ustack ([0xFFFFFFFF, BitVec.ofNat 32 args.length,
      sp - (BitVec.ofNat 32 args.length + 1) * 4] ++ args ++ [0])
    rw [List.length_append, List.length_append, List.length_singleton] at hbytes
    have hmax' : args.length ≤ 32 := hmax
    refine wp.seq (copyout_wp hl hS (by omega) ht') fun c t'' hc => ?_
    obtain ⟨ht'', hiff⟩ := hc
    rw [hbytes, hsp] at hiff
    have hthree : ([0xFFFFFFFF, BitVec.ofNat 32 args.length,
      sp - (BitVec.ofNat 32 args.length + 1) * 4] : List Word).length = 3 := rfl
    rw [hthree] at hiff
    split
    · next hneg =>
      refine wp.seq (hl.freeable.freevm ht'') fun _ _ _ =>
        wp.pure.mpr ⟨inside, .inl ⟨rfl, rfl, fun _ hfill hfit => ?_⟩⟩
      have hfit := hfit.2
      refine (not_iff_not.mpr hiff).mp (not_not.mpr hneg) fun m hm => hfull hfill m ?_
      unfold Range at hm ⊢
      omega
    · next hneg =>
      have hfirst := hS _ (hiff.mp hneg (sp.toNat - 4 * (args.length + 4)) (by unfold Range; omega))
      unfold Range at hfirst
      rw [hp]
      refine wp.seq (hold.freevm ht'') fun _ _ _ => wp.pure.mpr ⟨inside, .inr ?_⟩
      refine ⟨⟨hlen ▸ hmax, by omega⟩, rfl, rfl, rfl, a.1, rfl, fun l hmem => ?_, hl⟩
      obtain ⟨hin, hpte⟩ := h.inside l hmem
      exact hext _ _ hpte hin.present

theorem startImage_clean (h : Loading img enough pgdir sz loads s) (hsound : StackSound argv sz)
    {old : Pgdir} (hp : p.pgdir = some old) (hold : Freeable img old) :
    wp (startImage img path argv p entry pgdir sz loads) (fun r _ => Clean p r) s := by
  have hsz : sz.toNat ≤ 0x9F000 := by
    rcases hsound with hsz | ⟨hsz, -⟩ <;> omega
  refine (startImage_wp h hsz hp hold).mono ?_
  rintro r - ⟨hin, ⟨hret, hproc, -⟩ | ⟨hfit, hret, hr, hstack, d, hd, hext, hl⟩⟩
  · exact ⟨hin, .inl ⟨hret, hproc⟩⟩
  have hgap : sz.toNat ≤ 0x9E000 := hsound.resolve_right fun hc => hc.2 hfit
  have hS : ∀ m, Started sz m → Range 4096 0xA0000 m := started_user (by omega)
  refine ⟨hin, .inr ⟨hret, hstack, ?_, d, hd, hext, fun va hlo hhi hva => ?_, fun va hlo hhi => ?_⟩⟩
  · rw [hr, hstack]
    exact hgap
  · rw [hstack] at hlo hhi
    have hlo : 0x9E000 ≤ va.toNat := hlo
    have hhi : va.toNat < 0x9F000 := hhi
    obtain ⟨pte, hpte, hpres⟩ := hva
    obtain rfl := hl.absent va pte (by omega) (by
      unfold Started Program Range pageUp
      omega) hpte
    simp [present] at hpres
  · rw [hstack] at hlo
    have hlo : 0x9F000 ≤ va.toNat := hlo
    have hhi : va.toNat < 0xA0000 := hhi
    obtain ⟨pte, hpte⟩ := hl.user_pte hhi
    exact ⟨pte, hpte, (hl.mapped va pte hhi (.inr ⟨hlo, hhi⟩) hpte).present⟩

theorem sound_of_startImage (he : enough) (h : Loading img enough pgdir sz loads s) {old : Pgdir}
    (hp : p.pgdir = some old) (hold : Freeable img old)
    (hw : wp (startImage img path argv p entry pgdir sz loads) (fun r _ => Clean p r) s) :
    StackSound argv sz := by
  have hhigh := h.high
  by_cases hsz : sz.toNat ≤ 0x9F000
  · by_contra hns
    have hlt : ¬ sz.toNat ≤ 0x9E000 := fun hle => hns (.inl hle)
    have hfit : Fits argv := by
      by_contra hfit
      exact hns (.inr ⟨hsz, hfit⟩)
    obtain ⟨r, t, -, hclean, -, hr⟩ := hw.and (startImage_wp h hsz hp hold)
    rcases hr with ⟨-, -, hno⟩ | ⟨-, hret, hr, hstack, -⟩
    · exact hno he (by omega) hfit
    · rcases hclean.2 with ⟨hneg, -⟩ | hrep
      · rw [hret] at hneg
        cases hneg
      · have hguard := hrep.guard
        rw [hr, hstack] at hguard
        exact hlt hguard
  · -- the stack's page is the program's already
    have hroom : Pool img enough (0 + 1) s := h.pool.mono (by unfold room; omega)
    have hlow : (USERTOP - PGSIZE).toNat = 0x9F000 := by decide
    unfold startImage at hw
    refine absurd (wp.bind.mp hw) (h.layout.allocuvm_remap (by rw [hlow]) (by decide) (by decide)
      ?_ he hroom)
    rw [hlow]
    unfold Program Range pageUp
    omega

-- ---------------------------------------------------------------------------
-- Every file
-- ---------------------------------------------------------------------------

/-- The program headers are sound, and so is the size of the program, as far as
`exec` reads them. -/
def Sound (ip : File) (argv : List Arg) : Prop :=
  ∀ elf, ip.elfhdr = some elf → elf.magic = ELF_MAGIC →
    HeadersSound ip (StackSound argv) elf.phnum.toNat elf.phoff PGSIZE

/-- An address space that the segments can be loaded into. -/
theorem loading_start {d : Pgdir} (hs : Pool img enough (room PGSIZE) s)
    (hd : Layout img d fun _ => False) : Loading img enough d PGSIZE [] s := by
  have hup : pageUp PGSIZE.toNat = 4096 := by decide
  refine ⟨by decide, by decide, hd.congr fun m _ => ⟨False.elim, fun hm => ?_⟩, hs, nofun⟩
  unfold Program Range at hm
  omega

theorem exec_clean (hsound : Sound ip argv) {old : Pgdir} (hp : p.pgdir = some old)
    (hold : Freeable img old) (hs : Pool img enough (room PGSIZE + 13) s) :
    wp (exec img ip path argv p) (fun r _ => Clean p r) s := by
  have refused : Clean p ⟨p, -1, []⟩ := ⟨nofun, .inl ⟨rfl, rfl⟩⟩
  unfold exec
  split
  · exact wp.pure.mpr refused
  next elf helf =>
  split
  · exact wp.pure.mpr refused
  next hmagic =>
  refine wp.seq (setupkvm_wp hs) fun o t ho => ?_
  obtain ⟨ht, -, hd⟩ := ho
  cases o with
  | none => exact wp.pure.mpr refused
  | some d =>
    refine wp.seq (loadSegments_wp (loading_start ht (hd d rfl))
      (hsound elf helf (not_not.mp hmagic))) fun r t' hr => ?_
    rcases hr with ⟨hnone, hf, ht', hin⟩ | ⟨sz, hsome, hsz, hl⟩
    · rw [hnone]
      exact bad_clean hf ht' hin
    · rw [hsome]
      exact startImage_clean hl hsz hp hold

theorem sound_of_exec (he : enough) {old : Pgdir} (hp : p.pgdir = some old)
    (hold : Freeable img old) (hs : Pool img enough (room PGSIZE + 13) s)
    (hw : wp (exec img ip path argv p) (fun r _ => Clean p r) s) : Sound ip argv := by
  intro elf helf hmagic
  unfold exec at hw
  rw [helf] at hw
  dsimp only at hw
  rw [if_neg (not_not.mpr hmagic)] at hw
  obtain ⟨o, t, ⟨ht, hnone, hd⟩, hw⟩ := wp.of_bind hw (setupkvm_wp hs)
  cases o with
  | none => exact absurd he (hnone rfl)
  | some d =>
    refine sound_of_loadSegments he (loading_start ht (hd d rfl)) ((wp.bind.mp hw).mono ?_)
    intro r t' hrest
    split at hrest
    · next hr =>
      obtain ⟨o, -, -, hclean, hloads⟩ := hrest.ensures bad_loads
      refine ⟨hloads ▸ hclean.1, fun sz hsz => ?_⟩
      rw [hr] at hsz
      cases hsz
    · next sz hr =>
      obtain ⟨o, -, -, hclean, hloads⟩ := hrest.ensures startImage_loads
      refine ⟨hloads ▸ hclean.1, fun sz' hsz hl => ?_⟩
      obtain rfl := Option.some.inj (hr.symm.trans hsz)
      exact sound_of_startImage he hl hp hold hrest

/-- A process that calls `exec`, and the kernel it calls. -/
structure Caller where
  img : Image
  kmem : Kmem
  proc : Proc
  pgdir : Pgdir
  frames : ∀ v ∈ kmem.freelist, Frame img v
  nodup : kmem.freelist.Nodup
  own : proc.pgdir = some pgdir
  freeable : Freeable img pgdir

/-- Two hundred pages that no one else will take. -/
def ample : Kmem where
  mem := fun _ => 0
  freelist := (List.range 200).map fun n => BitVec.ofNat 32 (0x110000 + 4096 * n)
  grant := fun _ => true
  calls := 0

theorem ample_nodup : ample.freelist.Nodup := by
  refine List.Nodup.map_on (fun m hm n hn h => ?_) List.nodup_range
  have hm := List.mem_range.mp hm
  have hn := List.mem_range.mp hn
  have h := congrArg BitVec.toNat h
  rw [BitVec.toNat_ofNat, BitVec.toNat_ofNat] at h
  omega

theorem ample_frames : ∀ v ∈ ample.freelist, Frame smallImage v := by
  intro v hv
  obtain ⟨n, hn, rfl⟩ := List.mem_map.mp hv
  have hn := List.mem_range.mp hn
  have hnat : (BitVec.ofNat 32 (0x110000 + 4096 * n)).toNat = 0x110000 + 4096 * n := by
    rw [BitVec.toNat_ofNat]
    omega
  refine ⟨by omega, ?_, ?_, fun hz => ?_⟩
  · rw [BitVec.le_def, hnat]
    exact Nat.le_add_right ..
  · rw [BitVec.lt_def, hnat, toNat_PHYSTOP]
    omega
  · have hz : (BitVec.ofNat 32 (0x110000 + 4096 * n)).toNat = 0 := congrArg BitVec.toNat hz
    omega

theorem ample_pool : Pool smallImage True (room PGSIZE + 13) ample := by
  refine ⟨ample_frames, fun _ _ => rfl, fun _ => ?_⟩
  rw [ample, List.length_map, List.length_range]
  decide

def ampleCaller : Caller where
  img := smallImage
  kmem := ample
  proc := { smallMachine.table.proc 0 with pgdir := some ⟨0x300000, fun _ => none⟩ }
  pgdir := ⟨0x300000, fun _ => none⟩
  frames := ample_frames
  nodup := ample_nodup
  own := rfl
  freeable := ⟨⟨rfl, by decide, by decide, by decide⟩, nofun,
    fun va pte _ h => by simp [Pgdir.pte] at h⟩

/-- `exec` is clean for every caller, whatever `kalloc` finds, exactly if the
file and `argv` are sound. -/
theorem exec_clean_iff (ip : File) (argv : List Arg) :
    (∀ (c : Caller) (path : List Char),
      wp (exec c.img ip path argv c.proc) (fun r _ => Clean c.proc r) c.kmem) ↔ Sound ip argv := by
  constructor
  · intro h
    exact sound_of_exec trivial ampleCaller.own ampleCaller.freeable ample_pool (h ampleCaller [])
  · intro h c path
    have hs : Pool c.img False (room PGSIZE + 13) c.kmem := ⟨c.frames, nofun, nofun⟩
    exact exec_clean h c.own c.freeable hs

/-- An ELF header and one program header, of a segment without bytes whose
address is 1. -/
def unalignedFile : File where
  data := [0x7F, 0x45, 0x4C, 0x46] ++ List.replicate 24 0 ++ [52] ++ List.replicate 15 0 ++ [1] ++
    List.replicate 7 0 ++ [1] ++ List.replicate 7 0 ++ [1] ++ List.replicate 23 0
  size_le := by decide

theorem unaligned_not_clean :
    ¬ ∀ (c : Caller) (path : List Char),
      wp (exec c.img unalignedFile path [] c.proc) (fun r _ => Clean c.proc r) c.kmem := by
  intro h
  have hsound := sound_of_exec trivial ampleCaller.own ampleCaller.freeable ample_pool
    (h ampleCaller ['a'])
  have hone := hsound ⟨ELF_MAGIC, 0, 52, 1⟩ (by decide +kernel) rfl
  have hseg := (hone ⟨1, 0, 1, 0, 0⟩ (by decide +kernel)).2 rfl (by decide) (by decide)
  exact absurd hseg.1.aligned (by decide)

end PerrOS.Vm
