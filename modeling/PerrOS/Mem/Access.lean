import PerrOS.Mem.Allocator
import PerrOS.Lib.Path

/-!
# Headers in memory

What the field accesses of a header read and write. Headers are 16-aligned,
so the fields of two headers never overlap.
-/

namespace PerrOS.Mem

open Lib (Memory Path)

theorem ptrAdd_ofNat (p k : Nat) : ptrAdd p k = (p + k) % 2 ^ 64 := by
  rw [ptrAdd, sizeT, ← Int.natCast_add]
  exact Int.toNat_natCast _

/-- The `next` field of the header at `a`. -/
abbrev nextAt (m : Memory) (a : Nat) : Nat := ptrAt m (a + 8)

/-- A header can stand at `a`. -/
structure State.Node (s : State) (a : Nat) : Prop where
  aligned : a % 16 = 0
  mapped : s.Mapped a 16
  addressable : a < 2 ^ 64

-- ---------------------------------------------------------------------------
-- Words
-- ---------------------------------------------------------------------------

theorem intAt_congr (h : ∀ b, a ≤ b → b < a + 4 → m' b = m b) : intAt m' a = intAt m a := by
  rw [intAt, intAt, Memory.read_congr h]

theorem ptrAt_congr (h : ∀ b, a ≤ b → b < a + 8 → m' b = m b) : ptrAt m' a = ptrAt m a :=
  Memory.read_congr h

theorem setInt_outside (h : b < a ∨ a + 4 ≤ b) : setInt m a v b = m b := Memory.write_outside h

theorem setPtr_outside (h : b < a ∨ a + 8 ≤ b) : setPtr m a p b = m b := Memory.write_outside h

theorem ptrAt_lt (m : Memory) (a : Nat) : ptrAt m a < 2 ^ 64 := Memory.read_lt m a 8

theorem intAt_setInt (hl : -2 ^ 31 ≤ v) (hu : v < 2 ^ 31) : intAt (setInt m a v) a = v := by
  have h : (v % 2 ^ 32).toNat < 256 ^ 4 := by omega
  rw [intAt, setInt, Memory.read_write_of_lt h, BitVec.toInt_ofNat', Int.bmod]
  split <;> omega

theorem ptrAt_setPtr (h : p < 2 ^ 64) : ptrAt (setPtr m a p) a = p :=
  Memory.read_write_of_lt h

theorem intAt_setInt_ne (ha : a % 16 = 0) (hb : b % 16 = 0) (hne : b ≠ a) :
    intAt (setInt m a v) b = intAt m b :=
  intAt_congr fun _ _ _ => setInt_outside (by omega)

theorem intAt_setPtr (ha : a % 16 = 0) (hb : b % 16 = 0) :
    intAt (setPtr m (a + 8) p) b = intAt m b :=
  intAt_congr fun _ _ _ => setPtr_outside (by omega)

theorem nextAt_setInt (ha : a % 16 = 0) (hb : b % 16 = 0) :
    nextAt (setInt m a v) b = nextAt m b :=
  ptrAt_congr fun _ _ _ => setInt_outside (by omega)

theorem nextAt_setPtr_ne (ha : a % 16 = 0) (hb : b % 16 = 0) (hne : b ≠ a) :
    nextAt (setPtr m (a + 8) p) b = nextAt m b :=
  ptrAt_congr fun _ _ _ => setPtr_outside (by omega)

-- ---------------------------------------------------------------------------
-- Accesses
-- ---------------------------------------------------------------------------

section
variable {s s' : State} {a : Nat}

theorem storeInt_eq (h : s.storeInt a v = some s') : s' = { s with mem := setInt s.mem a v } := by
  unfold State.storeInt at h
  split_ifs at h
  exact (Option.some.inj h).symm

theorem storePtr_eq (h : s.storePtr a v = some s') : s' = { s with mem := setPtr s.mem a v } := by
  unfold State.storePtr at h
  split_ifs at h
  exact (Option.some.inj h).symm

theorem storeInt_mapped (h : s.storeInt a v = some s') : s.Mapped a 4 := by
  unfold State.storeInt at h
  split_ifs at h with hm
  exact hm

theorem storePtr_mapped (h : s.storePtr a v = some s') : s.Mapped a 8 := by
  unfold State.storePtr at h
  split_ifs at h with hm
  exact hm

theorem State.Node.loadInt (h : s.Node a) : s.loadInt a = some (intAt s.mem a) := by
  have := h.mapped
  exact if_pos ⟨this.1, by have := this.2; omega⟩

theorem State.Node.loadNext (h : s.Node a) : s.loadPtr (a + 8) = some (nextAt s.mem a) := by
  have := h.mapped
  exact if_pos ⟨by have := this.1; omega, by have := this.2; omega⟩

theorem State.Node.storeInt (h : s.Node a) (v : Int) :
    s.storeInt a v = some { s with mem := setInt s.mem a v } := by
  have := h.mapped
  exact if_pos ⟨this.1, by have := this.2; omega⟩

theorem State.Node.storeNext (h : s.Node a) (p : Nat) :
    s.storePtr (a + 8) p = some { s with mem := setPtr s.mem (a + 8) p } := by
  have := h.mapped
  exact if_pos ⟨by have := this.1; omega, by have := this.2; omega⟩

/-- Being a node depends on the mapping alone. -/
theorem State.Node.of_map (h : s.Node a) (hs : s'.mapStart = s.mapStart)
    (hl : s'.mapLen = s.mapLen) : s'.Node a :=
  ⟨h.aligned, by rw [Mapped, hs, hl]; exact h.mapped, h.addressable⟩

end

-- ---------------------------------------------------------------------------
-- What an operation may change
-- ---------------------------------------------------------------------------

/-- Only the free list's registers and the headers at `N` may differ. -/
structure Edit (N : List Nat) (s s' : State) : Prop where
  rest : s' = { s with freeHead := s'.freeHead, nextPtr := s'.nextPtr, mem := s'.mem }
  bytes : ∀ x, (∀ a ∈ N, x < a ∨ a + 16 ≤ x) → s'.mem x = s.mem x

/-- Only the head of the list and the `next` fields at `N` may differ. -/
structure Relink (N : List Nat) (s s' : State) : Prop where
  rest : s' = { s with freeHead := s'.freeHead, mem := s'.mem }
  bytes : ∀ x, (∀ a ∈ N, x < a + 8 ∨ a + 16 ≤ x) → s'.mem x = s.mem x

section
variable {s s' s'' : State} {N N' : List Nat}

theorem Edit.refl (N : List Nat) (s : State) : Edit N s s := ⟨rfl, fun _ _ => rfl⟩

theorem Edit.trans (h : Edit N s s') (h' : Edit N s' s'') : Edit N s s'' := by
  refine ⟨?_, fun x hx => (h'.bytes x hx).trans (h.bytes x hx)⟩
  rw [h'.rest, h.rest]

theorem Edit.mono (h : Edit N s s') (hN : ∀ a ∈ N, a ∈ N') : Edit N' s s' :=
  ⟨h.rest, fun x hx => h.bytes x fun a ha => hx a (hN a ha)⟩

theorem Edit.node (h : Edit N s s') (ha : s.Node a) : s'.Node a := by
  rw [h.rest]
  exact ha.of_map rfl rfl

theorem Relink.edit (h : Relink N s s') : Edit N s s' := by
  refine ⟨?_, fun x hx => h.bytes x fun a ha => by have := hx a ha; omega⟩
  rw [h.rest]

theorem Relink.nextPtr (h : Relink N s s') : s'.nextPtr = s.nextPtr := by rw [h.rest]

theorem Relink.node (h : Relink N s s') (ha : s.Node a) : s'.Node a := h.edit.node ha

theorem Relink.intAt (h : Relink N s s') (hN : ∀ a ∈ N, s.Node a) (hb : b % 16 = 0) :
    intAt s'.mem b = intAt s.mem b :=
  intAt_congr fun x _ _ => h.bytes x fun a ha => by
    have := (hN a ha).aligned
    omega

theorem Relink.nextAt (h : Relink N s s') (hN : ∀ a ∈ N, s.Node a) (hb : b % 16 = 0)
    (hbN : b ∉ N) : nextAt s'.mem b = nextAt s.mem b :=
  ptrAt_congr fun x _ _ => h.bytes x fun a ha => by
    have := (hN a ha).aligned
    have : b ≠ a := fun he => hbN (he ▸ ha)
    omega

end

end PerrOS.Mem
