import Toylibc.Heap
import Toylibc.Lib.BlockList

/-!
# The layout of the brk heap

`Tiles` relates the words of the heap to a list of blocks: the headers lead from one
block to the next, every footer repeats the size and the ALLOC bit of its header, and
every PREV_FREE bit says whether the block before is free. `WellFormed` adds that no
two neighbours are both free. `Walk` is the part that the headers alone give.

The lemmas say how `Tiles` changes when a few words do: it is kept by changes outside
the region (`Tiles.frame`), a run of blocks can be replaced by another one
(`Tiles.patch`), and two words make a block (`blockAt_of_words`).
-/

namespace Toylibc

open ByteMemory BlockList

/-- A block of the brk heap: a multiple of 16 bytes, at least 32. -/
abbrev HeapBlock := Block 16 32

/-- The words of the block `b` at `a`, after a block that is free or not as `pf` says. -/
structure BlockAt (m : Mem) (pf : Bool) (a : Nat) (b : HeapBlock) : Prop where
  hdr_size : getSz (load64 m a) = b.size
  hdr_free : isFree (load64 m a) = b.free
  hdr_prev : prevFree (load64 m a) = pf
  ftr_size : getSz (load64 m (a + b.size - 8)) = b.size
  ftr_free : isFree (load64 m (a + b.size - 8)) = b.free

/-- The blocks `bs` fill `[a, hi)`, with accurate tags. -/
def Tiles (m : Mem) : Bool → Nat → List HeapBlock → Nat → Prop
  | _, a, [], hi => a = hi
  | pf, a, b :: bs, hi => BlockAt m pf a b ∧ Tiles m b.free (a + b.size) bs hi

/-- The walk from `a` by header sizes meets the blocks `bs` and lands on `hi`. -/
def Walk {least : Nat} (m : Mem) : Nat → List (Block 16 least) → Nat → Prop
  | a, [], hi => a = hi
  | a, b :: bs, hi =>
    getSz (load64 m a) = b.size ∧ isFree (load64 m a) = b.free ∧ Walk m (a + b.size) bs hi

/-- A well-formed brk heap `[lo, hi)` with the blocks `bs`. -/
structure WellFormed (m : Mem) (lo hi : Nat) (bs : List HeapBlock) : Prop where
  tiles : Tiles m false lo bs hi
  separated : Separated bs

/-! ## Words -/

theorem load64_store64_same (m : Mem) {a : Nat} (v : Nat) (h : a + 8 ≤ 2 ^ 64) :
    load64 (store64 m a v) a = v % 2 ^ 64 :=
  loadLE_storeLE_same m 8 a v h

theorem load64_store64_ne (m : Mem) {a b : Nat} (v : Nat) (ha : a + 8 ≤ 2 ^ 64)
    (hb : b + 8 ≤ 2 ^ 64) (h : a + 8 ≤ b ∨ b + 8 ≤ a) :
    load64 (store64 m a v) b = load64 m b :=
  loadLE_storeLE_of_disjoint m 8 a v 8 b ha hb h

/-- The word stored `d` bytes behind `a`, over the end of the memory or not. -/
theorem load64_store64_wrap (m : Mem) {a d : Nat} (v : Nat) (hd : 8 ≤ d) (htop : d + 8 ≤ 2 ^ 64) :
    load64 (store64 m ((a + d) % 2 ^ 64) v) a = load64 m a :=
  loadLE_storeLE_wrap m hd htop

theorem store64_sameOutside (m : Mem) {a : Nat} (v : Nat) (h : a + 8 ≤ 2 ^ 64) :
    SameOutside m (store64 m a v) a (a + 8) :=
  storeLE_sameOutside m 8 a v h

theorem load64_eq_of_sameOutside {m m' : Mem} {lo hi a : Nat} (h : SameOutside m m' lo hi)
    (ha : a + 8 ≤ 2 ^ 64) (hout : a + 8 ≤ lo ∨ hi ≤ a) : load64 m' a = load64 m a :=
  h.loadLE_eq ha hout

/-! ## Blocks -/

theorem HeapBlock.size_dvd_eight (b : HeapBlock) : 8 ∣ b.size :=
  Nat.dvd_trans (by decide) b.unit_dvd

/-- A block is made by its header and its footer. -/
theorem blockAt_of_words (hdrv ftrv : Nat) {m : Mem} {pf : Bool} {a : Nat} {b : HeapBlock}
    (hhdr : load64 m a = hdrv % 2 ^ 64) (hftr : load64 m (a + b.size - 8) = ftrv % 2 ^ 64)
    (hsize : getSz hdrv = b.size) (hfree : isFree hdrv = b.free) (hprev : prevFree hdrv = pf)
    (hfsize : getSz ftrv = b.size) (hffree : isFree ftrv = b.free) : BlockAt m pf a b where
  hdr_size := by rw [hhdr, getSz_mod, hsize]
  hdr_free := by rw [hhdr, isFree_mod, hfree]
  hdr_prev := by rw [hhdr, prevFree_mod, hprev]
  ftr_size := by rw [hftr, getSz_mod, hfsize]
  ftr_free := by rw [hftr, isFree_mod, hffree]

theorem BlockAt.frame {m m' : Mem} {pf : Bool} {a lo hi : Nat} {b : HeapBlock}
    (h : BlockAt m pf a b) (hsame : SameOutside m m' lo hi) (htop : a + b.size ≤ 2 ^ 64)
    (hout : a + b.size ≤ lo ∨ hi ≤ a) : BlockAt m' pf a b := by
  have hleast := b.least_le
  have hhdr : load64 m' a = load64 m a := load64_eq_of_sameOutside hsame (by omega) (by omega)
  have hftr : load64 m' (a + b.size - 8) = load64 m (a + b.size - 8) :=
    load64_eq_of_sameOutside hsame (by omega) (by omega)
  constructor
  · rw [hhdr, h.hdr_size]
  · rw [hhdr, h.hdr_free]
  · rw [hhdr, h.hdr_prev]
  · rw [hftr, h.ftr_size]
  · rw [hftr, h.ftr_free]

/-- A block keeps its place when only its header changes, and that only in the
PREV_FREE bit. -/
theorem BlockAt.relink {m m' : Mem} {pf pf' : Bool} {a lo hdrv : Nat} {b : HeapBlock}
    (h : BlockAt m pf a b) (hsame : SameOutside m m' lo (a + 8)) (htop : a + b.size ≤ 2 ^ 64)
    (hhdr : load64 m' a = hdrv % 2 ^ 64) (hsize : getSz hdrv = b.size)
    (hfree : isFree hdrv = b.free) (hprev : prevFree hdrv = pf') : BlockAt m' pf' a b := by
  have hleast := b.least_le
  have hftr : load64 m' (a + b.size - 8) = load64 m (a + b.size - 8) :=
    load64_eq_of_sameOutside hsame (by omega) (by omega)
  constructor
  · rw [hhdr, getSz_mod, hsize]
  · rw [hhdr, isFree_mod, hfree]
  · rw [hhdr, prevFree_mod, hprev]
  · rw [hftr, h.ftr_size]
  · rw [hftr, h.ftr_free]

/-! ## Tilings -/

theorem Tiles.hi_eq {m : Mem} {pf : Bool} {a hi : Nat} {bs : List HeapBlock}
    (h : Tiles m pf a bs hi) : hi = a + extent bs := by
  induction bs generalizing pf a with
  | nil => exact Eq.symm h
  | cons b bs ih =>
    have := ih h.2
    simp only [extent_cons]; omega

theorem tiles_append {m : Mem} {pf : Bool} {a hi : Nat} {bs cs : List HeapBlock} :
    Tiles m pf a (bs ++ cs) hi ↔
      Tiles m pf a bs (a + extent bs) ∧ Tiles m (lastFree pf bs) (a + extent bs) cs hi := by
  induction bs generalizing pf a with
  | nil => simp [Tiles, lastFree]
  | cons b bs ih =>
    simp only [List.cons_append, Tiles, lastFree, extent_cons, ih, Nat.add_assoc, and_assoc]

/-- The block after `pre` is where it should be. -/
theorem Tiles.blockAt {m : Mem} {pf : Bool} {a hi : Nat} {pre post : List HeapBlock}
    {b : HeapBlock} (h : Tiles m pf a (pre ++ b :: post) hi) :
    BlockAt m (lastFree pf pre) (a + extent pre) b :=
  (tiles_append.mp h).2.1

/-- Changes outside the region keep the tiling. -/
theorem Tiles.frame {m m' : Mem} {pf : Bool} {a hi lo' hi' : Nat} {bs : List HeapBlock}
    (h : Tiles m pf a bs hi) (hsame : SameOutside m m' lo' hi') (htop : hi ≤ 2 ^ 64)
    (hout : hi ≤ lo' ∨ hi' ≤ a) : Tiles m' pf a bs hi := by
  induction bs generalizing pf a with
  | nil => exact h
  | cons b bs ih =>
    have hhi := h.2.hi_eq
    exact ⟨h.1.frame hsame (by omega) (by omega), ih h.2 (by omega)⟩

/-- Changes inside the payload of one block keep the tiling. -/
theorem Tiles.payload {m m' : Mem} {pf : Bool} {a hi x y : Nat} {pre post : List HeapBlock}
    {b : HeapBlock} (h : Tiles m pf a (pre ++ b :: post) hi) (hsame : SameOutside m m' x y)
    (hx : a + extent pre + 8 ≤ x) (hy : y + 8 ≤ a + extent pre + b.size) (htop : hi ≤ 2 ^ 64) :
    Tiles m' pf a (pre ++ b :: post) hi := by
  obtain ⟨hpre, hb, hpost⟩ := tiles_append.mp h
  have hleast := b.least_le
  have hhi := hpost.hi_eq
  have hhdr : load64 m' (a + extent pre) = load64 m (a + extent pre) :=
    load64_eq_of_sameOutside hsame (by omega) (by omega)
  have hftr : load64 m' (a + extent pre + b.size - 8) = load64 m (a + extent pre + b.size - 8) :=
    load64_eq_of_sameOutside hsame (by omega) (by omega)
  refine tiles_append.mpr ⟨hpre.frame hsame (by omega) (by omega), ?_,
    hpost.frame hsame htop (by omega)⟩
  constructor
  · rw [hhdr, hb.hdr_size]
  · rw [hhdr, hb.hdr_free]
  · rw [hhdr, hb.hdr_prev]
  · rw [hftr, hb.ftr_size]
  · rw [hftr, hb.ftr_free]

/-- Replace the blocks `mid` at the end of the heap by `mid'`. -/
theorem Tiles.patch_end {m m' : Mem} {a hi hi' : Nat} {pf : Bool}
    {pre mid mid' : List HeapBlock} (h : Tiles m pf a (pre ++ mid) hi)
    (hsame : SameOutside m m' (a + extent pre) hi') (htop : hi ≤ 2 ^ 64)
    (hmid : Tiles m' (lastFree pf pre) (a + extent pre) mid' hi') :
    Tiles m' pf a (pre ++ mid') hi' := by
  obtain ⟨hpre, hold⟩ := tiles_append.mp h
  have hhi := hold.hi_eq
  exact tiles_append.mpr ⟨hpre.frame hsame (by omega) (.inl (Nat.le_refl _)), hmid⟩

/-- The headers of a tiling. -/
theorem Tiles.walk {m : Mem} {pf : Bool} {a hi : Nat} {bs : List HeapBlock}
    (h : Tiles m pf a bs hi) : Walk m a bs hi := by
  induction bs generalizing pf a with
  | nil => exact h
  | cons b bs ih => exact ⟨h.1.hdr_size, h.1.hdr_free, ih h.2⟩

/-! ## The walk -/

theorem Walk.hi_eq {least : Nat} {m : Mem} {a hi : Nat} {bs : List (Block 16 least)}
    (h : Walk m a bs hi) : hi = a + extent bs := by
  induction bs generalizing a with
  | nil => exact Eq.symm h
  | cons b bs ih =>
    have := ih h.2.2
    simp only [extent_cons]; omega

theorem walk_append {least : Nat} {m : Mem} {a hi : Nat} {bs cs : List (Block 16 least)} :
    Walk m a (bs ++ cs) hi ↔ Walk m a bs (a + extent bs) ∧ Walk m (a + extent bs) cs hi := by
  induction bs generalizing a with
  | nil => simp [Walk]
  | cons b bs ih =>
    simp only [List.cons_append, Walk, extent_cons, ih, Nat.add_assoc, and_assoc]

/-- The header that the walk meets after `pre`. -/
theorem Walk.header {least : Nat} {m : Mem} {a hi : Nat} {pre post : List (Block 16 least)}
    {b : Block 16 least} (h : Walk m a (pre ++ b :: post) hi) :
    getSz (load64 m (a + extent pre)) = b.size ∧ isFree (load64 m (a + extent pre)) = b.free :=
  ⟨(walk_append.mp h).2.1, (walk_append.mp h).2.2.1⟩

/-- The headers determine the blocks. -/
theorem Walk.unique {least : Nat} (hleast : 0 < least) {m : Mem} {a hi : Nat}
    {bs cs : List (Block 16 least)} (h : Walk m a bs hi) (h' : Walk m a cs hi) : bs = cs := by
  induction bs generalizing a cs with
  | nil =>
    cases cs with
    | nil => rfl
    | cons c cs =>
      have hc := c.least_le
      have := h'.hi_eq
      have : a = hi := h
      simp only [extent_cons] at *
      omega
  | cons b bs ih =>
    cases cs with
    | nil =>
      have hb := b.least_le
      have := h.hi_eq
      have : a = hi := h'
      simp only [extent_cons] at *
      omega
    | cons c cs =>
      have hsize : b.size = c.size := h.1.symm.trans h'.1
      have hfree : b.free = c.free := h.2.1.symm.trans h'.2.1
      have hbc : b = c := by
        cases b; cases c
        simp only at hsize hfree
        subst hsize hfree
        rfl
      subst hbc
      rw [ih h.2.2 h'.2.2]

theorem Walk.header_of_mem {least : Nat} {m : Mem} {lo hi a : Nat} {bs : List (Block 16 least)}
    {c : Block 16 least} (h : Walk m lo bs hi) (hc : (a, c) ∈ place lo bs) :
    getSz (load64 m a) = c.size ∧ isFree (load64 m a) = c.free := by
  obtain ⟨pre, post, rfl, rfl⟩ := mem_place_iff.mp hc
  exact h.header

end Toylibc
