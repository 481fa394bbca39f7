import Toylibc.HeapGrow
import Toylibc.FreeExact

/-!
# Allocation by growing the heap

`GrowSound` is what the extend path of `brk_alloc` owes its caller: the returned block
is a used block of the walk, large enough and off the free blocks, and the older used
blocks are kept. It holds if and only if the last block was not free
(`brkAlloc_grow_iff`). Behind a free last block the returned header lies inside the
fused free block.
-/

namespace Toylibc

open ByteMemory BlockList

/-- The block that starts 8 bytes before `p` is a used block of the walk of `w'`, of at
least `need` bytes, apart from the free blocks. -/
def BlockLent (w' : Heap) (need p : Nat) : Prop :=
  ∃ (bs : List HeapBlock) (b : HeapBlock), Walk w'.mem w'.heapLo bs w'.heapHi ∧
    (p - 8, b) ∈ place w'.heapLo bs ∧ b.free = false ∧ need ≤ b.size ∧
    ∀ a c, (a, c) ∈ place w'.heapLo bs → c.free = true →
      Apart (p - 8) (p - 8 + b.size) a (a + c.size)

/-- The used blocks of `bs`, placed from `lo`, keep their size and their ALLOC bit in `m'`. -/
def UsedKept (m' : Mem) (lo : Nat) (bs : List HeapBlock) : Prop :=
  ∀ a c, (a, c) ∈ place lo bs → c.free = false →
    getSz (load64 m' a) = c.size ∧ isFree (load64 m' a) = false

/-- The address `block` is the header of a free block of the walk of `w'`. -/
def FreeHeader (w' : Heap) (block : Nat) : Prop :=
  ∃ (bs : List HeapBlock) (c : HeapBlock), Walk w'.mem w'.heapLo bs w'.heapHi ∧
    (block, c) ∈ place w'.heapLo bs ∧ c.free = true

/-- The extend path is sound on the heap `w` with the blocks `bs`. -/
def GrowSound (K : Kernel) (w : Heap) (bs : List HeapBlock) (need : Nat) : Prop :=
  (∃ p w', brkAlloc K w need = some (p, w') ∧ BlockLent w' need p ∧
    UsedKept w'.mem w.heapLo bs) ∧
  FreeHeader (brkGrow K w need).2 (brkGrow K w need).1

/-- Two blocks of a walk, one used and one free, are apart. -/
theorem apart_of_place {lo a a' : Nat} {b c : HeapBlock} {bs : List HeapBlock}
    (hb : (a, b) ∈ place lo bs) (hc : (a', c) ∈ place lo bs) (hne : b.free ≠ c.free) :
    Apart a (a + b.size) a' (a' + c.size) := by
  intro x hlo hhi hx
  rcases place_disjoint hb hc with ⟨-, rfl⟩ | hd | hd
  · exact hne rfl
  · omega
  · omega

/-- The used blocks of a tiling are kept when they stay where they are. -/
theorem usedKept_of_walk {m : Mem} {lo hi : Nat} {bs cs : List HeapBlock}
    (h : Walk m lo (bs ++ cs) hi) : UsedKept m lo bs := by
  intro a c hc hused
  have hmem : (a, c) ∈ place lo (bs ++ cs) := by
    rw [place_append]; exact List.mem_append_left _ hc
  have hat := h.header_of_mem hmem
  exact ⟨hat.1, hat.2.trans hused⟩

/-- A used block of the walk is lent out by the address behind its header. -/
theorem blockLent_of_place {w' : Heap} {need a : Nat} {bs : List HeapBlock} {b : HeapBlock}
    (hwalk : Walk w'.mem w'.heapLo bs w'.heapHi) (hb : (a, b) ∈ place w'.heapLo bs)
    (hused : b.free = false) (hneed : need ≤ b.size) : BlockLent w' need (a + 8) := by
  refine ⟨bs, b, hwalk, ?_, hused, hneed, ?_⟩
  · rwa [Nat.add_sub_cancel]
  · intro c d hd hfree
    rw [Nat.add_sub_cancel]
    exact apart_of_place hb hd (by simp [hused, hfree])

section Grow

variable {K : Kernel} {w : Heap} {need : Nat}

/-- The grown heap, before `brk_alloc` uses the new block. -/
theorem tiles_granted {bs : List HeapBlock} (h : Tiles w.mem false w.heapLo bs w.heapHi)
    (hpos : 0 < need) (hroom : w.heapHi + need + 4096 ≤ 2 ^ 64) :
    Tiles (merge (growTags w (growSize need)) (w.heapHi + growSize need) w.heapHi) false w.heapLo
      (fuseLeft bs (grownBlock need hpos (by omega) true)) (w.heapHi + growSize need) := by
  have hlt := growSize_lt (show need + 4096 ≤ 2 ^ 64 by omega)
  exact tiles_brkGrow (c := grownBlock need hpos (by omega) true) h rfl
    (by rw [size_grownBlock]; omega)

/-- Behind a used last block, or on an empty heap, the growth is sound. -/
theorem growSound_of_used {bs : List HeapBlock} (h : Tiles w.mem false w.heapLo bs w.heapHi)
    (hinit : 0 < w.heapHi) (hpos : 0 < need) (hroom : w.heapHi + need + 4096 ≤ 2 ^ 64)
    (hnofit : ∀ c ∈ bs, c.free = true → c.size < need)
    (hgrant : K.brk w.log (w.heapHi + growSize need) = w.heapHi + growSize need)
    (hlast : lastFree false bs = false) : GrowSound K w bs need := by
  have hroom' : need + 4096 ≤ 2 ^ 64 := by omega
  have hplaced : ∀ f, (w.heapHi, grownBlock need hpos hroom' f) ∈
      place w.heapLo (bs ++ [grownBlock need hpos hroom' f]) :=
    fun f => mem_place_iff.mpr ⟨bs, [], rfl, h.hi_eq⟩
  obtain ⟨m', hext, htiles, -⟩ := brkExtend_granted h hinit hpos hroom hlast hgrant
  constructor
  · have halloc := brkAlloc_of_noFit (K := K) (by decide) h.walk (by omega) hnofit
    rw [hext] at halloc
    exact ⟨_, _, halloc, blockLent_of_place htiles.walk (hplaced false) rfl (le_growSize hroom'),
      usedKept_of_walk htiles.walk⟩
  · have hgrown := tiles_granted h hpos hroom
    rw [fuseLeft_of_lastFree_eq_false hlast] at hgrown
    rw [brkGrow_granted hroom hgrant]
    dsimp only
    exact ⟨_, _, hgrown.walk, hplaced true, rfl⟩

/-- Behind a free last block `brk_grow` returns an address inside the fused block. -/
theorem not_freeHeader_of_free {bs : List HeapBlock} {p : HeapBlock}
    (h : Tiles w.mem false w.heapLo (bs ++ [p]) w.heapHi) (hp : p.free = true) (hpos : 0 < need)
    (hroom : w.heapHi + need + 4096 ≤ 2 ^ 64)
    (hgrant : K.brk w.log (w.heapHi + growSize need) = w.heapHi + growSize need) :
    ¬FreeHeader (brkGrow K w need).2 (brkGrow K w need).1 := by
  have hroom' : need + 4096 ≤ 2 ^ 64 := by omega
  have hge := le_growSize hroom'
  have hleast := p.least_le
  have hhi := h.hi_eq
  simp only [extent_append, extent_cons, extent_nil] at hhi
  have hgrown := tiles_granted h hpos hroom
  rw [fuseLeft_concat, if_pos hp] at hgrown
  have hfused : (w.heapLo + extent bs, p.fuse (grownBlock need hpos hroom' true)) ∈
      place w.heapLo (bs ++ [p.fuse (grownBlock need hpos hroom' true)]) :=
    mem_place_iff.mpr ⟨bs, [], rfl, rfl⟩
  rw [brkGrow_granted hroom hgrant]
  dsimp only
  rintro ⟨bs', c, hwalk, hc, -⟩
  -- the walk of the grown heap has no header at the old end
  rw [hwalk.unique (by decide) hgrown.walk] at hc
  have hc_least := c.least_le
  have hsize : (p.fuse (grownBlock need hpos hroom' true)).size = p.size + growSize need := rfl
  rcases place_disjoint hfused hc with ⟨heq, -⟩ | hd | hd <;> dsimp only at * <;> omega

/-- On a well-formed heap where nothing fits and the kernel grants the growth,
`brk_alloc` is sound if and only if the last block, if there is one, is in use. -/
theorem brkAlloc_grow_iff {bs : List HeapBlock}
    (hw : WellFormed w.mem w.heapLo w.heapHi bs) (hinit : 0 < w.heapHi) (hpos : 0 < need)
    (hroom : w.heapHi + need + 4096 ≤ 2 ^ 64)
    (hnofit : ∀ c ∈ bs, c.free = true → c.size < need)
    (hgrant : K.brk w.log (w.heapHi + growSize need) = w.heapHi + growSize need) :
    GrowSound K w bs need ↔ ∀ b ∈ bs.getLast?, b.free = false := by
  rcases lastFree_cases bs with hlast | ⟨bs', p, rfl, hp⟩
  · refine iff_of_true (growSound_of_used hw.tiles hinit hpos hroom hnofit hgrant hlast) ?_
    induction bs using List.reverseRecOn with
    | nil => simp
    | append_singleton bs p _ => simpa using hlast
  · refine iff_of_false (fun hsound => ?_) (by simp [hp])
    exact not_freeHeader_of_free hw.tiles hp hpos hroom hgrant hsound.2

end Grow

/-- A used and a free block of 32 bytes at `4096`. -/
def heapUsedFree : Heap where
  mem := memOfWords [(4096, 32 + 1), (4120, 32 + 1), (4128, 32), (4152, 32)]
  heapLo := 4096
  heapHi := 4160
  heapOk := true
  log := []

theorem heapUsedFree_wellFormed :
    WellFormed heapUsedFree.mem 4096 4160 [smallBlock false, smallBlock true] where
  tiles := by
    refine ⟨⟨?_, ?_, ?_, ?_, ?_⟩, ⟨?_, ?_, ?_, ?_, ?_⟩, rfl⟩ <;> decide +kernel
  separated := by simp [Separated, smallBlock]

/-- Two used blocks leave no room for 48 bytes; the heap grows by a page. -/
theorem brkAlloc_grow_behind_used :
    GrowSound smallKernel heapTwoUsed [smallBlock false, smallBlock false] 48 :=
  (brkAlloc_grow_iff heapTwoUsed_wellFormed (by decide) (by decide) (by decide) (by decide)
    (by decide +kernel)).mpr (by decide)

/-- The last block is free and too small for 48 bytes: `brk_grow` answers the old end of the
heap, which is inside the fused free block. -/
theorem brkAlloc_grow_behind_free :
    WellFormed heapUsedFree.mem 4096 4160 [smallBlock false, smallBlock true] ∧
      smallKernel.brk heapUsedFree.log (4160 + growSize 48) = 4160 + growSize 48 ∧
      ¬GrowSound smallKernel heapUsedFree [smallBlock false, smallBlock true] 48 := by
  refine ⟨heapUsedFree_wellFormed, by decide +kernel, fun hsound => ?_⟩
  exact @not_freeHeader_of_free smallKernel heapUsedFree 48 [smallBlock false] (smallBlock true)
    heapUsedFree_wellFormed.tiles rfl (by decide) (by decide) (by decide +kernel) hsound.2

end Toylibc
