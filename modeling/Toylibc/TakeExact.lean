import Toylibc.FreeExact
import Toylibc.HeapSearch
import Toylibc.HeapTake

/-!
# Allocation from the free list

On the list of blocks `brk_alloc` should do what `allot` does: the first free block that is
large enough is handed out, and what is left of it, if that can be a block, stays free
(`AllocRefines`). The code does so exactly when it does not split (`brkAlloc_refines_iff`). A
split sets PREV_FREE in the rest, although the block before it was just handed out.
-/

namespace Toylibc

open ByteMemory BlockList

/-- On the heap `w` with the blocks `bs`, `brk_alloc` serves the request `r` as `allot` does. -/
def AllocRefines (K : Kernel) (w : Heap) (bs : List HeapBlock) (r : HeapBlock) : Prop :=
  ∃ a b w', firstFit r.size w.heapLo bs = some (a, b) ∧
    brkAlloc K w r.size = some (a + 8, w') ∧ w'.heapLo = w.heapLo ∧ w'.heapHi = w.heapHi ∧
    WellFormed w'.mem w'.heapLo w'.heapHi (allot r bs)

section

variable {K : Kernel} {w : Heap} {bs : List HeapBlock} {a : Nat} {b : HeapBlock}

/-- A block that is used whole. -/
theorem allocRefines_of_whole {r : HeapBlock} (hw : WellFormed w.mem w.heapLo w.heapHi bs)
    (htop : w.heapHi < 2 ^ 64) (hfit : firstFit r.size w.heapLo bs = some (a, b))
    (hwhole : b.size < r.size + 32) : AllocRefines K w bs r := by
  have hcall := brkAlloc_of_fit (K := K) (by decide) hw.tiles.walk htop hfit
  have hsep := separated_allot hw.separated hfit
  obtain ⟨pre, post, rfl, rfl, hfree, hle, hpre⟩ := firstFit_eq_some hfit
  have hleast := b.least_le
  have hhi := hw.tiles.hi_eq
  simp only [extent_append, extent_cons] at hhi
  have htaken := tiles_brkTakeGrown hw.tiles htop
  have hrem : wsub (getSz (load64 w.mem (w.heapLo + extent pre))) r.size < overhead + align := by
    rw [hw.tiles.blockAt.hdr_size, wsub_eq (by omega) hle]
    unfold overhead align
    omega
  rw [brkTake_whole hrem, wadd_eq (by unfold hdrSz; omega)] at hcall
  refine ⟨_, b, _, hfit, hcall, rfl, rfl, ?_, hsep⟩
  rw [allot_append_cons hpre hfree hle, cut_of_lt hwhole, List.append_assoc, List.singleton_append]
  exact htaken

/-- After a split the rest is not as it should be. -/
theorem not_allocRefines_of_split {r : HeapBlock} (hw : WellFormed w.mem w.heapLo w.heapHi bs)
    (htop : w.heapHi < 2 ^ 64) (hfit : firstFit r.size w.heapLo bs = some (a, b))
    (hsplit : r.size + 32 ≤ b.size) : ¬AllocRefines K w bs r := by
  rintro ⟨a', b', w', hfit', hcall', -, -, hw'⟩
  have hcall := brkAlloc_of_fit (K := K) (by decide) hw.tiles.walk htop hfit
  rw [hfit] at hfit'
  cases hfit'
  rw [hcall, Option.some.injEq, Prod.mk.injEq] at hcall'
  obtain ⟨-, rfl⟩ := hcall'
  obtain ⟨pre, post, rfl, rfl, hfree, hle, hpre⟩ := firstFit_eq_some hfit
  have hhi := hw.tiles.hi_eq
  have hleast := r.least_le
  simp only [extent_append, extent_cons] at hhi
  have htags := splitTags_brkTake w.heapHi hw.tiles.blockAt.hdr_size r.unit_dvd hleast hsplit
    (by omega)
  have hcut : ∃ rest : HeapBlock, allot r (pre ++ b :: post) =
      (pre ++ [r.mark false]) ++ rest :: post := by
    rw [allot_append_cons hpre hfree hle, Block.cut, dif_pos hsplit]
    exact ⟨_, by rw [List.append_assoc, List.append_assoc]; rfl⟩
  obtain ⟨rest, hcut⟩ := hcut
  rw [hcut] at hw'
  -- the block before the rest is in use
  have hrest := hw'.tiles.blockAt.hdr_prev
  rw [lastFree_concat, extent_append, extent_cons, extent_nil, Block.size_mark, Nat.add_zero,
    ← Nat.add_assoc] at hrest
  dsimp only at hrest
  rw [htags.rest_prev] at hrest
  cases hrest

end

/-- On a well-formed heap, for a need that some free block satisfies, `brk_alloc` refines the
list of blocks if and only if the chosen block is not split. -/
theorem brkAlloc_refines_iff {K : Kernel} {w : Heap} {bs : List HeapBlock} {need : Nat}
    (hw : WellFormed w.mem w.heapLo w.heapHi bs) (htop : w.heapHi < 2 ^ 64) (hdvd : 16 ∣ need)
    (hleast : 32 ≤ need) (hsome : ∃ b ∈ bs, b.free = true ∧ need ≤ b.size) :
    AllocRefines K w bs ⟨need, false, hdvd, hleast⟩ ↔
      ∀ a b, firstFit need w.heapLo bs = some (a, b) → b.size < need + 32 := by
  obtain ⟨a, b, hfit⟩ := (firstFit_isSome_iff (a := w.heapLo)).mp hsome
  constructor
  · intro h a' b' hfit'
    by_contra hsplit
    exact not_allocRefines_of_split hw htop hfit' (show need + 32 ≤ b'.size by omega) h
  · intro h
    exact allocRefines_of_whole hw htop hfit (h a b hfit)

/-- The first of the free blocks fits exactly. -/
theorem brkAlloc_refines_exact_fit :
    AllocRefines smallKernel heapUsedBetweenFree
      [smallBlock true, smallBlock false, smallBlock true] ⟨32, false, by decide, by decide⟩ :=
  (brkAlloc_refines_iff (K := smallKernel) heapUsedBetweenFree_wellFormed (by decide)
    (show 16 ∣ 32 by decide) (by decide) ⟨smallBlock true, by simp, rfl, by decide⟩).mpr (by
      intro a b hfit
      obtain ⟨rfl, rfl⟩ := Prod.mk.inj (Option.some.inj hfit)
      decide)

/-- One free page, as after a first request for 4080 bytes that was freed again. -/
def heapOneFree : Heap where
  mem := memOfWords [(4096, 4096), (8184, 4096)]
  heapLo := 4096
  heapHi := 8192
  heapOk := true
  log := []

/-- For 32 bytes it is split, and the rest claims that a free block stands before it. -/
theorem brkAlloc_splits_inexactly :
    WellFormed heapOneFree.mem heapOneFree.heapLo heapOneFree.heapHi
        [⟨4096, true, by decide, by decide⟩] ∧
      ¬AllocRefines smallKernel heapOneFree [⟨4096, true, by decide, by decide⟩]
        ⟨32, false, by decide, by decide⟩ := by
  have hw : WellFormed heapOneFree.mem heapOneFree.heapLo heapOneFree.heapHi
      [⟨4096, true, by decide, by decide⟩] := by
    refine ⟨⟨⟨?_, ?_, ?_, ?_, ?_⟩, rfl⟩, by simp [Separated]⟩ <;> decide +kernel
  exact ⟨hw, not_allocRefines_of_split hw (by decide) (a := 4096)
    (b := ⟨4096, true, by decide, by decide⟩) rfl (by decide)⟩

end Toylibc
