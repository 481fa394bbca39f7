import Toylibc.HeapRelease

/-!
# What `toylibc_free` does to a well-formed heap

Freeing the block `b` should mark it free, fuse it with its free neighbours, and leave
every other block alone (`FreedExactly`). The code does so exactly when no block behind
`b` is in use (`free_exact_iff`). A used block right behind `b` is swallowed, because
`brk_release` clears its ALLOC bit before `merge` looks at it; a used block behind a
fused free neighbour loses its ALLOC bit to the mask in `merge`.
-/

namespace Toylibc

open ByteMemory BlockList

/-- Freeing `b` in the heap `w` with the blocks `pre`, `b`, `post` gave `w'`: well formed,
with `b` free and fused with its free neighbours, the other used blocks as they were. -/
structure FreedExactly (w w' : Heap) (pre : List HeapBlock) (b : HeapBlock)
    (post : List HeapBlock) : Prop where
  wellFormed : WellFormed w'.mem w'.heapLo w'.heapHi (merged pre (b.mark true) post)
  heapLo : w'.heapLo = w.heapLo
  heapHi : w'.heapHi = w.heapHi
  others : ∀ a c, (a, c) ∈ place w.heapLo (pre ++ b :: post) → c.free = false →
    a ≠ w.heapLo + extent pre →
    getSz (load64 w'.mem a) = c.size ∧ isFree (load64 w'.mem a) = false

/-- A used block behind the freed one is swallowed: the header of the fused block is too
large. -/
theorem brkRelease_swallows {m : Mem} {lo hi : Nat} {pre post : List HeapBlock} {b c : HeapBlock}
    (h : Tiles m false lo (pre ++ b :: c :: post) hi) (htop : hi < 2 ^ 64)
    (hused : c.free = false) :
    ¬Walk (brkRelease m hi (lo + extent pre + 8)) lo (merged pre (b.mark true) (c :: post)) hi := by
  have hhi := h.hi_eq
  have hb := b.least_le
  have hb8 := HeapBlock.size_dvd_eight b
  have hc := c.least_le
  have hc8 := HeapBlock.size_dvd_eight c
  have hpost16 := extent_dvd post
  have hle := freeBefore_le_extent pre
  simp only [extent_append, extent_cons] at hhi
  intro hwalk
  rw [brkRelease_eq_joined h htop] at hwalk
  obtain ⟨pre', e, hfuse, hsize, hext⟩ := fuseLeft_eq pre (b.mark true)
  have hmerged : merged pre (b.mark true) (c :: post) = pre' ++ e :: c :: post := by
    simp [merged, fuseRight, hused, hfuse]
  rw [hmerged] at hwalk
  have hat := hwalk.header.1
  have hpre8 : 8 ∣ freeBefore pre := by
    rcases lastFree_cases pre with hl | ⟨pre'', p, rfl, hp⟩
    · rw [freeBefore_of_lastFree_eq_false hl]
      exact Nat.dvd_zero 8
    · simpa [hp] using HeapBlock.size_dvd_eight p
  rw [show lo + extent pre' = lo + extent pre - freeBefore pre by omega,
    getSz_joined (Nat.dvd_add (Nat.dvd_add hpre8 hb8) hc8) (by omega) (by omega)
      (fun _ => by omega), hsize, Block.size_mark] at hat
  omega

/-- A used block behind a free neighbour loses its ALLOC bit. -/
theorem brkRelease_unmarks {m : Mem} {lo hi : Nat} {pre post : List HeapBlock} {b c e : HeapBlock}
    (h : Tiles m false lo (pre ++ b :: c :: e :: post) hi) (htop : hi < 2 ^ 64)
    (hfree : c.free = true) (hused : e.free = false) :
    ¬Walk (brkRelease m hi (lo + extent pre + 8)) lo (merged pre (b.mark true) (c :: e :: post))
      hi := by
  have hhi := h.hi_eq
  have hb := b.least_le
  have hc := c.least_le
  have he := e.least_le
  have hle := freeBefore_le_extent pre
  simp only [extent_append, extent_cons] at hhi
  intro hwalk
  rw [brkRelease_eq_joined h htop] at hwalk
  have hmerged : merged pre (b.mark true) (c :: e :: post) =
      fuseLeft pre ((b.mark true).fuse c) ++ e :: post := by
    simp [merged, fuseRight, hfree]
  rw [hmerged] at hwalk
  have hat := hwalk.header.2
  rw [extent_fuseLeft, Block.size_fuse, Block.size_mark, hused,
    show lo + (extent pre + (b.size + c.size)) =
      lo + extent pre - freeBefore pre + (freeBefore pre + b.size + c.size) by omega,
    isFree_joined_after (by omega) (by omega)] at hat
  cases hat

/-- A used block behind `b` does not survive the release of `b`. -/
theorem brkRelease_not_walk {m : Mem} {lo hi : Nat} {pre post : List HeapBlock} {b d : HeapBlock}
    (h : Tiles m false lo (pre ++ b :: post) hi) (hsep : Separated post) (htop : hi < 2 ^ 64)
    (hd : d ∈ post) (hused : d.free = false) :
    ¬Walk (brkRelease m hi (lo + extent pre + 8)) lo (merged pre (b.mark true) post) hi := by
  cases post with
  | nil => cases hd
  | cons c post =>
    cases hc : c.free with
    | false => exact brkRelease_swallows h htop hc
    | true =>
      cases post with
      | nil =>
        rw [List.mem_singleton.mp hd, hc] at hused
        cases hused
      | cons e post =>
        have he : e.free = false := by
          cases hefree : e.free with
          | false => rfl
          | true => exact absurd ⟨hc, hefree⟩ (separated_cons_cons.mp hsep).1
        exact brkRelease_unmarks h htop hc he

/-- On a well-formed heap `toylibc_free` is exact if and only if every block behind the
freed one is free. Whether the freed block is in use does not matter. -/
theorem free_exact_iff {w : Heap} {pre post : List HeapBlock} {b : HeapBlock}
    (hw : WellFormed w.mem w.heapLo w.heapHi (pre ++ b :: post)) (htop : w.heapHi < 2 ^ 64) :
    FreedExactly w (toylibcFree w (w.heapLo + extent pre + 8)) pre b post ↔
      ∀ c ∈ post, c.free = true := by
  have hhi := hw.tiles.hi_eq
  have hb := b.least_le
  simp only [extent_append, extent_cons] at hhi
  have hpost := hw.separated.behind
  rw [toylibcFree_brk (by omega) (by omega)]
  constructor
  · intro h
    by_contra hnot
    simp only [not_forall, Bool.not_eq_true] at hnot
    obtain ⟨d, hd, hd_used⟩ := hnot
    exact brkRelease_not_walk hw.tiles hpost htop hd hd_used h.wellFormed.tiles.walk
  · intro hfree
    have htiles := tiles_brkRelease hw.tiles (freeTail_of_all_free hpost hfree) htop
    refine ⟨⟨htiles, separated_merged hw.separated⟩, rfl, rfl, ?_⟩
    intro a c hc hc_used hne
    have hmem := mem_place_merged (b.mark true) hc rfl hc_used hne
    have hat := htiles.walk.header_of_mem hmem
    exact ⟨hat.1, by rw [hat.2, hc_used]⟩

/-! ## Two small heaps -/

/-- A block of 32 bytes. -/
def smallBlock (free : Bool) : HeapBlock := ⟨32, free, by decide, by decide⟩

/-- Memory with the given words. -/
def memOfWords (words : List (Nat × Nat)) : Mem :=
  words.foldl (fun m aw => store64 m aw.1 aw.2) ⟨fun _ => 0, []⟩

/-- Three blocks of 32 bytes at `4096`: free, used, free. -/
def heapUsedBetweenFree : Heap where
  mem := memOfWords [(4096, 32), (4120, 32), (4128, 32 + 1 + 2), (4152, 32 + 1), (4160, 32),
    (4184, 32)]
  heapLo := 4096
  heapHi := 4192
  heapOk := true
  log := []

/-- Two used blocks of 32 bytes at `4096`. -/
def heapTwoUsed : Heap where
  mem := memOfWords [(4096, 32 + 1), (4120, 32 + 1), (4128, 32 + 1), (4152, 32 + 1)]
  heapLo := 4096
  heapHi := 4160
  heapOk := true
  log := []

theorem heapUsedBetweenFree_wellFormed :
    WellFormed heapUsedBetweenFree.mem 4096 4192
      [smallBlock true, smallBlock false, smallBlock true] where
  tiles := by
    refine ⟨⟨?_, ?_, ?_, ?_, ?_⟩, ⟨?_, ?_, ?_, ?_, ?_⟩, ⟨?_, ?_, ?_, ?_, ?_⟩, rfl⟩ <;>
      decide +kernel
  separated := by simp [Separated, smallBlock]

theorem heapTwoUsed_wellFormed :
    WellFormed heapTwoUsed.mem 4096 4160 [smallBlock false, smallBlock false] where
  tiles := by
    refine ⟨⟨?_, ?_, ?_, ?_, ?_⟩, ⟨?_, ?_, ?_, ?_, ?_⟩, rfl⟩ <;> decide +kernel
  separated := by simp [Separated, smallBlock]

/-- A block between two free ones, with no used block behind it, is freed exactly. -/
theorem free_exact_between_free :
    FreedExactly heapUsedBetweenFree (toylibcFree heapUsedBetweenFree 4136) [smallBlock true]
      (smallBlock false) [smallBlock true] :=
  (@free_exact_iff heapUsedBetweenFree [smallBlock true] [smallBlock true] (smallBlock false)
    heapUsedBetweenFree_wellFormed (by decide)).mpr (by decide)

/-- Freeing the first of two used blocks swallows the second. -/
theorem free_swallows_next :
    WellFormed heapTwoUsed.mem heapTwoUsed.heapLo heapTwoUsed.heapHi
        ([] ++ smallBlock false :: [smallBlock false]) ∧
      ¬FreedExactly heapTwoUsed (toylibcFree heapTwoUsed 4104) [] (smallBlock false)
        [smallBlock false] := by
  refine ⟨heapTwoUsed_wellFormed, fun h => ?_⟩
  have hsize : getSz (load64 (toylibcFree heapTwoUsed 4104).mem 4096) = 32 :=
    h.wellFormed.tiles.1.hdr_size
  revert hsize
  decide +kernel

end Toylibc
