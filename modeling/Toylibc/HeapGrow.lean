import Toylibc.HeapRelease
import Toylibc.HeapSearch
import Toylibc.HeapTake

/-!
# Growing the heap

`brk_grow` writes one free block behind the heap and merges it with a free last block,
so the grown heap is well formed (`tiles_brkGrow`). But it returns the address of the
block it wrote, not of the fused one. `brk_alloc` then uses the returned address as a
header. This is sound exactly when nothing was fused (`brkAlloc_grow_iff`).
-/

namespace Toylibc

open ByteMemory BlockList

/-! ## The sizes asked for -/

theorem brkNeed_eq {sz : Nat} (h : sz < 2 ^ 63) : brkNeed sz = 16 + 16 * ((sz + 15) / 16) := by
  have hal : alignUp sz align = 16 * ((sz + 16 - 1) / 16) :=
    alignUp_eq (k := 4) (by decide) (by omega)
  rw [brkNeed, hal]
  exact wadd_eq (by unfold overhead; omega)

theorem mapLength_eq {sz : Nat} (h : sz < 2 ^ 63) :
    mapLength sz = 4096 * ((sz + 8 + 4095) / 4096) := by
  have hsum : wadd sz hdrSz = sz + 8 := wadd_hdrSz (by omega)
  rw [mapLength, hsum]
  exact alignUp_eq (k := 12) (by decide) (by omega)

theorem growSize_eq {need : Nat} (h : need + 4096 ≤ 2 ^ 64) :
    growSize need = 4096 * ((need + 4095) / 4096) :=
  alignUp_eq (k := 12) (by decide) h

theorem le_growSize {need : Nat} (h : need + 4096 ≤ 2 ^ 64) : need ≤ growSize need := by
  rw [growSize_eq h]; omega

theorem growSize_lt {need : Nat} (h : need + 4096 ≤ 2 ^ 64) : growSize need < need + 4096 := by
  rw [growSize_eq h]; omega

theorem page_dvd_growSize {need : Nat} (h : need + 4096 ≤ 2 ^ 64) : 4096 ∣ growSize need := by
  rw [growSize_eq h]; exact Nat.dvd_mul_right _ _

/-- The block that `brk_grow` adds for a request of `need` bytes. -/
def grownBlock (need : Nat) (hpos : 0 < need) (h : need + 4096 ≤ 2 ^ 64) (free : Bool) :
    HeapBlock where
  size := growSize need
  free := free
  unit_dvd := Nat.dvd_trans (by decide) (page_dvd_growSize h)
  least_le := by
    have hdvd := page_dvd_growSize h
    have hle := le_growSize h
    omega

@[simp] theorem size_grownBlock (need : Nat) (hpos : 0 < need) (h : need + 4096 ≤ 2 ^ 64)
    (free : Bool) : (grownBlock need hpos h free).size = growSize need := rfl

/-! ## `brk_grow` -/

/-- The tags of the new block, as `brk_grow` writes them before it merges. -/
def growTags (w : Heap) (sz : Nat) : Mem :=
  let prevFlag :=
    if w.heapLo < w.heapHi && isFree (load64 w.mem (wsub w.heapHi hdrSz)) then flagPrevFree else 0
  let m := store64 w.mem w.heapHi (sz ||| prevFlag)
  store64 m (wsub (wadd w.heapHi sz) hdrSz) sz

/-- `brk_grow` by the answer of the kernel. -/
theorem brkGrow_cases (K : Kernel) (w : Heap) (need newBrk : Nat)
    (hnew : wadd w.heapHi (growSize need) = newBrk) :
    (K.brk w.log newBrk ≠ newBrk ∧
      brkGrow K w need = (0, { w with log := .brk newBrk (K.brk w.log newBrk) :: w.log })) ∨
    (K.brk w.log newBrk = newBrk ∧ ∃ m', brkGrow K w need = (w.heapHi,
      ⟨m', w.heapLo, newBrk, w.heapOk, .brk newBrk newBrk :: w.log⟩)) := by
  by_cases hgrant : K.brk w.log newBrk = newBrk
  · refine .inr ⟨hgrant, merge (growTags w (growSize need)) newBrk w.heapHi, ?_⟩
    simp only [brkGrow, toylibcBrk, hnew, hgrant, ne_eq, not_true_eq_false, if_false, growTags]
  · refine .inl ⟨hgrant, ?_⟩
    simp only [brkGrow, toylibcBrk, hnew, hgrant, ne_eq, not_false_eq_true, if_true]

theorem mapsAfter_brkGrow (K : Kernel) (w : Heap) (need : Nat) :
    mapsAfter (brkGrow K w need).2.log = mapsAfter w.log := by
  rcases brkGrow_cases K w need _ rfl with ⟨-, heq⟩ | ⟨-, m', heq⟩
  · rw [heq, mapsAfter]
  · rw [heq, mapsAfter]

/-- A granted growth. -/
theorem brkGrow_granted {K : Kernel} {w : Heap} {need : Nat}
    (hroom : w.heapHi + need + 4096 ≤ 2 ^ 64)
    (hgrant : K.brk w.log (w.heapHi + growSize need) = w.heapHi + growSize need) :
    brkGrow K w need = (w.heapHi,
      { mem := merge (growTags w (growSize need)) (w.heapHi + growSize need) w.heapHi
        heapLo := w.heapLo
        heapHi := w.heapHi + growSize need
        heapOk := w.heapOk
        log := .brk (w.heapHi + growSize need) (w.heapHi + growSize need) :: w.log }) := by
  have hlt := growSize_lt (show need + 4096 ≤ 2 ^ 64 by omega)
  have hnew : wadd w.heapHi (growSize need) = w.heapHi + growSize need := wadd_eq (by omega)
  simp only [brkGrow, toylibcBrk, hnew, hgrant, ne_eq, not_true_eq_false, if_false, growTags]

/-- The extend path of `brk_alloc` when `brk` grants the new end. -/
theorem brkExtend_eq {K : Kernel} {w : Heap} {need : Nat} (hinit : 0 < w.heapHi)
    (hroom : w.heapHi + need + 4096 ≤ 2 ^ 64)
    (hgrant : K.brk w.log (w.heapHi + growSize need) = w.heapHi + growSize need) :
    brkExtend K w need = (w.heapHi + 8,
      { mem := brkTakeGrown
          (merge (growTags w (growSize need)) (w.heapHi + growSize need) w.heapHi)
          (w.heapHi + growSize need) w.heapHi
        heapLo := w.heapLo
        heapHi := w.heapHi + growSize need
        heapOk := w.heapOk
        log := .brk (w.heapHi + growSize need) (w.heapHi + growSize need) :: w.log }) := by
  have hptr : wadd w.heapHi hdrSz = w.heapHi + 8 := wadd_hdrSz (by omega)
  simp only [brkExtend, brkGrow_granted hroom hgrant, hptr]
  exact if_neg (Nat.ne_of_gt hinit)

/-- A refused growth writes nothing, and `brk_alloc` answers `NULL`. -/
theorem brkExtend_refused {K : Kernel} {w : Heap} {need : Nat}
    (hrefuse : K.brk w.log (wadd w.heapHi (growSize need)) ≠ wadd w.heapHi (growSize need)) :
    brkExtend K w need = (0, { w with
      log := .brk (wadd w.heapHi (growSize need))
        (K.brk w.log (wadd w.heapHi (growSize need))) :: w.log }) := by
  rcases brkGrow_cases K w need _ rfl with ⟨-, heq⟩ | ⟨hgrant, -⟩
  · rw [brkExtend, heq, if_pos rfl]
  · exact absurd hgrant hrefuse

/-- The last footer tells whether the last block is free. -/
theorem isFree_last_footer {m : Mem} {lo hi : Nat} {bs : List HeapBlock}
    (h : Tiles m false lo bs hi) (htop : hi < 2 ^ 64) :
    (decide (lo < hi) && isFree (load64 m (wsub hi hdrSz))) = lastFree false bs := by
  have hhi := h.hi_eq
  induction bs using List.reverseRecOn with
  | nil =>
    have : ¬lo < hi := by simp only [extent_nil] at hhi; omega
    simp [this, lastFree]
  | append_singleton bs p _ =>
    have hp : BlockAt m (lastFree false bs) (lo + extent bs) p := h.blockAt
    have hleast := p.least_le
    simp only [extent_append, extent_cons, extent_nil] at hhi
    have hftr : wsub hi hdrSz = lo + extent bs + p.size - 8 := by
      rw [wsub_eq htop (by unfold hdrSz; omega)]; unfold hdrSz; omega
    have hlt : lo < hi := by omega
    simp [hlt, hftr, hp.ftr_free]

theorem growTags_sameOutside {w : Heap} {sz : Nat} (hsz : 8 ≤ sz) (htop : w.heapHi + sz < 2 ^ 64) :
    SameOutside w.mem (growTags w sz) w.heapHi (w.heapHi + sz) := by
  have hftr : wsub (wadd w.heapHi sz) hdrSz = w.heapHi + sz - 8 := by
    rw [wadd_eq htop, wsub_eq htop (by unfold hdrSz; omega)]; rfl
  unfold growTags
  simp only [hftr]
  exact ((store64_sameOutside _ _ (by omega)).mono (Nat.le_refl _) (by omega)).trans
    ((store64_sameOutside _ _ (by omega)).mono (by omega) (by omega))

/-- The header of the new block, whatever stands before it. -/
theorem growTags_header {w : Heap} {sz : Nat} (hsz : 16 ≤ sz) (htop : w.heapHi + sz < 2 ^ 64) :
    load64 (growTags w sz) w.heapHi = (sz |||
      if w.heapLo < w.heapHi && isFree (load64 w.mem (wsub w.heapHi hdrSz)) then flagPrevFree
      else 0) % 2 ^ 64 := by
  have hftr : wsub (wadd w.heapHi sz) hdrSz = w.heapHi + sz - 8 := by
    rw [wadd_eq htop, wsub_eq htop (by unfold hdrSz; omega)]; rfl
  simp only [growTags, hftr]
  rw [load64_store64_ne _ _ (by omega) (by omega) (by omega), load64_store64_same _ _ (by omega)]

theorem getSz_growTags {w : Heap} {sz : Nat} (h8 : 8 ∣ sz) (hsz : 16 ≤ sz)
    (htop : w.heapHi + sz < 2 ^ 64) : getSz (load64 (growTags w sz) w.heapHi) = sz := by
  rw [growTags_header hsz htop, getSz_mod, getSz_or, getSz_of_dvd (by omega) h8]
  split
  · rw [getSz_flagPrevFree, Nat.or_zero]
  · rw [getSz_of_dvd (by decide) (Nat.dvd_zero 8), Nat.or_zero]

theorem prevFree_growTags {w : Heap} {sz : Nat} (h8 : 8 ∣ sz) (hsz : 16 ≤ sz)
    (htop : w.heapHi + sz < 2 ^ 64) : prevFree (load64 (growTags w sz) w.heapHi) =
      (w.heapLo < w.heapHi && isFree (load64 w.mem (wsub w.heapHi hdrSz))) := by
  rw [growTags_header hsz htop, prevFree_mod, prevFree_or, prevFree_of_dvd (by omega) h8]
  split
  · next hset => rw [hset, prevFree_flagPrevFree]; rfl
  · next hset => rw [Bool.not_eq_true _ |>.mp hset]; rfl

/-- Before the merge the new block stands behind the old ones, with accurate tags. -/
theorem tiles_growTags {w : Heap} {bs : List HeapBlock} {c : HeapBlock}
    (h : Tiles w.mem false w.heapLo bs w.heapHi) (hfree : c.free = true)
    (htop : w.heapHi + c.size < 2 ^ 64) :
    Tiles (growTags w c.size) false w.heapLo (bs ++ [c]) (w.heapHi + c.size) := by
  have hleast := c.least_le
  have h8 := HeapBlock.size_dvd_eight c
  have hlt : c.size < 2 ^ 64 := by omega
  have hhi := h.hi_eq
  have hsame := growTags_sameOutside (w := w) (show 8 ≤ c.size by omega) htop
  have hftr : wsub (wadd w.heapHi c.size) hdrSz = w.heapHi + c.size - 8 := by
    rw [wadd_eq htop, wsub_eq htop (by unfold hdrSz; omega)]; rfl
  have hflag := isFree_last_footer h (by omega)
  refine tiles_append.mpr ⟨?_, ?_, by rw [← hhi]; rfl⟩
  · rw [← hhi]
    exact h.frame hsame (by omega) (.inl (Nat.le_refl _))
  · rw [← hhi]
    refine blockAt_of_words (c.size ||| if lastFree false bs then flagPrevFree else 0) c.size
      ?_ ?_ ?_ ?_ ?_ (getSz_of_dvd hlt h8) (by rw [isFree_of_dvd hlt h8, hfree])
    · rw [growTags_header (by omega) htop, hflag]
    · simp only [growTags, hftr]
      rw [load64_store64_same _ _ (by omega)]
    · split <;> simp [getSz_of_dvd hlt h8]
    · split <;> simp [isFree_of_dvd hlt h8, hfree]
    · split <;> simp [prevFree_of_dvd hlt h8, *]

/-- A granted growth leaves a tiling: the new block, fused with a free last block. -/
theorem tiles_brkGrow {w : Heap} {bs : List HeapBlock} {c : HeapBlock}
    (h : Tiles w.mem false w.heapLo bs w.heapHi) (hfree : c.free = true)
    (htop : w.heapHi + c.size < 2 ^ 64) :
    Tiles (merge (growTags w c.size) (w.heapHi + c.size) w.heapHi) false w.heapLo (fuseLeft bs c)
      (w.heapHi + c.size) := by
  have hmerge := tiles_merge (tiles_growTags h hfree htop) (.inl rfl) htop
  rw [← h.hi_eq] at hmerge
  simpa [merged, fuseRight] using hmerge

/-- Behind a used last block, or on an empty heap, the merge does nothing. -/
theorem merge_growTags {w : Heap} {bs : List HeapBlock} {c : HeapBlock}
    (h : Tiles w.mem false w.heapLo bs w.heapHi) (hfree : c.free = true)
    (htop : w.heapHi + c.size < 2 ^ 64) (hlast : lastFree false bs = false) :
    merge (growTags w c.size) (w.heapHi + c.size) w.heapHi = growTags w c.size := by
  have htiles := tiles_growTags h hfree htop
  have hleast := c.least_le
  obtain ⟨hpre, hc, -⟩ := tiles_append.mp htiles
  rw [← h.hi_eq] at hpre hc
  have hback := back_eq hpre (by omega) hc.hdr_prev
  rw [merge_eq 0 hc.hdr_size hback (by simp) (by rw [freeBefore_of_lastFree_eq_false hlast]; omega)
    (by omega) (by omega), freeBefore_of_lastFree_eq_false hlast, if_pos rfl]

/-! ## Using the grown block -/

/-- The extend path of `brk_alloc` on a heap without a free last block. -/
theorem brkExtend_granted {K : Kernel} {w : Heap} {need : Nat} {bs : List HeapBlock}
    (h : Tiles w.mem false w.heapLo bs w.heapHi) (hinit : 0 < w.heapHi) (hpos : 0 < need)
    (hroom : w.heapHi + need + 4096 ≤ 2 ^ 64) (hlast : lastFree false bs = false)
    (hgrant : K.brk w.log (w.heapHi + growSize need) = w.heapHi + growSize need) :
    ∃ m', brkExtend K w need = (w.heapHi + 8,
        { mem := m'
          heapLo := w.heapLo
          heapHi := w.heapHi + growSize need
          heapOk := w.heapOk
          log := .brk (w.heapHi + growSize need) (w.heapHi + growSize need) :: w.log }) ∧
      Tiles m' false w.heapLo (bs ++ [grownBlock need hpos (by omega) false])
        (w.heapHi + growSize need) ∧
      SameOutside w.mem m' w.heapHi (w.heapHi + growSize need) := by
  have hroom' : need + 4096 ≤ 2 ^ 64 := by omega
  have hlt := growSize_lt hroom'
  have hge := le_growSize hroom'
  have hdvd := page_dvd_growSize hroom'
  have htop : w.heapHi + growSize need < 2 ^ 64 := by omega
  have hext := brkExtend_eq hinit hroom hgrant
  have htags : Tiles (growTags w (growSize need)) false w.heapLo
      (bs ++ [grownBlock need hpos hroom' true]) (w.heapHi + growSize need) :=
    tiles_growTags (c := grownBlock need hpos hroom' true) h rfl htop
  have hmerge : merge (growTags w (growSize need)) (w.heapHi + growSize need) w.heapHi =
      growTags w (growSize need) :=
    merge_growTags (c := grownBlock need hpos hroom' true) h rfl htop hlast
  have htaken := tiles_brkTakeGrown htags htop
  have hsz : getSz (load64 (growTags w (growSize need)) w.heapHi) = growSize need := by
    have := htags.blockAt.hdr_size
    rwa [← h.hi_eq] at this
  have hsame := brkTakeGrown_sameOutside hsz (by omega) (Nat.le_refl _)
    (fun hlt => absurd hlt (Nat.lt_irrefl _)) htop
  rw [← h.hi_eq] at htaken
  rw [hmerge] at hext
  exact ⟨_, hext, htaken, (growTags_sameOutside (by omega) htop).trans hsame⟩

end Toylibc
