import Toylibc.HeapLayout

/-!
# Releasing a block

`merge` reads the sizes of the free neighbours and then writes the tags of one block
(`merge_eq`, `joined`). `brk_release` marks the block free first (`markFreed`). On a
tiling whose blocks behind the released one are all free this gives the tiling with
the block fused into its free neighbours (`tiles_brkRelease`).
-/

namespace Toylibc

open ByteMemory BlockList

/-! ## The words that `merge` writes -/

/-- The stores of `merge` for the fused block `[s, s + t)`. -/
def joined (m : Mem) (heapHi s t : Nat) : Mem :=
  let m := store64 m s (t ||| (load64 m s &&& flagPrevFree))
  let m := store64 m (s + t - 8) t
  if s + t < heapHi then store64 m (s + t) ((load64 m (s + t) &&& wnot 0x7) ||| flagPrevFree)
  else m

/-- The stores of `brk_release` before it calls `merge`. -/
def markFreed (m : Mem) (heapHi hdr : Nat) : Mem :=
  let hdrv := load64 m hdr
  let blksz := getSz hdrv
  let m := store64 m hdr (blksz ||| (hdrv &&& flagPrevFree))
  let m := store64 m (wsub (wadd hdr blksz) hdrSz) blksz
  let next := wadd hdr blksz
  if next < heapHi then store64 m next ((load64 m next &&& wnot 0x7) ||| flagPrevFree) else m

theorem brkRelease_eq (m : Mem) (heapHi ptr : Nat) :
    brkRelease m heapHi ptr = merge (markFreed m heapHi (wsub ptr hdrSz)) heapHi (wsub ptr hdrSz) :=
  rfl

/-- What `merge` does, by the size `back` of the free block before and the size `front`
of the free block after, `0` where there is none. -/
theorem merge_eq (front : Nat) {m : Mem} {hi a n back : Nat} (hsz : getSz (load64 m a) = n)
    (hback : (if prevFree (load64 m a) then getSz (load64 m (wsub a hdrSz)) else 0) = back)
    (hfront : (if a + n < hi ∧ isFree (load64 m (a + n)) = true then getSz (load64 m (a + n))
      else 0) = front)
    (hle : back ≤ a) (htop : a + n + front < 2 ^ 64) (hleast : 8 ≤ n) :
    merge m hi a = if back + front = 0 then m else joined m hi (a - back) (back + n + front) := by
  have hnext : wadd a n = a + n := wadd_eq (by omega)
  have hstart : (if prevFree (load64 m a) then wsub a (getSz (load64 m (wsub a hdrSz))) else a) =
      a - back := by
    subst hback
    split
    · exact wsub_eq (by omega) (by simpa [*] using hle)
    · rfl
  have htotal : (if prevFree (load64 m a) then wadd n (getSz (load64 m (wsub a hdrSz))) else n) =
      back + n := by
    subst hback
    split
    · next h =>
      simp only [h, if_true] at hle
      rw [wadd_eq (by omega), Nat.add_comm]
    · omega
  have hsum : (if a + n < hi && isFree (load64 m (a + n)) then
      wadd (back + n) (getSz (load64 m (a + n))) else back + n) = back + n + front := by
    subst hfront
    simp only [Bool.and_eq_true, decide_eq_true_eq]
    split
    · next h =>
      simp only [h, and_self, if_true] at htop
      exact wadd_eq (by omega)
    · rfl
  have hend : wadd (a - back) (back + n + front) = a + n + front := by
    rw [wadd_eq (by omega)]; omega
  have hftr : wsub (a + n + front) hdrSz = a + n + front - 8 :=
    wsub_eq (by omega) (by unfold hdrSz; omega)
  have horig : (if a - back ≠ a then load64 m (a - back) &&& flagPrevFree
      else load64 m a &&& flagPrevFree) = load64 m (a - back) &&& flagPrevFree := by
    split
    · rfl
    · next h => rw [not_not.mp h]
  have hchanged : back + n + front ≠ n ↔ ¬(back + front = 0) := by omega
  have hfuse : a - back + (back + n + front) = a + n + front := by omega
  unfold merge joined
  simp only [hsz, hnext, hstart, htotal, hsum, hend, hftr, horig, hchanged, hfuse, ite_not]

/-- The size of the free block before `a`, as `merge` reads it, on accurate tags. -/
theorem back_eq {m : Mem} {lo a : Nat} {pre : List HeapBlock} (hpre : Tiles m false lo pre a)
    (ha : a < 2 ^ 64) (hprev : prevFree (load64 m a) = lastFree false pre) :
    (if prevFree (load64 m a) then getSz (load64 m (wsub a hdrSz)) else 0) = freeBefore pre := by
  rcases lastFree_cases pre with h | ⟨pre', p, rfl, hp⟩
  · rw [hprev, h, freeBefore_of_lastFree_eq_false h]; rfl
  · have hp_at : BlockAt m (lastFree false pre') (lo + extent pre') p := hpre.blockAt
    have hhi := hpre.hi_eq
    have hleast := p.least_le
    simp only [extent_append, extent_cons, extent_nil] at hhi
    have hftr : wsub a hdrSz = lo + extent pre' + p.size - 8 := by
      rw [wsub_eq ha (by unfold hdrSz; omega)]; unfold hdrSz; omega
    simp [hprev, hp, hftr, hp_at.ftr_size]

/-! ## One block over a run of blocks at the end of the heap -/

theorem joined_sameOutside {m : Mem} {hi s t : Nat} (hend : hi ≤ s + t) (htop : s + t ≤ 2 ^ 64)
    (hleast : 8 ≤ t) : SameOutside m (joined m hi s t) s (s + t) := by
  have hhdr := store64_sameOutside m (a := s) (t ||| (load64 m s &&& flagPrevFree)) (by omega)
  have hftr := store64_sameOutside (store64 m s (t ||| (load64 m s &&& flagPrevFree)))
    (a := s + t - 8) t (by omega)
  unfold joined
  rw [if_neg (by omega)]
  exact (hhdr.mono (Nat.le_refl _) (by omega)).trans (hftr.mono (by omega) (by omega))

/-- Writing the tags of one free block over the blocks `mid` that end the heap. -/
theorem tiles_joined (mid : List HeapBlock) {m : Mem} {pf : Bool} {lo hi : Nat}
    {pre : List HeapBlock} {c : HeapBlock} (h : Tiles m pf lo (pre ++ mid) hi) (hmid : mid ≠ [])
    (hfree : c.free = true)
    (hsize : c.size = extent mid) (htop : hi < 2 ^ 64) :
    Tiles (joined m hi (lo + extent pre) c.size) pf lo (pre ++ [c]) hi := by
  have hleast := c.least_le
  have h8 := HeapBlock.size_dvd_eight c
  have hhi := h.hi_eq
  rw [extent_append] at hhi
  have hend : lo + extent pre + c.size = hi := by omega
  have hsame : SameOutside m (joined m hi (lo + extent pre) c.size) (lo + extent pre) hi :=
    (joined_sameOutside (by omega) (by omega) (by omega)).mono (Nat.le_refl _) (by omega)
  have hprev : prevFree (load64 m (lo + extent pre)) = lastFree pf pre := by
    cases mid with
    | nil => exact absurd rfl hmid
    | cons b mid => exact h.blockAt.hdr_prev
  refine h.patch_end hsame (by omega) ⟨?_, hend⟩
  have hne : ¬(lo + extent pre + c.size < hi) := by omega
  refine blockAt_of_words (c.size ||| (load64 m (lo + extent pre) &&& flagPrevFree)) c.size
    ?_ ?_ ?_ ?_ ?_ (getSz_of_dvd (by omega) h8) ?_
  · simp only [joined, hne, if_false]
    rw [load64_store64_ne _ _ (by omega) (by omega) (by omega), load64_store64_same _ _ (by omega)]
  · simp only [joined, hne, if_false]
    rw [load64_store64_same _ _ (by omega)]
  · simp [getSz_of_dvd (show c.size < 2 ^ 64 by omega) h8]
  · simp [isFree_of_dvd (show c.size < 2 ^ 64 by omega) h8, hfree]
  · simp [prevFree_of_dvd (show c.size < 2 ^ 64 by omega) h8, hprev]
  · rw [isFree_of_dvd (by omega) h8, hfree]

/-! ## `merge` at the end of the heap -/

/-- The blocks behind a block of the heap: none, or one free block. -/
def FreeTail (post : List HeapBlock) : Prop := post = [] ∨ ∃ c, post = [c] ∧ c.free = true

/-- A separated list of free blocks has at most one of them. -/
theorem freeTail_of_all_free {post : List HeapBlock} (hsep : Separated post)
    (hfree : ∀ c ∈ post, c.free = true) : FreeTail post := by
  cases post with
  | nil => exact .inl rfl
  | cons c post =>
    cases post with
    | nil => exact .inr ⟨c, rfl, hfree c (by simp)⟩
    | cons d post =>
      exact absurd ⟨hfree c (by simp), hfree d (by simp)⟩ (separated_cons_cons.mp hsep).1

/-- What `merge` does to a block behind which only free blocks lie. -/
theorem merge_tail {m : Mem} {lo hi : Nat} {pre post : List HeapBlock} {b : HeapBlock}
    (h : Tiles m false lo (pre ++ b :: post) hi) (hpost : FreeTail post) (htop : hi < 2 ^ 64) :
    merge m hi (lo + extent pre) = if freeBefore pre + extent post = 0 then m
      else joined m hi (lo + extent pre - freeBefore pre)
        (freeBefore pre + b.size + extent post) := by
  obtain ⟨hpre, hb, hrest⟩ := tiles_append.mp h
  have hleast := b.least_le
  have hhi := hrest.hi_eq
  have hback := back_eq hpre (by omega) hb.hdr_prev
  have hle := freeBefore_le_extent pre
  refine merge_eq (extent post) hb.hdr_size hback ?_ (by omega) (by omega) (by omega)
  rcases hpost with rfl | ⟨c, rfl, hc⟩
  · have hlast : ¬(lo + extent pre + b.size < hi) := by simp only [extent_nil] at hhi; omega
    simp [hlast]
  · have hsz := c.least_le
    simp only [extent_cons, extent_nil] at hhi
    have hfront : lo + extent pre + b.size < hi := by omega
    simp [hfront, hrest.1.hdr_free, hc, hrest.1.hdr_size]

/-- `merge` on a block behind which only free blocks lie. -/
theorem tiles_merge {m : Mem} {lo hi : Nat} {pre post : List HeapBlock} {b : HeapBlock}
    (h : Tiles m false lo (pre ++ b :: post) hi) (hpost : FreeTail post) (htop : hi < 2 ^ 64) :
    Tiles (merge m hi (lo + extent pre)) false lo (merged pre b post) hi := by
  have hne : ∀ c : HeapBlock, c.size ≠ 0 := fun c hc => by have := c.least_le; omega
  rw [merge_tail h hpost htop]
  rcases hpost with rfl | ⟨c, rfl, hc⟩
  · rcases lastFree_cases pre with hl | ⟨pre', p, rfl, hp⟩
    · simpa [merged, fuseRight, fuseLeft_of_lastFree_eq_false hl,
        freeBefore_of_lastFree_eq_false hl] using h
    · have hfused := tiles_joined [p, b] (c := p.fuse b) (by simpa using h) (by simp) rfl
        (by simp) htop
      simpa [merged, fuseRight, hp, hne, Nat.add_sub_cancel, ← Nat.add_assoc] using hfused
  · rcases lastFree_cases pre with hl | ⟨pre', p, rfl, hp⟩
    · have hfused := tiles_joined [b, c] (c := b.fuse c) (by simpa using h) (by simp) rfl
        (by simp) htop
      simpa [merged, fuseRight, hc, hne, fuseLeft_of_lastFree_eq_false hl,
        freeBefore_of_lastFree_eq_false hl] using hfused
    · have hfused := tiles_joined [p, b, c] (c := p.fuse (b.fuse c)) (by simpa using h)
        (by simp) rfl (by simp) htop
      simpa [merged, fuseRight, hc, hp, hne, Nat.add_sub_cancel, ← Nat.add_assoc] using hfused

theorem merge_sameOutside {m : Mem} {lo hi : Nat} {pre post : List HeapBlock} {b : HeapBlock}
    (h : Tiles m false lo (pre ++ b :: post) hi) (hpost : FreeTail post) (htop : hi < 2 ^ 64) :
    SameOutside m (merge m hi (lo + extent pre)) (lo + extent pre - freeBefore pre) hi := by
  have hleast := b.least_le
  have hle := freeBefore_le_extent pre
  have hhi := h.hi_eq
  simp only [extent_append, extent_cons] at hhi
  rw [merge_tail h hpost htop]
  split
  · exact SameOutside.refl _ _ _
  · exact (joined_sameOutside (by omega) (by omega) (by omega)).mono (Nat.le_refl _) (by omega)

/-! ## Marking the block free -/

/-- The header and footer that `brk_release` writes for a block of `n` bytes. -/
def freedTags (m : Mem) (a n : Nat) : Mem :=
  store64 (store64 m a (n ||| (load64 m a &&& flagPrevFree))) (a + n - 8) n

theorem markFreed_eq {m : Mem} {hi a n : Nat} (hsz : getSz (load64 m a) = n) (hleast : 8 ≤ n)
    (htop : a + n < 2 ^ 64) :
    markFreed m hi a = if a + n < hi then
      store64 (freedTags m a n) (a + n)
        ((load64 (freedTags m a n) (a + n) &&& wnot 0x7) ||| flagPrevFree)
      else freedTags m a n := by
  have hnext : wadd a n = a + n := wadd_eq htop
  have hftr : wsub (a + n) hdrSz = a + n - 8 := wsub_eq htop (by unfold hdrSz; omega)
  unfold markFreed freedTags
  simp only [hsz, hnext, hftr]

theorem freedTags_sameOutside {m : Mem} {a n : Nat} (htop : a + n ≤ 2 ^ 64) (hleast : 8 ≤ n) :
    SameOutside m (freedTags m a n) a (a + n) := by
  have hhdr := store64_sameOutside m (a := a) (n ||| (load64 m a &&& flagPrevFree)) (by omega)
  have hftr := store64_sameOutside (store64 m a (n ||| (load64 m a &&& flagPrevFree)))
    (a := a + n - 8) n (by omega)
  exact (hhdr.mono (Nat.le_refl _) (by omega)).trans (hftr.mono (by omega) (by omega))

theorem blockAt_freedTags {m : Mem} {pf : Bool} {a : Nat} {b : HeapBlock} (h : BlockAt m pf a b)
    (htop : a + b.size < 2 ^ 64) : BlockAt (freedTags m a b.size) pf a (b.mark true) := by
  have hleast := b.least_le
  have h8 := HeapBlock.size_dvd_eight b
  have hlt : b.size < 2 ^ 64 := by omega
  refine blockAt_of_words (b.size ||| (load64 m a &&& flagPrevFree)) b.size
    ?_ ?_ ?_ ?_ ?_ (getSz_of_dvd hlt h8) (isFree_of_dvd hlt h8)
  · rw [freedTags, load64_store64_ne _ _ (by omega) (by omega) (by omega),
      load64_store64_same _ _ (by omega)]
  · rw [freedTags, Block.size_mark, load64_store64_same _ _ (by omega)]
  · simp [getSz_of_dvd hlt h8]
  · simp [isFree_of_dvd hlt h8]
  · simp [prevFree_of_dvd hlt h8, h.hdr_prev]

theorem markFreed_sameOutside (hi : Nat) {m : Mem} {a n : Nat} (hsz : getSz (load64 m a) = n)
    (hleast : 8 ≤ n) (htop : a + n + 8 ≤ 2 ^ 64) :
    SameOutside m (markFreed m hi a) a (a + n + 8) := by
  have htags := freedTags_sameOutside (m := m) (a := a) (n := n) (by omega) hleast
  have hwide := htags.mono (Nat.le_refl _) (Nat.le_add_right _ 8)
  rw [markFreed_eq hsz hleast (by omega)]
  split
  · exact hwide.trans ((store64_sameOutside _ _ htop).mono (by omega) (Nat.le_refl _))
  · exact hwide

/-- The block itself becomes free. -/
theorem blockAt_markFreed (hi : Nat) {m : Mem} {pf : Bool} {a : Nat} {b : HeapBlock}
    (h : BlockAt m pf a b) (htop : a + b.size < 2 ^ 64)
    (hnext : a + b.size < hi → a + b.size + 8 ≤ 2 ^ 64) :
    BlockAt (markFreed m hi a) pf a (b.mark true) := by
  have hleast := b.least_le
  rw [markFreed_eq h.hdr_size (by omega) htop]
  have htags := blockAt_freedTags h htop
  split
  · next hlt =>
    exact htags.frame (store64_sameOutside _ _ (hnext hlt)) (by simp; omega) (.inl (by simp))
  · exact htags

/-- The header loses its ALLOC bit. -/
theorem markFreed_header (hi : Nat) {m : Mem} {a n : Nat} (hsz : getSz (load64 m a) = n)
    (hleast : 16 ≤ n) (htop : a + n + 8 ≤ 2 ^ 64) :
    load64 (markFreed m hi a) a = (n ||| (load64 m a &&& flagPrevFree)) % 2 ^ 64 := by
  have htags : load64 (freedTags m a n) a = (n ||| (load64 m a &&& flagPrevFree)) % 2 ^ 64 := by
    rw [freedTags, load64_store64_ne _ _ (by omega) (by omega) (by omega),
      load64_store64_same _ _ (by omega)]
  rw [markFreed_eq hsz (by omega) (by omega)]
  split
  · rw [load64_store64_ne _ _ (by omega) (by omega) (by omega), htags]
  · exact htags

/-- The header of the next block loses its flags and gets PREV_FREE. -/
theorem markFreed_next {m : Mem} {hi a n : Nat} (hsz : getSz (load64 m a) = n) (hleast : 8 ≤ n)
    (hnext : a + n < hi) (htop : a + n + 8 ≤ 2 ^ 64) :
    load64 (markFreed m hi a) (a + n) =
      ((load64 m (a + n) &&& wnot 0x7) ||| flagPrevFree) % 2 ^ 64 := by
  have hkeep : load64 (freedTags m a n) (a + n) = load64 m (a + n) :=
    load64_eq_of_sameOutside (freedTags_sameOutside (by omega) (by omega)) htop
      (.inr (Nat.le_refl _))
  rw [markFreed_eq hsz hleast (by omega), if_pos hnext, load64_store64_same _ _ htop, hkeep]

/-- With only free blocks behind it, the marking stays inside the heap. -/
theorem markFreed_tail_sameOutside {m : Mem} {pf : Bool} {lo hi : Nat} {pre post : List HeapBlock}
    {b : HeapBlock} (h : BlockAt m pf (lo + extent pre) b) (hpost : FreeTail post)
    (hhi : hi = lo + extent (pre ++ b :: post)) (htop : hi < 2 ^ 64) :
    SameOutside m (markFreed m hi (lo + extent pre)) (lo + extent pre) hi := by
  have hleast := b.least_le
  simp only [extent_append, extent_cons] at hhi
  rcases hpost with rfl | ⟨c, rfl, -⟩
  · simp only [extent_nil, Nat.add_zero] at hhi
    rw [markFreed_eq h.hdr_size (by omega) (by omega), if_neg (by omega)]
    exact (freedTags_sameOutside (by omega) (by omega)).mono (Nat.le_refl _) (by omega)
  · have hsz := c.least_le
    simp only [extent_cons, extent_nil] at hhi
    exact (markFreed_sameOutside hi h.hdr_size (by omega) (by omega)).mono (Nat.le_refl _)
      (by omega)

/-- With only free blocks behind it, the marked block leaves a tiling. -/
theorem tiles_markFreed {m : Mem} {lo hi : Nat} {pre post : List HeapBlock} {b : HeapBlock}
    (h : Tiles m false lo (pre ++ b :: post) hi) (hpost : FreeTail post) (htop : hi < 2 ^ 64) :
    Tiles (markFreed m hi (lo + extent pre)) false lo (pre ++ b.mark true :: post) hi := by
  obtain ⟨-, hb, hrest⟩ := tiles_append.mp h
  have hleast := b.least_le
  have hhi := hrest.hi_eq
  have hdvd := extent_dvd post
  refine h.patch_end (markFreed_tail_sameOutside hb hpost h.hi_eq htop) (by omega)
    ⟨blockAt_markFreed hi hb (by omega) (by omega), ?_⟩
  rcases hpost with rfl | ⟨c, rfl, hc⟩
  · exact hhi.symm
  · have hc_at := hrest.1
    have hsz := c.least_le
    simp only [extent_cons, extent_nil] at hhi
    have hsame := markFreed_sameOutside hi hb.hdr_size (by omega) (by omega)
    refine ⟨?_, by simp only [Block.size_mark, Tiles]; omega⟩
    have hword := markFreed_next hb.hdr_size (by omega)
      (show lo + extent pre + b.size < hi by omega) (by omega)
    refine hc_at.relink hsame (by omega) hword ?_ ?_ ?_
    · rw [getSz_or, ← getSz, getSz_getSz, hc_at.hdr_size]
      simp
    · rw [isFree_or, ← getSz, isFree_getSz, hc]
      rfl
    · rw [prevFree_or, ← getSz, prevFree_getSz]
      rfl

/-! ## `brk_release` -/

/-- A brk block is released inside the heap, whatever its size. -/
theorem toylibcFree_brk {w : Heap} {ptr : Nat} (hlo : w.heapLo < ptr) (hhi : ptr < w.heapHi) :
    toylibcFree w ptr = { w with mem := brkRelease w.mem w.heapHi ptr } := by
  unfold toylibcFree
  have hnull : ptr ≠ 0 := by omega
  have hlo' : ¬ptr < w.heapLo := by omega
  have hhi' : ¬w.heapHi ≤ ptr := by omega
  simp [hnull, hlo', hhi']

/-- A large block outside the heap goes back to the kernel. -/
theorem toylibcFree_map {w : Heap} {a n : Nat} (hsz : getSz (load64 w.mem a) = n)
    (hbig : mmapLimit ≤ n) (htop : a + 8 < 2 ^ 64) (hout : a + 8 < w.heapLo ∨ w.heapHi ≤ a + 8) :
    toylibcFree w (a + 8) = toylibcMunmap w a n := by
  have hhdr : wsub (a + 8) hdrSz = a := wsub_hdrSz htop
  unfold toylibcFree
  simp only [hhdr, hsz]
  rw [if_neg (by omega), if_pos (by simp; omega)]

/-- With only free blocks behind the released block, `brk_release` fuses it with its
free neighbours and keeps the tags of all others. -/
theorem tiles_brkRelease {m : Mem} {lo hi : Nat} {pre post : List HeapBlock} {b : HeapBlock}
    (h : Tiles m false lo (pre ++ b :: post) hi) (hpost : FreeTail post) (htop : hi < 2 ^ 64) :
    Tiles (brkRelease m hi (lo + extent pre + 8)) false lo (merged pre (b.mark true) post) hi := by
  have hhi := h.hi_eq
  have hleast := b.least_le
  simp only [extent_append, extent_cons] at hhi
  have hhdr : wsub (lo + extent pre + 8) hdrSz = lo + extent pre := wsub_hdrSz (by omega)
  rw [brkRelease_eq, hhdr]
  exact tiles_merge (tiles_markFreed h hpost htop) hpost htop

/-- It writes into the fused block only. -/
theorem brkRelease_sameOutside {m : Mem} {lo hi : Nat} {pre post : List HeapBlock} {b : HeapBlock}
    (h : Tiles m false lo (pre ++ b :: post) hi) (hpost : FreeTail post) (htop : hi < 2 ^ 64) :
    SameOutside m (brkRelease m hi (lo + extent pre + 8)) (lo + extent pre - freeBefore pre)
      hi := by
  have hhi := h.hi_eq
  have hleast := b.least_le
  simp only [extent_append, extent_cons] at hhi
  have hhdr : wsub (lo + extent pre + 8) hdrSz = lo + extent pre := wsub_hdrSz (by omega)
  rw [brkRelease_eq, hhdr]
  have hmark := markFreed_tail_sameOutside h.blockAt hpost h.hi_eq htop
  exact (hmark.mono (Nat.sub_le _ _) (Nat.le_refl _)).trans
    (merge_sameOutside (tiles_markFreed h hpost htop) hpost htop)

/-- With any block behind the released one, free or not, `merge` takes it for free. -/
theorem brkRelease_eq_joined {m : Mem} {lo hi : Nat} {pre post : List HeapBlock}
    {b c : HeapBlock} (h : Tiles m false lo (pre ++ b :: c :: post) hi) (htop : hi < 2 ^ 64) :
    brkRelease m hi (lo + extent pre + 8) =
      joined (markFreed m hi (lo + extent pre)) hi (lo + extent pre - freeBefore pre)
        (freeBefore pre + b.size + c.size) := by
  obtain ⟨hpre, hb, hc, hrest⟩ := tiles_append.mp h
  have hb_least := b.least_le
  have hc_least := c.least_le
  have hle := freeBefore_le_extent pre
  have hhi := hrest.hi_eq
  have hhdr : wsub (lo + extent pre + 8) hdrSz = lo + extent pre := wsub_hdrSz (by omega)
  have hnext := markFreed_next hb.hdr_size (by omega)
    (show lo + extent pre + b.size < hi by omega) (by omega)
  have hmarked := blockAt_markFreed hi hb (by omega) (by omega)
  have hsame := markFreed_sameOutside hi hb.hdr_size (by omega) (by omega)
  have hpre' := hpre.frame hsame (by omega) (.inl (Nat.le_refl _))
  have hfree : isFree (load64 (markFreed m hi (lo + extent pre)) (lo + extent pre + b.size)) =
      true := by
    rw [hnext, isFree_mod, isFree_or, ← getSz, isFree_getSz]; rfl
  have hsize : getSz (load64 (markFreed m hi (lo + extent pre)) (lo + extent pre + b.size)) =
      c.size := by
    rw [hnext, getSz_mod, getSz_or, ← getSz, getSz_getSz, hc.hdr_size]; simp
  rw [brkRelease_eq, hhdr, merge_eq c.size hmarked.hdr_size
    (back_eq hpre' (by omega) hmarked.hdr_prev) ?_ (by omega)
    (by simp only [Block.size_mark]; omega) (by simp only [Block.size_mark]; omega),
    if_neg (by omega), Block.size_mark]
  rw [Block.size_mark, if_pos ⟨by omega, hfree⟩, hsize]

theorem getSz_joined {m : Mem} {hi s t : Nat} (h8 : 8 ∣ t) (hleast : 16 ≤ t)
    (htop : s + t < 2 ^ 64) (hafter : s + t < hi → s + t + 8 ≤ 2 ^ 64) :
    getSz (load64 (joined m hi s t) s) = t := by
  have hhdr : load64 (store64 (store64 m s (t ||| (load64 m s &&& flagPrevFree))) (s + t - 8) t) s =
      (t ||| (load64 m s &&& flagPrevFree)) % 2 ^ 64 := by
    rw [load64_store64_ne _ _ (by omega) (by omega) (by omega), load64_store64_same _ _ (by omega)]
  have hsize : getSz (t ||| (load64 m s &&& flagPrevFree)) = t := by
    simp [getSz_of_dvd (show t < 2 ^ 64 by omega) h8]
  unfold joined
  simp only
  split
  · next hlt =>
    have := hafter hlt
    rw [load64_store64_ne _ _ (by omega) (by omega) (by omega), hhdr, getSz_mod, hsize]
  · rw [hhdr, getSz_mod, hsize]

/-- The block behind the fused one is marked free, whatever it was. -/
theorem isFree_joined_after {m : Mem} {hi s t : Nat} (hafter : s + t < hi)
    (htop : s + t + 8 ≤ 2 ^ 64) : isFree (load64 (joined m hi s t) (s + t)) = true := by
  unfold joined
  simp only [hafter, if_true]
  rw [load64_store64_same _ _ htop, isFree_mod, isFree_or, ← getSz, isFree_getSz]
  rfl

end Toylibc
