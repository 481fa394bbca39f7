import Toylibc.HeapStack

/-!
# The heap refines the stack

The public functions of `heap.c` answer what those of `Stack` answer, and leave the heap of the
stack that those leave, one function after the other. So in every run that avoids the defects the
heap is the stack (`heap_is_stack`), and neither what the memory held before nor what the caller
stores has an influence on what it answers and on what it asks of the kernel
(`heap_ignores_bytes`).
-/

namespace Toylibc

open ByteMemory BlockList Transition

section

variable {K : Kernel} {s : State} {bs : List HeapBlock} {w : Heap}

/-- The headers say which blocks a sound heap has. -/
theorem Sound.of_walk (h : ∃ bs', Sound K s bs')
    (hwalk : Walk s.heap.mem s.heap.heapLo bs s.heap.heapHi) : Sound K s bs := by
  obtain ⟨bs', hs⟩ := h
  rwa [hs.layout.tiles.walk.unique (by decide) hwalk] at hs

theorem Layout.base_top (h : Layout K w bs) : (Stack.of w bs).base + freeBefore bs = w.heapHi := by
  have hsum := sum_usedSizes_top h.topOnly
  have hhi := h.tiles.hi_eq
  unfold Stack.base Stack.of
  dsimp only
  omega

theorem Stack.of_ready (h : Layout K w bs) :
    Stack.of (Toylibc.ready K w) bs = (Stack.of w bs).ready K := by
  unfold Toylibc.ready Stack.ready
  cases hok : w.heapOk with
  | true => exact (if_pos hok).symm
  | false =>
    obtain ⟨hlo, hhi⟩ := h.fresh hok
    have hnil : bs = [] := by
      by_contra hne
      have hpos := extent_pos (by decide) hne
      have hextent := h.tiles.hi_eq
      omega
    subst hnil
    obtain ⟨cur, hcur⟩ : ∃ cur, K.brk w.log 0 = cur := ⟨_, rfl⟩
    obtain ⟨al, hal⟩ : ∃ al, alignUp cur align = al := ⟨_, rfl⟩
    have hnot : ¬(Stack.of w []).ok = true := by
      rw [Stack.of, hok]
      exact Bool.false_ne_true
    have hlog : K.brk (Stack.of w []).log 0 = cur := hcur
    rw [if_neg Bool.false_ne_true, if_neg hnot]
    simp only [hlog, hal]
    rcases heapInit_cases K w hcur hal with ⟨hmove, heq⟩ | ⟨hmove, heq⟩
    · rw [heq, if_pos hmove]
      rfl
    · rw [heq, if_neg (not_not.mpr hmove)]
      rfl

/-! ## Requests -/

/-- The last block is free, and is used whole. -/
theorem take_stack {pre : List HeapBlock} {c : HeapBlock} (h : Layout K w (pre ++ [c]))
    (hc : c.free = true) {need : Nat} (hfit : need ≤ c.size)
    (hwhole : c.size < need + (overhead + align)) :
    ∃ p w' bs', brkAlloc K w need = some (p, w') ∧ Walk w'.mem w'.heapLo bs' w'.heapHi ∧
      (Stack.of w (pre ++ [c])).push K need = (p, Stack.of w' bs') := by
  have hused := freeOnlyLast_concat.mp h.topOnly
  have hlt := h.hi_lt
  have hleast := c.least_le
  have hhi := h.tiles.hi_eq
  simp only [extent_append, extent_cons, extent_nil] at hhi
  have hfound : brkSearch w.mem w.heapHi need searchFuel w.heapLo =
      some (.found (w.heapLo + extent pre)) := by
    rw [brkSearch_walk (by decide) (by omega) h.tiles.walk, firstFit_concat hused hc hfit]
    rfl
  have hrem : wsub (getSz (load64 w.mem (w.heapLo + extent pre))) need < overhead + align := by
    rw [h.tiles.blockAt.hdr_size, wsub_eq (by omega) hfit]
    omega
  have hptr : wadd (w.heapLo + extent pre) hdrSz = w.heapLo + extent pre + 8 :=
    wadd_hdrSz (by omega)
  obtain ⟨m', htake, hlayout, -⟩ := h.takeTop
  refine ⟨w.heapLo + extent pre + 8, _, pre ++ [c.mark false], ?_, hlayout.tiles.walk, ?_⟩
  · rw [brkAlloc_of_found hfound, brkTake_whole hrem, htake, hptr]
  · have htop : (Stack.of w (pre ++ [c])).top = c.size := by
      rw [Stack.of, freeBefore_concat, if_pos hc]
    unfold Stack.push
    rw [if_pos (show need ≤ (Stack.of w (pre ++ [c])).top by rw [htop]; exact hfit)]
    simp only [Stack.of, Stack.base, usedSizes_concat, freeBefore_concat, hc, if_true,
      Block.free_mark, Block.size_mark, Bool.false_eq_true, if_false, sum_usedSizes hused]

/-- The heap grows, or the kernel refuses. -/
theorem extend_stack (hK : K.Lawful) (h : Layout K w bs) (hok : w.heapOk = true) {need : Nat}
    (hpos : 0 < need) (hneed : need < 2 ^ 32) (hsmall : freeBefore bs < need)
    (hclean : freeBefore bs = 0 ∨ BrkRefused K w need) :
    ∃ p w' bs', brkExtend K w need = (p, w') ∧ Walk w'.mem w'.heapLo bs' w'.heapHi ∧
      (Stack.of w bs).push K need = (p, Stack.of w' bs') := by
  have hlt := h.hi_lt
  have hbase := h.base_top
  have hgrow := growSize_lt (show need + 4096 ≤ 2 ^ 64 by omega)
  have hnew : wadd w.heapHi (growSize need) = w.heapHi + growSize need := wadd_eq (by omega)
  have htop : (Stack.of w bs).base + (Stack.of w bs).top = w.heapHi := hbase
  unfold Stack.push
  rw [if_neg (show ¬need ≤ (Stack.of w bs).top from Nat.not_le_of_lt hsmall), htop]
  by_cases hrefuse : BrkRefused K w need
  · refine ⟨_, _, bs, brkExtend_refused hrefuse, h.tiles.walk, ?_⟩
    unfold BrkRefused at hrefuse
    rw [hnew] at hrefuse ⊢
    exact if_neg hrefuse
  · have hnone := hclean.resolve_right hrefuse
    have hanswer : K.brk w.log (w.heapHi + growSize need) = w.heapHi + growSize need := by
      unfold BrkRefused at hrefuse
      rwa [hnew, not_not] at hrefuse
    have hlast : lastFree false bs = false := by
      refine (lastFree_cases bs).resolve_right ?_
      rintro ⟨pre, c, rfl, hc⟩
      have hleast := c.least_le
      rw [freeBefore_concat, if_pos hc] at hnone
      omega
    have hused := h.topOnly.all_used hlast
    have hstart := hK.break0_pos
    have hstart_lo := h.start_le_lo hok
    have hhi := h.tiles.hi_eq
    obtain ⟨m', hext, htiles, -⟩ := brkExtend_granted h.tiles (by omega) hpos (by omega)
      hlast hanswer
    refine ⟨_, _, _, hext, htiles.walk, ?_⟩
    have hfull : (Stack.of w bs).top = 0 := hnone
    have hlog : K.brk (Stack.of w bs).log (w.heapHi + growSize need) =
        w.heapHi + growSize need := hanswer
    rw [hfull, Nat.add_zero] at htop
    dsimp only
    rw [if_pos hlog, hlog, hfull, htop]
    simp only [Stack.of, usedSizes_concat, freeBefore_concat, grownBlock, Bool.false_eq_true,
      if_false, Nat.zero_add]

/-- A small request. -/
theorem push_stack (hK : K.Lawful) (h : Layout K w bs) (hok : w.heapOk = true) {sz : Nat}
    (hsz : sz < mmapLimit)
    (hclean : topFree w = 0 ∨ topFree w < brkNeed sz ∧ BrkRefused K w (brkNeed sz) ∨
      brkNeed sz ≤ topFree w ∧ topFree w < brkNeed sz + (overhead + align)) :
    ∃ p w' bs', brkAlloc K w (brkNeed sz) = some (p, w') ∧ Walk w'.mem w'.heapLo bs' w'.heapHi ∧
      (Stack.of w bs).push K (brkNeed sz) = (p, Stack.of w' bs') := by
  unfold mmapLimit at hsz
  have hneed := brkNeed_eq (show sz < 2 ^ 63 by omega)
  have hlt := h.hi_lt
  rw [h.topFree_eq] at hclean
  have hgrow : (∀ b ∈ bs, b.free = true → b.size < brkNeed sz) → freeBefore bs < brkNeed sz →
      freeBefore bs = 0 ∨ BrkRefused K w (brkNeed sz) →
      ∃ p w' bs', brkAlloc K w (brkNeed sz) = some (p, w') ∧ Walk w'.mem w'.heapLo bs' w'.heapHi ∧
        (Stack.of w bs).push K (brkNeed sz) = (p, Stack.of w' bs') := by
    intro hnofit hsmall hfull
    obtain ⟨p, w', bs', hext, hwalk, hpush⟩ :=
      extend_stack hK h hok (by omega) (by omega) hsmall hfull
    refine ⟨p, w', bs', ?_, hwalk, hpush⟩
    rw [brkAlloc_of_noFit (by decide) h.tiles.walk (by omega) hnofit, hext]
  rcases lastFree_cases bs with hlast | ⟨pre, c, rfl, hc⟩
  · have hused := h.topOnly.all_used hlast
    have hnone := freeBefore_of_lastFree_eq_false hlast
    refine hgrow (fun b hb hfree => ?_) (by omega) (.inl hnone)
    rw [hused b hb] at hfree
    cases hfree
  · have hused := freeOnlyLast_concat.mp h.topOnly
    have hleast := c.least_le
    have hbefore : freeBefore (pre ++ [c]) = c.size := by rw [freeBefore_concat, if_pos hc]
    rw [hbefore] at hclean hgrow
    by_cases hfit : brkNeed sz ≤ c.size
    · refine take_stack h hc hfit ?_
      rcases hclean with hnone | ⟨hsmall, -⟩ | ⟨-, hwhole⟩ <;> omega
    · refine hgrow (fun b hb hfree => ?_) (by omega) (.inr ?_)
      · rcases List.mem_append.mp hb with hb | hb
        · rw [hused b hb] at hfree
          cases hfree
        · rw [List.mem_singleton.mp hb]
          omega
      · rcases hclean with hnone | ⟨-, hrefused⟩ | ⟨hbad, -⟩
        · omega
        · exact hrefused
        · exact absurd hbad hfit

/-- A mapping leaves the blocks as they are. -/
theorem map_stack (hK : K.Lawful) (h : Layout K w bs) {sz : Nat} (hsz : sz < 2 ^ 63)
    (hbig : mmapLimit ≤ sz)
    (hclean : isErrno (K.mmap w.log (mapLength sz)) = true →
      K.mmap w.log (mapLength sz) = wnot 0) :
    ∃ p w', mallocMap K w sz = (p, w') ∧ Walk w'.mem w'.heapLo bs w'.heapHi ∧
      (Stack.of w bs).malloc K sz = (p, Stack.of w' bs) := by
  unfold mmapLimit at hbig
  have hlen := mapLength_eq hsz
  have hlog : (Stack.of w bs).log = w.log := rfl
  unfold Stack.malloc
  rw [if_neg (show ¬sz = 0 by omega), if_pos (show mmapLimit ≤ sz from hbig)]
  cases hok : isErrno (K.mmap w.log (mapLength sz)) with
  | true =>
    have hret := hclean hok
    have hmap : mallocMap K w sz = (0, { w with
        log := .mmap (mapLength sz) (K.mmap w.log (mapLength sz)) :: w.log }) := by
      rw [hret] at hok
      simp only [mallocMap, toylibcMmap, hret, hok, if_true]
    refine ⟨_, _, hmap, h.tiles.walk, ?_⟩
    simp only [hlog, hok, if_true]
    rfl
  | false =>
    obtain ⟨hmap, -⟩ := mallocMap_granted hK hok
    obtain ⟨m', hmem, hlayout, -, -⟩ := h.map hK (mapLength sz ||| flagAlloc) hok (by omega)
    rw [hmem] at hmap
    refine ⟨_, _, hmap, hlayout.tiles.walk, ?_⟩
    simp only [hlog, hok, Bool.false_eq_true, if_false]
    rfl

/-- `toylibc_malloc` is the one of the stack. -/
theorem malloc_stack (hK : K.Lawful) (hs : Sound K s bs) {sz : Nat} (hsz : sz < 2 ^ 63)
    (hclean : AllocAvoids K s.heap sz) :
    ∃ p w' bs', toylibcMalloc K s.heap sz = some (p, w') ∧
      (Stack.of s.heap bs).malloc K sz = (p, Stack.of w' bs') ∧
      Sound K ⟨w', lend p sz s.lent⟩ bs' := by
  obtain ⟨p, w', hcall, hsound, -, -⟩ := malloc_sound hK hs hsz hclean
  suffices hstack : ∃ bs', Walk w'.mem w'.heapLo bs' w'.heapHi ∧
      (Stack.of s.heap bs).malloc K sz = (p, Stack.of w' bs') by
    obtain ⟨bs', hwalk, hmalloc⟩ := hstack
    exact ⟨p, w', bs', hcall, hmalloc, Sound.of_walk hsound.sound hwalk⟩
  unfold AllocAvoids at hclean
  by_cases hzero : sz = 0
  · rw [toylibcMalloc, if_pos hzero] at hcall
    cases hcall
    exact ⟨bs, hs.layout.tiles.walk, if_pos hzero⟩
  rw [if_neg hzero] at hclean
  by_cases hbig : mmapLimit ≤ sz
  · rw [if_pos hbig] at hclean
    obtain ⟨q, v, hmap, hwalk, hmalloc⟩ := map_stack hK hs.layout hsz hbig hclean
    rw [toylibcMalloc_large hbig, hmap, Option.some.injEq, Prod.mk.injEq] at hcall
    obtain ⟨rfl, rfl⟩ := hcall
    exact ⟨bs, hwalk, hmalloc⟩
  · rw [if_neg hbig, Unserved, if_neg hbig] at hclean
    obtain ⟨hready, -, hok, -, -⟩ := hs.layout.ready hK
    obtain ⟨q, v, bs', halloc, hwalk, hpush⟩ :=
      push_stack hK hready hok (Nat.lt_of_not_le hbig) hclean
    rw [toylibcMalloc_small (Nat.pos_of_ne_zero hzero) (Nat.lt_of_not_le hbig), halloc,
      Option.some.injEq, Prod.mk.injEq] at hcall
    obtain ⟨rfl, rfl⟩ := hcall
    refine ⟨bs', hwalk, ?_⟩
    rw [Stack.malloc, if_neg hzero, if_neg hbig, ← Stack.of_ready hs.layout]
    exact hpush

/-! ## Releases -/

/-- What is not in the heap is not the topmost block. -/
theorem Layout.unmap_of_stack (h : Layout K w bs) {ptr : Nat} (hnull : ptr ≠ 0)
    (hout : ∀ a, ptr = a + 8 → ¬(w.heapLo ≤ a ∧ a < w.heapHi)) (lent : List Lent) :
    (Stack.of w bs).free lent ptr = (Stack.of w bs).unmap lent ptr := by
  have hbase : w.heapLo + (usedSizes bs).sum + freeBefore bs = w.heapHi := h.base_top
  unfold Stack.free
  rw [if_neg hnull]
  rcases hused : (Stack.of w bs).used with _ | ⟨n, ns⟩
  · rfl
  · have hsizes : usedSizes bs = n :: ns := hused
    have hn : 32 ≤ n := thirtytwo_le_usedSizes (by rw [hsizes]; exact List.mem_cons_self)
    rw [hsizes, List.sum_cons] at hbase
    refine if_neg fun hptr => hout _ hptr ⟨Nat.le_add_right _ _, ?_⟩
    have hlo : (Stack.of w bs).lo = w.heapLo := rfl
    omega

/-- `toylibc_free` is the one of the stack. -/
theorem free_stack (hs : Sound K s bs) (hmaps : MapsExact s) {ptr : Nat} (howned : Owned s ptr)
    (hclean : FreeAvoids s ptr) :
    ∃ bs', (Stack.of s.heap bs).free s.lent ptr = Stack.of (toylibcFree s.heap ptr) bs' ∧
      Sound K ⟨toylibcFree s.heap ptr, giveBack ptr s.lent⟩ bs' := by
  by_cases hnull : ptr = 0
  · rw [hnull, toylibcFree, if_pos rfl, hs.giveBack_null]
    exact ⟨bs, if_pos rfl, hs⟩
  obtain ⟨l, hl, rfl⟩ := howned.resolve_left hnull
  have hfreed := (hs.free hl hclean).1
  rcases hs.backed l hl with ⟨a, b, hptr, hb, hused, -⟩ | ⟨a, n, hptr, hmap, hsz, hbig, -⟩
  · obtain ⟨pre, post, rfl, rfl⟩ := mem_place_iff.mp hb
    rw [hptr] at hclean hfreed ⊢
    have hpost := hs.freeTail hclean
    have hpre := (freeOnlyLast_append_cons.mp hs.layout.topOnly).1
    obtain ⟨m', c, hcall, hfree, hlayout, -⟩ := hs.layout.release hpost
    have hhi := hs.layout.tiles.hi_eq
    have hhi' := hlayout.tiles.hi_eq
    obtain ⟨hsizes, htop⟩ := @stack_of_top pre post b hused hpost
    simp only [extent_append, extent_cons, extent_nil] at hhi hhi'
    rw [hcall] at hfreed ⊢
    refine ⟨pre ++ [c], ?_, Sound.of_walk hfreed hlayout.tiles.walk⟩
    have hcond : s.heap.heapLo + extent pre + 8 = s.heap.heapLo + (usedSizes pre).sum + 8 := by
      rw [sum_usedSizes hpre]
    unfold Stack.free Stack.of
    dsimp only
    rw [if_neg (Nat.succ_ne_zero _), hsizes]
    dsimp only
    rw [if_pos hcond, htop, usedSizes_concat, freeBefore_concat, if_pos hfree, if_pos hfree,
      show c.size = b.size + extent post by omega]
  · have hof := (hmaps.mem hs hl hptr hmap).2
    have hout : ∀ a', l.ptr = a' + 8 → ¬(s.heap.heapLo ≤ a' ∧ a' < s.heap.heapHi) := by
      rintro a' hptr' ⟨hlo, hhi⟩
      unfold mmapLimit at hbig
      exact hs.layout.maps_heap _ hmap a' hlo hhi ⟨by dsimp only; omega, by dsimp only; omega⟩
    obtain ⟨hfst, hsnd⟩ := Prod.mk.inj hof
    rw [hs.layout.unmap_of_stack hnull hout, Stack.unmap, requested_eq hs.distinct hl]
    have hcall : toylibcFree s.heap l.ptr = toylibcMunmap s.heap a n := by
      rw [hptr, toylibcFree_mapping hs hmap hsz hbig]
    rw [hcall] at hfreed ⊢
    refine ⟨bs, ?_, Sound.of_walk hfreed hs.layout.tiles.walk⟩
    rw [← hsnd, ← hfst]
    rfl

/-- `toylibc_realloc` reads the size that the stack knows. -/
theorem usable_stack (hs : Sound K s bs) (hmaps : MapsExact s) {l : Lent} (hl : l ∈ s.lent) :
    (Stack.of s.heap bs).usable s.lent l.ptr = oldSize s.heap l.ptr := by
  unfold Stack.usable
  rcases hs.backed l hl with ⟨a, b, hptr, hb, hused, -⟩ | ⟨a, n, hptr, hmap, hsz, hbig, -⟩
  · have hin := place_bounds hb
    have hhi := hs.layout.tiles.hi_eq
    have hlt := hs.layout.hi_lt
    have hleast := b.least_le
    have hsize : Stack.blockSize (Stack.of s.heap bs).lo a (Stack.of s.heap bs).used =
        some b.size := blockSize_of_place hs.layout.topOnly hb hused
    rw [hptr, oldSize_eq (hs.layout.tiles.walk.header_of_mem hb).1 (by omega) (by omega),
      Nat.add_sub_cancel, hsize, Option.getD_some]
  · have hof := (hmaps.mem hs hl hptr hmap).2
    have htop : a + n ≤ userTop := hs.layout.maps_user _ hmap
    have hbase := hs.layout.base_top
    unfold userTop at htop
    unfold mmapLimit overhead at hbig
    have hnone : Stack.blockSize (Stack.of s.heap bs).lo a (Stack.of s.heap bs).used = none := by
      cases hsize : Stack.blockSize (Stack.of s.heap bs).lo a (Stack.of s.heap bs).used with
      | none => rfl
      | some m =>
        -- the first byte of the mapping would lie in the heap
        obtain ⟨hmem, hlo, hhi⟩ := blockSize_bounds hsize
        have hm : 32 ≤ m := thirtytwo_le_usedSizes hmem
        rw [Stack.base] at hbase
        exact absurd ⟨Nat.le_refl a, show a < a + n by omega⟩
          (hs.layout.maps_heap _ hmap a hlo (by omega))
    rw [requested_eq hs.distinct hl, show mapLength l.size = n from congrArg Prod.snd hof, hptr,
      oldSize_eq hsz (by omega) (by omega), Nat.add_sub_cancel, hnone, Option.getD_none]

/-! ## `toylibc_realloc` -/

/-- A move of what is lent is the one of the stack. -/
theorem move_stack (hK : K.Lawful) (hs : Sound K s bs) (hmaps : MapsExact s) {l : Lent}
    (hl : l ∈ s.lent) {newsz cp p : Nat} {w' : Heap} (hsz : newsz < 2 ^ 63) (hcp : cp ≤ newsz)
    (hclean : AllocAvoids K s.heap newsz)
    (hbrk : InBrk s.heap l.ptr → Unserved K s.heap newsz ∨ mmapLimit ≤ newsz ∧ FreeAvoids s l.ptr)
    (hcall : reallocMove K s.heap l.ptr newsz cp = some (p, w')) :
    ∃ bs', Walk w'.mem w'.heapLo bs' w'.heapHi ∧
      (Stack.of s.heap bs).move K s.lent l.ptr newsz = (p, Stack.of w' bs') := by
  obtain ⟨w₁, hmalloc, hcases⟩ := reallocMove_cases hcall
  obtain ⟨q, v, bs₁, hmalloc', heq, hnew⟩ := malloc_stack hK hs hsz hclean
  rw [hmalloc, Option.some.injEq, Prod.mk.injEq] at hmalloc'
  obtain ⟨rfl, rfl⟩ := hmalloc'
  unfold Stack.move
  rw [heq]
  dsimp only
  rcases hcases with ⟨hp, rfl⟩ | ⟨hp, rfl⟩
  · rw [if_pos hp]
    exact ⟨bs₁, hnew.layout.tiles.walk, rfl⟩
  · rw [if_neg hp]
    obtain ⟨r, v, hmalloc', ⟨-, -, hsub⟩, hrefused, hplace⟩ := malloc_sound hK hs hsz hclean
    rw [hmalloc, Option.some.injEq, Prod.mk.injEq] at hmalloc'
    obtain ⟨rfl, rfl⟩ := hmalloc'
    rw [lend, if_neg hp] at hnew
    obtain ⟨⟨bs₂, hnew', hcopied⟩, hne⟩ := malloc_copied hK hs hsz hclean hmalloc hp l.ptr hcp
    rw [hnew'.layout.tiles.walk.unique (by decide) hnew.layout.tiles.walk] at hcopied
    have hlend := hmaps.lend hK hs hclean hmalloc
    rw [lend, if_neg hp] at hlend
    generalize (toylibcMemcpy w₁.mem p l.ptr cp).1 = m' at hcopied ⊢
    have havoid := freeAvoids_moved hs hl m' hnew hsub fun hin => by
      rcases hbrk hin with hun | ⟨hbig, htop⟩
      · exact absurd (hrefused hun) hp
      · obtain ⟨hlo, hhi, hout⟩ := hplace hbig
        exact ⟨hlo, hhi, hout.resolve_left hp, htop⟩
    have hmaps' : MapsExact ⟨{ w₁ with mem := m' }, ⟨p, newsz⟩ :: s.lent⟩ := hlend
    obtain ⟨bs', hfree, hfreed⟩ :=
      free_stack hcopied hmaps' (.inr ⟨l, List.mem_cons_of_mem _ hl, rfl⟩) havoid
    refine ⟨bs', hfreed.layout.tiles.walk, congrArg (Prod.mk p) ?_⟩
    calc (Stack.of w₁ bs₁).free s.lent l.ptr
      _ = (Stack.of { w₁ with mem := m' } bs₁).free s.lent l.ptr := by rw [Stack.of_mem w₁ m' bs₁]
      _ = (Stack.of { w₁ with mem := m' } bs₁).free (⟨p, newsz⟩ :: s.lent) l.ptr :=
        (Stack.free_cons _ (hne l hl) s.lent).symm
      _ = _ := hfree

/-- `toylibc_realloc` is the one of the stack. -/
theorem realloc_stack (hK : K.Lawful) (hs : Sound K s bs) (hmaps : MapsExact s) {ptr newsz : Nat}
    (hr : Respects s (.realloc ptr newsz)) (ha : AvoidsDefects K s (.realloc ptr newsz)) {p : Nat}
    {w' : Heap} (hcall : toylibcRealloc K s.heap ptr newsz = some (p, w')) :
    ∃ bs', Walk w'.mem w'.heapLo bs' w'.heapHi ∧
      (Stack.of s.heap bs).realloc K s.lent ptr newsz = (p, Stack.of w' bs') := by
  obtain ⟨hsz, howned⟩ := hr
  dsimp only [AvoidsDefects] at ha
  unfold Stack.realloc
  by_cases hnull : ptr = 0
  · rw [if_pos hnull] at ha ⊢
    rw [toylibcRealloc, if_pos hnull] at hcall
    obtain ⟨q, v, bs', hmalloc, heq, hnew⟩ := malloc_stack hK hs hsz ha
    rw [hmalloc, Option.some.injEq, Prod.mk.injEq] at hcall
    obtain ⟨rfl, rfl⟩ := hcall
    exact ⟨bs', hnew.layout.tiles.walk, heq⟩
  rw [if_neg hnull] at ha ⊢
  obtain ⟨l, hl, rfl⟩ := howned.resolve_left hnull
  by_cases hzero : newsz = 0
  · rw [if_pos hzero] at ha ⊢
    rw [toylibcRealloc, if_neg hnull, if_pos hzero, Option.some.injEq, Prod.mk.injEq] at hcall
    obtain ⟨rfl, rfl⟩ := hcall
    obtain ⟨bs', heq, hfreed⟩ := free_stack hs hmaps (.inr ⟨l, hl, rfl⟩) ha
    exact ⟨bs', hfreed.layout.tiles.walk, congrArg (Prod.mk 0) heq⟩
  rw [if_neg hzero] at ha ⊢
  rw [usable_stack hs hmaps hl]
  by_cases hstay : oldSize s.heap l.ptr < mmapLimit ∧ newsz ≤ oldSize s.heap l.ptr
  · rw [toylibcRealloc_stay hnull hzero hstay, Option.some.injEq, Prod.mk.injEq] at hcall
    obtain ⟨rfl, rfl⟩ := hcall
    rw [if_pos hstay]
    exact ⟨bs, hs.layout.tiles.walk, rfl⟩
  · obtain ⟨hclean, hbrk⟩ := ha.resolve_left hstay
    rw [toylibcRealloc_move hnull hzero hstay] at hcall
    rw [if_neg hstay]
    exact move_stack hK hs hmaps hl hsz (Nat.min_le_right _ _) hclean hbrk hcall

/-- `toylibc_calloc` asks the stack for the product. -/
theorem calloc_stack (hK : K.Lawful) (hs : Sound K s bs) {n sz : Nat}
    (hr : Respects s (.calloc n sz)) (ha : AvoidsDefects K s (.calloc n sz)) {p : Nat} {w' : Heap}
    (hcall : toylibcCalloc K s.heap n sz = some (p, w')) :
    ∃ bs', Walk w'.mem w'.heapLo bs' w'.heapHi ∧
      (Stack.of s.heap bs).call K s.lent (.calloc n sz) = (p, Stack.of w' bs') := by
  unfold Stack.call
  dsimp only
  rcases hr.2.2 with hsmall | hoverflow
  · have hfits : n * sz < 2 ^ 64 := by omega
    obtain ⟨w₁, hmalloc, hcases⟩ := toylibcCalloc_cases hfits hcall
    obtain ⟨q, v, bs₁, hmalloc', heq, hnew⟩ := malloc_stack hK hs hsmall (ha hfits)
    rw [hmalloc, Option.some.injEq, Prod.mk.injEq] at hmalloc'
    obtain ⟨rfl, rfl⟩ := hmalloc'
    rw [if_pos hfits, heq]
    rcases hcases with ⟨-, rfl⟩ | ⟨hp, rfl⟩
    · exact ⟨bs₁, hnew.layout.tiles.walk, rfl⟩
    · rw [lend, if_neg hp] at hnew
      have hlt := (hnew.ptr_lt List.mem_cons_self).2
      have hzeroed := memset_zeroed w₁.mem (show p + n * sz ≤ space from Nat.le_of_lt hlt)
      have hcleared := (hnew.store List.mem_cons_self hzeroed.frame).1
      exact ⟨bs₁, hcleared.layout.tiles.walk, congrArg (Prod.mk p) (Stack.of_mem w₁ _ bs₁).symm⟩
  · rw [toylibcCalloc_overflow hoverflow, Option.some.injEq, Prod.mk.injEq] at hcall
    obtain ⟨rfl, rfl⟩ := hcall
    rw [if_neg (Nat.not_lt_of_le hoverflow)]
    exact ⟨bs, hs.layout.tiles.walk, rfl⟩

/-! ## Events and runs -/

/-- Every event that avoids the defects is answered as on the stack. -/
theorem call_stack (hK : K.Lawful) (hs : Sound K s bs) (hmaps : MapsExact s) {e : Event}
    {s' : State} (hr : Respects s e) (ha : AvoidsDefects K s e) (hstep : step K s e = some s') :
    ∃ p bs', (call K s.heap e).map Prod.fst = some p ∧ s'.lent = relend s.lent p e ∧
      (Stack.of s.heap bs).call K s.lent e = (p, Stack.of s'.heap bs') ∧ Sound K s' bs' := by
  obtain ⟨s'', bs₀, hstep', hsound⟩ := step_sound hK hs hr ha
  rw [hstep, Option.some.injEq] at hstep'
  subst hstep'
  obtain ⟨p, w', hcall, rfl⟩ := call_of_step hstep
  suffices hstack : ∃ bs', Walk w'.mem w'.heapLo bs' w'.heapHi ∧
      (Stack.of s.heap bs).call K s.lent e = (p, Stack.of w' bs') by
    obtain ⟨bs', hwalk, heq⟩ := hstack
    refine ⟨p, bs', by rw [hcall, Option.map_some], rfl, heq, ?_⟩
    exact Sound.of_walk ⟨bs₀, hsound⟩ hwalk
  cases e with
  | malloc sz =>
    obtain ⟨q, v, bs', hmalloc, heq, hnew⟩ := malloc_stack hK hs hr ha
    rw [call, hmalloc, Option.some.injEq, Prod.mk.injEq] at hcall
    obtain ⟨rfl, rfl⟩ := hcall
    exact ⟨bs', hnew.layout.tiles.walk, heq⟩
  | calloc n sz =>
    rw [call] at hcall
    exact calloc_stack hK hs hr ha hcall
  | realloc ptr newsz =>
    rw [call] at hcall
    exact realloc_stack hK hs hmaps hr ha hcall
  | free ptr =>
    rw [call, Option.some.injEq, Prod.mk.injEq] at hcall
    obtain ⟨rfl, rfl⟩ := hcall
    obtain ⟨bs', heq, hfreed⟩ := free_stack hs hmaps hr ha
    exact ⟨bs', hfreed.layout.tiles.walk, congrArg (Prod.mk 0) heq⟩
  | write addr b =>
    rw [call, Option.some.injEq, Prod.mk.injEq] at hcall
    obtain ⟨rfl, rfl⟩ := hcall
    obtain ⟨l, hl, i, hi, rfl⟩ := hr
    have hlt := hs.ptr_lt hl
    have hstore := storeByte_sameOutside s.heap.mem (show l.ptr + i < 2 ^ 64 by omega) b
    have hstored := (hs.store hl (hstore.mono (by omega) (by omega))).1
    rw [Nat.mod_eq_of_lt (by omega)]
    exact ⟨bs, hstored.layout.tiles.walk, congrArg (Prod.mk 0) (Stack.of_mem s.heap _ bs).symm⟩

end

theorem Fresh.stack {s : State} (h : Fresh s) :
    Stack.of s.heap [] = Stack.empty ∧ s.lent = [] := by
  obtain ⟨hlo, -, hok, hlog, hlent⟩ := h
  rw [Stack.of, hlo, hok, hlog]
  exact ⟨rfl, hlent⟩

/-- The heap of a run is the stack of its events. -/
theorem run_stack {K : Kernel} (hK : K.Lawful) {s : State} {bs : List HeapBlock} {es : List Event}
    (hs : Sound K s bs) (hmaps : MapsExact s)
    (hlegal : Legal (fun s e => Respects s e ∧ AvoidsDefects K s e) (step K) s es) :
    ∃ bs', Sound K (follow (step K) s es) bs' ∧
      Stack.run K (Stack.of s.heap bs) s.lent es = (answered K s es,
        Stack.of (follow (step K) s es).heap bs', (follow (step K) s es).lent) := by
  induction es generalizing s bs with
  | nil => exact ⟨bs, hs, rfl⟩
  | cons e es ih =>
    obtain ⟨⟨hr, ha⟩, hsome, hrest⟩ := hlegal
    obtain ⟨s', hstep⟩ := Option.isSome_iff_exists.mp hsome
    obtain ⟨p, bs', hanswer, hlent, heq, hs'⟩ := call_stack hK hs hmaps hr ha hstep
    rw [hstep, Option.getD_some] at hrest
    obtain ⟨bs'', hs'', hrun⟩ := ih hs' (hmaps.step hK hs hr ha hstep) hrest
    rw [follow, hstep, Option.getD_some]
    refine ⟨bs'', hs'', ?_⟩
    rw [Stack.run, heq, answered, hanswer, hstep, Option.getD_some, Option.getD_some]
    dsimp only
    rw [← hlent, hrun]

/-- The allocator is a stack: in every run that respects the interface and avoids the defects, the
answers are those that the stack computes from the events and the kernel, without any memory. At
the end the two agree on the blocks and the free space, on the calls to the kernel and on what is
lent. -/
theorem heap_is_stack {K : Kernel} (hK : K.Lawful) {s : State} {es : List Event} (hs : Fresh s)
    (hlegal : Legal (fun s e => Respects s e ∧ AvoidsDefects K s e) (step K) s es) :
    ∃ bs, Sound K (follow (step K) s es) bs ∧
      Stack.run K .empty [] es = (answered K s es,
        Stack.of (follow (step K) s es).heap bs, (follow (step K) s es).lent) := by
  have hmaps := SafelyReachable.mapsExact hK (.start hs)
  obtain ⟨bs, hbs, hrun⟩ := run_stack hK (hs.sound hK) hmaps hlegal
  rw [hs.stack.1, hs.stack.2] at hrun
  exact ⟨bs, hbs, hrun⟩

theorem orderlyRun_is_stack :
    ∃ bs, Sound smallKernel (stateAfter orderlyRun) bs ∧
      Stack.run smallKernel .empty [] orderlyRun = (answered smallKernel freshState orderlyRun,
        Stack.of (stateAfter orderlyRun).heap bs, (stateAfter orderlyRun).lent) :=
  heap_is_stack smallKernel_lawful fresh_freshState (by decide +kernel)

/-- The heap is oblivious: two such runs with the same calls, over any contents of the memory and
with any stores of the caller between the calls, get the same answers, make the same calls to the
kernel, and end with the same heap and the same lent ranges. -/
theorem heap_ignores_bytes {K : Kernel} (hK : K.Lawful) {s s' : State} {es es' : List Event}
    (hs : Fresh s) (hs' : Fresh s')
    (hlegal : Legal (fun s e => Respects s e ∧ AvoidsDefects K s e) (step K) s es)
    (hlegal' : Legal (fun s e => Respects s e ∧ AvoidsDefects K s e) (step K) s' es')
    (hcalls : (es.filter fun e => e.IsCall) = es'.filter fun e => e.IsCall) :
    (answered K s es).filter (fun x => x.1.IsCall) =
        (answered K s' es').filter (fun x => x.1.IsCall) ∧
      (follow (step K) s es).lent = (follow (step K) s' es').lent ∧
      (follow (step K) s es).heap.log = (follow (step K) s' es').heap.log ∧
      (follow (step K) s es).heap.heapLo = (follow (step K) s' es').heap.heapLo ∧
      (follow (step K) s es).heap.heapHi = (follow (step K) s' es').heap.heapHi := by
  obtain ⟨bs, hsound, hrun⟩ :=
    run_stack hK (hs.sound hK) (SafelyReachable.mapsExact hK (.start hs)) hlegal
  obtain ⟨bs', hsound', hrun'⟩ :=
    run_stack hK (hs'.sound hK) (SafelyReachable.mapsExact hK (.start hs')) hlegal'
  have hfilter := Stack.run_calls K Stack.empty [] es
  have hfilter' := Stack.run_calls K Stack.empty [] es'
  rw [hs.stack.1, hs.stack.2] at hrun
  rw [hs'.stack.1, hs'.stack.2] at hrun'
  rw [hcalls, hfilter', hrun, hrun', Prod.mk.injEq, Prod.mk.injEq] at hfilter
  obtain ⟨hanswers, hstack, hlent⟩ := hfilter
  have hbase := hsound.layout.base_top
  have hbase' := hsound'.layout.base_top
  have htop : freeBefore bs' = freeBefore bs := congrArg Stack.top hstack
  rw [hstack, htop] at hbase'
  exact ⟨hanswers.symm, hlent.symm, (congrArg Stack.log hstack).symm,
    (congrArg Stack.lo hstack).symm, hbase.symm.trans hbase'⟩

/-- A block is lent, stored to and freed, in a memory without zeros. -/
def dirtyRun : List Event := [.malloc 24, .write 4105 7, .malloc 200000, .free 4104, .malloc 4080]

/-- The same calls without the store. -/
def dirtyCalls : List Event := [.malloc 24, .malloc 200000, .free 4104, .malloc 4080]

theorem dirtyRun_ignored :
    (answered smallKernel ⟨dirtyHeap, []⟩ dirtyRun).filter (fun x => x.1.IsCall) =
        (answered smallKernel freshState dirtyCalls).filter (fun x => x.1.IsCall) ∧
      (follow (step smallKernel) ⟨dirtyHeap, []⟩ dirtyRun).lent = (stateAfter dirtyCalls).lent ∧
      (follow (step smallKernel) ⟨dirtyHeap, []⟩ dirtyRun).heap.log =
        (stateAfter dirtyCalls).heap.log ∧
      (follow (step smallKernel) ⟨dirtyHeap, []⟩ dirtyRun).heap.heapLo =
        (stateAfter dirtyCalls).heap.heapLo ∧
      (follow (step smallKernel) ⟨dirtyHeap, []⟩ dirtyRun).heap.heapHi =
        (stateAfter dirtyCalls).heap.heapHi :=
  heap_ignores_bytes smallKernel_lawful ⟨rfl, rfl, rfl, rfl, rfl⟩ fresh_freshState
    (by decide +kernel) (by decide +kernel) (by decide)

end Toylibc
