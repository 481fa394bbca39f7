import Toylibc.HeapGrow
import Toylibc.HeapPlaced
import Toylibc.Session

/-!
# The heap of a run that avoids the defects

In such a run only the last block of the brk heap can be free. `Layout` states this
together with what the heap knows about the kernel: where the break is, and that the
mappings meet neither the heap nor each other. Each section is about one way the heap
changes. It gives the new layout and the range that was written.
-/

namespace Toylibc

open ByteMemory BlockList

/-- The brk heap consists of the blocks `bs`, of which only the last can be free, and the
kernel keeps the heap and the mappings apart. -/
structure Layout (K : Kernel) (w : Heap) (bs : List HeapBlock) : Prop extends Placed K w where
  tiles : Tiles w.mem false w.heapLo bs w.heapHi
  topOnly : FreeOnlyLast bs

section

variable {K : Kernel} {w : Heap} {bs : List HeapBlock}

theorem Fresh.placed (hK : K.Lawful) {s : State} (h : Fresh s) : Placed K s.heap := by
  obtain ⟨hlo, hhi, hok, hlog, -⟩ := h
  have hmaps : mapsAfter s.heap.log = [] := by rw [hlog]; rfl
  have hbreak : breakAfter K s.heap.log = K.break0 := by rw [hlog]; rfl
  refine .uninitialised hlo hhi hok (Nat.le_of_eq hbreak.symm) (hbreak ▸ hK.break0_user) ?_ ?_
  · simp [hmaps]
  · simp [hmaps]

/-- The free block at the end of the heap, in words and as a block. -/
theorem topFree_of_tiles (h : Tiles w.mem false w.heapLo bs w.heapHi) (htop : w.heapHi < 2 ^ 64) :
    topFree w = freeBefore bs := by
  have hflag := isFree_last_footer h htop
  have hhi := h.hi_eq
  unfold topFree
  simp only [hflag]
  rcases lastFree_cases bs with hl | ⟨pre, c, rfl, hc⟩
  · rw [hl, freeBefore_of_lastFree_eq_false hl]
    rfl
  · have hleast := c.least_le
    simp only [extent_append, extent_cons, extent_nil] at hhi
    have hftr : wsub w.heapHi hdrSz = w.heapLo + extent pre + c.size - 8 := by
      rw [wsub_eq htop (by unfold hdrSz; omega)]; unfold hdrSz; omega
    simp [hc, hftr, h.blockAt.ftr_size]

theorem Layout.topFree_eq (h : Layout K w bs) : topFree w = freeBefore bs :=
  topFree_of_tiles h.tiles (by have := h.hi_lt; omega)

/-! ## Initialisation -/

/-- A small request starts on an initialised heap. -/
theorem Layout.ready (hK : K.Lawful) (h : Layout K w bs) :
    Layout K (ready K w) bs ∧ (ready K w).mem = w.mem ∧ (ready K w).heapOk = true ∧
      mapsAfter (ready K w).log = mapsAfter w.log ∧
      place (ready K w).heapLo bs = place w.heapLo bs := by
  unfold Toylibc.ready
  cases hok : w.heapOk with
  | true => exact ⟨h, rfl, hok, rfl, rfl⟩
  | false =>
    obtain ⟨hlo, hhi⟩ := h.fresh hok
    have hnil : bs = [] := by
      by_contra hne
      have := extent_pos (by decide) hne
      have := h.tiles.hi_eq
      omega
    have hstart := hK.break0_pos
    have hbreak := h.start_le_break
    have hplaced := h.toPlaced.init hK
    obtain ⟨log, heq, -, hmaps⟩ := heapInit_eq hK (w := w) (by omega)
    subst hnil
    simp only [Bool.false_eq_true, if_false]
    rw [heq] at hplaced ⊢
    exact ⟨⟨hplaced, rfl, h.topOnly⟩, rfl, rfl, hmaps, by simp only [place]⟩

/-! ## Kernel calls that change nothing -/

/-- `mmap` answers `-1`, the one refusal that `toylibc_malloc` knows. -/
theorem mallocMap_refused {sz : Nat} (hret : K.mmap w.log (mapLength sz) = wnot 0) :
    ∃ log, mallocMap K w sz = (0, { w with log := log }) ∧
      breakAfter K log = breakAfter K w.log ∧ mapsAfter log = mapsAfter w.log := by
  have herrno : isErrno (wnot 0) = true := by decide
  have hmaps : mapsAfter (.mmap (mapLength sz) (wnot 0) :: w.log) = mapsAfter w.log :=
    if_pos herrno
  refine ⟨.mmap (mapLength sz) (wnot 0) :: w.log, ?_, rfl, hmaps⟩
  simp only [mallocMap, toylibcMmap, hret, herrno, if_true]

/-- `mmap` grants the mapping. -/
theorem mallocMap_granted (hK : K.Lawful) {sz : Nat}
    (hok : isErrno (K.mmap w.log (mapLength sz)) = false) :
    mallocMap K w sz = (K.mmap w.log (mapLength sz) + 8, { w with
      mem := store64 (zeroFill w.mem (K.mmap w.log (mapLength sz)) (mapLength sz))
        (K.mmap w.log (mapLength sz)) (mapLength sz ||| flagAlloc)
      log := .mmap (mapLength sz) (K.mmap w.log (mapLength sz)) :: w.log }) ∧
      mapsAfter (.mmap (mapLength sz) (K.mmap w.log (mapLength sz)) :: w.log) =
        (K.mmap w.log (mapLength sz), mapLength sz) :: mapsAfter w.log := by
  have huser := (hK.mmap_page _ _ hok).2
  unfold userTop at huser
  have hne : K.mmap w.log (mapLength sz) ≠ wnot 0 := by unfold wnot; omega
  have hptr : wadd (K.mmap w.log (mapLength sz)) hdrSz = K.mmap w.log (mapLength sz) + 8 :=
    wadd_hdrSz (by omega)
  refine ⟨?_, by simp [mapsAfter, hok]⟩
  simp only [mallocMap, toylibcMmap, hok, hne, hptr, if_false, Bool.false_eq_true]

/-- The layout depends on the calls only by the break and the mappings. -/
theorem Layout.relog {log : List Syscall} (h : Layout K w bs)
    (hbreak : breakAfter K log = breakAfter K w.log) (hmaps : mapsAfter log = mapsAfter w.log) :
    Layout K { w with log := log } bs :=
  ⟨h.toPlaced.congr rfl rfl rfl hbreak hmaps, h.tiles, h.topOnly⟩

/-- Other blocks in the same place. -/
theorem Layout.retile {m : Mem} {bs' : List HeapBlock} (h : Layout K w bs)
    (htiles : Tiles m false w.heapLo bs' w.heapHi) (htop : FreeOnlyLast bs') :
    Layout K { w with mem := m } bs' :=
  ⟨h.toPlaced.congr rfl rfl rfl rfl rfl, htiles, htop⟩

/-! ## Taking and releasing the block at the end -/

/-- The heap grows behind blocks in use. -/
theorem Layout.grow (hK : K.Lawful) (h : Layout K w bs) (hok : w.heapOk = true)
    (hused : ∀ b ∈ bs, b.free = false) (need : Nat) (hpos : 0 < need) (hneed : need < 2 ^ 32)
    (hgrant : ¬BrkRefused K w need) :
    ∃ w' c, brkExtend K w need = (w.heapHi + 8, w') ∧ Layout K w' (bs ++ [c]) ∧
      c.free = false ∧ need ≤ c.size ∧ w'.heapLo = w.heapLo ∧ mapsAfter w'.log = mapsAfter w.log ∧
      SameOutside w.mem w'.mem w.heapHi w'.heapHi := by
  have htop := h.hi_lt
  have hstart := hK.break0_pos
  have hstart_lo := h.start_le_lo hok
  have hhi := h.tiles.hi_eq
  have hroom : need + 4096 ≤ 2 ^ 64 := by omega
  have hlt := growSize_lt hroom
  have hge := le_growSize hroom
  have hnew : wadd w.heapHi (growSize need) = w.heapHi + growSize need := wadd_eq (by omega)
  have hanswer : K.brk w.log (w.heapHi + growSize need) = w.heapHi + growSize need := by
    unfold BrkRefused at hgrant
    rwa [hnew, not_not] at hgrant
  have hlast := lastFree_eq_false hused
  have huser := hK.brk_user _ _ hanswer
  obtain ⟨m', hext, htiles, hsame⟩ :=
    brkExtend_granted h.tiles (by omega) hpos (by omega) hlast hanswer
  refine ⟨_, grownBlock need hpos hroom false, hext, ?_, rfl, hge, rfl, rfl, hsame⟩
  exact ⟨h.toPlaced.grow hK hok hanswer, htiles, freeOnlyLast_concat.mpr hused⟩

/-- A free block at the end is used whole. -/
theorem Layout.takeTop {pre : List HeapBlock} {c : HeapBlock} (h : Layout K w (pre ++ [c])) :
    ∃ m', brkTakeGrown w.mem w.heapHi (w.heapLo + extent pre) = m' ∧
      Layout K { w with mem := m' } (pre ++ [c.mark false]) ∧
      SameOutside w.mem m' (w.heapLo + extent pre) w.heapHi := by
  have htop := h.hi_lt
  have hleast := c.least_le
  have hhi := h.tiles.hi_eq
  simp only [extent_append, extent_cons, extent_nil] at hhi
  refine ⟨_, rfl, ?_, ?_⟩
  · refine h.retile (tiles_brkTakeGrown h.tiles (by omega)) ?_
    exact freeOnlyLast_concat.mpr (freeOnlyLast_concat.mp h.topOnly)
  · exact brkTakeGrown_sameOutside h.tiles.blockAt.hdr_size (by omega) (by omega) (by omega)
      (by omega)

/-- The topmost used block is freed. -/
theorem Layout.release {pre post : List HeapBlock} {b : HeapBlock}
    (h : Layout K w (pre ++ b :: post)) (hpost : FreeTail post) :
    ∃ m' c, toylibcFree w (w.heapLo + extent pre + 8) = { w with mem := m' } ∧ c.free = true ∧
      Layout K { w with mem := m' } (pre ++ [c]) ∧
      SameOutside w.mem m' (w.heapLo + extent pre) w.heapHi := by
  have htop := h.hi_lt
  have hleast := b.least_le
  have hhi := h.tiles.hi_eq
  simp only [extent_append, extent_cons] at hhi
  have hused := (freeOnlyLast_append_cons.mp h.topOnly).1
  have hlast := lastFree_eq_false hused
  have htiles := tiles_brkRelease h.tiles hpost (by omega)
  have hsame := brkRelease_sameOutside h.tiles hpost (by omega)
  rw [freeBefore_of_lastFree_eq_false hlast, Nat.sub_zero] at hsame
  have hmerged : ∃ c, c.free = true ∧ merged pre (b.mark true) post = pre ++ [c] := by
    rcases hpost with rfl | ⟨c, rfl, hc⟩
    · exact ⟨b.mark true, rfl, by simp [merged, fuseRight, fuseLeft_of_lastFree_eq_false hlast]⟩
    · refine ⟨(b.mark true).fuse c, rfl, ?_⟩
      simp [merged, fuseRight, hc, fuseLeft_of_lastFree_eq_false hlast]
  obtain ⟨c, hfree, heq⟩ := hmerged
  rw [heq] at htiles
  exact ⟨_, c, toylibcFree_brk (by omega) (by omega), hfree,
    h.retile htiles (freeOnlyLast_concat.mpr hused), hsame⟩

/-! ## Mappings -/

theorem zeroFill_sameOutside (m : Mem) (a n : Nat) : SameOutside m (zeroFill m a n) a (a + n) := by
  intro x hx hout
  simp only [loadByte, zeroFill, Nat.mod_eq_of_lt hx]
  exact if_neg (by omega)

/-- Changes outside the heap keep its blocks. -/
theorem Tiles.frame_apart {m m' : Mem} {lo hi x y : Nat} {bs : List HeapBlock}
    (h : Tiles m false lo bs hi) (hsame : SameOutside m m' x y) (htop : hi ≤ 2 ^ 64)
    (hapart : Apart lo hi x y) (hxy : x < y) : Tiles m' false lo bs hi := by
  cases bs with
  | nil => exact h
  | cons b bs =>
    have hleast := b.least_le
    have hhi := h.hi_eq
    simp only [extent_cons] at hhi
    rcases hapart.ordered (by omega) hxy with hd | hd
    · exact h.frame hsame htop (.inl hd)
    · exact h.frame hsame htop (.inr hd)

/-- The kernel grants a mapping, and its first word is written. -/
theorem Layout.map (hK : K.Lawful) (h : Layout K w bs) {n : Nat} (v : Nat)
    (hok : isErrno (K.mmap w.log n) = false) (hn : 8 ≤ n) :
    ∃ m', store64 (zeroFill w.mem (K.mmap w.log n) n) (K.mmap w.log n) v = m' ∧
      Layout K { w with mem := m', log := .mmap n (K.mmap w.log n) :: w.log } bs ∧
      SameOutside w.mem m' (K.mmap w.log n) (K.mmap w.log n + n) ∧
      load64 m' (K.mmap w.log n) = v % 2 ^ 64 := by
  have htop := h.hi_lt
  have huser := (hK.mmap_page w.log n hok).2
  have hsame : SameOutside w.mem (store64 (zeroFill w.mem (K.mmap w.log n) n) (K.mmap w.log n) v)
      (K.mmap w.log n) (K.mmap w.log n + n) := by
    refine (zeroFill_sameOutside w.mem (K.mmap w.log n) n).trans ?_
    refine (store64_sameOutside _ _ ?_).mono (Nat.le_refl _) (by omega)
    unfold userTop at huser
    omega
  refine ⟨_, rfl, ⟨h.toPlaced.map hK hok _, ?_, h.topOnly⟩, hsame, ?_⟩
  · exact h.tiles.frame_apart hsame (by omega) (h.map_apart hK hok) (by omega)
  · exact load64_store64_same _ _ (by unfold userTop at huser; omega)

/-- A mapping is given back to the kernel. -/
theorem Layout.unmap (h : Layout K w bs) (a n : Nat) : Layout K (toylibcMunmap w a n) bs :=
  ⟨h.toPlaced.unmap a n, h.tiles, h.topOnly⟩

end

end Toylibc
