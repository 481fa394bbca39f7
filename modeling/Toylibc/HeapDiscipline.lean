import Toylibc.CallocZeroes
import Toylibc.HeapFootprint

/-!
# A discipline that avoids the defects

A rule that a client can follow without knowing the heap: give back, by `toylibc_free` or
`toylibc_realloc`, only what was requested with at least `mmapLimit` bytes. Such a program never
makes a free block in the brk heap, so nothing is ever split or merged and no run of it reaches a
defect, as long as `mmap` refuses with no other error than `-1` (`large_only_safe`).
-/

namespace Toylibc

open ByteMemory BlockList Transition

/-- A large request is granted, or refused with `-1`. -/
def MapsOrRefuses (K : Kernel) (w : Heap) (sz : Nat) : Prop :=
  mmapLimit ≤ sz → isErrno (K.mmap w.log (mapLength sz)) = true →
    K.mmap w.log (mapLength sz) = wnot 0

/-- Nothing small is lent at `ptr`. -/
def LargeAt (s : State) (ptr : Nat) : Prop := ∀ l ∈ s.lent, l.ptr = ptr → mmapLimit ≤ l.size

/-- Only large requests are given back. -/
def GivesBackLarge (K : Kernel) (s : State) : Event → Prop
  | .malloc sz => MapsOrRefuses K s.heap sz
  | .calloc n sz => n * sz < 2 ^ 64 → MapsOrRefuses K s.heap (n * sz)
  | .realloc ptr newsz => MapsOrRefuses K s.heap newsz ∧ LargeAt s ptr
  | .free ptr => LargeAt s ptr
  | .write _ _ => True

instance (K : Kernel) (w : Heap) (sz : Nat) : Decidable (MapsOrRefuses K w sz) :=
  inferInstanceAs (Decidable (_ → _ → _ = _))

instance (s : State) (ptr : Nat) : Decidable (LargeAt s ptr) :=
  inferInstanceAs (Decidable (∀ l ∈ s.lent, l.ptr = ptr → mmapLimit ≤ l.size))

instance (K : Kernel) (s : State) : (e : Event) → Decidable (GivesBackLarge K s e)
  | .malloc sz => inferInstanceAs (Decidable (MapsOrRefuses K s.heap sz))
  | .calloc n sz => inferInstanceAs (Decidable (n * sz < 2 ^ 64 → MapsOrRefuses K s.heap (n * sz)))
  | .realloc ptr newsz => inferInstanceAs (Decidable (MapsOrRefuses K s.heap newsz ∧ LargeAt s ptr))
  | .free ptr => inferInstanceAs (Decidable (LargeAt s ptr))
  | .write _ _ => .isTrue trivial

section

variable {K : Kernel} {s : State} {bs : List HeapBlock} {w : Heap}

/-! ## The end of the heap -/

theorem Layout.topFree_eq_zero (h : Layout K w bs) : topFree w = 0 ↔ ∀ b ∈ bs, b.free = false := by
  rw [h.topFree_eq]
  constructor
  · intro hzero
    rcases lastFree_cases bs with hlast | ⟨pre, c, rfl, hc⟩
    · exact h.topOnly.all_used hlast
    · have hleast := c.least_le
      rw [freeBefore_concat, if_pos hc] at hzero
      omega
  · exact fun hused => freeBefore_of_lastFree_eq_false (lastFree_eq_false hused)

/-- A store into a lent range does not reach the tags at the end. -/
theorem Sound.topFree_store {m' : Mem} (h : Sound K s bs) {l : Lent} (hl : l ∈ s.lent)
    (hsame : SameOutside s.heap.mem m' l.ptr (l.ptr + l.size)) :
    topFree { s.heap with mem := m' } = topFree s.heap := by
  have hstored := (h.store hl hsame).1
  rw [h.layout.topFree_eq]
  exact hstored.layout.topFree_eq

/-- A heap that is extended behind blocks in use ends in a block in use. -/
theorem Layout.topFree_extend (hK : K.Lawful) (h : Layout K w bs) (hok : w.heapOk = true)
    (hused : ∀ b ∈ bs, b.free = false) {need : Nat} (hpos : 0 < need) (hneed : need < 2 ^ 32) :
    topFree (brkExtend K w need).2 = 0 := by
  by_cases hrefuse : BrkRefused K w need
  · have hbreak : ∀ newBrk ret, ret ≠ newBrk →
        breakAfter K (.brk newBrk ret :: w.log) = breakAfter K w.log := fun _ _ hne => if_neg hne
    rw [brkExtend_refused hrefuse]
    exact (h.relog (hbreak _ _ hrefuse) rfl).topFree_eq_zero.mpr hused
  · obtain ⟨w', c, hgrown, hlayout, hc, -⟩ := h.grow hK hok hused need hpos hneed hrefuse
    rw [hgrown]
    refine hlayout.topFree_eq_zero.mpr fun b hb => ?_
    rcases List.mem_append.mp hb with hb | hb
    · exact hused b hb
    · rw [List.mem_singleton.mp hb, hc]

/-- A request that finds every block in use leaves every block in use. -/
theorem topFree_malloc (hK : K.Lawful) (h : Sound K s bs) (hfull : topFree s.heap = 0) {sz p : Nat}
    {w' : Heap} (hsz : sz < 2 ^ 63) (hmaps : MapsOrRefuses K s.heap sz)
    (hcall : toylibcMalloc K s.heap sz = some (p, w')) : topFree w' = 0 := by
  by_cases hzero : sz = 0
  · rw [toylibcMalloc, if_pos hzero] at hcall
    cases hcall
    exact hfull
  by_cases hbig : mmapLimit ≤ sz
  · rw [toylibcMalloc_large hbig, Option.some.injEq] at hcall
    cases hok : isErrno (K.mmap s.heap.log (mapLength sz)) with
    | true =>
      obtain ⟨log, hmap, -, -⟩ := mallocMap_refused (hmaps hbig hok)
      rw [hmap] at hcall
      cases hcall
      exact hfull
    | false =>
      obtain ⟨hmap, -⟩ := mallocMap_granted hK hok
      have hlen := mapLength_eq hsz
      obtain ⟨m', hmem, hlayout, -, -⟩ :=
        h.layout.map hK (mapLength sz ||| flagAlloc) hok (by omega)
      rw [hmap, hmem] at hcall
      cases hcall
      rw [h.layout.topFree_eq_zero] at hfull
      exact hlayout.topFree_eq_zero.mpr hfull
  · have hsmall := Nat.lt_of_not_le hbig
    have hneed := brkNeed_eq hsz
    rw [h.layout.topFree_eq_zero] at hfull
    obtain ⟨hready, -, hok, -, -⟩ := h.layout.ready hK
    have hi := hready.hi_lt
    have hext : brkAlloc K (ready K s.heap) (brkNeed sz) =
        some (brkExtend K (ready K s.heap) (brkNeed sz)) := by
      refine brkAlloc_of_noFit (by decide) hready.tiles.walk (by omega) fun c hc hfree => ?_
      rw [hfull c hc] at hfree
      cases hfree
    rw [toylibcMalloc_small (Nat.pos_of_ne_zero hzero) hsmall, hext, Option.some.injEq] at hcall
    unfold mmapLimit at hsmall
    have hextended : topFree (brkExtend K (ready K s.heap) (brkNeed sz)).2 = 0 :=
      hready.topFree_extend hK hok hfull (by omega) (by omega)
    rwa [hcall] at hextended

/-- Neither `NULL` nor what is large is in the brk heap. -/
theorem LargeAt.not_inBrk (hK : K.Lawful) (h : Sound K s bs) (hmaps : MapsExact s) {ptr : Nat}
    (howned : Owned s ptr) (hlarge : LargeAt s ptr) : ¬InBrk s.heap ptr := by
  rintro ⟨hlo, hhi⟩
  rcases howned with rfl | ⟨l, hl, rfl⟩
  · cases hok : s.heap.heapOk with
    | true =>
      have hstart := h.layout.start_le_lo hok
      have hpos := hK.break0_pos
      omega
    | false =>
      have hempty := h.layout.fresh hok
      omega
  · have hbacked := hmaps.backed h hl
    rw [if_pos (hlarge l hl rfl)] at hbacked
    obtain ⟨a, n, hptr, hmap, -, hbig, -⟩ := hbacked
    unfold mmapLimit at hbig
    exact h.layout.maps_heap _ hmap l.ptr hlo hhi ⟨by dsimp only; omega, by dsimp only; omega⟩

/-- The release of what is large, or of `NULL`, leaves the heap as it was. -/
theorem topFree_free (h : Sound K s bs) (hmaps : MapsExact s) {ptr : Nat} (howned : Owned s ptr)
    (hlarge : LargeAt s ptr) : topFree (toylibcFree s.heap ptr) = topFree s.heap := by
  by_cases hnull : ptr = 0
  · rw [hnull, toylibcFree, if_pos rfl]
  · obtain ⟨l, hl, rfl⟩ := howned.resolve_left hnull
    have hbacked := hmaps.backed h hl
    rw [if_pos (hlarge l hl rfl)] at hbacked
    obtain ⟨a, n, hptr, hmap, hsz, hbig, -⟩ := hbacked
    rw [hptr, toylibcFree_mapping h hmap hsz hbig]
    rfl

/-! ## One event -/

theorem MapsOrRefuses.allocAvoids (hK : K.Lawful) (h : Sound K s bs) (hfull : topFree s.heap = 0)
    {sz : Nat} (hmaps : MapsOrRefuses K s.heap sz) : AllocAvoids K s.heap sz := by
  have hready := (h.layout.ready hK).1
  rw [h.layout.topFree_eq_zero] at hfull
  unfold AllocAvoids
  split
  · trivial
  · split
    · next hbig => exact hmaps hbig
    · exact .inl (hready.topFree_eq_zero.mpr hfull)

/-- Such an event reaches no defect. -/
theorem GivesBackLarge.avoidsDefects (hK : K.Lawful) (h : Sound K s bs) (hmaps : MapsExact s)
    (hfull : topFree s.heap = 0) {e : Event} (hr : Respects s e) (hg : GivesBackLarge K s e) :
    AvoidsDefects K s e := by
  cases e with
  | malloc sz => exact MapsOrRefuses.allocAvoids hK h hfull hg
  | calloc n sz => exact fun hfits => MapsOrRefuses.allocAvoids hK h hfull (hg hfits)
  | free ptr => exact fun hin => absurd hin (LargeAt.not_inBrk hK h hmaps hr hg)
  | write addr b => trivial
  | realloc ptr newsz =>
    have hout := LargeAt.not_inBrk hK h hmaps hr.2 hg.2
    have halloc := MapsOrRefuses.allocAvoids hK h hfull hg.1
    dsimp only [AvoidsDefects]
    split
    · exact halloc
    · split
      · exact fun hin => absurd hin hout
      · exact .inr ⟨halloc, fun hin => absurd hin hout⟩

/-- A granted `toylibc_calloc` leaves every block in use. -/
theorem topFree_calloc (hK : K.Lawful) (h : Sound K s bs) (hfull : topFree s.heap = 0)
    {n sz p : Nat} {w' : Heap} (hsz : n * sz < 2 ^ 63) (hgrant : MapsOrRefuses K s.heap (n * sz))
    (hcall : toylibcCalloc K s.heap n sz = some (p, w')) : topFree w' = 0 := by
  obtain ⟨w₁, hmalloc, hcases⟩ := toylibcCalloc_cases (by omega) hcall
  have hfull₁ := topFree_malloc hK h hfull hsz hgrant hmalloc
  rcases hcases with ⟨-, rfl⟩ | ⟨hp, rfl⟩
  · exact hfull₁
  · obtain ⟨⟨bs', hnew, -⟩, -⟩ := malloc_copied hK h hsz (hgrant.allocAvoids hK h hfull) hmalloc hp
      0 (Nat.zero_le _)
    have hlt := (hnew.ptr_lt List.mem_cons_self).2
    have hzeroed := memset_zeroed w₁.mem (show p + n * sz ≤ space from Nat.le_of_lt hlt)
    rw [← hfull₁]
    exact hnew.topFree_store List.mem_cons_self hzeroed.frame

/-- A moved block leaves every block in use. -/
theorem topFree_move (hK : K.Lawful) (h : Sound K s bs) (hmaps : MapsExact s)
    (hfull : topFree s.heap = 0) {l : Lent} (hl : l ∈ s.lent) {newsz cp p : Nat} {w' : Heap}
    (hsz : newsz < 2 ^ 63) (hcp : cp ≤ newsz) (hgrant : MapsOrRefuses K s.heap newsz)
    (hlarge : LargeAt s l.ptr) (hcall : reallocMove K s.heap l.ptr newsz cp = some (p, w')) :
    topFree w' = 0 := by
  have hclean := hgrant.allocAvoids hK h hfull
  obtain ⟨w₁, hmalloc, hcases⟩ := reallocMove_cases hcall
  have hfull₁ := topFree_malloc hK h hfull hsz hgrant hmalloc
  have hlend := hmaps.lend hK h hclean hmalloc
  rcases hcases with ⟨-, rfl⟩ | ⟨hp, rfl⟩
  · exact hfull₁
  · rw [lend, if_neg hp] at hlend
    obtain ⟨⟨bs', hnew, hcopied⟩, hne⟩ := malloc_copied hK h hsz hclean hmalloc hp l.ptr hcp
    have hlarge' : LargeAt ⟨{ w₁ with mem := (toylibcMemcpy w₁.mem p l.ptr cp).1 },
        ⟨p, newsz⟩ :: s.lent⟩ l.ptr := by
      intro l' hl' heq
      rcases List.mem_cons.mp hl' with rfl | hl'
      · exact absurd heq (hne l hl)
      · exact hlarge l' hl' heq
    have hfreed := topFree_free hcopied hlend (.inr ⟨l, List.mem_cons_of_mem _ hl, rfl⟩) hlarge'
    have hsame := hcopied.layout.topFree_eq.trans hnew.layout.topFree_eq.symm
    dsimp only at hfreed hsame
    rw [hfreed, hsame]
    exact hfull₁

/-- And it leaves every block in use. -/
theorem GivesBackLarge.topFree (hK : K.Lawful) (h : Sound K s bs) (hmaps : MapsExact s)
    (hfull : topFree s.heap = 0) {e : Event} {p : Nat} {w' : Heap} (hr : Respects s e)
    (hg : GivesBackLarge K s e) (hcall : call K s.heap e = some (p, w')) :
    Toylibc.topFree w' = 0 := by
  cases e with
  | malloc sz =>
    rw [call] at hcall
    exact topFree_malloc hK h hfull hr hg hcall
  | calloc n sz =>
    rw [call] at hcall
    rcases hr.2.2 with hsmall | hoverflow
    · exact topFree_calloc hK h hfull hsmall (hg (by omega)) hcall
    · rw [toylibcCalloc_overflow hoverflow] at hcall
      cases hcall
      exact hfull
  | free ptr =>
    rw [call] at hcall
    cases hcall
    rw [topFree_free h hmaps hr hg, hfull]
  | write addr b =>
    rw [call] at hcall
    cases hcall
    obtain ⟨l, hl, i, hi, rfl⟩ := hr
    have hlt := h.ptr_lt hl
    have hstore := storeByte_sameOutside s.heap.mem (show l.ptr + i < 2 ^ 64 by omega) b
    rw [Nat.mod_eq_of_lt (by omega), ← hfull]
    exact h.topFree_store hl (hstore.mono (by omega) (by omega))
  | realloc ptr newsz =>
    obtain ⟨hsz, howned⟩ := hr
    obtain ⟨hgrant, hlarge⟩ := hg
    rw [call] at hcall
    by_cases hnull : ptr = 0
    · rw [toylibcRealloc, if_pos hnull] at hcall
      exact topFree_malloc hK h hfull hsz hgrant hcall
    by_cases hzero : newsz = 0
    · rw [toylibcRealloc, if_neg hnull, if_pos hzero] at hcall
      cases hcall
      rw [topFree_free h hmaps howned hlarge, hfull]
    by_cases hstay : StaysInPlace s.heap ptr newsz
    · rw [toylibcRealloc_stay hnull hzero hstay] at hcall
      cases hcall
      exact hfull
    · obtain ⟨l, hl, rfl⟩ := howned.resolve_left hnull
      rw [toylibcRealloc_move hnull hzero hstay] at hcall
      exact topFree_move hK h hmaps hfull hl hsz (Nat.min_le_right _ _) hgrant hlarge hcall

end

/-! ## Runs -/

/-- A run in which only large requests are given back, and in which `mmap` refuses with `-1` only,
reaches no defect: the free blocks, the tags and the lent ranges are as they should be in all of
its states. No block of the brk heap is ever free. -/
theorem large_only_safe {K : Kernel} (hK : K.Lawful) {s : State}
    (h : Reach Fresh (fun s e => Respects s e ∧ GivesBackLarge K s e) (step K) s) :
    SafelyReachable K s ∧
      ∃ bs : List HeapBlock, Walk s.heap.mem s.heap.heapLo bs s.heap.heapHi ∧
        ∀ b ∈ bs, b.free = false := by
  have hinv : SafelyReachable K s ∧ topFree s.heap = 0 := by
    refine Reach.invariant (fun s => SafelyReachable K s ∧ topFree s.heap = 0) ?_ ?_ h
    · intro s hfresh
      refine ⟨.start hfresh, ?_⟩
      exact (hfresh.sound hK).layout.topFree_eq_zero.mpr fun b hb => absurd hb List.not_mem_nil
    · rintro s e s' ⟨hsafe, hfull⟩ ⟨hr, hg⟩ hstep
      obtain ⟨bs, hs⟩ := hsafe.sound hK
      have hmaps := hsafe.mapsExact hK
      refine ⟨.next hsafe ⟨hr, hg.avoidsDefects hK hs hmaps hfull hr⟩ hstep, ?_⟩
      obtain ⟨p, w', hcall, rfl⟩ := call_of_step hstep
      exact hg.topFree hK hs hmaps hfull hr hcall
  obtain ⟨hsafe, hfull⟩ := hinv
  obtain ⟨bs, hs⟩ := hsafe.sound hK
  exact ⟨hsafe, bs, hs.layout.tiles.walk, hs.layout.topFree_eq_zero.mp hfull⟩

/-- A mapping shrinks into a block, and another one is given back. -/
def largeRun : List Event :=
  [.malloc 24, .malloc 200000, .realloc 70368744177672 40, .malloc 140000, .free 70368744177672]

theorem largeRun_safe : SafelyReachable smallKernel (stateAfter largeRun) ∧
    ∃ bs : List HeapBlock, Walk (stateAfter largeRun).heap.mem (stateAfter largeRun).heap.heapLo bs
      (stateAfter largeRun).heap.heapHi ∧ ∀ b ∈ bs, b.free = false := by
  have hlegal : Legal (fun s e => Respects s e ∧ GivesBackLarge smallKernel s e) (step smallKernel)
      freshState largeRun := by decide +kernel
  exact large_only_safe smallKernel_lawful (Reach.follow (.start fresh_freshState) hlegal)

end Toylibc
