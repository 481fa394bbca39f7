import Toylibc.ReleaseMechanism

/-!
# The mappings that the heap holds

In a run that avoids the defects the mappings are exactly those of the large requests that are
lent, one for each, of the length that such a request takes (`mappings_exact`): none is leaked and
none is given back too early.
-/

namespace Toylibc

open ByteMemory BlockList Transition

/-- The mapping for a lent large request. -/
def mappingOf (l : Lent) : Nat × Nat := (l.ptr - hdrSz, mapLength l.size)

/-- What is lent and large. -/
def large (lent : List Lent) : List Lent := lent.filter fun l => mmapLimit ≤ l.size

/-- The mappings that are alive are those for what is lent and large, the last one first. -/
def MapsExact (s : State) : Prop := mapsAfter s.heap.log = (large s.lent).map mappingOf

theorem mem_large {lent : List Lent} {l : Lent} :
    l ∈ large lent ↔ l ∈ lent ∧ mmapLimit ≤ l.size := by
  simp [large]

theorem large_giveBack (ptr : Nat) (lent : List Lent) :
    large (giveBack ptr lent) = giveBack ptr (large lent) := by
  unfold large giveBack
  exact List.filter_comm _ _ _

theorem large_cons {l : Lent} {lent : List Lent} :
    large (l :: lent) = if mmapLimit ≤ l.size then l :: large lent else large lent := by
  unfold large
  rw [List.filter_cons]
  simp only [decide_eq_true_eq]

/-- A pointer is lent once. -/
theorem eq_of_ptr_eq {lent : List Lent} (hd : lent.Pairwise fun l l' => l.ptr ≠ l'.ptr)
    {l l' : Lent} (hl : l ∈ lent) (hl' : l' ∈ lent) (heq : l.ptr = l'.ptr) : l = l' := by
  by_contra hne
  have : Std.Symm fun l l' : Lent => l.ptr ≠ l'.ptr := ⟨fun _ _ => Ne.symm⟩
  exact hd.forall hl hl' hne heq

/-- What is not large can be given back without a change. -/
theorem large_giveBack_small {lent : List Lent} {l : Lent}
    (hd : lent.Pairwise fun l l' => l.ptr ≠ l'.ptr) (hl : l ∈ lent) (hsmall : l.size < mmapLimit) :
    large (giveBack l.ptr lent) = large lent := by
  rw [large_giveBack]
  refine List.filter_eq_self.mpr fun l' hl' => decide_eq_true fun heq => ?_
  obtain ⟨hmem, hbig⟩ := mem_large.mp hl'
  rw [eq_of_ptr_eq hd hmem hl heq] at hbig
  exact absurd hsmall (Nat.not_lt_of_le hbig)

/-- The first mapping of a lent large request is its only one. -/
theorem erase_mappingOf {lent : List Lent} (hd : lent.Pairwise fun l l' => l.ptr ≠ l'.ptr)
    (hpos : ∀ l ∈ lent, hdrSz ≤ l.ptr) {l : Lent} (hl : l ∈ lent) :
    (lent.map mappingOf).erase (mappingOf l) = (giveBack l.ptr lent).map mappingOf := by
  have hptr : ∀ l₁ ∈ lent, ∀ l₂ ∈ lent, mappingOf l₁ = mappingOf l₂ → l₁.ptr = l₂.ptr := by
    intro l₁ h₁ l₂ h₂ heq
    have h8 := hpos l₁ h₁
    have h8' := hpos l₂ h₂
    have hfst : l₁.ptr - hdrSz = l₂.ptr - hdrSz := congrArg Prod.fst heq
    omega
  have hnodup : (lent.map mappingOf).Nodup := by
    refine List.pairwise_map.mpr (hd.imp_of_mem fun h₁ h₂ hne heq => hne ?_)
    exact hptr _ h₁ _ h₂ heq
  rw [hnodup.erase_eq_filter, List.filter_map]
  refine congrArg (List.map mappingOf) (List.filter_congr fun l' hl' => ?_)
  by_cases heq : l'.ptr = l.ptr
  · rw [eq_of_ptr_eq hd hl' hl heq]
    simp
  · have hne : mappingOf l' ≠ mappingOf l := fun hbad => heq (hptr l' hl' l hl hbad)
    simp [hne, heq]

section

variable {K : Kernel} {s : State} {bs : List HeapBlock} {w : Heap}

theorem mapsAfter_brkExtend (K : Kernel) (w : Heap) (need : Nat) :
    mapsAfter (brkExtend K w need).2.log = mapsAfter w.log := by
  have hgrow := mapsAfter_brkGrow K w need
  unfold brkExtend
  generalize brkGrow K w need = g at hgrow
  dsimp only
  split
  · exact hgrow
  · exact hgrow

theorem mapsAfter_brkAlloc {need p : Nat} {w' : Heap} (hcall : brkAlloc K w need = some (p, w')) :
    mapsAfter w'.log = mapsAfter w.log := by
  rcases brkAlloc_cases hcall with ⟨cur, -, -, rfl⟩ | ⟨-, hext⟩
  · rfl
  · have hmaps := mapsAfter_brkExtend K w need
    rwa [hext] at hmaps

/-- A request maps memory when it is large and granted. -/
theorem mapsAfter_malloc (hK : K.Lawful) (hs : Sound K s bs) {sz p : Nat} {w' : Heap}
    (hclean : AllocAvoids K s.heap sz) (hcall : toylibcMalloc K s.heap sz = some (p, w')) :
    mapsAfter w'.log = if p ≠ 0 ∧ mmapLimit ≤ sz then mappingOf ⟨p, sz⟩ :: mapsAfter s.heap.log
      else mapsAfter s.heap.log := by
  unfold AllocAvoids at hclean
  by_cases hzero : sz = 0
  · rw [toylibcMalloc, if_pos hzero] at hcall
    cases hcall
    exact (if_neg fun hbad => hbad.1 rfl).symm
  rw [if_neg hzero] at hclean
  by_cases hbig : mmapLimit ≤ sz
  · rw [if_pos hbig] at hclean
    rw [toylibcMalloc_large hbig, Option.some.injEq] at hcall
    cases hok : isErrno (K.mmap s.heap.log (mapLength sz)) with
    | true =>
      obtain ⟨log, hmap, -, hmaps⟩ := mallocMap_refused (hclean hok)
      rw [hmap] at hcall
      cases hcall
      rw [if_neg fun hbad => hbad.1 rfl]
      exact hmaps
    | false =>
      obtain ⟨hmap, hmaps⟩ := mallocMap_granted hK hok
      rw [hmap] at hcall
      cases hcall
      rw [if_pos ⟨Nat.succ_ne_zero _, hbig⟩]
      exact hmaps
  · rw [if_neg fun hbad => hbig hbad.2]
    rw [toylibcMalloc_small (Nat.pos_of_ne_zero hzero) (Nat.lt_of_not_le hbig)] at hcall
    obtain ⟨-, -, -, hmaps⟩ := hs.ready hK
    exact (mapsAfter_brkAlloc hcall).trans hmaps

/-- `NULL` is not lent. -/
theorem Sound.giveBack_null (hs : Sound K s bs) : giveBack 0 s.lent = s.lent := by
  refine List.filter_eq_self.mpr fun l hl => decide_eq_true fun hbad => ?_
  have h8 := (hs.ptr_lt hl).1
  omega

theorem MapsExact.lend (hK : K.Lawful) (hs : Sound K s bs) (h : MapsExact s) {sz p : Nat}
    {w' : Heap} (hclean : AllocAvoids K s.heap sz)
    (hcall : toylibcMalloc K s.heap sz = some (p, w')) :
    MapsExact ⟨w', Toylibc.lend p sz s.lent⟩ := by
  have hmaps := mapsAfter_malloc hK hs hclean hcall
  unfold MapsExact Toylibc.lend
  dsimp only
  rw [hmaps, h]
  by_cases hp : p = 0
  · rw [if_pos hp, if_neg fun hbad => hbad.1 hp]
  · rw [if_neg hp, large_cons]
    by_cases hbig : mmapLimit ≤ sz
    · rw [if_pos ⟨hp, hbig⟩, if_pos hbig, List.map_cons]
    · rw [if_neg fun hbad => hbig hbad.2, if_neg hbig]

/-- A mapping behind whose header word something is lent is there for it. -/
theorem MapsExact.mem (hs : Sound K s bs) (h : MapsExact s) {l : Lent} (hl : l ∈ s.lent) {a n : Nat}
    (hptr : l.ptr = a + 8) (hmap : (a, n) ∈ mapsAfter s.heap.log) :
    l ∈ large s.lent ∧ mappingOf l = (a, n) := by
  rw [h, List.mem_map] at hmap
  obtain ⟨l', hl', heq⟩ := hmap
  have hmem := (mem_large.mp hl').1
  have h8 := (hs.ptr_lt hmem).1
  have hfst : l'.ptr - 8 = a := congrArg Prod.fst heq
  have hsame : l' = l := eq_of_ptr_eq hs.distinct hmem hl (by omega)
  rw [← hsame]
  exact ⟨hl', heq⟩

/-- What is lent and large has its own mapping, and what is small is in the brk heap. -/
theorem MapsExact.backed (hs : Sound K s bs) (h : MapsExact s) {l : Lent} (hl : l ∈ s.lent) :
    if mmapLimit ≤ l.size then InMapping s.heap l else InBlock s.heap bs l := by
  split
  · next hbig =>
    refine (hs.backed l hl).resolve_left ?_
    rintro ⟨a, b, hptr, hb, -, -⟩
    -- the mapping would lie in the heap
    have hlarge := mem_large.mpr ⟨hl, hbig⟩
    have hmap := hs.layout.maps_heap (mappingOf l) (by rw [h]; exact List.mem_map_of_mem hlarge)
    have hin := place_bounds hb
    have hleast := b.least_le
    have hhi := hs.layout.tiles.hi_eq
    have hlen : 0 < mapLength l.size := by
      obtain ⟨a', n', -, -, hfit, htop⟩ := hs.region hl
      have hlen := mapLength_eq (show l.size < 2 ^ 63 by unfold userTop at htop; omega)
      omega
    refine hmap a (by omega) (by omega) ⟨?_, ?_⟩ <;> dsimp only [mappingOf, hdrSz] <;> omega
  · next hsmall =>
    refine (hs.backed l hl).resolve_right ?_
    rintro ⟨a, n, hptr, hmap, -, -, -⟩
    exact hsmall (mem_large.mp (h.mem hs hl hptr hmap).1).2

/-- A release gives back the mapping of what is large, and no other. -/
theorem MapsExact.free (hs : Sound K s bs) (h : MapsExact s) {l : Lent} (hl : l ∈ s.lent) :
    MapsExact ⟨toylibcFree s.heap l.ptr, giveBack l.ptr s.lent⟩ := by
  have hbacked := h.backed hs hl
  unfold MapsExact
  dsimp only
  split at hbacked
  · obtain ⟨a, n, hptr, hmap, hsz, hlong, -⟩ := hbacked
    obtain ⟨hlarge, hof⟩ := h.mem hs hl hptr hmap
    have herase := erase_mappingOf (hs.distinct.sublist List.filter_sublist)
      (fun l' hl' => (hs.ptr_lt (mem_large.mp hl').1).1) hlarge
    rw [large_giveBack, ← show _ = List.map mappingOf (giveBack l.ptr (large s.lent)) from herase,
      hptr, toylibcFree_mapping hs hmap hsz hlong, hof, toylibcMunmap, mapsAfter, h]
    rfl
  · next hsmall =>
    obtain ⟨a, b, hptr, hb, -, -⟩ := hbacked
    have hin := place_bounds hb
    have hhi := hs.layout.tiles.hi_eq
    have hleast := b.least_le
    rw [large_giveBack_small hs.distinct hl (Nat.lt_of_not_le hsmall), hptr,
      toylibcFree_brk (by omega) (by omega)]
    exact h

/-- A resized block stays what it was. -/
theorem MapsExact.stay (hs : Sound K s bs) (h : MapsExact s) {l : Lent} (hl : l ∈ s.lent)
    {newsz : Nat} (hstay : StaysInPlace s.heap l.ptr newsz) :
    MapsExact ⟨s.heap, ⟨l.ptr, newsz⟩ :: giveBack l.ptr s.lent⟩ := by
  have hbacked := h.backed hs hl
  obtain ⟨hold, hfit⟩ := hstay
  have hsmall : l.size < mmapLimit := by
    refine Nat.lt_of_not_le fun hbig => ?_
    rw [if_pos hbig] at hbacked
    obtain ⟨a, n, hptr, hmap, hsz, hlong, -⟩ := hbacked
    have htop : a + n ≤ userTop := hs.layout.maps_user _ hmap
    unfold userTop at htop
    unfold mmapLimit overhead at *
    have hsize := oldSize_eq hsz (by omega) (by omega)
    rw [hptr] at hold
    omega
  unfold MapsExact
  dsimp only
  rw [large_cons, if_neg (by dsimp only; omega), large_giveBack_small hs.distinct hl hsmall]
  exact h

/-- A new block that was handed out and filled. -/
theorem malloc_copied (hK : K.Lawful) (hs : Sound K s bs) {newsz p : Nat} {w₁ : Heap}
    (hsz : newsz < 2 ^ 63) (hclean : AllocAvoids K s.heap newsz)
    (hmalloc : toylibcMalloc K s.heap newsz = some (p, w₁)) (hp : p ≠ 0) (src : Nat) {cp : Nat}
    (hcp : cp ≤ newsz) :
    (∃ bs', Sound K ⟨w₁, ⟨p, newsz⟩ :: s.lent⟩ bs' ∧
      Sound K ⟨{ w₁ with mem := (toylibcMemcpy w₁.mem p src cp).1 }, ⟨p, newsz⟩ :: s.lent⟩ bs') ∧
      ∀ l ∈ s.lent, p ≠ l.ptr := by
  obtain ⟨q, w', hmalloc', ⟨⟨bs', hsound⟩, -, -⟩, -, -⟩ := malloc_sound hK hs hsz hclean
  rw [hmalloc, Option.some.injEq, Prod.mk.injEq] at hmalloc'
  obtain ⟨rfl, rfl⟩ := hmalloc'
  rw [lend, if_neg hp] at hsound
  have hnew : (⟨p, newsz⟩ : Lent) ∈ (⟨p, newsz⟩ :: s.lent : List Lent) := List.mem_cons_self
  have hlt := (hsound.ptr_lt hnew).2
  have hcopy := memcpy_sameOutside w₁.mem src
    (show p + cp ≤ 2 ^ 64 by dsimp only at hlt; omega)
  have hcopied := (hsound.store hnew (hcopy.mono (Nat.le_refl _) (Nat.add_le_add_left hcp p))).1
  exact ⟨⟨bs', hsound, hcopied⟩, (List.pairwise_cons.mp hsound.distinct).1⟩

/-- A moved block leaves its mapping, and has a new one when it is large. -/
theorem MapsExact.move (hK : K.Lawful) (hs : Sound K s bs) (h : MapsExact s) {l : Lent}
    (hl : l ∈ s.lent) {newsz cp p : Nat} {w' : Heap} (hsz : newsz < 2 ^ 63) (hcp : cp ≤ newsz)
    (hclean : AllocAvoids K s.heap newsz)
    (hcall : reallocMove K s.heap l.ptr newsz cp = some (p, w')) :
    MapsExact ⟨w', if p = 0 then s.lent else ⟨p, newsz⟩ :: giveBack l.ptr s.lent⟩ := by
  obtain ⟨w₁, hmalloc, hcases⟩ := reallocMove_cases hcall
  have hlend := h.lend hK hs hclean hmalloc
  rcases hcases with ⟨hp, rfl⟩ | ⟨hp, rfl⟩
  · rw [Toylibc.lend, if_pos hp] at hlend
    rw [if_pos hp]
    exact hlend
  · rw [Toylibc.lend, if_neg hp] at hlend
    rw [if_neg hp]
    obtain ⟨⟨bs', -, hcopied⟩, hnew⟩ := malloc_copied hK hs hsz hclean hmalloc hp l.ptr hcp
    have hfree := MapsExact.free hcopied hlend (List.mem_cons_of_mem _ hl)
    have hback : giveBack l.ptr (⟨p, newsz⟩ :: s.lent) = ⟨p, newsz⟩ :: giveBack l.ptr s.lent := by
      have hne := hnew l hl
      simp [giveBack, hne]
    dsimp only at hfree
    rw [hback] at hfree
    exact hfree

/-- Every event keeps the account. -/
theorem MapsExact.step (hK : K.Lawful) (hs : Sound K s bs) (h : MapsExact s) {e : Event}
    {s' : State} (hr : Respects s e) (ha : AvoidsDefects K s e)
    (hstep : Toylibc.step K s e = some s') : MapsExact s' := by
  obtain ⟨p, w', hcall, rfl⟩ := call_of_step hstep
  cases e with
  | malloc sz => exact h.lend hK hs ha hcall
  | calloc n sz =>
    rcases hr.2.2 with hsmall | hoverflow
    · have hclean : AllocAvoids K s.heap (n * sz) := ha (by omega)
      rw [call] at hcall
      obtain ⟨w₁, hmalloc, hcases⟩ := toylibcCalloc_cases (by omega) hcall
      have hlend := h.lend hK hs hclean hmalloc
      rcases hcases with ⟨-, rfl⟩ | ⟨-, rfl⟩
      · exact hlend
      · exact hlend
    · rw [call, toylibcCalloc_overflow hoverflow] at hcall
      cases hcall
      exact h
  | free ptr =>
    cases hcall
    by_cases hnull : ptr = 0
    · rw [hnull, toylibcFree, if_pos rfl, relend, hs.giveBack_null]
      exact h
    · obtain ⟨l, hl, rfl⟩ := hr.resolve_left hnull
      exact h.free hs hl
  | write addr b =>
    cases hcall
    exact h
  | realloc ptr newsz =>
    obtain ⟨hsz, howned⟩ := hr
    dsimp only [AvoidsDefects, relend] at ha ⊢
    by_cases hnull : ptr = 0
    · rw [if_pos hnull] at ha ⊢
      rw [call, toylibcRealloc, if_pos hnull] at hcall
      exact h.lend hK hs ha hcall
    rw [if_neg hnull] at ha ⊢
    obtain ⟨l, hl, rfl⟩ := howned.resolve_left hnull
    by_cases hzero : newsz = 0
    · rw [if_pos hzero]
      rw [call, toylibcRealloc, if_neg hnull, if_pos hzero] at hcall
      cases hcall
      exact h.free hs hl
    rw [if_neg hzero] at ha ⊢
    rw [call] at hcall
    by_cases hstay : StaysInPlace s.heap l.ptr newsz
    · rw [toylibcRealloc_stay hnull hzero hstay] at hcall
      cases hcall
      rw [if_neg hnull]
      exact h.stay hs hl hstay
    · rw [toylibcRealloc_move hnull hzero hstay] at hcall
      exact h.move hK hs hl hsz (Nat.min_le_right _ _) (ha.resolve_left hstay).1 hcall

end

theorem SafelyReachable.mapsExact {K : Kernel} (hK : K.Lawful) {s : State}
    (h : SafelyReachable K s) : MapsExact s := by
  refine (Reach.invariant (fun s => (∃ bs, Sound K s bs) ∧ MapsExact s) ?_ ?_ h).2
  · rintro s hfresh
    refine ⟨⟨[], hfresh.sound hK⟩, ?_⟩
    obtain ⟨-, -, -, hlog, hlent⟩ := hfresh
    rw [MapsExact, hlog, hlent]
    rfl
  · rintro s e s' ⟨⟨bs, hs⟩, hmaps⟩ ⟨hr, ha⟩ hstep
    obtain ⟨s'', bs', hstep', hs'⟩ := step_sound hK hs hr ha
    rw [hstep] at hstep'
    cases hstep'
    exact ⟨⟨bs', hs'⟩, hmaps.step hK hs hr ha hstep⟩

end Toylibc
