import Toylibc.MallocAnswer
import Toylibc.RunSafety

/-!
# The alignment of returned pointers

Block sizes and the bounds of the heap are multiples of 16 and mappings start at a page, but
the pointer that is handed out lies 8 bytes behind the start of the block. So it is never a
multiple of 16, unless the heap is already broken and the search finds a header in the middle
of a 16-byte unit (`returned_aligned_iff`). In a run that avoids the defects all that is lent
lies at odd multiples of 8, and `NULL` is the one aligned answer (`safe_answer_odd`).
-/

namespace Toylibc

open ByteMemory BlockList Transition

/-- What the event answers is a multiple of 16, as `NULL` is. -/
def AnswersAligned (K : Kernel) (w : Heap) (e : Event) : Prop :=
  ∀ p w', call K w e = some (p, w') → 16 ∣ p

/-- A request for `sz` bytes hands out no block at a multiple of 16: it is for nothing; or large,
and refused with `-1` or a number that leaves an aligned address behind the header word; or
small, and the search finds no header at a multiple of 16, and the heap is not extended. -/
def HandsOutOdd (K : Kernel) (w : Heap) (sz : Nat) : Prop :=
  if sz = 0 then True
  else if mmapLimit ≤ sz then
    isErrno (K.mmap w.log (mapLength sz)) = true ∧
      (K.mmap w.log (mapLength sz) = wnot 0 ∨ K.mmap w.log (mapLength sz) % 16 = 8)
  else
    (∀ cur, SearchFinds (ready K w) (brkNeed sz) cur → cur % 16 = 8) ∧
      (SearchFails (ready K w) (brkNeed sz) → BrkRefused K (ready K w) (brkNeed sz))

/-- The event hands out no block at a multiple of 16, and keeps none in place that is not already
at an odd multiple of 8. -/
def EventHandsOutOdd (K : Kernel) (w : Heap) (e : Event) : Prop :=
  (∀ sz, e.wants w = some sz → HandsOutOdd K w sz) ∧
    ∀ ptr newsz, e = .realloc ptr newsz → ptr ≠ 0 → newsz ≠ 0 → StaysInPlace w ptr newsz →
      16 ∣ ptr

section

variable {K : Kernel} {w : Heap}

/-- An event that asks for `sz` bytes answers what `toylibc_malloc` does. -/
theorem call_answer_of_wants {e : Event} {sz : Nat} (hwants : e.wants w = some sz) :
    (call K w e).map Prod.fst = (toylibcMalloc K w sz).map Prod.fst := by
  cases hmalloc : toylibcMalloc K w sz with
  | some r =>
    obtain ⟨w', hcall, -⟩ := call_of_wants hwants hmalloc
    rw [hcall]
    rfl
  | none =>
    obtain rfl | ⟨n, m, hfits, rfl, rfl⟩ | rfl | ⟨ptr, rfl, hptr, hsz, hstay⟩ :=
      Event.wants_cases hwants
    · rw [call, hmalloc]
    · rw [call, toylibcCalloc_fits hfits, hmalloc]
    · rw [call, toylibcRealloc, if_pos rfl, hmalloc]
    · have hmove := toylibcRealloc_move (K := K) hptr hsz hstay
      rw [call, hmove, reallocMove, hmalloc]

/-- An event that asks for nothing answers `NULL`, or the block that stays in place. -/
theorem call_answer_of_not_wants {e : Event} (hwants : e.wants w = none) {p : Nat} {w' : Heap}
    (hcall : call K w e = some (p, w')) :
    p = 0 ∨ ∃ newsz, e = .realloc p newsz ∧ newsz ≠ 0 ∧ StaysInPlace w p newsz := by
  cases e with
  | malloc n => cases hwants
  | calloc n m =>
    simp only [Event.wants] at hwants
    split at hwants
    · cases hwants
    · next hover =>
      rw [call, toylibcCalloc_overflow (Nat.le_of_not_lt hover), Option.some.injEq,
        Prod.mk.injEq] at hcall
      exact .inl hcall.1.symm
  | realloc ptr newsz =>
    simp only [Event.wants] at hwants
    split_ifs at hwants with hptr hkeeps
    rw [call] at hcall
    by_cases hzero : newsz = 0
    · rw [toylibcRealloc, if_neg hptr, if_pos hzero, Option.some.injEq, Prod.mk.injEq] at hcall
      exact .inl hcall.1.symm
    · have hstay := hkeeps.resolve_left hzero
      rw [toylibcRealloc_stay hptr hzero hstay, Option.some.injEq, Prod.mk.injEq] at hcall
      obtain ⟨rfl, -⟩ := hcall
      exact .inr ⟨newsz, rfl, hzero, hstay⟩
  | free ptr =>
    cases hcall
    exact .inl rfl
  | write addr b =>
    cases hcall
    exact .inl rfl

/-- A small request. -/
theorem small_aligned_iff (hready : Grounded K (ready K w)) {sz : Nat} (hpos : 0 < sz)
    (hsmall : sz < mmapLimit) :
    (∀ p w', toylibcMalloc K w sz = some (p, w') → 16 ∣ p) ↔
      (∀ cur, SearchFinds (ready K w) (brkNeed sz) cur → cur % 16 = 8) ∧
        (SearchFails (ready K w) (brkNeed sz) → BrkRefused K (ready K w) (brkNeed sz)) := by
  have hneed := brkNeed_eq (show sz < 2 ^ 63 by unfold mmapLimit at hsmall; omega)
  obtain ⟨hnew, hroom⟩ := hready.bounded.growSize_room hsmall
  have hhi_dvd := hready.hi_dvd
  simp only [toylibcMalloc_small hpos hsmall]
  constructor
  · intro haligned
    constructor
    · intro cur hfound
      have hlt := (brkSearch_found hfound).1
      have hdvd := haligned _ _ (brkAlloc_of_found hfound)
      rw [wadd_eq (by unfold hdrSz; omega)] at hdvd
      unfold hdrSz at hdvd
      omega
    · intro hfails
      by_contra hgrant
      have hanswer := not_not.mp hgrant
      rw [hnew] at hanswer
      obtain ⟨w', hext, -⟩ :=
        handedOut_brkExtend (by omega) (hready.hi_pos (ready_heapOk K w)) hroom hanswer
      have hdvd := haligned _ w' ((brkAlloc_of_searchFails hfails).trans (congrArg some hext))
      omega
  · rintro ⟨hfinds, hrefused⟩ p w' hcall
    rcases brkAlloc_answer hready (ready_heapOk K w) hsmall hcall with
      ⟨cur, hfound, rfl, -, -⟩ | ⟨-, -, rfl⟩ | ⟨hfails, hgrant, -, -⟩
    · have := hfinds cur hfound
      omega
    · exact Nat.dvd_zero 16
    · exact absurd (hrefused hfails) hgrant

/-- A large request. -/
theorem large_aligned_iff (hK : K.Lawful) {sz : Nat} (hbig : mmapLimit ≤ sz) :
    (∀ p w', toylibcMalloc K w sz = some (p, w') → 16 ∣ p) ↔
      isErrno (K.mmap w.log (mapLength sz)) = true ∧
        (K.mmap w.log (mapLength sz) = wnot 0 ∨ K.mmap w.log (mapLength sz) % 16 = 8) := by
  have hptr := (mallocMap_answer K w sz).1
  have hall : (∀ p w', toylibcMalloc K w sz = some (p, w') → 16 ∣ p) ↔
      16 ∣ (mallocMap K w sz).1 := by
    rw [toylibcMalloc_large hbig]
    constructor
    · exact fun h => h _ (mallocMap K w sz).2 rfl
    · intro h p w' hcall
      rw [Option.some.injEq] at hcall
      rwa [hcall] at h
  rw [hall, hptr]
  by_cases hret : K.mmap w.log (mapLength sz) = wnot 0
  · rw [if_pos hret, hret]
    exact iff_of_true (Nat.dvd_zero 16) ⟨by decide, .inl rfl⟩
  · rw [if_neg hret]
    unfold wadd hdrSz
    constructor
    · intro hdvd
      refine ⟨?_, .inr (by omega)⟩
      cases herrno : isErrno (K.mmap w.log (mapLength sz)) with
      | true => rfl
      | false =>
        -- a mapping starts at a page
        have hpage := (hK.mmap_page _ _ herrno).1
        omega
    · rintro ⟨-, hodd⟩
      have := hodd.resolve_left hret
      omega

theorem request_aligned_iff (hK : K.Lawful) (hready : Grounded K (ready K w)) {sz : Nat} :
    (∀ p w', toylibcMalloc K w sz = some (p, w') → 16 ∣ p) ↔ HandsOutOdd K w sz := by
  unfold HandsOutOdd
  split
  · next hzero =>
    refine iff_of_true (fun p w' hcall => ?_) trivial
    rw [toylibcMalloc, if_pos hzero, Option.some.injEq, Prod.mk.injEq] at hcall
    rw [← hcall.1]
    exact Nat.dvd_zero 16
  · next hpos =>
    split
    · next hbig => exact large_aligned_iff hK hbig
    · next hsmall =>
      exact small_aligned_iff hready (Nat.pos_of_ne_zero hpos) (Nat.lt_of_not_le hsmall)

/-- An event that asks for `sz` bytes answers multiples of 16 if and only if `toylibc_malloc`
does. -/
theorem answersAligned_of_wants {e : Event} {sz : Nat} (hwants : e.wants w = some sz) :
    AnswersAligned K w e ↔ ∀ p w', toylibcMalloc K w sz = some (p, w') → 16 ∣ p := by
  have hanswer := call_answer_of_wants (K := K) hwants
  constructor
  · intro haligned p w' hmalloc
    rw [hmalloc] at hanswer
    obtain ⟨⟨p', w''⟩, hcall, hp⟩ := Option.map_eq_some_iff.mp hanswer
    cases hp
    exact haligned _ _ hcall
  · intro haligned p w' hcall
    rw [hcall] at hanswer
    obtain ⟨⟨p', w''⟩, hmalloc, hp⟩ := Option.map_eq_some_iff.mp hanswer.symm
    cases hp
    exact haligned _ _ hmalloc

/-- An event that asks for nothing answers multiples of 16 if and only if the block it keeps in
place, if any, is at one. -/
theorem answersAligned_of_not_wants {e : Event} (hwants : e.wants w = none) :
    AnswersAligned K w e ↔ ∀ ptr newsz, e = .realloc ptr newsz → ptr ≠ 0 → newsz ≠ 0 →
      StaysInPlace w ptr newsz → 16 ∣ ptr := by
  constructor
  · rintro haligned ptr newsz rfl hptr hzero hstay
    exact haligned ptr w (by rw [call, toylibcRealloc_stay hptr hzero hstay])
  · intro hkept p w' hcall
    rcases call_answer_of_not_wants hwants hcall with rfl | ⟨newsz, rfl, hzero, hstay⟩
    · exact Nat.dvd_zero 16
    · by_cases hptr : p = 0
      · rw [hptr]
        exact Nat.dvd_zero 16
      · exact hkept p newsz rfl hptr hzero hstay

/-- In every reached state an event answers a multiple of 16 if and only if it hands out no block
at a multiple of 16. -/
theorem returned_aligned_iff {s : State} {e : Event} (hK : K.Lawful) (h : Reachable K s) :
    AnswersAligned K s.heap e ↔ EventHandsOutOdd K s.heap e := by
  have hready := (grounded_kept hK).ready (h.grounded hK)
  unfold EventHandsOutOdd
  cases hwants : e.wants s.heap with
  | some sz =>
    rw [answersAligned_of_wants hwants, request_aligned_iff hK hready]
    constructor
    · intro hodd
      refine ⟨?_, ?_⟩
      · rintro sz' hsz'
        cases hsz'
        exact hodd
      · rintro ptr newsz rfl hptr hzero hstay
        rw [Event.wants, if_neg hptr, if_pos (.inr hstay)] at hwants
        cases hwants
    · exact fun hodd => hodd.1 sz rfl
  | none =>
    rw [answersAligned_of_not_wants hwants]
    constructor
    · intro hkept
      refine ⟨fun sz hsz => ?_, hkept⟩
      cases hsz
    · exact fun hodd => hodd.2

end

/-- A lent block is swallowed, and its bytes come to hold the header of a free block. The caller
stores a size of 8 there, and the next header in the middle of a 16-byte unit. -/
def forgedRun : List Event :=
  [.malloc 24, .malloc 24, .free 4104, .malloc 4096, .write 8208 9, .write 8209 0, .write 8217 15]

/-- The search ends at that header, and the answer is aligned. -/
theorem forgedRun_aligned :
    AnswersAligned smallKernel (stateAfter forgedRun).heap (.malloc 24) := by
  have hreach : Reachable smallKernel (stateAfter forgedRun) :=
    reachable_stateAfter (by decide +kernel)
  have hfound : SearchFinds (ready smallKernel (stateAfter forgedRun).heap) (brkNeed 24) 8216 := by
    unfold SearchFinds
    decide +kernel
  refine (returned_aligned_iff smallKernel_lawful hreach).mpr ⟨fun sz hwants => ?_, nofun⟩
  cases hwants
  refine ⟨fun cur hcur => ?_, fun hfails => absurd hfound hfails.not_found⟩
  obtain rfl : (8216 : Nat) = cur := Search.found.inj (Option.some.inj (hfound.symm.trans hcur))
  decide

/-- The first request is answered by `4104`. -/
theorem malloc_answers_odd :
    smallKernel.Lawful ∧ Reachable smallKernel freshState ∧
      ¬AnswersAligned smallKernel freshState.heap (.malloc 24) := by
  refine ⟨smallKernel_lawful, .start fresh_freshState, fun haligned => ?_⟩
  have hptr : (toylibcMalloc smallKernel freshState.heap 24).map Prod.fst = some 4104 := by
    decide +kernel
  obtain ⟨⟨p, w'⟩, hcall, hp⟩ := Option.map_eq_some_iff.mp hptr
  cases hp
  have hdvd := haligned _ _ hcall
  revert hdvd
  decide

/-! ## Runs that avoid the defects -/

section

variable {K : Kernel} {w : Heap}

/-- Mappings start at a page. -/
theorem mapsPaged_kept (hK : K.Lawful) :
    Kept K fun w => ∀ r ∈ mapsAfter w.log, 4096 ∣ r.1 where
  mem _ h := h
  init h _ r hr := h r (mapsAfter_heapInit K _ ▸ hr)
  grow sz h _ _ r hr := h r (mapsAfter_brkGrow K _ (brkNeed sz) ▸ hr)
  map := by
    intro w n h
    unfold toylibcMmap
    dsimp only [mapsAfter]
    split
    · exact h
    · next hok =>
      have hpage := (hK.mmap_page w.log n (Bool.eq_false_of_not_eq_true hok)).1
      exact List.forall_mem_cons.mpr ⟨hpage, h⟩
  unmap a n h r hr := h r (List.mem_of_mem_erase hr)

/-- In a run that avoids the defects, all that is lent lies at odd multiples of 8. -/
theorem SafelyReachable.lent_odd (hK : K.Lawful) {s : State} (h : SafelyReachable K s) {l : Lent}
    (hl : l ∈ s.lent) : l.ptr % 16 = 8 := by
  have hlo := (h.reachable.grounded hK).lo_dvd
  have hpage := (mapsPaged_kept hK).reachable (fun s hs => by simp [hs.2.2.2.1, mapsAfter])
    h.reachable
  obtain ⟨bs, hs⟩ := h.sound hK
  rcases hs.backed l hl with ⟨a, b, hptr, hb, -, -⟩ | ⟨a, n, hptr, hmap, -, -, -⟩
  · obtain ⟨pre, post, -, rfl⟩ := mem_place_iff.mp hb
    have hdvd := extent_dvd pre
    omega
  · have hdvd := hpage _ hmap
    dsimp only at hdvd
    omega

/-- What an event answers is `NULL` or is lent after it. -/
theorem answer_lent {e : Event} (lent : List Lent) {p : Nat} {w' : Heap}
    (hcall : call K w e = some (p, w')) : p = 0 ∨ ∃ l ∈ relend lent p e, l.ptr = p := by
  by_cases hp : p = 0
  · exact .inl hp
  right
  cases hwants : e.wants w with
  | some sz =>
    refine ⟨⟨p, sz⟩, ?_, rfl⟩
    obtain rfl | ⟨n, m, -, rfl, rfl⟩ | rfl | ⟨ptr, rfl, hptr, hsz, -⟩ := Event.wants_cases hwants
    · simp [relend, lend, hp]
    · simp [relend, lend, hp]
    · simp [relend, lend, hp]
    · simp [relend, hptr, hsz, hp]
  | none =>
    obtain ⟨newsz, rfl, hzero, -⟩ := (call_answer_of_not_wants hwants hcall).resolve_left hp
    exact ⟨⟨p, newsz⟩, by simp [relend, hzero, hp], rfl⟩

/-- In such a run an event answers `NULL` or an odd multiple of 8. -/
theorem safe_answer_odd (hK : K.Lawful) {s : State} {e : Event} (h : SafelyReachable K s)
    (hr : Respects s e) (ha : AvoidsDefects K s e) {p : Nat} {w' : Heap}
    (hcall : call K s.heap e = some (p, w')) : p = 0 ∨ p % 16 = 8 := by
  have hstep : step K s e = some ⟨w', relend s.lent p e⟩ := by rw [step, hcall]
  have hnext : SafelyReachable K ⟨w', relend s.lent p e⟩ := .next h ⟨hr, ha⟩ hstep
  rcases answer_lent s.lent hcall with hnull | ⟨l, hl, rfl⟩
  · exact .inl hnull
  · exact .inr (hnext.lent_odd hK hl)

/-- So it answers a multiple of 16 if and only if it hands nothing out. -/
theorem safe_aligned_iff (hK : K.Lawful) {s : State} {e : Event} (h : SafelyReachable K s)
    (hr : Respects s e) (ha : AvoidsDefects K s e) :
    AnswersAligned K s.heap e ↔ ∀ p w', call K s.heap e = some (p, w') → p = 0 := by
  constructor
  · intro haligned p w' hcall
    have hdvd := haligned p w' hcall
    have hodd := safe_answer_odd hK h hr ha hcall
    omega
  · intro hnull p w' hcall
    rw [hnull p w' hcall]
    exact Nat.dvd_zero 16

end

end Toylibc
