import Toylibc.HeapKept
import Toylibc.SafeHeap

/-!
# When the kernel refuses memory

A request that the kernel refuses should answer `NULL` and change nothing
(`FailsCleanly`). It does so in every reached state when `brk` refuses, and when `mmap`
answers `-1`; any other `-errno` of `mmap` is taken for an address (`refused_cleanly_iff`).
Runs may reach the other defects here: only the end of the heap matters (`Bounded`).
-/

namespace Toylibc

open ByteMemory Transition

/-- The size for which the event calls `toylibc_malloc`, if it does. -/
def Event.wants (w : Heap) : Event → Option Nat
  | .malloc sz => some sz
  | .calloc n sz => if n * sz < 2 ^ 64 then some (n * sz) else none
  | .realloc ptr newsz =>
    if ptr = 0 then some newsz
    else if newsz = 0 ∨ StaysInPlace w ptr newsz then none
    else some newsz
  | .free _ => none
  | .write _ _ => none

/-- `mmap` is asked, and answers an error number. -/
def MmapRefuses (K : Kernel) (w : Heap) (sz : Nat) : Prop :=
  mmapLimit ≤ sz ∧ isErrno (K.mmap w.log (mapLength sz)) = true

/-- The search ends without a block, `brk` is asked, and answers another break. -/
def BrkRefuses (K : Kernel) (w : Heap) (sz : Nat) : Prop :=
  0 < sz ∧ sz < mmapLimit ∧
    (∃ r, brkSearch (ready K w).mem (ready K w).heapHi (brkNeed sz) searchFuel
      (ready K w).heapLo = some r ∧ ∀ cur, r ≠ .found cur) ∧
    BrkRefused K (ready K w) (brkNeed sz)

/-- The event asks the kernel for memory and is refused. -/
def Refused (K : Kernel) (w : Heap) (e : Event) : Prop :=
  ∃ sz, e.wants w = some sz ∧ (MmapRefuses K w sz ∨ BrkRefuses K w sz)

/-- A free block of the heap `w` fits `sz` bytes. -/
def HasFit (w : Heap) (sz : Nat) : Prop :=
  ∃ cur, brkSearch w.mem w.heapHi (brkNeed sz) searchFuel w.heapLo = some (.found cur)

/-- The event answers `NULL`, stores nothing, keeps the heap and all that is lent, and later
requests still find the free blocks. -/
structure FailsCleanly (K : Kernel) (s : State) (e : Event) (w' : Heap) : Prop where
  null : call K s.heap e = some (0, w')
  mem : w'.mem = s.heap.mem
  bounds : s.heap.heapOk = true → w'.heapLo = s.heap.heapLo ∧ w'.heapHi = s.heap.heapHi
  lent : relend s.lent 0 e = s.lent
  maps : mapsAfter w'.log = mapsAfter s.heap.log
  later : ∀ sz, 0 < sz → sz < mmapLimit → HasFit s.heap sz →
    ∃ p w'', toylibcMalloc K w' sz = some (p, w'') ∧ p ≠ 0

/-! ## The end of the heap -/

/-- The heap ends in user space, and before its initialisation it is empty. -/
structure Bounded (K : Kernel) (w : Heap) : Prop where
  hi_user : w.heapHi ≤ userTop + 15
  break_user : breakAfter K w.log ≤ userTop
  fresh : w.heapOk = false → w.heapHi = 0 ∧ K.break0 ≤ breakAfter K w.log

section

variable {K : Kernel} {w : Heap}

/-- Only the end of the heap, the flag and the break matter. -/
theorem Bounded.congr {w' : Heap} (h : Bounded K w) (hhi : w'.heapHi = w.heapHi)
    (hok : w'.heapOk = w.heapOk) (hbreak : breakAfter K w'.log = breakAfter K w.log) :
    Bounded K w' where
  hi_user := hhi ▸ h.hi_user
  break_user := hbreak ▸ h.break_user
  fresh := by rw [hok, hhi, hbreak]; exact h.fresh

theorem Bounded.ready (hK : K.Lawful) (h : Bounded K w) :
    Bounded K (ready K w) ∧ (ready K w).heapOk = true ∧ (ready K w).mem = w.mem ∧
      mapsAfter (ready K w).log = mapsAfter w.log := by
  unfold Toylibc.ready
  cases hok : w.heapOk with
  | true => exact ⟨h, hok, rfl, rfl⟩
  | false =>
    obtain ⟨-, hstart⟩ := h.fresh hok
    have hpos := hK.break0_pos
    have huser := h.break_user
    obtain ⟨log, heq, hlog, hmaps⟩ := heapInit_eq hK (w := w) (by omega)
    have hal : alignUp (breakAfter K w.log) align = 16 * ((breakAfter K w.log + 16 - 1) / 16) :=
      alignUp_eq (k := 4) (by decide) (by unfold userTop at huser; omega)
    simp only [Bool.false_eq_true, if_false]
    rw [heq]
    refine ⟨?_, rfl, rfl, hmaps⟩
    rw [hal] at hlog ⊢
    exact ⟨by dsimp only; omega, by dsimp only; omega, fun hbad => nomatch hbad⟩

/-- Nothing else moves the end of the heap or the break. -/
theorem bounded_kept (hK : K.Lawful) : Kept K (Bounded K) where
  mem _ h := h.congr rfl rfl rfl
  init := by
    intro w h hok
    have hready := (h.ready hK).1
    rwa [Toylibc.ready, hok, if_neg (by decide)] at hready
  grow := by
    intro w sz h hok _
    rcases brkGrow_cases K w (brkNeed sz) _ rfl with ⟨hrefuse, heq⟩ | ⟨hgrant, m', heq⟩
    · rw [heq]
      exact h.congr rfl rfl (if_neg hrefuse)
    · have huser := hK.brk_user _ _ hgrant
      rw [heq]
      generalize wadd w.heapHi (growSize (brkNeed sz)) = newBrk at huser
      have hbreak : breakAfter K (.brk newBrk newBrk :: w.log) = newBrk := if_pos rfl
      refine ⟨by dsimp only; omega, by dsimp only; rw [hbreak]; exact huser, fun hbad => ?_⟩
      dsimp only at hbad
      rw [hok] at hbad
      cases hbad
  map _ h := h.congr rfl rfl rfl
  unmap _ _ h := h.congr rfl rfl rfl

theorem Reachable.bounded (hK : K.Lawful) {s : State} (h : Reachable K s) : Bounded K s.heap := by
  refine (bounded_kept hK).reachable ?_ h
  rintro s ⟨-, hhi, -, hlog, -⟩
  refine ⟨by omega, ?_, fun _ => ⟨hhi, ?_⟩⟩
  · rw [hlog]
    exact hK.break0_user
  · rw [hlog]
    exact Nat.le_refl _

/-! ## Refused requests -/

/-- The events that ask for `sz` bytes. -/
theorem Event.wants_cases {e : Event} {sz : Nat} (hwants : e.wants w = some sz) :
    e = .malloc sz ∨ (∃ n m, n * m < 2 ^ 64 ∧ e = .calloc n m ∧ sz = n * m) ∨
      e = .realloc 0 sz ∨
      ∃ ptr, e = .realloc ptr sz ∧ ptr ≠ 0 ∧ sz ≠ 0 ∧ ¬StaysInPlace w ptr sz := by
  cases e with
  | malloc n =>
    cases hwants
    exact .inl rfl
  | calloc n m =>
    rw [Event.wants] at hwants
    split at hwants
    · next hfits => exact .inr (.inl ⟨n, m, hfits, rfl, (Option.some.inj hwants).symm⟩)
    · cases hwants
  | realloc ptr newsz =>
    rw [Event.wants] at hwants
    split_ifs at hwants with hptr hkeeps
    · cases hwants
      exact .inr (.inr (.inl (hptr ▸ rfl)))
    · cases hwants
      obtain ⟨hsz, hstay⟩ := not_or.mp hkeeps
      exact .inr (.inr (.inr ⟨ptr, rfl, hptr, hsz, hstay⟩))
  | free ptr => cases hwants
  | write addr b => cases hwants

/-- The result of `toylibc_malloc` is the result of the event that calls it. -/
theorem call_of_wants {e : Event} {sz p : Nat} {w' : Heap} (hwants : e.wants w = some sz)
    (hmalloc : toylibcMalloc K w sz = some (p, w')) :
    ∃ w'', call K w e = some (p, w'') ∧ (p = 0 → w'' = w') := by
  obtain rfl | ⟨n, m, hfits, rfl, rfl⟩ | rfl | ⟨ptr, rfl, hptr, hsz, hstay⟩ :=
    Event.wants_cases hwants
  · exact ⟨w', hmalloc, fun _ => rfl⟩
  · simp only [Toylibc.call, toylibcCalloc_fits hfits, hmalloc]
    by_cases hnull : p = 0
    · exact ⟨w', by rw [if_pos hnull, hnull], fun _ => rfl⟩
    · exact ⟨_, if_neg hnull, fun hbad => absurd hbad hnull⟩
  · have hnull : toylibcRealloc K w 0 sz = toylibcMalloc K w sz := if_pos rfl
    exact ⟨w', hnull.trans hmalloc, fun _ => rfl⟩
  · have hmove := toylibcRealloc_move (K := K) hptr hsz hstay
    simp only [Toylibc.call, hmove, Toylibc.reallocMove, hmalloc]
    by_cases hnull : p = 0
    · exact ⟨w', by rw [if_pos hnull, hnull], fun _ => rfl⟩
    · exact ⟨_, if_neg hnull, fun hbad => absurd hbad hnull⟩

theorem relend_of_wants {e : Event} {sz : Nat} (hwants : e.wants w = some sz) (lent : List Lent) :
    relend lent 0 e = lent := by
  obtain rfl | ⟨n, m, -, rfl, -⟩ | rfl | ⟨ptr, rfl, hptr, hsz, -⟩ := Event.wants_cases hwants
  · rfl
  · rfl
  · simp [relend, lend]
  · simp [relend, hptr, hsz]

/-- A request for which the search finds a block succeeds. -/
theorem malloc_of_hasFit (h : Bounded K w) (hok : w.heapOk = true) {sz : Nat} (hpos : 0 < sz)
    (hsmall : sz < mmapLimit) (hfit : HasFit w sz) :
    ∃ p w'', toylibcMalloc K w sz = some (p, w'') ∧ p ≠ 0 := by
  obtain ⟨cur, hfound⟩ := hfit
  have hlt := (brkSearch_found hfound).1
  have huser := h.hi_user
  unfold userTop at huser
  have hptr : wadd cur hdrSz = cur + 8 := wadd_hdrSz (by omega)
  refine ⟨wadd cur hdrSz, { w with mem := brkTake w.mem w.heapHi (brkNeed sz) cur }, ?_, by omega⟩
  rw [toylibcMalloc_small hpos hsmall, Toylibc.ready, if_pos hok]
  exact brkAlloc_of_found hfound

/-- The kernel refuses to extend the heap: `NULL`, and one more kernel call. -/
theorem malloc_brkRefuses {sz : Nat} (hrefuse : BrkRefuses K w sz) :
    ∃ log, toylibcMalloc K w sz = some (0, { ready K w with log := log }) ∧
      mapsAfter log = mapsAfter (ready K w).log := by
  obtain ⟨hpos, hsmall, ⟨r, hsearch, hnotfound⟩, hbrk⟩ := hrefuse
  refine ⟨.brk (wadd (Toylibc.ready K w).heapHi (growSize (brkNeed sz)))
    (K.brk (Toylibc.ready K w).log (wadd (Toylibc.ready K w).heapHi (growSize (brkNeed sz)))) ::
      (Toylibc.ready K w).log, ?_, rfl⟩
  rw [toylibcMalloc_small hpos hsmall, brkAlloc_of_notFound hsearch hnotfound,
    brkExtend_refused hbrk]

/-- `mmap` refuses with `-1`. -/
theorem malloc_mmapRefuses {sz : Nat} (hrefuse : MmapRefuses K w sz)
    (hret : K.mmap w.log (mapLength sz) = wnot 0) :
    ∃ log, toylibcMalloc K w sz = some (0, { w with log := log }) ∧
      mapsAfter log = mapsAfter w.log := by
  obtain ⟨log, hmap, -, hmaps⟩ := mallocMap_refused hret
  exact ⟨log, by rw [toylibcMalloc_large hrefuse.1, hmap], hmaps⟩

/-- `mmap` refuses with another error number, which is taken for an address. -/
theorem malloc_mmapMistaken {sz : Nat} (hrefuse : MmapRefuses K w sz)
    (hret : K.mmap w.log (mapLength sz) ≠ wnot 0) :
    ∃ p w' v, toylibcMalloc K w sz = some (p, w') ∧
      w'.mem = store64 w.mem (K.mmap w.log (mapLength sz)) v := by
  obtain ⟨hbig, herrno⟩ := hrefuse
  rw [toylibcMalloc_large hbig]
  unfold Toylibc.mallocMap toylibcMmap
  simp only [hret, if_false, herrno, if_true]
  exact ⟨_, _, _, rfl, rfl⟩

theorem store64_ne (m : Mem) (a v : Nat) : store64 m a v ≠ m := by
  intro heq
  have hlen := congrArg (fun m => m.written.length) heq
  simp only [store64, storeLE, storeByte, List.length_cons] at hlen
  omega

/-- The event fails cleanly when `toylibc_malloc` does. -/
theorem failsCleanly_of_malloc {s : State} {e : Event} {sz : Nat} {w' : Heap} (hK : K.Lawful)
    (hbounded : Bounded K s.heap) (hwants : e.wants s.heap = some sz)
    (hmalloc : toylibcMalloc K s.heap sz = some (0, w')) (hmem : w'.mem = s.heap.mem)
    (hstate : s.heap.heapOk = true → w'.heapOk = true ∧ w'.heapLo = s.heap.heapLo ∧
      w'.heapHi = s.heap.heapHi)
    (hmaps : mapsAfter w'.log = mapsAfter s.heap.log) : FailsCleanly K s e w' := by
  obtain ⟨w'', hcall, hsame⟩ := call_of_wants hwants hmalloc
  rw [hsame rfl] at hcall
  refine ⟨hcall, hmem, fun hok => (hstate hok).2, relend_of_wants hwants _, hmaps, ?_⟩
  intro n hpos hsmall hfit
  -- a heap with a free block is initialised
  have hok : s.heap.heapOk = true := by
    cases hinit : s.heap.heapOk with
    | true => rfl
    | false =>
      obtain ⟨cur, hfound⟩ := hfit
      have hlt := (brkSearch_found hfound).1
      rw [(hbounded.fresh hinit).1] at hlt
      exact absurd hlt (Nat.not_lt_zero cur)
  obtain ⟨hok', hlo, hhi⟩ := hstate hok
  refine malloc_of_hasFit ((bounded_kept hK).call hbounded hcall) hok' hpos hsmall ?_
  unfold HasFit at hfit ⊢
  rwa [hmem, hlo, hhi]

/-- A refused request fails cleanly in every reached state if and only if it was not `mmap`
that refused, or `mmap` answered `-1`. -/
theorem refused_cleanly_iff {s : State} {e : Event} (hK : K.Lawful) (h : Reachable K s)
    (hrefused : Refused K s.heap e) :
    (∃ w', FailsCleanly K s e w') ↔
      ∀ sz, e.wants s.heap = some sz → mmapLimit ≤ sz →
        K.mmap s.heap.log (mapLength sz) = wnot 0 := by
  have hbounded := h.bounded hK
  obtain ⟨sz, hwants, hrefuse⟩ := hrefused
  rcases hrefuse with hmmap | hbrk
  · by_cases hret : K.mmap s.heap.log (mapLength sz) = wnot 0
    · obtain ⟨log, hmalloc, hmaps⟩ := malloc_mmapRefuses hmmap hret
      refine iff_of_true ⟨_, failsCleanly_of_malloc hK hbounded hwants hmalloc rfl
        (fun hok => ⟨hok, rfl, rfl⟩) hmaps⟩ ?_
      intro n hn _
      rw [hwants] at hn
      rwa [← Option.some.inj hn]
    · obtain ⟨p, w', v, hmalloc, hmem⟩ := malloc_mmapMistaken hmmap hret
      refine iff_of_false ?_ (fun hall => hret (hall sz hwants hmmap.1))
      rintro ⟨w1, hfails⟩
      obtain ⟨w'', hcall, hsame⟩ := call_of_wants hwants hmalloc
      rw [hfails.null, Option.some.injEq, Prod.mk.injEq] at hcall
      have hstored := hfails.mem
      rw [hcall.2, hsame hcall.1.symm, hmem] at hstored
      exact store64_ne _ _ _ hstored
  · obtain ⟨log, hmalloc, hmaps⟩ := malloc_brkRefuses hbrk
    obtain ⟨-, hok, hmem, hmaps'⟩ := hbounded.ready hK
    refine iff_of_true ⟨_, failsCleanly_of_malloc hK hbounded hwants hmalloc hmem
      (fun hinit => ?_) (hmaps.trans hmaps')⟩ ?_
    · dsimp only
      rw [hok, Toylibc.ready, if_pos hinit]
      exact ⟨rfl, rfl, rfl⟩
    · intro n hn hbig
      rw [hwants] at hn
      rw [← Option.some.inj hn] at hbig
      exact absurd hbig (Nat.not_le_of_lt hbrk.2.1)

end

/-- `brk` refuses the first small request. -/
theorem brk_refused_cleanly : ∃ w', FailsCleanly (refusingKernel 1) freshState (.malloc 24) w' :=
  (refused_cleanly_iff (refusingKernel_lawful (by decide) (by decide)) (.start fresh_freshState)
    ⟨24, rfl, .inr ⟨by decide, by decide, ⟨.exhausted, by decide +kernel, by simp⟩,
      by decide +kernel⟩⟩).mpr (by
    intro sz hwants hbig
    cases hwants
    exact absurd hbig (by decide))

/-- `mmap` refuses with `ENOMEM`, and the caller gets the pointer `-4`. -/
theorem mmap_enomem_not_clean :
    (refusingKernel 12).Lawful ∧ Reachable (refusingKernel 12) freshState ∧
      Respects freshState (.malloc 200000) ∧
      Refused (refusingKernel 12) freshState.heap (.malloc 200000) ∧
      ¬∃ w', FailsCleanly (refusingKernel 12) freshState (.malloc 200000) w' := by
  refine ⟨refusingKernel_lawful (by decide) (by decide), .start fresh_freshState, by decide,
    ⟨200000, rfl, .inl ⟨by decide, by decide +kernel⟩⟩, ?_⟩
  rintro ⟨w', hfails⟩
  have hptr : (call (refusingKernel 12) freshState.heap (.malloc 200000)).map Prod.fst =
      some (2 ^ 64 - 4) := by decide +kernel
  rw [hfails.null] at hptr
  cases hptr

end Toylibc
