import Toylibc.HeapHosted
import Toylibc.SafeStep

/-!
# The size of what is handed out

A block should be as large as asked, for every 64-bit size (`MallocSized`), and not much
larger (`Thrifty`). Small requests always get enough. The length of a mapping wraps for the
4103 largest sizes, and an error number of `mmap` is taken for a mapping
(`malloc_sized_iff`). In a run that avoids the defects a small block lies inside the heap as a
whole (`malloc_inside`). Free blocks are split when the rest is large enough, but fresh pages
never are (`malloc_thrifty_iff`).
-/

namespace Toylibc

open ByteMemory BlockList Transition

/-! ## Large enough -/

/-- The size with its header, rounded up to pages, is a 64-bit number. -/
def Representable (sz : Nat) : Prop := 4096 * ((sz + hdrSz + 4095) / 4096) < 2 ^ 64

instance (sz : Nat) : Decidable (Representable sz) := inferInstanceAs (Decidable (_ < _))

/-- The block behind `p` has `sz` bytes between its header and its footer. -/
def BrkHolds (w' : Heap) (p sz : Nat) : Prop :=
  ∃ n, HandedOut w'.mem (p - 8) n ∧ p + sz ≤ p - 8 + n - 8

/-- The call asked `mmap` for one mapping, and `sz` bytes of it lie behind `p`. -/
def MapHolds (w w' : Heap) (p sz : Nat) : Prop :=
  ∃ a n, w'.log = .mmap n a :: w.log ∧ isErrno a = false ∧ p = a + 8 ∧ p + sz ≤ a + n

/-- What `toylibc_malloc` owes for `sz` bytes. -/
structure MallocSized (K : Kernel) (w : Heap) (sz : Nat) : Prop where
  enough : ∀ p w', toylibcMalloc K w sz = some (p, w') → p ≠ 0 →
    if mmapLimit ≤ sz then MapHolds w w' p sz else BrkHolds w' p sz
  refused : ¬Representable sz → ∀ p w', toylibcMalloc K w sz = some (p, w') → p = 0

section

variable {K : Kernel} {w : Heap} {sz : Nat}

theorem le_mapLength (hfits : Representable sz) : sz + 8 ≤ mapLength sz := by
  unfold Representable hdrSz at hfits
  have hsum : wadd sz hdrSz = sz + 8 := wadd_hdrSz (by omega)
  have hal : mapLength sz = 4096 * ((sz + 8 + 4096 - 1) / 4096) := by
    rw [mapLength, hsum]
    exact alignUp_eq (k := 12) (by decide) (by omega)
  omega

/-- A small request gets a block of at least the size it needs, in any reached state. -/
theorem small_sized (hK : K.Lawful) (hg : Grounded K w) (hpos : 0 < sz) (hsmall : sz < mmapLimit) :
    MallocSized K w sz := by
  have hneed := brkNeed_eq (show sz < 2 ^ 63 by unfold mmapLimit at hsmall; omega)
  have hready := (grounded_kept hK).ready hg
  have hroom := (hready.bounded.growSize_room hsmall).2
  have hgrow := le_growSize (show brkNeed sz + 4096 ≤ 2 ^ 64 by omega)
  refine ⟨fun p w' hcall hp => ?_, fun hwrap => ?_⟩
  · rw [if_neg (by omega)]
    rw [toylibcMalloc_small hpos hsmall] at hcall
    rcases brkAlloc_answer hready (ready_heapOk K w) hsmall hcall with
      ⟨cur, hfound, rfl, hlt, hmem⟩ | ⟨-, -, rfl⟩ | ⟨-, -, rfl, hout⟩
    · rw [BrkHolds, Nat.add_sub_cancel, hmem]
      rcases brkTake_found hready hpos hsmall hfound with ⟨-, htags⟩ | ⟨hfit, -, hout⟩
      · exact ⟨_, htags.toHandedOut, by omega⟩
      · exact ⟨_, hout, by omega⟩
    · exact absurd rfl hp
    · exact ⟨growSize (brkNeed sz), by rwa [Nat.add_sub_cancel], by omega⟩
  · unfold Representable hdrSz at hwrap
    unfold mmapLimit at hsmall
    omega

/-- A refusal hands nothing out. -/
theorem sized_of_null {w' : Heap} (hcall : toylibcMalloc K w sz = some (0, w')) :
    MallocSized K w sz := by
  refine ⟨fun p w1 hcall' hp => ?_, fun _ p w1 hcall' => ?_⟩
  · rw [hcall, Option.some.injEq, Prod.mk.injEq] at hcall'
    exact absurd hcall'.1.symm hp
  · rw [hcall, Option.some.injEq, Prod.mk.injEq] at hcall'
    exact hcall'.1.symm

/-- Behind the header word of what `mmap` answers there is an address, but for one number. -/
theorem mapping_ptr_ne_null (hK : K.Lawful) {n : Nat} (hne : K.mmap w.log n ≠ 2 ^ 64 - 8) :
    wadd (K.mmap w.log n) hdrSz ≠ 0 := by
  cases herrno : isErrno (K.mmap w.log n) with
  | true =>
    have hrange : 2 ^ 64 - 4095 ≤ K.mmap w.log n ∧ K.mmap w.log n < 2 ^ 64 :=
      of_decide_eq_true herrno
    unfold wadd hdrSz
    omega
  | false =>
    have huser := (hK.mmap_page w.log n herrno).2
    unfold userTop at huser
    rw [wadd_eq (by unfold hdrSz; omega)]
    unfold hdrSz
    omega

/-- A large request. -/
theorem large_sized_iff (hK : K.Lawful) (hbig : mmapLimit ≤ sz) :
    MallocSized K w sz ↔
      K.mmap w.log (mapLength sz) = wnot 0 ∨ K.mmap w.log (mapLength sz) = 2 ^ 64 - 8 ∨
        isErrno (K.mmap w.log (mapLength sz)) = false ∧ Representable sz := by
  have hcall := toylibcMalloc_large (K := K) (w := w) hbig
  obtain ⟨hptr, hlog⟩ := mallocMap_answer K w sz
  obtain ⟨p, w', hpair⟩ : ∃ p w', mallocMap K w sz = (p, w') := ⟨_, _, rfl⟩
  rw [hpair] at hcall hptr hlog
  dsimp only at hptr hlog
  by_cases hret : K.mmap w.log (mapLength sz) = wnot 0
  · rw [hptr, if_pos hret] at hcall
    exact iff_of_true (sized_of_null hcall) (.inl hret)
  rw [if_neg hret] at hptr
  by_cases hret8 : K.mmap w.log (mapLength sz) = 2 ^ 64 - 8
  · rw [hret8] at hptr
    rw [hptr] at hcall
    exact iff_of_true (sized_of_null hcall) (.inr (.inl hret8))
  have hne := mapping_ptr_ne_null hK hret8
  rw [← hptr] at hne
  constructor
  · intro hsized
    have henough := hsized.enough p w' hcall hne
    rw [if_pos hbig] at henough
    obtain ⟨a, n, hlog', hok, -, -⟩ := henough
    rw [hlog, List.cons.injEq, Syscall.mmap.injEq] at hlog'
    rw [← hlog'.1.2] at hok
    refine .inr (.inr ⟨hok, ?_⟩)
    by_contra hwrap
    exact hne (hsized.refused hwrap p w' hcall)
  · intro hcond
    obtain ⟨hok, hfits⟩ := (hcond.resolve_left hret).resolve_left hret8
    have huser := (hK.mmap_page w.log (mapLength sz) hok).2
    have hlen := le_mapLength hfits
    unfold userTop at huser
    rw [wadd_eq (by unfold hdrSz; omega)] at hptr
    unfold hdrSz at hptr
    refine ⟨fun q w1 hcall' _ => ?_, fun hwrap => absurd hfits hwrap⟩
    rw [hcall, Option.some.injEq, Prod.mk.injEq] at hcall'
    obtain ⟨rfl, rfl⟩ := hcall'
    rw [if_pos hbig]
    exact ⟨_, _, hlog, hok, hptr, by omega⟩

/-- In every reached state and for every size, `toylibc_malloc` hands out as much as asked, and
refuses what cannot be represented, if and only if the request is small, or `mmap` answers `-1`
(or the `-errno` that lies 8 bytes below `NULL`), or it grants a mapping and the size can be
represented. -/
theorem malloc_sized_iff {s : State} (hK : K.Lawful) (h : Reachable K s) (hpos : 0 < sz) :
    MallocSized K s.heap sz ↔
      sz < mmapLimit ∨ K.mmap s.heap.log (mapLength sz) = wnot 0 ∨
        K.mmap s.heap.log (mapLength sz) = 2 ^ 64 - 8 ∨
        isErrno (K.mmap s.heap.log (mapLength sz)) = false ∧ Representable sz := by
  by_cases hsmall : sz < mmapLimit
  · exact iff_of_true (small_sized hK (h.grounded hK) hpos hsmall) (.inl hsmall)
  · rw [large_sized_iff hK (Nat.le_of_not_lt hsmall)]
    exact ⟨.inr, fun hcond => hcond.resolve_left hsmall⟩

end

/-- A mapping for 200000 bytes. -/
theorem malloc_sized_mapping : MallocSized smallKernel freshState.heap 200000 :=
  (malloc_sized_iff smallKernel_lawful (.start fresh_freshState) (by decide)).mpr
    (.inr (.inr (.inr ⟨by decide +kernel, by decide⟩)))

/-- The largest size gets a pointer into a mapping of one page. -/
theorem malloc_largest_not_sized :
    smallKernel.Lawful ∧ Reachable smallKernel freshState ∧
      ¬MallocSized smallKernel freshState.heap (2 ^ 64 - 1) := by
  refine ⟨smallKernel_lawful, .start fresh_freshState, fun hsized => ?_⟩
  have hptr : (toylibcMalloc smallKernel freshState.heap (2 ^ 64 - 1)).map Prod.fst =
      some (2 ^ 46 + 8) := by decide +kernel
  cases hcall : toylibcMalloc smallKernel freshState.heap (2 ^ 64 - 1) with
  | none =>
    rw [hcall] at hptr
    cases hptr
  | some r =>
    have hzero := hsized.refused (by decide) r.1 r.2 hcall
    rw [hcall, Option.map_some, hzero] at hptr
    cases hptr

/-! ## Inside the heap -/

section

variable {K : Kernel} {w : Heap} {sz : Nat}

/-- On accurate tags the header of a small block, its payload and its footer lie in the heap. -/
theorem small_inside (hK : K.Lawful) (hw : Hosted K w) (hg : Grounded K w) {bs : List HeapBlock}
    (h : Tiles w.mem false w.heapLo bs w.heapHi) (hpos : 0 < sz) (hsmall : sz < mmapLimit) {p : Nat}
    {w' : Heap} (hcall : toylibcMalloc K w sz = some (p, w')) (hp : p ≠ 0) :
    ∃ n, HandedOut w'.mem (p - 8) n ∧ sz + overhead ≤ n ∧ w'.heapLo ≤ p - 8 ∧
      p - 8 + n ≤ w'.heapHi := by
  have hneed := brkNeed_eq (show sz < 2 ^ 63 by unfold mmapLimit at hsmall; omega)
  have hready := (grounded_kept hK).ready hg
  have hhosted := (hosted_kept hK).ready hw
  obtain ⟨htiles, -, -, -⟩ := hw.ready_tiles hK h
  obtain ⟨hnew, hroom⟩ := hready.bounded.growSize_room hsmall
  have htop := hhosted.hi_lt
  have hlo := hhosted.lo_le_hi
  have hok := ready_heapOk K w
  rw [toylibcMalloc_small hpos hsmall] at hcall
  generalize Toylibc.ready K w = v at *
  unfold overhead
  rcases brkAlloc_cases hcall with ⟨cur, hfound, rfl, rfl⟩ | ⟨hfails, hext⟩
  · obtain ⟨b, hfit⟩ := htiles.walk.firstFit (by decide) (by omega) hfound
    have hin := ((firstFit_eq_some_iff (by decide)).mp hfit).1
    have hbounds := place_bounds hin
    have hhi := htiles.hi_eq
    have hsize := (htiles.walk.header_of_mem hin).1
    have hptr : wadd cur hdrSz - 8 = cur := by
      rw [wadd_hdrSz (by omega)]
      omega
    rw [hptr]
    rcases brkTake_found hready hpos hsmall hfound with ⟨hsplit, htags⟩ | ⟨hfit, -, hout⟩
    · exact ⟨_, htags.toHandedOut, by omega, hbounds.1, by dsimp only; omega⟩
    · exact ⟨_, hout, by omega, hbounds.1, by dsimp only; omega⟩
  · have hge := le_growSize (show brkNeed sz + 4096 ≤ 2 ^ 64 by omega)
    by_cases hrefuse : BrkRefused K v (brkNeed sz)
    · rw [brkExtend_refused hrefuse, Prod.mk.injEq] at hext
      exact absurd hext.1.symm hp
    · have hgrant := not_not.mp hrefuse
      rw [hnew] at hgrant
      have hhi := hready.hi_pos hok
      obtain ⟨w₁, hext₁, hout⟩ := handedOut_brkExtend (by omega) hhi hroom hgrant
      have heq := brkExtend_eq hhi (by omega) hgrant
      rw [hext, Prod.mk.injEq] at hext₁ heq
      obtain ⟨rfl, rfl⟩ := hext₁
      have hend : w'.heapHi = v.heapHi + growSize (brkNeed sz) := by rw [heq.2]
      have hstart : w'.heapLo = v.heapLo := by rw [heq.2]
      rw [Nat.add_sub_cancel]
      exact ⟨_, hout, by omega, by omega, by omega⟩

/-- So it is in every state of a run that avoids the defects, whatever the next request. -/
theorem malloc_inside {s : State} (hK : K.Lawful) (h : SafelyReachable K s) (hpos : 0 < sz)
    (hsmall : sz < mmapLimit) {p : Nat} {w' : Heap}
    (hcall : toylibcMalloc K s.heap sz = some (p, w')) (hp : p ≠ 0) :
    ∃ n, HandedOut w'.mem (p - 8) n ∧ sz + overhead ≤ n ∧ w'.heapLo ≤ p - 8 ∧
      p - 8 + n ≤ w'.heapHi := by
  obtain ⟨bs, hs⟩ := h.sound hK
  exact small_inside hK (h.reachable.hosted hK) (h.reachable.grounded hK) hs.layout.tiles hpos
    hsmall hcall hp

end

/-! ## Not much larger -/

/-- The request is served from the `n` bytes at `a`: a free block, or the pages by which the heap
grows. -/
inductive ServedFrom (K : Kernel) (w : Heap) (sz : Nat) : Nat → Nat → Prop
  | found {cur : Nat} :
      brkSearch (ready K w).mem (ready K w).heapHi (brkNeed sz) searchFuel (ready K w).heapLo =
        some (.found cur) →
      ServedFrom K w sz cur (getSz (load64 (ready K w).mem cur))
  | grown : SearchFails (ready K w) (brkNeed sz) →
      ServedFrom K w sz (ready K w).heapHi (growSize (brkNeed sz))

/-- The block that is handed out is less than 32 bytes larger than needed, and a surplus of at
least 32 bytes lies behind it as a free block. -/
def Thrifty (K : Kernel) (w : Heap) (sz : Nat) : Prop :=
  ∀ p w', toylibcMalloc K w sz = some (p, w') → p ≠ 0 →
    getSz (load64 w'.mem (p - 8)) < brkNeed sz + (overhead + align) ∧
    ∀ a n, ServedFrom K w sz a n → brkNeed sz + (overhead + align) ≤ n →
      a = p - 8 ∧ getSz (load64 w'.mem (a + brkNeed sz)) = n - brkNeed sz ∧
        isFree (load64 w'.mem (a + brkNeed sz)) = true

/-- The heap is extended for `sz` bytes by pages that are much larger than needed. -/
def GrowsWide (K : Kernel) (w : Heap) (sz : Nat) : Prop :=
  SearchFails (ready K w) (brkNeed sz) ∧ ¬BrkRefused K (ready K w) (brkNeed sz) ∧
    brkNeed sz + (overhead + align) ≤ growSize (brkNeed sz)

section

variable {K : Kernel} {w : Heap} {sz : Nat}

/-- Pages that are much larger than needed are handed out whole. -/
theorem not_thrifty_of_growsWide (hready : Grounded K (ready K w)) (hpos : 0 < sz)
    (hsmall : sz < mmapLimit) (hwide : GrowsWide K w sz) : ¬Thrifty K w sz := by
  obtain ⟨hfails, hgrant, hsurplus⟩ := hwide
  obtain ⟨hnew, hroom⟩ := hready.bounded.growSize_room hsmall
  have hneed := brkNeed_eq (show sz < 2 ^ 63 by unfold mmapLimit at hsmall; omega)
  have hanswer := not_not.mp hgrant
  rw [hnew] at hanswer
  obtain ⟨w', hext, hout⟩ :=
    handedOut_brkExtend (by omega) (hready.hi_pos (ready_heapOk K w)) hroom hanswer
  intro hthrifty
  have hcall : toylibcMalloc K w sz = some ((ready K w).heapHi + 8, w') := by
    rw [toylibcMalloc_small hpos hsmall, brkAlloc_of_searchFails hfails, hext]
  have hsize := (hthrifty _ w' hcall (by omega)).1
  rw [Nat.add_sub_cancel, hout.size] at hsize
  omega

/-- In every reached state a small request wastes less than 32 bytes if and only if it does not
extend the heap by pages that are at least 32 bytes larger than needed. -/
theorem malloc_thrifty_iff {s : State} (hK : K.Lawful) (h : Reachable K s) (hpos : 0 < sz)
    (hsmall : sz < mmapLimit) : Thrifty K s.heap sz ↔ ¬GrowsWide K s.heap sz := by
  have hready := (grounded_kept hK).ready (h.grounded hK)
  refine ⟨fun hthrifty hwide => not_thrifty_of_growsWide hready hpos hsmall hwide hthrifty, ?_⟩
  intro hnarrow p w' hcall hp
  rw [toylibcMalloc_small hpos hsmall] at hcall
  rcases brkAlloc_answer hready (ready_heapOk K s.heap) hsmall hcall with
    ⟨cur, hfound, rfl, -, hmem⟩ | ⟨-, -, rfl⟩ | ⟨hfails, hgrant, rfl, hout⟩
  · rw [Nat.add_sub_cancel, hmem]
    rcases brkTake_found hready hpos hsmall hfound with ⟨hsplit, htags⟩ | ⟨-, hwhole, hout⟩
    · refine ⟨by rw [htags.size]; unfold overhead align; omega, fun a n hserved _ => ?_⟩
      cases hserved with
      | found hfound' =>
        rw [hfound, Option.some.injEq, Search.found.injEq] at hfound'
        subst hfound'
        exact ⟨rfl, htags.rest_size, htags.rest_free⟩
      | grown hfails => exact absurd hfound hfails.not_found
    · refine ⟨by rw [hout.size]; exact hwhole, fun a n hserved hsurplus => ?_⟩
      cases hserved with
      | found hfound' =>
        rw [hfound, Option.some.injEq, Search.found.injEq] at hfound'
        subst hfound'
        unfold overhead align at hsurplus
        omega
      | grown hfails => exact absurd hfound hfails.not_found
  · exact absurd rfl hp
  · have hsurplus : growSize (brkNeed sz) < brkNeed sz + (overhead + align) :=
      Nat.lt_of_not_le fun hle => hnarrow ⟨hfails, hgrant, hle⟩
    rw [Nat.add_sub_cancel]
    refine ⟨by rw [hout.size]; exact hsurplus, fun a n hserved hle => ?_⟩
    cases hserved with
    | found hfound => exact absurd hfound hfails.not_found
    | grown _ => exact absurd hsurplus (Nat.not_lt_of_le hle)

end

/-- A page is asked for, and it is used up. -/
theorem malloc_thrifty_page : Thrifty smallKernel freshState.heap 4080 :=
  (malloc_thrifty_iff smallKernel_lawful (.start fresh_freshState) (by decide) (by decide)).mpr
    fun hwide => absurd hwide.2.2 (by decide)

/-- The first request, for 24 bytes, takes the whole page. -/
theorem malloc_wastes_page :
    smallKernel.Lawful ∧ Reachable smallKernel freshState ∧
      ¬Thrifty smallKernel freshState.heap 24 := by
  refine ⟨smallKernel_lawful, .start fresh_freshState, fun hthrifty => ?_⟩
  have hptr : (toylibcMalloc smallKernel freshState.heap 24).map
      (fun r => (r.1, getSz (load64 r.2.mem (r.1 - 8)))) = some (4104, 4096) := by decide +kernel
  cases hcall : toylibcMalloc smallKernel freshState.heap 24 with
  | none =>
    rw [hcall] at hptr
    cases hptr
  | some r =>
    rw [hcall, Option.map_some, Option.some.injEq, Prod.mk.injEq] at hptr
    have hsize := (hthrifty r.1 r.2 hcall (by rw [hptr.1]; decide)).1
    rw [hptr.2] at hsize
    revert hsize
    decide

end Toylibc
