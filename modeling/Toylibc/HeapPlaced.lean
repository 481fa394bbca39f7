import Toylibc.Heap

/-!
# The place of the heap

`Placed` is where the brk heap and the mappings lie: the heap reaches up to the break, and the
kernel keeps it and the mappings apart. It does not look at the memory. The initialisation, a
granted growth, `mmap` and `munmap` keep it, in runs that avoid the defects and in all others.
-/

namespace Toylibc

open ByteMemory

/-- The heap reaches up to the break, and the kernel keeps it and the mappings apart. -/
structure Placed (K : Kernel) (w : Heap) : Prop where
  fresh : w.heapOk = false → w.heapLo = 0 ∧ w.heapHi = 0
  start_le_break : K.break0 ≤ breakAfter K w.log
  break_user : breakAfter K w.log ≤ userTop
  start_le_lo : w.heapOk = true → K.break0 ≤ w.heapLo
  break_le_hi : w.heapOk = true → breakAfter K w.log ≤ w.heapHi
  hi_eq_break : w.heapLo < w.heapHi → w.heapHi = breakAfter K w.log
  hi_user : w.heapHi ≤ userTop + 15
  maps_user : ∀ r ∈ mapsAfter w.log, r.1 + r.2 ≤ userTop
  maps_heap : ∀ r ∈ mapsAfter w.log, Apart w.heapLo w.heapHi r.1 (r.1 + r.2)
  maps_apart : (mapsAfter w.log).Pairwise fun r r' => Apart r.1 (r.1 + r.2) r'.1 (r'.1 + r'.2)

section

variable {K : Kernel} {w : Heap}

theorem Placed.hi_lt (h : Placed K w) : w.heapHi + 2 ^ 60 < 2 ^ 64 := by
  have := h.hi_user
  unfold userTop at this
  omega

/-- Before its initialisation the heap is empty, and only the mappings matter. -/
theorem Placed.uninitialised (hlo : w.heapLo = 0) (hhi : w.heapHi = 0) (hok : w.heapOk = false)
    (hstart : K.break0 ≤ breakAfter K w.log) (huser : breakAfter K w.log ≤ userTop)
    (hmaps : ∀ r ∈ mapsAfter w.log, r.1 + r.2 ≤ userTop)
    (hapart : (mapsAfter w.log).Pairwise fun r r' => Apart r.1 (r.1 + r.2) r'.1 (r'.1 + r'.2)) :
    Placed K w where
  fresh _ := ⟨hlo, hhi⟩
  start_le_break := hstart
  break_user := huser
  start_le_lo hbad := absurd (hok.symm.trans hbad) Bool.false_ne_true
  break_le_hi hbad := absurd (hok.symm.trans hbad) Bool.false_ne_true
  hi_eq_break hlt := by omega
  hi_user := by omega
  maps_user := hmaps
  maps_heap _ _ x _ hx := absurd hx (by omega)
  maps_apart := hapart

/-- The bounds matter, and the kernel calls by the break and the mappings. -/
theorem Placed.congr {w' : Heap} (h : Placed K w) (hlo : w'.heapLo = w.heapLo)
    (hhi : w'.heapHi = w.heapHi) (hok : w'.heapOk = w.heapOk)
    (hbreak : breakAfter K w'.log = breakAfter K w.log)
    (hmaps : mapsAfter w'.log = mapsAfter w.log) : Placed K w' := by
  constructor
  · rw [hok, hlo, hhi]
    exact h.fresh
  · rw [hbreak]
    exact h.start_le_break
  · rw [hbreak]
    exact h.break_user
  · rw [hok, hlo]
    exact h.start_le_lo
  · rw [hok, hbreak, hhi]
    exact h.break_le_hi
  · rw [hlo, hhi, hbreak]
    exact h.hi_eq_break
  · rw [hhi]
    exact h.hi_user
  · rw [hmaps]
    exact h.maps_user
  · rw [hmaps, hlo, hhi]
    exact h.maps_heap
  · rw [hmaps]
    exact h.maps_apart

/-! ## The brk heap -/

/-- The heap starts at the break, or behind it where that is not aligned. -/
theorem heapInit_cases (K : Kernel) (w : Heap) {cur al : Nat} (hcur : K.brk w.log 0 = cur)
    (hal : alignUp cur align = al) :
    (al ≠ cur ∧ heapInit K w =
      ⟨w.mem, al, al, true, .brk al (K.brk (.brk 0 cur :: w.log) al) :: .brk 0 cur :: w.log⟩) ∨
    (al = cur ∧ heapInit K w = ⟨w.mem, al, al, true, .brk 0 cur :: w.log⟩) := by
  unfold heapInit toylibcBrk
  simp only [hcur, hal]
  by_cases hmove : al = cur
  · right
    refine ⟨hmove, ?_⟩
    rw [if_neg (not_not.mpr hmove)]
  · left
    refine ⟨hmove, ?_⟩
    rw [if_pos hmove]

theorem mapsAfter_heapInit (K : Kernel) (w : Heap) :
    mapsAfter (heapInit K w).log = mapsAfter w.log := by
  rcases heapInit_cases K w rfl rfl with ⟨-, heq⟩ | ⟨-, heq⟩
  · rw [heq, mapsAfter, mapsAfter]
  · rw [heq, mapsAfter]

theorem heapInit_eq (hK : K.Lawful) (hpos : 0 < breakAfter K w.log) :
    ∃ log, heapInit K w = ⟨w.mem, alignUp (breakAfter K w.log) align,
        alignUp (breakAfter K w.log) align, true, log⟩ ∧
      (breakAfter K log = breakAfter K w.log ∨
        breakAfter K log = alignUp (breakAfter K w.log) align ∧ breakAfter K log ≤ userTop) ∧
      mapsAfter log = mapsAfter w.log := by
  have hquery := hK.brk_query w.log
  have hfirst : breakAfter K (.brk 0 (breakAfter K w.log) :: w.log) = breakAfter K w.log :=
    if_neg (by omega)
  rcases heapInit_cases K w hquery rfl with ⟨-, heq⟩ | ⟨hsame, heq⟩
  · refine ⟨_, heq, ?_, rfl⟩
    by_cases hgrant : K.brk (.brk 0 (breakAfter K w.log) :: w.log)
        (alignUp (breakAfter K w.log) align) = alignUp (breakAfter K w.log) align
    · right
      simp only [breakAfter]
      rw [if_pos hgrant]
      exact ⟨rfl, hK.brk_user _ _ hgrant⟩
    · left
      simp only [breakAfter] at hfirst ⊢
      rw [if_neg hgrant, hfirst]
  · exact ⟨_, heq, .inl hfirst, rfl⟩

/-- The heap before its first use becomes an empty one at the break. -/
theorem Placed.init (hK : K.Lawful) (h : Placed K w) : Placed K (heapInit K w) := by
  have hpos := hK.break0_pos
  have hstart := h.start_le_break
  have huser := h.break_user
  obtain ⟨log, heq, hlog, hmaps⟩ := heapInit_eq hK (w := w) (by omega)
  have hal : alignUp (breakAfter K w.log) align = 16 * ((breakAfter K w.log + 16 - 1) / 16) :=
    alignUp_eq (k := 4) (by decide) (by unfold userTop at huser; omega)
  rw [heq]
  rw [hal] at hlog ⊢
  constructor <;> try dsimp only
  · exact fun hbad => Bool.noConfusion hbad
  · omega
  · omega
  · omega
  · omega
  · omega
  · omega
  · rw [hmaps]
    exact h.maps_user
  · exact fun r _ x hlo hhi _ => absurd hhi (by omega)
  · rw [hmaps]
    exact h.maps_apart

/-- The kernel moves the break to the end of the longer heap. -/
theorem Placed.grow (hK : K.Lawful) (h : Placed K w) (hok : w.heapOk = true) {m : Mem} {n : Nat}
    (hgrant : K.brk w.log (w.heapHi + n) = w.heapHi + n) :
    Placed K ⟨m, w.heapLo, w.heapHi + n, w.heapOk,
      .brk (w.heapHi + n) (w.heapHi + n) :: w.log⟩ := by
  have huser := hK.brk_user _ _ hgrant
  have hbreak : breakAfter K (.brk (w.heapHi + n) (w.heapHi + n) :: w.log) = w.heapHi + n :=
    if_pos rfl
  have hstart := h.start_le_break
  have hbreak_hi := h.break_le_hi hok
  constructor <;> try dsimp only
  · intro hnot
    rw [hok] at hnot
    cases hnot
  · omega
  · omega
  · exact h.start_le_lo
  · omega
  · omega
  · omega
  · exact h.maps_user
  · intro r hr x hlo hx
    by_cases hold : x < w.heapHi
    · exact h.maps_heap r hr x hlo hold
    · exact hK.brk_apart _ _ hgrant r hr x (by omega) hx
  · exact h.maps_apart

/-! ## Mappings -/

/-- A granted mapping does not meet the heap. -/
theorem Placed.map_apart (hK : K.Lawful) (h : Placed K w) {n : Nat}
    (hok : isErrno (K.mmap w.log n) = false) :
    Apart w.heapLo w.heapHi (K.mmap w.log n) (K.mmap w.log n + n) := by
  intro x hlo hhi
  have hbreak := h.hi_eq_break (by omega)
  cases hinit : w.heapOk with
  | false =>
    have := h.fresh hinit
    omega
  | true =>
    have hstart := h.start_le_lo hinit
    exact hK.mmap_apart_break _ _ hok x (by omega) (by omega)

/-- A granted mapping meets neither the heap nor the other mappings. -/
theorem Placed.map (hK : K.Lawful) (h : Placed K w) {n : Nat}
    (hok : isErrno (K.mmap w.log n) = false) (m : Mem) :
    Placed K { w with mem := m, log := .mmap n (K.mmap w.log n) :: w.log } := by
  have hmaps : mapsAfter (.mmap n (K.mmap w.log n) :: w.log) =
      (K.mmap w.log n, n) :: mapsAfter w.log := by
    simp [mapsAfter, hok]
  refine ⟨h.fresh, h.start_le_break, h.break_user, h.start_le_lo, h.break_le_hi, h.hi_eq_break,
    h.hi_user, ?_, ?_, ?_⟩
  · exact hmaps ▸ List.forall_mem_cons.mpr ⟨(hK.mmap_page w.log n hok).2, h.maps_user⟩
  · exact hmaps ▸ List.forall_mem_cons.mpr ⟨h.map_apart hK hok, h.maps_heap⟩
  · exact hmaps ▸ List.pairwise_cons.mpr
      ⟨fun r hr => (hK.mmap_apart_maps _ _ hok r hr).symm, h.maps_apart⟩

theorem Placed.unmap (h : Placed K w) (a n : Nat) : Placed K (toylibcMunmap w a n) where
  fresh := h.fresh
  start_le_break := h.start_le_break
  break_user := h.break_user
  start_le_lo := h.start_le_lo
  break_le_hi := h.break_le_hi
  hi_eq_break := h.hi_eq_break
  hi_user := h.hi_user
  maps_user r hr := h.maps_user r (List.mem_of_mem_erase hr)
  maps_heap r hr := h.maps_heap r (List.mem_of_mem_erase hr)
  maps_apart := h.maps_apart.sublist List.erase_sublist

end

end Toylibc
