import Toylibc.MallocAnswer

/-!
# The heap and the kernel

`Hosted` is what the bounds of the brk heap have to do with the break and with the mappings. The
memory does not matter, so it holds in every reached state, also when the blocks of the heap are
broken (`Reachable.hosted`).
-/

namespace Toylibc

open ByteMemory BlockList Transition

/-- The heap is in its place, and its bounds are in order and aligned. -/
structure Hosted (K : Kernel) (w : Heap) : Prop extends Placed K w where
  lo_le_hi : w.heapLo ≤ w.heapHi
  lo_dvd : align ∣ w.heapLo

section

variable {K : Kernel} {w : Heap}

theorem Hosted.bounded (h : Hosted K w) : Bounded K w where
  hi_user := h.hi_user
  break_user := h.break_user
  fresh hok := ⟨(h.fresh hok).2, h.start_le_break⟩

/-- The heap before its first use becomes an empty one at the break. -/
theorem Hosted.init (hK : K.Lawful) (h : Hosted K w) : Hosted K (heapInit K w) := by
  have hpos := hK.break0_pos
  have hstart := h.start_le_break
  have hplaced := h.toPlaced.init hK
  obtain ⟨log, heq, -, -⟩ := heapInit_eq hK (w := w) (by omega)
  rw [heq] at hplaced ⊢
  exact ⟨hplaced, Nat.le_refl _, dvd_alignUp _ (k := 4) (by decide)⟩

/-- The kernel moves the break to the end of the longer heap. -/
theorem Hosted.grow (hK : K.Lawful) (h : Hosted K w) (hok : w.heapOk = true) {m : Mem} {n : Nat}
    (hgrant : K.brk w.log (w.heapHi + n) = w.heapHi + n) :
    Hosted K ⟨m, w.heapLo, w.heapHi + n, w.heapOk,
      .brk (w.heapHi + n) (w.heapHi + n) :: w.log⟩ :=
  ⟨h.toPlaced.grow hK hok hgrant, Nat.le_add_right_of_le h.lo_le_hi, h.lo_dvd⟩

/-- The bounds matter, and the kernel calls by the break and the mappings. -/
theorem Hosted.congr {w' : Heap} (h : Hosted K w) (hlo : w'.heapLo = w.heapLo)
    (hhi : w'.heapHi = w.heapHi) (hok : w'.heapOk = w.heapOk)
    (hbreak : breakAfter K w'.log = breakAfter K w.log)
    (hmaps : mapsAfter w'.log = mapsAfter w.log) : Hosted K w' := by
  refine ⟨h.toPlaced.congr hlo hhi hok hbreak hmaps, ?_, ?_⟩
  · rw [hlo, hhi]
    exact h.lo_le_hi
  · rw [hlo]
    exact h.lo_dvd

theorem Hosted.map (hK : K.Lawful) (h : Hosted K w) (n : Nat) :
    Hosted K (toylibcMmap K w n).2 := by
  cases herrno : isErrno (K.mmap w.log n) with
  | true => exact h.congr rfl rfl rfl rfl (if_pos herrno)
  | false => exact ⟨h.toPlaced.map hK herrno _, h.lo_le_hi, h.lo_dvd⟩

theorem Hosted.unmap (h : Hosted K w) (a n : Nat) : Hosted K (toylibcMunmap w a n) :=
  ⟨h.toPlaced.unmap a n, h.lo_le_hi, h.lo_dvd⟩

theorem hosted_kept (hK : K.Lawful) : Kept K (Hosted K) where
  mem _ h := h.congr rfl rfl rfl rfl rfl
  init h _ := h.init hK
  grow := by
    intro w sz h hok hsz
    have hnew := (h.bounded.growSize_room hsz).1
    rcases brkGrow_cases K w (brkNeed sz) _ hnew with ⟨hrefuse, heq⟩ | ⟨hgrant, m', heq⟩
    · rw [heq]
      exact h.congr rfl rfl rfl (if_neg hrefuse) rfl
    · rw [heq]
      exact h.grow hK hok hgrant
  map n h := h.map hK n
  unmap a n h := h.unmap a n

/-- The first use of the heap keeps its blocks, of which there are none. -/
theorem Hosted.ready_tiles (hK : K.Lawful) (hw : Hosted K w) {bs : List HeapBlock}
    (h : Tiles w.mem false w.heapLo bs w.heapHi) :
    Tiles (ready K w).mem false (ready K w).heapLo bs (ready K w).heapHi ∧
      (ready K w).mem = w.mem ∧ mapsAfter (ready K w).log = mapsAfter w.log ∧
      place (ready K w).heapLo bs = place w.heapLo bs := by
  obtain ⟨-, -, hmem, hmaps⟩ := hw.bounded.ready hK
  cases hok : w.heapOk with
  | true =>
    have hsame : Toylibc.ready K w = w := if_pos hok
    rw [hsame]
    exact ⟨h, rfl, rfl, rfl⟩
  | false =>
    obtain ⟨hlo, hhi⟩ := hw.fresh hok
    have hnil : bs = [] := by
      by_contra hne
      have := extent_pos (by decide) hne
      have := h.hi_eq
      omega
    have hempty : (Toylibc.ready K w).heapLo = (Toylibc.ready K w).heapHi := by
      rw [Toylibc.ready, if_neg (by rw [hok]; decide), heapInit]
    subst hnil
    exact ⟨hempty, hmem, hmaps, by simp only [place]⟩

theorem Reachable.hosted (hK : K.Lawful) {s : State} (h : Reachable K s) : Hosted K s.heap := by
  refine (hosted_kept hK).reachable ?_ h
  intro s hfresh
  have hplaced := hfresh.placed hK
  obtain ⟨hlo, hhi, -, -, -⟩ := hfresh
  exact ⟨hplaced, by omega, hlo ▸ Nat.dvd_zero _⟩

end

end Toylibc
