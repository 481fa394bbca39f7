import Toylibc.HeapSearch
import Toylibc.Session

/-!
# What every call keeps

Only `heap_init` and `brk_grow` move the bounds of the brk heap, and only they, `mmap` and
`munmap` reach the kernel. A property of the bounds and of the kernel calls that these keep
(`Kept`) is kept by every event, also in runs that break the heap, and holds in every
reached state (`Kept.reachable`).
-/

namespace Toylibc

open ByteMemory Transition

/-- `P` is kept by the pieces of `heap.c` that move the bounds or call the kernel, and does
not look at the memory. -/
structure Kept (K : Kernel) (P : Heap → Prop) : Prop where
  mem : ∀ {w : Heap} (m : Mem), P w → P { w with mem := m }
  init : ∀ {w : Heap}, P w → w.heapOk = false → P (heapInit K w)
  grow : ∀ {w : Heap} (sz : Nat), P w → w.heapOk = true → sz < mmapLimit →
    P (brkGrow K w (brkNeed sz)).2
  map : ∀ {w : Heap} (n : Nat), P w → P (toylibcMmap K w n).2
  unmap : ∀ {w : Heap} (a n : Nat), P w → P (toylibcMunmap w a n)

theorem ready_heapOk (K : Kernel) (w : Heap) : (ready K w).heapOk = true := by
  unfold ready
  split
  · assumption
  · rfl

section

variable {K : Kernel} {P : Heap → Prop} {w : Heap}

theorem Kept.ready (hk : Kept K P) (h : P w) : P (ready K w) := by
  unfold Toylibc.ready
  cases hok : w.heapOk with
  | true => exact h
  | false => exact hk.init h hok

theorem Kept.extend (hk : Kept K P) (h : P w) (hok : w.heapOk = true) {sz : Nat}
    (hsz : sz < mmapLimit) : P (brkExtend K w (brkNeed sz)).2 := by
  have hgrow := hk.grow sz h hok hsz
  unfold brkExtend
  generalize brkGrow K w (brkNeed sz) = g at hgrow
  dsimp only
  split
  · exact hgrow
  · exact hk.mem _ hgrow

theorem Kept.brkAlloc (hk : Kept K P) (h : P w) (hok : w.heapOk = true) {sz p : Nat} {w' : Heap}
    (hsz : sz < mmapLimit) (hcall : brkAlloc K w (brkNeed sz) = some (p, w')) : P w' := by
  rcases brkAlloc_cases hcall with ⟨cur, -, -, rfl⟩ | ⟨-, hext⟩
  · exact hk.mem _ h
  · have hkept := hk.extend h hok hsz
    rwa [hext] at hkept

theorem Kept.mallocMap (hk : Kept K P) (h : P w) (sz : Nat) : P (mallocMap K w sz).2 := by
  have hmap := hk.map (mapLength sz) h
  unfold Toylibc.mallocMap
  dsimp only
  split
  · exact hmap
  · exact hk.mem _ hmap

theorem Kept.malloc (hk : Kept K P) (h : P w) {sz p : Nat} {w' : Heap}
    (hcall : toylibcMalloc K w sz = some (p, w')) : P w' := by
  unfold toylibcMalloc at hcall
  by_cases hzero : sz = 0
  · rw [if_pos hzero] at hcall
    cases hcall
    exact h
  rw [if_neg hzero] at hcall
  by_cases hbig : mmapLimit ≤ sz
  · rw [if_pos hbig] at hcall
    have hmap := hk.mallocMap h sz
    rw [Option.some.inj hcall] at hmap
    exact hmap
  · rw [if_neg hbig] at hcall
    exact hk.brkAlloc (hk.ready h) (ready_heapOk K w) (Nat.lt_of_not_le hbig) hcall

theorem Kept.free (hk : Kept K P) (h : P w) (ptr : Nat) : P (toylibcFree w ptr) := by
  unfold toylibcFree
  dsimp only
  split
  · exact h
  · split
    · exact hk.unmap _ _ h
    · exact hk.mem _ h

theorem Kept.reallocMove (hk : Kept K P) (h : P w) {ptr newsz cp p : Nat} {w' : Heap}
    (hcall : reallocMove K w ptr newsz cp = some (p, w')) : P w' := by
  unfold Toylibc.reallocMove at hcall
  rcases hmalloc : toylibcMalloc K w newsz with _ | ⟨np, w1⟩
  · rw [hmalloc] at hcall
    cases hcall
  · have hnew := hk.malloc h hmalloc
    rw [hmalloc] at hcall
    dsimp only at hcall
    split at hcall
    · cases hcall
      exact hnew
    · cases hcall
      exact hk.free (hk.mem _ hnew) ptr

/-- Every event keeps `P`. -/
theorem Kept.call (hk : Kept K P) (h : P w) {e : Event} {p : Nat} {w' : Heap}
    (hcall : call K w e = some (p, w')) : P w' := by
  cases e with
  | malloc sz => exact hk.malloc h hcall
  | calloc n sz =>
    simp only [Toylibc.call, toylibcCalloc] at hcall
    split at hcall
    · cases hcall
      exact h
    · rcases hmalloc : toylibcMalloc K w (wmul n sz) with _ | ⟨q, w1⟩
      · rw [hmalloc] at hcall
        cases hcall
      · have hnew := hk.malloc h hmalloc
        rw [hmalloc] at hcall
        dsimp only at hcall
        split at hcall
        · cases hcall
          exact hnew
        · cases hcall
          exact hk.mem _ hnew
  | realloc ptr newsz =>
    simp only [Toylibc.call, toylibcRealloc] at hcall
    split_ifs at hcall
    · exact hk.malloc h hcall
    · cases hcall
      exact hk.free h ptr
    · exact hk.reallocMove h hcall
    · exact hk.reallocMove h hcall
    · cases hcall
      exact h
    · exact hk.reallocMove h hcall
  | free ptr =>
    cases hcall
    exact hk.free h ptr
  | write addr b =>
    cases hcall
    exact hk.mem _ h

/-- What holds at the start and is kept holds in every reached state. -/
theorem Kept.reachable (hk : Kept K P) (hfresh : ∀ s, Fresh s → P s.heap) {s : State}
    (h : Reachable K s) : P s.heap := by
  refine Reach.invariant (fun s => P s.heap) hfresh ?_ h
  intro s e s' hs _ hstep
  unfold step at hstep
  rcases hcall : Toylibc.call K s.heap e with _ | ⟨p, w'⟩
  · rw [hcall] at hstep
    cases hstep
  · rw [hcall] at hstep
    cases hstep
    exact hk.call hs hcall

end

end Toylibc
