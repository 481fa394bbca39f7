import Toylibc.CleanFailure

/-!
# What a request answers, in any reached state

The lemmas here hold in every state that an interface-respecting run reaches, also when the
heap is already broken. They only use that the bounds of the heap are aligned and in user
space (`Grounded`). A small request is served from the block that the search finds, or from
fresh memory at the old end of the heap (`brkAlloc_answer`). A large one asks for a mapping
(`mallocMap_answer`).
-/

namespace Toylibc

open ByteMemory Transition

/-- The bounds of the heap are aligned and in user space, and an initialised heap does not
start at `NULL`. -/
structure Grounded (K : Kernel) (w : Heap) : Prop where
  bounded : Bounded K w
  lo_dvd : 16 ∣ w.heapLo
  hi_dvd : 16 ∣ w.heapHi
  hi_pos : w.heapOk = true → 0 < w.heapHi

section

variable {K : Kernel} {w : Heap}

theorem Bounded.growSize_room (h : Bounded K w) {sz : Nat} (hsz : sz < mmapLimit) :
    wadd w.heapHi (growSize (brkNeed sz)) = w.heapHi + growSize (brkNeed sz) ∧
      w.heapHi + brkNeed sz + 4096 < 2 ^ 63 := by
  have huser := h.hi_user
  unfold userTop at huser
  unfold mmapLimit at hsz
  have hneed := brkNeed_eq (show sz < 2 ^ 63 by omega)
  have hlt := growSize_lt (show brkNeed sz + 4096 ≤ 2 ^ 64 by omega)
  exact ⟨wadd_eq (by omega), by omega⟩

theorem grounded_kept (hK : K.Lawful) : Kept K (Grounded K) where
  mem m h := ⟨(bounded_kept hK).mem m h.bounded, h.lo_dvd, h.hi_dvd, h.hi_pos⟩
  init := by
    intro w h hok
    obtain ⟨-, hstart⟩ := h.bounded.fresh hok
    have hpos := hK.break0_pos
    have huser := h.bounded.break_user
    obtain ⟨log, heq, -, -⟩ := heapInit_eq hK (w := w) (by omega)
    have hdvd : 16 ∣ alignUp (breakAfter K w.log) align := dvd_alignUp _ (k := 4) (by decide)
    have hal : alignUp (breakAfter K w.log) align = 16 * ((breakAfter K w.log + 16 - 1) / 16) :=
      alignUp_eq (k := 4) (by decide) (by unfold userTop at huser; omega)
    have hbounded := (bounded_kept hK).init h.bounded hok
    rw [heq] at hbounded ⊢
    exact ⟨hbounded, hdvd, hdvd, fun _ => by dsimp only; omega⟩
  grow := by
    intro w sz h hok hsz
    have hbounded := (bounded_kept hK).grow sz h.bounded hok hsz
    obtain ⟨hnew, hroom⟩ := h.bounded.growSize_room hsz
    have hdvd := page_dvd_growSize (show brkNeed sz + 4096 ≤ 2 ^ 64 by omega)
    have hhi := h.hi_pos hok
    have hhi_dvd := h.hi_dvd
    rcases brkGrow_cases K w (brkNeed sz) _ rfl with ⟨-, heq⟩ | ⟨-, m', heq⟩
    · rw [heq] at hbounded ⊢
      exact ⟨hbounded, h.lo_dvd, h.hi_dvd, h.hi_pos⟩
    · rw [heq] at hbounded ⊢
      rw [hnew] at hbounded ⊢
      exact ⟨hbounded, h.lo_dvd, by dsimp only; omega, fun _ => by dsimp only; omega⟩
  map n h := ⟨(bounded_kept hK).map n h.bounded, h.lo_dvd, h.hi_dvd, h.hi_pos⟩
  unmap a n h := ⟨(bounded_kept hK).unmap a n h.bounded, h.lo_dvd, h.hi_dvd, h.hi_pos⟩

theorem Reachable.grounded (hK : K.Lawful) {s : State} (h : Reachable K s) :
    Grounded K s.heap := by
  refine (grounded_kept hK).reachable ?_ h
  intro s hfresh
  have hbounded : Bounded K s.heap := Reachable.bounded hK (.start hfresh)
  obtain ⟨hlo, hhi, hok, -, -⟩ := hfresh
  exact ⟨hbounded, by omega, by omega, fun hbad => by rw [hok] at hbad; cases hbad⟩

/-! ## Small requests -/

/-- The search ends at the header `cur`. -/
def SearchFinds (w : Heap) (need cur : Nat) : Prop :=
  brkSearch w.mem w.heapHi need searchFuel w.heapLo = some (.found cur)

/-- The search ends without a block. -/
def SearchFails (w : Heap) (need : Nat) : Prop :=
  ∃ r, brkSearch w.mem w.heapHi need searchFuel w.heapLo = some r ∧ ∀ cur, r ≠ .found cur

/-- `merge` keeps the size of the block that ends the heap, whatever its neighbour says. -/
theorem load64_merge_end {m : Mem} {hi a n : Nat} (hsz : getSz (load64 m a) = n)
    (hend : a + n = hi) (htop : hi < 2 ^ 64) (hleast : 16 ≤ n) :
    load64 (merge m hi a) a = load64 m a := by
  have hnext : wadd a n = hi := by rw [wadd_eq (by omega), hend]
  unfold merge
  simp only [hsz, hnext, Nat.lt_irrefl, decide_false, Bool.false_and, Bool.false_eq_true, if_false]
  cases hprev : prevFree (load64 m a) with
  | false => simp
  | true =>
    have hq_lt := getSz_lt (load64 m (wsub a hdrSz))
    have hq_dvd := eight_dvd_getSz (load64 m (wsub a hdrSz))
    generalize getSz (load64 m (wsub a hdrSz)) = q at hq_lt hq_dvd
    simp only [if_true]
    split
    · next hne =>
      have hq : q ≠ 0 := by
        rintro rfl
        exact hne (wadd_eq (by omega))
      have hstart : wsub a q = (a + (2 ^ 64 - q)) % 2 ^ 64 := rfl
      have hsum : wadd (wsub a q) (wadd n q) = hi := by
        unfold wadd wsub
        omega
      have hftr : wsub hi hdrSz = (a + (n - 8)) % 2 ^ 64 := by
        rw [wsub_eq htop (by unfold hdrSz; omega)]
        unfold hdrSz
        omega
      rw [hsum, if_neg (Nat.lt_irrefl hi), hftr, load64_store64_wrap _ _ (by omega) (by omega),
        hstart, load64_store64_wrap _ _ (by omega) (by omega)]
    · rfl

/-- Fresh memory is handed out at the old end of the heap. -/
theorem handedOut_brkExtend {need : Nat} (hpos : 0 < need) (hhi : 0 < w.heapHi)
    (hroom : w.heapHi + need + 4096 < 2 ^ 63)
    (hgrant : K.brk w.log (w.heapHi + growSize need) = w.heapHi + growSize need) :
    ∃ w', brkExtend K w need = (w.heapHi + 8, w') ∧ HandedOut w'.mem w.heapHi (growSize need) := by
  have hroom' : need + 4096 ≤ 2 ^ 64 := by omega
  have hlt := growSize_lt hroom'
  have hge := le_growSize hroom'
  have hdvd := page_dvd_growSize hroom'
  have hext := brkExtend_eq hhi (show w.heapHi + need + 4096 ≤ 2 ^ 64 by omega) hgrant
  have hnew := getSz_growTags (w := w) (show 8 ∣ growSize need by omega) (by omega) (by omega)
  have hmerged := load64_merge_end hnew rfl (by omega) (by omega)
  generalize merge (growTags w (growSize need)) (w.heapHi + growSize need) w.heapHi = m
    at hext hmerged
  have hsz : getSz (load64 m w.heapHi) = growSize need := by rw [hmerged, hnew]
  exact ⟨_, hext, handedOut_brkTakeGrown _ hsz (by omega) (by omega) (by omega)⟩

theorem SearchFails.not_found {need cur : Nat} (h : SearchFails w need) :
    brkSearch w.mem w.heapHi need searchFuel w.heapLo ≠ some (.found cur) := by
  obtain ⟨r, hsearch, hnot⟩ := h
  rw [hsearch, ne_eq, Option.some.injEq]
  exact hnot cur

theorem brkAlloc_of_searchFails {need : Nat} (h : SearchFails w need) :
    brkAlloc K w need = some (brkExtend K w need) := by
  obtain ⟨r, hsearch, hnot⟩ := h
  exact brkAlloc_of_notFound hsearch hnot

/-- What becomes of the block of `n` bytes that the search found. -/
theorem brkTake_found (hg : Grounded K w) {sz : Nat} (hpos : 0 < sz) (hsz : sz < mmapLimit)
    {cur : Nat}
    (hfound : brkSearch w.mem w.heapHi (brkNeed sz) searchFuel w.heapLo = some (.found cur)) :
    (brkNeed sz + 32 ≤ getSz (load64 w.mem cur) ∧
      SplitTags (brkTake w.mem w.heapHi (brkNeed sz) cur) (brkNeed sz) cur
        (getSz (load64 w.mem cur))) ∨
    (brkNeed sz ≤ getSz (load64 w.mem cur) ∧ getSz (load64 w.mem cur) < brkNeed sz + 32 ∧
      HandedOut (brkTake w.mem w.heapHi (brkNeed sz) cur) cur (getSz (load64 w.mem cur))) := by
  have hneed := brkNeed_eq (show sz < 2 ^ 63 by unfold mmapLimit at hsz; omega)
  have hroom := (hg.bounded.growSize_room hsz).2
  obtain ⟨hlt, -, hfit⟩ := brkSearch_found hfound
  by_cases hsplit : brkNeed sz + 32 ≤ getSz (load64 w.mem cur)
  · exact .inl ⟨hsplit,
      splitTags_brkTake w.heapHi rfl (by omega) (by omega) hsplit (by omega)⟩
  · have hrem : wsub (getSz (load64 w.mem cur)) (brkNeed sz) < overhead + align := by
      rw [wsub_eq (getSz_lt _) hfit]
      unfold overhead align
      omega
    rw [brkTake_whole hrem]
    exact .inr ⟨hfit, by omega, handedOut_brkTakeGrown _ rfl (by omega) (by omega) (by omega)⟩

/-- A small request that is not refused is served at `cur`, where the search found a free block
of `n` bytes, or at the old end of the heap. -/
theorem brkAlloc_answer (hg : Grounded K w) (hok : w.heapOk = true) {sz : Nat}
    (hsz : sz < mmapLimit) {p : Nat} {w' : Heap}
    (hcall : brkAlloc K w (brkNeed sz) = some (p, w')) :
    (∃ cur, brkSearch w.mem w.heapHi (brkNeed sz) searchFuel w.heapLo = some (.found cur) ∧
      p = cur + 8 ∧ cur < w.heapHi ∧ w'.mem = brkTake w.mem w.heapHi (brkNeed sz) cur) ∨
    (SearchFails w (brkNeed sz) ∧ BrkRefused K w (brkNeed sz) ∧ p = 0) ∨
    (SearchFails w (brkNeed sz) ∧ ¬BrkRefused K w (brkNeed sz) ∧ p = w.heapHi + 8 ∧
      HandedOut w'.mem w.heapHi (growSize (brkNeed sz))) := by
  obtain ⟨hnew, hroom⟩ := hg.bounded.growSize_room hsz
  have hneed := brkNeed_eq (show sz < 2 ^ 63 by unfold mmapLimit at hsz; omega)
  rcases brkAlloc_cases hcall with ⟨cur, hsearch, rfl, rfl⟩ | ⟨hfails, hext⟩
  · have hlt := (brkSearch_found hsearch).1
    exact .inl ⟨cur, hsearch, wadd_eq (by unfold hdrSz; omega), hlt, rfl⟩
  · by_cases hrefuse : BrkRefused K w (brkNeed sz)
    · rw [brkExtend_refused hrefuse, Prod.mk.injEq] at hext
      exact .inr (.inl ⟨hfails, hrefuse, hext.1.symm⟩)
    · have hgrant := not_not.mp hrefuse
      rw [hnew] at hgrant
      obtain ⟨w1, hext', hout⟩ := handedOut_brkExtend (by omega) (hg.hi_pos hok) hroom hgrant
      rw [hext', Prod.mk.injEq] at hext
      obtain ⟨rfl, rfl⟩ := hext
      exact .inr (.inr ⟨hfails, hrefuse, rfl, hout⟩)

/-! ## `toylibc_malloc` -/

/-- A large request answers the address behind the header word of what `mmap` answered. -/
theorem mallocMap_answer (K : Kernel) (w : Heap) (sz : Nat) :
    (mallocMap K w sz).1 = (if K.mmap w.log (mapLength sz) = wnot 0 then 0
      else wadd (K.mmap w.log (mapLength sz)) hdrSz) ∧
    (mallocMap K w sz).2.log = .mmap (mapLength sz) (K.mmap w.log (mapLength sz)) :: w.log := by
  unfold mallocMap toylibcMmap
  dsimp only
  split <;> exact ⟨rfl, rfl⟩

end

end Toylibc
