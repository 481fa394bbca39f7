import Toylibc.HeapLayout

/-!
# The search loop of `brk_alloc`

On a heap whose headers tile `[lo, hi)` the loop ends, and it ends at the first block
that is free and large enough (`brkSearch_walk`). Flags and footers do not matter.
-/

namespace Toylibc

open ByteMemory BlockList

/-- The result of a search for the first fit. -/
def searchResult {least : Nat} : Option (Nat × Block 16 least) → Search
  | some p => .found p.1
  | none => .exhausted

/-- What the search finds starts in the heap, is free and large enough, on any heap. -/
theorem brkSearch_found {m : Mem} {hi need fuel a cur : Nat}
    (h : brkSearch m hi need fuel a = some (.found cur)) :
    cur < hi ∧ isFree (load64 m cur) = true ∧ need ≤ getSz (load64 m cur) := by
  induction fuel generalizing a with
  | zero => cases h
  | succ fuel ih =>
    unfold brkSearch at h
    dsimp only at h
    split_ifs at h with hlt hzero hfit
    · cases h
    · cases h
      simp only [Bool.and_eq_true, decide_eq_true_eq] at hfit
      exact ⟨hlt, hfit⟩
    · exact ih h
    · cases h

/-- The search from `a` over the blocks `bs`, with fuel for one step per block. -/
theorem brkSearch_walk_fuel {least : Nat} (hleast : 0 < least) {m : Mem} {hi need : Nat}
    (htop : hi < 2 ^ 64) {bs : List (Block 16 least)} {a fuel : Nat} (h : Walk m a bs hi)
    (hfuel : bs.length < fuel) :
    brkSearch m hi need fuel a = some (searchResult (firstFit need a bs)) := by
  induction bs generalizing a fuel with
  | nil =>
    obtain ⟨fuel, rfl⟩ := Nat.exists_eq_add_of_lt hfuel
    have hend : ¬a < hi := by
      have : a = hi := h
      omega
    simp [brkSearch, hend, firstFit, place, searchResult]
  | cons b bs ih =>
    obtain ⟨fuel, rfl⟩ := Nat.exists_eq_add_of_lt hfuel
    obtain ⟨hsize, hfree, hrest⟩ := h
    have hb := b.least_le
    have hhi := hrest.hi_eq
    have hcur : a < hi := by omega
    have hpos : b.size ≠ 0 := by omega
    have hnext : wadd a b.size = a + b.size := wadd_eq (by omega)
    rw [show (b :: bs).length + fuel + 1 = (bs.length + 1 + fuel) + 1 by simp]
    simp only [brkSearch, hcur, if_true, hsize, hpos, if_false, hfree, hnext]
    rw [firstFit, place, List.find?_cons]
    cases hfit : (b.free && decide (need ≤ b.size)) with
    | true => simp [searchResult]
    | false =>
      simp only [Bool.false_eq_true, if_false]
      exact ih hrest (by omega)

/-- The search of `brk_alloc` ends, at the first fit if there is one. -/
theorem brkSearch_walk {least : Nat} (hleast : 0 < least) {m : Mem} {lo hi need : Nat}
    (htop : hi < 2 ^ 64) {bs : List (Block 16 least)} (h : Walk m lo bs hi) :
    brkSearch m hi need searchFuel lo = some (searchResult (firstFit need lo bs)) := by
  have hhi := h.hi_eq
  have hlen := length_le_extent hleast bs
  exact brkSearch_walk_fuel hleast htop h (by unfold searchFuel; omega)

/-- What the search finds there is the first fit. -/
theorem Walk.firstFit {least : Nat} (hleast : 0 < least) {m : Mem} {lo hi need cur : Nat}
    {bs : List (Block 16 least)} (h : Walk m lo bs hi) (htop : hi < 2 ^ 64)
    (hfound : brkSearch m hi need searchFuel lo = some (.found cur)) :
    ∃ b, BlockList.firstFit need lo bs = some (cur, b) := by
  rw [brkSearch_walk hleast htop h, Option.some.injEq] at hfound
  cases hfit : BlockList.firstFit need lo bs with
  | none =>
    rw [hfit] at hfound
    cases hfound
  | some r =>
    rw [hfit] at hfound
    exact ⟨r.2, by rw [← Search.found.inj hfound]⟩

/-- What `brk_alloc` can do: hand out what the search found, or extend the heap. -/
theorem brkAlloc_cases {K : Kernel} {w w' : Heap} {need p : Nat}
    (hcall : brkAlloc K w need = some (p, w')) :
    (∃ cur, brkSearch w.mem w.heapHi need searchFuel w.heapLo = some (.found cur) ∧
      p = wadd cur hdrSz ∧ w' = { w with mem := brkTake w.mem w.heapHi need cur }) ∨
    (∃ r, brkSearch w.mem w.heapHi need searchFuel w.heapLo = some r ∧ ∀ cur, r ≠ .found cur) ∧
      brkExtend K w need = (p, w') := by
  unfold brkAlloc at hcall
  rcases hsearch : brkSearch w.mem w.heapHi need searchFuel w.heapLo with _ | cur | _ | _
  · rw [hsearch] at hcall
    cases hcall
  · rw [hsearch] at hcall
    simp only [Option.some.injEq, Prod.mk.injEq] at hcall
    exact .inl ⟨cur, rfl, hcall.1.symm, hcall.2.symm⟩
  · rw [hsearch] at hcall
    exact .inr ⟨⟨_, rfl, by simp⟩, Option.some.inj hcall⟩
  · rw [hsearch] at hcall
    exact .inr ⟨⟨_, rfl, by simp⟩, Option.some.inj hcall⟩

theorem brkAlloc_of_found {K : Kernel} {w : Heap} {need cur : Nat}
    (hfound : brkSearch w.mem w.heapHi need searchFuel w.heapLo = some (.found cur)) :
    brkAlloc K w need =
      some (wadd cur hdrSz, { w with mem := brkTake w.mem w.heapHi need cur }) := by
  unfold brkAlloc
  rw [hfound]

/-- After an unsuccessful search the heap is extended. -/
theorem brkAlloc_of_notFound {K : Kernel} {w : Heap} {need : Nat} {r : Search}
    (hsearch : brkSearch w.mem w.heapHi need searchFuel w.heapLo = some r)
    (hnot : ∀ cur, r ≠ .found cur) : brkAlloc K w need = some (brkExtend K w need) := by
  unfold brkAlloc
  rw [hsearch]
  cases r with
  | found cur => exact absurd rfl (hnot cur)
  | exhausted => rfl
  | zeroSize => rfl

/-- `brk_alloc` hands out the first fit. -/
theorem brkAlloc_of_fit {least : Nat} (hleast : 0 < least) {K : Kernel} {w : Heap} {need a : Nat}
    {b : Block 16 least} {bs : List (Block 16 least)} (h : Walk w.mem w.heapLo bs w.heapHi)
    (htop : w.heapHi < 2 ^ 64) (hfit : firstFit need w.heapLo bs = some (a, b)) :
    brkAlloc K w need =
      some (wadd a hdrSz, { w with mem := brkTake w.mem w.heapHi need a }) :=
  brkAlloc_of_found (by rw [brkSearch_walk hleast htop h, hfit]; rfl)

/-- When nothing fits, `brk_alloc` extends the heap. -/
theorem brkAlloc_of_noFit {least : Nat} (hleast : 0 < least) {K : Kernel} {w : Heap} {need : Nat}
    {bs : List (Block 16 least)} (h : Walk w.mem w.heapLo bs w.heapHi) (htop : w.heapHi < 2 ^ 64)
    (hnofit : ∀ c ∈ bs, c.free = true → c.size < need) :
    brkAlloc K w need = some (brkExtend K w need) := by
  refine brkAlloc_of_notFound (r := .exhausted) ?_ (by simp)
  rw [brkSearch_walk hleast htop h, firstFit_eq_none hnofit]
  rfl

end Toylibc
