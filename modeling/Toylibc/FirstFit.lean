import Toylibc.FreeExact
import Toylibc.HeapGrow

/-!
# First fit

On a heap whose headers tile `[heap_lo, heap_hi)`, whatever the flags and the other bytes,
`brk_alloc` hands out the lowest free block that is large enough, and extends the heap when
there is none (`first_fit`). The search loads nothing but headers (`searchLoads_walk`).
-/

namespace Toylibc

open ByteMemory BlockList

/-- The addresses of the words that the search loop of `brk_alloc` loads, from `cur`. -/
def searchLoads (m : Mem) (heapHi need : Nat) : Nat → Nat → List Nat
  | 0, _ => []
  | fuel + 1, cur =>
    if cur < heapHi then
      let hdrv := load64 m cur
      let blksz := getSz hdrv
      if blksz = 0 then [cur]
      else if isFree hdrv && need ≤ blksz then [cur]
      else cur :: searchLoads m heapHi need fuel (wadd cur blksz)
    else []

/-- What `brk_alloc` does for `need` bytes on a heap whose headers give the blocks `bs`. -/
structure ServesFirstFit (K : Kernel) (w : Heap) (need : Nat) (bs : List (Block 16 16)) : Prop where
  ends : ∃ r, brkSearch w.mem w.heapHi need searchFuel w.heapLo = some r ∧ r ≠ .zeroSize
  loads : ∀ a ∈ searchLoads w.mem w.heapHi need searchFuel w.heapLo,
    ∃ b, (a, b) ∈ place w.heapLo bs
  /-- Any memory with the same headers gives the same search. -/
  headers : ∀ m', (∀ a b, (a, b) ∈ place w.heapLo bs → load64 m' a = load64 w.mem a) →
    brkSearch m' w.heapHi need searchFuel w.heapLo =
      brkSearch w.mem w.heapHi need searchFuel w.heapLo
  lowest : ∀ a b, LowestFit need w.heapLo bs a b →
    brkAlloc K w need = some (a + 8, { w with mem := brkTake w.mem w.heapHi need a })
  /-- The block is marked with its size, which is all of it when the rest is no block. -/
  tagged : 16 ∣ need → 32 ≤ need → ∀ a b, LowestFit need w.heapLo bs a b →
    HandedOut (brkTake w.mem w.heapHi need a) a
      (if need + (overhead + align) ≤ b.size then need else b.size)
  noFit : (∀ b ∈ bs, b.free = true → b.size < need) →
    brkAlloc K w need = some (brkExtend K w need)
  /-- `brk_grow`, which asks the kernel for a new break, is called when nothing fits only. -/
  grows_iff : (∃ p w' ret, brkAlloc K w need = some (p, w') ∧
      w'.log = .brk (wadd w.heapHi (growSize need)) ret :: w.log) ↔
    ∀ b ∈ bs, b.free = true → b.size < need

/-- With fuel for one step per block the search loads headers only. -/
theorem searchLoads_walk {m : Mem} {hi need fuel a : Nat} {bs : List (Block 16 16)}
    (htop : hi < 2 ^ 64) (h : Walk m a bs hi) (x : Nat) (hx : x ∈ searchLoads m hi need fuel a) :
    ∃ b, (x, b) ∈ place a bs := by
  induction fuel generalizing a bs with
  | zero => cases hx
  | succ fuel ih =>
    unfold searchLoads at hx
    cases bs with
    | nil =>
      have hend : a = hi := h
      rw [if_neg (by omega)] at hx
      cases hx
    | cons b bs =>
      obtain ⟨hsize, -, hrest⟩ := h
      have hhi := hrest.hi_eq
      have hnext : wadd a b.size = a + b.size := wadd_eq (by omega)
      simp only [hsize, hnext] at hx
      split_ifs at hx
      · rw [List.mem_singleton.mp hx]
        exact ⟨b, List.mem_cons_self⟩
      · rw [List.mem_singleton.mp hx]
        exact ⟨b, List.mem_cons_self⟩
      · rcases List.mem_cons.mp hx with rfl | hx
        · exact ⟨b, List.mem_cons_self⟩
        · obtain ⟨c, hc⟩ := ih hrest hx
          exact ⟨c, List.mem_cons_of_mem _ hc⟩
      · cases hx

/-- The walk depends on the headers only. -/
theorem Walk.congr {least : Nat} {m m' : Mem} {a hi : Nat} {bs : List (Block 16 least)}
    (h : Walk m a bs hi) (hsame : ∀ x b, (x, b) ∈ place a bs → load64 m' x = load64 m x) :
    Walk m' a bs hi := by
  induction bs generalizing a with
  | nil => exact h
  | cons b bs ih =>
    obtain ⟨hsize, hfree, hrest⟩ := h
    have hhead := hsame a b List.mem_cons_self
    exact ⟨by rw [hhead, hsize], by rw [hhead, hfree],
      ih hrest fun x c hc => hsame x c (List.mem_cons_of_mem _ hc)⟩

/-- Extending the heap makes one call of `brk`. -/
theorem brkExtend_log (K : Kernel) (w : Heap) (need : Nat) :
    ∃ ret, (brkExtend K w need).2.log = .brk (wadd w.heapHi (growSize need)) ret :: w.log := by
  unfold brkExtend
  rcases brkGrow_cases K w need _ rfl with ⟨-, heq⟩ | ⟨-, m', heq⟩
  · rw [heq]
    exact ⟨_, rfl⟩
  · rw [heq]
    dsimp only
    split
    · exact ⟨_, rfl⟩
    · exact ⟨_, rfl⟩

/-- The lowest block that fits is handed out with the tags of its new size. -/
theorem Walk.handedOut {m : Mem} {lo hi need a : Nat} {bs : List (Block 16 16)} {b : Block 16 16}
    (h : Walk m lo bs hi) (htop : hi < 2 ^ 64) (h16 : 16 ∣ need) (hneed : 32 ≤ need)
    (hlow : LowestFit need lo bs a b) :
    HandedOut (brkTake m hi need a) a
      (if need + (overhead + align) ≤ b.size then need else b.size) := by
  obtain ⟨hin, -, hfit, -⟩ := hlow
  have hsize := (h.header_of_mem hin).1
  have hbounds := place_bounds hin
  have hhi := h.hi_eq
  split
  · next hsplit =>
    unfold overhead align at hsplit
    exact (splitTags_brkTake hi hsize h16 hneed hsplit (by omega)).toHandedOut
  · next hwhole =>
    have hrem : wsub (getSz (load64 m a)) need < overhead + align := by
      rw [hsize, wsub_eq (by omega) hfit]
      omega
    have hnext : a + b.size < hi → a + b.size + 8 ≤ 2 ^ 64 := by
      intro hlt
      have := place_next hin (hhi ▸ hlt)
      omega
    rw [brkTake_whole hrem]
    exact handedOut_brkTakeGrown hi hsize b.least_le (by omega) hnext

/-- On every heap whose headers tile it, `brk_alloc` serves every need by first fit. -/
theorem first_fit {K : Kernel} {w : Heap} {need : Nat} {bs : List (Block 16 16)}
    (h : Walk w.mem w.heapLo bs w.heapHi) (htop : w.heapHi < 2 ^ 64) :
    ServesFirstFit K w need bs := by
  have hpos : 0 < 16 := by decide
  have hsearch : brkSearch w.mem w.heapHi need searchFuel w.heapLo =
      some (searchResult (firstFit need w.heapLo bs)) := brkSearch_walk hpos htop h
  have hlowest : ∀ a b, LowestFit need w.heapLo bs a b →
      brkAlloc K w need = some (a + 8, { w with mem := brkTake w.mem w.heapHi need a }) := by
    intro a b hlow
    have hin := place_bounds hlow.1
    have hhi := h.hi_eq
    have hleast := b.least_le
    rw [brkAlloc_of_fit hpos h htop ((firstFit_eq_some_iff hpos).mpr hlow),
      wadd_eq (by unfold hdrSz; omega)]
    rfl
  constructor
  · refine ⟨_, hsearch, ?_⟩
    cases firstFit need w.heapLo bs <;> simp [searchResult]
  · exact searchLoads_walk htop h
  · intro m' hsame
    rw [hsearch, brkSearch_walk hpos htop (h.congr hsame)]
  · exact hlowest
  · exact fun h16 hneed a b => h.handedOut htop h16 hneed
  · exact brkAlloc_of_noFit hpos h htop
  · constructor
    · rintro ⟨p, w', ret, hcall, hlog⟩ b hb hfree
      by_contra hle
      obtain ⟨a, c, hfit⟩ :=
        (firstFit_isSome_iff (a := w.heapLo)).mp ⟨b, hb, hfree, show need ≤ b.size by omega⟩
      rw [hlowest a c ((firstFit_eq_some_iff hpos).mp hfit), Option.some.injEq, Prod.mk.injEq]
        at hcall
      rw [← hcall.2] at hlog
      exact List.cons_ne_self _ _ hlog.symm
    · intro hnofit
      obtain ⟨ret, hlog⟩ := brkExtend_log K w need
      exact ⟨_, _, ret, brkAlloc_of_noFit hpos h htop hnofit, hlog⟩

/-- Three blocks of 16 bytes, with junk for footers: used, free, free. -/
def heapSmallBlocks : Heap where
  mem := memOfWords [(4096, 16 + 3), (4104, 7), (4112, 16 + 2), (4120, 9), (4128, 16)]
  heapLo := 4096
  heapHi := 4144
  heapOk := true
  log := []

theorem heapSmallBlocks_first_fit :
    ServesFirstFit smallKernel heapSmallBlocks 16 [⟨16, false, by decide, by decide⟩,
      ⟨16, true, by decide, by decide⟩, ⟨16, true, by decide, by decide⟩] := by
  refine first_fit ?_ (by decide)
  refine ⟨?_, ?_, ?_, ?_, ?_, ?_, show _ = _ from ?_⟩ <;> decide +kernel

end Toylibc
