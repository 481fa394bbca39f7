import Toylibc.HeapLayout

/-!
# Handing out a free block

`brk_alloc` hands a free block out whole, or splits it. Whole, the block becomes a used one
and the block behind it loses its PREV_FREE bit, so a tiling stays a tiling
(`tiles_brkTakeGrown`). After a split the rest claims that a free block stands before it
(`SplitTags`).
-/

namespace Toylibc

open ByteMemory BlockList

/-! ## A whole block -/

/-- The header and footer of a used block of `n` bytes. -/
def takenTags (m : Mem) (a n : Nat) : Mem :=
  store64 (store64 m a (n ||| flagAlloc ||| (load64 m a &&& flagPrevFree))) (a + n - 8)
    (n ||| flagAlloc)

theorem brkTakeGrown_eq {m : Mem} {hi a n : Nat} (hsz : getSz (load64 m a) = n) (hleast : 8 ≤ n)
    (htop : a + n < 2 ^ 64) :
    brkTakeGrown m hi a = if a + n < hi then
      store64 (takenTags m a n) (a + n) (load64 (takenTags m a n) (a + n) &&& wnot flagPrevFree)
      else takenTags m a n := by
  have hnext : wadd a n = a + n := wadd_eq htop
  have hftr : wsub (a + n) hdrSz = a + n - 8 := wsub_eq htop (by unfold hdrSz; omega)
  unfold brkTakeGrown takenTags
  simp only [hsz, hnext, hftr]

theorem takenTags_sameOutside {m : Mem} {a n : Nat} (htop : a + n ≤ 2 ^ 64) (hleast : 8 ≤ n) :
    SameOutside m (takenTags m a n) a (a + n) := by
  have hhdr := store64_sameOutside m (a := a) (n ||| flagAlloc ||| (load64 m a &&& flagPrevFree))
    (by omega)
  have hftr := store64_sameOutside
    (store64 m a (n ||| flagAlloc ||| (load64 m a &&& flagPrevFree))) (a := a + n - 8)
    (n ||| flagAlloc) (by omega)
  exact (hhdr.mono (Nat.le_refl _) (by omega)).trans (hftr.mono (by omega) (by omega))

theorem load64_takenTags_header {m : Mem} {a n : Nat} (hleast : 16 ≤ n) (htop : a + n ≤ 2 ^ 64) :
    load64 (takenTags m a n) a = (n ||| flagAlloc ||| (load64 m a &&& flagPrevFree)) % 2 ^ 64 := by
  rw [takenTags, load64_store64_ne _ _ (by omega) (by omega) (by omega),
    load64_store64_same _ _ (by omega)]

theorem load64_takenTags_footer {m : Mem} {a n : Nat} (htop : a + n ≤ 2 ^ 64) :
    load64 (takenTags m a n) (a + n - 8) = (n ||| flagAlloc) % 2 ^ 64 := by
  rw [takenTags, load64_store64_same _ _ (by omega)]

theorem blockAt_takenTags {m : Mem} {pf : Bool} {a : Nat} {b : HeapBlock} (h : BlockAt m pf a b)
    (htop : a + b.size < 2 ^ 64) : BlockAt (takenTags m a b.size) pf a (b.mark false) := by
  have hleast := b.least_le
  have h8 := HeapBlock.size_dvd_eight b
  have hlt : b.size < 2 ^ 64 := by omega
  refine blockAt_of_words (b.size ||| flagAlloc ||| (load64 m a &&& flagPrevFree))
    (b.size ||| flagAlloc) ?_ ?_ ?_ ?_ ?_ ?_ ?_
  · exact load64_takenTags_header (by omega) (by omega)
  · exact load64_takenTags_footer (by omega)
  · simp [getSz_of_dvd hlt h8]
  · simp
  · simp [prevFree_of_dvd hlt h8, h.hdr_prev]
  · simp [getSz_of_dvd hlt h8]
  · simp

/-- Handing out a block writes into the block and the header behind it. -/
theorem brkTakeGrown_sameOutside {m : Mem} {hi a n y : Nat} (hsz : getSz (load64 m a) = n)
    (hleast : 8 ≤ n) (hend : a + n ≤ y) (hnext : a + n < hi → a + n + 8 ≤ y) (htop : y < 2 ^ 64) :
    SameOutside m (brkTakeGrown m hi a) a y := by
  have htags := takenTags_sameOutside (m := m) (a := a) (n := n) (by omega) hleast
  have hwide := htags.mono (Nat.le_refl _) hend
  rw [brkTakeGrown_eq hsz hleast (by omega)]
  split
  · next hlt =>
    have := hnext hlt
    exact hwide.trans ((store64_sameOutside _ _ (by omega)).mono (by omega) (by omega))
  · exact hwide

/-- One block of a tiling becomes a used one. -/
theorem tiles_brkTakeGrown {m : Mem} {lo hi : Nat} {pre post : List HeapBlock} {c : HeapBlock}
    (h : Tiles m false lo (pre ++ c :: post) hi) (htop : hi < 2 ^ 64) :
    Tiles (brkTakeGrown m hi (lo + extent pre)) false lo (pre ++ c.mark false :: post) hi := by
  obtain ⟨hpre, hc, hrest⟩ := tiles_append.mp h
  have hleast := c.least_le
  have hhi := hrest.hi_eq
  have htags := blockAt_takenTags hc (by omega)
  have hsame := takenTags_sameOutside (m := m) (a := lo + extent pre) (n := c.size) (by omega)
    (by omega)
  have hpre' := hpre.frame hsame (by omega) (.inl (Nat.le_refl _))
  rw [brkTakeGrown_eq hc.hdr_size (by omega) (by omega)]
  cases post with
  | nil =>
    simp only [extent_nil] at hhi
    rw [if_neg (by omega)]
    exact tiles_append.mpr ⟨hpre', htags, hrest⟩
  | cons d post =>
    have hd_least := d.least_le
    simp only [extent_cons] at hhi
    rw [if_pos (by omega)]
    have hnext := store64_sameOutside (takenTags m (lo + extent pre) c.size)
      (a := lo + extent pre + c.size)
      (load64 (takenTags m (lo + extent pre) c.size) (lo + extent pre + c.size) &&&
        wnot flagPrevFree) (by omega)
    have hword : load64 (takenTags m (lo + extent pre) c.size) (lo + extent pre + c.size) =
        load64 m (lo + extent pre + c.size) :=
      load64_eq_of_sameOutside hsame (by omega) (.inr (Nat.le_refl _))
    refine tiles_append.mpr ⟨hpre'.frame hnext (by omega) (.inl (by omega)),
      htags.frame hnext (by simp; omega) (.inl (by simp)), ?_, ?_⟩
    · have hd := hrest.1.frame hsame (by omega) (.inr (Nat.le_refl _))
      refine hd.relink hnext (by omega) (load64_store64_same _ _ (by omega)) ?_ ?_ (by simp)
      · rw [getSz_and_wnot_prevFree, hword, hrest.1.hdr_size]
      · rw [isFree_and_wnot_prevFree, hword, hrest.1.hdr_free]
    · have hpost := hrest.2.frame hsame (by omega) (.inr (by omega))
      exact hpost.frame hnext (by omega) (.inr (by omega))

/-- Without a split a found block is used like a grown one. -/
theorem brkTake_whole {m : Mem} {hi need cur : Nat}
    (hrem : wsub (getSz (load64 m cur)) need < overhead + align) :
    brkTake m hi need cur = brkTakeGrown m hi cur := by
  unfold brkTake brkTakeGrown
  rw [if_neg (by omega)]

/-- The tags of a block of `n` bytes that was handed out. -/
structure HandedOut (m' : Mem) (a n : Nat) : Prop where
  size : getSz (load64 m' a) = n
  used : isFree (load64 m' a) = false
  ftr_size : getSz (load64 m' (a + n - 8)) = n

/-- A block that is handed out whole, on any heap. -/
theorem handedOut_brkTakeGrown {m : Mem} (hi : Nat) {a n : Nat} (hsz : getSz (load64 m a) = n)
    (hleast : 16 ≤ n) (htop : a + n < 2 ^ 64) (hnext : a + n < hi → a + n + 8 ≤ 2 ^ 64) :
    HandedOut (brkTakeGrown m hi a) a n := by
  have hsize : getSz n = n := by rw [← hsz, getSz_getSz]
  have hword : ∀ x, x + 8 ≤ a + n →
      load64 (brkTakeGrown m hi a) x = load64 (takenTags m a n) x := by
    intro x hx
    rw [brkTakeGrown_eq hsz (by omega) htop]
    split
    · next hlt =>
      have := hnext hlt
      exact load64_store64_ne _ _ (by omega) (by omega) (by omega)
    · rfl
  have hhdr := hword a (by omega)
  have hftr := hword (a + n - 8) (by omega)
  rw [load64_takenTags_header hleast (by omega)] at hhdr
  rw [load64_takenTags_footer (by omega)] at hftr
  constructor
  · rw [hhdr, getSz_mod]; simp [hsize]
  · rw [hhdr, isFree_mod]; simp
  · rw [hftr, getSz_mod]; simp [hsize]

/-! ## A split -/

/-- The tags that `brk_alloc` writes to split the block of `n` bytes at `cur`. The block may
reach over the end of the address space when the heap is broken. -/
def splitTags (m : Mem) (need cur n : Nat) : Mem :=
  let m := store64 m cur (need ||| flagAlloc ||| (load64 m cur &&& flagPrevFree))
  let m := store64 m (cur + need - 8) (need ||| flagAlloc)
  let m := store64 m (cur + need) ((n - need) ||| flagPrevFree)
  store64 m ((cur + n - 8) % 2 ^ 64) (n - need)

theorem brkTake_split {m : Mem} {hi need cur n : Nat} (hsz : getSz (load64 m cur) = n)
    (hneed : 8 ≤ need) (hsplit : need + 32 ≤ n) (htop : cur + need < 2 ^ 64) :
    brkTake m hi need cur = if (cur + n) % 2 ^ 64 < hi then
      store64 (splitTags m need cur n) ((cur + n) % 2 ^ 64)
        ((load64 (splitTags m need cur n) ((cur + n) % 2 ^ 64) &&& wnot 0x7) ||| flagPrevFree)
      else splitTags m need cur n := by
  have hlt : n < 2 ^ 64 := hsz ▸ getSz_lt _
  have hrem : wsub n need = n - need := wsub_eq hlt (by omega)
  have hnext : wadd cur need = cur + need := wadd_eq htop
  have hftr : wsub (cur + need) hdrSz = cur + need - 8 :=
    wsub_eq htop (by unfold hdrSz; omega)
  have hafter : wadd (cur + need) (n - need) = (cur + n) % 2 ^ 64 := by
    unfold wadd
    rw [show cur + need + (n - need) = cur + n by omega]
  have hlast : wsub ((cur + n) % 2 ^ 64) hdrSz = (cur + n - 8) % 2 ^ 64 := by
    unfold wsub hdrSz
    omega
  unfold brkTake splitTags
  simp only [hsz, hrem, hnext, hftr, hafter, hlast]
  rw [if_pos (by unfold overhead align; omega)]

/-- The tags of the two parts after a split. -/
structure SplitTags (m' : Mem) (need cur n : Nat) : Prop extends HandedOut m' cur need where
  rest_size : getSz (load64 m' (cur + need)) = n - need
  rest_free : isFree (load64 m' (cur + need)) = true
  /-- although the block before it was just handed out -/
  rest_prev : prevFree (load64 m' (cur + need)) = true

/-- Of the words up to the header of the rest, the last two stores of a split change none. -/
theorem load64_brkTake_split {m : Mem} (hi : Nat) {need cur n a d : Nat}
    (hsz : getSz (load64 m cur) = n) (hneed : 8 ≤ need) (hsplit : need + 32 ≤ n)
    (htop : cur + need < 2 ^ 64) (ha : a + d = cur + n - 8) (hd : 8 ≤ d) (hdn : d ≤ n - 8) :
    load64 (brkTake m hi need cur) a =
      load64 (store64 (store64 (store64 m cur
        (need ||| flagAlloc ||| (load64 m cur &&& flagPrevFree))) (cur + need - 8)
        (need ||| flagAlloc)) (cur + need) ((n - need) ||| flagPrevFree)) a := by
  have hlt : n < 2 ^ 64 := hsz ▸ getSz_lt _
  have h8 : 8 ∣ n := hsz ▸ eight_dvd_getSz _
  have htags : load64 (splitTags m need cur n) a = load64 (store64 (store64 (store64 m cur
      (need ||| flagAlloc ||| (load64 m cur &&& flagPrevFree))) (cur + need - 8)
      (need ||| flagAlloc)) (cur + need) ((n - need) ||| flagPrevFree)) a := by
    unfold splitTags
    rw [← ha]
    exact load64_store64_wrap _ _ hd (by omega)
  rw [brkTake_split hsz hneed hsplit htop, ← htags]
  split
  · rw [show cur + n = a + (d + 8) by omega]
    exact load64_store64_wrap _ _ (by omega) (by omega)
  · rfl

/-- Before the end of the address space a split writes into the block and the header behind it. -/
theorem splitTags_sameOutside {m : Mem} {need cur n : Nat} (hneed : 8 ≤ need)
    (hsplit : need + 32 ≤ n) (htop : cur + n < 2 ^ 64) :
    SameOutside m (splitTags m need cur n) cur (cur + n) := by
  have hlast : (cur + n - 8) % 2 ^ 64 = cur + n - 8 := Nat.mod_eq_of_lt (by omega)
  have hstore : ∀ (m : Mem) (a v : Nat), cur ≤ a → a + 8 ≤ cur + n →
      SameOutside m (store64 m a v) cur (cur + n) := fun m a v hlo hhi =>
    (store64_sameOutside m v (by omega)).mono hlo hhi
  unfold splitTags
  rw [hlast]
  exact (((hstore _ _ _ (Nat.le_refl _) (by omega)).trans
    (hstore _ _ _ (by omega) (by omega))).trans
    (hstore _ _ _ (by omega) (by omega))).trans (hstore _ _ _ (by omega) (by omega))

/-- Handing out a part of a block or all of it writes into the block and the header behind it. -/
theorem brkTake_sameOutside {m : Mem} (hi : Nat) {need cur n y : Nat}
    (hsz : getSz (load64 m cur) = n)
    (hneed : 8 ≤ need) (hfit : need ≤ n) (hend : cur + n ≤ y)
    (hnext : cur + n < hi → cur + n + 8 ≤ y) (htop : y < 2 ^ 64) :
    SameOutside m (brkTake m hi need cur) cur y := by
  by_cases hsplit : need + 32 ≤ n
  · have htags := splitTags_sameOutside (m := m) hneed hsplit (show cur + n < 2 ^ 64 by omega)
    have hwide := htags.mono (Nat.le_refl _) hend
    rw [brkTake_split hsz hneed hsplit (by omega),
      Nat.mod_eq_of_lt (show cur + n < 2 ^ 64 by omega)]
    split
    · next hlt =>
      have := hnext hlt
      exact hwide.trans ((store64_sameOutside _ _ (by omega)).mono (by omega) (by omega))
    · exact hwide
  · rw [brkTake_whole (by rw [hsz, wsub_eq (hsz ▸ getSz_lt _) hfit]; unfold overhead align; omega)]
    exact brkTakeGrown_sameOutside hsz (by omega) hend hnext htop

/-- The footer of the rest, and the header behind it. -/
theorem load64_brkTake_rest {m : Mem} (hi : Nat) {need cur n : Nat}
    (hsz : getSz (load64 m cur) = n)
    (hneed : 8 ≤ need) (hsplit : need + 32 ≤ n) (htop : cur + n + 8 ≤ 2 ^ 64) :
    load64 (brkTake m hi need cur) (cur + n - 8) = (n - need) % 2 ^ 64 ∧
      (cur + n < hi → load64 (brkTake m hi need cur) (cur + n) =
        ((load64 m (cur + n) &&& wnot 0x7) ||| flagPrevFree) % 2 ^ 64) := by
  have hmod : (cur + n) % 2 ^ 64 = cur + n := Nat.mod_eq_of_lt (by omega)
  have hftr : load64 (splitTags m need cur n) (cur + n - 8) = (n - need) % 2 ^ 64 := by
    unfold splitTags
    rw [Nat.mod_eq_of_lt (show cur + n - 8 < 2 ^ 64 by omega), load64_store64_same _ _ (by omega)]
  have hafter : load64 (splitTags m need cur n) (cur + n) = load64 m (cur + n) :=
    load64_eq_of_sameOutside (splitTags_sameOutside hneed hsplit (by omega)) htop
      (.inr (Nat.le_refl _))
  rw [brkTake_split hsz hneed hsplit (by omega), hmod]
  split
  · refine ⟨?_, fun _ => ?_⟩
    · rw [load64_store64_ne _ _ (by omega) (by omega) (by omega), hftr]
    · rw [load64_store64_same _ _ (by omega), hafter]
  · next hlast => exact ⟨hftr, fun hlt => absurd hlt hlast⟩

theorem splitTags_brkTake {m : Mem} (hi : Nat) {need cur n : Nat}
    (hsz : getSz (load64 m cur) = n) (h16 : 16 ∣ need) (hneed : 32 ≤ need)
    (hsplit : need + 32 ≤ n) (htop : cur + need + 8 ≤ 2 ^ 64) :
    SplitTags (brkTake m hi need cur) need cur n := by
  have hlt : n < 2 ^ 64 := hsz ▸ getSz_lt _
  have h8 : 8 ∣ n := hsz ▸ eight_dvd_getSz _
  have hneed8 : 8 ∣ need := Nat.dvd_trans (by decide) h16
  have hsize : getSz need = need := getSz_of_dvd (by omega) hneed8
  have hrem : getSz (n - need) = n - need := getSz_of_dvd (by omega) (Nat.dvd_sub h8 hneed8)
  have hrem_free : isFree (n - need) = true := isFree_of_dvd (by omega) (Nat.dvd_sub h8 hneed8)
  have hhdr := load64_brkTake_split hi (a := cur) (d := n - 8) hsz (by omega) hsplit (by omega)
    (by omega) (by omega) (by omega)
  have hftr := load64_brkTake_split hi (a := cur + need - 8) (d := n - need) hsz (by omega) hsplit
    (by omega) (by omega) (by omega) (by omega)
  have hrest := load64_brkTake_split hi (a := cur + need) (d := n - need - 8) hsz (by omega) hsplit
    (by omega) (by omega) (by omega) (by omega)
  rw [load64_store64_ne _ _ (by omega) (by omega) (by omega),
    load64_store64_ne _ _ (by omega) (by omega) (by omega), load64_store64_same _ _ (by omega)]
    at hhdr
  rw [load64_store64_ne _ _ (by omega) (by omega) (by omega), load64_store64_same _ _ (by omega)]
    at hftr
  rw [load64_store64_same _ _ (by omega)] at hrest
  refine ⟨⟨?_, ?_, ?_⟩, ?_, ?_, ?_⟩
  · rw [hhdr, getSz_mod]; simp [hsize]
  · rw [hhdr, isFree_mod]; simp
  · rw [hftr, getSz_mod]; simp [hsize]
  · rw [hrest, getSz_mod]; simp [hrem]
  · rw [hrest, isFree_mod]; simp [hrem_free]
  · rw [hrest, prevFree_mod]; simp

end Toylibc
