import Toylibc.HeapHosted
import Toylibc.HeapLinked

/-!
# A request on a heap with accurate tags

Whichever way a small request is served, from a whole block, a part of one, or fresh pages that
may have been fused, the heap stays linked, and the range that was handed out lies between two
boundaries and apart from the used blocks (`brkAlloc_served`).
-/

namespace Toylibc

open ByteMemory BlockList

/-- `w'` is the heap `w` with the blocks `bs` after the range `[c, c + k)` was handed out. The
headers lead through `bs'`. -/
structure Served (w w' : Heap) (bs bs' : List HeapBlock) (c k : Nat) : Prop where
  linked : Linked w'.mem none w'.heapLo bs' w'.heapHi
  /-- no block starts inside the range -/
  whole : ∀ v, Boundary w'.heapLo bs' v → v ≤ c ∨ c + k ≤ v
  inside : w'.heapLo ≤ c ∧ c + k ≤ w'.heapHi
  lo_eq : w'.heapLo = w.heapLo
  hi_le : w.heapHi ≤ w'.heapHi
  maps : mapsAfter w'.log = mapsAfter w.log
  kept : ∀ a b, (a, b) ∈ place w.heapLo bs → b.free = false →
    (a, b) ∈ place w'.heapLo bs' ∧ (a + b.size ≤ c ∨ c + k ≤ a)
  payload : ∀ a b, (a, b) ∈ place w.heapLo bs → b.free = false →
    ∀ x, a + 8 ≤ x → x + 8 < a + b.size → loadByte w'.mem x = loadByte w.mem x
  frame : SameOutside w.mem w'.mem w'.heapLo w'.heapHi

section

variable {m : Mem} {lo hi : Nat} {pre post : List HeapBlock} {d r : HeapBlock}

/-! ## From the free list -/

/-- A split leaves a linked heap, although the flags of the rest are wrong. -/
theorem linked_brkTake_split (h : Tiles m false lo (pre ++ d :: post) hi)
    (hsplit : r.size + 32 ≤ d.size) (htop : hi + 8 < 2 ^ 64) :
    Linked (brkTake m hi r.size (lo + extent pre)) none lo (pre ++ d.cut r ++ post) hi := by
  have hlinked : Linked m none lo (pre ++ d :: post) hi := h.linked nofun
  obtain ⟨hpre, -, hprev, hrest⟩ := linked_append.mp hlinked
  have hd : BlockAt m (lastFree false pre) (lo + extent pre) d := h.blockAt
  have hleast := r.least_le
  have hhi := hrest.hi_eq
  have hr8 := HeapBlock.size_dvd_eight r
  have hsame := brkTake_sameOutside hi (y := lo + extent pre + d.size + 8) hd.hdr_size
    (show 8 ≤ r.size by omega) (by omega) (by omega) (by omega) (by omega)
  have htags := splitTags_brkTake hi hd.hdr_size r.unit_dvd hleast hsplit (by omega)
  have hhdr := load64_brkTake_split hi (a := lo + extent pre) (d := d.size - 8) hd.hdr_size
    (show 8 ≤ r.size by omega) hsplit (by omega) (by omega) (by omega) (by omega)
  rw [load64_store64_ne _ _ (by omega) (by omega) (by omega),
    load64_store64_ne _ _ (by omega) (by omega) (by omega), load64_store64_same _ _ (by omega)]
    at hhdr
  obtain ⟨hftr, hafter⟩ := load64_brkTake_rest hi hd.hdr_size (show 8 ≤ r.size by omega)
    hsplit (by omega)
  generalize brkTake m hi r.size (lo + extent pre) = m' at hsame htags hhdr hftr hafter
  rw [Block.cut, dif_pos hsplit, List.append_assoc]
  refine linked_append.mpr ⟨?_, ?_, ?_, ?_, ?_, ?_⟩
  · refine hpre.frame hsame (by omega) fun v hv hlt => ?_
    have := hv.room hlt
    omega
  · exact htags.size
  · intro hset
    rw [hhdr, prevFree_mod] at hset
    have hset' : prevFree (load64 m (lo + extent pre)) = true := by
      simpa [prevFree_of_dvd (show r.size < 2 ^ 64 by omega) hr8] using hset
    obtain ⟨p, hp, hsz⟩ := hprev hset'
    have hpos : 32 ≤ extent pre := by
      have hfree : lastFree false pre = true := hd.hdr_prev ▸ hset'
      rcases lastFree_cases pre with hbad | ⟨front, q, rfl, -⟩
      · rw [hfree] at hbad
        cases hbad
      · have := q.least_le
        simp only [extent_append, extent_cons]
        omega
    refine ⟨p, hp, ?_⟩
    rw [load64_eq_of_sameOutside hsame (by omega) (by omega), hsz]
  · exact htags.rest_size
  · intro _
    exact ⟨_, rfl, htags.ftr_size⟩
  · -- behind the rest only the first header changed
    have hend : lo + extent pre + r.size + (d.size - r.size) = lo + extent pre + d.size := by omega
    simp only [Block.size_mark, hend]
    cases post with
    | nil => exact hrest
    | cons e post =>
      obtain ⟨hesz, -, hrest⟩ := hrest
      have he_least := e.least_le
      have hhi' := hrest.hi_eq
      refine ⟨?_, fun _ => ⟨_, rfl, ?_⟩, ?_⟩
      · rw [hafter (by omega), getSz_mod, getSz_or, ← getSz, getSz_getSz, hesz]
        simp
      · rw [hftr, getSz_mod]
        exact getSz_of_dvd (by omega) (Nat.dvd_sub (HeapBlock.size_dvd_eight d) hr8)
      · refine hrest.frame hsame (by omega) fun v hv _ => .inr ?_
        have := hv.bounds
        omega

/-- What a search finds is handed out on a linked heap. -/
theorem linked_brkTake {a : Nat} {bs : List HeapBlock} (h : Tiles m false lo bs hi)
    (hfit : firstFit r.size lo bs = some (a, d)) (htop : hi + 8 < 2 ^ 64) :
    Linked (brkTake m hi r.size a) none lo (allot r bs) hi := by
  obtain ⟨pre, post, rfl, rfl, hfree, hle, hpre⟩ := firstFit_eq_some hfit
  rw [allot_append_cons hpre hfree hle]
  by_cases hsplit : r.size + 32 ≤ d.size
  · exact linked_brkTake_split h hsplit htop
  · have hhi := h.hi_eq
    have hleast := d.least_le
    simp only [extent_append, extent_cons] at hhi
    have hrem : wsub (getSz (load64 m (lo + extent pre))) r.size < overhead + align := by
      rw [h.blockAt.hdr_size, wsub_eq (by omega) hle]
      unfold overhead align
      omega
    rw [brkTake_whole hrem, cut_of_lt (by omega), List.append_assoc, List.singleton_append]
    exact (tiles_brkTakeGrown h (by omega)).linked nofun

/-- A used block is not the one that is cut. -/
theorem mem_place_cut {a : Nat} {b : HeapBlock} (h : (a, b) ∈ place lo (pre ++ d :: post))
    (hused : b.free = false) (hfree : d.free = true) (hle : r.size ≤ d.size) :
    (a, b) ∈ place lo (pre ++ d.cut r ++ post) ∧
      (a + b.size ≤ lo + extent pre ∨ lo + extent pre + d.size ≤ a) := by
  rw [place_append, List.mem_append] at h
  rw [List.append_assoc, place_append, place_append, extent_cut hle]
  rcases h with h | h
  · exact ⟨List.mem_append_left _ h, .inl (place_bounds h).2⟩
  · simp only [place, List.mem_cons, Prod.mk.injEq] at h
    rcases h with ⟨-, rfl⟩ | h
    · rw [hfree] at hused
      cases hused
    · exact ⟨List.mem_append_right _ (List.mem_append_right _ h), .inr (place_bounds h).1⟩

/-- The first part of the block that is cut. -/
theorem exists_mem_place_cut (lo : Nat) (pre post : List HeapBlock) (hle : r.size ≤ d.size) :
    ∃ c : HeapBlock, r.size ≤ c.size ∧ c.size ≤ d.size ∧
      (lo + extent pre, c) ∈ place lo (pre ++ d.cut r ++ post) := by
  rw [List.append_assoc, place_append, Block.cut]
  split
  · exact ⟨r.mark false, Nat.le_refl _, hle, List.mem_append_right _ (List.mem_cons_self ..)⟩
  · exact ⟨d.mark false, hle, Nat.le_refl _, List.mem_append_right _ (List.mem_cons_self ..)⟩

end

section

variable {w : Heap} {bs : List HeapBlock}

theorem served_of_fit {r d : HeapBlock} {a : Nat} (h : Tiles w.mem false w.heapLo bs w.heapHi)
    (htop : w.heapHi + 8 < 2 ^ 64) (hfit : firstFit r.size w.heapLo bs = some (a, d)) :
    ∃ k, r.size ≤ k ∧
      Served w { w with mem := brkTake w.mem w.heapHi r.size a } bs (allot r bs) a k := by
  have hlinked := linked_brkTake h hfit htop
  obtain ⟨pre, post, rfl, rfl, hfree, hle, hpre⟩ := firstFit_eq_some hfit
  rw [allot_append_cons hpre hfree hle] at hlinked ⊢
  obtain ⟨c, hc, hcd, hplace⟩ := exists_mem_place_cut w.heapLo pre post hle
  have hd : BlockAt w.mem (lastFree false pre) (w.heapLo + extent pre) d := h.blockAt
  have hleast := r.least_le
  have hhi := h.hi_eq
  have hdvd := extent_dvd post
  simp only [extent_append, extent_cons] at hhi
  have hpost : w.heapLo + extent pre + d.size < w.heapHi →
      w.heapLo + extent pre + d.size + 8 ≤ w.heapHi := by omega
  refine ⟨c.size, hc, hlinked, fun v hv => hv.outside hplace, by dsimp only; omega, rfl,
    Nat.le_refl _, rfl, ?_, ?_, ?_⟩
  · intro a b hb hused
    obtain ⟨hmem, hout⟩ := mem_place_cut (r := r) hb hused hfree hle
    exact ⟨hmem, by omega⟩
  · intro a b hb hused x hlo hx
    obtain ⟨-, hout⟩ := mem_place_cut (r := r) hb hused hfree hle
    have hin := place_bounds hb
    have hend : w.heapHi = w.heapLo + extent (pre ++ d :: post) := h.hi_eq
    have hsame := brkTake_sameOutside w.heapHi (y := w.heapLo + extent pre + d.size + 8)
      hd.hdr_size (by omega) hle (by omega)
      (fun _ => Nat.le_refl _) (by omega)
    exact hsame x (show x < 2 ^ 64 by omega) (by omega)
  · have hsame := brkTake_sameOutside w.heapHi (y := w.heapHi) hd.hdr_size (by omega) hle
      (by omega) hpost (by omega)
    exact hsame.mono (by dsimp only; omega) (Nat.le_refl _)

/-! ## From fresh pages -/

/-- The pages behind a used last block. -/
theorem served_of_grow {K : Kernel} {need : Nat} (h : Tiles w.mem false w.heapLo bs w.heapHi)
    (hinit : 0 < w.heapHi) (hpos : 0 < need) (hroom : w.heapHi + need + 4096 ≤ 2 ^ 64)
    (hlast : lastFree false bs = false)
    (hgrant : K.brk w.log (w.heapHi + growSize need) = w.heapHi + growSize need) :
    ∃ w' bs', brkExtend K w need = (w.heapHi + 8, w') ∧
      Served w w' bs bs' w.heapHi (growSize need) := by
  obtain ⟨m', hext, htiles, hsame⟩ := brkExtend_granted h hinit hpos hroom hlast hgrant
  have hhi := h.hi_eq
  have hplace : (w.heapHi, grownBlock need hpos (by omega) false) ∈
      place w.heapLo (bs ++ [grownBlock need hpos (by omega) false]) :=
    mem_place_iff.mpr ⟨bs, [], rfl, hhi⟩
  refine ⟨_, _, hext, htiles.linked nofun, fun v hv => hv.outside hplace, by dsimp only; omega,
    rfl, Nat.le_add_right _ _, rfl, fun a b hb _ => ⟨?_, ?_⟩, fun a b hb _ x hlo hx => ?_, ?_⟩
  · rw [place_append]
    exact List.mem_append_left _ hb
  · have := place_bounds hb
    omega
  · have := place_bounds hb
    exact hsame x (show x < 2 ^ 64 by omega) (by omega)
  · exact hsame.mono (by dsimp only; omega) (Nat.le_refl _)

/-- Fresh pages behind a free last block become part of it. What is handed out is their range, the
end of the fused block. -/
theorem brkExtend_fused {K : Kernel} {need : Nat} {pre : List HeapBlock} {p : HeapBlock}
    (h : Tiles w.mem false w.heapLo (pre ++ [p]) w.heapHi) (hpos : 0 < need)
    (hroom : w.heapHi + need + 4096 ≤ 2 ^ 64) (hfree : p.free = true)
    (hgrant : K.brk w.log (w.heapHi + growSize need) = w.heapHi + growSize need) :
    ∃ m', brkExtend K w need = (w.heapHi + 8,
        ⟨m', w.heapLo, w.heapHi + growSize need, w.heapOk,
          .brk (w.heapHi + growSize need) (w.heapHi + growSize need) :: w.log⟩) ∧
      Linked m' none w.heapLo (pre ++ [p.fuse (grownBlock need hpos (by omega) true)])
        (w.heapHi + growSize need) ∧
      SameOutside w.mem m' (w.heapHi - p.size) (w.heapHi + growSize need) := by
  have hroom' : need + 4096 ≤ 2 ^ 64 := by omega
  have hlt := growSize_lt hroom'
  have hge := le_growSize hroom'
  have hdvd := page_dvd_growSize hroom'
  have hleast := p.least_le
  have hhi := h.hi_eq
  simp only [extent_append, extent_cons, extent_nil] at hhi
  have htop : w.heapHi + growSize need < 2 ^ 64 := by omega
  have hext := brkExtend_eq (by omega) hroom hgrant
  have htags := tiles_growTags (c := grownBlock need hpos hroom' true) h rfl htop
  have hfused := tiles_brkGrow (c := grownBlock need hpos hroom' true) h rfl htop
  rw [fuseLeft_concat, if_pos hfree] at hfused
  have hbefore := growTags_sameOutside (w := w) (show 8 ≤ growSize need by omega) htop
  have hmerge := merge_sameOutside htags (.inl rfl) htop
  rw [← h.hi_eq, freeBefore_concat, if_pos hfree] at hmerge
  have hsz := htags.blockAt.hdr_size
  rw [← h.hi_eq] at hsz
  have hword := load64_merge_end hsz rfl htop (by rw [size_grownBlock]; omega)
  rw [← hword] at hsz
  rw [size_grownBlock] at hfused hmerge hsz
  generalize merge (growTags w (growSize need)) (w.heapHi + growSize need) w.heapHi = m
    at hext hfused hmerge hsz
  have htake := brkTakeGrown_sameOutside hsz (by omega) (Nat.le_refl _)
    (fun hlt => absurd hlt (Nat.lt_irrefl _)) htop
  have hplace : (w.heapLo + extent pre, p.fuse (grownBlock need hpos hroom' true)) ∈
      place w.heapLo (pre ++ [p.fuse (grownBlock need hpos hroom' true)]) :=
    mem_place_iff.mpr ⟨pre, [], rfl, rfl⟩
  refine ⟨_, hext, ?_, ?_⟩
  · -- only the payload of the fused block changes
    have hlinked : Linked m none w.heapLo _ _ :=
      hfused.linked fun hset => absurd hset Bool.false_ne_true
    refine hlinked.frame htake (by omega) fun v hv hv_lt => ?_
    have := hv.outside hplace
    rw [Block.size_fuse, size_grownBlock] at this
    omega
  · exact ((hbefore.mono (by omega) (Nat.le_refl _)).trans hmerge).trans
      (htake.mono (by omega) (Nat.le_refl _))

theorem served_of_fused {K : Kernel} {need : Nat} {pre : List HeapBlock} {p : HeapBlock}
    (h : Tiles w.mem false w.heapLo (pre ++ [p]) w.heapHi) (hpos : 0 < need)
    (hroom : w.heapHi + need + 4096 ≤ 2 ^ 64) (hfree : p.free = true)
    (hgrant : K.brk w.log (w.heapHi + growSize need) = w.heapHi + growSize need) :
    ∃ w' bs', brkExtend K w need = (w.heapHi + 8, w') ∧
      Served w w' (pre ++ [p]) bs' w.heapHi (growSize need) := by
  obtain ⟨m', hext, hlinked, hsame⟩ := brkExtend_fused h hpos hroom hfree hgrant
  have hlt := growSize_lt (show need + 4096 ≤ 2 ^ 64 by omega)
  have hleast := p.least_le
  have hhi := h.hi_eq
  simp only [extent_append, extent_cons, extent_nil] at hhi
  have hused : ∀ a b, (a, b) ∈ place w.heapLo (pre ++ [p]) → b.free = false →
      (a, b) ∈ place w.heapLo pre ∧ a + b.size ≤ w.heapLo + extent pre := by
    intro a b hb hused
    have hpre := mem_place_of_used hb (by simpa using hfree) hused
    exact ⟨hpre, (place_bounds hpre).2⟩
  refine ⟨_, _, hext, hlinked, fun v hv => ?_, by dsimp only; omega, rfl, Nat.le_add_right _ _, rfl,
    fun a b hb hb_used => ?_, fun a b hb hb_used x hlo hx => ?_, ?_⟩
  · have := hv.outside (mem_place_iff.mpr ⟨pre, [], rfl, rfl⟩)
    rw [Block.size_fuse, size_grownBlock] at this
    dsimp only at this
    omega
  · obtain ⟨hpre, hle⟩ := hused a b hb hb_used
    rw [place_append]
    exact ⟨List.mem_append_left _ hpre, by omega⟩
  · obtain ⟨-, hle⟩ := hused a b hb hb_used
    exact hsame x (show x < 2 ^ 64 by omega) (by omega)
  · exact hsame.mono (by dsimp only; omega) (Nat.le_refl _)

end

/-- A small request that is not refused. -/
theorem brkAlloc_served {K : Kernel} {w : Heap} {bs : List HeapBlock} (hK : K.Lawful)
    (hw : Hosted K w) (hok : w.heapOk = true) (h : Tiles w.mem false w.heapLo bs w.heapHi)
    {sz : Nat} (hpos : 0 < sz) (hsz : sz < mmapLimit) {q : Nat} {w' : Heap}
    (hcall : brkAlloc K w (brkNeed sz) = some (q, w')) (hq : q ≠ 0) :
    ∃ bs' c k, q = c + 8 ∧ sz + 16 ≤ k ∧ Served w w' bs bs' c k := by
  have htop := hw.hi_lt
  have hstart := hw.start_le_lo hok
  have hbreak := hK.break0_pos
  have hlo := hw.lo_le_hi
  have hneed := brkNeed_eq (show sz < 2 ^ 63 by unfold mmapLimit at hsz; omega)
  obtain ⟨hnew, hroom⟩ := hw.bounded.growSize_room hsz
  have hge := le_growSize (show brkNeed sz + 4096 ≤ 2 ^ 64 by omega)
  cases hfit : firstFit (brkNeed sz) w.heapLo bs with
  | some r =>
    obtain ⟨a, d⟩ := r
    have hserved := served_of_fit (r := ⟨brkNeed sz, false, by omega, by omega⟩) h (by omega) hfit
    rw [brkAlloc_of_fit (by decide) h.walk (by omega) hfit, Option.some.injEq, Prod.mk.injEq]
      at hcall
    obtain ⟨rfl, rfl⟩ := hcall
    obtain ⟨k, hk, hserved⟩ := hserved
    have hin := hserved.inside
    dsimp only at hk hin
    exact ⟨_, a, k, wadd_eq (by unfold hdrSz; omega), by omega, hserved⟩
  | none =>
    have hsearch : brkSearch w.mem w.heapHi (brkNeed sz) searchFuel w.heapLo = some .exhausted := by
      rw [brkSearch_walk (by decide) (by omega) h.walk, hfit]
      rfl
    rw [brkAlloc_of_notFound hsearch (by simp), Option.some.injEq] at hcall
    by_cases hrefuse : BrkRefused K w (brkNeed sz)
    · rw [brkExtend_refused hrefuse, Prod.mk.injEq] at hcall
      exact absurd hcall.1.symm hq
    · have hgrant := not_not.mp hrefuse
      rw [hnew] at hgrant
      have hserved : ∃ w' bs', brkExtend K w (brkNeed sz) = (w.heapHi + 8, w') ∧
          Served w w' bs bs' w.heapHi (growSize (brkNeed sz)) := by
        rcases lastFree_cases bs with hlast | ⟨pre, p, rfl, hfree⟩
        · exact served_of_grow h (by omega) (by omega) (by omega) hlast hgrant
        · exact served_of_fused h (by omega) (by omega) hfree hgrant
      obtain ⟨w1, bs', heq, hserved⟩ := hserved
      rw [heq, Prod.mk.injEq] at hcall
      obtain ⟨rfl, rfl⟩ := hcall
      exact ⟨bs', w.heapHi, _, rfl, by omega, hserved⟩

end Toylibc
