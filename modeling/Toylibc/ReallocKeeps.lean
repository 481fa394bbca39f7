import Toylibc.FreeExact
import Toylibc.HeapServed
import Toylibc.SafeRun

/-!
# What `realloc` keeps

`toylibc_realloc` reads the old size as if every block had a footer. A mapping has none, so up to
8 bytes of it are not copied into a larger mapping. On all other routes the requested bytes are
kept (`realloc_keeps_iff`): on a heap with accurate tags the new block lies apart from the old
one, and releasing the old one writes no payload, although it can mark used blocks as free.
-/

namespace Toylibc

open ByteMemory BlockList

/-- The `n` bytes at `q` are in the brk heap, or behind the header word of a mapping. -/
def Backs (w : Heap) (q n : Nat) : Prop :=
  w.heapLo ≤ q ∧ q + n ≤ w.heapHi ∨
    ∃ a k, q = a + 8 ∧ (a, k) ∈ mapsAfter w.log ∧ q + n ≤ a + k

/-- When `toylibc_realloc` moves or keeps `l`, the requested bytes are at the address that it
answers, as many as both sizes allow. -/
def ReallocKeeps (K : Kernel) (w : Heap) (l : Lent) (newsz : Nat) : Prop :=
  ∀ q w', toylibcRealloc K w l.ptr newsz = some (q, w') → q ≠ 0 →
    Backs w' q newsz ∧
      ∀ i, i < min l.size newsz → loadByte w'.mem (q + i) = loadByte w.mem (l.ptr + i)

/-- The new block is not a mapping; or `mmap` answers `-1`, or the number that leaves `NULL`
behind the header word; or it grants the mapping, and the bytes of `l` from the old size on, which
are not copied, are zero. -/
def CopiesEnough (K : Kernel) (w : Heap) (l : Lent) (newsz : Nat) : Prop :=
  newsz < mmapLimit ∨ K.mmap w.log (mapLength newsz) = wnot 0 ∨
    K.mmap w.log (mapLength newsz) = 2 ^ 64 - 8 ∨
    isErrno (K.mmap w.log (mapLength newsz)) = false ∧
      ∀ i, oldSize w l.ptr ≤ i → i < min l.size newsz → loadByte w.mem (l.ptr + i) = 0

section

variable {K : Kernel} {w : Heap} {bs : List HeapBlock} {l : Lent} {newsz : Nat}

/-! ## Moving a block -/

theorem reallocMove_eq_some {ptr cp q : Nat} {w' : Heap}
    (hcall : reallocMove K w ptr newsz cp = some (q, w')) (hq : q ≠ 0) :
    ∃ w₁, toylibcMalloc K w newsz = some (q, w₁) ∧
      w' = toylibcFree { w₁ with mem := (toylibcMemcpy w₁.mem q ptr cp).1 } ptr := by
  unfold reallocMove at hcall
  rcases hmalloc : toylibcMalloc K w newsz with _ | ⟨np, w₁⟩
  · rw [hmalloc] at hcall
    cases hcall
  · rw [hmalloc] at hcall
    dsimp only at hcall
    split at hcall
    · rw [Option.some.injEq, Prod.mk.injEq] at hcall
      exact absurd hcall.1.symm hq
    · rw [Option.some.injEq, Prod.mk.injEq] at hcall
      obtain ⟨rfl, rfl⟩ := hcall
      exact ⟨w₁, rfl, rfl⟩

theorem reallocMove_of_malloc (ptr cp : Nat) {q : Nat} {w₁ : Heap}
    (hmalloc : toylibcMalloc K w newsz = some (q, w₁)) (hq : q ≠ 0) :
    reallocMove K w ptr newsz cp =
      some (q, toylibcFree { w₁ with mem := (toylibcMemcpy w₁.mem q ptr cp).1 } ptr) := by
  simp only [reallocMove, hmalloc]
  exact if_neg hq

/-- `m'` has at `q` the first `cp` bytes that `m` has at `p`, and behind them, up to `n`, what
`m` has there. -/
def Moved (m m' : Mem) (p q cp n : Nat) : Prop :=
  ∀ i, i < n → loadByte m' (q + i) = if i < cp then loadByte m (p + i) else loadByte m (q + i)

/-- The new block lies apart from the old one, and the release does not write into it. -/
theorem moved_of_copy {w₁ : Heap} {p q cp n : Nat} (hcp : cp ≤ n) (hsrc : p + cp ≤ space)
    (hdst : q + n ≤ space) (hapart : q + cp ≤ p ∨ p + cp ≤ q)
    (hfree : ∀ x, q ≤ x → x < q + n →
      loadByte (toylibcFree { w₁ with mem := (toylibcMemcpy w₁.mem q p cp).1 } p).mem x =
        loadByte (toylibcMemcpy w₁.mem q p cp).1 x) :
    Moved w₁.mem (toylibcFree { w₁ with mem := (toylibcMemcpy w₁.mem q p cp).1 } p).mem p q cp
      n := by
  have hcopy := memcpy_copied w₁.mem (show q + cp ≤ space by omega) hsrc (by omega)
  intro i hi
  rw [hfree (q + i) (by omega) (by omega)]
  split
  · next hlt => exact hcopy.bytes i hlt
  · exact hcopy.frame (q + i) (by omega) (by omega)

theorem toylibcFree_bounds (w : Heap) (ptr : Nat) :
    (toylibcFree w ptr).heapLo = w.heapLo ∧ (toylibcFree w ptr).heapHi = w.heapHi := by
  unfold toylibcFree
  dsimp only
  split_ifs <;> exact ⟨rfl, rfl⟩

/-- On a linked heap the release of a block writes tags only. -/
theorem Linked.free {w : Heap} {bs : List HeapBlock} {a : Nat} {b : HeapBlock}
    (h : Linked w.mem none w.heapLo bs w.heapHi) (htop : w.heapHi + 8 ≤ 2 ^ 64)
    (hb : (a, b) ∈ place w.heapLo bs) :
    TagsOnly w.mem (toylibcFree w (a + 8)).mem w.heapLo bs := by
  obtain ⟨pre, post, rfl, rfl⟩ := mem_place_iff.mp hb
  have hin := place_bounds hb
  have hhi := h.hi_eq
  have hleast := b.least_le
  rw [toylibcFree_brk (by omega) (by omega)]
  exact h.release htop

/-- A mapping goes back to the kernel, as long as its header word is not changed. -/
theorem free_mapping_mem {w : Heap} {m : Mem} {a n : Nat} (hw : Hosted K w)
    (hmap : (a, n) ∈ mapsAfter w.log) (hsz : getSz (load64 m a) = n) (hbig : mmapLimit ≤ n) :
    toylibcFree { w with mem := m } (a + 8) = toylibcMunmap { w with mem := m } a n := by
  have huser : a + n ≤ userTop := hw.maps_user _ hmap
  have hapart := hw.maps_heap _ hmap
  unfold userTop at huser
  unfold mmapLimit at hbig
  have hout : a + 8 < w.heapLo ∨ w.heapHi ≤ a + 8 := by
    by_contra hin
    exact hapart (a + 8) (by omega) (by omega) (by dsimp only; omega)
  exact toylibcFree_map hsz (by unfold mmapLimit; omega) (by omega) hout

/-- So it does when the new block was allocated and filled apart from the header word. -/
theorem free_mapping_copied {w₁ : Heap} {a n p q cp x y : Nat} (hw₁ : Hosted K w₁)
    (halive : (a, n) ∈ mapsAfter w₁.log) (hsz : getSz (load64 w.mem a) = n) (hbig : mmapLimit ≤ n)
    (hsame : SameOutside w.mem w₁.mem x y) (hout : a + 8 ≤ x ∨ y ≤ a) (hlo : x ≤ q)
    (hhi : q + cp ≤ y) (htop : y ≤ 2 ^ 64) :
    toylibcFree { w₁ with mem := (toylibcMemcpy w₁.mem q p cp).1 } (a + 8) =
      toylibcMunmap { w₁ with mem := (toylibcMemcpy w₁.mem q p cp).1 } a n := by
  have huser : a + n ≤ userTop := hw₁.maps_user _ halive
  unfold userTop at huser
  have hbig' := hbig
  unfold mmapLimit at hbig'
  have hword := load64_eq_of_sameOutside (memcpy_sameOutside_trans hsame p hlo hhi htop)
    (show a + 8 ≤ 2 ^ 64 by omega) hout
  exact free_mapping_mem hw₁ halive (by rw [hword, hsz]) hbig

/-- The new block lies apart from the old mapping. -/
theorem moved_from_mapping {w₁ : Heap} {a n q cp x y k : Nat} (hw₁ : Hosted K w₁)
    (halive : (a, n) ∈ mapsAfter w₁.log) (hsz : getSz (load64 w.mem a) = n) (hbig : mmapLimit ≤ n)
    (hsame : SameOutside w.mem w₁.mem x y) (hout : a + n ≤ x ∨ y ≤ a) (hlo : x ≤ q)
    (hhi : q + k ≤ y) (htop : y ≤ 2 ^ 64) (hcp : cp ≤ k) (hfits : 8 + cp ≤ n) :
    Moved w₁.mem (toylibcFree { w₁ with mem := (toylibcMemcpy w₁.mem q (a + 8) cp).1 } (a + 8)).mem
        (a + 8) q cp k ∧
      ∀ i, 8 + i < n → loadByte w₁.mem (a + 8 + i) = loadByte w.mem (a + 8 + i) := by
  have huser : a + n ≤ userTop := hw₁.maps_user _ halive
  unfold userTop at huser
  have hfreed := free_mapping_copied (p := a + 8) hw₁ halive hsz hbig hsame (by omega) hlo
    (show q + cp ≤ y by omega) htop
  refine ⟨moved_of_copy hcp (show a + 8 + cp ≤ 2 ^ 64 by omega) (show q + k ≤ 2 ^ 64 by omega)
    (by omega) fun x _ _ => ?_, fun i hi => ?_⟩
  · rw [hfreed]
    rfl
  · exact hsame _ (show a + 8 + i < 2 ^ 64 by omega) (by omega)

theorem ptr_ne_zero_of_backed (hl : InBlock w bs l ∨ InMapping w l) : l.ptr ≠ 0 := by
  rcases hl with ⟨a, b, hptr, -⟩ | ⟨a, n, hptr, -⟩
  · exact hptr ▸ Nat.succ_ne_zero _
  · exact hptr ▸ Nat.succ_ne_zero _

/-- What grows to the size of a mapping is moved. -/
theorem not_stays_of_large (ptr : Nat) (hbig : mmapLimit ≤ newsz) : ¬StaysInPlace w ptr newsz := by
  rintro ⟨hsmall, hfit⟩
  omega

/-! ## Into the brk heap -/

/-- A move into the brk heap, from a block or a mapping. -/
theorem small_keeps (hK : K.Lawful) (hw : Hosted K w) (h : Tiles w.mem false w.heapLo bs w.heapHi)
    (hl : InBlock w bs l ∨ InMapping w l) (hpos : 0 < newsz) (hsmall : newsz < mmapLimit)
    (hstay : ¬StaysInPlace w l.ptr newsz) : ReallocKeeps K w l newsz := by
  intro q w' hcall hq
  rw [toylibcRealloc_move (ptr_ne_zero_of_backed hl) (Nat.pos_iff_ne_zero.mp hpos) hstay] at hcall
  obtain ⟨w₁, hmalloc, rfl⟩ := reallocMove_eq_some hcall hq
  rw [toylibcMalloc_small hpos hsmall] at hmalloc
  obtain ⟨htiles, hmem, hmaps, hplace⟩ := hw.ready_tiles hK h
  have hready := (hosted_kept hK).ready hw
  have hw₁ := (hosted_kept hK).brkAlloc hready (ready_heapOk K w) hsmall hmalloc
  obtain ⟨bs', c, k, rfl, hk, hserved⟩ :=
    brkAlloc_served hK hready (ready_heapOk K w) htiles hpos hsmall hmalloc hq
  have htop := hw₁.hi_lt
  have hin := hserved.inside
  have hcp : min (oldSize w l.ptr) newsz ≤ newsz := Nat.min_le_right _ _
  generalize hcp_eq : min (oldSize w l.ptr) newsz = cp at hcp
  have hmoved : Moved w₁.mem
      (toylibcFree { w₁ with mem := (toylibcMemcpy w₁.mem (c + 8) l.ptr cp).1 } l.ptr).mem
      l.ptr (c + 8) cp newsz ∧
      (∀ i, i < l.size → i < newsz →
        i < cp ∧ loadByte w₁.mem (l.ptr + i) = loadByte w.mem (l.ptr + i)) := by
    rcases hl with ⟨a, b, hptr, hb, hused, hsize⟩ | ⟨a, n, hptr, hmap, hword, hbig, hsize⟩
    · obtain ⟨hb', hout⟩ := hserved.kept a b (hplace ▸ hb) hused
      have hleast := b.least_le
      have hbounds := place_bounds hb
      have hhi := h.hi_eq
      have hhi_lt := hw.hi_lt
      have hold := oldSize_eq (h.walk.header_of_mem hb).1 (by omega) (by omega)
      have hcopy := memcpy_sameOutside w₁.mem l.ptr (show c + 8 + cp ≤ 2 ^ 64 by omega)
      rw [← hptr] at hold
      refine ⟨moved_of_copy hcp (show l.ptr + cp ≤ 2 ^ 64 by omega)
        (show c + 8 + newsz ≤ 2 ^ 64 by omega) (by omega) fun x hlo hx => ?_,
        fun i hi hn => ⟨by omega, ?_⟩⟩
      · -- the copy leaves the tags, and the release leaves the copy
        have hlinked := hserved.linked.frame hcopy (by omega) fun v hv _ => by
          have := hserved.whole v hv
          omega
        rw [hptr] at hlinked ⊢
        have hfreed := Linked.free
          (w := { w₁ with mem := (toylibcMemcpy w₁.mem (c + 8) (a + 8) cp).1 }) hlinked
          (by dsimp only; omega) hb'
        exact hfreed.payload hserved.whole hlo (by omega) (by omega)
      · rw [← hmem]
        exact hserved.payload a b (hplace ▸ hb) hused _ (by omega) (by omega)
    · have huser : a + n ≤ userTop := hw.maps_user _ hmap
      unfold userTop at huser
      unfold mmapLimit overhead at *
      have hold := oldSize_eq hword (by omega) (by omega)
      rw [← hptr] at hold
      have hmap₁ : (a, n) ∈ mapsAfter w₁.log := by rw [hserved.maps, hmaps]; exact hmap
      have hapart := (hw₁.maps_heap _ hmap₁).ordered (by omega) (show a < a + n by omega)
      have hframe := hserved.frame
      rw [hmem] at hframe
      obtain ⟨hmoved, hkept⟩ := moved_from_mapping hw₁ hmap₁ hword (by unfold mmapLimit; omega)
        hframe (by dsimp only at hapart; omega) (show _ ≤ c + 8 by omega)
        (show c + 8 + newsz ≤ _ by omega) (show w₁.heapHi ≤ 2 ^ 64 by omega) hcp (by omega)
      rw [hptr]
      exact ⟨hmoved, fun i hi hn => ⟨by omega, hkept i (by omega)⟩⟩
  obtain ⟨hmoved, hkept⟩ := hmoved
  refine ⟨.inl ?_, fun i hi => ?_⟩
  · rw [(toylibcFree_bounds _ _).1, (toylibcFree_bounds _ _).2]
    exact ⟨by dsimp only; omega, by dsimp only; omega⟩
  · obtain ⟨hlt, hsame⟩ := hkept i (by omega) (by omega)
    rw [hmoved i (by omega), if_pos hlt, hsame]

/-! ## Into a mapping -/

/-- A granted request: `q` is behind the header word of the mapping `[a, a + n)`, which else is
zero. -/
structure Mapped (w w₁ : Heap) (q a n : Nat) : Prop where
  ptr : q = a + 8
  bounds : w₁.heapLo = w.heapLo ∧ w₁.heapHi = w.heapHi
  maps : mapsAfter w₁.log = (a, n) :: mapsAfter w.log
  frame : SameOutside w.mem w₁.mem a (a + n)
  zero : ∀ x, a + 8 ≤ x → x < a + n → loadByte w₁.mem x = 0

theorem mallocMap_mapped (hK : K.Lawful) {sz : Nat} (hsz : sz < 2 ^ 63)
    (hok : isErrno (K.mmap w.log (mapLength sz)) = false) :
    ∃ q w₁, mallocMap K w sz = (q, w₁) ∧
      Mapped w w₁ q (K.mmap w.log (mapLength sz)) (mapLength sz) := by
  have huser := (hK.mmap_page w.log _ hok).2
  have hlen := mapLength_eq hsz
  obtain ⟨hmap, hmaps⟩ := mallocMap_granted hK hok
  generalize mapLength sz = n at hok huser hlen hmap hmaps ⊢
  generalize K.mmap w.log n = a at hok huser hmap hmaps ⊢
  unfold userTop at huser
  have hstore := store64_sameOutside (zeroFill w.mem a n) (a := a) (n ||| flagAlloc) (by omega)
  refine ⟨_, _, hmap, rfl, ⟨rfl, rfl⟩, hmaps, ?_, fun x hlo hx => ?_⟩
  · exact (zeroFill_sameOutside w.mem a n).trans (hstore.mono (Nat.le_refl _) (by omega))
  · have hx64 : x < space := show x < 2 ^ 64 by omega
    rw [hstore x hx64 (.inr hlo)]
    simp only [loadByte, zeroFill, Nat.mod_eq_of_lt hx64]
    exact if_pos ⟨by omega, hx⟩

/-- What a move into a granted mapping leaves: the bytes up to the old size, and then zeros. -/
theorem granted_bytes (hK : K.Lawful) (hw : Hosted K w)
    (h : Tiles w.mem false w.heapLo bs w.heapHi) (hl : InBlock w bs l ∨ InMapping w l)
    (hbig : mmapLimit ≤ newsz) (hlt : newsz < 2 ^ 63)
    (hok : isErrno (K.mmap w.log (mapLength newsz)) = false) :
    ∃ q w', toylibcRealloc K w l.ptr newsz = some (q, w') ∧ q ≠ 0 ∧ Backs w' q newsz ∧
      ∀ i, i < min l.size newsz → loadByte w'.mem (q + i) =
        if i < oldSize w l.ptr then loadByte w.mem (l.ptr + i) else 0 := by
  have hpos : newsz ≠ 0 := by
    unfold mmapLimit at hbig
    omega
  have huser := (hK.mmap_page w.log _ hok).2
  have hheap := hw.map_apart hK hok
  have hothers := hK.mmap_apart_maps w.log _ hok
  have hlen := mapLength_eq hlt
  obtain ⟨q, w₁, hmap, hmapped⟩ := mallocMap_mapped hK hlt hok
  have hw₁ : Hosted K w₁ := by
    have := (hosted_kept hK).mallocMap hw newsz
    rwa [hmap] at this
  have hmalloc : toylibcMalloc K w newsz = some (q, w₁) := by
    rw [toylibcMalloc_large hbig, hmap]
  generalize mapLength newsz = n at hok huser hheap hothers hlen hmapped
  generalize K.mmap w.log n = M at hok huser hheap hothers hmapped
  obtain ⟨rfl, ⟨hlo_eq, hhi_eq⟩, hmaps, hframe, hzero⟩ := hmapped
  unfold userTop at huser
  have hhi_lt := hw.hi_lt
  have hcp : min (oldSize w l.ptr) newsz ≤ newsz := Nat.min_le_right _ _
  have hmove := reallocMove_of_malloc l.ptr (min (oldSize w l.ptr) newsz) hmalloc
    (Nat.succ_ne_zero (M + 7))
  rw [← toylibcRealloc_move (ptr_ne_zero_of_backed hl) hpos (not_stays_of_large _ hbig)] at hmove
  generalize hcp_eq : min (oldSize w l.ptr) newsz = cp at hcp hmove
  have hmoved : Moved w₁.mem
      (toylibcFree { w₁ with mem := (toylibcMemcpy w₁.mem (M + 8) l.ptr cp).1 } l.ptr).mem
      l.ptr (M + 8) cp newsz ∧
      (∀ i, i < l.size → loadByte w₁.mem (l.ptr + i) = loadByte w.mem (l.ptr + i)) ∧
      (M, n) ∈ mapsAfter
        (toylibcFree { w₁ with mem := (toylibcMemcpy w₁.mem (M + 8) l.ptr cp).1 } l.ptr).log := by
    rcases hl with ⟨a, b, hptr, hb, hused, hsize⟩ | ⟨a, k, hptr, hmap, hword, hlarge, hsize⟩
    · have hleast := b.least_le
      have hbounds := place_bounds hb
      have hhi := h.hi_eq
      have hold := oldSize_eq (h.walk.header_of_mem hb).1 (by omega) (by omega)
      have hall := memcpy_sameOutside_trans hframe l.ptr (show M ≤ M + 8 by omega)
        (show M + 8 + cp ≤ M + n by omega) (show M + n ≤ 2 ^ 64 by omega)
      rw [← hptr] at hold
      have hapart := hheap.ordered (by omega) (show M < M + n by omega)
      refine ⟨moved_of_copy hcp (show l.ptr + cp ≤ 2 ^ 64 by omega)
        (show M + 8 + newsz ≤ 2 ^ 64 by omega) (by omega) fun x hlo hx => ?_,
        fun i hi => hframe _ (show l.ptr + i < 2 ^ 64 by omega) (by omega), ?_⟩
      · have htiles := h.frame_apart hall (by omega) hheap (by omega)
        rw [← hlo_eq, ← hhi_eq] at htiles
        rw [← hlo_eq] at hb
        rw [hptr] at htiles ⊢
        have hfreed := Linked.free
          (w := { w₁ with mem := (toylibcMemcpy w₁.mem (M + 8) (a + 8) cp).1 })
          (htiles.linked nofun) (by dsimp only; omega) hb
        exact hfreed.sameOutside x (show x < 2 ^ 64 by omega) (by dsimp only; omega)
      · rw [hptr, toylibcFree_brk (by dsimp only; omega) (by dsimp only; omega)]
        exact hmaps ▸ List.mem_cons_self ..
    · have huser' : a + k ≤ userTop := hw.maps_user _ hmap
      unfold userTop at huser'
      unfold mmapLimit overhead at *
      have hold := oldSize_eq hword (by omega) (by omega)
      rw [← hptr] at hold
      have hapart := (hothers _ hmap).ordered (by dsimp only; omega) (show M < M + n by omega)
      have hmap₁ : (a, k) ∈ mapsAfter w₁.log := hmaps ▸ List.mem_cons_of_mem _ hmap
      obtain ⟨hmoved, hkept⟩ := moved_from_mapping hw₁ hmap₁ hword (by unfold mmapLimit; omega)
        hframe hapart (show M ≤ M + 8 by omega) (show M + 8 + newsz ≤ M + n by omega)
        (by omega) hcp (by omega)
      have hfreed := free_mapping_copied (p := l.ptr) hw₁ hmap₁ hword
        (by unfold mmapLimit; omega) hframe (by dsimp only at hapart; omega)
        (show M ≤ M + 8 by omega) (show M + 8 + cp ≤ M + n by omega) (by omega)
      rw [hptr] at hfreed ⊢
      refine ⟨hmoved, fun i hi => hkept i (by omega), ?_⟩
      have hne : (M, n) ≠ (a, k) := fun heq => by
        have := congrArg Prod.fst heq
        dsimp only at this
        omega
      rw [hfreed]
      exact (List.mem_erase_of_ne hne).mpr (hmaps ▸ List.mem_cons_self ..)
  obtain ⟨hmoved, hkept, hmem⟩ := hmoved
  refine ⟨M + 8, _, hmove, Nat.succ_ne_zero _, .inr ⟨M, n, rfl, hmem, by omega⟩, fun i hi => ?_⟩
  · rw [hmoved i (by omega)]
    by_cases hlt : i < oldSize w l.ptr
    · rw [if_pos (show i < cp by omega), if_pos hlt, hkept i (by omega)]
    · rw [if_neg (show ¬i < cp by omega), if_neg hlt, hzero _ (by omega) (by omega)]

/-- An error number that is taken for a mapping leaves no block. -/
theorem not_keeps_of_errno (hK : K.Lawful) (hw : Hosted K w) (hptr : l.ptr ≠ 0)
    (hbig : mmapLimit ≤ newsz) (hok : isErrno (K.mmap w.log (mapLength newsz)) = true)
    (hret : K.mmap w.log (mapLength newsz) ≠ wnot 0)
    (hret8 : K.mmap w.log (mapLength newsz) ≠ 2 ^ 64 - 8) : ¬ReallocKeeps K w l newsz := by
  intro hkeeps
  have hrange : 2 ^ 64 - 4095 ≤ K.mmap w.log (mapLength newsz) ∧
      K.mmap w.log (mapLength newsz) < 2 ^ 64 := of_decide_eq_true hok
  have hne : K.mmap w.log (mapLength newsz) ≠ 2 ^ 64 - 1 := hret
  have hanswer := (mallocMap_answer K w newsz).1
  rw [if_neg hret] at hanswer
  obtain ⟨q, w₁, hpair⟩ : ∃ q w₁, mallocMap K w newsz = (q, w₁) := ⟨_, _, rfl⟩
  rw [hpair] at hanswer
  dsimp only at hanswer
  generalize K.mmap w.log (mapLength newsz) = ret at hrange hne hret8 hanswer
  unfold wadd hdrSz at hanswer
  have hq : q ≠ 0 := by omega
  have hmove := reallocMove_of_malloc l.ptr (min (oldSize w l.ptr) newsz)
    ((toylibcMalloc_large hbig).trans (congrArg some hpair)) hq
  have hw' := (hosted_kept hK).reallocMove hw hmove
  rw [← toylibcRealloc_move hptr (by unfold mmapLimit at hbig; omega) (not_stays_of_large _ hbig)]
    at hmove
  have hbacks := (hkeeps _ _ hmove hq).1
  generalize toylibcFree _ _ = w' at hw' hbacks
  have hhi := hw'.hi_user
  have hlo := hw'.lo_dvd
  unfold userTop at hhi
  unfold align at hlo
  unfold mmapLimit at hbig
  rcases hbacks with ⟨hlo_le, hle⟩ | ⟨a, k, hqa, hmap, hle⟩
  · -- the heap starts neither at `NULL` nor in the last 16 bytes before it
    cases hinit : w'.heapOk with
    | false =>
      have := hw'.fresh hinit
      omega
    | true =>
      have := hw'.start_le_lo hinit
      have := hK.break0_pos
      omega
  · have := hw'.maps_user _ hmap
    unfold userTop at this
    dsimp only at this
    omega

theorem large_keeps_iff (hK : K.Lawful) (hw : Hosted K w)
    (h : Tiles w.mem false w.heapLo bs w.heapHi) (hl : InBlock w bs l ∨ InMapping w l)
    (hbig : mmapLimit ≤ newsz) (hlt : newsz < 2 ^ 63) :
    ReallocKeeps K w l newsz ↔ CopiesEnough K w l newsz := by
  have hptr := ptr_ne_zero_of_backed hl
  have hstay := not_stays_of_large (w := w) l.ptr hbig
  have hnull : (mallocMap K w newsz).1 = 0 → ReallocKeeps K w l newsz := by
    intro hzero q w' hcall hq
    rw [toylibcRealloc_move hptr (by unfold mmapLimit at hbig; omega) hstay] at hcall
    obtain ⟨w₁, hmalloc, -⟩ := reallocMove_eq_some hcall hq
    rw [toylibcMalloc_large hbig, Option.some.injEq] at hmalloc
    rw [hmalloc] at hzero
    exact absurd hzero hq
  have hanswer := (mallocMap_answer K w newsz).1
  by_cases hret : K.mmap w.log (mapLength newsz) = wnot 0
  · rw [if_pos hret] at hanswer
    exact iff_of_true (hnull hanswer) (.inr (.inl hret))
  rw [if_neg hret] at hanswer
  by_cases hret8 : K.mmap w.log (mapLength newsz) = 2 ^ 64 - 8
  · rw [hret8] at hanswer
    exact iff_of_true (hnull (hanswer.trans (by decide))) (.inr (.inr (.inl hret8)))
  cases hok : isErrno (K.mmap w.log (mapLength newsz)) with
  | true =>
    refine iff_of_false (not_keeps_of_errno hK hw hptr hbig hok hret hret8) ?_
    rintro (hsmall | hbad | hbad | ⟨hbad, -⟩)
    · exact absurd hsmall (Nat.not_lt_of_le hbig)
    · exact hret hbad
    · exact hret8 hbad
    · rw [hok] at hbad
      cases hbad
  | false =>
    obtain ⟨q, w', hcall, hq, hbacks, hbytes⟩ := granted_bytes hK hw h hl hbig hlt hok
    constructor
    · intro hkeeps
      refine .inr (.inr (.inr ⟨hok, fun i hold hi => ?_⟩))
      rw [← (hkeeps q w' hcall hq).2 i hi, hbytes i hi, if_neg (Nat.not_lt_of_le hold)]
    · rintro (hsmall | hbad | hbad | ⟨-, hzero⟩)
      · exact absurd hsmall (Nat.not_lt_of_le hbig)
      · exact absurd hbad hret
      · exact absurd hbad hret8
      · intro q' w'' hcall' _
        rw [hcall, Option.some.injEq, Prod.mk.injEq] at hcall'
        obtain ⟨rfl, rfl⟩ := hcall'
        refine ⟨hbacks, fun i hi => ?_⟩
        rw [hbytes i hi]
        split
        · rfl
        · next hold => exact (hzero i (Nat.le_of_not_lt hold) hi).symm

/-- A block that stays in place. -/
theorem stay_keeps (h : Tiles w.mem false w.heapLo bs w.heapHi) (hhi : w.heapHi < 2 ^ 64)
    (hl : InBlock w bs l ∨ InMapping w l) (hmaps : ∀ r ∈ mapsAfter w.log, r.1 + r.2 ≤ userTop)
    (hpos : 0 < newsz) (hstay : StaysInPlace w l.ptr newsz) : ReallocKeeps K w l newsz := by
  intro q w' hcall hq
  rw [toylibcRealloc_stay (ptr_ne_zero_of_backed hl) (Nat.pos_iff_ne_zero.mp hpos) hstay,
    Option.some.injEq, Prod.mk.injEq] at hcall
  obtain ⟨rfl, rfl⟩ := hcall
  refine ⟨?_, fun _ _ => rfl⟩
  obtain ⟨hsmall, hfit⟩ := hstay
  rcases hl with ⟨a, b, hptr, hb, -, -⟩ | ⟨a, n, hptr, hmap, hword, hlarge, -⟩
  · have hleast := b.least_le
    have hbounds := place_bounds hb
    have hend := h.hi_eq
    have hold := oldSize_eq (h.walk.header_of_mem hb).1 (by omega) (by omega)
    rw [← hptr] at hold
    exact .inl ⟨by omega, by omega⟩
  · have huser : a + n ≤ userTop := hmaps _ hmap
    unfold userTop at huser
    unfold mmapLimit overhead at *
    have hold := oldSize_eq hword (by omega) (by omega)
    rw [← hptr] at hold
    omega

end

/-- On a heap with accurate tags, `toylibc_realloc` of a live block keeps the requested bytes if
and only if they are all copied, or what is not copied is zero, or `mmap` refuses in a way that
is noticed. -/
theorem realloc_keeps_iff {K : Kernel} {w : Heap} {bs : List HeapBlock} {l : Lent} {newsz : Nat}
    (hK : K.Lawful) (hw : Hosted K w) (hwf : WellFormed w.mem w.heapLo w.heapHi bs)
    (hl : InBlock w bs l ∨ InMapping w l) (hpos : 0 < newsz) (hlt : newsz < 2 ^ 63) :
    ReallocKeeps K w l newsz ↔ CopiesEnough K w l newsz := by
  by_cases hbig : mmapLimit ≤ newsz
  · exact large_keeps_iff hK hw hwf.tiles hl hbig hlt
  · have hsmall := Nat.lt_of_not_le hbig
    refine iff_of_true ?_ (.inl hsmall)
    by_cases hstay : StaysInPlace w l.ptr newsz
    · exact stay_keeps hwf.tiles (by have := hw.hi_lt; omega) hl hw.maps_user hpos hstay
    · exact small_keeps hK hw hwf.tiles hl hpos hsmall hstay

/-- After a first request for 135160 bytes, which fill the mapping, and a store of 7 into the last
of them. -/
def heapOneMapping : Heap where
  mem := memOfWords [(2 ^ 46, 135169), (2 ^ 46 + 135160, 7 * 2 ^ 56)]
  heapLo := 0
  heapHi := 0
  heapOk := false
  log := [.mmap 135168 (2 ^ 46)]

theorem heapOneMapping_hosted : Hosted stackKernel heapOneMapping := by
  have hmaps : mapsAfter heapOneMapping.log = [(2 ^ 46, 135168)] := by decide
  refine ⟨.uninitialised rfl rfl rfl (Nat.le_refl 4096) ?_ ?_ ?_, Nat.le_refl 0, Nat.dvd_zero _⟩
  · exact show 4096 ≤ userTop by decide
  · rw [hmaps, List.forall_mem_singleton]
    decide
  · rw [hmaps]
    exact List.pairwise_singleton _ _

theorem heapOneMapping_wellFormed :
    WellFormed heapOneMapping.mem heapOneMapping.heapLo heapOneMapping.heapHi [] :=
  ⟨rfl, .nil⟩

theorem heapOneMapping_inMapping : InMapping heapOneMapping ⟨2 ^ 46 + 8, 135160⟩ :=
  ⟨2 ^ 46, 135168, rfl, by decide, by decide +kernel, by decide, by decide⟩

/-- Into a small block all that fits is copied. -/
theorem heapOneMapping_shrink_keeps :
    ReallocKeeps stackKernel heapOneMapping ⟨2 ^ 46 + 8, 135160⟩ 100 :=
  (realloc_keeps_iff stackKernel_lawful heapOneMapping_hosted heapOneMapping_wellFormed
    (.inr heapOneMapping_inMapping) (by decide) (by decide)).mpr (.inl (by decide))

/-- Into a larger mapping the last 8 of the 135160 bytes are not copied. -/
theorem heapOneMapping_growth_loses :
    stackKernel.Lawful ∧ Hosted stackKernel heapOneMapping ∧
      WellFormed heapOneMapping.mem heapOneMapping.heapLo heapOneMapping.heapHi [] ∧
      InMapping heapOneMapping ⟨2 ^ 46 + 8, 135160⟩ ∧
      ¬ReallocKeeps stackKernel heapOneMapping ⟨2 ^ 46 + 8, 135160⟩ 140000 := by
  refine ⟨stackKernel_lawful, heapOneMapping_hosted, heapOneMapping_wellFormed,
    heapOneMapping_inMapping, fun hkeeps => ?_⟩
  have henough := (large_keeps_iff stackKernel_lawful heapOneMapping_hosted
    heapOneMapping_wellFormed.tiles (.inr heapOneMapping_inMapping) (by decide) (by decide)).mp
    hkeeps
  have hret : stackKernel.mmap heapOneMapping.log (mapLength 140000) = 2 ^ 46 + 2 ^ 30 := by decide
  rcases henough with hsmall | hbad | hbad | ⟨-, hzero⟩
  · exact absurd hsmall (by decide)
  · rw [hret] at hbad
    exact absurd hbad (by decide)
  · rw [hret] at hbad
    exact absurd hbad (by decide)
  · have hlast := hzero 135159 (by decide +kernel) (by decide)
    exact absurd hlast (by decide +kernel)

end Toylibc
