import Toylibc.MallocSize
import Toylibc.ReallocKeeps
import Toylibc.RunSafety

/-!
# Which mechanism releases a block

A block should go back the way it came: a mapping to `munmap`, with the address that `mmap`
answered and the length that it was given, and a block of the brk heap to `brk_release`.
`toylibc_free` tells them apart by the header word and the address, `toylibc_realloc` does so
after the new block was allocated and filled. The tests agree with `toylibc_malloc` for blocks
inside the heap, and for mappings as long as that allocation leaves the header word alone
(`release_mechanism`).
-/

namespace Toylibc

open ByteMemory BlockList Transition

/-- How a block was created. -/
inductive Origin
  /-- `brk_alloc` wrote a header with the size `n` at `a`. -/
  | brk (a n : Nat)
  /-- `mmap` was asked for `n` bytes and answered `a`. -/
  | map (a n : Nat)

/-- The header word at `a` has the size `n` and the ALLOC bit. -/
def HeaderHolds (w : Heap) (a n : Nat) : Prop :=
  getSz (load64 w.mem a) = n ∧ isFree (load64 w.mem a) = false

/-- `l` was handed out by `brk_alloc`, and its header is as it was written. -/
structure FromBrk (w : Heap) (l : Lent) (a n : Nat) : Prop where
  ptr : l.ptr = a + 8
  ptr_lt : l.ptr < 2 ^ 64
  pos : 0 < l.size
  small : l.size < mmapLimit
  fits : brkNeed l.size ≤ n
  header : HeaderHolds w a n

/-- `l` is behind the header word of a mapping that is alive, and the word is as it was written. -/
structure FromMap (w : Heap) (l : Lent) (a n : Nat) : Prop where
  ptr : l.ptr = a + 8
  large : mmapLimit ≤ l.size
  size_lt : l.size < 2 ^ 63
  length : n = mapLength l.size
  alive : (a, n) ∈ mapsAfter w.log
  page : 4096 ∣ a
  header : HeaderHolds w a n

/-- `l` was created as `o` says, and its header is as it was written. -/
def Created (w : Heap) (l : Lent) : Origin → Prop
  | .brk a n => FromBrk w l a n
  | .map a n => FromMap w l a n

/-- The release of `l` in `w` gave `w'`, by the mechanism that created `l`. -/
def ReleasedBy (w : Heap) (l : Lent) (w' : Heap) : Origin → Prop
  | .brk _ _ => w' = { w with mem := brkRelease w.mem w.heapHi l.ptr }
  | .map a n => w' = toylibcMunmap w a n

/-- Where `toylibc_realloc` releases `l`, it does so by the mechanism that created it: at once
when nothing is asked for, and else after the copy into the new block. -/
def ReallocReleases (K : Kernel) (w : Heap) (l : Lent) (o : Origin) (newsz : Nat) : Prop :=
  ∀ q w', toylibcRealloc K w l.ptr newsz = some (q, w') →
    if newsz = 0 then ReleasedBy w l w' o
    else StaysInPlace w l.ptr newsz ∨ q = 0 ∨ ∃ w₁, toylibcMalloc K w newsz = some (q, w₁) ∧
      ReleasedBy { w₁ with mem := (toylibcMemcpy w₁.mem q l.ptr (min (oldSize w l.ptr) newsz)).1 }
        l w' o

/-- A block of the brk heap with the size of a mapping lies inside the heap. -/
def Findable (w : Heap) (l : Lent) : Origin → Prop
  | .brk _ n => n < mmapLimit ∨ InBrk w l.ptr
  | .map _ _ => True

/-- A small request is served inside the brk heap: from a block that ends in it, or from fresh
pages that are fused with nothing from before its start. -/
def ServedInside (w : Heap) (need : Nat) : Prop :=
  (∀ cur, SearchFinds w need cur → w.heapLo ≤ cur ∧
    (cur + getSz (load64 w.mem cur) = w.heapHi ∨
      cur + getSz (load64 w.mem cur) + 8 ≤ w.heapHi)) ∧
    (SearchFails w need → topFree w ≤ w.heapHi - w.heapLo)

/-- `mmap` refuses in a way that is noticed, or it grants the whole request. -/
def MappedWhole (K : Kernel) (w : Heap) (newsz : Nat) : Prop :=
  K.mmap w.log (mapLength newsz) = wnot 0 ∨ K.mmap w.log (mapLength newsz) = 2 ^ 64 - 8 ∨
    isErrno (K.mmap w.log (mapLength newsz)) = false ∧ Representable newsz

/-- Allocating and filling the new block does not make `l` look like something else. -/
def MovesSafely (K : Kernel) (w : Heap) (l : Lent) (newsz : Nat) : Origin → Prop
  | .brk _ _ => InBrk w l.ptr
  | .map _ _ =>
    if mmapLimit ≤ newsz then MappedWhole K w newsz else ServedInside (ready K w) (brkNeed newsz)

section

variable {K : Kernel} {w : Heap} {l : Lent} {o : Origin} {newsz : Nat}

/-! ## `toylibc_free` -/

/-- A mapping is not small. -/
theorem FromMap.length_ge {a n : Nat} (hl : FromMap w l a n) : mmapLimit ≤ n := by
  have hlen := mapLength_eq hl.size_lt
  have hlarge := hl.large
  have hn := hl.length
  omega

/-- `toylibc_free` unmaps what has the size of a mapping and lies outside the brk heap. -/
theorem toylibcFree_eq {a n : Nat} (hsz : getSz (load64 w.mem a) = n) (htop : a + 8 < 2 ^ 64) :
    toylibcFree w (a + 8) = if mmapLimit ≤ n ∧ ¬InBrk w (a + 8) then toylibcMunmap w a n
      else { w with mem := brkRelease w.mem w.heapHi (a + 8) } := by
  have hhdr : wsub (a + 8) hdrSz = a := wsub_hdrSz htop
  have hout : (mmapLimit ≤ n && (decide (a + 8 < w.heapLo) || decide (w.heapHi ≤ a + 8))) = true ↔
      mmapLimit ≤ n ∧ ¬InBrk w (a + 8) := by
    simp only [Bool.and_eq_true, Bool.or_eq_true, decide_eq_true_eq, InBrk]
    omega
  unfold toylibcFree
  simp only [hhdr, hsz, hout]
  exact if_neg (Nat.succ_ne_zero _)

theorem free_releases_iff (hw : Hosted K w) (hl : Created w l o) :
    ReleasedBy w l (toylibcFree w l.ptr) o ↔ Findable w l o := by
  cases o with
  | brk a n =>
    have hptr := hl.ptr
    have htop := hl.ptr_lt
    have heq := toylibcFree_eq hl.header.1 (show a + 8 < 2 ^ 64 by omega)
    rw [← hptr] at heq
    rw [ReleasedBy, Findable, heq]
    constructor
    · intro hreleased
      by_contra hnot
      obtain ⟨hbig, hout⟩ := not_or.mp hnot
      rw [if_pos ⟨Nat.le_of_not_lt hbig, hout⟩] at hreleased
      -- the call of `munmap` shows in the log
      exact List.cons_ne_self _ _ (congrArg Heap.log hreleased)
    · intro hfind
      exact if_neg fun ⟨hbig, hout⟩ => hfind.elim (Nat.not_lt_of_le hbig) hout
  | map a n =>
    refine iff_of_true ?_ trivial
    rw [ReleasedBy, hl.ptr]
    exact free_mapping_mem (m := w.mem) hw hl.alive hl.header.1 hl.length_ge

/-- A request for nothing is a release. -/
theorem realloc_zero_releases_iff (hw : Hosted K w) (hl : Created w l o) :
    ReallocReleases K w l o 0 ↔ Findable w l o := by
  have hptr : l.ptr ≠ 0 := by
    cases o with
    | brk a n => exact hl.ptr ▸ Nat.succ_ne_zero _
    | map a n => exact hl.ptr ▸ Nat.succ_ne_zero _
  have hcall : toylibcRealloc K w l.ptr 0 = some (0, toylibcFree w l.ptr) := by
    unfold toylibcRealloc
    rw [if_neg hptr, if_pos rfl]
  rw [← free_releases_iff hw hl]
  constructor
  · intro hreleases
    have hreleased := hreleases _ _ hcall
    rwa [if_pos rfl] at hreleased
  · intro hreleased q w' hcall'
    rw [hcall, Option.some.injEq, Prod.mk.injEq] at hcall'
    rw [if_pos rfl, ← hcall'.2]
    exact hreleased

/-! ## Moving a block of the brk heap -/

/-- An initialised heap grows at its end only. -/
theorem grows_kept (hK : K.Lawful) (w : Heap) : Kept K fun v =>
    Hosted K v ∧ v.heapOk = true ∧ v.heapLo = w.heapLo ∧ w.heapHi ≤ v.heapHi where
  mem m h := ⟨(hosted_kept hK).mem m h.1, h.2⟩
  init := by
    rintro v ⟨-, hok, -⟩ hnot
    rw [hok] at hnot
    cases hnot
  grow := by
    rintro v sz ⟨hv, hok, hlo, hhi⟩ _ hsz
    have hgrow := (hosted_kept hK).grow sz hv hok hsz
    have hnew := (hv.bounded.growSize_room hsz).1
    rcases brkGrow_cases K v (brkNeed sz) _ hnew with ⟨-, heq⟩ | ⟨-, m', heq⟩
    · rw [heq] at hgrow ⊢
      exact ⟨hgrow, hok, hlo, hhi⟩
    · rw [heq] at hgrow ⊢
      exact ⟨hgrow, hok, hlo, Nat.le_add_right_of_le hhi⟩
  map n h := ⟨(hosted_kept hK).map n h.1, h.2⟩
  unmap a n h := ⟨(hosted_kept hK).unmap a n h.1, h.2⟩

/-- An address in the brk heap stays in it. -/
theorem InBrk.malloc (hK : K.Lawful) (hw : Hosted K w) {ptr sz q : Nat} {w₁ : Heap}
    (hin : InBrk w ptr) (hcall : toylibcMalloc K w sz = some (q, w₁)) : InBrk w₁ ptr := by
  have hok : w.heapOk = true := by
    cases hnot : w.heapOk with
    | true => rfl
    | false =>
      have hempty := hw.fresh hnot
      have hhi := hin.2
      omega
  obtain ⟨-, -, hlo, hhi⟩ := (grows_kept hK w).malloc ⟨hw, hok, rfl, Nat.le_refl _⟩ hcall
  exact ⟨hlo ▸ hin.1, Nat.lt_of_lt_of_le hin.2 hhi⟩

/-- It is enough to look at the release after the copy. -/
theorem realloc_releases_of_move (hptr : l.ptr ≠ 0) (hsz : newsz ≠ 0)
    (hmove : ∀ q w₁, toylibcMalloc K w newsz = some (q, w₁) → q ≠ 0 →
      ReleasedBy
        { w₁ with mem := (toylibcMemcpy w₁.mem q l.ptr (min (oldSize w l.ptr) newsz)).1 } l
        (toylibcFree
          { w₁ with mem := (toylibcMemcpy w₁.mem q l.ptr (min (oldSize w l.ptr) newsz)).1 }
          l.ptr) o) :
    ReallocReleases K w l o newsz := by
  intro q w' hcall
  rw [if_neg hsz]
  by_cases hstay : StaysInPlace w l.ptr newsz
  · exact .inl hstay
  by_cases hq : q = 0
  · exact .inr (.inl hq)
  rw [toylibcRealloc_move hptr hsz hstay] at hcall
  obtain ⟨w₁, hmalloc, rfl⟩ := reallocMove_eq_some hcall hq
  exact .inr (.inr ⟨w₁, hmalloc, hmove q w₁ hmalloc hq⟩)

/-- Inside the heap the header word does not matter. -/
theorem brk_releases {w₁ : Heap} {m : Mem} {a n : Nat} (hl : FromBrk w l a n)
    (hin : InBrk w₁ l.ptr) :
    ReleasedBy { w₁ with mem := m } l (toylibcFree { w₁ with mem := m } l.ptr) (.brk a n) := by
  have hptr := hl.ptr
  have htop := hl.ptr_lt
  have heq := toylibcFree_eq (w := { w₁ with mem := m }) rfl (show a + 8 < 2 ^ 64 by omega)
  rw [← hptr] at heq
  rw [ReleasedBy, heq]
  exact if_neg fun hout => hout.2 hin

theorem brk_move_releases (hK : K.Lawful) (hw : Hosted K w) {a n : Nat} (hl : FromBrk w l a n)
    (hin : InBrk w l.ptr) (hsz : newsz ≠ 0) : ReallocReleases K w l (.brk a n) newsz := by
  refine realloc_releases_of_move (hl.ptr ▸ Nat.succ_ne_zero _) hsz fun q w₁ hmalloc _ => ?_
  exact brk_releases hl (hin.malloc hK hw hmalloc)

/-! ## Moving a mapping -/

/-- A new mapping lies apart from the old one. -/
theorem large_move_releases (hK : K.Lawful) (hw : Hosted K w) {a n : Nat} (hl : FromMap w l a n)
    (hbig : mmapLimit ≤ newsz) (hwhole : MappedWhole K w newsz) :
    ReallocReleases K w l (.map a n) newsz := by
  have hpos : newsz ≠ 0 := by
    unfold mmapLimit at hbig
    omega
  have hptr : l.ptr ≠ 0 := hl.ptr ▸ Nat.succ_ne_zero _
  refine realloc_releases_of_move hptr hpos fun q w₁ hmalloc hq => ?_
  rw [toylibcMalloc_large hbig, Option.some.injEq] at hmalloc
  have hanswer := (mallocMap_answer K w newsz).1
  rw [hmalloc] at hanswer
  dsimp only at hanswer
  rcases hwhole with hret | hret | ⟨hok, hfits⟩
  · rw [if_pos hret] at hanswer
    exact absurd hanswer hq
  · rw [hret] at hanswer
    exact absurd (hanswer.trans (by decide)) hq
  · have huser := (hK.mmap_page w.log _ hok).2
    have hlen := le_mapLength hfits
    have hothers := hK.mmap_apart_maps w.log _ hok _ hl.alive
    unfold userTop at huser
    obtain ⟨q', w₁', hmap, hmapped⟩ := mallocMap_mapped hK (show newsz < 2 ^ 63 by omega) hok
    rw [hmalloc, Prod.mk.injEq] at hmap
    obtain ⟨rfl, rfl⟩ := hmap
    have hw₁ := (hosted_kept hK).mallocMap hw newsz
    rw [hmalloc] at hw₁
    generalize mapLength newsz = k at huser hlen hothers hmapped
    generalize K.mmap w.log k = M at huser hothers hmapped
    obtain ⟨rfl, -, hmaps, hframe, -⟩ := hmapped
    have hlarge := hl.length_ge
    have hlarge' := hlarge
    unfold mmapLimit at hlarge'
    have hapart := hothers.ordered (by dsimp only; omega) (show M < M + k by omega)
    have hcp : min (oldSize w l.ptr) newsz ≤ newsz := Nat.min_le_right _ _
    rw [ReleasedBy, hl.ptr]
    rw [hl.ptr] at hcp
    exact free_mapping_copied hw₁ (hmaps ▸ List.mem_cons_of_mem _ hl.alive) hl.header.1 hlarge
      hframe (by dsimp only at hapart; omega) (by omega) (by omega) (by omega)

/-! ## A request inside the brk heap -/

/-- Fresh pages, fused with what the last footer says, write into the longer heap only. -/
theorem brkExtend_inside {need : Nat} (hpos : 0 < need) (hleast : 16 ≤ w.heapLo)
    (hlo : w.heapLo ≤ w.heapHi) (hroom : w.heapHi + need + 4096 < 2 ^ 63)
    (htopFree : topFree w ≤ w.heapHi - w.heapLo)
    (hgrant : K.brk w.log (w.heapHi + growSize need) = w.heapHi + growSize need) :
    ∃ m', brkExtend K w need = (w.heapHi + 8,
        ⟨m', w.heapLo, w.heapHi + growSize need, w.heapOk,
          .brk (w.heapHi + growSize need) (w.heapHi + growSize need) :: w.log⟩) ∧
      SameOutside w.mem m' w.heapLo (w.heapHi + growSize need) := by
  have hroom' : need + 4096 ≤ 2 ^ 64 := by omega
  have hlt := growSize_lt hroom'
  have hge := le_growSize hroom'
  have hdvd := page_dvd_growSize hroom'
  have hext := brkExtend_eq (by omega) (show w.heapHi + need + 4096 ≤ 2 ^ 64 by omega) hgrant
  generalize growSize need = g at hlt hge hdvd hext hgrant ⊢
  have htags := growTags_sameOutside (w := w) (show 8 ≤ g by omega) (by omega)
  have hsz := getSz_growTags (w := w) (show 8 ∣ g by omega) (by omega) (by omega)
  have hprev := prevFree_growTags (w := w) (show 8 ∣ g by omega) (by omega) (by omega)
  have hftr : wsub w.heapHi hdrSz = w.heapHi - 8 := wsub_eq (by omega) (by unfold hdrSz; omega)
  have hback : (if prevFree (load64 (growTags w g) w.heapHi) then
      getSz (load64 (growTags w g) (wsub w.heapHi hdrSz)) else 0) = topFree w := by
    rw [hprev, hftr, load64_eq_of_sameOutside htags (by omega) (by omega), topFree, hftr]
  have hmerge := merge_eq 0 hsz hback (if_neg fun hnext => absurd hnext.1 (Nat.lt_irrefl _))
    (by omega) (by omega) (by omega)
  have hmerged : SameOutside (growTags w g) (merge (growTags w g) (w.heapHi + g) w.heapHi)
      w.heapLo (w.heapHi + g) := by
    rw [hmerge]
    split
    · exact SameOutside.refl _ _ _
    · exact (joined_sameOutside (by omega) (by omega) (by omega)).mono (by omega) (by omega)
  have hword := load64_merge_end hsz rfl (by omega) (by omega)
  rw [← hword] at hsz
  generalize merge (growTags w g) (w.heapHi + g) w.heapHi = m at hext hmerged hsz
  have htake := brkTakeGrown_sameOutside hsz (by omega) (Nat.le_refl _)
    (fun hnext => absurd hnext (Nat.lt_irrefl _)) (by omega)
  exact ⟨_, hext, ((htags.mono hlo (Nat.le_refl _)).trans hmerged).trans
    (htake.mono hlo (Nat.le_refl _))⟩

/-- What a small request writes and answers lies in the heap that it leaves. -/
theorem brkAlloc_inside (hK : K.Lawful) (hw : Hosted K w) (hok : w.heapOk = true) {sz q : Nat}
    {w' : Heap} (hpos : 0 < sz) (hsmall : sz < mmapLimit) (hserved : ServedInside w (brkNeed sz))
    (hcall : brkAlloc K w (brkNeed sz) = some (q, w')) (hq : q ≠ 0) :
    w.heapLo + 8 ≤ q ∧ q + sz ≤ w'.heapHi ∧ w'.heapLo = w.heapLo ∧
      mapsAfter w'.log = mapsAfter w.log ∧ SameOutside w.mem w'.mem w.heapLo w'.heapHi := by
  obtain ⟨hnew, hroom⟩ := hw.bounded.growSize_room hsmall
  have hneed := brkNeed_eq (show sz < 2 ^ 63 by unfold mmapLimit at hsmall; omega)
  have hge := le_growSize (show brkNeed sz + 4096 ≤ 2 ^ 64 by omega)
  rcases brkAlloc_cases hcall with ⟨cur, hsearch, rfl, rfl⟩ | ⟨hfails, hext⟩
  · obtain ⟨hlt, -, hfit⟩ := brkSearch_found hsearch
    obtain ⟨hcur, hend⟩ := hserved.1 cur hsearch
    have hptr : wadd cur hdrSz = cur + 8 := wadd_hdrSz (by omega)
    have htake := brkTake_sameOutside w.heapHi (y := w.heapHi) rfl (by omega) hfit (by omega)
      (by omega) (by omega)
    rw [hptr]
    exact ⟨by omega, by dsimp only; omega, rfl, rfl, htake.mono hcur (Nat.le_refl _)⟩
  · have hlo := hw.lo_le_hi
    have hlo_dvd := hw.lo_dvd
    have hstart := hw.start_le_lo hok
    have hbreak := hK.break0_pos
    unfold align at hlo_dvd
    by_cases hrefuse : BrkRefused K w (brkNeed sz)
    · rw [brkExtend_refused hrefuse, Prod.mk.injEq] at hext
      exact absurd hext.1.symm hq
    · have hgrant := not_not.mp hrefuse
      rw [hnew] at hgrant
      obtain ⟨m', hext', hsame⟩ :=
        brkExtend_inside (by omega) (by omega) hlo hroom (hserved.2 hfails) hgrant
      rw [hext', Prod.mk.injEq] at hext
      obtain ⟨rfl, rfl⟩ := hext
      exact ⟨by omega, by dsimp only; omega, rfl, rfl, hsame⟩

/-- On accurate tags the search stays in the heap. -/
theorem servedInside_of_tiles {bs : List HeapBlock} (h : Tiles w.mem false w.heapLo bs w.heapHi)
    (htop : w.heapHi < 2 ^ 64) (need : Nat) : ServedInside w need := by
  have hhi := h.hi_eq
  constructor
  · intro cur hfound
    obtain ⟨b, hfit⟩ := h.walk.firstFit (by decide) htop hfound
    obtain ⟨pre, post, rfl, rfl, -, -, -⟩ := firstFit_eq_some hfit
    have hpost := extent_dvd post
    have hsz : getSz (load64 w.mem (w.heapLo + extent pre)) = b.size := h.blockAt.hdr_size
    simp only [extent_append, extent_cons] at hhi
    rw [hsz]
    omega
  · intro _
    have hle := freeBefore_le_extent bs
    rw [topFree_of_tiles h htop]
    omega

/-- A mapping is not reached from inside the heap. -/
theorem small_move_releases (hK : K.Lawful) (hw : Hosted K w) {a n : Nat} (hl : FromMap w l a n)
    (hpos : 0 < newsz) (hsmall : newsz < mmapLimit)
    (hserved : ServedInside (ready K w) (brkNeed newsz)) :
    ReallocReleases K w l (.map a n) newsz := by
  have hptr : l.ptr ≠ 0 := hl.ptr ▸ Nat.succ_ne_zero _
  refine realloc_releases_of_move hptr (by omega) fun q w₁ hmalloc hq => ?_
  rw [toylibcMalloc_small hpos hsmall] at hmalloc
  have hready := (hosted_kept hK).ready hw
  have hw₁ := (hosted_kept hK).brkAlloc hready (ready_heapOk K w) hsmall hmalloc
  obtain ⟨hq_lo, hq_hi, hlo, hmaps, hframe⟩ :=
    brkAlloc_inside hK hready (ready_heapOk K w) hpos hsmall hserved hmalloc hq
  obtain ⟨-, -, hmem, hmaps_ready⟩ := hw.bounded.ready hK
  rw [hmem, ← hlo] at hframe
  have halive : (a, n) ∈ mapsAfter w₁.log := by
    rw [hmaps, hmaps_ready]
    exact hl.alive
  have hlarge := hl.length_ge
  have hlarge' := hlarge
  have htop := hw₁.hi_lt
  unfold mmapLimit at hlarge'
  have hapart := (hw₁.maps_heap _ halive).ordered (by omega) (show a < a + n by omega)
  have hcp : min (oldSize w l.ptr) newsz ≤ newsz := Nat.min_le_right _ _
  rw [ReleasedBy, hl.ptr]
  rw [hl.ptr] at hcp
  exact free_mapping_copied hw₁ halive hl.header.1 hlarge hframe
    (by dsimp only at hapart; omega) (by omega) (by omega) (by omega)

end

/-- `toylibc_free` and `toylibc_realloc` to nothing release a block by the mechanism that created
it if and only if it is a mapping, or is smaller than every mapping, or lies in the brk heap. A move
does so when the allocation of the new block writes the header words of mappings nowhere. -/
theorem release_mechanism {K : Kernel} {w : Heap} {l : Lent} {o : Origin} (hK : K.Lawful)
    (hw : Hosted K w) (hl : Created w l o) :
    (ReleasedBy w l (toylibcFree w l.ptr) o ↔ Findable w l o) ∧
      (ReallocReleases K w l o 0 ↔ Findable w l o) ∧
      ∀ newsz, newsz ≠ 0 → StaysInPlace w l.ptr newsz ∨ MovesSafely K w l newsz o →
        ReallocReleases K w l o newsz := by
  refine ⟨free_releases_iff hw hl, realloc_zero_releases_iff hw hl, fun newsz hsz hcond => ?_⟩
  rcases hcond with hstay | hmoves
  · intro q w' _
    rw [if_neg hsz]
    exact .inl hstay
  · cases o with
    | brk a n => exact brk_move_releases hK hw hl hmoves hsz
    | map a n =>
      unfold MovesSafely at hmoves
      by_cases hbig : mmapLimit ≤ newsz
      · rw [if_pos hbig] at hmoves
        exact large_move_releases hK hw hl hbig hmoves
      · rw [if_neg hbig] at hmoves
        exact small_move_releases hK hw hl (Nat.pos_of_ne_zero hsz) (Nat.lt_of_not_le hbig) hmoves

/-! ## Runs -/

theorem heapOneMapping_created :
    Created heapOneMapping ⟨2 ^ 46 + 8, 135160⟩ (.map (2 ^ 46) 135168) where
  ptr := rfl
  large := by decide
  size_lt := by decide
  length := by decide
  alive := by decide
  page := by decide
  header := by constructor <;> decide +kernel

/-- A mapping is unmapped, and also after its first bytes moved to the brk heap. -/
theorem heapOneMapping_released :
    ReleasedBy heapOneMapping ⟨2 ^ 46 + 8, 135160⟩ (toylibcFree heapOneMapping (2 ^ 46 + 8))
        (.map (2 ^ 46) 135168) ∧
      ReallocReleases stackKernel heapOneMapping ⟨2 ^ 46 + 8, 135160⟩ (.map (2 ^ 46) 135168)
        100 := by
  have hserved : ServedInside (ready stackKernel heapOneMapping) (brkNeed 100) :=
    servedInside_of_tiles
      (heapOneMapping_hosted.ready_tiles stackKernel_lawful heapOneMapping_wellFormed.tiles).1
      (by decide +kernel) _
  obtain ⟨hfree, -, hmove⟩ :=
    release_mechanism stackKernel_lawful heapOneMapping_hosted heapOneMapping_created
  exact ⟨hfree.mpr trivial, hmove 100 (by decide) (.inr hserved)⟩

/-- In a reached state the header of everything that is lent is as it was written, and yet
`toylibc_realloc` of `l` to `newsz` bytes does not release `l` as it should. -/
structure ReleasedWrongly (K : Kernel) (s : State) (l : Lent) (o : Origin) (newsz : Nat) :
    Prop where
  lawful : K.Lawful
  reachable : Reachable K s
  intact : ∀ l' ∈ s.lent, ∃ o', Created s.heap l' o'
  lent : l ∈ s.lent
  created : Created s.heap l o
  wrong : ¬ReallocReleases K s.heap l o newsz

/-- Stores of the program into `l`, each with its offset. -/
def storesTo (l : Lent) (ws : List (Nat × UInt8)) : List Event :=
  ws.map fun x => .write ((l.ptr + x.1) % 2 ^ 64) x.2

theorem legal_storesTo {K : Kernel} {s : State} {l : Lent} {ws : List (Nat × UInt8)}
    (hl : l ∈ s.lent) (hws : ∀ x ∈ ws, x.1 < l.size) :
    Legal Respects (step K) s (storesTo l ws) := by
  induction ws generalizing s with
  | nil => trivial
  | cons x ws ih =>
    rw [List.forall_mem_cons] at hws
    exact ⟨⟨l, hl, x.1, hws.1, rfl⟩, rfl, ih hl hws.2⟩

/-- The second block of 5000 bytes is cut out of free memory that reaches into the first. The
program then stores into the first, and hits the header of the rest. -/
def strayRun : List Event :=
  [.malloc 200000, .malloc 24, .free 4104, .malloc 5000, .malloc 5000] ++
    storesTo ⟨8200, 5000⟩
      [(920, 0x68), (921, 0xDC), (922, 0xFF), (923, 0xFF), (924, 0xFF), (925, 0x3F)]

/-- The rest now seems to end behind the header word of the mapping, which is a new footer when
the rest is split. The mapping is then unmapped with the length in that footer. -/
theorem strayRun_unmaps_wrongly :
    ReleasedWrongly smallKernel (stateAfter strayRun) ⟨2 ^ 46 + 8, 200000⟩
      (.map (2 ^ 46) 200704) 100 := by
  have hlent : (stateAfter strayRun).lent =
      [⟨4104, 5000⟩, ⟨8200, 5000⟩, ⟨2 ^ 46 + 8, 200000⟩] := by decide +kernel
  have hcreated : Created (stateAfter strayRun).heap ⟨2 ^ 46 + 8, 200000⟩
      (.map (2 ^ 46) 200704) := by
    refine ⟨rfl, ?_, ?_, ?_, ?_, ?_, ?_, ?_⟩ <;> decide +kernel
  have hupper : Created (stateAfter strayRun).heap ⟨8200, 5000⟩ (.brk 8192 8192) := by
    refine ⟨rfl, ?_, ?_, ?_, ?_, ?_, ?_⟩ <;> decide +kernel
  have hlower : Created (stateAfter strayRun).heap ⟨4104, 5000⟩ (.brk 4096 5024) := by
    refine ⟨rfl, ?_, ?_, ?_, ?_, ?_, ?_⟩ <;> decide +kernel
  refine ⟨smallKernel_lawful, reachable_stateAfter ?_, ?_, ?_, hcreated, fun hreleases => ?_⟩
  · exact Legal.append (by decide +kernel) (legal_storesTo (by decide +kernel) (by decide))
  · rw [hlent]
    simp only [List.forall_mem_cons]
    exact ⟨⟨_, hlower⟩, ⟨_, hupper⟩, ⟨_, hcreated⟩, nofun⟩
  · rw [hlent]
    decide
  · have hcall : (toylibcRealloc smallKernel (stateAfter strayRun).heap (2 ^ 46 + 8) 100).map
        (fun r => (r.1, r.2.log.head?)) = some (9128, some (.munmap (2 ^ 46) 70368744168424)) := by
      decide +kernel
    obtain ⟨⟨q, w'⟩, hsome, heq⟩ := Option.map_eq_some_iff.mp hcall
    rw [Prod.mk.injEq] at heq
    have hreleased := hreleases q w' hsome
    rw [if_neg (by decide)] at hreleased
    rcases hreleased with hstay | hnull | ⟨w₁, -, rfl⟩
    · exact absurd hstay (by decide +kernel)
    · exact absurd (hnull.symm.trans heq.1) (by decide)
    · exact absurd (Option.some.inj heq.2) (by decide)

/-- After a first request for 200000 bytes. -/
def mappedState : State := follow (step downKernel) freshState [.malloc 200000]

/-- The length of the new mapping wraps, so the copy of the old one runs into its own header word,
and the release finds a zero there. -/
theorem mappedState_not_unmapped :
    ReleasedWrongly downKernel mappedState ⟨70368743976968, 200000⟩
      (.map 70368743976960 200704) (2 ^ 64 - 4) := by
  have hlent : mappedState.lent = [⟨70368743976968, 200000⟩] := by decide +kernel
  have hcreated : Created mappedState.heap ⟨70368743976968, 200000⟩
      (.map 70368743976960 200704) := by
    refine ⟨rfl, ?_, ?_, ?_, ?_, ?_, ?_, ?_⟩ <;> decide +kernel
  have hreach : Reachable downKernel mappedState :=
    Reach.follow (.start fresh_freshState) (by decide +kernel)
  refine ⟨downKernel_lawful, hreach, ?_, ?_, hcreated, ?_⟩
  · rw [hlent, List.forall_mem_singleton]
    exact ⟨_, hcreated⟩
  · rw [hlent]
    decide
  · intro hreleases
    have hlen : mapLength (2 ^ 64 - 4) = 4096 := by decide
    have hret : downKernel.mmap mappedState.heap.log 4096 = 70368743972864 := by decide +kernel
    have hold : oldSize mappedState.heap 70368743976968 = 200688 := by decide +kernel
    have hzero : load64 mappedState.heap.mem 70368743981056 = 0 := by decide +kernel
    have hstay : ¬StaysInPlace mappedState.heap 70368743976968 (2 ^ 64 - 4) := by decide +kernel
    have hok : isErrno (downKernel.mmap mappedState.heap.log (mapLength (2 ^ 64 - 4))) = false := by
      rw [hlen, hret]
      decide
    obtain ⟨hmap, -⟩ := mallocMap_granted downKernel_lawful hok
    rw [hlen, hret] at hmap
    generalize mappedState.heap = w at hreleases hzero hstay hold hmap
    have hnew := store64_sameOutside (zeroFill w.mem 70368743972864 4096) (a := 70368743972864)
      (4096 ||| flagAlloc) (by decide)
    have hframe := (zeroFill_sameOutside w.mem 70368743972864 4096).trans
      (hnew.mono (Nat.le_refl _) (by decide))
    generalize store64 (zeroFill w.mem 70368743972864 4096) 70368743972864 (4096 ||| flagAlloc) = m
      at hmap hframe
    have hmalloc := (toylibcMalloc_large (K := downKernel) (w := w)
      (show mmapLimit ≤ 2 ^ 64 - 4 by decide)).trans (congrArg some hmap)
    have hcopied := copyUp_copied m (d := 70368743972872) (s := 70368743976968) (n := 200688)
      (by decide) (by decide) (.inl (by decide))
    -- what the copy leaves in the header word of the old mapping
    have hheader : load64 (copyUp m 70368743972872 70368743976968 0 200688) 70368743976960 = 0 :=
      (hcopied.loadLE_eq (i := 4088) (by decide)).trans
        ((load64_eq_of_sameOutside hframe (by decide) (.inr (by decide))).trans hzero)
    have hcp : min 200688 (2 ^ 64 - 4) = 200688 := by decide
    have hcall := reallocMove_of_malloc 70368743976968 200688 hmalloc (by decide)
    rw [← hcp, ← hold, ← toylibcRealloc_move (by decide) (by decide) hstay, hold, hcp,
      toylibcMemcpy] at hcall
    have hreleased := hreleases _ _ hcall
    rw [if_neg (by decide)] at hreleased
    rcases hreleased with hbad | hbad | ⟨w₁, hmalloc', hreleased⟩
    · exact hstay hbad
    · exact absurd hbad (by decide)
    · rw [hmalloc, Option.some.injEq, Prod.mk.injEq] at hmalloc'
      obtain ⟨-, rfl⟩ := hmalloc'
      rw [ReleasedBy, hold, hcp, toylibcMemcpy] at hreleased
      generalize copyUp m 70368743972872 70368743976968 0 200688 = m' at hheader hreleased
      rw [toylibcFree_eq (a := 70368743976960) (n := 0) (by rw [hheader]; decide) (by decide),
        if_neg fun hbig => absurd hbig.1 (by decide)] at hreleased
      exact (List.cons_ne_self _ _) (congrArg Heap.log hreleased).symm

/-- `toylibc_realloc` releases a mapping wrongly: with a length from a broken heap, or not as a
mapping at all. -/
theorem release_mechanism_fails :
    ReleasedWrongly smallKernel (stateAfter strayRun) ⟨2 ^ 46 + 8, 200000⟩
        (.map (2 ^ 46) 200704) 100 ∧
      ReleasedWrongly downKernel mappedState ⟨70368743976968, 200000⟩
        (.map 70368743976960 200704) (2 ^ 64 - 4) :=
  ⟨strayRun_unmaps_wrongly, mappedState_not_unmapped⟩

end Toylibc
