import Toylibc.SafeHeap

/-!
# Runs that avoid the defects

`Sound` is the invariant of these runs: the heap has a `Layout`, and what is lent are
exactly the used blocks and some of the mappings. Every event keeps it (`step_sound`),
and so it holds in every state that is reached (`SafelyReachable.sound`). The calls leave
the bytes of every other lent range alone (`call_sound`).
-/

namespace Toylibc

open ByteMemory BlockList Transition

/-- The range lies in the payload of a used block. -/
def InBlock (w : Heap) (bs : List HeapBlock) (l : Lent) : Prop :=
  ∃ a b, l.ptr = a + 8 ∧ (a, b) ∈ place w.heapLo bs ∧ b.free = false ∧ l.size + 16 ≤ b.size

/-- The range lies behind the header word of a mapping. -/
def InMapping (w : Heap) (l : Lent) : Prop :=
  ∃ a n, l.ptr = a + 8 ∧ (a, n) ∈ mapsAfter w.log ∧ getSz (load64 w.mem a) = n ∧
    mmapLimit + overhead ≤ n ∧ l.size + 8 ≤ n

structure Sound (K : Kernel) (s : State) (bs : List HeapBlock) : Prop where
  layout : Layout K s.heap bs
  backed : ∀ l ∈ s.lent, InBlock s.heap bs l ∨ InMapping s.heap l
  used : ∀ a b, (a, b) ∈ place s.heap.heapLo bs → b.free = false → ∃ l ∈ s.lent, l.ptr = a + 8
  distinct : s.lent.Pairwise fun l l' => l.ptr ≠ l'.ptr

/-- A region that is in use as a whole: a block or a mapping. -/
def Region (w : Heap) (bs : List HeapBlock) (a n : Nat) : Prop :=
  (∃ b, (a, b) ∈ place w.heapLo bs ∧ b.size = n) ∨ (a, n) ∈ mapsAfter w.log

section

variable {K : Kernel} {s : State} {bs : List HeapBlock}

/-! ## Regions -/

/-- Regions at different addresses have no byte in common. -/
theorem Layout.region_apart {w : Heap} (h : Layout K w bs) {a n a' n' : Nat}
    (hr : Region w bs a n) (hr' : Region w bs a' n') (hne : a ≠ a') :
    Apart a (a + n) a' (a' + n') := by
  have hhi := h.tiles.hi_eq
  rcases hr with ⟨b, hb, rfl⟩ | hr <;> rcases hr' with ⟨b', hb', rfl⟩ | hr'
  · rcases place_disjoint hb hb' with ⟨heq, -⟩ | hd | hd
    · exact absurd heq hne
    · exact apart_of_le (.inl hd)
    · exact apart_of_le (.inr hd)
  · have hin := place_bounds hb
    exact (h.maps_heap _ hr').mono (by omega) (by omega) (Nat.le_refl _) (Nat.le_refl _)
  · have hin := place_bounds hb'
    exact ((h.maps_heap _ hr).mono (by omega) (by omega) (Nat.le_refl _) (Nat.le_refl _)).symm
  · have hne' : (a, n) ≠ (a', n') := fun heq => hne (congrArg Prod.fst heq)
    have : Std.Symm fun r r' : Nat × Nat => Apart r.1 (r.1 + r.2) r'.1 (r'.1 + r'.2) :=
      ⟨fun _ _ => Apart.symm⟩
    exact h.maps_apart.forall hr hr' hne'

/-- What is lent lies in a region, behind its header word. -/
theorem Sound.region (h : Sound K s bs) {l : Lent} (hl : l ∈ s.lent) :
    ∃ a n, l.ptr = a + 8 ∧ Region s.heap bs a n ∧ l.size + 8 ≤ n ∧ a + n ≤ userTop + 15 := by
  rcases h.backed l hl with ⟨a, b, hptr, hb, -, hsize⟩ | ⟨a, n, hptr, hmap, -, -, hsize⟩
  · have hin := place_bounds hb
    have hhi := h.layout.tiles.hi_eq
    have huser := h.layout.hi_user
    exact ⟨a, b.size, hptr, .inl ⟨b, hb, rfl⟩, by omega, by omega⟩
  · have huser := h.layout.maps_user _ hmap
    exact ⟨a, n, hptr, .inr hmap, hsize, by dsimp only at huser; omega⟩

/-- Two lent ranges have no byte in common, their header words included. -/
theorem Sound.lent_apart (h : Sound K s bs) {l l' : Lent} (hl : l ∈ s.lent) (hl' : l' ∈ s.lent)
    (hne : l.ptr ≠ l'.ptr) :
    Apart (l.ptr - 8) (l.ptr + l.size) (l'.ptr - 8) (l'.ptr + l'.size) := by
  obtain ⟨a, n, hptr, hr, hsize, -⟩ := h.region hl
  obtain ⟨a', n', hptr', hr', hsize', -⟩ := h.region hl'
  have hapart := h.layout.region_apart hr hr' (by omega)
  exact hapart.mono (by omega) (by omega) (by omega) (by omega)

theorem Sound.ptr_lt (h : Sound K s bs) {l : Lent} (hl : l ∈ s.lent) :
    8 ≤ l.ptr ∧ l.ptr + l.size < 2 ^ 64 := by
  obtain ⟨a, n, hptr, -, hsize, huser⟩ := h.region hl
  unfold userTop at huser
  omega

/-- A range is untouched when the writes stay apart from it. -/
theorem untouched_of_apart {m m' : Mem} {x y : Nat} {l : Lent} (hsame : SameOutside m m' x y)
    (htop : l.ptr + l.size ≤ 2 ^ 64) (hapart : Apart l.ptr (l.ptr + l.size) x y) :
    Untouched m m' l := by
  intro i hi
  have hout := hapart (l.ptr + i) (by omega) (by omega)
  exact hsame (l.ptr + i) (show l.ptr + i < 2 ^ 64 by omega) (by omega)

theorem Untouched.refl (m : Mem) (l : Lent) : Untouched m m l := fun _ _ => rfl

theorem Untouched.trans {m m' m'' : Mem} {l : Lent} (h : Untouched m m' l)
    (h' : Untouched m' m'' l) : Untouched m m'' l :=
  fun i hi => (h' i hi).trans (h i hi)

/-- A mapping stays lent when it stays mapped and its header word is not written. -/
theorem InMapping.frame {w w' : Heap} {l : Lent} (h : InMapping w l) {x y : Nat}
    (hsame : SameOutside w.mem w'.mem x y) (huser : ∀ r ∈ mapsAfter w.log, r.1 + r.2 ≤ userTop)
    (hkept : ∀ a n, l.ptr = a + 8 → (a, n) ∈ mapsAfter w.log → 8 ≤ n →
      (a, n) ∈ mapsAfter w'.log ∧ Apart a (a + 8) x y) : InMapping w' l := by
  obtain ⟨a, n, hptr, hmap, hsz, hbig, hsize⟩ := h
  have htop : a + n ≤ userTop := huser _ hmap
  unfold userTop at htop
  have hn : 8 ≤ n := by unfold mmapLimit at hbig; omega
  obtain ⟨hmap', hapart⟩ := hkept a n hptr hmap hn
  have hload : load64 w'.mem a = load64 w.mem a := by
    refine loadLE_congr fun i hi => ?_
    have hout := hapart (a + i) (by omega) (by omega)
    exact hsame (a + i) (show a + i < 2 ^ 64 by omega) (by omega)
  exact ⟨a, n, hptr, hmap', by rw [hload, hsz], hbig, hsize⟩

end

/-! ## Stores into a lent range -/

section

variable {K : Kernel} {s : State} {bs : List HeapBlock}

/-- The two states list what is lent in the same way, and `m'` differs inside `l` only. -/
theorem Sound.store {m' : Mem} (h : Sound K s bs) {l : Lent} (hl : l ∈ s.lent)
    (hsame : SameOutside s.heap.mem m' l.ptr (l.ptr + l.size)) :
    Sound K ⟨{ s.heap with mem := m' }, s.lent⟩ bs ∧
      ∀ l' ∈ s.lent, l'.ptr ≠ l.ptr → Untouched s.heap.mem m' l' := by
  have htop := h.layout.hi_lt
  obtain ⟨a, n, hptr, hregion, hsize, huser⟩ := h.region hl
  refine ⟨⟨h.layout.retile ?_ h.layout.topOnly, ?_, h.used, h.distinct⟩, ?_⟩
  · rcases h.backed l hl with ⟨a, b, hptr, hb, -, hsize⟩ | ⟨a, n, hptr, hmap, -, hbig, hsize⟩
    · obtain ⟨pre, post, rfl, rfl⟩ := mem_place_iff.mp hb
      exact h.layout.tiles.payload hsame (by omega) (by omega) (by omega)
    · have hbody : SameOutside s.heap.mem m' a (a + n) := hsame.mono (by omega) (by omega)
      exact h.layout.tiles.frame_apart hbody (by omega) (h.layout.maps_heap _ hmap)
        (by unfold mmapLimit at hbig; omega)
  · intro l' hl'
    rcases h.backed l' hl' with hblock | hmapping
    · exact .inl hblock
    · refine .inr (hmapping.frame hsame h.layout.maps_user fun a' n' _ hmap' hn' => ⟨hmap', ?_⟩)
      by_cases heq : a' = a
      · exact apart_of_le (.inl (by omega))
      · have hapart := h.layout.region_apart (.inr hmap') hregion heq
        exact hapart.mono (Nat.le_refl _) (by omega) (by omega) (by omega)
  · intro l' hl' hne
    have hlt := h.ptr_lt hl'
    refine untouched_of_apart hsame (by omega) ?_
    exact (h.lent_apart hl' hl hne).mono (by omega) (Nat.le_refl _) (by omega) (Nat.le_refl _)

/-! ## A new block at the end -/

/-- What is lent before the last block, or in a mapping, stays as it is when the end of the
heap from there on is written. -/
theorem Sound.keep {w' : Heap} {pre : List HeapBlock} {d : HeapBlock} (h : Sound K s bs)
    (hlayout : Layout K w' (pre ++ [d])) (hlo : w'.heapLo = s.heap.heapLo)
    (hmaps : mapsAfter w'.log = mapsAfter s.heap.log)
    (hsame : SameOutside s.heap.mem w'.mem (s.heap.heapLo + extent pre) w'.heapHi)
    {l : Lent} (hl : InBlock s.heap pre l ∨ InMapping s.heap l) :
    (InBlock w' (pre ++ [d]) l ∨ InMapping w' l) ∧ Untouched s.heap.mem w'.mem l := by
  have hmaps_user := h.layout.maps_user
  have hmaps_heap := hlayout.maps_heap
  rw [hmaps, hlo] at hmaps_heap
  have htop := h.layout.hi_user
  have hhi := hlayout.tiles.hi_eq
  have hhi_lt := hlayout.hi_lt
  simp only [extent_append, extent_cons, extent_nil] at hhi
  rcases hl with ⟨a, b, hptr, hb, hused, hsize⟩ | hmapping
  · have hin := place_bounds hb
    refine ⟨.inl ⟨a, b, hptr, ?_, hused, hsize⟩, untouched_of_apart hsame (by omega) ?_⟩
    · rw [hlo, place_append]
      exact List.mem_append_left _ hb
    · exact apart_of_le (.inl (by omega))
  · constructor
    · refine .inr (hmapping.frame hsame hmaps_user fun a n _ hmap hn => ⟨hmaps ▸ hmap, ?_⟩)
      have hapart := (hmaps_heap _ hmap).symm
      exact hapart.mono (Nat.le_refl _) (by dsimp only; omega) (Nat.le_add_right _ _)
        (Nat.le_refl _)
    · obtain ⟨a, n, hptr, hmap, -, -, hsize⟩ := hmapping
      have huser : a + n ≤ userTop := hmaps_user _ hmap
      unfold userTop at huser
      have hapart := (hmaps_heap _ hmap).symm
      refine untouched_of_apart hsame (by omega) ?_
      exact hapart.mono (by dsimp only; omega) (by dsimp only; omega) (Nat.le_add_right _ _)
        (Nat.le_refl _)

/-! ## Giving back -/

theorem mem_giveBack {ptr : Nat} {lent : List Lent} {l : Lent} :
    l ∈ giveBack ptr lent ↔ l ∈ lent ∧ l.ptr ≠ ptr := by
  simp [giveBack]

/-- A lent brk block may be asked for another size that fits. -/
theorem Sound.resize (h : Sound K s bs) {a sz : Nat} {b : HeapBlock}
    (hb : (a, b) ∈ place s.heap.heapLo bs) (hused : b.free = false) (hsize : sz + 16 ≤ b.size) :
    Sound K ⟨s.heap, ⟨a + 8, sz⟩ :: giveBack (a + 8) s.lent⟩ bs where
  layout := h.layout
  backed := by
    rw [List.forall_mem_cons]
    exact ⟨.inl ⟨a, b, rfl, hb, hused, hsize⟩, fun l' hl' => h.backed l' (mem_giveBack.mp hl').1⟩
  used := by
    intro a' b' hb' hused'
    obtain ⟨l', hl', hptr'⟩ := h.used a' b' hb' hused'
    by_cases heq : l'.ptr = a + 8
    · exact ⟨_, List.mem_cons_self, heq ▸ hptr'⟩
    · exact ⟨l', List.mem_cons_of_mem _ (mem_giveBack.mpr ⟨hl', heq⟩), hptr'⟩
  distinct := by
    refine List.pairwise_cons.mpr ⟨fun l' hl' => ?_, h.distinct.sublist List.filter_sublist⟩
    exact (mem_giveBack.mp hl').2.symm

/-- Behind the topmost lent block lies at most one block, a free one. -/
theorem Sound.freeTail {pre post : List HeapBlock} {b : HeapBlock}
    (h : Sound K s (pre ++ b :: post)) (hclean : FreeAvoids s (s.heap.heapLo + extent pre + 8)) :
    FreeTail post := by
  have hleast := b.least_le
  have hhi := h.layout.tiles.hi_eq
  simp only [extent_append, extent_cons] at hhi
  refine freeTail_of_all_free h.layout.topOnly.separated.behind fun c hc => ?_
  obtain ⟨mid, rest, rfl⟩ := List.append_of_mem hc
  cases hused : c.free with
  | true => rfl
  | false =>
    have hc_least := c.least_le
    simp only [extent_append, extent_cons] at hhi
    have hplace : (s.heap.heapLo + extent (pre ++ b :: mid), c) ∈
        place s.heap.heapLo (pre ++ b :: (mid ++ c :: rest)) :=
      mem_place_iff.mpr ⟨pre ++ b :: mid, rest, by simp, rfl⟩
    obtain ⟨l, hl, hptr⟩ := h.used _ c hplace hused
    simp only [extent_append, extent_cons] at hptr
    have := hclean ⟨by omega, by omega⟩ l hl ⟨by omega, by omega⟩
    omega

/-- The lent block `b` at `a` is freed, with nothing but free space above it. -/
theorem Sound.freeBlock {pre post : List HeapBlock} {b : HeapBlock} {a : Nat}
    (h : Sound K s (pre ++ b :: post)) (ha : a = s.heap.heapLo + extent pre)
    (hpost : FreeTail post) :
    (∃ bs', Sound K ⟨toylibcFree s.heap (a + 8), giveBack (a + 8) s.lent⟩ bs') ∧
      ∀ l' ∈ s.lent, l'.ptr ≠ a + 8 → Untouched s.heap.mem (toylibcFree s.heap (a + 8)).mem l' := by
  subst ha
  have hpost_free : ∀ d ∈ post, d.free = true := by
    rcases hpost with rfl | ⟨d, rfl, hd⟩
    · nofun
    · intro c hc
      rwa [List.mem_singleton.mp hc]
  have hassoc : pre ++ b :: post = pre ++ [b] ++ post := by simp
  -- the other used blocks stand before `b`
  have hbefore : ∀ l' ∈ s.lent, l'.ptr ≠ s.heap.heapLo + extent pre + 8 →
      InBlock s.heap pre l' ∨ InMapping s.heap l' := by
    intro l' hl' hne
    refine (h.backed l' hl').imp_left fun ⟨a', b', hptr', hb', hused', hsize'⟩ => ?_
    refine ⟨a', b', hptr', ?_, hused', hsize'⟩
    rw [hassoc] at hb'
    have hmem := mem_place_of_used hb' hpost_free hused'
    rw [place_append, List.mem_append] at hmem
    rcases hmem with hmem | hmem
    · exact hmem
    · simp only [place, List.mem_singleton, Prod.mk.injEq] at hmem
      exact absurd (by rw [hptr', hmem.1]) hne
  obtain ⟨m', c, hcall, hfree, hlayout, hsame⟩ := h.layout.release hpost
  rw [hcall]
  refine ⟨⟨pre ++ [c], hlayout, ?_, ?_, h.distinct.sublist List.filter_sublist⟩, ?_⟩
  · intro l' hl'
    obtain ⟨hl', hne⟩ := mem_giveBack.mp hl'
    exact (h.keep hlayout rfl rfl hsame (hbefore l' hl' hne)).1
  · intro a' b' hb' hused'
    have hmem := mem_place_of_used hb' (by simpa using hfree) hused'
    have hin := place_bounds hmem
    have hleast := b'.least_le
    obtain ⟨l', hl', hptr'⟩ := h.used a' b' (by
      rw [place_append]; exact List.mem_append_left _ hmem) hused'
    exact ⟨l', mem_giveBack.mpr ⟨hl', by dsimp only at hin; omega⟩, hptr'⟩
  · intro l' hl' hne
    exact (h.keep hlayout rfl rfl hsame (hbefore l' hl' hne)).2

/-- A lent mapping goes back to the kernel. -/
theorem toylibcFree_mapping (h : Sound K s bs) {a n : Nat}
    (hmap : (a, n) ∈ mapsAfter s.heap.log) (hsz : getSz (load64 s.heap.mem a) = n)
    (hbig : mmapLimit + overhead ≤ n) :
    toylibcFree s.heap (a + 8) = toylibcMunmap s.heap a n := by
  have huser : a + n ≤ userTop := h.layout.maps_user _ hmap
  unfold userTop at huser
  unfold mmapLimit overhead at hbig
  refine toylibcFree_map hsz (by unfold mmapLimit; omega) (by omega) ?_
  have hapart := h.layout.maps_heap _ hmap
  by_contra hin
  exact hapart (a + 8) (by omega) (by omega) (by dsimp only; omega)

theorem Sound.freeMapping (h : Sound K s bs) {a n : Nat} (hmap : (a, n) ∈ mapsAfter s.heap.log)
    (hbig : mmapLimit + overhead ≤ n) :
    Sound K ⟨toylibcMunmap s.heap a n, giveBack (a + 8) s.lent⟩ bs where
  layout := h.layout.unmap a n
  backed := by
    intro l' hl'
    obtain ⟨hl', hne⟩ := mem_giveBack.mp hl'
    rcases h.backed l' hl' with hblock | ⟨a', n', hptr', hmap', hrest⟩
    · exact .inl hblock
    · refine .inr ⟨a', n', hptr', ?_, hrest⟩
      have hne' : (a', n') ≠ (a, n) := fun heq => hne (by rw [hptr', (Prod.mk.inj heq).1])
      exact (List.mem_erase_of_ne hne').mpr hmap'
  used := by
    intro a' b' hb' hused'
    obtain ⟨l', hl', hptr'⟩ := h.used a' b' hb' hused'
    refine ⟨l', mem_giveBack.mpr ⟨hl', fun heq => ?_⟩, hptr'⟩
    -- a block and a mapping do not share their first byte
    have hin : s.heap.heapLo ≤ a' ∧ a' + b'.size ≤ s.heap.heapLo + extent bs := place_bounds hb'
    have hleast := b'.least_le
    have hhi := h.layout.tiles.hi_eq
    unfold mmapLimit at hbig
    exact h.layout.maps_heap _ hmap a' (by omega) (by omega) (by dsimp only; omega)
  distinct := h.distinct.sublist List.filter_sublist

/-- The topmost lent brk block, or a mapping, is freed. -/
theorem Sound.free (h : Sound K s bs) {l : Lent} (hl : l ∈ s.lent) (hclean : FreeAvoids s l.ptr) :
    (∃ bs', Sound K ⟨toylibcFree s.heap l.ptr, giveBack l.ptr s.lent⟩ bs') ∧
      ∀ l' ∈ s.lent, l'.ptr ≠ l.ptr →
        Untouched s.heap.mem (toylibcFree s.heap l.ptr).mem l' := by
  rcases h.backed l hl with ⟨a, b, hptr, hb, -, -⟩ | ⟨a, n, hptr, hmap, hsz, hbig, -⟩
  · obtain ⟨pre, post, rfl, ha⟩ := mem_place_iff.mp hb
    rw [hptr] at hclean ⊢
    rw [ha] at hclean
    exact h.freeBlock ha (h.freeTail hclean)
  · rw [hptr, toylibcFree_mapping h hmap hsz hbig]
    exact ⟨⟨bs, h.freeMapping hmap hbig⟩, fun l' _ _ => Untouched.refl _ l'⟩

/-! ## Allocation -/

/-- Nothing was handed out. -/
theorem Sound.refused {log : List Syscall} (h : Sound K s bs)
    (hbreak : breakAfter K log = breakAfter K s.heap.log)
    (hmaps : mapsAfter log = mapsAfter s.heap.log) :
    Sound K ⟨{ s.heap with log := log }, s.lent⟩ bs where
  layout := h.layout.relog hbreak hmaps
  backed l hl := by
    rcases h.backed l hl with hblock | ⟨a, n, hptr, hmap, hrest⟩
    · exact .inl hblock
    · exact .inr ⟨a, n, hptr, hmaps ▸ hmap, hrest⟩
  used := h.used
  distinct := h.distinct

/-- The last block is handed out. -/
theorem Sound.handOut (pre tail : List HeapBlock) (sz : Nat) {w' : Heap} {d : HeapBlock}
    (h : Sound K s (pre ++ tail)) (htail : ∀ c ∈ tail, c.free = true)
    (hlayout : Layout K w' (pre ++ [d])) (hused : d.free = false) (hsize : sz + 16 ≤ d.size)
    (hlo : w'.heapLo = s.heap.heapLo) (hmaps : mapsAfter w'.log = mapsAfter s.heap.log)
    (hsame : SameOutside s.heap.mem w'.mem (s.heap.heapLo + extent pre) w'.heapHi) :
    Sound K ⟨w', ⟨s.heap.heapLo + extent pre + 8, sz⟩ :: s.lent⟩ (pre ++ [d]) ∧
      ∀ l ∈ s.lent, Untouched s.heap.mem w'.mem l := by
  have hbefore : ∀ l ∈ s.lent, InBlock s.heap pre l ∨ InMapping s.heap l := by
    intro l hl
    refine (h.backed l hl).imp_left fun ⟨a, b, hptr, hb, hb_used, hfit⟩ => ?_
    exact ⟨a, b, hptr, mem_place_of_used hb htail hb_used, hb_used, hfit⟩
  have hnew : (s.heap.heapLo + extent pre, d) ∈ place w'.heapLo (pre ++ [d]) :=
    mem_place_iff.mpr ⟨pre, [], rfl, by rw [hlo]⟩
  refine ⟨⟨hlayout, ?_, ?_, ?_⟩, fun l hl => (h.keep hlayout hlo hmaps hsame (hbefore l hl)).2⟩
  · rw [List.forall_mem_cons]
    exact ⟨.inl ⟨_, d, rfl, hnew, hused, hsize⟩,
      fun l hl => (h.keep hlayout hlo hmaps hsame (hbefore l hl)).1⟩
  · intro a b hb hb_used
    dsimp only at hb
    rw [hlo, place_append, List.mem_append] at hb
    rcases hb with hb | hb
    · obtain ⟨l, hl, hptr⟩ := h.used a b (by
        rw [place_append]; exact List.mem_append_left _ hb) hb_used
      exact ⟨l, List.mem_cons_of_mem _ hl, hptr⟩
    · simp only [place, List.mem_singleton, Prod.mk.injEq] at hb
      exact ⟨_, List.mem_cons_self, by rw [hb.1]⟩
  · refine List.pairwise_cons.mpr ⟨fun l hl heq => ?_, h.distinct⟩
    rcases hbefore l hl with ⟨a, b, hptr, hb, -, -⟩ | ⟨a, n, hptr, hmap, -, hbig, -⟩
    · have hin := place_bounds hb
      have hleast := b.least_le
      dsimp only at heq
      omega
    · have hmaps_heap := hlayout.maps_heap (a, n) (by rw [hmaps]; exact hmap)
      have hleast := d.least_le
      have hhi := hlayout.tiles.hi_eq
      simp only [extent_append, extent_cons, extent_nil] at hhi
      dsimp only at heq
      exact hmaps_heap a (by omega) (by omega) ⟨Nat.le_refl _, by
        unfold mmapLimit at hbig; dsimp only; omega⟩

/-- A new mapping is handed out. -/
theorem Sound.handOutMapping {w' : Heap} {r n : Nat} (sz : Nat) (h : Sound K s bs)
    (hlayout : Layout K w' bs) (hlo : w'.heapLo = s.heap.heapLo)
    (hmaps : mapsAfter w'.log = (r, n) :: mapsAfter s.heap.log)
    (hsame : SameOutside s.heap.mem w'.mem r (r + n)) (hword : getSz (load64 w'.mem r) = n)
    (hbig : mmapLimit + overhead ≤ n) (hsize : sz + 8 ≤ n) :
    Sound K ⟨w', ⟨r + 8, sz⟩ :: s.lent⟩ bs ∧ ∀ l ∈ s.lent, Untouched s.heap.mem w'.mem l := by
  have hnew : (r, n) ∈ mapsAfter w'.log := by
    rw [hmaps]
    exact List.mem_cons_self
  have hregion : ∀ a n', Region s.heap bs a n' → Apart a (a + n') r (r + n) := by
    rintro a n' (⟨b, hb, rfl⟩ | hmap)
    · have hin := place_bounds hb
      have hhi := hlayout.tiles.hi_eq
      exact (hlayout.maps_heap _ hnew).mono (by omega) (by omega) (Nat.le_refl _) (Nat.le_refl _)
    · have hmaps_apart := hlayout.maps_apart
      rw [hmaps, List.pairwise_cons] at hmaps_apart
      exact (hmaps_apart.1 _ hmap).symm
  refine ⟨⟨hlayout, ?_, ?_, ?_⟩, ?_⟩
  · rw [List.forall_mem_cons]
    refine ⟨.inr ⟨r, n, rfl, hnew, hword, hbig, hsize⟩, fun l hl => ?_⟩
    rcases h.backed l hl with ⟨a, b, hptr, hb, hrest⟩ | hmapping
    · exact .inl ⟨a, b, hptr, hlo ▸ hb, hrest⟩
    · refine .inr (hmapping.frame hsame h.layout.maps_user fun a n' _ hmap hn' => ⟨?_, ?_⟩)
      · rw [hmaps]
        exact List.mem_cons_of_mem _ hmap
      · exact (hregion a n' (.inr hmap)).mono (Nat.le_refl _) (by omega) (Nat.le_refl _)
          (Nat.le_refl _)
  · intro a b hb hused
    obtain ⟨l, hl, hptr⟩ := h.used a b (hlo ▸ hb) hused
    exact ⟨l, List.mem_cons_of_mem _ hl, hptr⟩
  · refine List.pairwise_cons.mpr ⟨fun l hl heq => ?_, h.distinct⟩
    obtain ⟨a, n', hptr, hr, hfit, -⟩ := h.region hl
    dsimp only at heq
    exact hregion a n' hr a (Nat.le_refl _) (by omega) (by unfold mmapLimit at hbig; omega)
  · intro l hl
    obtain ⟨a, n', hptr, hr, hfit, -⟩ := h.region hl
    have hlt := h.ptr_lt hl
    refine untouched_of_apart hsame (by omega) ?_
    exact (hregion a n' hr).mono (by omega) (by omega) (Nat.le_refl _) (Nat.le_refl _)

theorem Sound.ready (hK : K.Lawful) (h : Sound K s bs) :
    Sound K ⟨ready K s.heap, s.lent⟩ bs ∧ (ready K s.heap).mem = s.heap.mem ∧
      (ready K s.heap).heapOk = true ∧
      mapsAfter (ready K s.heap).log = mapsAfter s.heap.log := by
  obtain ⟨hlayout, hmem, hok, hmaps, hplace⟩ := h.layout.ready hK
  refine ⟨⟨hlayout, ?_, ?_, h.distinct⟩, hmem, hok, hmaps⟩
  · intro l hl
    rcases h.backed l hl with ⟨a, b, hptr, hb, hrest⟩ | ⟨a, n, hptr, hmap, hrest⟩
    · exact .inl ⟨a, b, hptr, hplace ▸ hb, hrest⟩
    · exact .inr ⟨a, n, hptr, hmaps ▸ hmap, by rw [hmem]; exact hrest⟩
  · intro a b hb hused
    exact h.used a b (by rw [← hplace]; exact hb) hused

/-- A call for `sz` bytes in the state `s` answers `p` and leaves a sound state, with every
lent byte and every mapping as it was. -/
structure AllocSound (K : Kernel) (s : State) (sz p : Nat) (w' : Heap) : Prop where
  sound : ∃ bs', Sound K ⟨w', lend p sz s.lent⟩ bs'
  kept : ∀ l ∈ s.lent, Untouched s.heap.mem w'.mem l
  maps : mapsAfter s.heap.log ⊆ mapsAfter w'.log

/-- The heap is extended, or the kernel refuses. -/
theorem brkExtend_sound (hK : K.Lawful) (h : Sound K s bs) (hok : s.heap.heapOk = true) {sz : Nat}
    (hsz : sz < mmapLimit)
    (hclean : (∀ b ∈ bs, b.free = false) ∨ BrkRefused K s.heap (brkNeed sz)) :
    AllocSound K s sz (brkExtend K s.heap (brkNeed sz)).1 (brkExtend K s.heap (brkNeed sz)).2 ∧
      (BrkRefused K s.heap (brkNeed sz) → (brkExtend K s.heap (brkNeed sz)).1 = 0) := by
  unfold mmapLimit at hsz
  have hneed := brkNeed_eq (show sz < 2 ^ 63 by omega)
  by_cases hrefuse : BrkRefused K s.heap (brkNeed sz)
  · rw [brkExtend_refused hrefuse]
    refine ⟨⟨⟨bs, h.refused (if_neg hrefuse) rfl⟩, fun l _ => Untouched.refl _ l, ?_⟩, fun _ => rfl⟩
    exact List.Subset.refl _
  · have hused := hclean.resolve_right hrefuse
    obtain ⟨w', c, hext, hlayout, hc_used, hfit, hlo, hmaps, hsame⟩ :=
      h.layout.grow hK hok hused (brkNeed sz) (by omega) (by omega) hrefuse
    have hhi := h.layout.tiles.hi_eq
    rw [hext]
    refine ⟨?_, fun hbad => absurd hbad hrefuse⟩
    rw [hhi] at hsame ⊢
    obtain ⟨hsound, hkept⟩ := Sound.handOut bs [] sz (by simpa using h) (by simp) hlayout hc_used
      (by omega) hlo hmaps hsame
    refine ⟨⟨bs ++ [c], ?_⟩, hkept, hmaps ▸ List.Subset.refl _⟩
    rw [lend, if_neg (by omega)]
    exact hsound

/-- The free block that ends the heap is used whole. -/
theorem Sound.takeTop {pre : List HeapBlock} {c : HeapBlock} (h : Sound K s (pre ++ [c]))
    (hc : c.free = true) {sz : Nat} (hsz : sz < 2 ^ 63) (hfit : brkNeed sz ≤ c.size)
    (hwhole : c.size < brkNeed sz + (overhead + align)) :
    ∃ p w', brkAlloc K s.heap (brkNeed sz) = some (p, w') ∧ AllocSound K s sz p w' := by
  have hneed := brkNeed_eq hsz
  have htop := h.layout.hi_lt
  have hleast := c.least_le
  have hhi := h.layout.tiles.hi_eq
  have hused := freeOnlyLast_concat.mp h.layout.topOnly
  simp only [extent_append, extent_cons, extent_nil] at hhi
  have hfound : brkSearch s.heap.mem s.heap.heapHi (brkNeed sz) searchFuel s.heap.heapLo =
      some (.found (s.heap.heapLo + extent pre)) := by
    rw [brkSearch_walk (by decide) (by omega) h.layout.tiles.walk, firstFit_concat hused hc hfit]
    rfl
  have hrem : wsub (getSz (load64 s.heap.mem (s.heap.heapLo + extent pre))) (brkNeed sz) <
      overhead + align := by
    rw [h.layout.tiles.blockAt.hdr_size, wsub_eq (by omega) hfit]
    omega
  obtain ⟨m', htake, hlayout, hsame⟩ := h.layout.takeTop
  rw [← brkTake_whole hrem] at htake
  obtain ⟨hsound, hkept⟩ := h.handOut pre [c] sz (by simpa using hc) hlayout rfl
    (by rw [Block.size_mark]; omega) rfl rfl hsame
  have hptr : wadd (s.heap.heapLo + extent pre) hdrSz = s.heap.heapLo + extent pre + 8 :=
    wadd_hdrSz (by omega)
  refine ⟨s.heap.heapLo + extent pre + 8, { s.heap with mem := m' }, ?_,
    ⟨pre ++ [c.mark false], ?_⟩, hkept, List.Subset.refl _⟩
  · rw [brkAlloc_of_found hfound, hptr, htake]
  · rw [lend, if_neg (by omega)]
    exact hsound

/-- A small request on the initialised heap. -/
theorem brkAlloc_sound (hK : K.Lawful) (h : Sound K s bs) (hok : s.heap.heapOk = true) {sz : Nat}
    (hsz : sz < mmapLimit)
    (hclean : topFree s.heap = 0 ∨
      topFree s.heap < brkNeed sz ∧ BrkRefused K s.heap (brkNeed sz) ∨
      brkNeed sz ≤ topFree s.heap ∧ topFree s.heap < brkNeed sz + (overhead + align)) :
    ∃ p w', brkAlloc K s.heap (brkNeed sz) = some (p, w') ∧ AllocSound K s sz p w' ∧
      (topFree s.heap < brkNeed sz ∧ BrkRefused K s.heap (brkNeed sz) → p = 0) := by
  have hneed := brkNeed_eq (show sz < 2 ^ 63 by unfold mmapLimit at hsz; omega)
  have htop := h.layout.hi_lt
  rw [h.layout.topFree_eq] at hclean ⊢
  rcases lastFree_cases bs with hlast | ⟨pre, c, rfl, hc⟩
  · -- every block is in use
    have hused := h.layout.topOnly.all_used hlast
    obtain ⟨hsound, hrefused⟩ := brkExtend_sound hK h hok hsz (.inl hused)
    refine ⟨_, _, brkAlloc_of_noFit (by decide) h.layout.tiles.walk (by omega) ?_, hsound,
      fun hbad => hrefused hbad.2⟩
    intro b hb hfree
    rw [hused b hb] at hfree
    cases hfree
  · have hused := freeOnlyLast_concat.mp h.layout.topOnly
    have hleast := c.least_le
    simp only [freeBefore_concat, hc, if_true] at hclean ⊢
    rcases hclean with hnone | ⟨hsmall, hrefuse⟩ | ⟨hfit, hwhole⟩
    · omega
    · -- the free last block is too small
      obtain ⟨hsound, hrefused⟩ := brkExtend_sound hK h hok hsz (.inr hrefuse)
      refine ⟨_, _, brkAlloc_of_noFit (by decide) h.layout.tiles.walk (by omega) ?_, hsound,
        fun hbad => hrefused hbad.2⟩
      intro b hb hfree
      rcases List.mem_append.mp hb with hb | hb
      · rw [hused b hb] at hfree
        cases hfree
      · rw [List.mem_singleton.mp hb]
        exact hsmall
    · -- it is used whole
      obtain ⟨p, w', halloc, hsound⟩ :=
        h.takeTop hc (show sz < 2 ^ 63 by unfold mmapLimit at hsz; omega) hfit hwhole
      exact ⟨p, w', halloc, hsound, fun hbad => absurd hbad.1 (by omega)⟩

/-- A large request. -/
theorem mallocMap_sound (hK : K.Lawful) (h : Sound K s bs) {sz : Nat} (hsz : sz < 2 ^ 63)
    (hbig : mmapLimit ≤ sz)
    (hclean : isErrno (K.mmap s.heap.log (mapLength sz)) = true →
      K.mmap s.heap.log (mapLength sz) = wnot 0) :
    AllocSound K s sz (mallocMap K s.heap sz).1 (mallocMap K s.heap sz).2 ∧
      (isErrno (K.mmap s.heap.log (mapLength sz)) = true → (mallocMap K s.heap sz).1 = 0) ∧
      (mallocMap K s.heap sz).2.heapLo = s.heap.heapLo ∧
      (mallocMap K s.heap sz).2.heapHi = s.heap.heapHi ∧
      ((mallocMap K s.heap sz).1 = 0 ∨ ¬InBrk s.heap (mallocMap K s.heap sz).1) := by
  unfold mmapLimit at hbig
  have hlen := mapLength_eq hsz
  cases hok : isErrno (K.mmap s.heap.log (mapLength sz)) with
  | true =>
    obtain ⟨log, hmap, hbreak, hmaps⟩ := mallocMap_refused (hclean hok)
    rw [hmap]
    exact ⟨⟨⟨bs, h.refused hbreak hmaps⟩, fun l _ => Untouched.refl _ l,
      hmaps ▸ List.Subset.refl _⟩, fun _ => rfl, rfl, rfl, .inl rfl⟩
  | false =>
    obtain ⟨m', hmem, hlayout, hsame, hword⟩ :=
      h.layout.map hK (mapLength sz ||| flagAlloc) hok (by omega)
    have hr : K.mmap s.heap.log (mapLength sz) + mapLength sz ≤ userTop :=
      (hK.mmap_page _ _ hok).2
    unfold userTop at hr
    obtain ⟨hmap, hmaps⟩ := mallocMap_granted hK hok
    rw [hmem] at hmap
    rw [hmap]
    dsimp only at hlayout ⊢
    obtain ⟨hsound, hkept⟩ := h.handOutMapping sz hlayout rfl hmaps hsame
      (by rw [hword, getSz_mod, getSz_or, getSz_flagAlloc, getSz_of_dvd (by omega) (by omega)]
          exact Nat.or_zero _)
      (by unfold mmapLimit overhead; omega) (by omega)
    refine ⟨⟨⟨bs, ?_⟩, hkept, ?_⟩, by simp, rfl, rfl, .inr fun hin => ?_⟩
    · rw [lend, if_neg (by omega)]
      exact hsound
    · dsimp only
      rw [hmaps]
      exact List.subset_cons_self _ _
    · have hheap := hlayout.maps_heap
      dsimp only at hheap
      rw [hmaps, List.forall_mem_cons] at hheap
      exact hheap.1 _ hin.1 hin.2 ⟨by omega, by omega⟩

end

end Toylibc
