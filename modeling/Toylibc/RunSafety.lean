import Toylibc.SafeStep

/-!
# What the allocator guarantees over whole runs

Four properties of the reached states: lent ranges do not meet, the boundary tags are
accurate, a call leaves lent bytes alone, and free memory is coalesced. Each of them holds
in every state of a run that respects the interface and avoids the defects, and fails in a
short run that respects the interface and reaches one.
-/

namespace Toylibc

open ByteMemory BlockList Transition

/-- The state after the events, on the small kernel and from the uninitialised heap. -/
def stateAfter (es : List Event) : State := follow (step smallKernel) freshState es

theorem reachable_stateAfter {es : List Event}
    (h : Legal Respects (step smallKernel) freshState es) :
    Reachable smallKernel (stateAfter es) :=
  Reach.follow (.start fresh_freshState) h

theorem safelyReachable_stateAfter {es : List Event}
    (h : Legal (fun s e => Respects s e ∧ AvoidsDefects smallKernel s e) (step smallKernel)
      freshState es) : SafelyReachable smallKernel (stateAfter es) :=
  Reach.follow (.start fresh_freshState) h

/-- A run without defects: two brk blocks and a mapping are lent, stored to, moved and freed. -/
def orderlyRun : List Event :=
  [.malloc 24, .write 4107 7, .calloc 3 8, .malloc 200000, .realloc 8200 4000, .free 8200,
    .malloc 4080, .realloc 70368744177672 40]

/-! ## Lent ranges -/

/-- No two lent ranges have a byte in common. -/
def LentApart (s : State) : Prop :=
  s.lent.Pairwise fun l l' => Apart l.ptr (l.ptr + l.size) l'.ptr (l'.ptr + l'.size)

/-- The lent range lies in the brk heap, or in the mapping that starts 8 bytes before it. -/
def LentInside (s : State) (l : Lent) : Prop :=
  (s.heap.heapLo ≤ l.ptr ∧ l.ptr + l.size ≤ s.heap.heapHi) ∨
    ∃ a n, (a, n) ∈ mapsAfter s.heap.log ∧ l.ptr = a + 8 ∧ l.ptr + l.size ≤ a + n

theorem lent_apart_inside {K : Kernel} {s : State} (hK : K.Lawful) (h : SafelyReachable K s) :
    LentApart s ∧ ∀ l ∈ s.lent, LentInside s l := by
  obtain ⟨bs, hs⟩ := h.sound hK
  constructor
  · refine hs.distinct.imp_of_mem fun hl hl' hne => ?_
    exact (hs.lent_apart hl hl' hne).mono (by omega) (Nat.le_refl _) (by omega) (Nat.le_refl _)
  · intro l hl
    rcases hs.backed l hl with ⟨a, b, hptr, hb, -, hsize⟩ | ⟨a, n, hptr, hmap, -, -, hsize⟩
    · have hin := place_bounds hb
      have hhi := hs.layout.tiles.hi_eq
      exact .inl ⟨by omega, by omega⟩
    · exact .inr ⟨a, n, hmap, hptr, by omega⟩

theorem orderlyRun_apart_inside :
    LentApart (stateAfter orderlyRun) ∧
      ∀ l ∈ (stateAfter orderlyRun).lent, LentInside (stateAfter orderlyRun) l :=
  lent_apart_inside smallKernel_lawful (safelyReachable_stateAfter (by decide +kernel))

/-- The second block is still lent when the first, freed and merged over it, is handed out
again. -/
def overlapRun : List Event := [.malloc 24, .malloc 24, .free 4104, .malloc 5000]

theorem overlapRun_not_apart :
    smallKernel.Lawful ∧ Reachable smallKernel (stateAfter overlapRun) ∧
      ¬LentApart (stateAfter overlapRun) := by
  refine ⟨smallKernel_lawful, reachable_stateAfter (by decide +kernel), fun hapart => ?_⟩
  have hlent : (stateAfter overlapRun).lent = [⟨4104, 5000⟩, ⟨8200, 24⟩] := by decide +kernel
  rw [LentApart, hlent, List.pairwise_cons] at hapart
  exact hapart.1 ⟨8200, 24⟩ (by simp) 8200 (by decide) (by decide) (by decide)

/-! ## Boundary tags -/

/-- The walk from `heap_lo` meets the blocks `bs`, with accurate footers and PREV_FREE bits,
and the blocks with the ALLOC bit are those that are lent. -/
structure AccurateTags (s : State) (bs : List HeapBlock) : Prop where
  tiles : Tiles s.heap.mem false s.heap.heapLo bs s.heap.heapHi
  alloc : ∀ a, (∃ b, (a, b) ∈ place s.heap.heapLo bs ∧ b.free = false) ↔
    ∃ l ∈ s.lent, InBrk s.heap l.ptr ∧ l.ptr = a + 8

theorem tags_accurate {K : Kernel} {s : State} (hK : K.Lawful) (h : SafelyReachable K s) :
    ∃ bs, AccurateTags s bs := by
  obtain ⟨bs, hs⟩ := h.sound hK
  have hhi := hs.layout.tiles.hi_eq
  refine ⟨bs, hs.layout.tiles, fun a => ⟨?_, ?_⟩⟩
  · rintro ⟨b, hb, hused⟩
    obtain ⟨l, hl, hptr⟩ := hs.used a b hb hused
    have hin := place_bounds hb
    have hleast := b.least_le
    exact ⟨l, hl, ⟨by omega, by omega⟩, hptr⟩
  · rintro ⟨l, hl, hbrk, hptr⟩
    rcases hs.backed l hl with ⟨a', b, hptr', hb, hused, -⟩ | ⟨a', n, hptr', hmap, -, hbig, -⟩
    · obtain rfl : a = a' := by omega
      exact ⟨b, hb, hused⟩
    · unfold mmapLimit at hbig
      exact absurd ⟨by omega, by dsimp only; omega⟩
        (hs.layout.maps_heap _ hmap l.ptr hbrk.1 hbrk.2)

theorem orderlyRun_tags : ∃ bs, AccurateTags (stateAfter orderlyRun) bs :=
  tags_accurate smallKernel_lawful (safelyReachable_stateAfter (by decide +kernel))

/-- The first of two lent blocks is freed. -/
def swallowRun : List Event := [.malloc 24, .malloc 24, .free 4104]

/-- The walk then meets one free block over both, although the second is lent. -/
theorem swallowRun_tags :
    smallKernel.Lawful ∧ Reachable smallKernel (stateAfter swallowRun) ∧
      ¬∃ bs, AccurateTags (stateAfter swallowRun) bs := by
  refine ⟨smallKernel_lawful, reachable_stateAfter (by decide +kernel), ?_⟩
  rintro ⟨bs, htags⟩
  have hwalk : Walk (stateAfter swallowRun).heap.mem (stateAfter swallowRun).heap.heapLo
      [(⟨8192, true, by decide, by decide⟩ : HeapBlock)] (stateAfter swallowRun).heap.heapHi := by
    refine ⟨?_, ?_, show _ = _ from ?_⟩ <;> decide +kernel
  have hlent : (⟨8200, 24⟩ : Lent) ∈ (stateAfter swallowRun).lent := by decide +kernel
  have hbrk : InBrk (stateAfter swallowRun).heap 8200 := by decide +kernel
  obtain ⟨b, hb, hused⟩ := (htags.alloc 8192).mpr ⟨_, hlent, hbrk, rfl⟩
  rw [htags.tiles.walk.unique (by decide) hwalk] at hb
  simp only [place, List.mem_singleton, Prod.mk.injEq] at hb
  rw [hb.2] at hused
  cases hused

/-! ## Lent bytes -/

/-- The next call leaves what stays lent alone: all of it, but for the block that is
reallocated. -/
def KeepsLent (K : Kernel) (s : State) (e : Event) : Prop :=
  ∃ s', step K s e = some s' ∧ ∀ l ∈ s.lent, l ∈ s'.lent →
    (∀ newsz, e ≠ .realloc l.ptr newsz) → Untouched s.heap.mem s'.heap.mem l

theorem call_keeps_lent {K : Kernel} {s : State} {e : Event} (hK : K.Lawful)
    (h : SafelyReachable K s) (hcall : e.IsCall) (hr : Respects s e) (ha : AvoidsDefects K s e) :
    KeepsLent K s e := by
  obtain ⟨bs, hs⟩ := h.sound hK
  obtain ⟨p, w', hreturn, -, hkept⟩ := call_sound hK hs hcall hr ha
  refine ⟨⟨w', relend s.lent p e⟩, by simp only [step, hreturn], fun l hl hl' hne => ?_⟩
  refine hkept l hl fun heq => ?_
  have hlt := hs.ptr_lt hl
  cases e with
  | realloc ptr newsz => exact hne newsz (by rw [heq]; rfl)
  | free ptr => exact (mem_giveBack.mp hl').2 heq
  | write addr b => exact hcall
  | _ => exact absurd heq (by simp only [Event.taken]; omega)

theorem orderlyRun_keeps_lent : KeepsLent smallKernel (stateAfter orderlyRun) (.malloc 100) :=
  call_keeps_lent smallKernel_lawful (safelyReachable_stateAfter (by decide +kernel)) trivial
    (by decide +kernel) (by decide +kernel)

/-- After `swallowRun` a request is cut out of the free block, and the tags at the cut are
written into the second block. -/
theorem swallowRun_overwrites :
    smallKernel.Lawful ∧ Reachable smallKernel (stateAfter swallowRun) ∧
      Respects (stateAfter swallowRun) (.malloc 4096) ∧
      ¬KeepsLent smallKernel (stateAfter swallowRun) (.malloc 4096) := by
  refine ⟨smallKernel_lawful, reachable_stateAfter (by decide +kernel), by decide +kernel, ?_⟩
  rintro ⟨s', hstep, hkept⟩
  have hlent : (⟨8200, 24⟩ : Lent) ∈ (stateAfter swallowRun).lent := by decide +kernel
  have hlent' : ((step smallKernel (stateAfter swallowRun) (.malloc 4096)).getD freshState).lent =
      [⟨4104, 4096⟩, ⟨8200, 24⟩] := by decide +kernel
  have hbyte : loadByte ((step smallKernel (stateAfter swallowRun) (.malloc 4096)).getD
      freshState).heap.mem 8200 ≠ loadByte (stateAfter swallowRun).heap.mem 8200 := by
    decide +kernel
  rw [hstep, Option.getD_some] at hlent' hbyte
  have hsame := hkept ⟨8200, 24⟩ hlent (by simp [hlent']) (fun _ heq => nomatch heq)
  exact hbyte (hsame 0 (by decide))

/-! ## Free memory -/

/-- No two neighbours of the walk are both free, and a heap without lent blocks is one free
block. -/
def Coalesced (s : State) : Prop :=
  ∃ bs : List HeapBlock, Walk s.heap.mem s.heap.heapLo bs s.heap.heapHi ∧ Separated bs ∧
    ((∀ l ∈ s.lent, ¬InBrk s.heap l.ptr) → s.heap.heapLo < s.heap.heapHi →
      ∃ b, bs = [b] ∧ b.free = true)

theorem free_coalesced {K : Kernel} {s : State} (hK : K.Lawful) (h : SafelyReachable K s) :
    Coalesced s := by
  obtain ⟨bs, hs⟩ := h.sound hK
  have hhi := hs.layout.tiles.hi_eq
  refine ⟨bs, hs.layout.tiles.walk, hs.layout.topOnly.separated, fun hnone hlt => ?_⟩
  have hfree : ∀ a b, (a, b) ∈ place s.heap.heapLo bs → b.free = true := by
    intro a b hb
    cases hused : b.free with
    | true => rfl
    | false =>
      obtain ⟨l, hl, hptr⟩ := hs.used a b hb hused
      have hin := place_bounds hb
      have hleast := b.least_le
      exact absurd ⟨by omega, by omega⟩ (hnone l hl)
  cases bs with
  | nil =>
    simp only [extent_nil] at hhi
    omega
  | cons b bs =>
    have hb : b.free = true := hfree _ b List.mem_cons_self
    cases bs with
    | nil => exact ⟨b, rfl, hb⟩
    | cons c bs =>
      have hused := hs.layout.topOnly b (by simp)
      rw [hb] at hused
      cases hused

theorem orderlyRun_coalesced : Coalesced (stateAfter orderlyRun) :=
  free_coalesced smallKernel_lawful (safelyReachable_stateAfter (by decide +kernel))

/-- Of three lent blocks the third and then the first is freed. -/
def fragmentRun : List Event :=
  [.malloc 24, .malloc 24, .malloc 24, .free 12296, .free 4104]

/-- The first free block swallows the second block, and the third stays a free block of its
own. -/
theorem fragmentRun_not_coalesced :
    smallKernel.Lawful ∧ Reachable smallKernel (stateAfter fragmentRun) ∧
      ¬Coalesced (stateAfter fragmentRun) := by
  refine ⟨smallKernel_lawful, reachable_stateAfter (by decide +kernel), ?_⟩
  rintro ⟨bs, hwalk, hsep, -⟩
  have hwalk' : Walk (stateAfter fragmentRun).heap.mem (stateAfter fragmentRun).heap.heapLo
      [(⟨8192, true, by decide, by decide⟩ : HeapBlock), ⟨4096, true, by decide, by decide⟩]
      (stateAfter fragmentRun).heap.heapHi := by
    refine ⟨?_, ?_, ?_, ?_, show _ = _ from ?_⟩ <;> decide +kernel
  rw [hwalk.unique (by decide) hwalk'] at hsep
  exact (separated_cons_cons.mp hsep).1 ⟨rfl, rfl⟩

end Toylibc
