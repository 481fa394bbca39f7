import Toylibc.SafeRun

/-!
# The public functions in a run that avoids the defects

From a sound state each public function returns, leaves a sound state, and keeps the bytes
of every lent range but the one it was given. `step_sound` collects them;
`SafelyReachable.sound` is the result for whole runs.
-/

namespace Toylibc

open ByteMemory BlockList Transition

section

variable {K : Kernel} {s : State} {bs : List HeapBlock}

/-- `toylibc_malloc`. -/
theorem malloc_sound (hK : K.Lawful) (h : Sound K s bs) {sz : Nat} (hsz : sz < 2 ^ 63)
    (hclean : AllocAvoids K s.heap sz) :
    ∃ p w', toylibcMalloc K s.heap sz = some (p, w') ∧ AllocSound K s sz p w' ∧
      (Unserved K s.heap sz → p = 0) ∧
      (mmapLimit ≤ sz → w'.heapLo = s.heap.heapLo ∧ w'.heapHi = s.heap.heapHi ∧
        (p = 0 ∨ ¬InBrk s.heap p)) := by
  unfold AllocAvoids at hclean
  unfold toylibcMalloc
  by_cases hzero : sz = 0
  · rw [if_pos hzero]
    exact ⟨0, s.heap, rfl, ⟨⟨bs, h⟩, fun l _ => Untouched.refl _ l, List.Subset.refl _⟩,
      fun _ => rfl, fun _ => ⟨rfl, rfl, .inl rfl⟩⟩
  rw [if_neg hzero] at hclean ⊢
  by_cases hbig : mmapLimit ≤ sz
  · rw [if_pos hbig] at hclean ⊢
    obtain ⟨hsound, hrefused, hplace⟩ := mallocMap_sound hK h hsz hbig hclean
    refine ⟨_, _, rfl, hsound, fun hun => hrefused ?_, fun _ => hplace⟩
    rwa [Unserved, if_pos hbig] at hun
  · rw [if_neg hbig] at hclean ⊢
    obtain ⟨hready, hmem, hok, hmaps⟩ := h.ready hK
    rw [Unserved, if_neg hbig] at hclean ⊢
    obtain ⟨p, w', halloc, ⟨hsound, hkept, hsub⟩, hrefused⟩ :=
      brkAlloc_sound hK hready hok (Nat.lt_of_not_le hbig) hclean
    dsimp only at hkept hsub
    rw [hmem] at hkept
    rw [hmaps] at hsub
    exact ⟨p, w', halloc, ⟨hsound, hkept, hsub⟩, hrefused, fun hbad => absurd hbad hbig⟩

/-- `toylibc_calloc`. -/
theorem calloc_sound (hK : K.Lawful) (h : Sound K s bs) {n sz : Nat}
    (hr : Respects s (.calloc n sz)) (ha : AvoidsDefects K s (.calloc n sz)) :
    ∃ p w', toylibcCalloc K s.heap n sz = some (p, w') ∧
      (∃ bs', Sound K ⟨w', lend p (n * sz) s.lent⟩ bs') ∧
      ∀ l ∈ s.lent, Untouched s.heap.mem w'.mem l := by
  rcases hr.2.2 with hsmall | hoverflow
  · rw [toylibcCalloc_fits (by omega)]
    obtain ⟨p, w', hmalloc, ⟨⟨bs', hsound⟩, hkept, -⟩, -, -⟩ :=
      malloc_sound hK h hsmall (ha (by omega))
    simp only [hmalloc]
    by_cases hnull : p = 0
    · subst hnull
      exact ⟨0, w', rfl, ⟨bs', hsound⟩, hkept⟩
    · rw [if_neg hnull]
      have hlend : lend p (n * sz) s.lent = ⟨p, n * sz⟩ :: s.lent := if_neg hnull
      rw [hlend] at hsound
      have hl : (⟨p, n * sz⟩ : Lent) ∈ (⟨p, n * sz⟩ :: s.lent : List Lent) := List.mem_cons_self
      have hlt := hsound.ptr_lt hl
      dsimp only at hlt
      have hfill := fillUp_sameOutside w'.mem p (UInt8.ofInt 0) 0 (n * sz)
        (show p + 0 + n * sz ≤ 2 ^ 64 by omega)
      obtain ⟨hfilled, hothers⟩ := hsound.store hl hfill
      refine ⟨p, _, rfl, ⟨bs', by rw [hlend]; exact hfilled⟩, fun l hl' => ?_⟩
      have hne := (List.pairwise_cons.mp hsound.distinct).1 l hl'
      exact (hkept l hl').trans (hothers l (List.mem_cons_of_mem _ hl') hne.symm)
  · rw [toylibcCalloc_overflow hoverflow]
    exact ⟨0, s.heap, rfl, ⟨bs, h⟩, fun l _ => Untouched.refl _ l⟩

/-- After the new block was handed out, the old one is still the topmost one, or a mapping. -/
theorem freeAvoids_moved (h : Sound K s bs) {l : Lent} (hl : l ∈ s.lent) {newsz p : Nat}
    {w' : Heap} {bs' : List HeapBlock} (m' : Mem)
    (hsound : Sound K ⟨w', ⟨p, newsz⟩ :: s.lent⟩ bs')
    (hmaps : mapsAfter s.heap.log ⊆ mapsAfter w'.log)
    (htop : InBrk s.heap l.ptr → w'.heapLo = s.heap.heapLo ∧ w'.heapHi = s.heap.heapHi ∧
      ¬InBrk s.heap p ∧ FreeAvoids s l.ptr) :
    FreeAvoids ⟨{ w' with mem := m' }, ⟨p, newsz⟩ :: s.lent⟩ l.ptr := by
  intro hin l' hl' hin'
  dsimp only [InBrk] at hin hin'
  by_cases hbrk : InBrk s.heap l.ptr
  · obtain ⟨hlo, hhi, hout, hclean⟩ := htop hbrk
    rw [hlo, hhi] at hin'
    cases hl' with
    | head => exact absurd hin' hout
    | tail _ hl' => exact hclean hbrk l' hl' hin'
  · rcases h.backed l hl with ⟨a, b, hptr, hb, -, hsize⟩ | ⟨a, n, hptr, hmap, -, hbig, -⟩
    · have hbounds := place_bounds hb
      have hhi := h.layout.tiles.hi_eq
      exact absurd ⟨by omega, by omega⟩ hbrk
    · unfold mmapLimit at hbig
      exact absurd ⟨by omega, by dsimp only; omega⟩
        (hsound.layout.maps_heap _ (hmaps hmap) l.ptr hin.1 hin.2)

/-- The new block of `toylibc_realloc`. -/
theorem reallocMove_sound (hK : K.Lawful) (h : Sound K s bs) {l : Lent} (hl : l ∈ s.lent)
    {newsz cp : Nat} (hsz : newsz < 2 ^ 63) (hcp : cp ≤ newsz)
    (hclean : AllocAvoids K s.heap newsz)
    (hfree : InBrk s.heap l.ptr →
      Unserved K s.heap newsz ∨ mmapLimit ≤ newsz ∧ FreeAvoids s l.ptr) :
    ∃ p w', reallocMove K s.heap l.ptr newsz cp = some (p, w') ∧
      (∃ bs', Sound K ⟨w', if p = 0 then s.lent else ⟨p, newsz⟩ :: giveBack l.ptr s.lent⟩ bs') ∧
      ∀ l' ∈ s.lent, l'.ptr ≠ l.ptr → Untouched s.heap.mem w'.mem l' := by
  obtain ⟨p, w', hmalloc, ⟨⟨bs', hsound⟩, hkept, hmaps⟩, hrefused, hplace⟩ :=
    malloc_sound hK h hsz hclean
  simp only [reallocMove, hmalloc]
  by_cases hnull : p = 0
  · subst hnull
    exact ⟨0, w', rfl, ⟨bs', hsound⟩, fun l' hl' _ => hkept l' hl'⟩
  rw [if_neg hnull]
  have hlend : lend p newsz s.lent = ⟨p, newsz⟩ :: s.lent := if_neg hnull
  rw [hlend] at hsound
  -- the copy goes into the new range
  have hnew : (⟨p, newsz⟩ : Lent) ∈ (⟨p, newsz⟩ :: s.lent : List Lent) := List.mem_cons_self
  have hlt := hsound.ptr_lt hnew
  dsimp only at hlt
  have hcopy := copyUp_sameOutside w'.mem p l.ptr 0 cp (show p + 0 + cp ≤ 2 ^ 64 by omega)
  obtain ⟨hcopied, hothers⟩ := hsound.store hnew (hcopy.mono (Nat.le_refl _) (by dsimp only; omega))
  have hdistinct := (List.pairwise_cons.mp hsound.distinct).1
  have hclean' := freeAvoids_moved h hl (copyUp w'.mem p l.ptr 0 cp) hsound hmaps fun hbrk => by
    rcases hfree hbrk with hun | ⟨hbig, htop⟩
    · exact absurd (hrefused hun) hnull
    · obtain ⟨hlo, hhi, hp⟩ := hplace hbig
      exact ⟨hlo, hhi, hp.resolve_left hnull, htop⟩
  obtain ⟨hfreed, hfinal⟩ := hcopied.free (List.mem_cons_of_mem _ hl) hclean'
  refine ⟨p, _, rfl, ?_, fun l' hl' hne => ?_⟩
  · have hback : giveBack l.ptr (⟨p, newsz⟩ :: s.lent) = ⟨p, newsz⟩ :: giveBack l.ptr s.lent := by
      simp [giveBack, hdistinct l hl]
    rw [if_neg hnull, ← hback]
    exact hfreed
  · have hne' := hdistinct l' hl'
    exact ((hkept l' hl').trans (hothers l' (List.mem_cons_of_mem _ hl') hne'.symm)).trans
      (hfinal l' (List.mem_cons_of_mem _ hl') hne)

/-- `toylibc_realloc`. -/
theorem realloc_sound (hK : K.Lawful) (h : Sound K s bs) {ptr newsz : Nat}
    (hr : Respects s (.realloc ptr newsz)) (ha : AvoidsDefects K s (.realloc ptr newsz)) :
    ∃ p w', toylibcRealloc K s.heap ptr newsz = some (p, w') ∧
      (∃ bs', Sound K ⟨w', relend s.lent p (.realloc ptr newsz)⟩ bs') ∧
      ∀ l ∈ s.lent, l.ptr ≠ ptr → Untouched s.heap.mem w'.mem l := by
  obtain ⟨hsz, howned⟩ := hr
  unfold AvoidsDefects at ha
  unfold relend
  by_cases hnull : ptr = 0
  · simp only [if_pos hnull] at ha ⊢
    obtain ⟨p, w', hmalloc, ⟨hsound, hkept, -⟩, -, -⟩ := malloc_sound hK h hsz ha
    exact ⟨p, w', (if_pos hnull).trans hmalloc, hsound, fun l hl _ => hkept l hl⟩
  simp only [if_neg hnull] at ha ⊢
  obtain ⟨l, hl, rfl⟩ := howned.resolve_left hnull
  by_cases hzero : newsz = 0
  · simp only [if_pos hzero] at ha ⊢
    obtain ⟨hsound, hkept⟩ := h.free hl ha
    exact ⟨0, _, (if_neg hnull).trans (if_pos hzero), hsound, hkept⟩
  simp only [if_neg hzero] at ha ⊢
  by_cases hstay : StaysInPlace s.heap l.ptr newsz
  · rw [toylibcRealloc_stay hnull hzero hstay]
    refine ⟨l.ptr, s.heap, rfl, ?_, fun l' _ _ => Untouched.refl _ l'⟩
    rw [if_neg hnull]
    have hlt := h.ptr_lt hl
    obtain ⟨hsmall, hfit⟩ := hstay
    rcases h.backed l hl with ⟨a, b, hptr, hb, hused, -⟩ | ⟨a, n, hptr, hmap, hword, hbig, -⟩
    · have hleast := b.least_le
      have hin := place_bounds hb
      have hhi := h.layout.tiles.hi_eq
      have htop := h.layout.hi_lt
      have hold := oldSize_eq (h.layout.tiles.walk.header_of_mem hb).1 (by omega) (by omega)
      rw [hptr] at hfit ⊢
      exact ⟨bs, h.resize hb hused (by omega)⟩
    · have huser : a + n ≤ userTop := h.layout.maps_user _ hmap
      unfold userTop at huser
      unfold mmapLimit overhead at *
      have hold := oldSize_eq hword (by omega) (by omega)
      rw [hptr] at hsmall
      omega
  · obtain ⟨hclean, hfree⟩ := ha.resolve_left hstay
    rw [toylibcRealloc_move hnull hzero hstay]
    exact reallocMove_sound hK h hl hsz (Nat.min_le_right _ _) hclean hfree

/-! ## Steps and runs -/

/-- The pointer that the event takes from the caller. -/
def Event.taken : Event → Nat
  | .realloc ptr _ => ptr
  | .free ptr => ptr
  | _ => 0

/-- The event is a call of a public function. -/
def Event.IsCall : Event → Prop
  | .write _ _ => False
  | _ => True

/-- A call returns, and leaves what it keeps untouched. -/
theorem call_sound (hK : K.Lawful) (h : Sound K s bs) {e : Event} (hcall : e.IsCall)
    (hr : Respects s e) (ha : AvoidsDefects K s e) :
    ∃ p w', call K s.heap e = some (p, w') ∧ (∃ bs', Sound K ⟨w', relend s.lent p e⟩ bs') ∧
      ∀ l ∈ s.lent, l.ptr ≠ e.taken → Untouched s.heap.mem w'.mem l := by
  cases e with
  | malloc sz =>
    obtain ⟨p, w', hmalloc, ⟨hsound, hkept, -⟩, -, -⟩ := malloc_sound hK h hr ha
    exact ⟨p, w', hmalloc, hsound, fun l hl _ => hkept l hl⟩
  | calloc n sz =>
    obtain ⟨p, w', hcalloc, hsound, hkept⟩ := calloc_sound hK h hr ha
    exact ⟨p, w', hcalloc, hsound, fun l hl _ => hkept l hl⟩
  | realloc ptr newsz => exact realloc_sound hK h hr ha
  | free ptr =>
    rcases hr with rfl | ⟨l, hl, rfl⟩
    · have hfilter : giveBack 0 s.lent = s.lent := by
        refine List.filter_eq_self.mpr fun l hl => ?_
        have := (h.ptr_lt hl).1
        simp only [ne_eq, decide_not, Bool.not_eq_true', decide_eq_false_iff_not]
        omega
      refine ⟨0, s.heap, by simp [call, toylibcFree], ⟨bs, ?_⟩, fun l _ _ => Untouched.refl _ l⟩
      rw [relend, hfilter]
      exact h
    · obtain ⟨hsound, hkept⟩ := h.free hl ha
      exact ⟨0, _, rfl, hsound, hkept⟩
  | write addr b => exact hcall.elim

/-- Every event of such a run returns and keeps the invariant. -/
theorem step_sound (hK : K.Lawful) (h : Sound K s bs) {e : Event} (hr : Respects s e)
    (ha : AvoidsDefects K s e) : ∃ s' bs', step K s e = some s' ∧ Sound K s' bs' := by
  by_cases hcall : e.IsCall
  · obtain ⟨p, w', hreturn, ⟨bs', hsound⟩, -⟩ := call_sound hK h hcall hr ha
    exact ⟨_, bs', by simp only [step, hreturn], hsound⟩
  · cases e with
    | write addr b =>
      obtain ⟨l, hl, i, hi, rfl⟩ := hr
      have hlt := h.ptr_lt hl
      rw [Nat.mod_eq_of_lt (by omega)]
      have hstore := storeByte_sameOutside s.heap.mem (show l.ptr + i < 2 ^ 64 by omega) b
      exact ⟨_, bs, rfl, (h.store hl (hstore.mono (by omega) (by omega))).1⟩
    | _ => exact absurd trivial hcall

theorem Fresh.sound (hK : K.Lawful) (h : Fresh s) : Sound K s [] := by
  have hplaced := h.placed hK
  obtain ⟨hlo, hhi, -, -, hlent⟩ := h
  refine ⟨⟨hplaced, hlo.trans hhi.symm, ?_⟩, by simp [hlent], by simp [place], by simp [hlent]⟩
  simp [FreeOnlyLast]

/-- The invariant holds in every state that a run reaches which respects the interface and
avoids the defects. -/
theorem SafelyReachable.sound (hK : K.Lawful) (h : SafelyReachable K s) : ∃ bs, Sound K s bs := by
  refine Reach.invariant (fun s => ∃ bs, Sound K s bs) ?_ ?_ h
  · exact fun s hfresh => ⟨[], hfresh.sound hK⟩
  · rintro s e s' ⟨bs, hs⟩ ⟨hr, ha⟩ hstep
    obtain ⟨s'', bs', hstep', hsound⟩ := step_sound hK hs hr ha
    rw [hstep] at hstep'
    cases hstep'
    exact ⟨bs', hsound⟩

end

end Toylibc
