import Toylibc.Lib.Objects
import Toylibc.Lib.Simulation
import Toylibc.CallocZeroes
import Toylibc.ReallocKeeps
import Toylibc.SafeStep

/-!
# The allocator as a store of objects

What `heap.c` is for, without headers, blocks and mappings: the caller has objects, and each call
makes one, ends one or moves one. `ObjectStep` says which pointers may be answered and what is then
known of the cells. The heap refines it: every run of the heap that respects the interface and
avoids the defects, with the pointers that it answers, is a run of the store of objects, and the
memory holds all that is known of the cells.
-/

namespace Toylibc

open ByteMemory BlockList Transition Objects

/-! ## The store of objects -/

/-- A request for `n` bytes may be answered by `p`: it is refused, or `n` addresses are vacant. -/
def MayLend (o : Store UInt8) (p n : Nat) : Prop :=
  p = 0 ∨ 0 < n ∧ 8 ≤ p ∧ p + n < 2 ^ 64 ∧ o.Vacant p n

/-- A request was answered by `p`. -/
def lendObject (o : Store UInt8) (p : Nat) (v : List (Option UInt8)) : Store UInt8 :=
  if p = 0 then o else o.put p v

/-- The event may be answered by `p`. A moved object may go where it was. -/
def MayAnswer (o : Store UInt8) (p : Nat) : Event → Prop
  | .malloc sz => MayLend o p sz
  | .calloc n sz => MayLend o p (n * sz)
  | .realloc ptr newsz =>
    if ptr = 0 then MayLend o p newsz
    else if newsz = 0 then p = 0
    else MayLend (o.drop ptr) p newsz
  | .free _ => p = 0
  | .write _ _ => p = 0

/-- The objects after the event, given its answer `p`. -/
def objectsAfter (o : Store UInt8) (p : Nat) : Event → Store UInt8
  | .malloc sz => lendObject o p (List.replicate sz none)
  | .calloc n sz => lendObject o p (List.replicate (n * sz) (some 0))
  | .realloc ptr newsz =>
    if ptr = 0 then lendObject o p (List.replicate newsz none)
    else if newsz = 0 then o.drop ptr
    else if p = 0 then o
    else (o.drop ptr).put p (resize ((o ptr).getD []) newsz)
  | .free ptr => o.drop ptr
  | .write addr b => o.poke addr b

/-- One event of the store of objects, and its answer. -/
def ObjectStep (o : Store UInt8) (e : Event) (p : Nat) (o' : Store UInt8) : Prop :=
  MayAnswer o p e ∧ o' = objectsAfter o p e

/-- Every answer keeps the objects apart. -/
theorem ObjectStep.separate {o o' : Store UInt8} {e : Event} {p : Nat} (h : ObjectStep o e p o')
    (hsep : o.Separate) : o'.Separate := by
  obtain ⟨hanswer, rfl⟩ := h
  have hlend : ∀ {q : Store UInt8} {v : List (Option UInt8)}, q.Separate →
      MayLend q p v.length → p ≠ 0 → (q.put p v).Separate := by
    intro q v hq hmay hp
    obtain ⟨-, -, -, hvacant⟩ := hmay.resolve_left hp
    exact hq.put hvacant
  have hlendObject : ∀ {v : List (Option UInt8)}, MayLend o p v.length →
      (lendObject o p v).Separate := by
    intro v hmay
    unfold lendObject
    split
    · exact hsep
    · next hp => exact hlend hsep hmay hp
  cases e with
  | malloc sz => exact hlendObject (by rwa [List.length_replicate])
  | calloc n sz => exact hlendObject (by rwa [List.length_replicate])
  | realloc ptr newsz =>
    dsimp only [MayAnswer, objectsAfter] at hanswer ⊢
    by_cases hnull : ptr = 0
    · rw [if_pos hnull] at hanswer ⊢
      exact hlendObject (by rwa [List.length_replicate])
    rw [if_neg hnull] at hanswer ⊢
    by_cases hzero : newsz = 0
    · rw [if_pos hzero]
      exact hsep.drop ptr
    rw [if_neg hzero] at hanswer ⊢
    by_cases hp : p = 0
    · rw [if_pos hp]
      exact hsep
    · rw [if_neg hp]
      exact hlend (hsep.drop ptr) (by rwa [length_resize]) hp
  | free ptr => exact hsep.drop ptr
  | write addr b => exact hsep.poke addr b

/-! ## The heap and its answers -/

/-- A move loses nothing: `toylibc_realloc` of a mapping does not copy its last bytes. -/
def MovesWhole (K : Kernel) (s : State) : Event → Prop
  | .realloc ptr newsz => ∀ l ∈ s.lent, l.ptr = ptr → CopiesEnough K s.heap l newsz
  | _ => True

/-- One event of the heap and its answer, with all that the interface and the known defects ask
of it. -/
def HeapStep (K : Kernel) (s : State) (e : Event) (p : Nat) (s' : State) : Prop :=
  Respects s e ∧ AvoidsDefects K s e ∧ MovesWhole K s e ∧
    ∃ w, call K s.heap e = some (p, w) ∧ s' = ⟨w, relend s.lent p e⟩

instance (K : Kernel) (w : Heap) (l : Lent) (newsz : Nat) : Decidable (CopiesEnough K w l newsz) :=
  have : Decidable (∀ i, oldSize w l.ptr ≤ i → i < min l.size newsz →
      loadByte w.mem (l.ptr + i) = 0) :=
    decidable_of_iff (∀ i, i < min l.size newsz → oldSize w l.ptr ≤ i →
      loadByte w.mem (l.ptr + i) = 0) ⟨fun h i hi hlt => h i hlt hi, fun h i hlt hi => h i hi hlt⟩
  inferInstanceAs (Decidable (_ ∨ _ ∨ _ ∨ _ ∧ _))

instance (K : Kernel) (s : State) : (e : Event) → Decidable (MovesWhole K s e)
  | .realloc ptr newsz =>
    inferInstanceAs (Decidable (∀ l ∈ s.lent, l.ptr = ptr → CopiesEnough K s.heap l newsz))
  | .malloc _ => .isTrue trivial
  | .calloc _ _ => .isTrue trivial
  | .free _ => .isTrue trivial
  | .write _ _ => .isTrue trivial

/-- The events with their answers. -/
def answered (K : Kernel) : State → List Event → List (Event × Nat)
  | _, [] => []
  | s, e :: es =>
    (e, ((call K s.heap e).map Prod.fst).getD 0) :: answered K ((step K s e).getD s) es

theorem trace_answered {K : Kernel} {s : State} {es : List Event}
    (h : Legal (fun s e => Respects s e ∧ AvoidsDefects K s e ∧ MovesWhole K s e) (step K) s es) :
    Trace (HeapStep K) s (answered K s es) (follow (step K) s es) := by
  induction es generalizing s with
  | nil => exact .nil
  | cons e es ih =>
    obtain ⟨⟨hr, ha, hwhole⟩, hsome, hrest⟩ := h
    refine .cons ⟨hr, ha, hwhole, ?_⟩ (ih hrest)
    obtain ⟨s', hstep⟩ := Option.isSome_iff_exists.mp hsome
    obtain ⟨p, w, hcall, rfl⟩ := call_of_step hstep
    rw [hcall, hstep]
    exact ⟨w, rfl, rfl⟩

/-- The objects are what is lent, and the memory holds what is known of them. -/
structure Represents (m : Mem) (lent : List Lent) (o : Store UInt8) : Prop where
  lent_iff : ∀ p n, (⟨p, n⟩ : Lent) ∈ lent ↔ (o p).map List.length = some n
  holds : o.Holds (loadByte m)

section

variable {m m' : Mem} {lent : List Lent} {o : Store UInt8}

theorem Represents.mem_lent (h : Represents m lent o) {a : Nat} {v : List (Option UInt8)}
    (hv : o a = some v) : (⟨a, v.length⟩ : Lent) ∈ lent :=
  (h.lent_iff a v.length).mpr (by rw [hv, Option.map_some])

theorem Represents.frame (h : Represents m lent o) (hkept : ∀ l ∈ lent, Untouched m m' l) :
    Represents m' lent o :=
  ⟨h.lent_iff, h.holds.congr fun _ _ hv i hi => hkept _ (h.mem_lent hv) i hi⟩

theorem Represents.drop (h : Represents m lent o) (ptr : Nat) :
    Represents m (giveBack ptr lent) (o.drop ptr) where
  lent_iff p n := by
    rw [mem_giveBack, h.lent_iff]
    by_cases hp : p = ptr
    · subst hp
      simp
    · rw [Store.drop_of_ne hp]
      exact and_iff_left hp
  holds := h.holds.drop ptr

theorem Represents.put (h : Represents m lent o) {p : Nat} {v : List (Option UInt8)}
    (hnew : ∀ l ∈ lent, p ≠ l.ptr) (hv : ∀ i b, v[i]? = some (some b) → loadByte m (p + i) = b) :
    Represents m (⟨p, v.length⟩ :: lent) (o.put p v) where
  lent_iff q n := by
    rw [List.mem_cons, Lent.mk.injEq, h.lent_iff]
    by_cases hq : q = p
    · subst hq
      have hnone : o q = none := by
        cases ho : o q with
        | none => rfl
        | some v' => exact absurd rfl (hnew _ (h.mem_lent ho))
      simp [hnone, eq_comm]
    · rw [Store.put_of_ne hq]
      simp [hq]
  holds := (h.holds.drop p).put hv

theorem Represents.poke (h : Represents m lent o) {x : Nat} {b : UInt8} (hx : x < space)
    (hlent : ∀ l ∈ lent, l.ptr + l.size < 2 ^ 64) :
    Represents (storeByte m x b) lent (o.poke x b) where
  lent_iff p n := by rw [h.lent_iff, Store.poke_length]
  holds := by
    refine h.holds.poke (loadByte_storeByte_same m hx b) fun a v hv i hi hne => ?_
    have hin := hlent _ (h.mem_lent hv)
    have hlt : a + i < 2 ^ 64 := by
      dsimp only at hin
      omega
    exact loadByte_storeByte_ne m (a := x) hx hlt hne b

end

section

variable {K : Kernel} {s : State} {o : Store UInt8} {bs : List HeapBlock}

/-- What is lent is lent at vacant addresses. -/
theorem Represents.mayLend {m : Mem} {w : Heap} {lent : List Lent} {p n : Nat}
    (h : Represents m lent o) (hs : Sound K ⟨w, ⟨p, n⟩ :: lent⟩ bs) (hpos : 0 < n) :
    MayLend o p n := by
  have hnew : (⟨p, n⟩ : Lent) ∈ (⟨p, n⟩ :: lent : List Lent) := List.mem_cons_self
  have hlt := hs.ptr_lt hnew
  refine .inr ⟨hpos, hlt.1, hlt.2, fun a v hv => ?_⟩
  have hl := h.mem_lent hv
  have hne : p ≠ a := (List.pairwise_cons.mp hs.distinct).1 _ hl
  refine ⟨hne.symm, ?_⟩
  have hapart := hs.lent_apart (List.mem_cons_of_mem _ hl) hnew hne.symm
  exact hapart.mono (Nat.sub_le _ _) (Nat.le_refl _) (Nat.sub_le _ _) (Nat.le_refl _)

/-- A request is answered: by `NULL`, or by an object with the cells `v`. -/
theorem Represents.lend (h : Represents s.heap.mem s.lent o) {w : Heap} {p : Nat}
    (v : List (Option UInt8)) (hzero : v.length = 0 → p = 0)
    (hs : ∃ bs, Sound K ⟨w, Toylibc.lend p v.length s.lent⟩ bs)
    (hkept : ∀ l ∈ s.lent, Untouched s.heap.mem w.mem l)
    (hv : ∀ i b, v[i]? = some (some b) → loadByte w.mem (p + i) = b) :
    MayLend o p v.length ∧
      Represents w.mem (Toylibc.lend p v.length s.lent) (lendObject o p v) := by
  unfold Toylibc.lend at hs ⊢
  unfold lendObject
  have hframe := h.frame hkept
  split_ifs at hs ⊢ with hp
  · exact ⟨.inl hp, hframe⟩
  · obtain ⟨bs, hs⟩ := hs
    refine ⟨h.mayLend hs (Nat.pos_of_ne_zero fun hbad => hp (hzero hbad)), ?_⟩
    exact hframe.put (List.pairwise_cons.mp hs.distinct).1 hv

theorem unknown_of_replicate {n i : Nat} {b : UInt8} {P : Prop}
    (h : (List.replicate n (none : Option UInt8))[i]? = some (some b)) : P := by
  rw [List.getElem?_replicate] at h
  split at h <;> cases h

/-! ## One event -/

theorem malloc_simulates (hK : K.Lawful) (hs : Sound K s bs) (h : Represents s.heap.mem s.lent o)
    {sz p : Nat} {w : Heap} (hsz : sz < 2 ^ 63) (hclean : AllocAvoids K s.heap sz)
    (hcall : toylibcMalloc K s.heap sz = some (p, w)) :
    MayLend o p sz ∧
      Represents w.mem (lend p sz s.lent) (lendObject o p (List.replicate sz none)) := by
  obtain ⟨p', w', hmalloc, ⟨hsound, hkept, -⟩, -, -⟩ := malloc_sound hK hs hsz hclean
  rw [hcall, Option.some.injEq, Prod.mk.injEq] at hmalloc
  obtain ⟨rfl, rfl⟩ := hmalloc
  have hzero : sz = 0 → p = 0 := by
    rintro rfl
    exact (Prod.mk.inj (Option.some.inj hcall)).1.symm
  have hlend := h.lend (List.replicate sz none) (by rwa [List.length_replicate])
    (by rwa [List.length_replicate]) hkept fun _ _ => unknown_of_replicate
  rwa [List.length_replicate] at hlend

/-- The cells of a new array are cleared. -/
theorem toylibcCalloc_zero {w w' : Heap} {n sz p i : Nat}
    (hcall : toylibcCalloc K w n sz = some (p, w')) (hp : p ≠ 0) (htop : p + n * sz < 2 ^ 64)
    (hi : i < n * sz) : loadByte w'.mem (p + i) = 0 := by
  obtain ⟨w₁, -, hcases⟩ := toylibcCalloc_cases (by omega) hcall
  obtain ⟨-, rfl⟩ := hcases.resolve_left fun hbad => hp hbad.1
  exact (memset_zeroed w₁.mem (show p + n * sz ≤ space from Nat.le_of_lt htop)).zero i hi

theorem calloc_simulates (hK : K.Lawful) (hs : Sound K s bs) (h : Represents s.heap.mem s.lent o)
    {n sz p : Nat} {w : Heap} (hr : Respects s (.calloc n sz))
    (ha : AvoidsDefects K s (.calloc n sz)) (hcall : toylibcCalloc K s.heap n sz = some (p, w)) :
    MayLend o p (n * sz) ∧ Represents w.mem (lend p (n * sz) s.lent)
      (lendObject o p (List.replicate (n * sz) (some 0))) := by
  obtain ⟨p', w', hcalloc, hsound, hkept⟩ := calloc_sound hK hs hr ha
  rw [hcall, Option.some.injEq, Prod.mk.injEq] at hcalloc
  obtain ⟨rfl, rfl⟩ := hcalloc
  by_cases hp : p = 0
  · subst hp
    exact ⟨.inl rfl, h.frame hkept⟩
  · have hlt : p + n * sz < 2 ^ 64 := by
      obtain ⟨bs', hsound⟩ := hsound
      rw [lend, if_neg hp] at hsound
      exact (hsound.ptr_lt List.mem_cons_self).2
    have hpos : n * sz = 0 → p = 0 := by
      intro hzero
      rw [toylibcCalloc_fits (by omega), hzero] at hcall
      exact (Prod.mk.inj (Option.some.inj hcall)).1.symm
    have hlend := h.lend (List.replicate (n * sz) (some 0)) (by rwa [List.length_replicate])
      (by rwa [List.length_replicate]) hkept fun i b hb => by
        rw [List.getElem?_replicate] at hb
        split at hb
        · next hi =>
          rw [toylibcCalloc_zero hcall hp hlt hi]
          exact Option.some.inj (Option.some.inj hb)
        · cases hb
    rwa [List.length_replicate] at hlend

/-- Nothing is lost by `toylibc_realloc`, on all its routes. -/
theorem Sound.reallocKeeps (hK : K.Lawful) (hs : Sound K s bs) (hw : Hosted K s.heap) {l : Lent}
    (hl : l ∈ s.lent) {newsz : Nat} (hpos : 0 < newsz) (hlt : newsz < 2 ^ 63)
    (henough : CopiesEnough K s.heap l newsz) : ReallocKeeps K s.heap l newsz := by
  have htiles := hs.layout.tiles
  have hbacked := hs.backed l hl
  by_cases hbig : mmapLimit ≤ newsz
  · exact (large_keeps_iff hK hw htiles hbacked hbig hlt).mpr henough
  · by_cases hstay : StaysInPlace s.heap l.ptr newsz
    · exact stay_keeps htiles (by have := hw.hi_lt; omega) hbacked hw.maps_user hpos hstay
    · exact small_keeps hK hw htiles hbacked hpos (Nat.lt_of_not_le hbig) hstay

/-- A block that cannot be moved stays as it is. -/
theorem toylibcRealloc_null {ptr newsz : Nat} {w w' : Heap} (hptr : ptr ≠ 0) (hsz : newsz ≠ 0)
    (hcall : toylibcRealloc K w ptr newsz = some (0, w')) :
    ¬StaysInPlace w ptr newsz ∧ toylibcMalloc K w newsz = some (0, w') := by
  have hstay : ¬StaysInPlace w ptr newsz := by
    intro hstay
    rw [toylibcRealloc_stay hptr hsz hstay, Option.some.injEq, Prod.mk.injEq] at hcall
    exact hptr hcall.1
  refine ⟨hstay, ?_⟩
  rw [toylibcRealloc_move hptr hsz hstay] at hcall
  obtain ⟨w₁, hmalloc, ⟨-, rfl⟩ | ⟨hp, -⟩⟩ := reallocMove_cases hcall
  · exact hmalloc
  · exact absurd rfl hp

/-- The move of a lent block, of which nothing is lost. -/
theorem move_simulates (hK : K.Lawful) (hs : Sound K s bs) (hw : Hosted K s.heap)
    (h : Represents s.heap.mem s.lent o) {l : Lent} (hl : l ∈ s.lent) {newsz p : Nat} {w : Heap}
    (hr : Respects s (.realloc l.ptr newsz)) (ha : AvoidsDefects K s (.realloc l.ptr newsz))
    (henough : CopiesEnough K s.heap l newsz) (hpos : 0 < newsz)
    (hcall : toylibcRealloc K s.heap l.ptr newsz = some (p, w)) :
    MayLend (o.drop l.ptr) p newsz ∧
      Represents w.mem (if p = 0 then s.lent else ⟨p, newsz⟩ :: giveBack l.ptr s.lent)
        (if p = 0 then o else (o.drop l.ptr).put p (resize ((o l.ptr).getD []) newsz)) := by
  have hnull : l.ptr ≠ 0 := ptr_ne_zero_of_backed (hs.backed l hl)
  have hzero : newsz ≠ 0 := Nat.pos_iff_ne_zero.mp hpos
  by_cases hp : p = 0
  · subst hp
    obtain ⟨hstay, hmalloc⟩ := toylibcRealloc_null hnull hzero hcall
    dsimp only [AvoidsDefects] at ha
    rw [if_neg hnull, if_neg hzero] at ha
    obtain ⟨p', w', hmalloc', ⟨-, hkept, -⟩, -, -⟩ :=
      malloc_sound hK hs hr.1 (ha.resolve_left hstay).1
    rw [hmalloc, Option.some.injEq, Prod.mk.injEq] at hmalloc'
    obtain ⟨rfl, rfl⟩ := hmalloc'
    rw [if_pos rfl, if_pos rfl]
    exact ⟨.inl rfl, h.frame hkept⟩
  · obtain ⟨p', w', hrealloc, ⟨bs', hsound⟩, hkept⟩ := realloc_sound hK hs hr ha
    rw [hcall, Option.some.injEq, Prod.mk.injEq] at hrealloc
    obtain ⟨rfl, rfl⟩ := hrealloc
    dsimp only [relend] at hsound
    rw [if_neg hnull, if_neg hzero, if_neg hp] at hsound
    rw [if_neg hp, if_neg hp]
    obtain ⟨-, hbytes⟩ := hs.reallocKeeps hK hw hl hpos hr.1 henough p w hcall hp
    obtain ⟨v, hv, hlen⟩ := Option.map_eq_some_iff.mp ((h.lent_iff l.ptr l.size).mp hl)
    have hback := (h.drop l.ptr).frame fun l' hl' =>
      hkept l' (mem_giveBack.mp hl').1 (mem_giveBack.mp hl').2
    refine ⟨hback.mayLend hsound hpos, ?_⟩
    have hput := hback.put (p := p) (v := resize ((o l.ptr).getD []) newsz)
      (List.pairwise_cons.mp hsound.distinct).1 fun i b hb => by
        rw [hv, Option.getD_some] at hb
        obtain ⟨hi, hb⟩ := getElem?_resize hb
        rw [hbytes i (by omega)]
        exact h.holds l.ptr v hv i b hb
    rwa [length_resize] at hput

end

/-! ## Runs -/

/-- What holds between a state of the heap and a store of objects. -/
structure Refines (K : Kernel) (s : State) (o : Store UInt8) : Prop where
  hosted : Hosted K s.heap
  sound : ∃ bs, Sound K s bs
  represents : Represents s.heap.mem s.lent o

theorem Fresh.refines {K : Kernel} (hK : K.Lawful) {s : State} (h : Fresh s) :
    Refines K s Store.empty where
  hosted := Reachable.hosted hK (.start h)
  sound := ⟨[], h.sound hK⟩
  represents := by
    obtain ⟨-, -, -, -, hlent⟩ := h
    rw [hlent]
    exact ⟨fun p n => iff_of_false List.not_mem_nil (Option.some_ne_none _).symm,
      Store.holds_empty _⟩

/-- The store of objects takes each event with the same answer. -/
theorem Refines.step {K : Kernel} (hK : K.Lawful) {s s' : State} {o : Store UInt8} {e : Event}
    {p : Nat} (h : Refines K s o) (hstep : HeapStep K s e p s') :
    ∃ o', ObjectStep o e p o' ∧ Refines K s' o' := by
  obtain ⟨hr, ha, hwhole, w, hcall, rfl⟩ := hstep
  obtain ⟨hw, ⟨bs, hs⟩, hrep⟩ := h
  have hsound : ∃ bs', Sound K ⟨w, relend s.lent p e⟩ bs' := by
    obtain ⟨s', bs', hstep, hs'⟩ := step_sound hK hs hr ha
    rw [Toylibc.step, hcall, Option.some.injEq] at hstep
    exact ⟨bs', hstep ▸ hs'⟩
  have hhosted : Hosted K w := (hosted_kept hK).call hw hcall
  suffices hboth : MayAnswer o p e ∧ Represents w.mem (relend s.lent p e) (objectsAfter o p e) from
    ⟨_, ⟨hboth.1, rfl⟩, hhosted, hsound, hboth.2⟩
  cases e with
  | malloc sz => exact malloc_simulates hK hs hrep hr ha hcall
  | calloc n sz => exact calloc_simulates hK hs hrep hr ha hcall
  | realloc ptr newsz =>
    dsimp only [MayAnswer, relend, objectsAfter]
    by_cases hnull : ptr = 0
    · dsimp only [AvoidsDefects] at ha
      rw [if_pos hnull] at ha ⊢
      rw [if_pos hnull, if_pos hnull]
      rw [call, toylibcRealloc, if_pos hnull] at hcall
      exact malloc_simulates hK hs hrep hr.1 ha hcall
    rw [if_neg hnull, if_neg hnull, if_neg hnull]
    obtain ⟨l, hl, rfl⟩ := hr.2.resolve_left hnull
    by_cases hzero : newsz = 0
    · subst hzero
      obtain ⟨p', w', hfree, -, hkept⟩ := realloc_sound hK hs hr ha
      rw [show toylibcRealloc K s.heap l.ptr 0 = some (p, w) from hcall, Option.some.injEq,
        Prod.mk.injEq] at hfree
      obtain ⟨rfl, rfl⟩ := hfree
      rw [if_pos rfl, if_pos rfl, if_pos rfl]
      rw [call, toylibcRealloc, if_neg hnull, if_pos rfl] at hcall
      refine ⟨(Prod.mk.inj (Option.some.inj hcall)).1.symm, (hrep.drop l.ptr).frame ?_⟩
      exact fun l' hl' => hkept l' (mem_giveBack.mp hl').1 (mem_giveBack.mp hl').2
    · rw [if_neg hzero, if_neg hzero, if_neg hzero]
      exact move_simulates hK hs hw hrep hl hr ha (hwhole l hl rfl) (Nat.pos_of_ne_zero hzero) hcall
  | free ptr =>
    obtain ⟨p', w', hfree, -, hkept⟩ := call_sound hK hs (e := .free ptr) trivial hr ha
    rw [hcall, Option.some.injEq, Prod.mk.injEq] at hfree
    obtain ⟨rfl, rfl⟩ := hfree
    refine ⟨(Prod.mk.inj (Option.some.inj hcall)).1.symm, (hrep.drop ptr).frame ?_⟩
    exact fun l hl => hkept l (mem_giveBack.mp hl).1 (mem_giveBack.mp hl).2
  | write addr b =>
    rw [call, Option.some.injEq, Prod.mk.injEq] at hcall
    obtain ⟨rfl, rfl⟩ := hcall
    obtain ⟨l, hl, i, hi, rfl⟩ := hr
    exact ⟨rfl, hrep.poke (Nat.mod_lt _ (by decide)) fun l hl => (hs.ptr_lt hl).2⟩

end Toylibc
