import Toylibc.Heap
import Toylibc.Lib.Transition

/-!
# Runs of the allocator

A run starts on the uninitialised heap and takes one event after the other: a call of a
public function of `heap.c`, or a store of the caller. Beside the heap the state lists
what is lent to the caller. The interface (`Respects`) asks three things of the caller:
requests stay below `2 ^ 63`, only `NULL` or a lent pointer is freed or reallocated, and
stores stay inside the requested bytes.

Not every such run goes well. Four places of `heap.c` break the heap, and `AvoidsDefects`
says of one event that it reaches none of them:

* `brk_release` and `merge` clear the ALLOC bit of the block behind the freed one;
* the split in `brk_alloc` marks the rest as behind a free block, which it is not;
* `brk_grow` answers the address of the new block also when it was fused;
* `toylibc_malloc` takes every `-errno` but `-1` for a mapping.
-/

namespace Toylibc

open ByteMemory Transition

/-- A pointer lent to the caller, and the number of bytes requested. -/
structure Lent where
  ptr : Nat
  size : Nat
deriving DecidableEq

structure State where
  heap : Heap
  lent : List Lent

inductive Event
  | malloc (sz : Nat)
  | calloc (n sz : Nat)
  | realloc (ptr newsz : Nat)
  | free (ptr : Nat)
  | write (addr : Nat) (b : UInt8)
deriving DecidableEq

/-- `ptr` is no longer lent. -/
def giveBack (ptr : Nat) (lent : List Lent) : List Lent := lent.filter fun l => l.ptr ≠ ptr

/-- A call for `sz` bytes answered `ptr`. -/
def lend (ptr sz : Nat) (lent : List Lent) : List Lent :=
  if ptr = 0 then lent else ⟨ptr, sz⟩ :: lent

/-- The result and the heap after the event. A store has the result `0`. -/
def call (K : Kernel) (w : Heap) : Event → Option (Nat × Heap)
  | .malloc sz => toylibcMalloc K w sz
  | .calloc n sz => toylibcCalloc K w n sz
  | .realloc ptr newsz => toylibcRealloc K w ptr newsz
  | .free ptr => some (0, toylibcFree w ptr)
  | .write addr b => some (0, { w with mem := storeByte w.mem addr b })

/-- What is lent after the event, given its result `p`. -/
def relend (lent : List Lent) (p : Nat) : Event → List Lent
  | .malloc sz => lend p sz lent
  | .calloc n sz => lend p (n * sz) lent
  | .realloc ptr newsz =>
    if ptr = 0 then lend p newsz lent
    else if newsz = 0 then giveBack ptr lent
    else if p = 0 then lent
    else ⟨p, newsz⟩ :: giveBack ptr lent
  | .free ptr => giveBack ptr lent
  | .write _ _ => lent

/-- One event; `none` when the call does not return. -/
def step (K : Kernel) (s : State) (e : Event) : Option State :=
  match call K s.heap e with
  | none => none
  | some (p, w) => some ⟨w, relend s.lent p e⟩

theorem call_of_step {K : Kernel} {s s' : State} {e : Event} (hstep : step K s e = some s') :
    ∃ p w, call K s.heap e = some (p, w) ∧ s' = ⟨w, relend s.lent p e⟩ := by
  unfold step at hstep
  rcases hcall : call K s.heap e with _ | ⟨p, w⟩
  · rw [hcall] at hstep
    cases hstep
  · rw [hcall, Option.some.injEq] at hstep
    exact ⟨p, w, rfl, hstep.symm⟩

/-! ## The interface -/

/-- The uninitialised heap, over any memory. -/
def Fresh (s : State) : Prop :=
  s.heap.heapLo = 0 ∧ s.heap.heapHi = 0 ∧ s.heap.heapOk = false ∧ s.heap.log = [] ∧ s.lent = []

/-- The pointer is `NULL` or lent. -/
def Owned (s : State) (ptr : Nat) : Prop := ptr = 0 ∨ ∃ l ∈ s.lent, l.ptr = ptr

/-- The event respects the interface. A product in `calloc` may overflow. -/
def Respects (s : State) : Event → Prop
  | .malloc sz => sz < 2 ^ 63
  | .calloc n sz => n < 2 ^ 64 ∧ sz < 2 ^ 64 ∧ (n * sz < 2 ^ 63 ∨ 2 ^ 64 ≤ n * sz)
  | .realloc ptr newsz => newsz < 2 ^ 63 ∧ Owned s ptr
  | .free ptr => Owned s ptr
  | .write addr _ => ∃ l ∈ s.lent, ∃ i, i < l.size ∧ addr = (l.ptr + i) % 2 ^ 64

/-- The states that interface-respecting runs reach. -/
def Reachable (K : Kernel) : State → Prop := Reach Fresh Respects (step K)

/-! ## The steps that reach no defect -/

/-- The address lies in the brk heap. -/
def InBrk (w : Heap) (ptr : Nat) : Prop := w.heapLo ≤ ptr ∧ ptr < w.heapHi

/-- The size of the free block that ends the brk heap, `0` when none does. -/
def topFree (w : Heap) : Nat :=
  let ftr := load64 w.mem (wsub w.heapHi hdrSz)
  if w.heapLo < w.heapHi && isFree ftr then getSz ftr else 0

/-- The heap on which a small request searches. -/
def ready (K : Kernel) (w : Heap) : Heap := if w.heapOk then w else heapInit K w

/-- The kernel refuses to extend the heap by `need` bytes. -/
def BrkRefused (K : Kernel) (w : Heap) (need : Nat) : Prop :=
  K.brk w.log (wadd w.heapHi (growSize need)) ≠ wadd w.heapHi (growSize need)

/-- A request of `sz` bytes that no free block at the end of the heap can serve, and that
the kernel refuses. -/
def Unserved (K : Kernel) (w : Heap) (sz : Nat) : Prop :=
  if mmapLimit ≤ sz then isErrno (K.mmap w.log (mapLength sz)) = true
  else topFree (ready K w) < brkNeed sz ∧ BrkRefused K (ready K w) (brkNeed sz)

/-- A request of `sz` bytes reaches no defect: a mapping is not refused by another error
than `-1`; the free block at the end of the heap, if there is one, is used without a split,
or it is too small and the kernel refuses to extend the heap. -/
def AllocAvoids (K : Kernel) (w : Heap) (sz : Nat) : Prop :=
  if sz = 0 then True
  else if mmapLimit ≤ sz then
    isErrno (K.mmap w.log (mapLength sz)) = true → K.mmap w.log (mapLength sz) = wnot 0
  else
    topFree (ready K w) = 0 ∨ Unserved K w sz ∨
      brkNeed sz ≤ topFree (ready K w) ∧ topFree (ready K w) < brkNeed sz + (overhead + align)

/-- Releasing `ptr` reaches no defect: nothing lent lies in the brk heap above it. -/
def FreeAvoids (s : State) (ptr : Nat) : Prop :=
  InBrk s.heap ptr → ∀ l ∈ s.lent, InBrk s.heap l.ptr → l.ptr ≤ ptr

/-- The usable size that `toylibc_realloc` reads from the header of `ptr`. -/
def oldSize (w : Heap) (ptr : Nat) : Nat :=
  wsub (getSz (load64 w.mem (wsub ptr hdrSz))) overhead

/-- `toylibc_realloc` keeps the block. -/
def StaysInPlace (w : Heap) (ptr newsz : Nat) : Prop :=
  oldSize w ptr < mmapLimit ∧ newsz ≤ oldSize w ptr

theorem toylibcMalloc_small {K : Kernel} {w : Heap} {sz : Nat} (hpos : 0 < sz)
    (hsmall : sz < mmapLimit) :
    toylibcMalloc K w sz = brkAlloc K (ready K w) (brkNeed sz) := by
  unfold toylibcMalloc
  rw [if_neg (by omega), if_neg (by omega)]
  rfl

theorem toylibcMalloc_large {K : Kernel} {w : Heap} {sz : Nat} (hbig : mmapLimit ≤ sz) :
    toylibcMalloc K w sz = some (mallocMap K w sz) := by
  unfold mmapLimit at hbig
  unfold toylibcMalloc
  rw [if_neg (by omega), if_pos (by unfold mmapLimit; omega)]

/-- Without overflow `toylibc_calloc` asks for the product. -/
theorem toylibcCalloc_fits {K : Kernel} {w : Heap} {n sz : Nat} (h : n * sz < 2 ^ 64) :
    toylibcCalloc K w n sz = match toylibcMalloc K w (n * sz) with
      | none => none
      | some (p, w) =>
        if p = 0 then some (0, w)
        else some (p, { w with mem := (toylibcMemset w.mem p 0 (n * sz)).1 }) := by
  have hfits : ¬(n ≠ 0 ∧ n * sz / n ≠ sz) := by
    rintro ⟨hn, hne⟩
    exact hne (Nat.mul_div_cancel_left sz (Nat.pos_of_ne_zero hn))
  cases hmalloc : toylibcMalloc K w (n * sz) with
  | none => simp only [toylibcCalloc, wmul_eq h, hfits, if_false, hmalloc]
  | some r => simp only [toylibcCalloc, wmul_eq h, hfits, if_false, hmalloc]

/-- What it can do then: answer as `toylibc_malloc` does, and clear what it lends. -/
theorem toylibcCalloc_cases {K : Kernel} {w w' : Heap} {n sz p : Nat} (hfits : n * sz < 2 ^ 64)
    (hcall : toylibcCalloc K w n sz = some (p, w')) :
    ∃ w₁, toylibcMalloc K w (n * sz) = some (p, w₁) ∧ (p = 0 ∧ w' = w₁ ∨
      p ≠ 0 ∧ w' = { w₁ with mem := (toylibcMemset w₁.mem p 0 (n * sz)).1 }) := by
  rw [toylibcCalloc_fits hfits] at hcall
  rcases hmalloc : toylibcMalloc K w (n * sz) with _ | ⟨q, w₁⟩
  · rw [hmalloc] at hcall
    cases hcall
  · rw [hmalloc] at hcall
    dsimp only at hcall
    by_cases hq : q = 0
    · rw [if_pos hq, Option.some.injEq, Prod.mk.injEq] at hcall
      obtain ⟨rfl, rfl⟩ := hcall
      exact ⟨w₁, by rw [hq], .inl ⟨rfl, rfl⟩⟩
    · rw [if_neg hq, Option.some.injEq, Prod.mk.injEq] at hcall
      obtain ⟨rfl, rfl⟩ := hcall
      exact ⟨w₁, rfl, .inr ⟨hq, rfl⟩⟩

/-- A product that does not fit is refused. -/
theorem toylibcCalloc_overflow {K : Kernel} {w : Heap} {n sz : Nat} (h : 2 ^ 64 ≤ n * sz) :
    toylibcCalloc K w n sz = some (0, w) := by
  have hlost : n ≠ 0 ∧ wmul n sz / n ≠ sz := by
    have hn0 : n ≠ 0 := by
      rintro rfl
      omega
    refine ⟨hn0, fun heq => ?_⟩
    have hle : sz * n ≤ wmul n sz := by
      have := Nat.div_mul_le_self (wmul n sz) n
      rwa [heq] at this
    have hlt : wmul n sz < 2 ^ 64 := Nat.mod_lt _ (by decide)
    rw [Nat.mul_comm] at hle
    omega
  unfold toylibcCalloc
  simp only [hlost, ne_eq, not_false_eq_true, and_self, if_true]

theorem oldSize_eq {w : Heap} {a n : Nat} (hsz : getSz (load64 w.mem a) = n) (hleast : 16 ≤ n)
    (htop : a + n < 2 ^ 64) : oldSize w (a + 8) = n - 16 := by
  have hhdr : wsub (a + 8) hdrSz = a := wsub_hdrSz (by omega)
  rw [oldSize, hhdr, hsz, wsub_eq (by omega) (by unfold overhead; omega)]
  rfl

theorem toylibcRealloc_stay {K : Kernel} {w : Heap} {ptr newsz : Nat} (hptr : ptr ≠ 0)
    (hsz : newsz ≠ 0) (hstay : StaysInPlace w ptr newsz) :
    toylibcRealloc K w ptr newsz = some (ptr, w) := by
  have hsmall : ¬mmapLimit ≤ oldSize w ptr := Nat.not_le_of_lt hstay.1
  unfold toylibcRealloc
  rw [if_neg hptr, if_neg hsz]
  exact (if_neg hsmall).trans (if_pos hstay.2)

/-- A block that does not stay in place is moved, with as many bytes as both sizes allow. -/
theorem toylibcRealloc_move {K : Kernel} {w : Heap} {ptr newsz : Nat} (hptr : ptr ≠ 0)
    (hsz : newsz ≠ 0) (hstay : ¬StaysInPlace w ptr newsz) :
    toylibcRealloc K w ptr newsz = reallocMove K w ptr newsz (min (oldSize w ptr) newsz) := by
  unfold toylibcRealloc
  rw [if_neg hptr, if_neg hsz]
  by_cases hbig : mmapLimit ≤ oldSize w ptr
  · refine (if_pos hbig).trans (congrArg (reallocMove K w ptr newsz) ?_)
    exact show (if oldSize w ptr < newsz then oldSize w ptr else newsz) = _ by split <;> omega
  · have hgrows : ¬newsz ≤ oldSize w ptr := fun hle => hstay ⟨by omega, hle⟩
    refine ((if_neg hbig).trans (if_neg hgrows)).trans (congrArg (reallocMove K w ptr newsz) ?_)
    exact show oldSize w ptr = _ by omega

/-- What a move can do: fail as `toylibc_malloc` does, or copy the bytes and release the block. -/
theorem reallocMove_cases {K : Kernel} {w w' : Heap} {ptr newsz cp p : Nat}
    (hcall : reallocMove K w ptr newsz cp = some (p, w')) :
    ∃ w₁, toylibcMalloc K w newsz = some (p, w₁) ∧ (p = 0 ∧ w' = w₁ ∨
      p ≠ 0 ∧ w' = toylibcFree { w₁ with mem := (toylibcMemcpy w₁.mem p ptr cp).1 } ptr) := by
  unfold reallocMove at hcall
  rcases hmalloc : toylibcMalloc K w newsz with _ | ⟨q, w₁⟩
  · rw [hmalloc] at hcall
    cases hcall
  · rw [hmalloc] at hcall
    dsimp only at hcall
    by_cases hq : q = 0
    · rw [if_pos hq, Option.some.injEq, Prod.mk.injEq] at hcall
      obtain ⟨rfl, rfl⟩ := hcall
      exact ⟨w₁, by rw [hq], .inl ⟨rfl, rfl⟩⟩
    · rw [if_neg hq, Option.some.injEq, Prod.mk.injEq] at hcall
      obtain ⟨rfl, rfl⟩ := hcall
      exact ⟨w₁, rfl, .inr ⟨hq, rfl⟩⟩

/-- The event reaches none of the four defects. A brk block can move only to a mapping. -/
def AvoidsDefects (K : Kernel) (s : State) : Event → Prop
  | .malloc sz => AllocAvoids K s.heap sz
  | .calloc n sz => n * sz < 2 ^ 64 → AllocAvoids K s.heap (n * sz)
  | .realloc ptr newsz =>
    if ptr = 0 then AllocAvoids K s.heap newsz
    else if newsz = 0 then FreeAvoids s ptr
    else StaysInPlace s.heap ptr newsz ∨
      AllocAvoids K s.heap newsz ∧
        (InBrk s.heap ptr → Unserved K s.heap newsz ∨ mmapLimit ≤ newsz ∧ FreeAvoids s ptr)
  | .free ptr => FreeAvoids s ptr
  | .write _ _ => True

/-- The states that runs reach which respect the interface and avoid the defects. -/
def SafelyReachable (K : Kernel) : State → Prop :=
  Reach Fresh (fun s e => Respects s e ∧ AvoidsDefects K s e) (step K)

theorem SafelyReachable.reachable {K : Kernel} {s : State} (h : SafelyReachable K s) :
    Reachable K s :=
  Reach.mono (fun _ _ hguard => hguard.1) h

instance (s : State) (ptr : Nat) : Decidable (Owned s ptr) :=
  inferInstanceAs (Decidable (_ ∨ ∃ l ∈ s.lent, l.ptr = ptr))

/-- The offset of an address in a range, without a search for it. -/
theorem exists_offset_iff {addr ptr size : Nat} :
    (∃ i, i < size ∧ addr = (ptr + i) % 2 ^ 64) ↔
      addr < 2 ^ 64 ∧ (addr + (2 ^ 64 - ptr % 2 ^ 64)) % 2 ^ 64 < size := by
  constructor
  · rintro ⟨i, hi, rfl⟩
    omega
  · rintro ⟨haddr, hlt⟩
    exact ⟨_, hlt, by omega⟩

instance (s : State) : (e : Event) → Decidable (Respects s e)
  | .malloc sz => inferInstanceAs (Decidable (sz < 2 ^ 63))
  | .calloc n sz =>
    inferInstanceAs (Decidable (n < 2 ^ 64 ∧ sz < 2 ^ 64 ∧ (n * sz < 2 ^ 63 ∨ 2 ^ 64 ≤ n * sz)))
  | .realloc ptr newsz => inferInstanceAs (Decidable (newsz < 2 ^ 63 ∧ Owned s ptr))
  | .free ptr => inferInstanceAs (Decidable (Owned s ptr))
  | .write addr _ =>
    decidable_of_iff (∃ l ∈ s.lent,
        addr < 2 ^ 64 ∧ (addr + (2 ^ 64 - l.ptr % 2 ^ 64)) % 2 ^ 64 < l.size)
      (exists_congr fun _ => and_congr_right fun _ => exists_offset_iff.symm)

instance (w : Heap) (ptr : Nat) : Decidable (InBrk w ptr) :=
  inferInstanceAs (Decidable (_ ∧ _))

instance (K : Kernel) (w : Heap) (need : Nat) : Decidable (BrkRefused K w need) :=
  inferInstanceAs (Decidable (_ ≠ _))

instance (K : Kernel) (w : Heap) (sz : Nat) : Decidable (Unserved K w sz) :=
  inferInstanceAs (Decidable (if mmapLimit ≤ sz then isErrno (K.mmap w.log (mapLength sz)) = true
    else topFree (ready K w) < brkNeed sz ∧ BrkRefused K (ready K w) (brkNeed sz)))

instance (K : Kernel) (w : Heap) (sz : Nat) : Decidable (AllocAvoids K w sz) :=
  inferInstanceAs (Decidable (if sz = 0 then True else if mmapLimit ≤ sz then _ → _ = _
    else _ = _ ∨ Unserved K w sz ∨ _ ≤ _ ∧ _ < _))

instance (s : State) (ptr : Nat) : Decidable (FreeAvoids s ptr) :=
  inferInstanceAs (Decidable (_ → ∀ l ∈ s.lent, InBrk s.heap l.ptr → l.ptr ≤ ptr))

instance (w : Heap) (ptr newsz : Nat) : Decidable (StaysInPlace w ptr newsz) :=
  inferInstanceAs (Decidable (_ ∧ _))

instance (K : Kernel) (s : State) : (e : Event) → Decidable (AvoidsDefects K s e)
  | .malloc sz => inferInstanceAs (Decidable (AllocAvoids K s.heap sz))
  | .calloc n sz => inferInstanceAs (Decidable (n * sz < 2 ^ 64 → AllocAvoids K s.heap (n * sz)))
  | .realloc ptr newsz => inferInstanceAs (Decidable (if ptr = 0 then AllocAvoids K s.heap newsz
      else if newsz = 0 then FreeAvoids s ptr
      else StaysInPlace s.heap ptr newsz ∨ AllocAvoids K s.heap newsz ∧
        (InBrk s.heap ptr → Unserved K s.heap newsz ∨ mmapLimit ≤ newsz ∧ FreeAvoids s ptr)))
  | .free ptr => inferInstanceAs (Decidable (FreeAvoids s ptr))
  | .write _ _ => .isTrue trivial

/-- The uninitialised heap over zeroed memory. -/
def freshState : State := ⟨⟨⟨fun _ => 0, []⟩, 0, 0, false, []⟩, []⟩

theorem fresh_freshState : Fresh freshState := ⟨rfl, rfl, rfl, rfl, rfl⟩

/-- The bytes requested for `l` are the same in both memories. -/
def Untouched (m m' : Mem) (l : Lent) : Prop :=
  ∀ i, i < l.size → loadByte m' (l.ptr + i) = loadByte m (l.ptr + i)

end Toylibc
