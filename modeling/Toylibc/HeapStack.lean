import Toylibc.HeapFootprint
import Toylibc.HeapObjects

/-!
# The allocator as a stack

In a run that avoids the defects the brk heap is a stack: what is freed is the topmost block, what
is free lies on top, and no block is split. `Stack` is that heap without its memory: it computes
every answer from the requests and from what the kernel answers. `Stack.of` reads the stack off the
blocks of a heap.
-/

namespace Toylibc

open ByteMemory BlockList Transition

/-! ## The stack -/

/-- The brk heap without its memory: where it starts, the sizes of the blocks in use, the topmost
first, and the free space on top of them. -/
structure Stack where
  lo : Nat
  used : List Nat
  top : Nat
  ok : Bool
  log : List Syscall
deriving DecidableEq

namespace Stack

/-- Before the first request. -/
def empty : Stack := ⟨0, [], 0, false, []⟩

/-- Where the free space starts. -/
def base (t : Stack) : Nat := t.lo + t.used.sum

/-- The stack on which a small request is served. -/
def ready (K : Kernel) (t : Stack) : Stack :=
  if t.ok then t
  else
    let cur := K.brk t.log 0
    let log := .brk 0 cur :: t.log
    let al := alignUp cur align
    ⟨al, [], 0, true, if al ≠ cur then .brk al (K.brk log al) :: log else log⟩

/-- The free space is used whole, or it grows by whole pages before. -/
def push (K : Kernel) (t : Stack) (need : Nat) : Nat × Stack :=
  if need ≤ t.top then (t.base + 8, { t with used := t.top :: t.used, top := 0 })
  else
    let new := t.base + t.top + growSize need
    let ret := K.brk t.log new
    let log := .brk new ret :: t.log
    if ret = new then (t.base + 8, ⟨t.lo, (t.top + growSize need) :: t.used, 0, t.ok, log⟩)
    else (0, { t with log := log })

def malloc (K : Kernel) (t : Stack) (sz : Nat) : Nat × Stack :=
  if sz = 0 then (0, t)
  else if mmapLimit ≤ sz then
    let ret := K.mmap t.log (mapLength sz)
    (if isErrno ret then 0 else ret + 8, { t with log := .mmap (mapLength sz) ret :: t.log })
  else (t.ready K).push K (brkNeed sz)

/-- The size that was requested for `ptr`. -/
def requested (lent : List Lent) (ptr : Nat) : Nat :=
  ((lent.find? fun l => l.ptr = ptr).map Lent.size).getD 0

/-- The mapping of `ptr` is given back. -/
def unmap (t : Stack) (lent : List Lent) (ptr : Nat) : Stack :=
  { t with log := .munmap (ptr - 8) (mapLength (requested lent ptr)) :: t.log }

/-- The topmost block becomes free space; everything else is a mapping. -/
def free (t : Stack) (lent : List Lent) (ptr : Nat) : Stack :=
  if ptr = 0 then t
  else
    match t.used with
    | [] => t.unmap lent ptr
    | n :: ns =>
      if ptr = t.lo + ns.sum + 8 then { t with used := ns, top := n + t.top } else t.unmap lent ptr

/-- The size of the block in use at `a`. -/
def blockSize (lo a : Nat) : List Nat → Option Nat
  | [] => none
  | n :: ns => if a = lo + ns.sum then some n else blockSize lo a ns

/-- What `toylibc_realloc` takes for the size of `ptr`. -/
def usable (t : Stack) (lent : List Lent) (ptr : Nat) : Nat :=
  (blockSize t.lo (ptr - 8) t.used).getD (mapLength (requested lent ptr)) - 16

/-- A new block, and the old one is released. -/
def move (K : Kernel) (t : Stack) (lent : List Lent) (ptr newsz : Nat) : Nat × Stack :=
  let q := t.malloc K newsz
  if q.1 = 0 then q else (q.1, q.2.free lent ptr)

def realloc (K : Kernel) (t : Stack) (lent : List Lent) (ptr newsz : Nat) : Nat × Stack :=
  if ptr = 0 then t.malloc K newsz
  else if newsz = 0 then (0, t.free lent ptr)
  else if t.usable lent ptr < mmapLimit ∧ newsz ≤ t.usable lent ptr then (ptr, t)
  else t.move K lent ptr newsz

def call (K : Kernel) (t : Stack) (lent : List Lent) : Event → Nat × Stack
  | .malloc sz => t.malloc K sz
  | .calloc n sz => if n * sz < 2 ^ 64 then t.malloc K (n * sz) else (0, t)
  | .realloc ptr newsz => t.realloc K lent ptr newsz
  | .free ptr => (0, t.free lent ptr)
  | .write _ _ => (0, t)

/-- The events with their answers, and the stack and what is lent after them. -/
def run (K : Kernel) : Stack → List Lent → List Event → List (Event × Nat) × Stack × List Lent
  | t, lent, [] => ([], t, lent)
  | t, lent, e :: es =>
    let q := t.call K lent e
    let r := run K q.2 (relend lent q.1 e) es
    ((e, q.1) :: r.1, r.2)

end Stack

instance : (e : Event) → Decidable e.IsCall
  | .malloc _ => .isTrue trivial
  | .calloc _ _ => .isTrue trivial
  | .realloc _ _ => .isTrue trivial
  | .free _ => .isTrue trivial
  | .write _ _ => .isFalse False.elim

/-- The stores have no influence on the stack. -/
theorem Stack.run_calls (K : Kernel) (t : Stack) (lent : List Lent) (es : List Event) :
    Stack.run K t lent (es.filter fun e => e.IsCall) =
      ((Stack.run K t lent es).1.filter fun x => x.1.IsCall, (Stack.run K t lent es).2) := by
  induction es generalizing t lent with
  | nil => rfl
  | cons e es ih =>
    by_cases hcall : e.IsCall
    · simp only [Stack.run, List.filter_cons, hcall, decide_true, if_true, ih]
    · simp only [Stack.run, List.filter_cons, hcall, decide_false, Bool.false_eq_true, if_false]
      cases e with
      | write addr b => exact ih t lent
      | _ => exact absurd trivial hcall

/-! ## The blocks as a stack -/

/-- The sizes of the blocks in use, the last one first. -/
def usedSizes (bs : List HeapBlock) : List Nat :=
  ((bs.filter fun b => !b.free).map Block.size).reverse

/-- The stack of a heap with the blocks `bs`. -/
def Stack.of (w : Heap) (bs : List HeapBlock) : Stack :=
  ⟨w.heapLo, usedSizes bs, freeBefore bs, w.heapOk, w.log⟩

theorem Stack.of_mem (w : Heap) (m : Mem) (bs : List HeapBlock) :
    Stack.of { w with mem := m } bs = Stack.of w bs := by
  unfold Stack.of
  rfl

theorem usedSizes_concat (bs : List HeapBlock) (c : HeapBlock) :
    usedSizes (bs ++ [c]) = if c.free then usedSizes bs else c.size :: usedSizes bs := by
  unfold usedSizes
  cases hc : c.free <;> simp [hc]

theorem sum_usedSizes {bs : List HeapBlock} (h : ∀ b ∈ bs, b.free = false) :
    (usedSizes bs).sum = extent bs := by
  induction bs using List.reverseRecOn with
  | nil => rfl
  | append_singleton bs c ih =>
    have hc : c.free = false := h c (by simp)
    have hbs := ih fun b hb => h b (List.mem_append_left _ hb)
    rw [usedSizes_concat, hc, extent_append, extent_cons, extent_nil]
    simp only [Bool.false_eq_true, if_false, List.sum_cons]
    omega

/-- The blocks fill the heap up to the end of the free space. -/
theorem sum_usedSizes_top {bs : List HeapBlock} (h : FreeOnlyLast bs) :
    (usedSizes bs).sum + freeBefore bs = extent bs := by
  rcases lastFree_cases bs with hlast | ⟨pre, c, rfl, hc⟩
  · rw [freeBefore_of_lastFree_eq_false hlast, Nat.add_zero]
    exact sum_usedSizes (h.all_used hlast)
  · have hpre := freeOnlyLast_concat.mp h
    rw [usedSizes_concat, freeBefore_concat, if_pos hc, if_pos hc, sum_usedSizes hpre,
      extent_append, extent_cons, extent_nil, Nat.add_zero]

theorem thirtytwo_le_usedSizes {bs : List HeapBlock} {n : Nat} (h : n ∈ usedSizes bs) : 32 ≤ n := by
  unfold usedSizes at h
  obtain ⟨b, -, rfl⟩ := List.mem_map.mp (List.mem_reverse.mp h)
  exact b.least_le

/-- The topmost block in use, and the free space on top of it. -/
theorem stack_of_top {pre post : List HeapBlock} {b : HeapBlock} (hb : b.free = false)
    (hpost : FreeTail post) :
    usedSizes (pre ++ b :: post) = b.size :: usedSizes pre ∧
      freeBefore (pre ++ b :: post) = extent post := by
  have hsizes : usedSizes (pre ++ [b]) = b.size :: usedSizes pre := by
    rw [usedSizes_concat, hb]
    exact if_neg Bool.false_ne_true
  rcases hpost with rfl | ⟨d, rfl, hd⟩
  · refine ⟨hsizes, ?_⟩
    rw [freeBefore_concat, hb]
    exact if_neg Bool.false_ne_true
  · rw [show pre ++ b :: [d] = pre ++ [b] ++ [d] by simp]
    refine ⟨?_, ?_⟩
    · rw [usedSizes_concat, if_pos hd, hsizes]
    · rw [freeBefore_concat, if_pos hd, extent_cons, extent_nil, Nat.add_zero]

theorem blockSize_bounds {lo a n : Nat} {ns : List Nat}
    (h : Stack.blockSize lo a ns = some n) : n ∈ ns ∧ lo ≤ a ∧ a + n ≤ lo + ns.sum := by
  induction ns with
  | nil => cases h
  | cons m ns ih =>
    rw [Stack.blockSize] at h
    rw [List.sum_cons]
    split at h
    · cases h
      exact ⟨List.mem_cons_self, by omega, by omega⟩
    · obtain ⟨hmem, hlo, hhi⟩ := ih h
      exact ⟨List.mem_cons_of_mem m hmem, hlo, by omega⟩

theorem blockSize_of_used {lo a : Nat} {bs : List HeapBlock} {b : HeapBlock}
    (hall : ∀ b ∈ bs, b.free = false) (hb : (a, b) ∈ place lo bs) :
    Stack.blockSize lo a (usedSizes bs) = some b.size := by
  induction bs using List.reverseRecOn with
  | nil => cases hb
  | append_singleton bs c ih =>
    have hbs : ∀ b ∈ bs, b.free = false := fun b hb => hall b (List.mem_append_left _ hb)
    have hc : c.free = false := hall c (by simp)
    rw [usedSizes_concat, hc, if_neg Bool.false_ne_true, Stack.blockSize, sum_usedSizes hbs]
    rw [place_append, List.mem_append] at hb
    rcases hb with hb | hb
    · have hin := place_bounds hb
      have hleast := b.least_le
      rw [if_neg (by omega)]
      exact ih hbs hb
    · obtain ⟨rfl, rfl⟩ := Prod.mk.inj (List.mem_singleton.mp hb)
      exact if_pos rfl

theorem blockSize_of_place {lo a : Nat} {bs : List HeapBlock} {b : HeapBlock}
    (htop : FreeOnlyLast bs) (hb : (a, b) ∈ place lo bs) (hused : b.free = false) :
    Stack.blockSize lo a (usedSizes bs) = some b.size := by
  rcases lastFree_cases bs with hlast | ⟨pre, c, rfl, hc⟩
  · exact blockSize_of_used (htop.all_used hlast) hb
  · have hpre := mem_place_of_used hb (by simpa using hc) hused
    rw [usedSizes_concat, if_pos hc]
    exact blockSize_of_used (freeOnlyLast_concat.mp htop) hpre

/-! ## What is lent -/

theorem requested_eq {lent : List Lent} (hd : lent.Pairwise fun l l' => l.ptr ≠ l'.ptr) {l : Lent}
    (hl : l ∈ lent) : Stack.requested lent l.ptr = l.size := by
  unfold Stack.requested
  rcases hfind : lent.find? fun l' => decide (l'.ptr = l.ptr) with _ | l'
  · exact absurd (decide_eq_true rfl) (List.find?_eq_none.mp hfind l hl)
  · have hfound := List.find?_some hfind
    have hptr : l'.ptr = l.ptr := of_decide_eq_true hfound
    rw [hfind, eq_of_ptr_eq hd (List.mem_of_find?_eq_some hfind) hl hptr]
    rfl

theorem Stack.free_cons (t : Stack) {l : Lent} {ptr : Nat} (hne : l.ptr ≠ ptr)
    (lent : List Lent) : t.free (l :: lent) ptr = t.free lent ptr := by
  have hrequested : requested (l :: lent) ptr = requested lent ptr := by
    unfold requested
    rw [List.find?_cons_of_neg (by simpa using hne)]
  unfold free unmap
  rw [hrequested]

end Toylibc
