import Toylibc.Kernel
import Toylibc.Strings

/-!
# `heap.c`

The allocator, function by function. The code works on memory words through pointers;
here a pointer is its address, `NULL` is `0`, and a function returns the memory or the
heap that it leaves.

The search loop of `brk_alloc` reads its step from memory, so it need not end on a
corrupt heap. It runs on fuel. The loop only moves `cur`, which takes fewer than
`2 ^ 64` values, and writes nothing; a search that outlives `searchFuel` has been at
some address twice and never ends. A result `none` means that the call does not
return.
-/

namespace Toylibc

open ByteMemory

/-- `*(unsigned long *)a`. -/
def load64 (m : Mem) (a : Nat) : Nat := loadLE m 8 a

/-- `*(unsigned long *)a = v`. -/
def store64 (m : Mem) (a v : Nat) : Mem := storeLE m 8 a v

/-! ## The brk heap -/

/-- `merge`: fuse the free block at `blk` with its free neighbours. -/
def merge (m : Mem) (heapHi blk : Nat) : Mem :=
  let hdrv := load64 m blk
  let blksz := getSz hdrv
  -- the footer of the block before ends where this header starts
  let prevSz := getSz (load64 m (wsub blk hdrSz))
  let start := if prevFree hdrv then wsub blk prevSz else blk
  let total := if prevFree hdrv then wadd blksz prevSz else blksz
  let next := wadd blk blksz
  let total :=
    if next < heapHi && isFree (load64 m next) then wadd total (getSz (load64 m next)) else total
  if total ≠ blksz then
    let origPfree :=
      if start ≠ blk then load64 m start &&& flagPrevFree else hdrv &&& flagPrevFree
    let m := store64 m start (total ||| origPfree)
    let m := store64 m (wsub (wadd start total) hdrSz) total
    let after := wadd start total
    -- the mask `~0x7` clears the ALLOC bit of the block after as well
    if after < heapHi then
      store64 m after ((load64 m after &&& wnot 0x7) ||| flagPrevFree)
    else m
  else m

/-- `brk_release`: mark the block of `ptr` free and merge it. -/
def brkRelease (m : Mem) (heapHi ptr : Nat) : Mem :=
  let hdr := wsub ptr hdrSz
  let hdrv := load64 m hdr
  let blksz := getSz hdrv
  let pfree := hdrv &&& flagPrevFree
  let m := store64 m hdr (blksz ||| pfree)
  let m := store64 m (wsub (wadd hdr blksz) hdrSz) blksz
  let next := wadd hdr blksz
  let m :=
    if next < heapHi then
      store64 m next ((load64 m next &&& wnot 0x7) ||| flagPrevFree)
    else m
  merge m heapHi hdr

/-- `heap_init`. A break that is not aligned is moved up; the answer is not checked. -/
def heapInit (K : Kernel) (w : Heap) : Heap :=
  let q := toylibcBrk K w 0
  let cur := q.1
  let al := alignUp cur align
  let w := if al ≠ cur then (toylibcBrk K q.2 al).2 else q.2
  { w with heapLo := al, heapHi := al, heapOk := true }

/-- The size that `brk_grow` asks for: whole pages. -/
def growSize (minSz : Nat) : Nat := alignUp minSz 4096

/-- `brk_grow`: the address of the new block, `0` when the kernel refuses. -/
def brkGrow (K : Kernel) (w : Heap) (minSz : Nat) : Nat × Heap :=
  let sz := growSize minSz
  let newBrk := wadd w.heapHi sz
  let b := toylibcBrk K w newBrk
  if b.1 ≠ newBrk then (0, b.2)
  else
    let prevFlag :=
      if w.heapLo < w.heapHi && isFree (load64 w.mem (wsub w.heapHi hdrSz)) then flagPrevFree
      else 0
    let m := store64 w.mem w.heapHi (sz ||| prevFlag)
    let m := store64 m (wsub (wadd w.heapHi sz) hdrSz) sz
    let block := w.heapHi
    -- `merge` may have moved the header to the left of `block`
    (block, { b.2 with mem := merge m newBrk block, heapHi := newBrk })

/-- How the search of `brk_alloc` ends. -/
inductive Search
  | found (cur : Nat)
  | exhausted
  | zeroSize
deriving DecidableEq

/-- The search loop of `brk_alloc`, from `cur`. -/
def brkSearch (m : Mem) (heapHi need : Nat) : Nat → Nat → Option Search
  | 0, _ => none
  | fuel + 1, cur =>
    if cur < heapHi then
      let hdrv := load64 m cur
      let blksz := getSz hdrv
      -- a broken heap ends the search
      if blksz = 0 then some .zeroSize
      else if isFree hdrv && need ≤ blksz then some (.found cur)
      else brkSearch m heapHi need fuel (wadd cur blksz)
    else some .exhausted

def searchFuel : Nat := 2 ^ 64

/-- The body of the search loop on the free block at `cur`: split it or use it whole. -/
def brkTake (m : Mem) (heapHi need cur : Nat) : Mem :=
  let hdrv := load64 m cur
  let blksz := getSz hdrv
  let rem := wsub blksz need
  if overhead + align ≤ rem then
    let m := store64 m cur (need ||| flagAlloc ||| (hdrv &&& flagPrevFree))
    let m := store64 m (wsub (wadd cur need) hdrSz) (need ||| flagAlloc)
    let next := wadd cur need
    -- PREV_FREE is set although the block before was just allocated
    let m := store64 m next (rem ||| flagPrevFree)
    let m := store64 m (wsub (wadd next rem) hdrSz) rem
    let after := wadd next rem
    -- the mask `~0x7` clears the ALLOC bit of the block after as well
    if after < heapHi then
      store64 m after ((load64 m after &&& wnot 0x7) ||| flagPrevFree)
    else m
  else
    let m := store64 m cur (blksz ||| flagAlloc ||| (hdrv &&& flagPrevFree))
    let m := store64 m (wsub (wadd cur blksz) hdrSz) (blksz ||| flagAlloc)
    let next := wadd cur blksz
    if next < heapHi then store64 m next (load64 m next &&& wnot flagPrevFree) else m

/-- The end of `brk_alloc`: use the block that `brk_grow` returned. -/
def brkTakeGrown (m : Mem) (heapHi block : Nat) : Mem :=
  let blksz := getSz (load64 m block)
  let pfree := load64 m block &&& flagPrevFree
  let m := store64 m block (blksz ||| flagAlloc ||| pfree)
  let m := store64 m (wsub (wadd block blksz) hdrSz) (blksz ||| flagAlloc)
  let next := wadd block blksz
  if next < heapHi then store64 m next (load64 m next &&& wnot flagPrevFree) else m

/-- The part of `brk_alloc` after an unsuccessful search. -/
def brkExtend (K : Kernel) (w : Heap) (need : Nat) : Nat × Heap :=
  let g := brkGrow K w need
  if g.1 = 0 then (0, g.2)
  else (wadd g.1 hdrSz, { g.2 with mem := brkTakeGrown g.2.mem g.2.heapHi g.1 })

/-- `brk_alloc`: first fit, else extend the heap. -/
def brkAlloc (K : Kernel) (w : Heap) (need : Nat) : Option (Nat × Heap) :=
  match brkSearch w.mem w.heapHi need searchFuel w.heapLo with
  | none => none
  | some (.found cur) =>
    some (wadd cur hdrSz, { w with mem := brkTake w.mem w.heapHi need cur })
  | some .exhausted => some (brkExtend K w need)
  | some .zeroSize => some (brkExtend K w need)

/-! ## The public functions -/

/-- The length of the mapping for a request of `sz` bytes. -/
def mapLength (sz : Nat) : Nat := alignUp (wadd sz hdrSz) 4096

/-- The size of the brk block for a request of `sz` bytes. -/
def brkNeed (sz : Nat) : Nat := wadd overhead (alignUp sz align)

/-- The branch of `toylibc_malloc` for large objects. -/
def mallocMap (K : Kernel) (w : Heap) (sz : Nat) : Nat × Heap :=
  let total := mapLength sz
  let r := toylibcMmap K w total
  -- `MAP_FAILED` of the C library; the wrapper answers `-errno`
  if r.1 = wnot 0 then (0, r.2)
  else (wadd r.1 hdrSz, { r.2 with mem := store64 r.2.mem r.1 (total ||| flagAlloc) })

/-- `toylibc_malloc`. -/
def toylibcMalloc (K : Kernel) (w : Heap) (sz : Nat) : Option (Nat × Heap) :=
  if sz = 0 then some (0, w)
  else if mmapLimit ≤ sz then some (mallocMap K w sz)
  else
    let w := if w.heapOk then w else heapInit K w
    brkAlloc K w (brkNeed sz)

/-- `toylibc_free`. -/
def toylibcFree (w : Heap) (ptr : Nat) : Heap :=
  if ptr = 0 then w
  else
    let hdr := wsub ptr hdrSz
    let blksz := getSz (load64 w.mem hdr)
    if mmapLimit ≤ blksz && (ptr < w.heapLo || w.heapHi ≤ ptr) then toylibcMunmap w hdr blksz
    else { w with mem := brkRelease w.mem w.heapHi ptr }

/-- `toylibc_calloc`. -/
def toylibcCalloc (K : Kernel) (w : Heap) (n sz : Nat) : Option (Nat × Heap) :=
  let total := wmul n sz
  if n ≠ 0 ∧ total / n ≠ sz then some (0, w)
  else
    match toylibcMalloc K w total with
    | none => none
    | some (p, w) =>
      if p = 0 then some (0, w)
      else some (p, { w with mem := (toylibcMemset w.mem p 0 total).1 })

/-- The new block of `toylibc_realloc`: allocate, copy `cp` bytes, free the old one. -/
def reallocMove (K : Kernel) (w : Heap) (ptr newsz cp : Nat) : Option (Nat × Heap) :=
  match toylibcMalloc K w newsz with
  | none => none
  | some (np, w) =>
    if np = 0 then some (0, w)
    else
      let w := { w with mem := (toylibcMemcpy w.mem np ptr cp).1 }
      some (np, toylibcFree w ptr)

/-- `toylibc_realloc`. -/
def toylibcRealloc (K : Kernel) (w : Heap) (ptr newsz : Nat) : Option (Nat × Heap) :=
  if ptr = 0 then toylibcMalloc K w newsz
  else if newsz = 0 then some (0, toylibcFree w ptr)
  else
    -- also for a mapping, which has a header only
    let oldSz := wsub (getSz (load64 w.mem (wsub ptr hdrSz))) overhead
    if mmapLimit ≤ oldSz then reallocMove K w ptr newsz (if oldSz < newsz then oldSz else newsz)
    else if newsz ≤ oldSz then some (ptr, w)
    else reallocMove K w ptr newsz oldSz

end Toylibc
