import Mathlib.Data.List.Chain
import Mathlib.Tactic.Common

/-!
# Lists of adjacent blocks

The abstract view of a region that is cut into adjacent blocks, each free or in
use. Nothing here says how a block is stored. The size of every block is a
multiple of `unit` and at least `least`; both are fields of `Block`.

* `extent`, `place`: the size of the region, and each block with its address.
* `Separated`: no two neighbours are both free.
* `FreeOnlyLast`: only the last block can be free.
* `firstFit`, `allot`: the first free block that is large enough, and a request
  served from it.
* `merged`: fuse one block with its free neighbours.
* `Boundary`: where a block starts, or the region ends.

Results: blocks at different addresses do not meet (`place_disjoint`), the first fit is
the lowest one (`firstFit_eq_some_iff`), and serving a request and fusing a block both
separate the list again (`separated_allot`, `separated_merged`).
-/

namespace BlockList

/-- A block: its size, and whether it is free. -/
structure Block (unit least : Nat) where
  size : Nat
  free : Bool
  unit_dvd : unit ∣ size
  least_le : least ≤ size
deriving DecidableEq

variable {unit least : Nat}

/-- The same block, free or in use as `f` says. -/
def Block.mark (b : Block unit least) (f : Bool) : Block unit least := { b with free := f }

/-- One free block over two adjacent ones. -/
def Block.fuse (b c : Block unit least) : Block unit least where
  size := b.size + c.size
  free := true
  unit_dvd := Nat.dvd_add b.unit_dvd c.unit_dvd
  least_le := Nat.le_trans b.least_le (Nat.le_add_right _ _)

/-- The size of the region that the blocks fill. -/
def extent : List (Block unit least) → Nat
  | [] => 0
  | b :: bs => b.size + extent bs

/-- The blocks with their addresses, the first at `a`. -/
def place : Nat → List (Block unit least) → List (Nat × Block unit least)
  | _, [] => []
  | a, b :: bs => (a, b) :: place (a + b.size) bs

/-- Whether the last block is free, `f` for an empty list. -/
def lastFree : Bool → List (Block unit least) → Bool
  | f, [] => f
  | _, b :: bs => lastFree b.free bs

/-- No two neighbours are both free. -/
def Separated (bs : List (Block unit least)) : Prop :=
  bs.IsChain fun b c => ¬(b.free = true ∧ c.free = true)

/-- Only the last block can be free. -/
def FreeOnlyLast (bs : List (Block unit least)) : Prop :=
  ∀ b, b ∈ bs.dropLast → b.free = false

/-- The size of the free block that ends the list, `0` when none does. -/
def freeBefore : List (Block unit least) → Nat
  | [] => 0
  | [p] => if p.free then p.size else 0
  | _ :: q :: ps => freeBefore (q :: ps)

/-- The first free block of at least `need` bytes, with its address. -/
def firstFit (need a : Nat) (bs : List (Block unit least)) : Option (Nat × Block unit least) :=
  (place a bs).find? fun p => p.2.free && need ≤ p.2.size

/-- Hand out `r.size` bytes of `b`: the block `r` and the rest, where the rest can be a block. -/
def Block.cut (b r : Block unit least) : List (Block unit least) :=
  if h : r.size + least ≤ b.size then
    [r.mark false, ⟨b.size - r.size, true, Nat.dvd_sub b.unit_dvd r.unit_dvd, by omega⟩]
  else [b.mark false]

/-- Hand out `r.size` bytes of the first free block that is large enough. -/
def allot (r : Block unit least) : List (Block unit least) → List (Block unit least)
  | [] => []
  | b :: bs => if b.free && r.size ≤ b.size then b.cut r ++ bs else b :: allot r bs

/-- Fuse `b` with the first of the blocks after it, when that one is free. -/
def fuseRight (b : Block unit least) :
    List (Block unit least) → Block unit least × List (Block unit least)
  | [] => (b, [])
  | c :: cs => if c.free then (b.fuse c, cs) else (b, c :: cs)

/-- Fuse `b` with the last of the blocks before it, when that one is free. -/
def fuseLeft : List (Block unit least) → Block unit least → List (Block unit least)
  | [], b => [b]
  | [p], b => if p.free then [p.fuse b] else [p, b]
  | p :: q :: ps, b => p :: fuseLeft (q :: ps) b

/-- The blocks `pre`, `b`, `post` with `b` fused with its free neighbours. -/
def merged (pre : List (Block unit least)) (b : Block unit least)
    (post : List (Block unit least)) : List (Block unit least) :=
  fuseLeft pre (fuseRight b post).1 ++ (fuseRight b post).2

/-- The last block, `prev` for an empty list. -/
def lastBlock (prev : Option (Block unit least)) :
    List (Block unit least) → Option (Block unit least)
  | [] => prev
  | b :: bs => lastBlock (some b) bs

/-- A block starts at `v`, or the region ends there. -/
def Boundary (a : Nat) (bs : List (Block unit least)) (v : Nat) : Prop :=
  v = a + extent bs ∨ ∃ b, (v, b) ∈ place a bs

/-- The block `b` at `a` is the lowest of the free blocks of at least `need` bytes. -/
def LowestFit (need lo : Nat) (bs : List (Block unit least)) (a : Nat) (b : Block unit least) :
    Prop :=
  (a, b) ∈ place lo bs ∧ b.free = true ∧ need ≤ b.size ∧
    ∀ x c, (x, c) ∈ place lo bs → c.free = true → need ≤ c.size → a ≤ x

/-! ## Extent and addresses -/

@[simp] theorem Block.size_mark (b : Block unit least) (f : Bool) : (b.mark f).size = b.size := rfl

@[simp] theorem Block.free_mark (b : Block unit least) (f : Bool) : (b.mark f).free = f := rfl

@[simp] theorem Block.size_fuse (b c : Block unit least) : (b.fuse c).size = b.size + c.size := rfl

@[simp] theorem Block.free_fuse (b c : Block unit least) : (b.fuse c).free = true := rfl

@[simp] theorem extent_nil : extent ([] : List (Block unit least)) = 0 := rfl

@[simp] theorem extent_cons (b : Block unit least) (bs : List (Block unit least)) :
    extent (b :: bs) = b.size + extent bs := rfl

@[simp] theorem extent_append (bs cs : List (Block unit least)) :
    extent (bs ++ cs) = extent bs + extent cs := by
  induction bs with
  | nil => simp
  | cons b bs ih => simp only [List.cons_append, extent_cons, ih, Nat.add_assoc]

@[simp] theorem lastFree_concat (f : Bool) (bs : List (Block unit least)) (b : Block unit least) :
    lastFree f (bs ++ [b]) = b.free := by
  induction bs generalizing f with
  | nil => rfl
  | cons c bs ih => exact ih c.free

theorem place_append (a : Nat) (bs cs : List (Block unit least)) :
    place a (bs ++ cs) = place a bs ++ place (a + extent bs) cs := by
  induction bs generalizing a with
  | nil => rfl
  | cons b bs ih => simp only [List.cons_append, place, ih, extent_cons, Nat.add_assoc]

/-- A placed block lies inside the region. -/
theorem place_bounds {a lo : Nat} {b : Block unit least} {bs : List (Block unit least)}
    (h : (a, b) ∈ place lo bs) : lo ≤ a ∧ a + b.size ≤ lo + extent bs := by
  induction bs generalizing lo with
  | nil => cases h
  | cons c bs ih =>
    simp only [place, List.mem_cons, Prod.mk.injEq] at h
    rcases h with ⟨rfl, rfl⟩ | h
    · simp only [extent_cons]; omega
    · have := ih h
      simp only [extent_cons]; omega

/-- A block is placed at `a` exactly when the blocks before it reach up to `a`. -/
theorem mem_place_iff {a lo : Nat} {b : Block unit least} {bs : List (Block unit least)} :
    (a, b) ∈ place lo bs ↔ ∃ pre post, bs = pre ++ b :: post ∧ a = lo + extent pre := by
  constructor
  · intro h
    induction bs generalizing lo with
    | nil => cases h
    | cons c bs ih =>
      simp only [place, List.mem_cons, Prod.mk.injEq] at h
      rcases h with ⟨rfl, rfl⟩ | h
      · exact ⟨[], bs, rfl, rfl⟩
      · obtain ⟨pre, post, rfl, rfl⟩ := ih h
        exact ⟨c :: pre, post, rfl, by simp only [extent_cons]; omega⟩
  · rintro ⟨pre, post, rfl, rfl⟩
    rw [place_append]
    exact List.mem_append_right _ List.mem_cons_self

/-- Behind a placed block there is a whole block, or the end of the region. -/
theorem place_next {a lo : Nat} {b : Block unit least} {bs : List (Block unit least)}
    (h : (a, b) ∈ place lo bs) (hlt : a + b.size < lo + extent bs) :
    a + b.size + least ≤ lo + extent bs := by
  obtain ⟨pre, post, rfl, rfl⟩ := mem_place_iff.mp h
  simp only [extent_append, extent_cons] at hlt ⊢
  cases post with
  | nil =>
    rw [extent_nil] at hlt
    omega
  | cons c post =>
    have := c.least_le
    rw [extent_cons]
    omega

/-- A block in use is not one of the free blocks at the end. -/
theorem mem_place_of_used {a lo : Nat} {b : Block unit least} {pre post : List (Block unit least)}
    (h : (a, b) ∈ place lo (pre ++ post)) (hpost : ∀ c ∈ post, c.free = true)
    (hused : b.free = false) : (a, b) ∈ place lo pre := by
  rw [place_append, List.mem_append] at h
  rcases h with h | h
  · exact h
  · obtain ⟨mid, rest, rfl, -⟩ := mem_place_iff.mp h
    rw [hpost b (by simp)] at hused
    cases hused

/-- Two placed blocks are the same or one ends before the other starts. -/
theorem place_disjoint {lo a a' : Nat} {b b' : Block unit least} {bs : List (Block unit least)}
    (h : (a, b) ∈ place lo bs) (h' : (a', b') ∈ place lo bs) :
    (a = a' ∧ b = b') ∨ a + b.size ≤ a' ∨ a' + b'.size ≤ a := by
  induction bs generalizing lo with
  | nil => cases h
  | cons c bs ih =>
    simp only [place, List.mem_cons, Prod.mk.injEq] at h h'
    rcases h with ⟨rfl, rfl⟩ | h <;> rcases h' with ⟨rfl, rfl⟩ | h'
    · exact .inl ⟨rfl, rfl⟩
    · exact .inr (.inl (place_bounds h').1)
    · exact .inr (.inr (place_bounds h).1)
    · exact ih h h'

/-! ## Boundaries -/

theorem boundary_append (a : Nat) (pre post : List (Block unit least)) :
    Boundary a (pre ++ post) (a + extent pre) := by
  cases post with
  | nil => exact .inl (by simp only [extent_append, extent_nil, Nat.add_zero])
  | cons b post => exact .inr ⟨b, mem_place_iff.mpr ⟨pre, post, rfl, rfl⟩⟩

theorem Boundary.bounds {a v : Nat} {bs : List (Block unit least)} (h : Boundary a bs v) :
    a ≤ v ∧ v ≤ a + extent bs := by
  rcases h with rfl | ⟨b, hb⟩
  · omega
  · have := place_bounds hb
    omega

/-- No boundary lies inside a block. -/
theorem Boundary.outside {a c v : Nat} {b : Block unit least} {bs : List (Block unit least)}
    (h : Boundary a bs v) (hb : (c, b) ∈ place a bs) : v ≤ c ∨ c + b.size ≤ v := by
  rcases h with rfl | ⟨d, hd⟩
  · exact .inr (place_bounds hb).2
  · rcases place_disjoint hd hb with ⟨rfl, -⟩ | hle | hle
    · exact .inl (Nat.le_refl _)
    · exact .inl (by omega)
    · exact .inr hle

/-- Behind a boundary that is not the end there is room for a block. -/
theorem Boundary.room {a v : Nat} {bs : List (Block unit least)} (h : Boundary a bs v)
    (hlt : v < a + extent bs) : v + least ≤ a + extent bs := by
  rcases h with rfl | ⟨b, hb⟩
  · omega
  · have := place_bounds hb
    have := b.least_le
    omega

/-- So there is in front of a boundary that is not the start. -/
theorem Boundary.behind {a v : Nat} {bs : List (Block unit least)} (h : Boundary a bs v)
    (hlt : a < v) : a + least ≤ v := by
  cases bs with
  | nil =>
    have := h.bounds.2
    simp only [extent_nil] at this
    omega
  | cons b bs =>
    have hleast := b.least_le
    have := h.outside (c := a) (b := b) (by simp only [place, List.mem_cons, true_or])
    omega

@[simp] theorem lastBlock_append (prev : Option (Block unit least))
    (bs cs : List (Block unit least)) :
    lastBlock prev (bs ++ cs) = lastBlock (lastBlock prev bs) cs := by
  induction bs generalizing prev with
  | nil => rfl
  | cons b bs ih => exact ih (some b)

theorem extent_pos (hleast : 0 < least) {bs : List (Block unit least)} (h : bs ≠ []) :
    0 < extent bs := by
  cases bs with
  | nil => exact absurd rfl h
  | cons b bs =>
    have := b.least_le
    simp only [extent_cons]; omega

theorem extent_dvd (bs : List (Block unit least)) : unit ∣ extent bs := by
  induction bs with
  | nil => exact Nat.dvd_zero _
  | cons b bs ih => exact Nat.dvd_add b.unit_dvd ih

theorem length_le_extent (hleast : 0 < least) (bs : List (Block unit least)) :
    bs.length ≤ extent bs := by
  induction bs with
  | nil => exact Nat.le_refl 0
  | cons b bs ih =>
    have := b.least_le
    simp only [List.length_cons, extent_cons]; omega

/-- Nothing fits when every free block is too small. -/
theorem firstFit_eq_none {need a : Nat} {bs : List (Block unit least)}
    (h : ∀ c ∈ bs, c.free = true → c.size < need) : firstFit need a bs = none := by
  refine List.find?_eq_none.mpr fun p hp => ?_
  obtain ⟨pre, post, rfl, -⟩ := mem_place_iff.mp (show (p.1, p.2) ∈ place a bs from hp)
  have := h p.2 (by simp)
  simp only [Bool.and_eq_true, decide_eq_true_eq, not_and]
  intro hfree
  have := this hfree
  omega

/-- Behind blocks in use the first fit is the last block, if it is large enough. -/
theorem firstFit_concat {need a : Nat} {pre : List (Block unit least)} {c : Block unit least}
    (hpre : ∀ b ∈ pre, b.free = false) (hfree : c.free = true) (hfit : need ≤ c.size) :
    firstFit need a (pre ++ [c]) = some (a + extent pre, c) := by
  induction pre generalizing a with
  | nil => simp [firstFit, place, hfree, hfit]
  | cons b pre ih =>
    have hb : b.free = false := hpre b List.mem_cons_self
    have hrest := ih (a := a + b.size) fun d hd => hpre d (List.mem_cons_of_mem b hd)
    rw [firstFit] at hrest ⊢
    rw [List.cons_append, place, List.find?_cons]
    simp only [hb, Bool.false_and]
    rw [hrest, extent_cons, Nat.add_assoc]

/-- The first fit stands behind blocks that do not fit. -/
theorem firstFit_eq_some {need a x : Nat} {b : Block unit least} {bs : List (Block unit least)}
    (h : firstFit need a bs = some (x, b)) :
    ∃ pre post, bs = pre ++ b :: post ∧ x = a + extent pre ∧ b.free = true ∧ need ≤ b.size ∧
      ∀ c ∈ pre, c.free = true → c.size < need := by
  induction bs generalizing a with
  | nil => cases h
  | cons c bs ih =>
    rw [firstFit, place, List.find?_cons] at h
    cases hfit : (c.free && decide (need ≤ c.size)) with
    | true =>
      simp only [hfit, Option.some.injEq, Prod.mk.injEq] at h
      obtain ⟨rfl, rfl⟩ := h
      simp only [Bool.and_eq_true, decide_eq_true_eq] at hfit
      exact ⟨[], bs, rfl, rfl, hfit.1, hfit.2, by simp⟩
    | false =>
      simp only [hfit] at h
      obtain ⟨pre, post, rfl, rfl, hfree, hle, hpre⟩ := ih h
      refine ⟨c :: pre, post, rfl, by simp only [extent_cons]; omega, hfree, hle, ?_⟩
      rw [List.forall_mem_cons]
      refine ⟨fun hc => ?_, hpre⟩
      simpa [hc] using hfit

/-- No block that fits lies below the first fit. -/
theorem firstFit_le {need a x y : Nat} {b c : Block unit least} {bs : List (Block unit least)}
    (h : firstFit need a bs = some (x, b)) (hc : (y, c) ∈ place a bs) (hfree : c.free = true)
    (hle : need ≤ c.size) : x ≤ y := by
  obtain ⟨pre, post, rfl, rfl, -, -, hpre⟩ := firstFit_eq_some h
  rw [place_append, List.mem_append] at hc
  rcases hc with hc | hc
  · obtain ⟨mid, rest, rfl, -⟩ := mem_place_iff.mp hc
    have := hpre c (by simp) hfree
    omega
  · exact (place_bounds hc).1

/-- Some block fits exactly when there is a first fit. -/
theorem firstFit_isSome_iff {need a : Nat} {bs : List (Block unit least)} :
    (∃ c ∈ bs, c.free = true ∧ need ≤ c.size) ↔ ∃ x b, firstFit need a bs = some (x, b) := by
  constructor
  · rintro ⟨c, hc, hfree, hle⟩
    cases hfit : firstFit need a bs with
    | some p => exact ⟨p.1, p.2, rfl⟩
    | none =>
      obtain ⟨pre, post, rfl⟩ := List.append_of_mem hc
      have hmem : (a + extent pre, c) ∈ place a (pre ++ c :: post) :=
        mem_place_iff.mpr ⟨pre, post, rfl, rfl⟩
      have := List.find?_eq_none.mp hfit _ hmem
      simp [hfree, hle] at this
  · rintro ⟨x, b, hfit⟩
    obtain ⟨pre, post, rfl, -, hfree, hle, -⟩ := firstFit_eq_some hfit
    exact ⟨b, by simp, hfree, hle⟩

/-- The first fit is the lowest one. -/
theorem firstFit_eq_some_iff (hleast : 0 < least) {need lo a : Nat} {b : Block unit least}
    {bs : List (Block unit least)} :
    firstFit need lo bs = some (a, b) ↔ LowestFit need lo bs a b := by
  constructor
  · intro h
    obtain ⟨pre, post, rfl, rfl, hfree, hle, -⟩ := firstFit_eq_some h
    exact ⟨mem_place_iff.mpr ⟨pre, post, rfl, rfl⟩, hfree, hle, fun x c => firstFit_le h⟩
  · rintro ⟨hmem, hfree, hle, hlow⟩
    obtain ⟨pre, post, rfl, -⟩ := mem_place_iff.mp hmem
    obtain ⟨x, c, hfit⟩ := (firstFit_isSome_iff (a := lo)).mp
      ⟨b, show b ∈ pre ++ b :: post by simp, hfree, hle⟩
    have hxa := firstFit_le hfit hmem hfree hle
    obtain ⟨pre', post', heq, hx, hfree', hle', -⟩ := firstFit_eq_some hfit
    have hmem' : (x, c) ∈ place lo (pre ++ b :: post) := mem_place_iff.mpr ⟨pre', post', heq, hx⟩
    have hax := hlow x c hmem' hfree' hle'
    have hb := b.least_le
    have hc := c.least_le
    rcases place_disjoint hmem hmem' with ⟨rfl, rfl⟩ | hd | hd
    · exact hfit
    · omega
    · omega

/-! ## Free neighbours -/

@[simp] theorem freeBefore_concat (pre : List (Block unit least)) (p : Block unit least) :
    freeBefore (pre ++ [p]) = if p.free then p.size else 0 := by
  induction pre with
  | nil => rfl
  | cons q pre ih => cases pre <;> exact ih

@[simp] theorem fuseLeft_concat (pre : List (Block unit least)) (p b : Block unit least) :
    fuseLeft (pre ++ [p]) b = if p.free then pre ++ [p.fuse b] else pre ++ [p, b] := by
  induction pre with
  | nil => rfl
  | cons q pre ih =>
    cases pre with
    | nil => simp only [List.cons_append, List.nil_append, fuseLeft]; split <;> rfl
    | cons r pre =>
      rw [List.cons_append, List.cons_append, fuseLeft, ← List.cons_append, ih]
      split <;> rfl

/-- A block with no free block before it stays as it is. -/
theorem fuseLeft_of_lastFree_eq_false {pre : List (Block unit least)} {b : Block unit least}
    (h : lastFree false pre = false) : fuseLeft pre b = pre ++ [b] := by
  induction pre using List.reverseRecOn with
  | nil => rfl
  | append_singleton pre p _ =>
    rw [lastFree_concat] at h
    simp [h]

/-- Either no free block ends the list, or the list ends with one. -/
theorem lastFree_cases (pre : List (Block unit least)) :
    lastFree false pre = false ∨ ∃ pre' p, pre = pre' ++ [p] ∧ p.free = true := by
  induction pre using List.reverseRecOn with
  | nil => exact .inl rfl
  | append_singleton pre p _ =>
    rw [lastFree_concat]
    cases hp : p.free with
    | false => exact .inl rfl
    | true => exact .inr ⟨pre, p, rfl, hp⟩

/-- Among blocks in use the last one is in use. -/
theorem lastFree_eq_false {pre : List (Block unit least)} (h : ∀ b ∈ pre, b.free = false) :
    lastFree false pre = false := by
  rcases lastFree_cases pre with hl | ⟨pre', p, rfl, hp⟩
  · exact hl
  · rw [h p (by simp)] at hp
    cases hp

theorem freeBefore_of_lastFree_eq_false {pre : List (Block unit least)}
    (h : lastFree false pre = false) : freeBefore pre = 0 := by
  rcases lastFree_cases pre with _ | ⟨pre', p, rfl, hp⟩
  · induction pre using List.reverseRecOn with
    | nil => rfl
    | append_singleton pre p _ =>
      rw [lastFree_concat] at h
      simp [h]
  · rw [lastFree_concat, hp] at h
    cases h

theorem freeBefore_le_extent (pre : List (Block unit least)) : freeBefore pre ≤ extent pre := by
  rcases lastFree_cases pre with h | ⟨pre', p, rfl, hp⟩
  · rw [freeBefore_of_lastFree_eq_false h]; exact Nat.zero_le _
  · simp [hp]

theorem extent_fuseLeft (pre : List (Block unit least)) (b : Block unit least) :
    extent (fuseLeft pre b) = extent pre + b.size := by
  induction pre using List.reverseRecOn with
  | nil => simp [fuseLeft]
  | append_singleton pre p _ =>
    rw [fuseLeft_concat]
    split <;> simp [Nat.add_assoc]

theorem separated_append {bs cs : List (Block unit least)} :
    Separated (bs ++ cs) ↔ Separated bs ∧ Separated cs ∧
      ∀ b ∈ bs.getLast?, ∀ c ∈ cs.head?, ¬(b.free = true ∧ c.free = true) :=
  List.isChain_append

theorem Separated.behind {pre post : List (Block unit least)} {b : Block unit least}
    (h : Separated (pre ++ b :: post)) : Separated post := by
  have hsplit : Separated (pre ++ [b] ++ post) := by
    rwa [List.append_assoc, List.singleton_append]
  exact (separated_append.mp hsplit).2.1

theorem separated_cons_cons {b c : Block unit least} {bs : List (Block unit least)} :
    Separated (b :: c :: bs) ↔ ¬(b.free = true ∧ c.free = true) ∧ Separated (c :: bs) :=
  List.isChain_cons_cons

/-- Only the free flag of a block matters to its neighbours. -/
theorem separated_cons_congr {b c : Block unit least} {bs : List (Block unit least)}
    (h : c.free = b.free) : Separated (c :: bs) ↔ Separated (b :: bs) := by
  cases bs with
  | nil => simp [Separated]
  | cons d bs => rw [separated_cons_cons, separated_cons_cons, h]

theorem separated_fuseRight {b : Block unit least} {post : List (Block unit least)}
    (h : Separated post) :
    Separated ((fuseRight b post).1 :: (fuseRight b post).2) := by
  cases post with
  | nil => simp [fuseRight, Separated]
  | cons c cs =>
    simp only [fuseRight]
    split
    · next hc => exact (separated_cons_congr (by simp [hc])).mpr h
    · next hc => exact separated_cons_cons.mpr ⟨fun hbc => hc hbc.2, h⟩

theorem free_fuseRight {b : Block unit least} {post : List (Block unit least)}
    (hfree : b.free = true) : (fuseRight b post).1.free = true := by
  cases post with
  | nil => exact hfree
  | cons c cs =>
    simp only [fuseRight]
    split
    · rfl
    · exact hfree

theorem separated_fuseLeft {pre : List (Block unit least)} {b : Block unit least}
    {bs : List (Block unit least)} (hfree : b.free = true) (hpre : Separated pre)
    (h : Separated (b :: bs)) : Separated (fuseLeft pre b ++ bs) := by
  induction pre using List.reverseRecOn with
  | nil => exact h
  | append_singleton pre p _ =>
    obtain ⟨hinit, -, hlast⟩ := separated_append.mp hpre
    rw [fuseLeft_concat]
    split
    · next hp =>
      rw [List.append_assoc, List.singleton_append]
      refine separated_append.mpr ⟨hinit, (separated_cons_congr (by simp [hfree])).mpr h, ?_⟩
      intro q hq c hc hqc
      exact hlast q hq p rfl ⟨hqc.1, hp⟩
    · next hp =>
      rw [List.append_assoc, List.cons_append, List.singleton_append]
      refine separated_append.mpr ⟨hinit, separated_cons_cons.mpr ⟨fun hpb => hp hpb.1, h⟩, ?_⟩
      intro q hq c hc hqc
      cases hc
      exact hp hqc.2

/-- Freeing one block of a separated list and fusing it with its free neighbours
gives a separated list again. -/
theorem separated_merged {pre : List (Block unit least)} {b : Block unit least}
    {post : List (Block unit least)} (h : Separated (pre ++ b :: post)) :
    Separated (merged pre (b.mark true) post) := by
  have hpre := (separated_append.mp h).1
  exact separated_fuseLeft (free_fuseRight rfl) hpre (separated_fuseRight h.behind)

/-- The blocks before the fused one: those of `pre` that are not swallowed. -/
theorem fuseLeft_eq (pre : List (Block unit least)) (b : Block unit least) :
    ∃ pre' c, fuseLeft pre b = pre' ++ [c] ∧ c.size = freeBefore pre + b.size ∧
      extent pre' + freeBefore pre = extent pre := by
  rcases lastFree_cases pre with h | ⟨pre', p, rfl, hp⟩
  · refine ⟨pre, b, fuseLeft_of_lastFree_eq_false h, ?_, ?_⟩ <;>
      rw [freeBefore_of_lastFree_eq_false h] <;> omega
  · exact ⟨pre', p.fuse b, by simp [hp], by simp [hp], by simp [hp]⟩

/-- Fusing around `b` leaves every other block in use where it was. -/
theorem mem_place_merged {lo a : Nat} {pre post : List (Block unit least)}
    {b c : Block unit least} (b' : Block unit least) (h : (a, c) ∈ place lo (pre ++ b :: post))
    (hsize : b'.size = b.size) (hused : c.free = false) (hne : a ≠ lo + extent pre) :
    (a, c) ∈ place lo (merged pre b' post) := by
  rw [merged, place_append, extent_fuseLeft]
  rw [place_append, place, List.mem_append, List.mem_cons] at h
  rcases h with h | h | h
  · refine List.mem_append_left _ ?_
    rcases lastFree_cases pre with hl | ⟨pre', p, rfl, hp⟩
    · rw [fuseLeft_of_lastFree_eq_false hl, place_append]
      exact List.mem_append_left _ h
    · rw [fuseLeft_concat, if_pos hp, place_append]
      rw [place_append, List.mem_append] at h
      rcases h with h | h
      · exact List.mem_append_left _ h
      · simp only [place, List.mem_singleton, Prod.mk.injEq] at h
        rw [h.2, hp] at hused
        cases hused
  · simp only [Prod.mk.injEq] at h
    exact absurd h.1 hne
  · refine List.mem_append_right _ ?_
    cases post with
    | nil => cases h
    | cons d post =>
      simp only [fuseRight]
      split
      · next hd =>
        simp only [place, List.mem_cons, Prod.mk.injEq] at h
        rcases h with ⟨-, rfl⟩ | h
        · rw [hd] at hused; cases hused
        · rw [show lo + (extent pre + (b'.fuse d).size) = lo + extent pre + b.size + d.size by
            simp only [Block.size_fuse, hsize]; omega]
          exact h
      · rw [show lo + (extent pre + b'.size) = lo + extent pre + b.size by rw [hsize]; omega]
        exact h

/-! ## Serving a request -/

theorem cut_of_lt {b r : Block unit least} (h : b.size < r.size + least) :
    b.cut r = [b.mark false] := by
  rw [Block.cut, dif_neg (by omega)]

theorem extent_cut {b r : Block unit least} (h : r.size ≤ b.size) :
    extent (b.cut r) = b.size := by
  unfold Block.cut
  split
  · simp only [extent_cons, extent_nil, Block.size_mark]
    omega
  · simp

/-- A request is served by the first fit. -/
theorem allot_append_cons {r b : Block unit least} {pre post : List (Block unit least)}
    (hpre : ∀ c ∈ pre, c.free = true → c.size < r.size) (hfree : b.free = true)
    (hle : r.size ≤ b.size) : allot r (pre ++ b :: post) = pre ++ b.cut r ++ post := by
  induction pre with
  | nil => simp [allot, hfree, hle]
  | cons c pre ih =>
    have hc : ¬(c.free && decide (r.size ≤ c.size)) = true := by
      simp only [Bool.and_eq_true, decide_eq_true_eq, not_and]
      intro hfree_c
      have := hpre c List.mem_cons_self hfree_c
      omega
    rw [List.cons_append, allot, if_neg hc, ih fun d hd => hpre d (List.mem_cons_of_mem c hd)]
    rfl

/-- What stands where a free block was neither touches a free block before nor one after. -/
theorem separated_cut {pre post : List (Block unit least)} {b : Block unit least}
    (r : Block unit least) (h : Separated (pre ++ b :: post)) (hfree : b.free = true) :
    Separated (pre ++ b.cut r ++ post) := by
  have hpre := (separated_append.mp h).1
  have hpost := h.behind
  have hafter : ∀ c ∈ post.head?, c.free = false := by
    intro c hc
    cases post with
    | nil => cases hc
    | cons d post =>
      cases hc
      have hbc := (separated_cons_cons.mp (separated_append.mp h).2.1).1
      simpa [hfree] using hbc
  rw [List.append_assoc]
  refine separated_append.mpr ⟨hpre, ?_, ?_⟩
  · unfold Block.cut
    split
    · refine separated_cons_cons.mpr ⟨by simp, ?_⟩
      cases post with
      | nil => simp [Separated]
      | cons d post => exact separated_cons_cons.mpr ⟨by simp [hafter d rfl], hpost⟩
    · cases post with
      | nil => simp [Separated]
      | cons d post => exact separated_cons_cons.mpr ⟨by simp, hpost⟩
  · intro p _ c hc hpc
    have hused : c.free = false := by
      unfold Block.cut at hc
      split at hc <;> (cases hc; rfl)
    rw [hused] at hpc
    cases hpc.2

theorem separated_allot {r : Block unit least} {a x : Nat} {b : Block unit least}
    {bs : List (Block unit least)} (h : Separated bs)
    (hfit : firstFit r.size a bs = some (x, b)) : Separated (allot r bs) := by
  obtain ⟨pre, post, rfl, -, hfree, hle, hpre⟩ := firstFit_eq_some hfit
  rw [allot_append_cons hpre hfree hle]
  exact separated_cut r h hfree

/-! ## Free blocks at the end only -/

theorem freeOnlyLast_append_cons {pre : List (Block unit least)} {b : Block unit least}
    {post : List (Block unit least)} :
    FreeOnlyLast (pre ++ b :: post) ↔ (∀ c ∈ pre, c.free = false) ∧ FreeOnlyLast (b :: post) := by
  unfold FreeOnlyLast
  rw [List.dropLast_append_of_ne_nil (List.cons_ne_nil b post)]
  simp only [List.mem_append]
  constructor
  · exact fun h => ⟨fun c hc => h c (.inl hc), fun c hc => h c (.inr hc)⟩
  · rintro ⟨hl, hr⟩ c (hc | hc)
    · exact hl c hc
    · exact hr c hc

theorem freeOnlyLast_concat {bs : List (Block unit least)} {b : Block unit least} :
    FreeOnlyLast (bs ++ [b]) ↔ ∀ c ∈ bs, c.free = false := by
  simp [FreeOnlyLast]

/-- If the last block is in use, all are. -/
theorem FreeOnlyLast.all_used {bs : List (Block unit least)} (h : FreeOnlyLast bs)
    (hlast : lastFree false bs = false) : ∀ c ∈ bs, c.free = false := by
  induction bs using List.reverseRecOn with
  | nil => simp
  | append_singleton bs p _ =>
    rw [lastFree_concat] at hlast
    intro c hc
    rcases List.mem_append.mp hc with hc | hc
    · exact freeOnlyLast_concat.mp h c hc
    · rw [List.mem_singleton.mp hc, hlast]

theorem FreeOnlyLast.separated {bs : List (Block unit least)} (h : FreeOnlyLast bs) :
    Separated bs := by
  induction bs with
  | nil => exact List.isChain_nil
  | cons b bs ih =>
    cases bs with
    | nil => simp [Separated]
    | cons c bs =>
      have hb : b.free = false := h b (by simp)
      refine separated_cons_cons.mpr ⟨by simp [hb], ih fun d hd => h d ?_⟩
      simp only [List.dropLast_cons_cons]
      exact List.mem_cons_of_mem _ hd

end BlockList
