import Toylibc.Session

/-!
# What `calloc` owes

`toylibc_calloc` detects a product that does not fit by a division, and refuses it before it
has touched anything. Any other call is a `toylibc_malloc` of the product, and clears the bytes
that were asked for and no others (`calloc_zeroes`).
-/

namespace Toylibc

open ByteMemory

/-- `[p, p + n)` is cleared, and nothing else changed. -/
structure Zeroed (m m' : Mem) (p n : Nat) : Prop where
  zero : ∀ i, i < n → loadByte m' (p + i) = 0
  frame : SameOutside m m' p (p + n)

theorem memset_zeroed (m : Mem) {p n : Nat} (htop : p + n ≤ space) :
    Zeroed m (toylibcMemset m p 0 n).1 p n where
  zero := loadByte_fillUp m (i := 0) _ htop
  frame := fillUp_sameOutside m p _ 0 n htop

/-- `toylibc_calloc` refuses a product that does not fit into 64 bits, and nothing but that
product: otherwise it answers what `toylibc_malloc` answers, with the bytes cleared. -/
theorem calloc_zeroes (K : Kernel) (w : Heap) (n sz : Nat) :
    (2 ^ 64 ≤ n * sz → toylibcCalloc K w n sz = some (0, w)) ∧
      (n * sz < 2 ^ 64 →
        (toylibcMalloc K w (n * sz) = none → toylibcCalloc K w n sz = none) ∧
        ∀ p w', toylibcMalloc K w (n * sz) = some (p, w') →
          (p = 0 → toylibcCalloc K w n sz = some (0, w')) ∧
          (p ≠ 0 → ∃ m', toylibcCalloc K w n sz = some (p, { w' with mem := m' }) ∧
            (p + n * sz ≤ space → Zeroed w'.mem m' p (n * sz)))) := by
  refine ⟨toylibcCalloc_overflow, fun hfits => ⟨fun hmalloc => ?_, fun p w' hmalloc => ?_⟩⟩
  · rw [toylibcCalloc_fits hfits, hmalloc]
  · rw [toylibcCalloc_fits hfits, hmalloc]
    refine ⟨fun hnull => if_pos hnull, fun hp => ?_⟩
    exact ⟨(toylibcMemset w'.mem p 0 (n * sz)).1, if_neg hp, memset_zeroed w'.mem⟩

/-- A heap that is not initialised, in a memory of which every byte is `0xFF`. -/
def dirtyHeap : Heap := ⟨⟨fun _ => 0xFF, []⟩, 0, 0, false, []⟩

/-- Three words of eight bytes are cleared. -/
theorem dirtyHeap_calloc : ∃ w', toylibcCalloc smallKernel dirtyHeap 3 8 = some (4104, w') ∧
    loadByte w'.mem 4127 = 0 := by
  have hanswer : (toylibcMalloc smallKernel dirtyHeap (3 * 8)).map (·.1) = some 4104 := by
    decide +kernel
  obtain ⟨⟨p, w'⟩, hmalloc, hp⟩ := Option.map_eq_some_iff.mp hanswer
  dsimp only at hp
  subst hp
  obtain ⟨m', hcall, hzeroed⟩ :=
    (((calloc_zeroes smallKernel dirtyHeap 3 8).2 (by decide)).2 _ w' hmalloc).2 (by decide)
  exact ⟨_, hcall, (hzeroed (by decide)).zero 23 (by decide)⟩

end Toylibc
