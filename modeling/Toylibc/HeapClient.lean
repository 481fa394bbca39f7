import Toylibc.HeapObjects
import Toylibc.RunSafety

/-!
# What a client of the heap may rely on

The results for whole runs. The answers of the heap are those of a store of objects
(`heap_refines_objects`), and a byte that was stored through a lent pointer is read back until it
is overwritten or its object ends, wherever `toylibc_realloc` has moved it (`stored_byte_kept`).
-/

namespace Toylibc

open ByteMemory BlockList Transition Objects

theorem Refines.trace {K : Kernel} (hK : K.Lawful) {s s' : State} {o : Store UInt8}
    {es : List (Event × Nat)} (h : Refines K s o) (hrun : Trace (HeapStep K) s es s') :
    ∃ o', Trace ObjectStep o es o' ∧ Refines K s' o' := by
  refine Trace.simulate (Refines K) ?_ h hrun
  intro s o e p s' hR hstep
  exact hR.step hK hstep

/-- Every event that the interface admits is answered, as the store of objects may answer. -/
theorem Refines.answers {K : Kernel} (hK : K.Lawful) {s : State} {o : Store UInt8}
    (h : Refines K s o) {e : Event} (hr : Respects s e) (ha : AvoidsDefects K s e)
    (hwhole : MovesWhole K s e) : ∃ p s', HeapStep K s e p s' ∧ MayAnswer o p e := by
  obtain ⟨bs, hs⟩ := h.sound
  obtain ⟨s', -, hstep, -⟩ := step_sound hK hs hr ha
  obtain ⟨p, w, hcall, -⟩ := call_of_step hstep
  have hone : HeapStep K s e p ⟨w, relend s.lent p e⟩ := ⟨hr, ha, hwhole, w, hcall, rfl⟩
  obtain ⟨o', ⟨hmay, -⟩, -⟩ := h.step hK hone
  exact ⟨p, _, hone, hmay⟩

/-- The heap refines the store of objects: every run that respects the interface and avoids the
defects is, with its answers, a run of the store; at its end the objects are what is lent, they
have no byte in common, the memory holds all that is known of them, and every event that the
interface admits is answered. -/
theorem heap_refines_objects {K : Kernel} (hK : K.Lawful) {s s' : State}
    {es : List (Event × Nat)} (hs : Fresh s) (hrun : Trace (HeapStep K) s es s') :
    ∃ o, Trace ObjectStep Store.empty es o ∧ o.Separate ∧ Represents s'.heap.mem s'.lent o ∧
      ∀ e, Respects s' e → AvoidsDefects K s' e → MovesWhole K s' e →
        ∃ p s'', HeapStep K s' e p s'' ∧ MayAnswer o p e := by
  obtain ⟨o, hobjects, hrefines⟩ := (hs.refines hK).trace hK hrun
  refine ⟨o, hobjects, ?_, hrefines.represents, fun e => hrefines.answers hK⟩
  exact hobjects.invariant Store.Separate (fun _ _ _ _ hsep hstep => hstep.separate hsep)
    Store.separate_empty

/-- Blocks and a mapping are lent, stored to, moved and freed. -/
theorem orderlyRun_refines_objects :
    ∃ o, Trace ObjectStep Store.empty (answered smallKernel freshState orderlyRun) o ∧
      o.Separate ∧ Represents (stateAfter orderlyRun).heap.mem (stateAfter orderlyRun).lent o ∧
      ∀ e, Respects (stateAfter orderlyRun) e →
        AvoidsDefects smallKernel (stateAfter orderlyRun) e →
        MovesWhole smallKernel (stateAfter orderlyRun) e →
        ∃ p s'', HeapStep smallKernel (stateAfter orderlyRun) e p s'' ∧ MayAnswer o p e :=
  heap_refines_objects smallKernel_lawful fresh_freshState (trace_answered (by decide +kernel))

/-! ## A byte and its object -/

/-- Where the object at `a` is after an event that was answered `p`; `none` when it has ended, or
when its byte at the index `i` has been overwritten or cut off. -/
def placeAfter (i a p : Nat) : Event → Option Nat
  | .free ptr => if ptr = a then none else some a
  | .realloc ptr newsz =>
    if ptr ≠ a then some a
    else if newsz ≤ i then none
    else if p = 0 then some a
    else some p
  | .write addr _ => if addr = a + i then none else some a
  | .malloc _ => some a
  | .calloc _ _ => some a

/-- The same after several events. -/
def placeAfterAll (i : Nat) : Nat → List (Event × Nat) → Option Nat
  | a, [] => some a
  | a, (e, p) :: es => (placeAfter i a p e).bind fun a' => placeAfterAll i a' es

theorem knows_lendObject {o : Store UInt8} {p a i n : Nat} {b : UInt8} (hk : o.Knows a i b)
    (hmay : MayLend o p n) (c : List (Option UInt8)) : (lendObject o p c).Knows a i b := by
  unfold lendObject
  split
  · exact hk
  · next hp =>
    obtain ⟨-, -, -, hvacant⟩ := hmay.resolve_left hp
    exact hk.put_of_ne (hvacant.ne_of_knows hk) c

/-- One event keeps the byte, in its object. -/
theorem ObjectStep.knows {o o' : Store UInt8} {e : Event} {p a a' i : Nat} {b : UInt8}
    (h : ObjectStep o e p o') (hpos : a ≠ 0) (hk : o.Knows a i b)
    (hplace : placeAfter i a p e = some a') : a' ≠ 0 ∧ o'.Knows a' i b := by
  obtain ⟨hanswer, rfl⟩ := h
  cases e with
  | malloc sz =>
    cases hplace
    exact ⟨hpos, knows_lendObject hk hanswer _⟩
  | calloc n sz =>
    cases hplace
    exact ⟨hpos, knows_lendObject hk hanswer _⟩
  | free ptr =>
    dsimp only [placeAfter] at hplace
    split at hplace
    · cases hplace
    · next hne =>
      cases hplace
      exact ⟨hpos, hk.drop_of_ne (Ne.symm hne)⟩
  | write addr b' =>
    dsimp only [placeAfter] at hplace
    split at hplace
    · cases hplace
    · next hne =>
      cases hplace
      exact ⟨hpos, hk.poke_of_ne hne b'⟩
  | realloc ptr newsz =>
    dsimp only [placeAfter, MayAnswer, objectsAfter] at hplace hanswer ⊢
    by_cases hnull : ptr = 0
    · rw [if_pos hnull] at hanswer ⊢
      rw [if_pos (by rw [hnull]; exact hpos.symm)] at hplace
      cases hplace
      exact ⟨hpos, knows_lendObject hk hanswer _⟩
    rw [if_neg hnull] at hanswer ⊢
    by_cases hother : ptr ≠ a
    · -- another object is moved
      rw [if_pos hother] at hplace
      cases hplace
      refine ⟨hpos, ?_⟩
      have hk' := hk.drop_of_ne hother.symm
      split_ifs at hanswer ⊢ with hzero hp
      · exact hk'
      · exact hk
      · obtain ⟨-, -, -, hvacant⟩ := hanswer.resolve_left hp
        exact hk'.put_of_ne (hvacant.ne_of_knows hk') _
    · rw [if_neg hother] at hplace
      rw [not_not] at hother
      subst hother
      split_ifs at hplace with hcut hp
      · cases hplace
        rw [if_neg (by omega), if_pos hp]
        exact ⟨hpos, hk⟩
      · cases hplace
        rw [if_neg (by omega), if_neg hp]
        obtain ⟨c, hc, hb⟩ := hk
        refine ⟨hp, _, Store.put_self .., ?_⟩
        rw [hc, Option.getD_some]
        exact getElem?_resize_of_lt (by omega) hb

theorem knows_trace {o o' : Store UInt8} {es : List (Event × Nat)} {a a' i : Nat} {b : UInt8}
    (h : Trace ObjectStep o es o') (hpos : a ≠ 0) (hk : o.Knows a i b)
    (hplace : placeAfterAll i a es = some a') : o'.Knows a' i b := by
  induction h generalizing a with
  | nil =>
    cases hplace
    exact hk
  | cons hfirst _ ih =>
    obtain ⟨a1, hfirst_place, hrest⟩ := Option.bind_eq_some_iff.mp hplace
    obtain ⟨hpos1, hk1⟩ := hfirst.knows hpos hk hfirst_place
    exact ih hpos1 hk1 hrest

/-- A byte stored through a lent pointer is read back at the end of every run that follows, at the
place to which its object has been moved, unless it was overwritten or cut off or the object has
ended. -/
theorem stored_byte_kept {K : Kernel} (hK : K.Lawful) {s s₁ s' : State}
    {es es' : List (Event × Nat)} {l : Lent} {i a' : Nat} {b : UInt8} (hs : Fresh s)
    (hbefore : Trace (HeapStep K) s es s₁) (hl : l ∈ s₁.lent) (hi : i < l.size)
    (hafter : Trace (HeapStep K) s₁ ((.write (l.ptr + i) b, 0) :: es') s')
    (hplace : placeAfterAll i l.ptr es' = some a') : loadByte s'.heap.mem (a' + i) = b := by
  obtain ⟨o, -, hrefines⟩ := (hs.refines hK).trace hK hbefore
  obtain ⟨bs, hsound⟩ := hrefines.sound
  have hpos : l.ptr ≠ 0 := ptr_ne_zero_of_backed (hsound.backed l hl)
  obtain ⟨c, hc, hlen⟩ :=
    Option.map_eq_some_iff.mp ((hrefines.represents.lent_iff l.ptr l.size).mp hl)
  obtain ⟨o', hobjects, hrefines'⟩ := hrefines.trace hK hafter
  cases hobjects with
  | cons hwrite hrest =>
    obtain ⟨-, rfl⟩ := hwrite
    have hk := knows_trace hrest hpos (Store.knows_poke hc (by omega) b) hplace
    exact hrefines'.represents.holds.read_eq hk

/-- A byte is stored into a mapping. -/
def filledMapping : State :=
  follow (step smallKernel) (stateAfter [.malloc 200000]) [.write 70368744177675 7]

/-- The mapping shrinks into a block, where the byte is, and another mapping takes its place. -/
theorem filledMapping_byte :
    loadByte (follow (step smallKernel) filledMapping
      [.realloc 70368744177672 40, .malloc 200000]).heap.mem (4104 + 3) = 7 := by
  have hbefore : Trace (HeapStep smallKernel) freshState
      (answered smallKernel freshState [.malloc 200000]) (stateAfter [.malloc 200000]) :=
    trace_answered (by decide +kernel)
  have hlent : (⟨70368744177672, 200000⟩ : Lent) ∈ (stateAfter [.malloc 200000]).lent := by
    decide +kernel
  have hwrite : HeapStep smallKernel (stateAfter [.malloc 200000]) (.write 70368744177675 7) 0
      filledMapping :=
    ⟨⟨_, hlent, 3, by decide, by decide⟩, trivial, trivial, _, rfl, rfl⟩
  have hafter := trace_answered (K := smallKernel) (s := filledMapping)
    (show Legal _ _ _ [.realloc 70368744177672 40, .malloc 200000] by decide +kernel)
  have hanswers : answered smallKernel filledMapping [.realloc 70368744177672 40, .malloc 200000] =
      [(.realloc 70368744177672 40, 4104), (.malloc 200000, 70368744177672)] := by
    decide +kernel
  rw [hanswers] at hafter
  exact stored_byte_kept smallKernel_lawful fresh_freshState hbefore hlent
    (show 3 < 200000 by decide) (.cons hwrite hafter) (by decide)

end Toylibc
