import Toylibc.Lib.Transition
import Toylibc.ParseLine

/-!
# `parse_line` from one loop head to the next

The two loops of `parse_line` as a machine that stops at every loop head and remembers the
indices that it has stored to. What `parseLine` returns is where this machine ends
(`parseLine_passes`).

At every head the write cursor is not behind the read cursor, and everything from the read
cursor on is as it was (`Reading`), so no byte is overwritten before it is read. No store leaves
the line or `argv` (`parse_safe`).
-/

namespace Toylibc

open Buffer Transition

/-- Where a call of `parse_line` is: at the head of the outer loop, at the head of the loop that
skips spaces, or behind its last store. -/
inductive ParsePoint
  | outer
  | skip
  | done
deriving DecidableEq

/-- A call of `parse_line`, and the indices of the text and of `argv` that were stored to. -/
structure ParseRun where
  point : ParsePoint
  st : ParseState
  stored : List Nat
  slots : List Nat

/-- Up to the outer loop. -/
def parseStart (buf : List UInt8) (argv : List (Option Nat)) : Option ParseRun := do
  let argv ← store argv 0 (some 0)
  some ⟨.outer, ⟨buf, argv, 0, 0, 1, false⟩, [], [0]⟩

/-- From a loop head to the next one, or to the end. -/
def parseStep (r : ParseRun) : Option ParseRun :=
  let st := r.st
  match r.point, st.buf[st.input]? with
  | .done, _ => none
  | _, none => none
  | .outer, some c =>
    if c = 0 then do
      let buf ← store st.buf st.out 0
      let argv ← store st.argv st.argc none
      some ⟨.done, { st with buf := buf, argv := argv }, st.out :: r.stored, st.argc :: r.slots⟩
    else if c = ch '"' then
      some ⟨.outer, { st with inQuote := !st.inQuote, input := st.input + 1 }, r.stored, r.slots⟩
    else if c = ch ' ' ∧ st.inQuote = false then do
      let buf ← store st.buf st.out 0
      some ⟨.skip, { st with buf := buf, input := st.input + 1, out := st.out + 1 },
        st.out :: r.stored, r.slots⟩
    else do
      let buf ← store st.buf st.out c
      some ⟨.outer, { st with buf := buf, input := st.input + 1, out := st.out + 1 },
        st.out :: r.stored, r.slots⟩
  | .skip, some c =>
    if c = ch ' ' then some ⟨.skip, { st with input := st.input + 1 }, r.stored, r.slots⟩
    else if c ≠ 0 ∧ st.argc < maxArgs - 1 then do
      let argv ← store st.argv st.argc (some st.out)
      some ⟨.outer, { st with argv := argv, argc := st.argc + 1 }, r.stored, st.argc :: r.slots⟩
    else some ⟨.outer, st, r.stored, r.slots⟩

/-- The heads, and the end, that a call of `parse_line` passes. -/
def Passes (buf : List UInt8) (argv : List (Option Nat)) : ParseRun → Prop :=
  Reach (fun r => parseStart buf argv = some r) (fun _ _ => True) fun r (_ : Unit) => parseStep r

/-- What one step can do. -/
inductive ParseMove : ParseRun → ParseRun → Prop
  | finish {st stored slots} (hread : st.buf[st.input]? = some 0) (hout : st.out < st.buf.length)
      (hslot : st.argc < st.argv.length) :
      ParseMove ⟨.outer, st, stored, slots⟩
        ⟨.done, { st with buf := st.buf.set st.out 0, argv := st.argv.set st.argc none },
          st.out :: stored, st.argc :: slots⟩
  | quote {st stored slots} (hread : st.buf[st.input]? = some (ch '"')) :
      ParseMove ⟨.outer, st, stored, slots⟩
        ⟨.outer, { st with inQuote := !st.inQuote, input := st.input + 1 }, stored, slots⟩
  | space {st stored slots} (hread : st.buf[st.input]? = some (ch ' ')) (hq : st.inQuote = false)
      (hout : st.out < st.buf.length) :
      ParseMove ⟨.outer, st, stored, slots⟩
        ⟨.skip, { st with buf := st.buf.set st.out 0, input := st.input + 1, out := st.out + 1 },
          st.out :: stored, slots⟩
  | copy {st stored slots} {c : UInt8} (hread : st.buf[st.input]? = some c) (hnul : c ≠ 0)
      (hquote : c ≠ ch '"') (hgap : ¬(c = ch ' ' ∧ st.inQuote = false))
      (hout : st.out < st.buf.length) :
      ParseMove ⟨.outer, st, stored, slots⟩
        ⟨.outer, { st with buf := st.buf.set st.out c, input := st.input + 1, out := st.out + 1 },
          st.out :: stored, slots⟩
  | skip {st stored slots} (hread : st.buf[st.input]? = some (ch ' ')) :
      ParseMove ⟨.skip, st, stored, slots⟩
        ⟨.skip, { st with input := st.input + 1 }, stored, slots⟩
  | next {st stored slots} {c : UInt8} (hread : st.buf[st.input]? = some c) (hnul : c ≠ 0)
      (hspace : c ≠ ch ' ') (hargc : st.argc < maxArgs - 1) (hslot : st.argc < st.argv.length) :
      ParseMove ⟨.skip, st, stored, slots⟩
        ⟨.outer, { st with argv := st.argv.set st.argc (some st.out), argc := st.argc + 1 },
          stored, st.argc :: slots⟩
  | stay {st stored slots} {c : UInt8} (hread : st.buf[st.input]? = some c)
      (hspace : c ≠ ch ' ') (hfull : ¬(c ≠ 0 ∧ st.argc < maxArgs - 1)) :
      ParseMove ⟨.skip, st, stored, slots⟩ ⟨.outer, st, stored, slots⟩

theorem parseStep_move {r r' : ParseRun} (h : parseStep r = some r') : ParseMove r r' := by
  obtain ⟨point, st, stored, slots⟩ := r
  unfold parseStep at h
  dsimp only at h
  split at h
  · cases h
  · cases h
  · next c hread =>
    split_ifs at h with hnul hquote hspace
    · obtain ⟨buf, hbuf, h⟩ := Option.bind_eq_some_iff.mp h
      obtain ⟨argv, hargv, h⟩ := Option.bind_eq_some_iff.mp h
      cases h
      obtain ⟨hout, rfl⟩ := store_eq_some hbuf
      obtain ⟨hslot, rfl⟩ := store_eq_some hargv
      exact .finish (hnul ▸ hread) hout hslot
    · cases h
      exact .quote (hquote ▸ hread)
    · obtain ⟨buf, hbuf, h⟩ := Option.bind_eq_some_iff.mp h
      cases h
      obtain ⟨hout, rfl⟩ := store_eq_some hbuf
      exact .space (hspace.1 ▸ hread) hspace.2 hout
    · obtain ⟨buf, hbuf, h⟩ := Option.bind_eq_some_iff.mp h
      cases h
      obtain ⟨hout, rfl⟩ := store_eq_some hbuf
      exact .copy hread hnul hquote hspace hout
  · next c hread =>
    split_ifs at h with hspace hmore
    · cases h
      exact .skip (hspace ▸ hread)
    · obtain ⟨argv, hargv, h⟩ := Option.bind_eq_some_iff.mp h
      cases h
      obtain ⟨hslot, rfl⟩ := store_eq_some hargv
      exact .next hread hmore.1 hspace hmore.2 hslot
    · cases h
      exact .stay hread hspace hmore

theorem ParseMove.step {r r' : ParseRun} (h : ParseMove r r') : parseStep r = some r' := by
  unfold parseStep
  cases h with
  | finish hread hout hslot => simp [hread, store_of_lt hout, store_of_lt hslot]
  | quote hread => simp [hread, show ch '"' ≠ 0 by decide]
  | space hread hq hout =>
    simp [hread, hq, store_of_lt hout, show ch ' ' ≠ 0 by decide, show ch ' ' ≠ ch '"' by decide]
  | copy hread hnul hquote hgap hout => simp [hread, hnul, hquote, hgap, store_of_lt hout]
  | skip hread => simp [hread]
  | next hread hnul hspace hargc hslot =>
    simp [hread, hnul, hspace, hargc, store_of_lt hslot]
  | stay hread hspace hfull => simp only [hread, if_neg hspace, if_neg hfull]

/-! ## The cursors -/

/-- The loop heads of a call on `orig`, whose line ends at the index `n`. -/
structure Reading (orig : List UInt8) (n : Nat) (st : ParseState) : Prop extends
    Cursors orig.length n st where
  unread : ∀ i, st.input ≤ i → st.buf[i]? = orig[i]?

/-- The state of a call, and what it has stored to. -/
structure ParseSafe (orig : List UInt8) (n : Nat) (r : ParseRun) : Prop where
  reading : r.point ≠ .done → Reading orig n r.st
  stored : ∀ i ∈ r.stored, i ≤ n
  slots : ∀ i ∈ r.slots, i < maxArgs

section

variable {orig : List UInt8} {n : Nat} {st : ParseState}

theorem Reading.advance (h : Reading orig n st) (hlt : st.input < n) (q : Bool) :
    Reading orig n { st with inQuote := q, input := st.input + 1 } where
  size := h.size
  nul_lt := h.nul_lt
  nul := h.nul
  input_le := hlt
  out_le := Nat.le_succ_of_le h.out_le
  slots := h.slots
  argc_pos := h.argc_pos
  argc_lt := h.argc_lt
  unread := fun i hi => h.unread i (Nat.le_of_succ_le hi)

/-- A store at the write cursor is behind the read cursor, once this has moved. -/
theorem Reading.put (h : Reading orig n st) (hlt : st.input < n) (c : UInt8) :
    Reading orig n
      { st with buf := st.buf.set st.out c, input := st.input + 1, out := st.out + 1 } where
  size := by rw [List.length_set, h.size]
  nul_lt := h.nul_lt
  nul := by
    have hout := h.out_le
    rw [List.getElem?_set_ne (by omega), h.nul]
  input_le := hlt
  out_le := Nat.succ_le_succ h.out_le
  slots := h.slots
  argc_pos := h.argc_pos
  argc_lt := h.argc_lt
  unread := fun i hi => by
    have hout := h.out_le
    dsimp only at hi ⊢
    rw [List.getElem?_set_ne (by omega)]
    exact h.unread i (Nat.le_of_succ_le hi)

theorem Reading.next (h : Reading orig n st) (hargc : st.argc < maxArgs - 1) :
    Reading orig n
      { st with argv := st.argv.set st.argc (some st.out), argc := st.argc + 1 } where
  size := h.size
  nul_lt := h.nul_lt
  nul := h.nul
  input_le := h.input_le
  out_le := h.out_le
  slots := by rw [List.length_set, h.slots]
  argc_pos := Nat.succ_pos _
  argc_lt := Nat.succ_lt_of_lt_pred hargc
  unread := h.unread

theorem ParseSafe.step {r r' : ParseRun} (h : ParseSafe orig n r) (hmove : ParseMove r r') :
    ParseSafe orig n r' := by
  have houter : ParsePoint.outer ≠ .done := by decide
  have hskip : ParsePoint.skip ≠ .done := by decide
  obtain ⟨hreading, hstored, hslots⟩ := h
  cases hmove with
  | finish hread hout hslot =>
    have hst := hreading houter
    refine ⟨fun h => absurd rfl h, ?_, ?_⟩
    · exact List.forall_mem_cons.mpr ⟨Nat.le_trans hst.out_le hst.input_le, hstored⟩
    · exact List.forall_mem_cons.mpr ⟨hst.argc_lt, hslots⟩
  | quote hread =>
    have hst := hreading houter
    exact ⟨fun _ => hst.advance (hst.lt_of_ne hread (by decide)) _, hstored, hslots⟩
  | space hread hq hout =>
    have hst := hreading houter
    refine ⟨fun _ => hst.put (hst.lt_of_ne hread (by decide)) 0, ?_, hslots⟩
    exact List.forall_mem_cons.mpr ⟨Nat.le_trans hst.out_le hst.input_le, hstored⟩
  | copy hread hnul hquote hgap hout =>
    have hst := hreading houter
    refine ⟨fun _ => hst.put (hst.lt_of_ne hread hnul) _, ?_, hslots⟩
    exact List.forall_mem_cons.mpr ⟨Nat.le_trans hst.out_le hst.input_le, hstored⟩
  | skip hread =>
    have hst := hreading hskip
    exact ⟨fun _ => hst.advance (hst.lt_of_ne hread (by decide)) _, hstored, hslots⟩
  | next hread hnul hspace hargc hslot =>
    have hst := hreading hskip
    refine ⟨fun _ => hst.next hargc, hstored, ?_⟩
    exact List.forall_mem_cons.mpr ⟨hst.argc_lt, hslots⟩
  | stay hread hspace hfull => exact ⟨fun _ => hreading hskip, hstored, hslots⟩

end

section

variable {buf : List UInt8} {argv : List (Option Nat)} {n : Nat}

theorem parseStart_safe (hnul : buf[n]? = some 0) (hslots : argv.length = maxArgs) {r : ParseRun}
    (hstart : parseStart buf argv = some r) : ParseSafe buf n r := by
  obtain ⟨hn, -⟩ := List.getElem?_eq_some_iff.mp hnul
  obtain ⟨argv', hargv, hstart⟩ := Option.bind_eq_some_iff.mp hstart
  cases hstart
  refine ⟨fun _ => ?_, fun i hi => absurd hi List.not_mem_nil, ?_⟩
  · exact ⟨⟨rfl, hn, hnul, Nat.zero_le n, Nat.le_refl 0, (length_store hargv).trans hslots,
      Nat.one_pos, show 1 < maxArgs by decide⟩, fun _ _ => rfl⟩
  · intro i hi
    rw [List.mem_singleton.mp hi]
    decide

/-- Whatever a call passes is safe. -/
theorem parse_safe (hnul : buf[n]? = some 0) (hslots : argv.length = maxArgs) {r : ParseRun}
    (h : Passes buf argv r) : ParseSafe buf n r :=
  h.invariant (ParseSafe buf n) (fun _ hstart => parseStart_safe hnul hslots hstart)
    fun _ _ _ hsafe _ hstep => hsafe.step (parseStep_move hstep)

/-! ## The machine and the function -/

theorem Passes.move {r r' : ParseRun} (h : Passes buf argv r) (hmove : ParseMove r r') :
    Passes buf argv r' :=
  Reach.next (e := ()) h trivial hmove.step

/-- The inner loop is a run of the machine up to the byte behind the spaces. -/
theorem skipSpaces_passes (st : ParseState) {stored slots : List Nat} {fuel j : Nat}
    (h : Passes buf argv ⟨.skip, st, stored, slots⟩)
    (hskip : skipSpaces st.buf fuel st.input = some j) :
    Passes buf argv ⟨.skip, { st with input := j }, stored, slots⟩ ∧
      st.buf[j]? ≠ some (ch ' ') := by
  induction fuel generalizing st with
  | zero => cases hskip
  | succ fuel ih =>
    rw [skipSpaces] at hskip
    split at hskip
    · cases hskip
    · next c hread =>
      split at hskip
      · next hspace =>
        have hbehind := h.move (.skip (hspace ▸ hread))
        exact ih { st with input := st.input + 1 } hbehind hskip
      · next hspace =>
        cases hskip
        exact ⟨h, fun heq => hspace (Option.some.inj (hread.symm.trans heq))⟩

/-- A space is skipped with those behind it, and an argument begins. -/
theorem parseSpace_passes {st st' : ParseState} {stored slots : List Nat}
    (h : Passes buf argv ⟨.outer, st, stored, slots⟩) (hread : st.buf[st.input]? = some (ch ' '))
    (hq : st.inQuote = false) (hspace : parseSpace st = some st') :
    ∃ stored' slots', Passes buf argv ⟨.outer, st', stored', slots'⟩ := by
  unfold parseSpace at hspace
  obtain ⟨buf1, hbuf1, hspace⟩ := Option.bind_eq_some_iff.mp hspace
  obtain ⟨j, hskip, hspace⟩ := Option.bind_eq_some_iff.mp hspace
  obtain ⟨c, hc, hspace⟩ := Option.bind_eq_some_iff.mp hspace
  obtain ⟨hout, rfl⟩ := store_eq_some hbuf1
  obtain ⟨hbehind, hne⟩ := skipSpaces_passes _ (h.move (.space hread hq hout)) hskip
  have hnot : c ≠ ch ' ' := fun heq => hne (heq ▸ hc)
  split at hspace
  · next hmore =>
    obtain ⟨argv1, hargv1, hspace⟩ := Option.bind_eq_some_iff.mp hspace
    cases hspace
    obtain ⟨hslot, rfl⟩ := store_eq_some hargv1
    exact ⟨_, _, hbehind.move (.next hc hmore.1 hnot hmore.2 hslot)⟩
  · next hmore =>
    cases hspace
    exact ⟨_, _, hbehind.move (.stay hc hnot hmore)⟩

/-- A round of `parseLoop` is a run from one head of the outer loop to the next. -/
theorem parseLoop_passes {st st' : ParseState} {stored slots : List Nat} {fuel : Nat}
    (h : Passes buf argv ⟨.outer, st, stored, slots⟩) (hloop : parseLoop fuel st = some st') :
    (∃ stored' slots', Passes buf argv ⟨.outer, st', stored', slots'⟩) ∧
      st'.buf[st'.input]? = some 0 := by
  induction fuel generalizing st stored slots with
  | zero => cases hloop
  | succ fuel ih =>
    rw [parseLoop] at hloop
    split at hloop
    · cases hloop
    · next c hread =>
      split_ifs at hloop with hnul hquote hspace
      · cases hloop
        exact ⟨⟨stored, slots, h⟩, hnul ▸ hread⟩
      · exact ih (h.move (.quote (hquote ▸ hread))) hloop
      · obtain ⟨st1, hst1, hloop⟩ := Option.bind_eq_some_iff.mp hloop
        obtain ⟨stored1, slots1, hpass⟩ := parseSpace_passes h (hspace.1 ▸ hread) hspace.2 hst1
        exact ih hpass hloop
      · obtain ⟨buf1, hbuf1, hloop⟩ := Option.bind_eq_some_iff.mp hloop
        obtain ⟨hout, rfl⟩ := store_eq_some hbuf1
        exact ih (h.move (.copy hread hnul hquote hspace hout)) hloop

/-- What `parseLine` returns is what the machine ends with. -/
theorem parseLine_passes {parsed : Parsed} (h : parseLine buf argv = some parsed) :
    ∃ r, Passes buf argv r ∧ r.point = .done ∧ parsed = ⟨r.st.argc, r.st.buf, r.st.argv⟩ := by
  unfold parseLine at h
  obtain ⟨argv1, hargv1, h⟩ := Option.bind_eq_some_iff.mp h
  obtain ⟨st, hloop, h⟩ := Option.bind_eq_some_iff.mp h
  obtain ⟨buf2, hbuf2, h⟩ := Option.bind_eq_some_iff.mp h
  obtain ⟨argv2, hargv2, h⟩ := Option.bind_eq_some_iff.mp h
  cases h
  have hstart : parseStart buf argv = some ⟨.outer, ⟨buf, argv1, 0, 0, 1, false⟩, [], [0]⟩ := by
    unfold parseStart
    rw [hargv1]
    rfl
  obtain ⟨⟨stored, slots, hpass⟩, hend⟩ := parseLoop_passes (Reach.start hstart) hloop
  obtain ⟨hout, rfl⟩ := store_eq_some hbuf2
  obtain ⟨hslot, rfl⟩ := store_eq_some hargv2
  exact ⟨_, hpass.move (.finish hend hout hslot), rfl, rfl⟩

end

end Toylibc
