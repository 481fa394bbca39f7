import Toylibc.ParseSteps
import Toylibc.Tokens

/-!
# What `parse_line` leaves in `argv`

The text in front of the write cursor is always the arguments collected so far, each with its
NUL, and the entries of `argv` are their offsets (`Packed`). With what the rest of the line adds
to them they are the `texts` of the line (`Collects`). So `parse_line` leaves the first 63 of
them (`parseLine_leaves`).
-/

namespace Toylibc

open Buffer Transition

/-- The texts one behind the other, each with its NUL. -/
def packed (ts : List (List UInt8)) : List UInt8 := (ts.map (· ++ [0])).flatten

/-- The string `t` is at the index `a` of the buffer, with its NUL. -/
structure StringIn (buf : List UInt8) (a : Nat) (t : List UInt8) : Prop where
  string : stringAt buf a = t
  nul : buf[a + t.length]? = some 0

/-- The array `argv` holds pointers to the arguments, and then `NULL`. -/
structure Leaves (parsed : Parsed) (args : List (List UInt8)) : Prop where
  argc : parsed.argc = args.length
  string : ∀ (i : Nat) (t : List UInt8), args[i]? = some t →
    ∃ a, parsed.argv[i]? = some (some a) ∧ StringIn parsed.buf a t
  null : parsed.argv[parsed.argc]? = some none

/-- `n` arguments were begun: the text holds the complete ones `ts`, and `cur` behind them. -/
structure Packed (st : ParseState) (ts : List (List UInt8)) (cur : List UInt8) (n : Nat) :
    Prop where
  text : st.buf.take st.out = packed ts ++ cur
  argc : st.argc = min (maxArgs - 1) n
  slots : ∀ i, i < st.argc → st.argv[i]? = some (some (packed (ts.take i)).length)

/-- The `texts` of the line in the buffer, and the offsets of the first 63 in `argv`. -/
structure Finished (line : List UInt8) (parsed : Parsed) : Prop where
  text : packed (texts line) <+: parsed.buf
  fits : (packed (texts line)).length ≤ line.length + 1
  argc : parsed.argc = min (maxArgs - 1) (texts line).length
  slots : ∀ i, i < parsed.argc →
    parsed.argv[i]? = some (some (packed ((texts line).take i)).length)
  null : parsed.argv[parsed.argc]? = some none

/-- What was collected, with what the rest of the line adds to it, is the `texts` of the line. -/
inductive Collects (line : List UInt8) : ParseRun → Prop
  | inside {st stored slots ts cur} (hpacked : Packed st ts cur (ts.length + 1))
      (hrest : texts line =
        ts ++ (textsFrom st.inQuote (line.drop st.input)).modifyHead (cur ++ ·)) :
      Collects line ⟨.outer, st, stored, slots⟩
  /-- The line ended with spaces. -/
  | behind {st stored slots} (hpacked : Packed st (texts line) [] (texts line).length)
      (hrest : line.drop st.input = []) : Collects line ⟨.outer, st, stored, slots⟩
  | between {st stored slots ts} (hq : st.inQuote = false) (hpacked : Packed st ts [] ts.length)
      (hrest : texts line = ts ++ argumentsFrom false (line.drop st.input)) :
      Collects line ⟨.skip, st, stored, slots⟩
  | finished {st stored slots} (hdone : Finished line ⟨st.argc, st.buf, st.argv⟩) :
      Collects line ⟨.done, st, stored, slots⟩

/-! ## Packed texts -/

theorem packed_append (ts us : List (List UInt8)) : packed (ts ++ us) = packed ts ++ packed us := by
  rw [packed, List.map_append, List.flatten_append]
  rfl

theorem packed_concat (ts : List (List UInt8)) (t : List UInt8) :
    packed (ts ++ [t]) = packed ts ++ t ++ [0] := by
  rw [packed_append, List.append_assoc]
  exact congrArg (packed ts ++ ·) (List.append_nil _)

/-- The text with the index `i` starts behind those before it. -/
theorem packed_split {ts : List (List UInt8)} {i : Nat} {t : List UInt8} (ht : ts[i]? = some t) :
    ∃ r, packed ts = packed (ts.take i) ++ (t ++ 0 :: r) := by
  obtain ⟨hi, rfl⟩ := List.getElem?_eq_some_iff.mp ht
  refine ⟨packed (ts.drop (i + 1)), ?_⟩
  have hsplit : ts = ts.take i ++ [ts[i]] ++ ts.drop (i + 1) := by
    rw [List.append_assoc, List.singleton_append, List.getElem_cons_drop, List.take_append_drop]
  calc packed ts = packed (ts.take i ++ [ts[i]] ++ ts.drop (i + 1)) := congrArg packed hsplit
    _ = packed (ts.take i) ++ (ts[i] ++ 0 :: packed (ts.drop (i + 1))) := by
      rw [packed_append, packed_concat, List.append_assoc, List.append_assoc]
      rfl

/-- The texts begin one behind the other. -/
theorem packed_take_lt {ts : List (List UInt8)} {i j : Nat} (hij : i < j) (hj : j ≤ ts.length) :
    (packed (ts.take i)).length < (packed (ts.take j)).length := by
  have ht : (ts.take j)[i]? = some ts[i] := by
    rw [List.getElem?_take_of_lt hij, List.getElem?_eq_getElem]
  obtain ⟨r, hr⟩ := packed_split ht
  rw [hr, List.take_take, Nat.min_eq_left (Nat.le_of_lt hij), List.length_append,
    List.length_append, List.length_cons]
  omega

theorem stringIn_append {a t r : List UInt8} (hnul : (0 : UInt8) ∉ t) :
    StringIn (a ++ (t ++ 0 :: r)) a.length t where
  string := stringAt_append a hnul r
  nul := by
    rw [List.getElem?_append_right (Nat.le_add_right _ _), Nat.add_sub_cancel_left,
      getElem?_append_cons]

/-- Packed texts are strings of the buffer. -/
theorem Finished.stringIn {line : List UInt8} {parsed : Parsed} (h : Finished line parsed)
    (hnul : (0 : UInt8) ∉ line) {i : Nat} {t : List UInt8} (ht : (texts line)[i]? = some t) :
    StringIn parsed.buf (packed ((texts line).take i)).length t := by
  obtain ⟨tail, htail⟩ := h.text
  obtain ⟨r, hr⟩ := packed_split ht
  have hbuf : parsed.buf = packed ((texts line).take i) ++ (t ++ 0 :: (r ++ tail)) := by
    rw [← htail, hr, List.append_assoc, List.append_assoc, List.cons_append]
  rw [hbuf]
  exact stringIn_append fun hmem => hnul (mem_of_mem_texts (List.mem_of_getElem? ht) hmem)

theorem Finished.leaves {line : List UInt8} {parsed : Parsed} (h : Finished line parsed)
    (hnul : (0 : UInt8) ∉ line) : Leaves parsed ((texts line).take (maxArgs - 1)) where
  argc := by rw [h.argc, List.length_take]
  string := fun i t ht => by
    obtain ⟨hi, -⟩ := List.getElem?_eq_some_iff.mp ht
    rw [List.length_take, ← h.argc] at hi
    have hmin := h.argc
    rw [List.getElem?_take_of_lt (by omega)] at ht
    exact ⟨_, h.slots i hi, h.stringIn hnul ht⟩
  null := h.null

/-! ## One step -/

section

variable {line tail cur : List UInt8} {st : ParseState} {ts : List (List UInt8)} {n : Nat}

theorem Reading.drop_cons (h : Reading (line ++ 0 :: tail) line.length st) {c : UInt8}
    (hread : st.buf[st.input]? = some c) (hc : c ≠ 0) :
    line.drop st.input = c :: line.drop (st.input + 1) := by
  have hlt := h.lt_of_ne hread hc
  rw [h.unread _ (Nat.le_refl _), List.getElem?_append_left hlt, List.getElem?_eq_getElem hlt,
    Option.some.injEq] at hread
  rw [List.drop_eq_getElem_cons hlt, hread]

/-- Behind the spaces the next argument begins. -/
theorem Reading.arguments_open (h : Reading (line ++ 0 :: tail) line.length st) {c : UInt8}
    (hread : st.buf[st.input]? = some c) (hc : c ≠ 0) (hspace : c ≠ ch ' ') :
    argumentsFrom false (line.drop st.input) =
      (textsFrom false (line.drop st.input)).modifyHead ([] ++ ·) := by
  rw [h.drop_cons hread hc, argumentsFrom_cons (fun hgap => hspace hgap.1),
    show (([] : List UInt8) ++ ·) = id from rfl, List.modifyHead_id]
  rfl

theorem Reading.drop_nil (h : Reading (line ++ 0 :: tail) line.length st)
    (hnul : (0 : UInt8) ∉ line) (hread : st.buf[st.input]? = some 0) :
    line.drop st.input = [] := by
  rw [h.unread _ (Nat.le_refl _)] at hread
  refine List.drop_eq_nil_of_le (Nat.le_of_not_lt fun hlt => hnul ?_)
  rw [List.getElem?_append_left hlt] at hread
  exact List.mem_of_getElem? hread

theorem Packed.put (h : Packed st ts cur n) (hout : st.out < st.buf.length) (c : UInt8) :
    (st.buf.set st.out c).take (st.out + 1) = packed ts ++ (cur ++ [c]) := by
  rw [take_store (store_of_lt hout c), h.text, List.append_assoc]

/-- The NUL completes the argument. -/
theorem Packed.close (h : Packed st ts cur (ts.length + 1)) (hout : st.out < st.buf.length) :
    Packed { st with buf := st.buf.set st.out 0, input := st.input + 1, out := st.out + 1 }
      (ts ++ [cur]) [] (ts ++ [cur]).length where
  text := by rw [h.put hout, packed_concat, List.append_nil, List.append_assoc]
  argc := by rw [List.length_append]; exact h.argc
  slots := fun i hi => by
    have hargc : st.argc ≤ ts.length + 1 := h.argc ▸ Nat.min_le_right _ _
    have hle : i ≤ ts.length := Nat.le_of_lt_succ (Nat.lt_of_lt_of_le hi hargc)
    rw [List.take_append_of_le_length hle]
    exact h.slots i hi

/-- The byte at the write cursor is not part of the text yet. -/
theorem Packed.overwrite (h : Packed st ts cur n) {c : UInt8} :
    Packed { st with buf := st.buf.set st.out c } ts cur n where
  text := (List.take_set_of_le (Nat.le_refl _)).trans h.text
  argc := h.argc
  slots := h.slots

/-- The next argument begins at the write cursor. -/
theorem Packed.begin (h : Packed st ts [] ts.length) (hroom : st.out ≤ st.buf.length)
    (hargc : st.argc < maxArgs - 1) (hslot : st.argc < st.argv.length) :
    Packed { st with argv := st.argv.set st.argc (some st.out), argc := st.argc + 1 } ts []
      (ts.length + 1) where
  text := h.text
  argc := by
    have hmin := h.argc
    dsimp only
    omega
  slots := fun i hi => by
    have hmin := h.argc
    dsimp only at hi ⊢
    rcases Nat.lt_succ_iff_lt_or_eq.mp hi with hlt | rfl
    · rw [List.getElem?_set_ne (Nat.ne_of_gt hlt)]
      exact h.slots i hlt
    · -- all the arguments before it are complete
      have hlen := congrArg List.length h.text
      rw [List.append_nil, List.length_take_of_le hroom] at hlen
      rw [List.getElem?_set_self hslot, show st.argc = ts.length by omega, List.take_length, hlen]

/-- There is no room for another pointer. -/
theorem Packed.full (h : Packed st ts [] ts.length) (hargc : ¬st.argc < maxArgs - 1) :
    Packed st ts [] (ts.length + 1) where
  text := h.text
  argc := by
    have hmin := h.argc
    omega
  slots := h.slots

/-- The last stores leave the texts. -/
theorem Packed.finished (h : Packed st (texts line) [] (texts line).length)
    (hroom : st.out ≤ line.length + 1) (hslot : st.argc < st.argv.length) :
    Finished line ⟨st.argc, st.buf, st.argv.set st.argc none⟩ where
  text := by
    have htext := h.text
    rw [List.append_nil] at htext
    exact htext ▸ List.take_prefix _ _
  fits := by
    have hlen := congrArg List.length h.text
    rw [List.append_nil, List.length_take] at hlen
    omega
  argc := h.argc
  slots := fun i hi => by
    dsimp only at hi ⊢
    rw [List.getElem?_set_ne (Nat.ne_of_gt hi)]
    exact h.slots i hi
  null := List.getElem?_set_self hslot

/-- In front of another byte an argument has begun. -/
theorem Collects.begun {stored slots : List Nat} {s : List UInt8} {c : UInt8}
    (h : Collects line ⟨.outer, st, stored, slots⟩) (hcons : line.drop st.input = c :: s) :
    ∃ ts cur, Packed st ts cur (ts.length + 1) ∧
      texts line = ts ++ (textsFrom st.inQuote (c :: s)).modifyHead (cur ++ ·) := by
  cases h with
  | inside hpacked hrest => exact ⟨_, _, hpacked, hcons ▸ hrest⟩
  | behind _ hend => exact absurd (hcons.symm.trans hend) (List.cons_ne_nil c s)

/-- What a step takes from the rest of the line it adds to the texts. -/
theorem Collects.step {r r' : ParseRun} (h : Collects line r) (hnul : (0 : UInt8) ∉ line)
    (hreading : r.point ≠ .done → Reading (line ++ 0 :: tail) line.length r.st)
    (hmove : ParseMove r r') : Collects line r' := by
  have houter : ParsePoint.outer ≠ .done := by decide
  have hskip : ParsePoint.skip ≠ .done := by decide
  cases hmove with
  | finish hread hout hslot =>
    have hst := hreading houter
    have hroom := Nat.le_trans hst.out_le hst.input_le
    have hend := hst.drop_nil hnul hread
    cases h with
    | inside hpacked hrest =>
      rw [hend, textsFrom_nil, List.modifyHead_cons, List.append_nil] at hrest
      have hclose := hpacked.close hout
      rw [← hrest] at hclose
      exact .finished (hclose.finished (Nat.succ_le_succ hroom) hslot)
    | behind hpacked _ =>
      exact .finished (hpacked.overwrite.finished (Nat.le_succ_of_le hroom) hslot)
  | quote hread =>
    obtain ⟨ts, cur, hpacked, hrest⟩ := h.begun ((hreading houter).drop_cons hread (by decide))
    rw [textsFrom_quote] at hrest
    exact .inside ⟨hpacked.text, hpacked.argc, hpacked.slots⟩ hrest
  | space hread hq hout =>
    obtain ⟨ts, cur, hpacked, hrest⟩ := h.begun ((hreading houter).drop_cons hread (by decide))
    rw [hq, textsFrom_gap, List.modifyHead_cons, List.append_nil, List.append_cons] at hrest
    exact .between hq (hpacked.close hout) hrest
  | @copy _ _ _ c hread hc hquote hgap hout =>
    obtain ⟨ts, cur, hpacked, hrest⟩ := h.begun ((hreading houter).drop_cons hread hc)
    have hjoin : ((cur ++ ·) ∘ (c :: ·)) = ((cur ++ [c]) ++ ·) :=
      funext fun t => (List.append_assoc cur [c] t).symm
    rw [textsFrom_copy hquote hgap, List.modifyHead_modifyHead, hjoin] at hrest
    exact .inside ⟨hpacked.put hout c, hpacked.argc, hpacked.slots⟩ hrest
  | skip hread =>
    have hrest' := (hreading hskip).drop_cons hread (by decide)
    cases h with
    | between hq hpacked hrest =>
      rw [hrest', argumentsFrom_gap] at hrest
      exact .between hq ⟨hpacked.text, hpacked.argc, hpacked.slots⟩ hrest
  | next hread hc hspace hargc hslot =>
    have hst := hreading hskip
    have hroom := Nat.le_trans hst.out_le (Nat.le_trans hst.input_le (Nat.le_of_lt hst.nul_lt))
    rw [← hst.size] at hroom
    cases h with
    | between hq hpacked hrest =>
      rw [hst.arguments_open hread hc hspace, ← hq] at hrest
      exact .inside (hpacked.begin hroom hargc hslot) hrest
  | @stay _ _ _ c hread hspace hfull =>
    have hst := hreading hskip
    cases h with
    | between hq hpacked hrest =>
      by_cases hc : c = 0
      · have hend := hst.drop_nil hnul (hc ▸ hread)
        rw [hend, argumentsFrom_nil, List.append_nil] at hrest
        exact .behind (hrest ▸ hpacked) hend
      · rw [hst.arguments_open hread hc hspace, ← hq] at hrest
        exact .inside (hpacked.full fun hlt => hfull ⟨hc, hlt⟩) hrest

end

/-! ## The whole call -/

section

variable {line tail : List UInt8} {argv : List (Option Nat)}

theorem parseStart_collects {r : ParseRun}
    (hstart : parseStart (line ++ 0 :: tail) argv = some r) : Collects line r := by
  obtain ⟨argv', hargv, hstart⟩ := Option.bind_eq_some_iff.mp hstart
  cases hstart
  obtain ⟨hslot, rfl⟩ := store_eq_some hargv
  refine @Collects.inside _ _ _ _ [] [] ⟨rfl, rfl, fun i hi => ?_⟩ ?_
  · obtain rfl : i = 0 := Nat.lt_one_iff.mp hi
    exact List.getElem?_set_self hslot
  · rw [List.nil_append, show (([] : List UInt8) ++ ·) = id from rfl, List.modifyHead_id]
    rfl

/-- Every head that a call passes. -/
theorem Passes.collects (hnul : (0 : UInt8) ∉ line) (hslots : argv.length = maxArgs)
    {r : ParseRun} (h : Passes (line ++ 0 :: tail) argv r) : Collects line r := by
  have hend : (line ++ 0 :: tail)[line.length]? = some 0 := getElem?_append_cons line tail 0
  have hboth := h.invariant
    (fun r => ParseSafe (line ++ 0 :: tail) line.length r ∧ Collects line r)
    (fun r hstart => ⟨parseStart_safe hend hslots hstart, parseStart_collects hstart⟩)
    fun r _ r' hr _ hstep => by
      have hmove := parseStep_move hstep
      exact ⟨hr.1.step hmove, hr.2.step hnul hr.1.reading hmove⟩
  exact hboth.2

/-- `parse_line` returns on every line, and leaves the `texts` of the line. -/
theorem parseLine_finished (hnul : (0 : UInt8) ∉ line) (tail : List UInt8)
    (hslots : argv.length = maxArgs) :
    ∃ parsed, parseLine (line ++ 0 :: tail) argv = some parsed ∧ Finished line parsed := by
  have hend : (line ++ 0 :: tail)[line.length]? = some 0 := getElem?_append_cons line tail 0
  obtain ⟨parsed, hparse, -⟩ := parseLine_returns hend hslots
  obtain ⟨r, hpass, hpoint, rfl⟩ := parseLine_passes hparse
  refine ⟨_, hparse, ?_⟩
  cases hpass.collects hnul hslots with
  | inside => cases hpoint
  | behind => cases hpoint
  | between => cases hpoint
  | finished hdone => exact hdone

/-- The first 63 texts are the strings in `argv`. -/
theorem parseLine_leaves (hnul : (0 : UInt8) ∉ line) (tail : List UInt8)
    (hslots : argv.length = maxArgs) :
    ∃ parsed, parseLine (line ++ 0 :: tail) argv = some parsed ∧
      Leaves parsed ((texts line).take (maxArgs - 1)) := by
  obtain ⟨parsed, hparse, hdone⟩ := parseLine_finished hnul tail hslots
  exact ⟨parsed, hparse, hdone.leaves hnul⟩

end

end Toylibc
