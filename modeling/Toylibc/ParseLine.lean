import Toylibc.Shell

/-!
# `parse_line` stays inside its arrays

The read cursor does not pass the NUL of the line, and the write cursor does not pass the
read cursor, so the NUL survives until both loops have found it (`Cursors`).
-/

namespace Toylibc

open Buffer

/-- The state at the head of the loop, for a line that ends at the index `n` of a buffer of
length `size`. -/
structure Cursors (len n : Nat) (st : ParseState) : Prop where
  size : st.buf.length = len
  nul_lt : n < len
  nul : st.buf[n]? = some 0
  input_le : st.input ≤ n
  out_le : st.out ≤ st.input
  slots : st.argv.length = maxArgs
  argc_pos : 0 < st.argc
  argc_lt : st.argc < maxArgs

theorem skipSpaces_le {buf : List UInt8} {n : Nat} (hnul : buf[n]? = some 0) (fuel i : Nat)
    (hi : i ≤ n) (hfuel : n - i < fuel) :
    ∃ j, skipSpaces buf fuel i = some j ∧ i ≤ j ∧ j ≤ n := by
  induction fuel generalizing i with
  | zero => omega
  | succ fuel ih =>
    obtain ⟨hn, -⟩ := List.getElem?_eq_some_iff.mp hnul
    have hread : buf[i]? = some buf[i] := List.getElem?_eq_getElem (by omega)
    rw [skipSpaces, hread]
    dsimp only
    by_cases hspace : buf[i] = ch ' '
    · rw [if_pos hspace]
      -- the byte at `n` is no space
      have hne : i ≠ n := by
        rintro rfl
        rw [hread, hspace] at hnul
        exact absurd hnul (by decide)
      obtain ⟨j, hj, hij, hjn⟩ := ih (i + 1) (by omega) (by omega)
      exact ⟨j, hj, by omega, hjn⟩
    · rw [if_neg hspace]
      exact ⟨i, rfl, Nat.le_refl i, hi⟩

section

variable {len n : Nat} {st : ParseState}

theorem Cursors.store (h : Cursors len n st) (hlt : st.input < n) (c : UInt8) :
    ∃ buf, Buffer.store st.buf st.out c = some buf ∧ buf.length = len ∧ buf[n]? = some 0 := by
  have hout := h.out_le
  have hn := h.nul_lt
  have hsize := h.size
  have hstore := store_of_lt (show st.out < st.buf.length by omega) c
  refine ⟨_, hstore, ?_, ?_⟩
  · rw [← hsize]
    exact length_store hstore
  · rw [List.getElem?_set_ne (by omega)]
    exact h.nul

/-- A byte that is not NUL lies before the end of the line. -/
theorem Cursors.lt_of_ne (h : Cursors len n st) {c : UInt8} (hread : st.buf[st.input]? = some c)
    (hc : c ≠ 0) : st.input < n := by
  refine Nat.lt_of_le_of_ne h.input_le fun heq => ?_
  rw [heq, h.nul] at hread
  exact hc (Option.some.inj hread).symm

theorem Cursors.space (h : Cursors len n st) (hlt : st.input < n) :
    ∃ st', parseSpace st = some st' ∧ Cursors len n st' ∧ st.input < st'.input := by
  have hout := h.out_le
  obtain ⟨buf, hstore, hsize, hnul⟩ := h.store hlt 0
  have hn := h.nul_lt
  obtain ⟨j, hskip, hij, hjn⟩ := skipSpaces_le hnul (buf.length + 1) (st.input + 1) hlt (by omega)
  have hread : buf[j]? = some buf[j] := List.getElem?_eq_getElem (by omega)
  unfold parseSpace
  simp only [hstore, hskip, hread, bind, Option.bind]
  by_cases hmore : buf[j] ≠ 0 ∧ st.argc < maxArgs - 1
  · have hslot := store_of_lt (show st.argc < st.argv.length by rw [h.slots]; omega)
      (some (st.out + 1))
    rw [if_pos hmore, hslot]
    refine ⟨_, rfl, ⟨hsize, hn, hnul, hjn, ?_, ?_, ?_, ?_⟩, hij⟩
    · exact Nat.le_trans (Nat.succ_le_succ hout) hij
    · rw [← h.slots]
      exact length_store hslot
    · exact Nat.succ_pos _
    · exact Nat.succ_lt_of_lt_pred hmore.2
  · rw [if_neg hmore]
    exact ⟨_, rfl, ⟨hsize, hn, hnul, hjn, Nat.le_trans (Nat.succ_le_succ hout) hij, h.slots,
      h.argc_pos, h.argc_lt⟩, hij⟩

/-- The loop ends at the NUL of the line. -/
theorem Cursors.loop (h : Cursors len n st) (fuel : Nat) (hfuel : n - st.input < fuel) :
    ∃ st', parseLoop fuel st = some st' ∧ Cursors len n st' := by
  induction fuel generalizing st with
  | zero => omega
  | succ fuel ih =>
    have hn := h.nul_lt
    have hsize := h.size
    have hle := h.input_le
    have hout := h.out_le
    have hread : st.buf[st.input]? = some st.buf[st.input] :=
      List.getElem?_eq_getElem (by omega)
    rw [parseLoop, hread]
    dsimp only
    by_cases hend : st.buf[st.input] = 0
    · rw [if_pos hend]
      exact ⟨st, rfl, h⟩
    have hlt := h.lt_of_ne hread hend
    rw [if_neg hend]
    by_cases hquote : st.buf[st.input] = ch '"'
    · -- only the read cursor moves
      rw [if_pos hquote]
      refine ih ⟨h.size, hn, h.nul, hlt, Nat.le_succ_of_le hout, h.slots, h.argc_pos,
        h.argc_lt⟩ ?_
      change n - (st.input + 1) < fuel
      omega
    rw [if_neg hquote]
    by_cases hspace : st.buf[st.input] = ch ' ' ∧ st.inQuote = false
    · obtain ⟨st', hstep, hst', hmore⟩ := h.space hlt
      rw [if_pos hspace, hstep]
      exact ih hst' (by omega)
    · -- the byte is copied
      obtain ⟨buf, hstore, hsize', hnul⟩ := h.store hlt st.buf[st.input]
      rw [if_neg hspace, hstore]
      refine ih ⟨hsize', hn, hnul, hlt, Nat.succ_le_succ hout, h.slots, h.argc_pos,
        h.argc_lt⟩ ?_
      change n - (st.input + 1) < fuel
      omega

end

/-- `parse_line` returns on every line that ends inside the buffer. -/
theorem parseLine_returns {buf : List UInt8} {argv : List (Option Nat)} {n : Nat}
    (hnul : buf[n]? = some 0) (hslots : argv.length = maxArgs) :
    ∃ parsed, parseLine buf argv = some parsed ∧ 0 < parsed.argc ∧
      parsed.buf.length = buf.length ∧ parsed.argv.length = maxArgs := by
  obtain ⟨hn, -⟩ := List.getElem?_eq_some_iff.mp hnul
  have hfirst := store_of_lt (show 0 < argv.length by rw [hslots]; decide) (some 0)
  have hstart : Cursors buf.length n ⟨buf, argv.set 0 (some 0), 0, 0, 1, false⟩ :=
    ⟨rfl, hn, hnul, Nat.zero_le n, Nat.le_refl 0, by rw [List.length_set, hslots],
      Nat.one_pos, show 1 < maxArgs by decide⟩
  obtain ⟨st, hloop, hst⟩ := hstart.loop (buf.length + 1) (by omega)
  have hsize := hst.size
  have hout := Nat.le_trans hst.out_le hst.input_le
  have hargc := hst.argc_lt
  have hend := store_of_lt (show st.out < st.buf.length by omega) 0
  have hlast := store_of_lt (show st.argc < st.argv.length by rw [hst.slots]; exact hargc) none
  unfold parseLine
  simp only [hfirst, hloop, hend, hlast, bind, Option.bind]
  refine ⟨_, rfl, hst.argc_pos, ?_, ?_⟩
  · rw [← hsize]
    exact length_store hend
  · rw [← hst.slots]
    exact length_store hlast

/-- A byte that `parse_line` copies. -/
def Plain (c : UInt8) : Prop := c ≠ 0 ∧ c ≠ ch '"' ∧ c ≠ ch ' '

theorem parseLoop_plain {buf : List UInt8} (argv : List (Option Nat)) {n : Nat}
    (hnul : buf[n]? = some 0) (hplain : ∀ i c, i < n → buf[i]? = some c → Plain c)
    (fuel i : Nat) (hi : i ≤ n) (hfuel : n - i < fuel) :
    parseLoop fuel ⟨buf, argv, i, i, 1, false⟩ = some ⟨buf, argv, n, n, 1, false⟩ := by
  induction fuel generalizing i with
  | zero => omega
  | succ fuel ih =>
    rw [parseLoop]
    rcases Nat.eq_or_lt_of_le hi with rfl | hlt
    · rw [hnul]
      exact if_pos rfl
    · obtain ⟨hn, -⟩ := List.getElem?_eq_some_iff.mp hnul
      have hroom : i < buf.length := by omega
      have hread : buf[i]? = some buf[i] := List.getElem?_eq_getElem hroom
      obtain ⟨h0, hquote, hspace⟩ := hplain i buf[i] hlt hread
      have hstore : store buf i buf[i] = some buf := by
        rw [store_of_lt hroom, List.set_getElem_self]
      rw [hread]
      dsimp only
      rw [if_neg h0, if_neg hquote, if_neg fun h => hspace h.1, hstore]
      exact ih (i + 1) hlt (by omega)

/-- A line of plain bytes is one argument, and stays as it is. -/
theorem parseLine_plain {buf : List UInt8} {argv : List (Option Nat)} {n : Nat}
    (hnul : buf[n]? = some 0) (hplain : ∀ i c, i < n → buf[i]? = some c → Plain c)
    (hslots : argv.length = maxArgs) :
    parseLine buf argv = some ⟨1, buf, (argv.set 0 (some 0)).set 1 none⟩ := by
  obtain ⟨hn, hlast⟩ := List.getElem?_eq_some_iff.mp hnul
  have hfirst := store_of_lt (show 0 < argv.length by rw [hslots]; decide) (some 0)
  have hsecond : store (argv.set 0 (some 0)) 1 none = some ((argv.set 0 (some 0)).set 1 none) :=
    store_of_lt (by rw [List.length_set, hslots]; decide) none
  have hend : store buf n 0 = some buf := by
    rw [store_of_lt hn, ← hlast, List.set_getElem_self]
  have hloop := parseLoop_plain (argv.set 0 (some 0)) hnul hplain (buf.length + 1) 0
    (Nat.zero_le n) (by omega)
  unfold parseLine
  simp only [hfirst, hloop, hend, hsecond, bind, Option.bind]

end Toylibc
