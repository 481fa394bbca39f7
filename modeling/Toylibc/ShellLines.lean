import Toylibc.Lib.Lines
import Toylibc.ParseLine
import Mathlib.Data.List.Forall2

/-!
# One command per line

`main` reads a line up to the size of its buffer, and takes what is left of the line for the
next one. So the strings passed to `parse_line` are the lines in pieces of 511 bytes, with the
full pieces of an unfinished last line (`shellMain_lines`). They are the lines themselves
exactly when every line fits (`one_command_per_line_iff`).
-/

namespace Toylibc

open Buffer Lines

/-- The lines of a stream, and the unfinished line behind them. -/
def streamLines (stream : List UInt8) : List (List UInt8) × List UInt8 := split (ch '\n') stream

def maxLine : Nat := maxInput - 1

/-- The strings that the shell takes for lines. -/
def pieceLines (stream : List UInt8) : List (List UInt8) :=
  ((streamLines stream).1.map (chunks maxLine)).flatten ++ fullChunks maxLine (streamLines stream).2

/-! ## One round of `main` -/

/-- The loop reads a line, or as much of one as the buffer holds. -/
theorem readLine_cases (stream : List UInt8) (pos : Nat) (buf : List UInt8) (hpos : pos ≤ maxLine)
    (hbuf : buf.length = maxInput) :
    (readLine stream pos buf = some .eof ∧ ch '\n' ∉ stream ∧ pos + stream.length < maxLine) ∨
      ∃ l rest buf', readLine stream pos buf = some (.line (pos + l.length) buf' rest) ∧
        buf'.length = maxInput ∧ buf'.take (pos + l.length) = buf.take pos ++ l ∧ ch '\n' ∉ l ∧
        ((stream = l ++ ch '\n' :: rest ∧ pos + l.length < maxLine) ∨
          (stream = l ++ rest ∧ pos + l.length = maxLine)) := by
  induction stream generalizing pos buf with
  | nil =>
    rw [readLine]
    rcases Nat.eq_or_lt_of_le hpos with heq | hlt
    · rw [if_neg (show ¬pos < maxInput - 1 from Nat.not_lt.mpr (Nat.le_of_eq heq.symm))]
      exact Or.inr ⟨[], [], buf, rfl, hbuf, (List.append_nil _).symm, nofun, Or.inr ⟨rfl, heq⟩⟩
    · rw [if_pos (show pos < maxInput - 1 from hlt)]
      exact Or.inl ⟨rfl, nofun, hlt⟩
  | cons c stream ih =>
    rw [readLine]
    rcases Nat.eq_or_lt_of_le hpos with heq | hlt
    · rw [if_neg (show ¬pos < maxInput - 1 from Nat.not_lt.mpr (Nat.le_of_eq heq.symm))]
      exact Or.inr ⟨[], _, buf, rfl, hbuf, (List.append_nil _).symm, nofun, Or.inr ⟨rfl, heq⟩⟩
    rw [if_pos (show pos < maxInput - 1 from hlt)]
    by_cases hc : c = ch '\n'
    · -- the end of the line
      rw [if_pos hc, hc]
      exact Or.inr ⟨[], stream, buf, rfl, hbuf, (List.append_nil _).symm, nofun,
        Or.inl ⟨rfl, hlt⟩⟩
    have hroom : pos < buf.length := Nat.lt_of_lt_of_le hlt (by rw [hbuf]; exact Nat.sub_le _ _)
    have hstore := store_of_lt hroom c
    rw [if_neg hc, hstore]
    dsimp only [bind, Option.bind]
    rcases ih (pos + 1) _ hlt ((length_store hstore).trans hbuf) with
      ⟨heof, hmem, hshort⟩ | ⟨l, rest, buf', hline, hbuf', htake, hmem, hsplit⟩
    · left
      refine ⟨heof, ?_, ?_⟩
      · rw [List.mem_cons, not_or]
        exact ⟨fun h => hc h.symm, hmem⟩
      · rw [List.length_cons]
        omega
    · right
      have hlen : pos + 1 + l.length = pos + (c :: l).length := by
        rw [List.length_cons]
        omega
      rw [hlen] at hline htake hsplit
      refine ⟨c :: l, rest, buf', hline, hbuf', ?_, ?_, ?_⟩
      · rw [htake, take_store hstore, List.append_assoc]
        rfl
      · rw [List.mem_cons, not_or]
        exact ⟨fun h => hc h.symm, hmem⟩
      · rcases hsplit with ⟨rfl, hlt⟩ | ⟨rfl, heq⟩
        · exact Or.inl ⟨rfl, hlt⟩
        · exact Or.inr ⟨rfl, heq⟩

theorem pieceLines_short {stream : List UInt8} (hmem : ch '\n' ∉ stream)
    (hlen : stream.length < maxLine) : pieceLines stream = [] := by
  unfold pieceLines streamLines
  rw [split_of_not_mem hmem, fullChunks_of_lt hlen]
  rfl

theorem pieceLines_line {l : List UInt8} (hmem : ch '\n' ∉ l) (hlen : l.length < maxLine)
    (rest : List UInt8) :
    pieceLines (l ++ ch '\n' :: rest) = (if l = [] then [] else [l]) ++ pieceLines rest := by
  unfold pieceLines streamLines
  rw [split_line hmem, List.map_cons, List.flatten_cons, List.append_assoc]
  by_cases hl : l = []
  · rw [if_pos hl, hl, chunks_nil]
  · rw [if_neg hl, chunks_of_lt hlen hl]

theorem pieceLines_full {l : List UInt8} (hmem : ch '\n' ∉ l) (hlen : l.length = maxLine)
    (rest : List UInt8) : pieceLines (l ++ rest) = l :: pieceLines rest := by
  have hpos : 0 < maxLine := by decide
  unfold pieceLines streamLines
  rw [split_append hmem]
  rcases split (ch '\n') rest with ⟨ls, t⟩
  cases ls with
  | nil => exact fullChunks_append hlen hpos t
  | cons first ls =>
    dsimp only
    rw [List.map_cons, List.flatten_cons, chunks_append hlen hpos]
    rfl

/-- A round of the outer loop takes a piece `l` from the stream. -/
theorem pieceLines_round {l rest stream : List UInt8} (hmem : ch '\n' ∉ l)
    (hsplit : (stream = l ++ ch '\n' :: rest ∧ l.length < maxLine) ∨
      (stream = l ++ rest ∧ l.length = maxLine)) :
    rest.length < stream.length ∧
      pieceLines stream = (if l = [] then [] else [l]) ++ pieceLines rest := by
  rcases hsplit with ⟨rfl, hlt⟩ | ⟨rfl, heq⟩
  · refine ⟨?_, pieceLines_line hmem hlt rest⟩
    rw [List.length_append, List.length_cons]
    omega
  · have hpos : 0 < l.length := by
      rw [heq]
      decide
    refine ⟨?_, ?_⟩
    · rw [List.length_append]
      omega
    · rw [pieceLines_full hmem heq, if_neg (List.ne_nil_of_length_pos hpos)]
      rfl

/-- The buffer `input` holds the string `l`. -/
structure Holds (buf l : List UInt8) : Prop where
  size : buf.length = maxInput
  string : stringAt buf 0 = l
  nul : buf[l.length]? = some 0

/-- `input[pos] = '\0'` ends the line that was read. -/
theorem Holds.terminate {buf l : List UInt8} (hbuf : buf.length = maxInput)
    (hfit : l.length < maxInput) (htake : buf.take l.length = l) (hnul : (0 : UInt8) ∉ l) :
    ∃ buf', store buf l.length 0 = some buf' ∧ Holds buf' l := by
  have hroom : l.length < buf.length := by rwa [hbuf]
  have hstore := store_of_lt hroom (0 : UInt8)
  refine ⟨_, hstore, (length_store hstore).trans hbuf, ?_, List.getElem?_set_self hroom⟩
  have hstart := take_store hstore
  rw [htake] at hstart
  rw [← List.take_append_drop (l.length + 1) (buf.set _ _), hstart, List.append_assoc]
  exact stringAt_append [] hnul _

theorem Holds.head_ne {buf l : List UInt8} (h : Holds buf l) (hl : l ≠ []) :
    buf[0]? ≠ some 0 := by
  intro hhead
  refine hl (h.string.symm.trans ?_)
  cases buf with
  | nil => rfl
  | cons c buf =>
    cases hhead
    rfl

/-- A line that `run_command` takes for the `exit` command. -/
def Exits (l : List UInt8) : Prop :=
  ∃ buf argv parsed, Holds buf l ∧ argv.length = maxArgs ∧
    parseLine buf argv = some parsed ∧ runCommand parsed.buf parsed.argv = .exit

/-- The loop passes the pieces of the lines on, unless one of them ends it. -/
theorem mainLoop_lines (fuel : Nat) (stream buf : List UInt8) (argv : List (Option Nat))
    (lines : List (List UInt8)) (hfuel : stream.length < fuel) (hnul : (0 : UInt8) ∉ stream)
    (hbuf : buf.length = maxInput) (hargv : argv.length = maxArgs) :
    ∃ run, mainLoop fuel stream buf argv lines = some run ∧
      (run.exited = false → run.lines = lines ++ pieceLines stream) ∧
      (run.exited = true → ∃ l ∈ pieceLines stream, Exits l) := by
  induction fuel generalizing stream buf argv lines with
  | zero => exact absurd hfuel (Nat.not_lt_zero _)
  | succ fuel ih =>
    rw [mainLoop]
    rcases readLine_cases stream 0 buf (Nat.zero_le _) hbuf with
      ⟨heof, hmem, hshort⟩ | ⟨l, rest, buf1, hline, hbuf1, htake, hmem, hsplit⟩
    · rw [Nat.zero_add] at hshort
      rw [heof, pieceLines_short hmem hshort]
      exact ⟨_, rfl, fun _ => (List.append_nil lines).symm, nofun⟩
    rw [Nat.zero_add] at hline htake hsplit
    rw [List.take_zero, List.nil_append] at htake
    obtain ⟨hshorter, hpieces⟩ := pieceLines_round hmem hsplit
    obtain ⟨hnul_l, hnul_rest⟩ : (0 : UInt8) ∉ l ∧ (0 : UInt8) ∉ rest := by
      rcases hsplit with ⟨rfl, -⟩ | ⟨rfl, -⟩ <;>
        exact ⟨fun h => hnul (by simp [h]), fun h => hnul (by simp [h])⟩
    have hfit : l.length < maxInput := by
      have hmax : maxLine < maxInput := by decide
      omega
    obtain ⟨buf2, hstore, hholds⟩ := Holds.terminate hbuf1 hfit htake hnul_l
    rw [hline]
    dsimp only
    rw [hstore]
    dsimp only [bind, Option.bind]
    rw [hpieces]
    by_cases hl : l = []
    · -- an empty line is skipped
      have hskip : buf2[0]? = some 0 := by
        have hend := hholds.nul
        rwa [hl] at hend
      rw [if_pos hskip, if_pos hl]
      exact ih rest buf2 argv lines (by omega) hnul_rest hholds.size hargv
    · obtain ⟨parsed, hparse, hargc, hbuf3, hargv3⟩ := parseLine_returns hholds.nul hargv
      rw [if_neg (hholds.head_ne hl), if_neg hl, hparse, hholds.string]
      dsimp only
      rw [if_neg (Nat.ne_of_gt hargc)]
      by_cases hexit : runCommand parsed.buf parsed.argv = .exit
      · rw [if_pos hexit]
        exact ⟨_, rfl, nofun, fun _ => ⟨l, List.mem_append_left _ List.mem_cons_self,
          buf2, argv, parsed, hholds, hargv, hparse, hexit⟩⟩
      · obtain ⟨run, hrun, hlines, hexited⟩ := ih rest parsed.buf parsed.argv (lines ++ [l])
          (by omega) hnul_rest (hbuf3.trans hholds.size) hargv3
        rw [if_neg hexit, ← List.append_assoc]
        refine ⟨run, hrun, hlines, fun h => ?_⟩
        obtain ⟨l', hmem', hl'⟩ := hexited h
        exact ⟨l', List.mem_append_right _ hmem', hl'⟩

theorem shellMain_lines (input : {b : List UInt8 // b.length = maxInput})
    (argv : {v : List (Option Nat) // v.length = maxArgs}) {stream : List UInt8}
    (hnul : (0 : UInt8) ∉ stream) :
    ∃ run, shellMain input argv stream = some run ∧
      (run.exited = false → run.lines = pieceLines stream) ∧
      (run.exited = true → ∃ l ∈ pieceLines stream, Exits l) :=
  mainLoop_lines (stream.length + 1) stream input argv [] (Nat.lt_succ_self _) hnul input.2 argv.2

theorem runCommand_exit {buf : List UInt8} {argv : List (Option Nat)} {i : Nat}
    (harg : argv[0]? = some (some i)) (h : runCommand buf argv = .exit) :
    toylibcStrcmp (stringAt buf i) (ascii ['e', 'x', 'i', 't']) = 0 := by
  unfold runCommand at h
  rw [harg] at h
  dsimp only at h
  split_ifs at h with h1 h2 h3 h4
  exact h4

/-- A line of plain bytes that starts with another letter is not the `exit` command. -/
theorem not_exits_of_plain {c : UInt8} {l : List UInt8} (hc : c ≠ ch 'e')
    (hplain : ∀ x ∈ c :: l, Plain x) : ¬Exits (c :: l) := by
  rintro ⟨buf, argv, parsed, hholds, hslots, hparse, hexit⟩
  have hstart : c :: l <+: buf := by
    rw [← hholds.string]
    exact List.takeWhile_prefix _
  obtain ⟨tail, htail⟩ := hstart
  have hread : ∀ i x, i < (c :: l).length → buf[i]? = some x → Plain x := by
    intro i x hi hx
    rw [← htail, List.getElem?_append_left hi] at hx
    exact hplain x (List.mem_of_getElem? hx)
  rw [parseLine_plain hholds.nul hread hslots, Option.some.injEq] at hparse
  subst hparse
  have hfirst : ((argv.set 0 (some 0)).set 1 none)[0]? = some (some 0) := by
    rw [List.getElem?_set_ne (by decide), List.getElem?_set_self (by rw [hslots]; decide)]
  have hcmp := runCommand_exit hfirst hexit
  rw [hholds.string] at hcmp
  have hne : toylibcStrcmp (c :: l) (ascii ['e', 'x', 'i', 't']) = c.toNat - (ch 'e').toNat :=
    if_pos hc
  rw [hne] at hcmp
  exact hc (UInt8.toNat_inj.mp (by omega))

/-! ## Lines that fit -/

/-- One string for every line that is not empty, in order, and each a prefix of its line. -/
def OneCommandPerLine (stream : List UInt8) (lines : List (List UInt8)) : Prop :=
  List.Forall₂ (· <+: ·) lines (nonEmpty (streamLines stream).1)

/-- The lines have at most 511 bytes, and the unfinished one has fewer. -/
def LinesFit (stream : List UInt8) : Prop :=
  (∀ l ∈ (streamLines stream).1, l.length ≤ maxLine) ∧ (streamLines stream).2.length < maxLine

theorem pieceLines_iff (stream : List UInt8) :
    OneCommandPerLine stream (pieceLines stream) ↔ LinesFit stream := by
  have hmax : 0 < maxLine := by decide
  unfold OneCommandPerLine LinesFit pieceLines
  rcases streamLines stream with ⟨ls, t⟩
  dsimp only
  constructor
  · intro h
    have hlen := h.length_eq
    have hle := length_nonEmpty_le hmax ls
    rw [List.length_append] at hlen
    refine ⟨le_of_length_chunks_le hmax (by omega), lt_of_fullChunks_eq_nil hmax ?_⟩
    exact List.eq_nil_of_length_eq_zero (by omega)
  · rintro ⟨hls, ht⟩
    rw [flatten_chunks_of_le hmax hls, fullChunks_of_lt ht, List.append_nil]
    exact List.forall₂_same.mpr fun l _ => List.prefix_rfl

/-- A run that `exit` does not end passes on one string for each line exactly when the lines
fit into the buffer. -/
theorem one_command_per_line_iff (input : {b : List UInt8 // b.length = maxInput})
    (argv : {v : List (Option Nat) // v.length = maxArgs}) {stream : List UInt8}
    (hnul : (0 : UInt8) ∉ stream) :
    ∃ run, shellMain input argv stream = some run ∧
      (run.exited = false → (OneCommandPerLine stream run.lines ↔ LinesFit stream)) := by
  obtain ⟨run, hrun, hlines, -⟩ := shellMain_lines input argv hnul
  refine ⟨run, hrun, fun hexit => ?_⟩
  rw [hlines hexit]
  exact pieceLines_iff stream

/-! ### Two runs -/

def freshInput : {b : List UInt8 // b.length = maxInput} :=
  ⟨List.replicate maxInput 0, List.length_replicate⟩

def freshArgv : {v : List (Option Nat) // v.length = maxArgs} :=
  ⟨List.replicate maxArgs none, List.length_replicate⟩

/-- The command `ls`, an empty line, and the start of another command. -/
def shortStream : List UInt8 := ascii ['l', 's', '\n', '\n', 'p', 'w']

theorem one_command_per_line_short :
    ∃ run, shellMain freshInput freshArgv shortStream = some run ∧
      (run.exited = false →
        (OneCommandPerLine shortStream run.lines ↔ LinesFit shortStream)) :=
  one_command_per_line_iff freshInput freshArgv (by decide)

/-- One line of 512 bytes. -/
def overlongStream : List UInt8 := List.replicate 511 (ch 'a') ++ [ch 'b', ch '\n']

theorem overlongStream_pieces :
    pieceLines overlongStream = [List.replicate 511 (ch 'a'), [ch 'b']] := by
  have hmem : ch '\n' ∉ List.replicate 511 (ch 'a') := by
    rw [List.mem_replicate]
    decide
  have hrest : pieceLines [ch 'b', ch '\n'] = [[ch 'b']] := by
    have hline := pieceLines_line (l := [ch 'b']) (by decide) (by decide) []
    have hend : pieceLines [] = [] := pieceLines_short List.not_mem_nil (by decide)
    rwa [hend] at hline
  rw [overlongStream, pieceLines_full hmem List.length_replicate, hrest]

/-- The byte behind the buffer is taken for a line of its own. -/
theorem overlongStream_split :
    ∃ run, shellMain freshInput freshArgv overlongStream = some run ∧ run.exited = false ∧
      run.lines = [List.replicate 511 (ch 'a'), [ch 'b']] ∧
      ¬OneCommandPerLine overlongStream run.lines := by
  have hnul : (0 : UInt8) ∉ overlongStream := by
    rw [overlongStream, List.mem_append, List.mem_replicate]
    decide
  obtain ⟨run, hrun, hlines, hexited⟩ := shellMain_lines freshInput freshArgv hnul
  rw [overlongStream_pieces] at hlines hexited
  have hstay : run.exited = false := by
    cases hexit : run.exited with
    | false => rfl
    | true =>
      obtain ⟨l, hl, hexits⟩ := hexited hexit
      have ha : ∀ x ∈ List.replicate 511 (ch 'a'), Plain x := by
        intro x hx
        rw [List.eq_of_mem_replicate hx]
        unfold Plain
        decide
      cases hl with
      | head => exact absurd hexits (not_exits_of_plain (by decide) ha)
      | tail _ hl =>
        rw [List.mem_singleton.mp hl] at hexits
        refine absurd hexits (not_exits_of_plain (by decide) fun x hx => ?_)
        rw [List.mem_singleton.mp hx]
        unfold Plain
        decide
  refine ⟨run, hrun, hstay, hlines hstay, ?_⟩
  rw [hlines hstay, ← overlongStream_pieces, pieceLines_iff]
  rintro ⟨hfit, -⟩
  have hline : List.replicate 511 (ch 'a') ++ [ch 'b'] ∈ (streamLines overlongStream).1 := by
    have hsplit : overlongStream = List.replicate 511 (ch 'a') ++ [ch 'b'] ++ ch '\n' :: [] := by
      rw [overlongStream, List.append_assoc, List.singleton_append]
    have hmem : ch '\n' ∉ List.replicate 511 (ch 'a') ++ [ch 'b'] := by
      rw [List.mem_append, List.mem_replicate]
      decide
    rw [streamLines, hsplit, split_line hmem]
    exact List.mem_cons_self
  have hlong := hfit _ hline
  rw [List.length_append, List.length_replicate] at hlong
  exact absurd hlong (by decide)

end Toylibc
