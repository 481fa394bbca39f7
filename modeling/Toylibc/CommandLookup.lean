import Mathlib.Data.List.Forall2
import Toylibc.ParseTexts
import Toylibc.ShellLines
import Toylibc.StringCopy

/-!
# The lookup of commands

`try_exec` writes each path into an array of 256 bytes, with `strcpy` and without a bound, while
the line that the command comes from may have 511 bytes. The longest path is the one in
`/usr/local/bin`, so a command without a slash is looked up inside the array exactly when it has
at most 240 bytes (`command_lookup_iff`).
-/

namespace Toylibc

open Buffer Words

/-- The command of a line: the bytes up to the first space outside of quotes, without quotes. -/
def commandWord (line : List UInt8) : List UInt8 :=
  unquote ((quoted false line).takeWhile (! isGap ·))

/-- The paths that are tried, in this order. -/
def lookupPaths (cmd : List UInt8) : List (List UInt8) :=
  if ch '/' ∈ cmd then [cmd]
  else [ascii ['.'], ascii ['/', 'b', 'i', 'n'], ascii ['/', 'u', 's', 'r', '/', 'b', 'i', 'n'],
    ascii ['/', 'u', 's', 'r', '/', 'l', 'o', 'c', 'a', 'l', '/', 'b', 'i', 'n']].map
      (· ++ ch '/' :: cmd)

/-- No `execve` starts a program. -/
def noProgram : List UInt8 → Bool := fun _ => false

/-- The calls of `execve` get the paths of the command, each with its NUL. -/
structure LooksUp (cmd : List UInt8) (run : ExecRun) : Prop where
  calls : List.Forall₂ (fun path call => path ++ [0] <+: call) (lookupPaths cmd) run.calls
  failed : run.started = false

/-- The length of the path in `/usr/local/bin`, with its NUL, is at most the size of the array. -/
def maxCommand : Nat := 240

/-! ## The paths -/

theorem commandWord_texts (line : List UInt8) : ∃ ts, texts line = commandWord line :: ts := by
  obtain ⟨ws, hws⟩ := fields_eq_cons (p := isGap) (quoted false line)
  exact ⟨ws.map unquote, by rw [texts, textsFrom, hws]; rfl⟩

theorem StringIn.no_nul {buf t : List UInt8} {a : Nat} (h : StringIn buf a t) : (0 : UInt8) ∉ t :=
  h.string ▸ zero_not_mem_stringAt buf a

theorem stringIn_start {t : List UInt8} (hnul : (0 : UInt8) ∉ t) (r : List UInt8) :
    StringIn (t ++ 0 :: r) 0 t :=
  stringIn_append (a := []) hnul

theorem StringIn.prefix_drop {buf t : List UInt8} {a : Nat} (h : StringIn buf a t) :
    t ++ [0] <+: buf.drop a := by
  obtain ⟨r, hr⟩ : t <+: buf.drop a := h.string ▸ List.takeWhile_prefix _
  have hnul := h.nul
  rw [← List.getElem?_drop, ← hr, List.getElem?_append_right (Nat.le_refl _), Nat.sub_self] at hnul
  cases r with
  | nil => cases hnul
  | cons c r =>
    cases hnul
    exact ⟨r, by rw [← hr, List.append_assoc]; rfl⟩

/-! ## The walk along the directories -/

/-- The paths that are tried, and whether the last one is a program. A path longer than the array
is the one thing that goes wrong. -/
def lookup (starts : List UInt8 → Bool) : List (List UInt8) → Option (List (List UInt8) × Bool)
  | [] => some ([], false)
  | path :: paths =>
    if pathSize ≤ path.length then none
    else if starts path then some ([path], true)
    else (lookup starts paths).map fun r => (path :: r.1, r.2)

/-- A command with a slash is its own path, and is not copied. -/
def lookupCommand (starts : List UInt8 → Bool) (cmd : List UInt8) :
    Option (List (List UInt8) × Bool) :=
  if ch '/' ∈ cmd then some ([cmd], starts cmd) else lookup starts (lookupPaths cmd)

/-- The calls of `execve` get the paths of a lookup, and the last one ends as the lookup does. -/
structure Tries (found : List (List UInt8) × Bool) (run : ExecRun) : Prop where
  calls : List.Forall₂ (fun path call => StringIn call 0 path) found.1 run.calls
  started : run.started = found.2

section

variable {starts : List UInt8 → Bool} {cmd dir : List UInt8} {fullpath : List UInt8}

/-- One round of the loop: the directory, the slash and the command are written one behind the
other, unless there is no room. -/
theorem tryDirs_round (starts : List UInt8 → Bool) (dirs calls : List (List UInt8))
    (hdir : dir ≠ []) (hnul : (0 : UInt8) ∉ dir ++ ch '/' :: cmd)
    (hsize : fullpath.length = pathSize) (hroom : dir.length < pathSize) :
    (pathSize ≤ (dir ++ ch '/' :: cmd).length ∧
        tryDirs starts cmd (dir :: dirs) fullpath calls = none) ∨
      ∃ path, (dir ++ ch '/' :: cmd).length < pathSize ∧ path.length = pathSize ∧
        StringIn path 0 (dir ++ ch '/' :: cmd) ∧
        tryDirs starts cmd (dir :: dirs) fullpath calls =
          if starts (dir ++ ch '/' :: cmd) then some ⟨calls ++ [path], true⟩
          else tryDirs starts cmd dirs path (calls ++ [path]) := by
  have hfirst := strcpyTo_append (s := dir) [] (hsize ▸ hroom)
  have hlen : stringAt (dir ++ 0 :: fullpath.drop (dir.length + 1)) 0 = dir :=
    stringAt_append [] (fun hmem => hnul (List.mem_append_left _ hmem)) _
  have hslash := store_append_cons dir (fullpath.drop (dir.length + 1)) (ch '/') 0
  have hrest : (fullpath.drop (dir.length + 1)).length = pathSize - (dir.length + 1) := by
    rw [List.length_drop, hsize]
  have hpath : (dir ++ ch '/' :: cmd).length = dir.length + 1 + cmd.length := by
    rw [List.length_append, List.length_cons]
    omega
  rw [List.nil_append, List.nil_append, List.length_nil] at hfirst
  rw [tryDirs, if_neg hdir, hfirst]
  dsimp only [bind, Option.bind]
  rw [hlen, hslash]
  dsimp only
  rcases Nat.lt_or_ge (dir ++ ch '/' :: cmd).length pathSize with hfit | hfull
  · right
    have hcopy := strcpyTo_append (s := cmd) (dir ++ [ch '/'])
      (r := fullpath.drop (dir.length + 1)) (by omega)
    rw [List.length_append, List.length_singleton, List.append_assoc, List.append_assoc,
      List.singleton_append, List.singleton_append] at hcopy
    have hstring := stringIn_start hnul
      ((fullpath.drop (dir.length + 1)).drop (cmd.length + 1))
    rw [List.append_assoc, List.cons_append] at hstring
    refine ⟨_, hfit, ?_, hstring, ?_⟩
    · simp only [List.length_append, List.length_cons, List.length_drop]
      omega
    · rw [hcopy]
      dsimp only
      rw [hstring.string]
  · left
    refine ⟨hfull, ?_⟩
    rw [strcpyTo_overflow]
    rw [List.length_append, List.length_cons, hrest]
    omega

theorem tryDirs_tries {dirs calls paths : List (List UInt8)} (hcmd : (0 : UInt8) ∉ cmd)
    (hsize : fullpath.length = pathSize)
    (hdirs : ∀ dir ∈ dirs, (0 : UInt8) ∉ dir ∧ dir.length < pathSize)
    (hcalls : List.Forall₂ (fun path call => StringIn call 0 path) paths calls) :
    Option.Rel Tries
      ((lookup starts ((dirs.filter (· ≠ [])).map (· ++ ch '/' :: cmd))).map
        fun r => (paths ++ r.1, r.2))
      (tryDirs starts cmd dirs fullpath calls) := by
  induction dirs generalizing fullpath calls paths with
  | nil =>
    refine .some ⟨?_, rfl⟩
    dsimp only
    rw [List.append_nil]
    exact hcalls
  | cons dir dirs ih =>
    obtain ⟨⟨hdirNul, hroom⟩, hrest⟩ := List.forall_mem_cons.mp hdirs
    by_cases hdir : dir = []
    · have hdrop : (dir :: dirs).filter (· ≠ []) = dirs.filter (· ≠ []) :=
        List.filter_cons_of_neg fun hkeep => of_decide_eq_true hkeep hdir
      rw [tryDirs, if_pos hdir, hdrop]
      exact ih hsize hrest hcalls
    have hkeep : (dir :: dirs).filter (· ≠ []) = dir :: dirs.filter (· ≠ []) :=
      List.filter_cons_of_pos (decide_eq_true hdir)
    have hnul : (0 : UInt8) ∉ dir ++ ch '/' :: cmd := by
      rw [List.mem_append, List.mem_cons, not_or, not_or]
      exact ⟨hdirNul, by decide, hcmd⟩
    rw [hkeep, List.map_cons, lookup]
    rcases tryDirs_round starts dirs calls hdir hnul hsize hroom with
      ⟨hfull, hnone⟩ | ⟨path, hfit, hpath, hstring, hround⟩
    · rw [hnone, if_pos hfull]
      exact .none
    have hmore := List.rel_append hcalls (.cons hstring .nil)
    rw [hround, if_neg (Nat.not_le_of_lt hfit)]
    by_cases hstart : starts (dir ++ ch '/' :: cmd) = true
    · rw [if_pos hstart, if_pos hstart]
      exact .some ⟨hmore, rfl⟩
    · have hnext := ih hpath hrest hmore
      simp only [List.append_assoc, List.singleton_append] at hnext
      rw [if_neg hstart, if_neg hstart, Option.map_map]
      exact hnext

end

/-! ## The whole call -/

section

variable {buf cmd : List UInt8} {argv : List (Option Nat)} {i : Nat}

theorem length_dotPath (fullpath : {b : List UInt8 // b.length = pathSize}) :
    (ascii ['.', '/'] ++ 0 :: fullpath.1.drop 3).length = pathSize := by
  rw [List.length_append, List.length_cons, List.length_drop, fullpath.2]
  rfl

theorem pathDirs_short : ∀ dir ∈ pathDirs, (0 : UInt8) ∉ dir ∧ dir.length < pathSize := by decide

/-- A command with a slash stays in the line. -/
theorem tryExec_line (starts : List UInt8 → Bool)
    (fullpath : {b : List UInt8 // b.length = pathSize}) (harg : argv[0]? = some (some i))
    (hcmd : StringIn buf i cmd) (hslash : ch '/' ∈ cmd) :
    tryExec starts fullpath buf argv = some ⟨[buf.drop i], starts cmd⟩ ∧
      StringIn (buf.drop i) 0 cmd := by
  refine ⟨?_, ?_, ?_⟩
  · unfold tryExec
    rw [harg]
    dsimp only
    rw [hcmd.string, if_pos hslash]
  · rw [stringAt, List.drop_drop, Nat.add_zero]
    exact hcmd.string
  · rw [List.getElem?_drop, Nat.zero_add]
    exact hcmd.nul

/-- Any other command comes behind `./` first, unless there is no room, and then behind the
directories of the table. -/
theorem tryExec_round (starts : List UInt8 → Bool)
    (fullpath : {b : List UInt8 // b.length = pathSize}) (harg : argv[0]? = some (some i))
    (hcmd : StringIn buf i cmd) (hslash : ch '/' ∉ cmd) :
    (pathSize ≤ (ascii ['.', '/'] ++ cmd).length ∧ tryExec starts fullpath buf argv = none) ∨
      ∃ path, (ascii ['.', '/'] ++ cmd).length < pathSize ∧ path.length = pathSize ∧
        StringIn path 0 (ascii ['.', '/'] ++ cmd) ∧
        tryExec starts fullpath buf argv =
          if starts (ascii ['.', '/'] ++ cmd) then some ⟨[path], true⟩
          else tryDirs starts cmd pathDirs path [path] := by
  have hroom : (ascii ['.', '/']).length < fullpath.1.length := by
    rw [fullpath.2]
    decide
  have hfirst : toylibcStrcpyTo fullpath.1 0 (ascii ['.', '/']) =
      some (ascii ['.', '/'] ++ 0 :: fullpath.1.drop 3) := strcpyTo_append [] hroom
  have hdot : stringAt (ascii ['.', '/'] ++ 0 :: fullpath.1.drop 3) 0 = ascii ['.', '/'] :=
    stringAt_append [] (show (0 : UInt8) ∉ ascii ['.', '/'] by decide) _
  have hsize := length_dotPath fullpath
  have hlong : (ascii ['.', '/'] ++ cmd).length = (ascii ['.', '/']).length + cmd.length :=
    List.length_append
  unfold tryExec
  rw [harg]
  dsimp only
  rw [hcmd.string, if_neg hslash, hfirst]
  dsimp only [bind, Option.bind]
  rw [hdot]
  rcases Nat.lt_or_ge (ascii ['.', '/'] ++ cmd).length pathSize with hfit | hfull
  · right
    rw [List.length_append] at hsize
    have hcopy := strcpyTo_append (s := cmd) (ascii ['.', '/']) (r := 0 :: fullpath.1.drop 3)
      (by omega)
    have hnul : (0 : UInt8) ∉ ascii ['.', '/'] ++ cmd := by
      rw [List.mem_append, not_or]
      exact ⟨by decide, hcmd.no_nul⟩
    have hstring := stringIn_start hnul ((0 :: fullpath.1.drop 3).drop (cmd.length + 1))
    rw [List.append_assoc] at hstring
    refine ⟨_, hfit, ?_, hstring, ?_⟩
    · rw [List.length_append, List.length_append, List.length_cons, List.length_drop]
      omega
    · rw [hcopy]
      dsimp only
      rw [hstring.string]
  · left
    refine ⟨hfull, ?_⟩
    rw [strcpyTo_overflow (by omega)]

/-- `try_exec` with any programs does what the lookup of the command does, and has no result when
that has none. -/
theorem tryExec_tries (starts : List UInt8 → Bool)
    (fullpath : {b : List UInt8 // b.length = pathSize}) (harg : argv[0]? = some (some i))
    (hcmd : StringIn buf i cmd) :
    Option.Rel Tries (lookupCommand starts cmd) (tryExec starts fullpath buf argv) := by
  unfold lookupCommand
  by_cases hslash : ch '/' ∈ cmd
  · obtain ⟨hline, hpath⟩ := tryExec_line starts fullpath harg hcmd hslash
    rw [hline, if_pos hslash]
    exact .some ⟨.cons hpath .nil, rfl⟩
  have hpaths : lookupPaths cmd = (ascii ['.', '/'] ++ cmd) ::
      (pathDirs.filter (· ≠ [])).map (· ++ ch '/' :: cmd) := by
    rw [lookupPaths, if_neg hslash]
    rfl
  rw [if_neg hslash, hpaths, lookup]
  rcases tryExec_round starts fullpath harg hcmd hslash with
    ⟨hfull, hnone⟩ | ⟨path, hfit, hsize, hstring, hround⟩
  · rw [hnone, if_pos hfull]
    exact .none
  have hfirst : List.Forall₂ (fun path call => StringIn call 0 path) [ascii ['.', '/'] ++ cmd]
      [path] := .cons hstring .nil
  rw [hround, if_neg (Nat.not_le_of_lt hfit)]
  by_cases hstart : starts (ascii ['.', '/'] ++ cmd) = true
  · rw [if_pos hstart, if_pos hstart]
    exact .some ⟨hfirst, rfl⟩
  · rw [if_neg hstart, if_neg hstart]
    exact tryDirs_tries hcmd.no_nul hsize pathDirs_short hfirst

end

/-! ## Without a program -/

/-- Every path is tried, unless one is too long. -/
theorem lookup_noProgram (paths : List (List UInt8)) :
    lookup noProgram paths =
      if ∀ path ∈ paths, path.length < pathSize then some (paths, false) else none := by
  induction paths with
  | nil => exact (if_pos (List.forall_mem_nil _)).symm
  | cons path paths ih =>
    rw [lookup, ih]
    by_cases hlong : pathSize ≤ path.length
    · rw [if_pos hlong, if_neg fun hshort => ?_]
      exact Nat.not_lt_of_le hlong (hshort path List.mem_cons_self)
    · rw [if_neg hlong, if_neg (show ¬noProgram path = true from Bool.false_ne_true)]
      simp only [List.forall_mem_cons, Nat.lt_of_not_le hlong, true_and]
      split <;> rfl

/-- The path in `/usr/local/bin` is the longest. -/
theorem lookupPaths_short {cmd : List UInt8} (hslash : ch '/' ∉ cmd) :
    (∀ path ∈ lookupPaths cmd, path.length < pathSize) ↔ cmd.length ≤ maxCommand := by
  rw [lookupPaths, if_neg hslash]
  simp only [List.map_cons, List.map_nil, List.forall_mem_cons, List.length_append,
    List.length_cons, ascii, List.length_nil]
  unfold pathSize maxCommand
  constructor
  · rintro ⟨-, -, -, hlongest, -⟩
    omega
  · intro hshort
    exact ⟨by omega, by omega, by omega, by omega, List.forall_mem_nil _⟩

theorem Tries.looksUp {cmd : List UInt8} {run : ExecRun} (h : Tries (lookupPaths cmd, false) run) :
    LooksUp cmd run where
  calls := h.calls.imp fun _ _ hstring => hstring.prefix_drop
  failed := h.started

section

variable {buf cmd : List UInt8} {argv : List (Option Nat)} {i : Nat}
  {fullpath : {b : List UInt8 // b.length = pathSize}}

/-- A longer command is written over the end of `fullpath`, in `/usr/local/bin` if not before. -/
theorem tryExec_overflow (harg : argv[0]? = some (some i)) (hcmd : StringIn buf i cmd)
    (hslash : ch '/' ∉ cmd) (hlong : maxCommand < cmd.length) :
    tryExec noProgram fullpath buf argv = none := by
  have htries := tryExec_tries noProgram fullpath harg hcmd
  have hover : ¬∀ path ∈ lookupPaths cmd, path.length < pathSize := fun hshort =>
    Nat.not_le_of_lt hlong ((lookupPaths_short hslash).mp hshort)
  rw [lookupCommand, if_neg hslash, lookup_noProgram, if_neg hover] at htries
  generalize tryExec noProgram fullpath buf argv = run at htries ⊢
  cases htries
  rfl

theorem tryExec_fits (harg : argv[0]? = some (some i)) (hcmd : StringIn buf i cmd)
    (hfits : ch '/' ∈ cmd ∨ cmd.length ≤ maxCommand) :
    ∃ run, tryExec noProgram fullpath buf argv = some run ∧ LooksUp cmd run := by
  have hlookup : lookupCommand noProgram cmd = some (lookupPaths cmd, false) := by
    unfold lookupCommand
    by_cases hslash : ch '/' ∈ cmd
    · rw [if_pos hslash, lookupPaths, if_pos hslash]
      rfl
    · have hshort := (lookupPaths_short hslash).mpr (hfits.resolve_left hslash)
      rw [if_neg hslash, lookup_noProgram, if_pos hshort]
  have htries := tryExec_tries noProgram fullpath harg hcmd
  rw [hlookup] at htries
  generalize tryExec noProgram fullpath buf argv = run at htries ⊢
  cases htries with
  | some h => exact ⟨_, rfl, h.looksUp⟩

/-- Every path is looked up inside the array exactly when the command is short enough. -/
theorem tryExec_iff (harg : argv[0]? = some (some i)) (hcmd : StringIn buf i cmd) :
    (∃ run, tryExec noProgram fullpath buf argv = some run ∧ LooksUp cmd run) ↔
      ch '/' ∈ cmd ∨ cmd.length ≤ maxCommand := by
  refine ⟨?_, tryExec_fits harg hcmd⟩
  rintro ⟨run, hrun, -⟩
  by_contra hlong
  obtain ⟨hslash, hlong⟩ := not_or.mp hlong
  rw [tryExec_overflow harg hcmd hslash (Nat.lt_of_not_le hlong)] at hrun
  cases hrun

end

/-- On every line, `try_exec` passes the documented paths to `execve` and stays inside `fullpath`
exactly when the command has a slash, or has at most 240 bytes. -/
theorem command_lookup_iff (line : CString) (tail : List UInt8)
    (argv : {v : List (Option Nat) // v.length = maxArgs})
    (fullpath : {b : List UInt8 // b.length = pathSize}) :
    ∃ parsed, parseLine (line.bytes ++ 0 :: tail) argv = some parsed ∧
      ((∃ run, tryExec noProgram fullpath parsed.buf parsed.argv = some run ∧
          LooksUp (commandWord line.bytes) run) ↔
        ch '/' ∈ commandWord line.bytes ∨ (commandWord line.bytes).length ≤ maxCommand) := by
  obtain ⟨parsed, hparse, hleaves⟩ := parseLine_leaves line.no_nul tail argv.2
  obtain ⟨ts, hts⟩ := commandWord_texts line.bytes
  have hfirst : ((texts line.bytes).take (maxArgs - 1))[0]? = some (commandWord line.bytes) := by
    rw [hts]
    rfl
  obtain ⟨a, harg, hcmd⟩ := hleaves.string 0 _ hfirst
  exact ⟨parsed, hparse, tryExec_iff harg hcmd⟩

/-! ### A long command -/

def freshPath : {b : List UInt8 // b.length = pathSize} :=
  ⟨List.replicate pathSize 0, List.length_replicate⟩

/-- A line of 241 bytes. -/
def longCommand : List UInt8 := List.replicate 241 (ch 'a')

/-- The NUL behind `/usr/local/bin/` and the command does not fit into `fullpath`. -/
theorem longCommand_overflows :
    longCommand.length ≤ maxLine ∧ (∀ c ∈ longCommand, Plain c ∧ c ≠ ch '\n') ∧
      ∃ parsed, parseLine (longCommand ++ [0]) freshArgv = some parsed ∧
        tryExec noProgram freshPath parsed.buf parsed.argv = none := by
  have hlen : longCommand.length = 241 := List.length_replicate
  have hbyte : ∀ c ∈ longCommand, c = ch 'a' := fun c hc => List.eq_of_mem_replicate hc
  have hplain : ∀ c ∈ longCommand, Plain c ∧ c ≠ ch '\n' := by
    intro c hc
    rw [hbyte c hc]
    unfold Plain
    decide
  have hnul : (longCommand ++ [0])[longCommand.length]? = some 0 := getElem?_append_cons _ _ _
  have hline : ∀ i c, i < longCommand.length → (longCommand ++ [0])[i]? = some c → Plain c := by
    intro i c hi hc
    rw [List.getElem?_append_left hi] at hc
    exact (hplain c (List.mem_of_getElem? hc)).1
  have hstring : StringIn (longCommand ++ [0]) 0 longCommand :=
    stringIn_append (a := []) fun hmem => (hplain 0 hmem).1.1 rfl
  refine ⟨by rw [hlen]; decide, hplain, _, parseLine_plain hnul hline freshArgv.2, ?_⟩
  refine tryExec_overflow (i := 0) ?_ hstring ?_ (by rw [hlen]; decide)
  · rw [List.getElem?_set_ne (by decide), List.getElem?_set_self (by rw [freshArgv.2]; decide)]
  · exact fun hmem => absurd (hbyte _ hmem) (by decide)

end Toylibc
