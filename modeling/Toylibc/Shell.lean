import Mathlib.Data.List.TakeWhile
import Toylibc.Stdio
import Toylibc.Strings

/-!
# `shell.c`

The shell as a function of the bytes on its standard input: `main` with its reading loop,
`parse_line` on the buffer in place, the dispatch of `run_command`, and the lookup of
`try_exec`. A pointer into `input` is an index, and `NULL` is `none`. What a command does outside
of the shell process is left out, and so is what the shell prints.
-/

namespace Toylibc

open Buffer

def maxInput : Nat := 512

def maxArgs : Nat := 64

/-- The string that starts at an index of a buffer. -/
def stringAt (buf : List UInt8) (i : Nat) : List UInt8 := (buf.drop i).takeWhile (· ≠ 0)

theorem zero_not_mem_stringAt (buf : List UInt8) (i : Nat) : (0 : UInt8) ∉ stringAt buf i := by
  intro hmem
  have hne := List.mem_takeWhile_imp hmem
  exact of_decide_eq_true hne rfl

theorem stringAt_append (a : List UInt8) {t : List UInt8} (hnul : (0 : UInt8) ∉ t)
    (r : List UInt8) : stringAt (a ++ (t ++ 0 :: r)) a.length = t := by
  have hkeep : ∀ c ∈ t, decide (c ≠ 0) = true := fun c hc => decide_eq_true fun h => hnul (h ▸ hc)
  rw [stringAt, List.drop_left, List.takeWhile_append_of_pos hkeep]
  exact List.append_nil t

/-! ## `parse_line` -/

/-- The locals of `parse_line`, with the buffer and the array it writes. -/
structure ParseState where
  buf : List UInt8
  argv : List (Option Nat)
  input : Nat
  out : Nat
  argc : Nat
  inQuote : Bool

/-- `while (*input == ' ') input++;` -/
def skipSpaces (buf : List UInt8) : Nat → Nat → Option Nat
  | 0, _ => none
  | fuel + 1, i =>
    match buf[i]? with
    | none => none
    | some c => if c = ch ' ' then skipSpaces buf fuel (i + 1) else some i

/-- The branch at an unquoted space: end the argument, and start the next one unless the line
or the array is at its end. -/
def parseSpace (st : ParseState) : Option ParseState := do
  let buf ← store st.buf st.out 0
  let out := st.out + 1
  -- a run of spaces counts as one
  let input ← skipSpaces buf (buf.length + 1) (st.input + 1)
  let c ← buf[input]?
  if c ≠ 0 ∧ st.argc < maxArgs - 1 then do
    let argv ← store st.argv st.argc (some out)
    some { st with buf := buf, argv := argv, input := input, out := out, argc := st.argc + 1 }
  else some { st with buf := buf, input := input, out := out }

/-- The loop of `parse_line`. -/
def parseLoop : Nat → ParseState → Option ParseState
  | 0, _ => none
  | fuel + 1, st =>
    match st.buf[st.input]? with
    | none => none
    | some c =>
      if c = 0 then some st
      else if c = ch '"' then
        parseLoop fuel { st with inQuote := !st.inQuote, input := st.input + 1 }
      else if c = ch ' ' ∧ st.inQuote = false then do
        let st ← parseSpace st
        parseLoop fuel st
      else do
        let buf ← store st.buf st.out c
        parseLoop fuel { st with buf := buf, input := st.input + 1, out := st.out + 1 }

/-- What `parse_line` leaves: `argc`, the buffer, and `argv`. -/
structure Parsed where
  argc : Nat
  buf : List UInt8
  argv : List (Option Nat)

/-- `parse_line`. -/
def parseLine (buf : List UInt8) (argv : List (Option Nat)) : Option Parsed := do
  let argv ← store argv 0 (some 0)
  let st ← parseLoop (buf.length + 1) ⟨buf, argv, 0, 0, 1, false⟩
  let buf ← store st.buf st.out 0
  let argv ← store st.argv st.argc none
  some ⟨st.argc, buf, argv⟩

/-! ## `run_command` -/

/-- The branches of `run_command`. -/
inductive Command
  | empty
  | cd
  | pwd
  | exit
  | help
  | external
deriving DecidableEq

/-- `run_command`: which branch is taken. Only `exit` does not come back to `main`. -/
def runCommand (buf : List UInt8) (argv : List (Option Nat)) : Command :=
  match argv[0]? with
  | some (some i) =>
    let name := stringAt buf i
    if name = [] then .empty
    else if toylibcStrcmp name (ascii ['c', 'd']) = 0 then .cd
    else if toylibcStrcmp name (ascii ['p', 'w', 'd']) = 0 then .pwd
    else if toylibcStrcmp name (ascii ['e', 'x', 'i', 't']) = 0 then .exit
    else if toylibcStrcmp name (ascii ['h', 'e', 'l', 'p']) = 0 then .help
    else .external
  | _ => .empty

/-! ## `try_exec` -/

/-- The size of `fullpath`. -/
def pathSize : Nat := 256

def pathDirs : List (List UInt8) :=
  [ascii ['/', 'b', 'i', 'n'], ascii ['/', 'u', 's', 'r', '/', 'b', 'i', 'n'],
    ascii ['/', 'u', 's', 'r', '/', 'l', 'o', 'c', 'a', 'l', '/', 'b', 'i', 'n'], []]

/-- The calls of `execve`, each as the array from its path on, and whether the last one started
a program. -/
structure ExecRun where
  calls : List (List UInt8)
  started : Bool

/-- The loop of `try_exec` over `path_dirs`. An `execve` of a path that `starts` accepts does not
return. -/
def tryDirs (starts : List UInt8 → Bool) (cmd : List UInt8) :
    List (List UInt8) → List UInt8 → List (List UInt8) → Option ExecRun
  | [], _, calls => some ⟨calls, false⟩
  | dir :: dirs, fullpath, calls =>
    if dir = [] then tryDirs starts cmd dirs fullpath calls
    else do
      let fullpath ← toylibcStrcpyTo fullpath 0 dir
      let len := (stringAt fullpath 0).length
      let fullpath ← store fullpath len (ch '/')
      let fullpath ← toylibcStrcpyTo fullpath (len + 1) cmd
      if starts (stringAt fullpath 0) then some ⟨calls ++ [fullpath], true⟩
      else tryDirs starts cmd dirs fullpath (calls ++ [fullpath])

/-- `try_exec`. The array `fullpath` lies on the stack and starts with any content. -/
def tryExec (starts : List UInt8 → Bool) (fullpath : {b : List UInt8 // b.length = pathSize})
    (buf : List UInt8) (argv : List (Option Nat)) : Option ExecRun :=
  match argv[0]? with
  | some (some i) =>
    let cmd := stringAt buf i
    if ch '/' ∈ cmd then some ⟨[buf.drop i], starts cmd⟩
    else do
      let fullpath ← toylibcStrcpyTo fullpath 0 (ascii ['.', '/'])
      let len := (stringAt fullpath 0).length
      let fullpath ← toylibcStrcpyTo fullpath len cmd
      if starts (stringAt fullpath 0) then some ⟨[fullpath], true⟩
      else tryDirs starts cmd pathDirs fullpath [fullpath]
  | _ => none

/-! ## `main` -/

/-- What the reading loop of `main` ends with. -/
inductive ReadResult
  | eof
  | line (pos : Nat) (buf : List UInt8) (stream : List UInt8)

/-- The reading loop from the index `pos` on. A `read` of one byte gives the next byte of the
stream, or the end of the file. -/
def readLine : List UInt8 → Nat → List UInt8 → Option ReadResult
  | [], pos, buf => if pos < maxInput - 1 then some .eof else some (.line pos buf [])
  | c :: stream, pos, buf =>
    if pos < maxInput - 1 then
      if c = ch '\n' then some (.line pos buf stream)
      else do
        let buf ← store buf pos c
        readLine stream (pos + 1) buf
    -- the buffer is full: the rest of the line stays in the stream
    else some (.line pos buf (c :: stream))

/-- A run of the shell: the strings that were passed to `parse_line`, and whether the `exit`
command ended it. -/
structure ShellRun where
  lines : List (List UInt8)
  exited : Bool

/-- The outer loop of `main`. -/
def mainLoop : Nat → List UInt8 → List UInt8 → List (Option Nat) → List (List UInt8) →
    Option ShellRun
  | 0, _, _, _, _ => none
  | fuel + 1, stream, buf, argv, lines =>
    match readLine stream 0 buf with
    | none => none
    | some .eof => some ⟨lines, false⟩
    | some (.line pos buf stream) => do
      let buf ← store buf pos 0
      -- an empty line
      if buf[0]? = some 0 then mainLoop fuel stream buf argv lines
      else do
        let lines := lines ++ [stringAt buf 0]
        let parsed ← parseLine buf argv
        if parsed.argc = 0 then mainLoop fuel stream parsed.buf parsed.argv lines
        else if runCommand parsed.buf parsed.argv = .exit then some ⟨lines, true⟩
        else mainLoop fuel stream parsed.buf parsed.argv lines

/-- `main`. The arrays `input` and `argv` lie on the stack and start with any content. Every
round of the outer loop reads at least one byte, or the end of the file. -/
def shellMain (input : {b : List UInt8 // b.length = maxInput})
    (argv : {v : List (Option Nat) // v.length = maxArgs}) (stream : List UInt8) :
    Option ShellRun :=
  mainLoop (stream.length + 1) stream input argv []

end Toylibc
