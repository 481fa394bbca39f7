import Toylibc.Shell

/-!
# The shell and its children

`shell.c` with all that its processes do: the prompt and the messages, the bytes that are read,
the built-in commands, and for every other command a child that looks for the program while the
shell waits for it. A move is a call of the kernel together with what the call answers, and the
`history` records the calls of both processes. What an array on the stack holds before it is
written, and how much of its output the kernel accepts, are part of the moves too.

A read outside of an array gives `none`, as a store does.
-/

namespace Toylibc

open Buffer

/-- A string literal of the source. -/
def utf8 (s : String) : List UInt8 := s.toList.flatMap String.utf8EncodeChar

/-- The string at a pointer into an array. -/
def readString (buf : List UInt8) (i : Nat) : Option CString :=
  if (0 : UInt8) ∈ buf.drop i then some ⟨stringAt buf i, zero_not_mem_stringAt buf i⟩ else none

/-- The strings at the start of the arrays. -/
def readPaths (arrays : List (List UInt8)) : Option (List (List UInt8)) :=
  arrays.mapM fun a => (readString a 0).map (·.bytes)

/-- The string that an entry of `argv` points to. -/
def argString (buf : List UInt8) (argv : List (Option Nat)) (k : Nat) : Option CString :=
  match argv[k]? with
  | some (some i) => readString buf i
  | _ => none

/-- The strings that the kernel reads from `argv`, up to the `NULL`. -/
def argStrings (buf : List UInt8) : List (Option Nat) → Option (List (List UInt8))
  | [] => none
  | none :: _ => some []
  | some i :: argv => do
    let s ← readString buf i
    let rest ← argStrings buf argv
    some (s.bytes :: rest)

/-! ## What the processes do -/

/-- A call of the kernel, with its answer where the caller sees one. -/
inductive Act
  | wrote (c : WriteCall)
  | got (c : UInt8)
  | gotNone (ret : Int)
  | chdir (dir : List UInt8) (ret : Int)
  | getcwd (ret : Int)
  | fork (ret : Int)
  | execve (path : List UInt8) (args env : List (List UInt8))
  | exit (status : Int)
  | waitpid (pid : Int)
deriving DecidableEq

inductive Process
  | shell
  | child
deriving DecidableEq

/-- The acts of the shell and of its children, in their order. -/
abbrev History := List (Process × Act)

/-- `g_envp`. -/
def gEnvp : List (List UInt8) := [utf8 "PATH=/bin:/usr/bin:/usr/local/bin"]

/-! ## Messages -/

def banner : CString :=
  ⟨["\n", "╔══════════════════════════════╗\n", "║   toysh — toylibc shell     ║\n",
    "║   type 'help' for commands  ║\n", "╚══════════════════════════════╝\n"].flatMap utf8,
    by decide +kernel⟩

def promptText : List UInt8 := ascii ['$', ' ']

def byeText : CString := ⟨utf8 "bye!", by decide +kernel⟩

def emptyText : CString := ⟨[], List.not_mem_nil⟩

def forkFailed : CString := ⟨utf8 "toy: fork failed", by decide +kernel⟩

def cdMissing : CString := ⟨utf8 "cd: missing argument", by decide +kernel⟩

def cdFailed : CString := ⟨utf8 "cd: %s: no such directory\n", by decide +kernel⟩

def pwdError : CString := ⟨utf8 "pwd: error", by decide +kernel⟩

def notFound : CString := ⟨utf8 "toy: %s: command not found\n", by decide +kernel⟩

def helpText : CString :=
  ⟨["\n", "  toysh — built with toylibc\n", "  ═══════════════════════════\n",
    "  Built-in commands:\n", "    cd  <dir>    change directory\n",
    "    pwd          print working directory\n", "    exit         quit the shell\n",
    "    help         show this message\n", "\n", "  External commands:\n",
    "    ls, cat, echo, date, ...\n", "    (searched in /bin, /usr/bin, etc.)\n"].flatMap utf8,
    by decide +kernel⟩

/-- A message: a call of `puts`, or of `printf` with one `%s`. -/
inductive Message
  | puts (s : CString)
  | printf (fmt name : CString)

/-- What the output of a message depends on: the kernel, the content of the array of `printf`, and
the address of the string, which `printf` compares with `NULL`. -/
structure Printing where
  writer : Writer
  buf : {b : List UInt8 // b.length = printfBufSize}
  addr : {p : BitVec 64 // p ≠ 0}

def Message.print (pr : Printing) : Message → Option (List WriteCall)
  | .puts s => some (toylibcPuts pr.writer (some s)).2
  | .printf fmt name =>
    (toylibcPrintf pr.writer pr.buf fmt [.ptr pr.addr name]).map (·.calls)

/-! ## The child -/

/-- Where the child is: in `try_exec`, behind it, in the program that it became, or at its end. -/
inductive ChildPoint
  | lookup
  | notFound
  | program
  | dead
deriving DecidableEq

/-- The child, with its own copies of the arrays of `main`. -/
structure Child where
  point : ChildPoint
  input : List UInt8
  argv : List (Option Nat)

/-- What a child does next. A program may read the input of the shell, and write, as it likes. -/
inductive ChildMove
  | exec (starts : List UInt8 → Bool) (fullpath : {b : List UInt8 // b.length = pathSize})
  | print (pr : Printing)
  | read (c : UInt8)
  | write (c : WriteCall)
  | exit (status : Int)

/-- The branch of `run_command` in the child. -/
def Child.step (c : Child) : ChildMove → Option (List Act × Child)
  | .exec starts fullpath =>
    match c.point with
    | .lookup => do
      let run ← tryExec starts fullpath c.input c.argv
      let paths ← readPaths run.calls
      let args ← argStrings c.input c.argv
      some (paths.map (.execve · args gEnvp),
        { c with point := if run.started then .program else .notFound })
    | _ => none
  | .print pr =>
    match c.point with
    | .notFound => do
      let name ← argString c.input c.argv 0
      let calls ← (Message.printf notFound name).print pr
      some (calls.map .wrote ++ [.exit 127], { c with point := .dead })
    | _ => none
  | .read b =>
    match c.point with
    | .program => some ([.got b], c)
    | _ => none
  | .write call =>
    match c.point with
    | .program => some ([.wrote call], c)
    | _ => none
  | .exit status =>
    match c.point with
    | .program => some ([.exit status], { c with point := .dead })
    | _ => none

/-! ## The shell -/

/-- Where the shell is: in front of its next call of the kernel. -/
inductive ShellPoint
  | banner
  | prompt
  | reading (pos : Nat)
  | chdir
  | getcwd
  | fork
  | waiting (pid : Int) (child : Child)
  | say (m : Message)
  | bye (m : Message)
  | exited

/-- The arrays of `main`, and the history. -/
structure ShellState where
  point : ShellPoint
  input : List UInt8
  argv : List (Option Nat)
  history : History

/-- The answer of `getcwd`, and what it leaves in the array `cwd`. -/
structure CwdAnswer where
  ret : Int
  cwd : {b : List UInt8 // b.length = 256}
  terminated : 0 < ret → (0 : UInt8) ∈ cwd.1

inductive ShellMove
  | print (pr : Printing)
  | read (c : UInt8)
  | readEnd (ret : Int)
  | chdir (ret : Int)
  | getcwd (a : CwdAnswer)
  | fork (ret : Int)
  | child (m : ChildMove)
  | wait

namespace ShellState

def goto (s : ShellState) (point : ShellPoint) : ShellState := { s with point := point }

def did (s : ShellState) (acts : List Act) : ShellState :=
  { s with history := s.history ++ acts.map (Process.shell, ·) }

/-- The built-in commands and `fork`, up to their first call. -/
def command (s : ShellState) : Option ShellState :=
  match runCommand s.input s.argv with
  | .empty => some (s.goto .prompt)
  | .cd =>
    match s.argv[1]? with
    | none => none
    | some none => some (s.goto (.say (.puts cdMissing)))
    | some (some _) => some (s.goto .chdir)
  | .pwd => some (s.goto .getcwd)
  | .exit => some (s.goto (.bye (.puts byeText)))
  | .help => some (s.goto (.say (.puts helpText)))
  | .external => some (s.goto .fork)

/-- `main`, behind the reading loop. -/
def endLine (s : ShellState) (pos : Nat) : Option ShellState := do
  let input ← store s.input pos 0
  if input[0]? = some 0 then some { s with input := input, point := .prompt }
  else do
    let parsed ← parseLine input s.argv
    let s := { s with input := parsed.buf, argv := parsed.argv }
    if parsed.argc = 0 then some (s.goto .prompt)
    else s.command

/-- The reading loop, with one more byte. -/
def readByte (s : ShellState) (pos : Nat) (c : UInt8) : Option ShellState :=
  if c = ch '\n' then s.endLine pos
  else do
    let input ← store s.input pos c
    let s := { s with input := input }
    if pos + 1 < maxInput - 1 then some (s.goto (.reading (pos + 1)))
    else s.endLine (pos + 1)

def step (s : ShellState) : ShellMove → Option ShellState
  | .print pr =>
    match s.point with
    | .banner => do
      let calls ← (Message.puts Toylibc.banner).print pr
      some ((s.did (calls.map .wrote)).goto .prompt)
    | .prompt =>
      let r := toylibcWrite pr.writer [] 1 promptText
      some ((s.did (r.2.map .wrote)).goto (.reading 0))
    | .say m => do
      let calls ← m.print pr
      some ((s.did (calls.map .wrote)).goto .prompt)
    | .bye m => do
      let calls ← m.print pr
      some ((s.did (calls.map .wrote ++ [.exit 0])).goto .exited)
    | _ => none
  | .read c =>
    match s.point with
    | .reading pos => (s.did [.got c]).readByte pos c
    | _ => none
  | .readEnd ret =>
    match s.point with
    -- the end of the file, or an error
    | .reading _ =>
      if ret ≤ 0 then some ((s.did [.gotNone ret]).goto (.bye (.puts emptyText))) else none
    | _ => none
  | .chdir ret =>
    match s.point with
    | .chdir => do
      let dir ← argString s.input s.argv 1
      let s := s.did [.chdir dir.bytes ret]
      some (if ret ≠ 0 then s.goto (.say (.printf cdFailed dir)) else s.goto .prompt)
    | _ => none
  | .getcwd a =>
    match s.point with
    | .getcwd =>
      let s := s.did [.getcwd a.ret]
      if 0 < a.ret then do
        let cwd ← readString a.cwd 0
        some (s.goto (.say (.puts cwd)))
      else some (s.goto (.say (.puts pwdError)))
    | _ => none
  | .fork ret =>
    match s.point with
    | .fork =>
      let child : Child := ⟨.lookup, s.input, s.argv⟩
      let s := s.did [.fork ret]
      if 0 < ret then some (s.goto (.waiting ret child))
      else if ret < 0 then some (s.goto (.say (.puts forkFailed)))
      -- only the child gets the answer 0
      else none
    | _ => none
  | .child m =>
    match s.point with
    | .waiting pid child => do
      let (acts, child) ← child.step m
      let history := s.history ++ acts.map (Process.child, ·)
      some { s with point := .waiting pid child, history := history }
    | _ => none
  | .wait =>
    match s.point with
    | .waiting pid child =>
      if child.point = .dead then some ((s.did [.waitpid pid]).goto .prompt) else none
    | _ => none

end ShellState

/-- The shell at the start of `main`. The arrays start with any content. -/
def shellStart (input : {b : List UInt8 // b.length = maxInput})
    (argv : {v : List (Option Nat) // v.length = maxArgs}) : ShellState :=
  ⟨.banner, input, argv, []⟩

end Toylibc
