import Toylibc.CommandLookup
import Toylibc.Printf
import Toylibc.ShellProcess

/-!
# What the shell is for

The shell without arrays, indices and buffers: a line is the list of its bytes, a command the
list of its words, a message the byte strings that are written, and a lookup a walk along the
list of paths. The moves and the history are those of the shell itself.
-/

namespace Toylibc

/-- The words of a line, up to the first NUL that was read and as many as `argv` has room for. -/
def keptWords (got : List UInt8) : List (List UInt8) :=
  (texts (got.takeWhile (· ≠ 0))).take (maxArgs - 1)

/-- The child, with the words of its command. -/
inductive RefChild
  | lookup (words : List (List UInt8))
  | notFound (name : List UInt8)
  | program
  | dead
deriving DecidableEq

def notFoundText (name : List UInt8) : List UInt8 :=
  utf8 "toy: " ++ name ++ utf8 ": command not found\n"

def RefChild.step : RefChild → ChildMove → Option (List Act × RefChild)
  | .lookup words, .exec starts _ =>
    (lookupCommand starts (words.headD [])).map fun r =>
      (r.1.map (.execve · words gEnvp),
        if r.2 then .program else .notFound (words.headD []))
  | .notFound name, .print pr =>
    some ((writeCalls pr.writer 0 [notFoundText name]).map .wrote ++ [.exit 127], .dead)
  | .program, .read b => some ([.got b], .program)
  | .program, .write call => some ([.wrote call], .program)
  | .program, .exit status => some ([.exit status], .dead)
  | _, _ => none

inductive RefPoint
  | banner
  | prompt
  | reading (got : List UInt8)
  | chdir (dir : List UInt8)
  | getcwd
  | fork (words : List (List UInt8))
  | waiting (pid : Int) (child : RefChild)
  | say (texts : List (List UInt8))
  | bye (texts : List (List UInt8))
  | exited
deriving DecidableEq

structure RefState where
  point : RefPoint
  history : History

/-- What `puts` writes. -/
def putsTexts (s : List UInt8) : List (List UInt8) := [s, ascii ['\n']]

def cdFailedText (dir : List UInt8) : List UInt8 :=
  utf8 "cd: " ++ dir ++ utf8 ": no such directory\n"

/-- Where the words of a line lead to. -/
def refCommand : List (List UInt8) → RefPoint
  | [] => .prompt
  | name :: args =>
    if name = [] then .prompt
    else if name = ascii ['c', 'd'] then
      match args with
      | [] => .say (putsTexts cdMissing.bytes)
      | dir :: _ => .chdir dir
    else if name = ascii ['p', 'w', 'd'] then .getcwd
    else if name = ascii ['e', 'x', 'i', 't'] then .bye (putsTexts byeText.bytes)
    else if name = ascii ['h', 'e', 'l', 'p'] then .say (putsTexts helpText.bytes)
    else .fork (name :: args)

/-- A line ends with its line break, or when the array is full. -/
def refRead (got : List UInt8) (c : UInt8) : RefPoint :=
  if c = ch '\n' then refCommand (keptWords got)
  else if (got ++ [c]).length < maxLine then .reading (got ++ [c])
  else refCommand (keptWords (got ++ [c]))

namespace RefState

def goto (s : RefState) (point : RefPoint) : RefState := { s with point := point }

def did (s : RefState) (acts : List Act) : RefState :=
  { s with history := s.history ++ acts.map (Process.shell, ·) }

def step (s : RefState) : ShellMove → Option RefState
  | .print pr =>
    let wrote (texts : List (List UInt8)) : List Act := (writeCalls pr.writer 0 texts).map .wrote
    match s.point with
    | .banner => some ((s.did (wrote (putsTexts banner.bytes))).goto .prompt)
    | .prompt => some ((s.did (wrote [promptText])).goto (.reading []))
    | .say texts => some ((s.did (wrote texts)).goto .prompt)
    | .bye texts => some ((s.did (wrote texts ++ [.exit 0])).goto .exited)
    | _ => none
  | .read c =>
    match s.point with
    | .reading got => some ((s.did [.got c]).goto (refRead got c))
    | _ => none
  | .readEnd ret =>
    match s.point with
    | .reading _ =>
      if ret ≤ 0 then some ((s.did [.gotNone ret]).goto (.bye (putsTexts []))) else none
    | _ => none
  | .chdir ret =>
    match s.point with
    | .chdir dir =>
      let s := s.did [.chdir dir ret]
      some (if ret ≠ 0 then s.goto (.say [cdFailedText dir]) else s.goto .prompt)
    | _ => none
  | .getcwd a =>
    match s.point with
    | .getcwd =>
      let s := s.did [.getcwd a.ret]
      let text := if 0 < a.ret then stringAt a.cwd 0 else pwdError.bytes
      some (s.goto (.say (putsTexts text)))
    | _ => none
  | .fork ret =>
    match s.point with
    | .fork words =>
      let s := s.did [.fork ret]
      if 0 < ret then some (s.goto (.waiting ret (.lookup words)))
      else if ret < 0 then some (s.goto (.say (putsTexts forkFailed.bytes)))
      else none
    | _ => none
  | .child m =>
    match s.point with
    | .waiting pid child =>
      (child.step m).map fun r =>
        { point := .waiting pid r.2, history := s.history ++ r.1.map (Process.child, ·) }
    | _ => none
  | .wait =>
    match s.point with
    | .waiting pid .dead => some ((s.did [.waitpid pid]).goto .prompt)
    | _ => none

end RefState

def refStart : RefState := ⟨.banner, []⟩

end Toylibc
