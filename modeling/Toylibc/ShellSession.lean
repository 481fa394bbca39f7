import Toylibc.ShellRefines

/-!
# What a session looks like

The history of every run, from any start and in any order of moves, is the banner, then one
`Round` for each line, and then at most one round that is still `Open` (`shell_session`). A round is
the prompt, the bytes of the line, and the `Answer` to its words. What a child does lies between
the `fork` that gave its number and the `waitpid` for that number, so there is never more than one.
-/

namespace Toylibc

open Transition

/-! ## The parts of a history -/

def byShell (acts : List Act) : History := acts.map (Process.shell, ·)

def byChild (acts : List Act) : History := acts.map (Process.child, ·)

/-- The texts, with whatever the kernel answered to each `write`. -/
def Writes (texts : List (List UInt8)) (acts : List Act) : Prop :=
  ∃ w : Writer, acts = (writeCalls w 0 texts).map .wrote

/-- The bytes that were read for a line: up to the line break, or as many as the array holds. -/
inductive LineRead (line : List UInt8) : List UInt8 → Prop
  | ended (hmem : ch '\n' ∉ line) (hlen : line.length < maxLine) : LineRead line (line ++ [ch '\n'])
  | full (hmem : ch '\n' ∉ line) (hlen : line.length = maxLine) : LineRead line line

/-- The prompt, and a line. -/
inductive Asked (line : List UInt8) : List Act → Prop
  | mk {prompt : List Act} {raw : List UInt8} (hprompt : Writes [promptText] prompt)
      (hline : LineRead line raw) : Asked line (prompt ++ raw.map .got)

/-- The acts of a program: it may share the input of the shell, and write. -/
inductive ProgramAct : Act → Prop
  | got (c : UInt8) : ProgramAct (.got c)
  | wrote (c : WriteCall) : ProgramAct (.wrote c)

/-- What a child with these words has done when it has come to a point. -/
inductive ChildActs (words : List (List UInt8)) : RefChild → List Act → Prop
  | lookup : ChildActs words (.lookup words) []
  | missing {starts tried} (htried : lookupCommand starts (words.headD []) = some (tried, false)) :
      ChildActs words (.notFound (words.headD [])) (tried.map (.execve · words gEnvp))
  | gone {starts tried message}
      (htried : lookupCommand starts (words.headD []) = some (tried, false))
      (hmessage : Writes [notFoundText (words.headD [])] message) :
      ChildActs words .dead (tried.map (.execve · words gEnvp) ++ (message ++ [.exit 127]))
  | program {starts tried io}
      (htried : lookupCommand starts (words.headD []) = some (tried, true))
      (hio : ∀ a ∈ io, ProgramAct a) :
      ChildActs words .program (tried.map (.execve · words gEnvp) ++ io)
  | exited {starts tried io status}
      (htried : lookupCommand starts (words.headD []) = some (tried, true))
      (hio : ∀ a ∈ io, ProgramAct a) :
      ChildActs words .dead (tried.map (.execve · words gEnvp) ++ (io ++ [.exit status]))

/-- The name of a command that is looked for as a program. -/
def External (name : List UInt8) : Prop :=
  name ≠ [] ∧ name ∉ [ascii ['c', 'd'], ascii ['p', 'w', 'd'], ascii ['e', 'x', 'i', 't'],
    ascii ['h', 'e', 'l', 'p']]

instance (name : List UInt8) : Decidable (External name) := inferInstanceAs (Decidable (_ ∧ _))

/-- The answer to the words of a line, up to the next prompt. -/
inductive Answer : List (List UInt8) → History → Prop
  | blank {args} : Answer ([] :: args) []
  | cdMissing {message} (hmessage : Writes (putsTexts cdMissing.bytes) message) :
      Answer [ascii ['c', 'd']] (byShell message)
  | cdDone {dir rest} : Answer (ascii ['c', 'd'] :: dir :: rest) (byShell [.chdir dir 0])
  | cdFailed {dir rest ret message} (hret : ret ≠ 0)
      (hmessage : Writes [cdFailedText dir] message) :
      Answer (ascii ['c', 'd'] :: dir :: rest) (byShell (.chdir dir ret :: message))
  | pwd {args ret text message} (herror : ret ≤ 0 → text = pwdError.bytes)
      (hmessage : Writes (putsTexts text) message) :
      Answer (ascii ['p', 'w', 'd'] :: args) (byShell (.getcwd ret :: message))
  | help {args message} (hmessage : Writes (putsTexts helpText.bytes) message) :
      Answer (ascii ['h', 'e', 'l', 'p'] :: args) (byShell message)
  | forkFailed {name args ret message} (hname : External name) (hret : ret < 0)
      (hmessage : Writes (putsTexts forkFailed.bytes) message) :
      Answer (name :: args) (byShell (.fork ret :: message))
  | ran {name args pid acts} (hname : External name) (hpid : 0 < pid)
      (hchild : ChildActs (name :: args) .dead acts) :
      Answer (name :: args) (byShell [.fork pid] ++ byChild acts ++ byShell [.waitpid pid])

/-- A line and the answer to it. -/
inductive Round (line : List UInt8) : History → Prop
  | mk {asked : List Act} {answer : History} (hasked : Asked line asked)
      (hanswer : Answer (keptWords line) answer) : Round line (byShell asked ++ answer)

/-- Rounds, one behind the other. -/
inductive Rounds : List (List UInt8) → History → Prop
  | nil : Rounds [] []
  | concat {lines line h h'} (hrounds : Rounds lines h) (hround : Round line h') :
      Rounds (lines ++ [line]) (h ++ h')

/-- How the shell ends: the input ends, or a line is the `exit` command. -/
inductive Ending : List (List UInt8) → List UInt8 → History → Prop
  | eof {prompt got ret message} (hprompt : Writes [promptText] prompt) (hmem : ch '\n' ∉ got)
      (hlen : got.length < maxLine) (hret : ret ≤ 0) (hmessage : Writes (putsTexts []) message) :
      Ending [] got (byShell (prompt ++ got.map .got ++ (.gotNone ret :: message) ++ [.exit 0]))
  | exit {line asked message args} (hasked : Asked line asked)
      (hwords : keptWords line = ascii ['e', 'x', 'i', 't'] :: args)
      (hmessage : Writes (putsTexts byeText.bytes) message) :
      Ending [line] [] (byShell (asked ++ message ++ [.exit 0]))

/-- A round that has come to a point. The bytes are those of a line that is not complete. -/
inductive Open : RefPoint → List (List UInt8) → List UInt8 → History → Prop
  | reading {prompt got} (hprompt : Writes [promptText] prompt) (hmem : ch '\n' ∉ got)
      (hlen : got.length < maxLine) :
      Open (.reading got) [] got (byShell (prompt ++ got.map .got))
  | chdir {line asked dir rest} (hasked : Asked line asked)
      (hwords : keptWords line = ascii ['c', 'd'] :: dir :: rest) :
      Open (.chdir dir) [line] [] (byShell asked)
  | getcwd {line asked args} (hasked : Asked line asked)
      (hwords : keptWords line = ascii ['p', 'w', 'd'] :: args) :
      Open .getcwd [line] [] (byShell asked)
  | fork {line asked name args} (hasked : Asked line asked)
      (hwords : keptWords line = name :: args) (hname : External name) :
      Open (.fork (name :: args)) [line] [] (byShell asked)
  | waiting {line asked name args pid child acts} (hasked : Asked line asked)
      (hwords : keptWords line = name :: args) (hname : External name) (hpid : 0 < pid)
      (hchild : ChildActs (name :: args) child acts) :
      Open (.waiting pid child) [line] []
        (byShell asked ++ (byShell [.fork pid] ++ byChild acts))
  /-- The message is all that the answer lacks. -/
  | say {line asked texts h} (hasked : Asked line asked)
      (hanswer : ∀ message, Writes texts message → Answer (keptWords line) (h ++ byShell message)) :
      Open (.say texts) [line] [] (byShell asked ++ h)
  | bye {lines got texts h}
      (hend : ∀ message, Writes texts message →
        Ending lines got (h ++ byShell (message ++ [.exit 0]))) :
      Open (.bye texts) lines got h

/-- A whole session, up to a point: the lines that were read, the bytes of a line that is not
complete, and the history. -/
inductive Session : RefPoint → List (List UInt8) → List UInt8 → History → Prop
  | start : Session .banner [] [] []
  | prompt {greeting lines h} (hgreeting : Writes (putsTexts banner.bytes) greeting)
      (hrounds : Rounds lines h) : Session .prompt lines [] (byShell greeting ++ h)
  | inside {greeting lines h point line got h'}
      (hgreeting : Writes (putsTexts banner.bytes) greeting) (hrounds : Rounds lines h)
      (hopen : Open point line got h') :
      Session point (lines ++ line) got (byShell greeting ++ h ++ h')
  | exited {greeting lines h line got h'} (hgreeting : Writes (putsTexts banner.bytes) greeting)
      (hrounds : Rounds lines h) (hend : Ending line got h') :
      Session .exited (lines ++ line) got (byShell greeting ++ h ++ h')

/-! ## One step -/

theorem byShell_append (a b : List Act) : byShell (a ++ b) = byShell a ++ byShell b :=
  List.map_append

theorem byChild_append (a b : List Act) : byChild (a ++ b) = byChild a ++ byChild b :=
  List.map_append

theorem writes_writeCalls (w : Writer) (texts : List (List UInt8)) :
    Writes texts ((writeCalls w 0 texts).map .wrote) :=
  ⟨w, rfl⟩

theorem keptWords_cons (line : List UInt8) : ∃ name args, keptWords line = name :: args := by
  obtain ⟨ts, hts⟩ := commandWord_texts (line.takeWhile (· ≠ 0))
  exact ⟨_, _, by rw [keptWords, hts]; rfl⟩

/-- Where a line leads to is where its answer begins. -/
theorem refCommand_open {line : List UInt8} {asked : List Act} (hasked : Asked line asked) :
    (refCommand (keptWords line) = .prompt ∧ Answer (keptWords line) []) ∨
      Open (refCommand (keptWords line)) [line] [] (byShell asked) := by
  have hsay : ∀ {texts : List (List UInt8)},
      (∀ message, Writes texts message → Answer (keptWords line) (byShell message)) →
        Open (.say texts) [line] [] (byShell asked) := by
    intro texts hanswer
    have hopen := Open.say (h := []) hasked fun message hmessage => hanswer message hmessage
    rwa [List.append_nil] at hopen
  obtain ⟨name, args, hwords⟩ := keptWords_cons line
  rw [hwords] at hsay ⊢
  rw [refCommand.eq_def]
  dsimp only
  by_cases hempty : name = []
  · rw [if_pos hempty, hempty]
    exact .inl ⟨rfl, .blank⟩
  right
  rw [if_neg hempty]
  by_cases hcd : name = ascii ['c', 'd']
  · subst hcd
    rw [if_pos rfl]
    cases args with
    | nil => exact hsay fun _ => .cdMissing
    | cons dir rest => exact .chdir hasked hwords
  rw [if_neg hcd]
  by_cases hpwd : name = ascii ['p', 'w', 'd']
  · subst hpwd
    rw [if_pos rfl]
    exact .getcwd hasked hwords
  rw [if_neg hpwd]
  by_cases hexit : name = ascii ['e', 'x', 'i', 't']
  · subst hexit
    rw [if_pos rfl]
    refine .bye fun message hmessage => ?_
    rw [← byShell_append, ← List.append_assoc]
    exact .exit hasked hwords hmessage
  rw [if_neg hexit]
  by_cases hhelp : name = ascii ['h', 'e', 'l', 'p']
  · subst hhelp
    rw [if_pos rfl]
    exact hsay fun _ => .help
  rw [if_neg hhelp]
  refine .fork hasked hwords ⟨hempty, ?_⟩
  simp only [List.mem_cons, List.not_mem_nil, or_false, not_or]
  exact ⟨hcd, hpwd, hexit, hhelp⟩

/-- What a move does to a round: it goes on, or it is complete, or the shell ends. -/
inductive Follows (h : History) : RefState → Prop
  | inside {point line got h'} (hopen : Open point line got h') : Follows h ⟨point, h ++ h'⟩
  | prompt {line h'} (hround : Round line h') : Follows h ⟨.prompt, h ++ h'⟩
  | exited {line got h'} (hend : Ending line got h') : Follows h ⟨.exited, h ++ h'⟩

section

variable {h : History}

theorem Follows.append {point : RefPoint} {line : List (List UInt8)} {got : List UInt8}
    {h1 h2 : History} (hopen : Open point line got (h1 ++ h2)) :
    Follows h ⟨point, h ++ h1 ++ h2⟩ := by
  rw [List.append_assoc]
  exact .inside hopen

theorem Follows.answered {line : List UInt8} {asked : List Act} {answer : History}
    (hasked : Asked line asked) (hanswer : Answer (keptWords line) answer) :
    Follows h ⟨.prompt, h ++ byShell asked ++ answer⟩ := by
  rw [List.append_assoc]
  exact .prompt (.mk hasked hanswer)

theorem Follows.answered_append {line : List UInt8} {asked : List Act} {h1 h2 : History}
    (hasked : Asked line asked) (hanswer : Answer (keptWords line) (h1 ++ h2)) :
    Follows h ⟨.prompt, h ++ (byShell asked ++ h1) ++ h2⟩ := by
  rw [← List.append_assoc, List.append_assoc _ h1 h2]
  exact .answered hasked hanswer

/-- The last byte of a line. -/
theorem Follows.line {line : List UInt8} {asked : List Act} (hasked : Asked line asked) :
    Follows h ⟨refCommand (keptWords line), h ++ byShell asked⟩ := by
  rcases refCommand_open hasked with ⟨hprompt, hanswer⟩ | hopen
  · rw [hprompt]
    have hround := Round.mk hasked hanswer
    rw [List.append_nil] at hround
    exact .prompt hround
  · exact .inside hopen

theorem Open.read {prompt : List Act} {got : List UInt8} (hprompt : Writes [promptText] prompt)
    (hmem : ch '\n' ∉ got) (hlen : got.length < maxLine) (c : UInt8) :
    Follows h ⟨refRead got c,
      h ++ byShell (prompt ++ got.map .got) ++ byShell [.got c]⟩ := by
  have hjoin : byShell (prompt ++ got.map .got) ++ byShell [.got c] =
      byShell (prompt ++ (got ++ [c]).map .got) := by
    rw [← byShell_append, List.map_append, List.append_assoc]
    rfl
  rw [List.append_assoc, hjoin]
  unfold refRead
  by_cases hc : c = ch '\n'
  · rw [if_pos hc, hc]
    exact .line (.mk hprompt (.ended hmem hlen))
  have hmem' : ch '\n' ∉ got ++ [c] := by
    rw [List.mem_append, List.mem_singleton, not_or]
    exact ⟨hmem, fun heq => hc heq.symm⟩
  have hcount : (got ++ [c]).length = got.length + 1 := List.length_append
  rw [if_neg hc]
  by_cases hroom : (got ++ [c]).length < maxLine
  · rw [if_pos hroom]
    exact .inside (.reading hprompt hmem' hroom)
  · rw [if_neg hroom]
    exact .line (.mk hprompt (.full hmem' (by omega)))

/-- The end of the input, inside a line. -/
theorem Open.readEnd {prompt : List Act} {got : List UInt8} (hprompt : Writes [promptText] prompt)
    (hmem : ch '\n' ∉ got) (hlen : got.length < maxLine) {ret : Int} (hret : ret ≤ 0) :
    Follows h ⟨.bye (putsTexts []),
      h ++ byShell (prompt ++ got.map .got) ++ byShell [.gotNone ret]⟩ := by
  have hbye : Open (.bye (putsTexts [])) [] got
      (byShell (prompt ++ got.map .got) ++ byShell [.gotNone ret]) := by
    refine .bye fun message hmessage => ?_
    have hend := Ending.eof hprompt hmem hlen hret hmessage
    rw [List.append_assoc, byShell_append] at hend
    rw [List.append_assoc]
    exact hend
  exact .append hbye

theorem Open.childMoves {line : List UInt8} {asked acts acts' : List Act} {name : List UInt8}
    {args : List (List UInt8)} {pid : Int} {child : RefChild} (hasked : Asked line asked)
    (hwords : keptWords line = name :: args) (hname : External name) (hpid : 0 < pid)
    (hchild : ChildActs (name :: args) child (acts ++ acts')) :
    Follows h ⟨.waiting pid child,
      h ++ (byShell asked ++ (byShell [.fork pid] ++ byChild acts)) ++ byChild acts'⟩ := by
  have hopen := Open.waiting hasked hwords hname hpid hchild
  have hjoin : byShell asked ++ (byShell [.fork pid] ++ byChild (acts ++ acts')) =
      byShell asked ++ (byShell [.fork pid] ++ byChild acts) ++ byChild acts' := by
    rw [byChild_append]
    simp only [List.append_assoc]
  rw [hjoin] at hopen
  exact .append hopen

/-- What the child does next. -/
theorem ChildActs.step {words : List (List UInt8)} {child child' : RefChild} {acts acts' : List Act}
    (hacts : ChildActs words child acts) {m : ChildMove}
    (hstep : child.step m = some (acts', child')) : ChildActs words child' (acts ++ acts') := by
  cases hacts with
  | lookup =>
    cases m with
    | exec starts fullpath =>
      obtain ⟨⟨tried, found⟩, htried, heq⟩ := Option.map_eq_some_iff.mp hstep
      cases heq
      cases found with
      | false => exact .missing htried
      | true =>
        have hprogram : ChildActs words .program (tried.map (.execve · words gEnvp) ++ []) :=
          .program htried nofun
        rw [List.append_nil] at hprogram
        exact hprogram
    | _ => cases hstep
  | missing htried =>
    cases m with
    | print pr =>
      cases hstep
      exact .gone htried (writes_writeCalls _ _)
    | _ => cases hstep
  | gone => cases m <;> cases hstep
  | program htried hio =>
    have hmore : ∀ a, ProgramAct a → ∀ b ∈ _ ++ [a], ProgramAct b :=
      fun a ha => List.forall_mem_append.mpr ⟨hio, List.forall_mem_singleton.mpr ha⟩
    cases m with
    | read c =>
      cases hstep
      rw [List.append_assoc]
      exact .program htried (hmore _ (.got c))
    | write c =>
      cases hstep
      rw [List.append_assoc]
      exact .program htried (hmore _ (.wrote c))
    | exit status =>
      cases hstep
      rw [List.append_assoc]
      exact .exited htried hio
    | _ => cases hstep
  | exited => cases m <;> cases hstep

/-- A move inside a round. -/
theorem Open.step {point : RefPoint} {line : List (List UInt8)} {got : List UInt8} {h' : History}
    (hopen : Open point line got h') {m : ShellMove} {s : RefState}
    (hstep : RefState.step ⟨point, h ++ h'⟩ m = some s) : Follows h s := by
  cases hopen with
  | reading hprompt hmem hlen =>
    cases m with
    | read c =>
      cases hstep
      exact Open.read hprompt hmem hlen c
    | readEnd ret =>
      obtain ⟨hret, heq⟩ := Option.ite_none_right_eq_some.mp hstep
      cases heq
      exact Open.readEnd hprompt hmem hlen hret
    | _ => cases hstep
  | chdir hasked hwords =>
    cases m with
    | chdir ret =>
      cases hstep
      by_cases hret : ret ≠ 0
      · rw [if_pos hret]
        refine .append (.say hasked fun message hmessage => ?_)
        rw [hwords]
        exact .cdFailed hret hmessage
      · rw [if_neg hret]
        refine .answered hasked ?_
        rw [hwords, not_not.mp hret]
        exact .cdDone
    | _ => cases hstep
  | getcwd hasked hwords =>
    cases m with
    | getcwd a =>
      cases hstep
      refine .append (.say hasked fun message hmessage => ?_)
      rw [hwords]
      exact .pwd (fun herror => if_neg (Int.not_lt.mpr herror)) hmessage
    | _ => cases hstep
  | fork hasked hwords hname =>
    cases m with
    | fork ret =>
      rw [RefState.step] at hstep
      dsimp only at hstep
      split_ifs at hstep with hpid hfailed
      · cases hstep
        have hopen := Open.waiting hasked hwords hname hpid .lookup
        rw [byChild, List.map_nil, List.append_nil] at hopen
        exact .append hopen
      · cases hstep
        refine .append (.say hasked fun message hmessage => ?_)
        rw [hwords]
        exact .forkFailed hname hfailed hmessage
    | _ => cases hstep
  | @waiting _ _ _ _ _ child _ hasked hwords hname hpid hchild =>
    cases m with
    | child m =>
      obtain ⟨⟨acts', child'⟩, hmove, heq⟩ := Option.map_eq_some_iff.mp hstep
      cases heq
      exact Open.childMoves hasked hwords hname hpid (hchild.step hmove)
    | wait =>
      cases child with
      | dead =>
        cases hstep
        refine .answered_append hasked ?_
        rw [hwords]
        exact .ran hname hpid hchild
      | _ => cases hstep
    | _ => cases hstep
  | say hasked hanswer =>
    cases m with
    | print pr =>
      cases hstep
      exact .answered_append hasked (hanswer _ (writes_writeCalls _ _))
    | _ => cases hstep
  | bye hend =>
    cases m with
    | print pr =>
      cases hstep
      have hlast := hend _ (writes_writeCalls pr.writer _)
      refine (congrArg (Follows h) ?_).mp (Follows.exited hlast)
      exact congrArg (RefState.mk .exited) (List.append_assoc _ _ _).symm
    | _ => cases hstep

end

/-! ## Whole runs -/

theorem Session.step {point : RefPoint} {lines : List (List UInt8)} {got : List UInt8} {h : History}
    (hsession : Session point lines got h) {m : ShellMove} {s : RefState}
    (hstep : RefState.step ⟨point, h⟩ m = some s) :
    ∃ lines' got', Session s.point lines' got' s.history := by
  cases hsession with
  | start =>
    cases m with
    | print pr =>
      cases hstep
      have hprompt := Session.prompt (writes_writeCalls pr.writer _) .nil
      rw [List.append_nil] at hprompt
      exact ⟨[], [], hprompt⟩
    | _ => cases hstep
  | prompt hgreeting hrounds =>
    cases m with
    | print pr =>
      cases hstep
      have hopen := @Open.reading _ [] (writes_writeCalls pr.writer _) nofun (by decide)
      rw [List.map_nil, List.append_nil] at hopen
      exact ⟨_, _, .inside hgreeting hrounds hopen⟩
    | _ => cases hstep
  | inside hgreeting hrounds hopen =>
    cases hopen.step hstep with
    | inside hopen => exact ⟨_, _, .inside hgreeting hrounds hopen⟩
    | prompt hround =>
      have hprompt := Session.prompt hgreeting (hrounds.concat hround)
      rw [← List.append_assoc] at hprompt
      exact ⟨_, _, hprompt⟩
    | exited hend => exact ⟨_, _, .exited hgreeting hrounds hend⟩
  | exited => cases m <;> cases hstep

theorem reference_session {moves : List ShellMove} {s : RefState}
    (hrun : run RefState.step refStart moves = some s) :
    ∃ lines got, Session s.point lines got s.history :=
  run_invariant (fun s => ∃ lines got, Session s.point lines got s.history)
    (fun _ _ _ ⟨_, _, hsession⟩ hstep => hsession.step hstep) ⟨[], [], .start⟩ hrun

/-- The history of every run of the shell is a session. -/
theorem shell_session (input : {b : List UInt8 // b.length = maxInput})
    (argv : {v : List (Option Nat) // v.length = maxArgs}) (moves : List ShellMove)
    (s : ShellState) (hrun : run ShellState.step (shellStart input argv) moves = some s) :
    ∃ lines got, Session s.abs.point lines got s.history :=
  shellSimulation.transfer (fun s => ∃ lines got, Session s.point lines got s.history)
    (shellStart_ok input argv) (fun _ ht => reference_session ht) hrun

/-! ### The program `/bin/ls` -/

theorem lsMoves_reference :
    ∃ r, run RefState.step refStart lsMoves = some r ∧ r.point = .exited :=
  ⟨_, rfl, rfl⟩

theorem lsMoves_session :
    ∃ s, run ShellState.step (shellStart freshInput freshArgv) lsMoves = some s ∧
      s.abs.point = .exited ∧ ∃ lines got, Session s.abs.point lines got s.history := by
  obtain ⟨r, href, hpoint⟩ := lsMoves_reference
  obtain ⟨s, hrun, habs⟩ := run_of_reference href
  exact ⟨s, hrun, habs ▸ hpoint, shell_session freshInput freshArgv lsMoves s hrun⟩

end Toylibc
