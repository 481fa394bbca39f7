import Toylibc.Lib.Simulation
import Toylibc.PrintfExact
import Toylibc.ShellLookup
import Toylibc.StringOrder

/-!
# The shell is its reference

The arrays of `main` hold the words of the command from `parse_line` up to `execve`
(`CommandIn`), and `abs` reads them. Every move of the shell is then the same move of the
reference, with the same history (`shellSimulation`), and so is every run
(`shell_refines_reference`).
-/

namespace Toylibc

open Buffer Lines Transition

/-! ## Messages -/

theorem escape_plain {a : List UInt8} (h : ch '%' ∉ a) : escape a = a := by
  induction a with
  | nil => rfl
  | cons c a ih =>
    have hc : c ≠ ch '%' := fun heq => h (heq ▸ List.mem_cons_self)
    have hrest := ih fun hmem => h (List.mem_cons_of_mem c hmem)
    rw [escape, List.flatMap_cons, if_neg hc, ← escape, hrest]
    rfl

theorem closed_plain {a : List UInt8} (h : ch '%' ∉ a) : closed a = true := by
  induction a with
  | nil => rfl
  | cons c a ih =>
    have hc : c ≠ ch '%' := fun heq => h (heq ▸ List.mem_cons_self)
    rw [closed_text hc]
    exact ih fun hmem => h (List.mem_cons_of_mem c hmem)

/-- A format with one `%s` between two texts. -/
structure Template (fmt before after : List UInt8) : Prop where
  bytes : fmt = before ++ (ascii ['%', 's'] ++ after)
  before_plain : ch '%' ∉ before
  after_plain : ch '%' ∉ after

theorem Template.expansion {fmt before after : List UInt8} (h : Template fmt before after)
    {p : BitVec 64} (hp : p ≠ 0) (name : CString) :
    expansion fmt [.ptr p name] = some (before ++ (name.bytes ++ after), []) := by
  have hplain : ∀ {a : List UInt8} (args : List Arg), ch '%' ∉ a →
      Toylibc.expansion a args = some (a, args) := by
    intro a args ha
    have hescape := expansion_escape a args
    rwa [escape_plain ha] at hescape
  have hstring : Toylibc.expansion (ascii ['%', 's']) [.ptr p name] = some (name.bytes, []) := by
    have hpieces : pieces (ascii ['%', 's']) [.ptr p name] =
        some ([if p = 0 then ascii ['(', 'n', 'u', 'l', 'l', ')'] else name.bytes], []) := rfl
    rw [Toylibc.expansion, hpieces, if_neg hp]
    exact congrArg some (Prod.ext List.flatten_singleton rfl)
  rw [h.bytes]
  exact expansion_append (closed_plain h.before_plain) (hplain _ h.before_plain)
    (expansion_append rfl hstring (hplain _ h.after_plain))

theorem cdFailed_template :
    Template cdFailed.bytes (utf8 "cd: ") (utf8 ": no such directory\n") :=
  ⟨by decide +kernel, by decide +kernel, by decide +kernel⟩

theorem notFound_template :
    Template notFound.bytes (utf8 "toy: ") (utf8 ": command not found\n") :=
  ⟨by decide +kernel, by decide +kernel, by decide +kernel⟩

/-- What a message writes, call by call. -/
def Message.texts : Message → List (List UInt8)
  | .puts s => putsTexts s.bytes
  | .printf fmt name => [((expansion fmt.bytes [.ptr 1 name]).map (·.1)).getD []]

/-- The message fits into the array of `printf`. -/
def Message.Fits : Message → Prop
  | .puts _ => True
  | .printf fmt name => ∃ before after, Template fmt.bytes before after ∧ before ≠ [] ∧
      (before ++ (name.bytes ++ after)).length ≤ printfBufSize - 1

theorem Template.texts {fmt name : CString} {before after : List UInt8}
    (h : Template fmt.bytes before after) :
    (Message.printf fmt name).texts = [before ++ (name.bytes ++ after)] := by
  rw [Message.texts, h.expansion (by decide) name]
  rfl

theorem Message.print_eq (pr : Printing) {m : Message} (h : m.Fits) :
    m.print pr = some (writeCalls pr.writer 0 m.texts) := by
  cases m with
  | puts s => rfl
  | printf fmt name =>
    obtain ⟨before, after, htemplate, hne, hfit⟩ := h
    have hsize : printfBufSize - 1 < 2 ^ 31 := by decide
    obtain ⟨r, hr, -, hcalls, -⟩ := printf_exact pr.writer pr.buf fmt
      (htemplate.expansion pr.addr.2 name) (Nat.lt_of_le_of_lt hfit hsize)
    have hchunks : chunks (printfBufSize - 1) (before ++ (name.bytes ++ after)) =
        [before ++ (name.bytes ++ after)] :=
      chunks_of_le (by decide) hfit fun hnil => hne (List.append_eq_nil_iff.mp hnil).1
    rw [hchunks] at hcalls
    rw [Message.print, hr, Option.map_some, hcalls, htemplate.texts]

theorem fits_template {fmt name : CString} {before after : List UInt8}
    (h : Template fmt.bytes before after) (hne : before ≠ [])
    (hlen : before.length + after.length ≤ 64) (hname : name.bytes.length < maxInput) :
    (Message.printf fmt name).Fits := by
  refine ⟨before, after, h, hne, ?_⟩
  have hmax : maxInput + 64 ≤ printfBufSize - 1 := by decide
  rw [List.length_append, List.length_append]
  omega

/-! ## The words in the arrays -/

/-- The arrays of `main` hold the words of a command. -/
structure CommandIn (input : List UInt8) (argv : List (Option Nat))
    (words : List (List UInt8)) : Prop where
  size : input.length = maxInput
  nonempty : words ≠ []
  leaves : Leaves ⟨words.length, input, argv⟩ words

def argWords (input : List UInt8) (argv : List (Option Nat)) : List (List UInt8) :=
  (argStrings input argv).getD []

section

variable {input : List UInt8} {argv : List (Option Nat)} {words : List (List UInt8)}

theorem CommandIn.read (h : CommandIn input argv words) : argStrings input argv = some words :=
  h.leaves.read

theorem CommandIn.argWords (h : CommandIn input argv words) : argWords input argv = words := by
  rw [Toylibc.argWords, h.read]
  rfl

theorem CommandIn.short (h : CommandIn input argv words) {k : Nat} {t : List UInt8}
    (ht : words[k]? = some t) : t.length < maxInput := by
  obtain ⟨a, -, hstring⟩ := h.leaves.string k t ht
  obtain ⟨hlt, -⟩ := List.getElem?_eq_some_iff.mp hstring.nul
  rw [← h.size]
  exact Nat.lt_of_le_of_lt (Nat.le_add_left _ _) hlt

theorem CommandIn.argString (h : CommandIn input argv words) {k : Nat} {t : List UInt8}
    (ht : words[k]? = some t) : ∃ s, argString input argv k = some s ∧ s.bytes = t := by
  obtain ⟨a, harg, hstring⟩ := h.leaves.string k t ht
  dsimp only at harg
  rw [Toylibc.argString, harg]
  exact ⟨_, hstring.read, rfl⟩

theorem CommandIn.head (h : CommandIn input argv words) :
    words[0]? = some (words.headD []) := by
  cases words with
  | nil => exact absurd rfl h.nonempty
  | cons t words => rfl

end

/-! ## The child -/

def Child.abs (c : Child) : RefChild :=
  match c.point with
  | .lookup => .lookup (argWords c.input c.argv)
  | .notFound => .notFound ((argWords c.input c.argv).headD [])
  | .program => .program
  | .dead => .dead

/-- As long as the child needs its arrays, they hold the command. -/
def Child.Ok (c : Child) : Prop :=
  c.point = .lookup ∨ c.point = .notFound → ∃ words, CommandIn c.input c.argv words

theorem Child.step_exec {c : Child} (hpoint : c.point = .lookup) {words : List (List UInt8)}
    (hin : CommandIn c.input c.argv words) (starts : List UInt8 → Bool)
    (fullpath : {b : List UInt8 // b.length = pathSize}) :
    c.step (.exec starts fullpath) =
      (lookupCommand starts (words.headD [])).map fun r =>
        (r.1.map (.execve · words gEnvp),
          { c with point := if r.2 then .program else .notFound }) := by
  obtain ⟨a, harg, hstring⟩ := hin.leaves.string 0 _ hin.head
  have hseen := tryExec_seen starts fullpath harg hstring
  dsimp only at hseen
  rw [Child.step, hpoint]
  dsimp only [bind]
  cases hrun : tryExec starts fullpath c.input c.argv with
  | none =>
    rw [hrun, Option.map_none] at hseen
    rw [Option.map_eq_none_iff.mp hseen.symm]
    rfl
  | some run =>
    rw [hrun, Option.map_some] at hseen
    obtain ⟨r, hlookup, hr⟩ := Option.map_eq_some_iff.mp hseen.symm
    obtain ⟨paths, hpaths, rfl⟩ := Option.map_eq_some_iff.mp hr.symm
    rw [hlookup, Option.bind_some, hpaths, Option.bind_some, hin.read]
    rfl

theorem Child.step_abs {c : Child} (h : c.Ok) (m : ChildMove) :
    (c.step m).map (fun r => (r.1, r.2.abs)) = c.abs.step m := by
  obtain ⟨point, input, argv⟩ := c
  cases point with
  | lookup =>
    cases m with
    | exec starts fullpath =>
      obtain ⟨words, hin⟩ := h (.inl rfl)
      rw [Child.step_exec rfl hin, Child.abs, Option.map_map]
      dsimp only
      rw [hin.argWords, RefChild.step]
      refine congrArg₂ Option.map (funext fun r => ?_) rfl
      obtain ⟨paths, started⟩ := r
      cases started with
      | false =>
        have hname := congrArg (·.headD []) hin.argWords
        exact Prod.ext rfl (congrArg RefChild.notFound hname)
      | true => rfl
    | _ => rfl
  | notFound =>
    cases m with
    | print pr =>
      obtain ⟨words, hin⟩ := h (.inr rfl)
      obtain ⟨name, hname, hbytes⟩ := hin.argString hin.head
      have hfits : (Message.printf notFound name).Fits :=
        fits_template notFound_template (by decide +kernel) (by decide +kernel)
          (hbytes ▸ hin.short hin.head)
      have htext : (Message.printf notFound name).texts = [notFoundText (words.headD [])] := by
        rw [notFound_template.texts, hbytes, notFoundText, List.append_assoc]
      dsimp only at hname
      rw [Child.step, Child.abs]
      dsimp only [bind]
      rw [hname, Option.bind_some, Message.print_eq pr hfits, Option.bind_some, htext,
        hin.argWords]
      rfl
    | _ => rfl
  | program => cases m <;> rfl
  | dead => cases m <;> rfl

theorem Child.step_ok {c : Child} (h : c.Ok) {m : ChildMove} {r : List Act × Child}
    (hstep : c.step m = some r) : r.2.Ok := by
  obtain ⟨point, input, argv⟩ := c
  cases point with
  | lookup =>
    obtain ⟨words, hin⟩ := h (.inl rfl)
    cases m with
    | exec starts fullpath =>
      rw [Child.step_exec rfl hin] at hstep
      obtain ⟨q, -, rfl⟩ := Option.map_eq_some_iff.mp hstep
      exact fun _ => ⟨words, hin⟩
    | _ => cases hstep
  | notFound =>
    cases m with
    | print pr =>
      obtain ⟨name, -, hrest⟩ := Option.bind_eq_some_iff.mp hstep
      obtain ⟨calls, -, hdone⟩ := Option.bind_eq_some_iff.mp hrest
      cases hdone
      exact fun hpoint => hpoint.elim nofun nofun
    | _ => cases hstep
  | program =>
    cases m <;> cases hstep <;> exact fun hpoint => hpoint.elim nofun nofun
  | dead => cases m <;> cases hstep

/-! ## The shell -/

def ShellPoint.abs (input : List UInt8) (argv : List (Option Nat)) : ShellPoint → RefPoint
  | .banner => .banner
  | .prompt => .prompt
  | .reading pos => .reading (input.take pos)
  | .chdir => .chdir ((argWords input argv).getD 1 [])
  | .getcwd => .getcwd
  | .fork => .fork (argWords input argv)
  | .waiting pid child => .waiting pid child.abs
  | .say m => .say m.texts
  | .bye m => .bye m.texts
  | .exited => .exited

def ShellState.abs (s : ShellState) : RefState := ⟨s.point.abs s.input s.argv, s.history⟩

/-- What the next call of the shell relies on. -/
def ShellPoint.Ok (input : List UInt8) (argv : List (Option Nat)) : ShellPoint → Prop
  | .reading pos => pos < maxLine
  | .chdir => ∃ name dir rest, CommandIn input argv (name :: dir :: rest)
  | .fork => ∃ words, CommandIn input argv words
  | .waiting _ child => child.Ok
  | .say m => m.Fits
  | .bye m => m.Fits
  | _ => True

structure ShellState.Ok (s : ShellState) : Prop where
  input : s.input.length = maxInput
  argv : s.argv.length = maxArgs
  point : s.point.Ok s.input s.argv

/-- A step goes on in the way of the reference. -/
def ShellState.Goes (o : Option ShellState) (r : RefState) : Prop :=
  ∃ s, o = some s ∧ s.Ok ∧ s.abs = r

theorem ShellState.Ok.goto {s : ShellState} (h : s.Ok) (point : ShellPoint)
    (hpoint : point.Ok s.input s.argv) :
    ShellState.Goes (some (s.goto point)) ⟨point.abs s.input s.argv, s.history⟩ :=
  ⟨_, rfl, ⟨h.input, h.argv, hpoint⟩, rfl⟩

theorem ShellState.Ok.did {s : ShellState} (h : s.Ok) (acts : List Act) : (s.did acts).Ok :=
  ⟨h.input, h.argv, h.point⟩

/-- `run_command` compares the first word with the names of the built-in commands. -/
theorem runCommand_eq {buf name : List UInt8} {argv : List (Option Nat)} {a : Nat}
    (harg : argv[0]? = some (some a)) (hname : StringIn buf a name) :
    runCommand buf argv =
      if name = [] then .empty
      else if name = ascii ['c', 'd'] then .cd
      else if name = ascii ['p', 'w', 'd'] then .pwd
      else if name = ascii ['e', 'x', 'i', 't'] then .exit
      else if name = ascii ['h', 'e', 'l', 'p'] then .help
      else .external := by
  have hcmp : ∀ {t : List UInt8}, (0 : UInt8) ∉ t → (toylibcStrcmp name t = 0 ↔ name = t) :=
    fun ht => toylibcStrcmp_eq_zero (fun c hc hzero => hname.no_nul (hzero ▸ hc))
      fun c hc hzero => ht (hzero ▸ hc)
  have hcd := hcmp (show (0 : UInt8) ∉ ascii ['c', 'd'] by decide)
  have hpwd := hcmp (show (0 : UInt8) ∉ ascii ['p', 'w', 'd'] by decide)
  have hexit := hcmp (show (0 : UInt8) ∉ ascii ['e', 'x', 'i', 't'] by decide)
  have hhelp := hcmp (show (0 : UInt8) ∉ ascii ['h', 'e', 'l', 'p'] by decide)
  unfold runCommand
  rw [harg]
  dsimp only
  rw [hname.string]
  simp only [hcd, hpwd, hexit, hhelp]

/-- The dispatch of a command that the arrays hold. -/
theorem ShellState.command_goes {s : ShellState} (hargv : s.argv.length = maxArgs)
    {words : List (List UInt8)} (hin : CommandIn s.input s.argv words) :
    ShellState.Goes s.command ⟨refCommand words, s.history⟩ := by
  have hgoes : ∀ point : ShellPoint, point.Ok s.input s.argv →
      ShellState.Goes (some (s.goto point)) ⟨point.abs s.input s.argv, s.history⟩ :=
    fun point hpoint => ⟨_, rfl, ⟨hin.size, hargv, hpoint⟩, rfl⟩
  obtain ⟨a, harg, hstring⟩ := hin.leaves.string 0 _ hin.head
  have hrun := runCommand_eq harg hstring
  dsimp only at hrun
  rw [ShellState.command, hrun]
  cases words with
  | nil => exact absurd rfl hin.nonempty
  | cons name args =>
    rw [List.headD_cons, refCommand.eq_def]
    dsimp only
    by_cases hempty : name = []
    · rw [if_pos hempty, if_pos hempty]
      exact hgoes .prompt trivial
    rw [if_neg hempty, if_neg hempty]
    by_cases hcd : name = ascii ['c', 'd']
    · rw [if_pos hcd, if_pos hcd]
      cases args with
      | nil =>
        have hnull : s.argv[1]? = some none := hin.leaves.null
        dsimp only
        rw [hnull]
        exact hgoes (.say (.puts cdMissing)) trivial
      | cons dir rest =>
        obtain ⟨b, hdir, -⟩ := hin.leaves.string 1 dir rfl
        dsimp only at hdir ⊢
        rw [hdir]
        have hpoint := hgoes .chdir ⟨name, dir, rest, hin⟩
        rw [ShellPoint.abs, hin.argWords] at hpoint
        exact hpoint
    rw [if_neg hcd, if_neg hcd]
    by_cases hpwd : name = ascii ['p', 'w', 'd']
    · rw [if_pos hpwd, if_pos hpwd]
      exact hgoes .getcwd trivial
    rw [if_neg hpwd, if_neg hpwd]
    by_cases hexit : name = ascii ['e', 'x', 'i', 't']
    · rw [if_pos hexit, if_pos hexit]
      exact hgoes (.bye (.puts byeText)) trivial
    rw [if_neg hexit, if_neg hexit]
    by_cases hhelp : name = ascii ['h', 'e', 'l', 'p']
    · rw [if_pos hhelp, if_pos hhelp]
      exact hgoes (.say (.puts helpText)) trivial
    rw [if_neg hhelp, if_neg hhelp]
    have hpoint := hgoes .fork ⟨_, hin⟩
    rw [ShellPoint.abs, hin.argWords] at hpoint
    exact hpoint

/-- The text up to the first NUL, and the NUL: that of the text, or the one behind it. -/
theorem takeWhile_split (got rest : List UInt8) :
    ∃ tail, got ++ 0 :: rest = got.takeWhile (· ≠ 0) ++ 0 :: tail := by
  induction got with
  | nil => exact ⟨rest, rfl⟩
  | cons c got ih =>
    by_cases hc : c = 0
    · refine ⟨got ++ 0 :: rest, ?_⟩
      rw [List.takeWhile_cons_of_neg (by rw [hc]; decide), hc]
      rfl
    · obtain ⟨tail, htail⟩ := ih
      refine ⟨tail, ?_⟩
      have hkeep : (c :: got).takeWhile (· ≠ 0) = c :: got.takeWhile (· ≠ 0) :=
        List.takeWhile_cons_of_pos (decide_eq_true hc)
      rw [hkeep, List.cons_append, htail, List.cons_append]

/-- The end of a line: it is parsed, and its command dispatched. -/
theorem ShellState.endLine_goes {s : ShellState} (hinput : s.input.length = maxInput)
    (hargv : s.argv.length = maxArgs) {pos : Nat} (hpos : pos ≤ maxLine) :
    ShellState.Goes (s.endLine pos) ⟨refCommand (keptWords (s.input.take pos)), s.history⟩ := by
  have hlt : pos < s.input.length := by
    rw [hinput]
    exact Nat.lt_of_le_of_lt hpos (by decide)
  have hstore := store_of_lt hlt (0 : UInt8)
  have hlen : (s.input.set pos 0).length = maxInput := List.length_set.trans hinput
  obtain ⟨tail, htail⟩ : ∃ tail, s.input.set pos 0 =
      (s.input.take pos).takeWhile (· ≠ 0) ++ 0 :: tail := by
    rw [List.set_eq_take_cons_drop _ hlt]
    exact takeWhile_split _ _
  unfold keptWords
  generalize hline : (s.input.take pos).takeWhile (· ≠ 0) = line at htail
  have hnul : (0 : UInt8) ∉ line := by
    intro hmem
    rw [← hline] at hmem
    have hne := List.mem_takeWhile_imp hmem
    exact of_decide_eq_true hne rfl
  rw [ShellState.endLine, hstore]
  dsimp only [bind]
  rw [Option.bind_some]
  cases line with
  | nil =>
    -- an empty line, or one that starts with a NUL
    have hskip : (s.input.set pos 0)[0]? = some 0 := by
      rw [htail]
      rfl
    rw [if_pos hskip]
    exact ⟨_, rfl, ⟨hlen, hargv, trivial⟩, rfl⟩
  | cons c line =>
    have hfirst : (s.input.set pos 0)[0]? ≠ some 0 := by
      rw [htail]
      intro hzero
      cases hzero
      exact hnul List.mem_cons_self
    obtain ⟨parsed, hparse, hleaves⟩ := parseLine_leaves hnul tail hargv
    have hend : (s.input.set pos 0)[(c :: line).length]? = some 0 := by
      rw [htail]
      exact getElem?_append_cons _ _ _
    obtain ⟨parsed', hparse', hargc, hbuf, hslots⟩ := parseLine_returns hend hargv
    rw [← htail] at hparse
    rw [hparse, Option.some.injEq] at hparse'
    subst hparse'
    rw [if_neg hfirst, hparse, Option.bind_some, if_neg (Nat.ne_of_gt hargc)]
    have hwords := hleaves.argc
    have hin : CommandIn parsed.buf parsed.argv ((texts (c :: line)).take (maxArgs - 1)) := by
      refine ⟨hbuf.trans hlen, ?_, ?_⟩
      · intro hnil
        rw [hnil, List.length_nil] at hwords
        exact Nat.ne_of_gt hargc hwords
      · rw [← hwords]
        exact hleaves
    exact ShellState.command_goes (s := { s with input := parsed.buf, argv := parsed.argv })
      hslots hin

/-- One more byte of a line. -/
theorem ShellState.readByte_goes {s : ShellState} (hinput : s.input.length = maxInput)
    (hargv : s.argv.length = maxArgs) {pos : Nat} (hpos : pos < maxLine) (c : UInt8) :
    ShellState.Goes (s.readByte pos c) ⟨refRead (s.input.take pos) c, s.history⟩ := by
  unfold ShellState.readByte refRead
  by_cases hc : c = ch '\n'
  · rw [if_pos hc, if_pos hc]
    exact ShellState.endLine_goes hinput hargv (Nat.le_of_lt hpos)
  have hlt : pos < s.input.length := by
    rw [hinput]
    exact Nat.lt_trans hpos (by decide)
  have hstore := store_of_lt hlt c
  have hlen : (s.input.set pos c).length = maxInput := List.length_set.trans hinput
  have htake := take_store hstore
  have hcount : (s.input.take pos ++ [c]).length = pos + 1 := by
    rw [List.length_append, List.length_take_of_le (Nat.le_of_lt hlt)]
    rfl
  rw [if_neg hc, if_neg hc, hstore, hcount]
  dsimp only [bind]
  rw [Option.bind_some]
  by_cases hroom : pos + 1 < maxLine
  · rw [if_pos hroom, if_pos (show pos + 1 < maxInput - 1 from hroom), ← htake]
    exact ⟨_, rfl, ⟨hlen, hargv, hroom⟩, rfl⟩
  · rw [if_neg hroom, if_neg (show ¬pos + 1 < maxInput - 1 from hroom), ← htake]
    exact ShellState.endLine_goes (s := { s with input := s.input.set pos c }) hlen hargv hpos

/-- Both systems go on in the same way, or neither does. -/
structure ShellState.Agree (o : Option ShellState) (r : Option RefState) : Prop where
  ok : ∀ s, o = some s → s.Ok
  eq : o.map ShellState.abs = r

theorem ShellState.Goes.agree {o : Option ShellState} {r : RefState} (h : ShellState.Goes o r) :
    ShellState.Agree o (some r) := by
  obtain ⟨s, rfl, hok, rfl⟩ := h
  exact ⟨fun s' hs' => Option.some.inj hs' ▸ hok, rfl⟩

theorem ShellState.agree_none : ShellState.Agree none none := ⟨nofun, rfl⟩

section

variable {s : ShellState}

theorem ShellState.Ok.print (h : s.Ok) (pr : Printing) :
    ShellState.Agree (s.step (.print pr)) (s.abs.step (.print pr)) := by
  obtain ⟨point, input, argv, history⟩ := s
  cases point with
  | banner => exact ((h.did _).goto .prompt trivial).agree
  | prompt =>
    have hstart : (0 : Nat) < maxLine := by decide
    exact ((h.did _).goto (.reading 0) hstart).agree
  | say m =>
    rw [ShellState.step]
    dsimp only [bind]
    rw [Message.print_eq pr h.point, Option.bind_some]
    exact ((h.did _).goto .prompt trivial).agree
  | bye m =>
    rw [ShellState.step]
    dsimp only [bind]
    rw [Message.print_eq pr h.point, Option.bind_some]
    exact ((h.did _).goto .exited trivial).agree
  | _ => exact ShellState.agree_none

theorem ShellState.Ok.read (h : s.Ok) (c : UInt8) :
    ShellState.Agree (s.step (.read c)) (s.abs.step (.read c)) := by
  obtain ⟨point, input, argv, history⟩ := s
  cases point with
  | reading pos =>
    have hpos : pos < maxLine := h.point
    exact (ShellState.readByte_goes (h.did [.got c]).input (h.did [.got c]).argv hpos c).agree
  | _ => exact ShellState.agree_none

theorem ShellState.Ok.readEnd (h : s.Ok) (ret : Int) :
    ShellState.Agree (s.step (.readEnd ret)) (s.abs.step (.readEnd ret)) := by
  obtain ⟨point, input, argv, history⟩ := s
  cases point with
  | reading pos =>
    rw [ShellState.abs, ShellPoint.abs, RefState.step, ShellState.step]
    dsimp only
    by_cases hret : ret ≤ 0
    · rw [if_pos hret, if_pos hret]
      exact ((h.did _).goto (.bye (.puts emptyText)) trivial).agree
    · rw [if_neg hret, if_neg hret]
      exact ShellState.agree_none
  | _ => exact ShellState.agree_none

theorem ShellState.Ok.chdir (h : s.Ok) (ret : Int) :
    ShellState.Agree (s.step (.chdir ret)) (s.abs.step (.chdir ret)) := by
  obtain ⟨point, input, argv, history⟩ := s
  cases point with
  | chdir =>
    obtain ⟨name, dir, rest, hin⟩ := h.point
    obtain ⟨path, hpath, hbytes⟩ := hin.argString (k := 1) rfl
    have hfits : (Message.printf cdFailed path).Fits :=
      fits_template cdFailed_template (by decide +kernel) (by decide +kernel)
        (hbytes ▸ hin.short (k := 1) rfl)
    have htext : (Message.printf cdFailed path).texts = [cdFailedText dir] := by
      rw [cdFailed_template.texts, hbytes, cdFailedText, List.append_assoc]
    rw [ShellState.abs, ShellPoint.abs, RefState.step, ShellState.step]
    dsimp only [bind] at hpath hin ⊢
    rw [hin.argWords, hpath, Option.bind_some, hbytes]
    by_cases hret : ret ≠ 0
    · rw [if_pos hret, if_pos hret]
      have hgoes := (h.did [.chdir dir ret]).goto (.say (.printf cdFailed path)) hfits
      rw [ShellPoint.abs, htext] at hgoes
      exact hgoes.agree
    · rw [if_neg hret, if_neg hret]
      exact ((h.did _).goto .prompt trivial).agree
  | _ => exact ShellState.agree_none

theorem ShellState.Ok.getcwd (h : s.Ok) (a : CwdAnswer) :
    ShellState.Agree (s.step (.getcwd a)) (s.abs.step (.getcwd a)) := by
  obtain ⟨point, input, argv, history⟩ := s
  cases point with
  | getcwd =>
    rw [ShellState.abs, ShellPoint.abs, RefState.step, ShellState.step]
    dsimp only [bind]
    by_cases hret : 0 < a.ret
    · have hread : readString a.cwd 0 = some ⟨_, zero_not_mem_stringAt a.cwd.1 0⟩ :=
        if_pos (a.terminated hret)
      rw [if_pos hret, if_pos hret, hread, Option.bind_some]
      exact ((h.did _).goto (.say (.puts _)) trivial).agree
    · rw [if_neg hret, if_neg hret]
      exact ((h.did _).goto (.say (.puts pwdError)) trivial).agree
  | _ => exact ShellState.agree_none

theorem ShellState.Ok.fork (h : s.Ok) (ret : Int) :
    ShellState.Agree (s.step (.fork ret)) (s.abs.step (.fork ret)) := by
  obtain ⟨point, input, argv, history⟩ := s
  cases point with
  | fork =>
    rw [ShellState.abs, ShellPoint.abs, RefState.step, ShellState.step]
    dsimp only
    by_cases hparent : 0 < ret
    · rw [if_pos hparent, if_pos hparent]
      exact ((h.did _).goto (.waiting ret ⟨.lookup, input, argv⟩)
        fun _ => h.point).agree
    rw [if_neg hparent, if_neg hparent]
    by_cases hfailed : ret < 0
    · rw [if_pos hfailed, if_pos hfailed]
      exact ((h.did _).goto (.say (.puts forkFailed)) trivial).agree
    · rw [if_neg hfailed, if_neg hfailed]
      exact ShellState.agree_none
  | _ => exact ShellState.agree_none

theorem ShellState.Ok.child (h : s.Ok) (m : ChildMove) :
    ShellState.Agree (s.step (.child m)) (s.abs.step (.child m)) := by
  obtain ⟨point, input, argv, history⟩ := s
  cases point with
  | waiting pid child =>
    rw [ShellState.abs, ShellPoint.abs, RefState.step, ShellState.step]
    dsimp only [bind]
    rw [← Child.step_abs h.point m]
    cases hstep : child.step m with
    | none => exact ShellState.agree_none
    | some r =>
      refine ⟨fun s hs => ?_, rfl⟩
      cases hs
      exact ⟨h.input, h.argv, Child.step_ok h.point hstep⟩
  | _ => exact ShellState.agree_none

theorem ShellState.Ok.wait (h : s.Ok) : ShellState.Agree (s.step .wait) (s.abs.step .wait) := by
  obtain ⟨point, input, argv, history⟩ := s
  cases point with
  | waiting pid child =>
    obtain ⟨childPoint, childInput, childArgv⟩ := child
    cases childPoint with
    | dead => exact ((h.did _).goto .prompt trivial).agree
    | _ => exact ShellState.agree_none
  | _ => exact ShellState.agree_none

theorem ShellState.Ok.step (h : s.Ok) (m : ShellMove) :
    ShellState.Agree (s.step m) (s.abs.step m) := by
  cases m with
  | print pr => exact h.print pr
  | read c => exact h.read c
  | readEnd ret => exact h.readEnd ret
  | chdir ret => exact h.chdir ret
  | getcwd a => exact h.getcwd a
  | fork ret => exact h.fork ret
  | child m => exact h.child m
  | wait => exact h.wait

end

/-- The shell is simulated by its reference, move by move. -/
def shellSimulation : Simulation ShellState.step RefState.step where
  inv := ShellState.Ok
  abs := ShellState.abs
  keeps := fun h hstep => (h.step _).ok _ hstep
  simulates := fun m h => (h.step m).eq

theorem shellStart_ok (input : {b : List UInt8 // b.length = maxInput})
    (argv : {v : List (Option Nat) // v.length = maxArgs}) : (shellStart input argv).Ok :=
  ⟨input.2, argv.2, trivial⟩

/-- Every list of moves takes the shell, whatever its arrays hold at the start, where it takes the
reference, with the same history; and a list that is no run of the one is none of the other. -/
theorem shell_refines_reference (input : {b : List UInt8 // b.length = maxInput})
    (argv : {v : List (Option Nat) // v.length = maxArgs}) (moves : List ShellMove) :
    (run ShellState.step (shellStart input argv) moves).map ShellState.abs =
      run RefState.step refStart moves :=
  shellSimulation.run_map (shellStart_ok input argv) moves

/-! ### The program `/bin/ls` -/

def freshPrinting : Printing := ⟨acceptingWriter, freshBuf, ⟨1, by decide⟩⟩

def binLs : List UInt8 := ascii ['/', 'b', 'i', 'n', '/', 'l', 's']

/-- The line `ls`, with the program in `/bin`, and then the end of the input. -/
def lsMoves : List ShellMove :=
  [.print freshPrinting, .print freshPrinting, .read (ch 'l'), .read (ch 's'), .read (ch '\n'),
    .fork 7, .child (.exec (fun path => decide (path = binLs)) freshPath), .child (.exit 0), .wait,
    .print freshPrinting, .readEnd 0, .print freshPrinting]

/-- A run of the reference is one of the shell. -/
theorem run_of_reference {input : {b : List UInt8 // b.length = maxInput}}
    {argv : {v : List (Option Nat) // v.length = maxArgs}} {moves : List ShellMove} {r : RefState}
    (hrun : run RefState.step refStart moves = some r) :
    ∃ s, run ShellState.step (shellStart input argv) moves = some s ∧ s.abs = r :=
  Option.map_eq_some_iff.mp
    ((shellSimulation.run_map (shellStart_ok input argv) moves).trans hrun)

end Toylibc
