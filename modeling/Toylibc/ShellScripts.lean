import Toylibc.Quoting
import Toylibc.ShellSession

/-!
# What the shell reads and runs

The bytes that the shell has read are the lines of the session, one behind the other, and the line
that is not complete (`shell_reads`); they are the lines that `main` was shown to take from a
stream (`shell_agrees_with_main`). Nothing is executed but the words of these lines
(`shell_execve`), and a script of quoted commands is executed byte for byte (`shell_script`).
-/

namespace Toylibc

open Buffer Lines Transition

/-! ## The bytes that were read -/

/-- The byte that the shell reads with an act. -/
def gotByte : Process × Act → Option UInt8
  | (.shell, .got c) => some c
  | _ => none

def shellBytes (h : History) : List UInt8 := h.filterMap gotByte

theorem shellBytes_append (h h' : History) : shellBytes (h ++ h') = shellBytes h ++ shellBytes h' :=
  List.filterMap_append

theorem shellBytes_byChild (acts : List Act) : shellBytes (byChild acts) = [] := by
  rw [shellBytes, byChild, List.filterMap_map]
  exact List.filterMap_eq_nil_iff.mpr fun _ _ => rfl

theorem shellBytes_got (l : List UInt8) : shellBytes (byShell (l.map .got)) = l := by
  induction l with
  | nil => rfl
  | cons c l ih => exact congrArg (List.cons c) ih

theorem Writes.shellBytes {texts : List (List UInt8)} {acts : List Act} (h : Writes texts acts) :
    shellBytes (byShell acts) = [] := by
  obtain ⟨w, rfl⟩ := h
  rw [Toylibc.shellBytes, byShell, List.map_map, List.filterMap_map]
  exact List.filterMap_eq_nil_iff.mpr fun _ _ => rfl

theorem Writes.shellBytes_cons {texts : List (List UInt8)} {acts : List Act}
    (h : Writes texts acts) {a : Act} (ha : gotByte (.shell, a) = none) :
    Toylibc.shellBytes (byShell (a :: acts)) = [] := by
  have hacts := h.shellBytes
  unfold Toylibc.shellBytes byShell at hacts ⊢
  rw [List.map_cons, List.filterMap_cons_none ha, hacts]

theorem Asked.bytes {line : List UInt8} {asked : List Act} (h : Asked line asked) :
    ∃ raw, LineRead line raw ∧ shellBytes (byShell asked) = raw := by
  obtain ⟨hprompt, hline⟩ := h
  refine ⟨_, hline, ?_⟩
  rw [byShell_append, shellBytes_append, hprompt.shellBytes, shellBytes_got, List.nil_append]

/-- The answers read nothing from the input of the shell. -/
theorem Answer.bytes {words : List (List UInt8)} {h : History} (hanswer : Answer words h) :
    shellBytes h = [] := by
  cases hanswer with
  | blank => rfl
  | cdMissing hmessage => exact hmessage.shellBytes
  | cdDone => rfl
  | cdFailed _ hmessage => exact hmessage.shellBytes_cons rfl
  | pwd _ hmessage => exact hmessage.shellBytes_cons rfl
  | help hmessage => exact hmessage.shellBytes
  | forkFailed _ _ hmessage => exact hmessage.shellBytes_cons rfl
  | ran =>
    rw [shellBytes_append, shellBytes_append, shellBytes_byChild]
    rfl

/-- The bytes of a part of a session: its lines, and the line that is not complete. -/
def Reads (lines : List (List UInt8)) (got : List UInt8) (h : History) : Prop :=
  ∃ raws, List.Forall₂ LineRead lines raws ∧ shellBytes h = raws.flatten ++ got

theorem Reads.append {lines lines' : List (List UInt8)} {got : List UInt8} {h h' : History}
    (hreads : Reads lines [] h) (hreads' : Reads lines' got h') :
    Reads (lines ++ lines') got (h ++ h') := by
  obtain ⟨raws, hraws, hbytes⟩ := hreads
  obtain ⟨raws', hraws', hbytes'⟩ := hreads'
  refine ⟨raws ++ raws', List.rel_append hraws hraws', ?_⟩
  rw [shellBytes_append, hbytes, hbytes', List.append_nil, List.flatten_append, List.append_assoc]

theorem reads_nothing {h : History} (hnone : shellBytes h = []) : Reads [] [] h :=
  ⟨[], .nil, hnone⟩

/-- What was read of a line that is not complete. -/
theorem reads_got {prompt : List Act} (hprompt : Writes [promptText] prompt) (got : List UInt8) :
    Reads [] got (byShell (prompt ++ got.map .got)) := by
  refine ⟨[], .nil, ?_⟩
  rw [byShell_append, shellBytes_append, hprompt.shellBytes, shellBytes_got]
  rfl

theorem Asked.reads {line : List UInt8} {asked : List Act} (h : Asked line asked) :
    Reads [line] [] (byShell asked) := by
  obtain ⟨raw, hraw, hbytes⟩ := h.bytes
  exact ⟨[raw], .cons hraw .nil, by rw [hbytes, List.flatten_singleton, List.append_nil]⟩

/-- A part of a session that reads nothing more. -/
theorem Reads.concat {lines : List (List UInt8)} {got : List UInt8} {h h' : History}
    (hreads : Reads lines got h) (hnone : shellBytes h' = []) : Reads lines got (h ++ h') := by
  obtain ⟨raws, hraws, hbytes⟩ := hreads
  exact ⟨raws, hraws, by rw [shellBytes_append, hnone, List.append_nil, hbytes]⟩

theorem Rounds.reads {lines : List (List UInt8)} {h : History} (hrounds : Rounds lines h) :
    Reads lines [] h := by
  induction hrounds with
  | nil => exact reads_nothing rfl
  | concat _ hround ih =>
    obtain ⟨hasked, hanswer⟩ := hround
    exact ih.append (hasked.reads.concat hanswer.bytes)

/-- A line that is not complete. -/
def Unfinished (got : List UInt8) : Prop := ch '\n' ∉ got ∧ got.length < maxLine

theorem unfinished_nil : Unfinished [] := ⟨List.not_mem_nil, by decide⟩

theorem Ending.reads {lines : List (List UInt8)} {got : List UInt8} {h : History}
    (hend : Ending lines got h) : Reads lines got h ∧ Unfinished got := by
  have hlast : ∀ {texts : List (List UInt8)} {message : List Act}, Writes texts message →
      shellBytes (byShell (message ++ [.exit 0])) = [] := by
    intro texts message hmessage
    rw [byShell_append, shellBytes_append, hmessage.shellBytes]
    rfl
  cases hend with
  | @eof prompt got ret message hprompt hmem hlen hret hmessage =>
    refine ⟨?_, hmem, hlen⟩
    rw [List.append_assoc, byShell_append]
    refine (reads_got hprompt got).concat ?_
    have hmore := hlast hmessage
    rw [List.cons_append, Toylibc.shellBytes, byShell, List.map_cons,
      List.filterMap_cons_none rfl]
    exact hmore
  | exit hasked _ hmessage =>
    refine ⟨?_, unfinished_nil⟩
    rw [List.append_assoc, byShell_append]
    exact hasked.reads.concat (hlast hmessage)

theorem Open.reads {point : RefPoint} {lines : List (List UInt8)} {got : List UInt8} {h : History}
    (hopen : Open point lines got h) : Reads lines got h ∧ Unfinished got := by
  cases hopen with
  | reading hprompt hmem hlen => exact ⟨reads_got hprompt _, hmem, hlen⟩
  | chdir hasked => exact ⟨hasked.reads, unfinished_nil⟩
  | getcwd hasked => exact ⟨hasked.reads, unfinished_nil⟩
  | fork hasked => exact ⟨hasked.reads, unfinished_nil⟩
  | waiting hasked =>
    refine ⟨hasked.reads.concat ?_, unfinished_nil⟩
    rw [shellBytes_append, shellBytes_byChild]
    rfl
  | say hasked hanswer =>
    refine ⟨hasked.reads.concat ?_, unfinished_nil⟩
    have hnone := (hanswer _ (writes_writeCalls acceptingWriter _)).bytes
    rw [shellBytes_append] at hnone
    exact (List.append_eq_nil_iff.mp hnone).1
  | bye hend =>
    have hmessage := writes_writeCalls acceptingWriter
    obtain ⟨⟨raws, hraws, hbytes⟩, hrest⟩ := (hend _ (hmessage _)).reads
    rw [shellBytes_append, byShell_append, shellBytes_append, (hmessage _).shellBytes] at hbytes
    exact ⟨⟨raws, hraws, (List.append_nil _).symm.trans hbytes⟩, hrest⟩

theorem Session.reads {point : RefPoint} {lines : List (List UInt8)} {got : List UInt8}
    {h : History} (hsession : Session point lines got h) : Reads lines got h ∧ Unfinished got := by
  cases hsession with
  | start => exact ⟨reads_nothing rfl, unfinished_nil⟩
  | prompt hgreeting hrounds =>
    exact ⟨(reads_nothing hgreeting.shellBytes).append hrounds.reads, unfinished_nil⟩
  | inside hgreeting hrounds hopen =>
    exact hopen.reads.imp_left ((reads_nothing hgreeting.shellBytes).append hrounds.reads).append
  | exited hgreeting hrounds hend =>
    exact hend.reads.imp_left ((reads_nothing hgreeting.shellBytes).append hrounds.reads).append

/-- The lines are the pieces that the bytes fall into. -/
theorem lineRead_pieces {lines raws : List (List UInt8)} (h : List.Forall₂ LineRead lines raws)
    (rest : List UInt8) :
    pieceLines (raws.flatten ++ rest) = nonEmpty lines ++ pieceLines rest := by
  induction h with
  | nil => rfl
  | @cons line raw lines raws hline hlines ih =>
    have hcons : nonEmpty (line :: lines) =
        (if line = [] then [] else [line]) ++ nonEmpty lines := by
      by_cases hempty : line = []
      · rw [if_pos hempty, hempty]
        exact nonEmpty_cons_nil lines
      · rw [if_neg hempty]
        exact nonEmpty_cons hempty lines
    have hround : pieceLines (raw ++ (raws.flatten ++ rest)) =
        (if line = [] then [] else [line]) ++ pieceLines (raws.flatten ++ rest) := by
      cases hline with
      | ended hmem hlen => exact (pieceLines_round hmem (.inl ⟨List.append_assoc _ _ _, hlen⟩)).2
      | full hmem hlen => exact (pieceLines_round hmem (.inr ⟨rfl, hlen⟩)).2
    rw [List.flatten_cons, List.append_assoc, hround, ih, hcons, List.append_assoc]

theorem lineRead_mem {lines raws : List (List UInt8)} (h : List.Forall₂ LineRead lines raws)
    {line : List UInt8} (hline : line ∈ lines) {c : UInt8} (hc : c ∈ line) : c ∈ raws.flatten := by
  induction h with
  | nil => cases hline
  | cons hread hrest ih =>
    rw [List.flatten_cons, List.mem_append]
    rcases List.mem_cons.mp hline with rfl | hline
    · left
      cases hread with
      | ended => exact List.mem_append_left _ hc
      | full => exact hc
    · exact .inr (ih hline)

/-- In every run, the bytes that the shell has read are its lines and the start of the next one: no
byte is lost, read twice or moved. The lines that are not empty are the pieces of these bytes. -/
theorem shell_reads (input : {b : List UInt8 // b.length = maxInput})
    (argv : {v : List (Option Nat) // v.length = maxArgs}) (moves : List ShellMove)
    (s : ShellState) (hrun : run ShellState.step (shellStart input argv) moves = some s) :
    ∃ lines got, Session s.abs.point lines got s.history ∧ Reads lines got s.history ∧
      Unfinished got ∧ nonEmpty lines = pieceLines (shellBytes s.history) := by
  obtain ⟨lines, got, hsession⟩ : ∃ lines got, Session s.abs.point lines got s.history :=
    shellSimulation.transfer (fun s => ∃ lines got, Session s.point lines got s.history)
      (shellStart_ok input argv) (fun _ ht => reference_session ht) hrun
  obtain ⟨⟨raws, hraws, hbytes⟩, hrest⟩ := hsession.reads
  refine ⟨lines, got, hsession, ⟨raws, hraws, hbytes⟩, hrest, ?_⟩
  rw [hbytes, lineRead_pieces hraws, pieceLines_short hrest.1 hrest.2, List.append_nil]

theorem lsMoves_reads :
    ∃ s, run ShellState.step (shellStart freshInput freshArgv) lsMoves = some s ∧
      ∃ lines got, Session s.abs.point lines got s.history ∧ Reads lines got s.history ∧
        Unfinished got ∧ nonEmpty lines = pieceLines (shellBytes s.history) := by
  obtain ⟨r, href, -⟩ := lsMoves_reference
  obtain ⟨s, hrun, -⟩ := run_of_reference href
  exact ⟨s, hrun, shell_reads freshInput freshArgv lsMoves s hrun⟩

/-! ## The lines of `main` -/

theorem Exits.words {line : List UInt8} (hnul : (0 : UInt8) ∉ line) (h : Exits line) :
    ∃ args, keptWords line = ascii ['e', 'x', 'i', 't'] :: args := by
  obtain ⟨buf, argv, parsed, hholds, hslots, hparse, hexit⟩ := h
  have hstring : StringIn buf 0 line :=
    ⟨hholds.string, (Nat.zero_add line.length).symm ▸ hholds.nul⟩
  obtain ⟨tail, htail⟩ := hstring.prefix_drop
  rw [List.drop_zero, List.append_assoc, List.singleton_append] at htail
  obtain ⟨parsed', hparse', hleaves⟩ := parseLine_leaves hnul tail hslots
  rw [htail, hparse, Option.some.injEq] at hparse'
  subst hparse'
  have hkeep : line.takeWhile (· ≠ 0) = line :=
    List.takeWhile_eq_self_iff.mpr fun c hc => decide_eq_true fun hzero => hnul (hzero ▸ hc)
  obtain ⟨name, args, hwords⟩ := keptWords_cons line
  have htexts : (texts line).take (maxArgs - 1) = name :: args := by
    rw [← hwords, keptWords, hkeep]
  rw [htexts] at hleaves
  obtain ⟨a, harg, hname⟩ := hleaves.string 0 name rfl
  rw [runCommand_eq harg hname] at hexit
  refine ⟨args, ?_⟩
  split_ifs at hexit with h1 h2 h3 h4
  rw [hwords, h4]

theorem Answer.not_exit {words args : List (List UInt8)} {h : History} (hanswer : Answer words h)
    (hwords : words = ascii ['e', 'x', 'i', 't'] :: args) : False := by
  have hbuiltin : ¬External (ascii ['e', 'x', 'i', 't']) := by decide
  cases hanswer with
  | forkFailed hname => exact hbuiltin ((List.cons.inj hwords).1 ▸ hname)
  | ran hname => exact hbuiltin ((List.cons.inj hwords).1 ▸ hname)
  | _ => exact absurd (List.cons.inj hwords).1 (by decide)

theorem Rounds.answered {lines : List (List UInt8)} {h : History} (hrounds : Rounds lines h)
    {line : List UInt8} (hline : line ∈ lines) : ∃ h', Answer (keptWords line) h' := by
  induction hrounds with
  | nil => cases hline
  | concat _ hround ih =>
    rcases List.mem_append.mp hline with hmem | hmem
    · exact ih hmem
    · rw [List.mem_singleton.mp hmem]
      obtain ⟨-, hanswer⟩ := hround
      exact ⟨_, hanswer⟩

/-- While the shell reads, all the lines in front are answered. -/
theorem Session.reading {point : RefPoint} {lines : List (List UInt8)} {got : List UInt8}
    {h : History} (hsession : Session point lines got h) {got' : List UInt8}
    (hpoint : point = .reading got') {line : List UInt8} (hline : line ∈ lines) :
    ∃ h', Answer (keptWords line) h' := by
  cases hsession with
  | inside _ hrounds hopen =>
    cases hopen with
    | reading =>
      rw [List.append_nil] at hline
      exact hrounds.answered hline
    | _ => cases hpoint
  | _ => cases hpoint

/-- While the shell reads, what it has done so far is what `main` does on a stream of the bytes
that were read. -/
theorem shell_agrees_with_main (input : {b : List UInt8 // b.length = maxInput})
    (argv : {v : List (Option Nat) // v.length = maxArgs}) (moves : List ShellMove)
    (s : ShellState) (hrun : run ShellState.step (shellStart input argv) moves = some s)
    {got : List UInt8} (hpoint : s.abs.point = .reading got)
    (hnul : (0 : UInt8) ∉ shellBytes s.history) :
    ∃ lines got, Session s.abs.point lines got s.history ∧
      shellMain input argv (shellBytes s.history) = some ⟨nonEmpty lines, false⟩ := by
  obtain ⟨lines, got, hsession⟩ : ∃ lines got, Session s.abs.point lines got s.history :=
    shellSimulation.transfer (fun s => ∃ lines got, Session s.point lines got s.history)
      (shellStart_ok input argv) (fun _ ht => reference_session ht) hrun
  obtain ⟨⟨raws, hraws, hbytes⟩, hrest⟩ := hsession.reads
  have hpieces : pieceLines (shellBytes s.history) = nonEmpty lines := by
    rw [hbytes, lineRead_pieces hraws, pieceLines_short hrest.1 hrest.2, List.append_nil]
  obtain ⟨⟨lines', exited⟩, hmain, hlines, hexited⟩ := mainLoop_lines _ _ input argv []
    (Nat.lt_succ_self (shellBytes s.history).length) hnul input.2 argv.2
  refine ⟨lines, got, hsession, ?_⟩
  cases exited with
  | false =>
    have heq := hlines rfl
    rw [List.nil_append, hpieces] at heq
    dsimp only at heq
    rw [← heq]
    exact hmain
  | true =>
    obtain ⟨line, hmem, hexits⟩ := hexited rfl
    rw [hpieces] at hmem
    have hline : line ∈ lines := List.mem_of_mem_filter hmem
    have hlineNul : (0 : UInt8) ∉ line := by
      intro hzero
      refine hnul ?_
      rw [hbytes]
      exact List.mem_append_left _ (lineRead_mem hraws hline hzero)
    obtain ⟨args, hwords⟩ := hexits.words hlineNul
    obtain ⟨h', hanswer⟩ := hsession.reading hpoint hline
    exact (hanswer.not_exit hwords).elim

/-- In front of the last line. -/
theorem lsMoves_main :
    ∃ s, run ShellState.step (shellStart freshInput freshArgv) (lsMoves.take 10) = some s ∧
      ∃ lines got, Session s.abs.point lines got s.history ∧
        shellMain freshInput freshArgv (shellBytes s.history) = some ⟨nonEmpty lines, false⟩ := by
  have href : ∃ r, run RefState.step refStart (lsMoves.take 10) = some r ∧
      r.point = .reading [] ∧ shellBytes r.history = ascii ['l', 's', '\n'] :=
    ⟨_, rfl, rfl, rfl⟩
  obtain ⟨r, href, hpoint, hbytes⟩ := href
  obtain ⟨s, hrun, habs⟩ := run_of_reference href
  have hnul : (0 : UInt8) ∉ shellBytes s.history := by
    rw [show s.history = r.history from congrArg RefState.history habs, hbytes]
    decide
  rw [← habs] at hpoint
  exact ⟨s, hrun, shell_agrees_with_main freshInput freshArgv _ s hrun hpoint hnul⟩

/-! ## What is executed -/

theorem lookup_tried {starts : List UInt8 → Bool} {paths tried : List (List UInt8)} {found : Bool}
    (h : lookup starts paths = some (tried, found)) : tried <+: paths := by
  induction paths generalizing tried with
  | nil =>
    cases h
    exact List.nil_prefix
  | cons path paths ih =>
    rw [lookup] at h
    split_ifs at h
    · cases h
      exact ⟨paths, rfl⟩
    · obtain ⟨⟨rest, _⟩, hrest, heq⟩ := Option.map_eq_some_iff.mp h
      cases heq
      exact (List.prefix_cons_inj path).mpr (ih hrest)

theorem lookupCommand_tried {starts : List UInt8 → Bool} {cmd : List UInt8}
    {tried : List (List UInt8)} {found : Bool}
    (h : lookupCommand starts cmd = some (tried, found)) : tried <+: lookupPaths cmd := by
  unfold lookupCommand at h
  split_ifs at h with hslash
  · cases h
    rw [lookupPaths, if_pos hslash]
  · exact lookup_tried h

/-- A call of `execve` that the words of a line lead to. -/
structure Executes (line path : List UInt8) (args env : List (List UInt8)) : Prop where
  args_eq : args = keptWords line
  env_eq : env = gEnvp
  path_mem : path ∈ lookupPaths (args.headD [])
  external : External (args.headD [])

theorem ChildActs.execve {words args env : List (List UInt8)} {child : RefChild} {acts : List Act}
    {path : List UInt8} (hacts : ChildActs words child acts) (hmem : .execve path args env ∈ acts) :
    args = words ∧ env = gEnvp ∧ path ∈ lookupPaths (words.headD []) := by
  have htried : ∀ {starts tried found},
      lookupCommand starts (words.headD []) = some (tried, found) →
        Act.execve path args env ∈ tried.map (.execve · words gEnvp) →
          args = words ∧ env = gEnvp ∧ path ∈ lookupPaths (words.headD []) := by
    intro starts tried found hlookup hmem
    obtain ⟨path', hpath, heq⟩ := List.mem_map.mp hmem
    cases heq
    exact ⟨rfl, rfl, (lookupCommand_tried hlookup).subset hpath⟩
  cases hacts with
  | lookup => cases hmem
  | missing hlookup => exact htried hlookup hmem
  | gone hlookup hmessage =>
    obtain ⟨w, rfl⟩ := hmessage
    rcases List.mem_append.mp hmem with hmem | hmem
    · exact htried hlookup hmem
    · simp at hmem
  | program hlookup hio =>
    rcases List.mem_append.mp hmem with hmem | hmem
    · exact htried hlookup hmem
    · cases hio _ hmem
  | exited hlookup hio =>
    rcases List.mem_append.mp hmem with hmem | hmem
    · exact htried hlookup hmem
    · rcases List.mem_append.mp hmem with hmem | hmem
      · cases hio _ hmem
      · simp at hmem

theorem mem_byShell {acts : List Act} {p : Process} {a : Act} (hmem : (p, a) ∈ byShell acts) :
    a ∈ acts := by
  obtain ⟨a', ha, heq⟩ := List.mem_map.mp hmem
  cases heq
  exact ha

theorem mem_byChild {acts : List Act} {p : Process} {a : Act} (hmem : (p, a) ∈ byChild acts) :
    p = .child ∧ a ∈ acts := by
  obtain ⟨a', ha, heq⟩ := List.mem_map.mp hmem
  cases heq
  exact ⟨rfl, ha⟩

section

variable {p : Process} {path : List UInt8} {args env : List (List UInt8)}

theorem Writes.no_execve {texts : List (List UInt8)} {acts : List Act} (h : Writes texts acts) :
    Act.execve path args env ∉ acts := by
  obtain ⟨w, rfl⟩ := h
  intro hmem
  obtain ⟨c, -, heq⟩ := List.mem_map.mp hmem
  cases heq

theorem Writes.execve_head {texts : List (List UInt8)} {acts : List Act}
    (h : Writes texts acts) {a : Act} (hmem : (p, Act.execve path args env) ∈ byShell (a :: acts)) :
    a = .execve path args env := by
  rcases List.mem_cons.mp (mem_byShell hmem) with heq | hmem
  · exact heq.symm
  · exact (h.no_execve hmem).elim

theorem Asked.no_execve {line : List UInt8} {asked : List Act} (h : Asked line asked) :
    (p, Act.execve path args env) ∉ byShell asked := by
  obtain ⟨hprompt, -⟩ := h
  intro hmem
  rcases List.mem_append.mp (mem_byShell hmem) with hmem | hmem
  · exact hprompt.no_execve hmem
  · obtain ⟨c, -, heq⟩ := List.mem_map.mp hmem
    cases heq

/-- The child of a line. -/
theorem child_executes {line : List UInt8} {words : List (List UInt8)}
    (hwords : keptWords line = words) (hname : External (words.headD [])) {pid : Int}
    {child : RefChild} {acts : List Act} (hacts : ChildActs words child acts)
    (hmem : (p, Act.execve path args env) ∈ byShell [.fork pid] ++ byChild acts) :
    p = .child ∧ Executes line path args env := by
  rcases List.mem_append.mp hmem with hmem | hmem
  · cases List.mem_singleton.mp (mem_byShell hmem)
  · obtain ⟨hp, hact⟩ := mem_byChild hmem
    obtain ⟨rfl, henv, hpath⟩ := hacts.execve hact
    exact ⟨hp, hwords.symm, henv, hpath, hname⟩

theorem Answer.executes {line : List UInt8} {words : List (List UInt8)} {h : History}
    (hanswer : Answer words h) (hwords : keptWords line = words)
    (hmem : (p, Act.execve path args env) ∈ h) : p = .child ∧ Executes line path args env := by
  cases hanswer with
  | blank => cases hmem
  | cdMissing hmessage => exact (hmessage.no_execve (mem_byShell hmem)).elim
  | cdDone => cases List.mem_singleton.mp (mem_byShell hmem)
  | cdFailed _ hmessage => cases hmessage.execve_head hmem
  | pwd _ hmessage => cases hmessage.execve_head hmem
  | help hmessage => exact (hmessage.no_execve (mem_byShell hmem)).elim
  | forkFailed _ _ hmessage => cases hmessage.execve_head hmem
  | ran hname hpid hchild =>
    rcases List.mem_append.mp hmem with hmem | hmem
    · exact child_executes hwords hname hchild hmem
    · cases List.mem_singleton.mp (mem_byShell hmem)

theorem Rounds.executes {lines : List (List UInt8)} {h : History} (hrounds : Rounds lines h)
    (hmem : (p, Act.execve path args env) ∈ h) :
    p = .child ∧ ∃ line ∈ lines, Executes line path args env := by
  induction hrounds with
  | nil => cases hmem
  | concat _ hround ih =>
    rcases List.mem_append.mp hmem with hmem | hmem
    · obtain ⟨hp, line, hline, hexec⟩ := ih hmem
      exact ⟨hp, line, List.mem_append_left _ hline, hexec⟩
    · obtain ⟨hasked, hanswer⟩ := hround
      rcases List.mem_append.mp hmem with hmem | hmem
      · exact (hasked.no_execve hmem).elim
      · obtain ⟨hp, hexec⟩ := hanswer.executes rfl hmem
        exact ⟨hp, _, List.mem_append_right _ List.mem_cons_self, hexec⟩

theorem Ending.no_execve {lines : List (List UInt8)} {got : List UInt8} {h : History}
    (hend : Ending lines got h) : (p, Act.execve path args env) ∉ h := by
  intro hmem
  cases hend with
  | eof hprompt _ _ _ hmessage =>
    simp only [byShell, List.map_append, List.mem_append] at hmem
    rcases hmem with ((hmem | hmem) | hmem) | hmem
    · exact hprompt.no_execve (mem_byShell hmem)
    · obtain ⟨c, -, heq⟩ := List.mem_map.mp (mem_byShell hmem)
      cases heq
    · cases hmessage.execve_head hmem
    · cases List.mem_singleton.mp (mem_byShell hmem)
  | exit hasked _ hmessage =>
    simp only [byShell, List.map_append, List.mem_append] at hmem
    rcases hmem with (hmem | hmem) | hmem
    · exact hasked.no_execve hmem
    · exact hmessage.no_execve (mem_byShell hmem)
    · cases List.mem_singleton.mp (mem_byShell hmem)

theorem Open.executes {point : RefPoint} {lines : List (List UInt8)} {got : List UInt8}
    {h : History} (hopen : Open point lines got h)
    (hmem : (p, Act.execve path args env) ∈ h) :
    p = .child ∧ ∃ line ∈ lines, Executes line path args env := by
  cases hopen with
  | reading hprompt =>
    rcases List.mem_append.mp (mem_byShell hmem) with hmem | hmem
    · exact (hprompt.no_execve hmem).elim
    · obtain ⟨c, -, heq⟩ := List.mem_map.mp hmem
      cases heq
  | chdir hasked => exact (hasked.no_execve hmem).elim
  | getcwd hasked => exact (hasked.no_execve hmem).elim
  | fork hasked => exact (hasked.no_execve hmem).elim
  | waiting hasked hwords hname hpid hchild =>
    rcases List.mem_append.mp hmem with hmem | hmem
    · exact (hasked.no_execve hmem).elim
    · obtain ⟨hp, hexec⟩ := child_executes hwords hname hchild hmem
      exact ⟨hp, _, List.mem_cons_self, hexec⟩
  | say hasked hanswer =>
    rcases List.mem_append.mp hmem with hmem | hmem
    · exact (hasked.no_execve hmem).elim
    · have hwhole := hanswer _ (writes_writeCalls acceptingWriter _)
      obtain ⟨hp, hexec⟩ := hwhole.executes rfl (List.mem_append_left _ hmem)
      exact ⟨hp, _, List.mem_cons_self, hexec⟩
  | bye hend =>
    have hwhole := hend _ (writes_writeCalls acceptingWriter _)
    exact (hwhole.no_execve (List.mem_append_left _ hmem)).elim

theorem Session.executes {point : RefPoint} {lines : List (List UInt8)} {got : List UInt8}
    {h : History} (hsession : Session point lines got h)
    (hmem : (p, Act.execve path args env) ∈ h) :
    p = .child ∧ ∃ line ∈ lines, Executes line path args env := by
  cases hsession with
  | start => cases hmem
  | prompt hgreeting hrounds =>
    rcases List.mem_append.mp hmem with hmem | hmem
    · exact (hgreeting.no_execve (mem_byShell hmem)).elim
    · exact hrounds.executes hmem
  | inside hgreeting hrounds hopen =>
    rcases List.mem_append.mp hmem with hmem | hmem
    · rcases List.mem_append.mp hmem with hmem | hmem
      · exact (hgreeting.no_execve (mem_byShell hmem)).elim
      · obtain ⟨hp, line, hline, hexec⟩ := hrounds.executes hmem
        exact ⟨hp, line, List.mem_append_left _ hline, hexec⟩
    · obtain ⟨hp, line, hline, hexec⟩ := hopen.executes hmem
      exact ⟨hp, line, List.mem_append_right _ hline, hexec⟩
  | exited hgreeting hrounds hend =>
    rcases List.mem_append.mp hmem with hmem | hmem
    · rcases List.mem_append.mp hmem with hmem | hmem
      · exact (hgreeting.no_execve (mem_byShell hmem)).elim
      · obtain ⟨hp, line, hline, hexec⟩ := hrounds.executes hmem
        exact ⟨hp, line, List.mem_append_left _ hline, hexec⟩
    · exact (hend.no_execve hmem).elim

end

/-- In every run, only children call `execve`: with the kept words of a line that the shell has
read (the first 63, up to a NUL), in their order, with the environment of the source, and with a
path of the lookup of a command that is not a built-in one. -/
theorem shell_execve (input : {b : List UInt8 // b.length = maxInput})
    (argv : {v : List (Option Nat) // v.length = maxArgs}) (moves : List ShellMove)
    (s : ShellState) (hrun : run ShellState.step (shellStart input argv) moves = some s)
    {p : Process} {path : List UInt8} {args env : List (List UInt8)}
    (hmem : (p, .execve path args env) ∈ s.history) :
    p = .child ∧ ∃ lines got line, Reads lines got s.history ∧ line ∈ lines ∧
      Executes line path args env := by
  obtain ⟨lines, got, hsession⟩ : ∃ lines got, Session s.abs.point lines got s.history :=
    shellSimulation.transfer (fun s => ∃ lines got, Session s.point lines got s.history)
      (shellStart_ok input argv) (fun _ ht => reference_session ht) hrun
  obtain ⟨hp, line, hline, hexec⟩ := hsession.executes hmem
  exact ⟨hp, lines, got, line, hsession.reads.1, hline, hexec⟩

theorem lsMoves_execve :
    ∃ s, run ShellState.step (shellStart freshInput freshArgv) lsMoves = some s ∧
      Process.child = .child ∧ ∃ lines got line, Reads lines got s.history ∧ line ∈ lines ∧
        Executes line binLs [ascii ['l', 's']] gEnvp := by
  have href : ∃ r, run RefState.step refStart lsMoves = some r ∧
      (Process.child, .execve binLs [ascii ['l', 's']] gEnvp) ∈ r.history :=
    ⟨_, rfl, by decide +kernel⟩
  obtain ⟨r, href, hmem⟩ := href
  obtain ⟨s, hrun, habs⟩ := run_of_reference href
  rw [← habs] at hmem
  exact ⟨s, hrun, shell_execve freshInput freshArgv lsMoves s hrun hmem⟩

/-! ## Scripts -/

/-- A command, with each word between quotes. -/
structure ScriptLine where
  trail : Nat
  first : List UInt8
  more : List (Nat × List UInt8)
  quotable : ∀ u ∈ first :: more.map (·.2), Quotable u ∧ ch '\n' ∉ u
  count : (first :: more.map (·.2)).length ≤ maxArgs - 1
  fits : (quoteLine trail first more).length < maxLine

def ScriptLine.text (c : ScriptLine) : List UInt8 := quoteLine c.trail c.first c.more

def ScriptLine.words (c : ScriptLine) : List (List UInt8) := c.first :: c.more.map (·.2)

def scriptText (script : List ScriptLine) : List UInt8 :=
  (script.map fun c => c.text ++ [ch '\n']).flatten

theorem ScriptLine.keptWords (c : ScriptLine) : keptWords c.text = c.words := by
  have hnul : (0 : UInt8) ∉ c.text :=
    zero_not_mem_quoteLine c.trail fun u hu => (c.quotable u hu).1.1
  have hkeep : c.text.takeWhile (· ≠ 0) = c.text :=
    List.takeWhile_eq_self_iff.mpr fun x hx => decide_eq_true fun hzero => hnul (hzero ▸ hx)
  have htexts : texts c.text = c.words :=
    textsFrom_quoteLine c.trail fun u hu => (c.quotable u hu).1.2
  rw [Toylibc.keptWords, hkeep, htexts]
  exact List.take_of_length_le c.count

theorem ScriptLine.unfinished (c : ScriptLine) : Unfinished c.text :=
  ⟨not_mem_quoteLine (by decide) (by decide) c.trail fun u hu => (c.quotable u hu).2, c.fits⟩

/-- The bytes determine the lines. -/
theorem lines_unique {lines raws texts : List (List UInt8)} {got : List UInt8}
    (h : List.Forall₂ LineRead lines raws) (hgot : Unfinished got)
    (htexts : ∀ t ∈ texts, Unfinished t)
    (heq : raws.flatten ++ got = (texts.map (· ++ [ch '\n'])).flatten) :
    lines = texts ∧ got = [] := by
  induction texts generalizing lines raws with
  | nil =>
    obtain ⟨hraws, hnil⟩ := List.append_eq_nil_iff.mp heq
    refine ⟨?_, hnil⟩
    cases h with
    | nil => rfl
    | cons hline _ =>
      rw [List.flatten_cons, List.append_eq_nil_iff] at hraws
      cases hline with
      | ended => exact absurd hraws.1 (List.append_ne_nil_of_right_ne_nil _ (List.cons_ne_nil _ _))
      | full hmem hlen =>
        rw [hraws.1] at hlen
        exact absurd hlen (by decide)
  | cons t texts ih =>
    obtain ⟨⟨htmem, htlen⟩, hrest⟩ := List.forall_mem_cons.mp htexts
    rw [List.map_cons, List.flatten_cons, List.append_assoc, List.singleton_append] at heq
    cases h with
    | nil =>
      rw [List.flatten_nil, List.nil_append] at heq
      refine absurd hgot.1 (not_not.mpr ?_)
      rw [heq]
      exact List.mem_append_right _ List.mem_cons_self
    | @cons line raw lines raws hline hlines =>
      rw [List.flatten_cons, List.append_assoc] at heq
      cases hline with
      | ended hmem hlen =>
        rw [List.append_assoc, List.singleton_append] at heq
        obtain ⟨rfl, htail⟩ := split_unique hmem htmem heq
        obtain ⟨rfl, hnil⟩ := ih hlines hrest htail
        exact ⟨rfl, hnil⟩
      | full hmem hlen =>
        -- the line break of the text would be a byte of the line
        refine absurd hmem (not_not.mpr ?_)
        have hbyte : (t ++ ch '\n' :: (texts.map (· ++ [ch '\n'])).flatten)[t.length]? =
            some (ch '\n') := getElem?_append_cons _ _ _
        rw [← heq, List.getElem?_append_left (by omega)] at hbyte
        exact List.mem_of_getElem? hbyte

/-- When the shell has read a script of quoted commands, the lines of the session are those of the
script in their order, each is split into exactly the words it was made from, and nothing is
executed but these. -/
theorem shell_script (input : {b : List UInt8 // b.length = maxInput})
    (argv : {v : List (Option Nat) // v.length = maxArgs}) (moves : List ShellMove)
    (s : ShellState) (hrun : run ShellState.step (shellStart input argv) moves = some s)
    (script : List ScriptLine) (hbytes : shellBytes s.history = scriptText script) :
    Session s.abs.point (script.map ScriptLine.text) [] s.history ∧
      (script.map ScriptLine.text).map keptWords = script.map ScriptLine.words ∧
      ∀ p path args env, (p, Act.execve path args env) ∈ s.history →
        ∃ c ∈ script, args = c.words ∧ path ∈ lookupPaths c.first := by
  obtain ⟨lines, got, hsession⟩ : ∃ lines got, Session s.abs.point lines got s.history :=
    shellSimulation.transfer (fun s => ∃ lines got, Session s.point lines got s.history)
      (shellStart_ok input argv) (fun _ ht => reference_session ht) hrun
  obtain ⟨⟨raws, hraws, hread⟩, hrest⟩ := hsession.reads
  have htexts : ∀ t ∈ script.map ScriptLine.text, Unfinished t :=
    List.forall_mem_map.mpr fun c _ => c.unfinished
  rw [hbytes, scriptText] at hread
  obtain ⟨rfl, rfl⟩ := lines_unique hraws hrest htexts (by rw [← hread, List.map_map]; rfl)
  refine ⟨hsession, ?_, fun p path args env hmem => ?_⟩
  · rw [List.map_map]
    exact List.map_congr_left fun c _ => c.keptWords
  · obtain ⟨-, line, hline, hexec⟩ := hsession.executes hmem
    obtain ⟨c, hc, rfl⟩ := List.mem_map.mp hline
    have hargs : args = c.words := hexec.args_eq.trans c.keptWords
    have hpath := hexec.path_mem
    rw [hargs] at hpath
    exact ⟨c, hc, hargs, hpath⟩

/-- The words `ls` and `a b`. -/
def listScript : List ScriptLine :=
  [⟨0, ascii ['l', 's'], [(0, ascii ['a', ' ', 'b'])], by
    intro u hu
    rcases List.mem_cons.mp hu with rfl | hu
    · exact ⟨⟨by decide, by decide⟩, by decide⟩
    · rw [List.mem_singleton.mp hu]
      exact ⟨⟨by decide, by decide⟩, by decide⟩, by decide, by decide⟩]

def listMoves : List ShellMove :=
  [.print freshPrinting, .print freshPrinting] ++ (scriptText listScript).map .read ++
    [.fork 7, .child (.exec (fun path => decide (path = binLs)) freshPath)]

theorem listScript_executed :
    ∃ s, run ShellState.step (shellStart freshInput freshArgv) listMoves = some s ∧
      Session s.abs.point (listScript.map ScriptLine.text) [] s.history ∧
      (listScript.map ScriptLine.text).map keptWords = listScript.map ScriptLine.words ∧
      ∀ p path args env, (p, Act.execve path args env) ∈ s.history →
        ∃ c ∈ listScript, args = c.words ∧ path ∈ lookupPaths c.first := by
  have href : ∃ r, run RefState.step refStart listMoves = some r ∧
      shellBytes r.history = scriptText listScript :=
    ⟨_, rfl, rfl⟩
  obtain ⟨r, href, hbytes⟩ := href
  obtain ⟨s, hrun, habs⟩ := run_of_reference href
  rw [← show s.history = r.history from congrArg RefState.history habs] at hbytes
  exact ⟨s, hrun, shell_script freshInput freshArgv listMoves s hrun listScript hbytes⟩

end Toylibc
