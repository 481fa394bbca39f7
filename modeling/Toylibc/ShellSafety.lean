import Toylibc.ShellRefines

/-!
# Where the shell runs out of an array

A move without a result, where the shell waits for a move of that kind, is an access outside of an
array. In all runs there is one place for it: the lookup of a child, when a path that does not fit
into `fullpath` comes before every program (`shell_stuck_iff`). Otherwise the lookup stops at the
first path that is a program (`tryExec_finds`).
-/

namespace Toylibc

open Transition

/-! ## The lookup -/

/-- The lookup comes to a path that `fullpath` has no room for. -/
def Overflows (starts : List UInt8 → Bool) (cmd : List UInt8) : Prop :=
  ch '/' ∉ cmd ∧ ∃ before path after, lookupPaths cmd = before ++ path :: after ∧
    (∀ p ∈ before, starts p = false) ∧ pathSize ≤ path.length

/-- What the lookup tries: up to the first program, or everything. -/
inductive Finds (starts : List UInt8 → Bool) (cmd : List UInt8) : List (List UInt8) → Bool → Prop
  | program {before path after} (hpaths : lookupPaths cmd = before ++ path :: after)
      (hbefore : ∀ p ∈ before, starts p = false) (hpath : starts path = true) :
      Finds starts cmd (before ++ [path]) true
  | missing (hnone : ∀ p ∈ lookupPaths cmd, starts p = false) :
      Finds starts cmd (lookupPaths cmd) false

theorem lookup_eq_none {starts : List UInt8 → Bool} {paths : List (List UInt8)} :
    lookup starts paths = none ↔ ∃ before path after, paths = before ++ path :: after ∧
      (∀ p ∈ before, starts p = false) ∧ pathSize ≤ path.length := by
  induction paths with
  | nil =>
    refine iff_of_false (Option.some_ne_none _) ?_
    rintro ⟨before, path, after, heq, -⟩
    exact List.cons_ne_nil _ _ (List.append_eq_nil_iff.mp heq.symm).2
  | cons first paths ih =>
    rw [lookup]
    by_cases hlong : pathSize ≤ first.length
    · rw [if_pos hlong]
      exact iff_of_true rfl ⟨[], first, paths, rfl, List.forall_mem_nil _, hlong⟩
    rw [if_neg hlong]
    by_cases hstart : starts first = true
    · rw [if_pos hstart]
      refine iff_of_false (Option.some_ne_none _) ?_
      rintro ⟨before, path, after, heq, hbefore, hfull⟩
      cases before with
      | nil =>
        cases heq
        exact hlong hfull
      | cons p before =>
        cases heq
        rw [hbefore first List.mem_cons_self] at hstart
        cases hstart
    rw [if_neg hstart, Option.map_eq_none_iff, ih]
    constructor
    · rintro ⟨before, path, after, rfl, hbefore, hfull⟩
      refine ⟨first :: before, path, after, rfl, ?_, hfull⟩
      exact List.forall_mem_cons.mpr ⟨Bool.eq_false_of_not_eq_true hstart, hbefore⟩
    · rintro ⟨before, path, after, heq, hbefore, hfull⟩
      cases before with
      | nil =>
        cases heq
        exact (hlong hfull).elim
      | cons p before =>
        cases heq
        exact ⟨before, path, after, rfl, (List.forall_mem_cons.mp hbefore).2, hfull⟩

theorem lookup_eq_some {starts : List UInt8 → Bool} {paths tried : List (List UInt8)}
    {found : Bool} (h : lookup starts paths = some (tried, found)) :
    (found = true ∧ ∃ before path after, paths = before ++ path :: after ∧
        tried = before ++ [path] ∧ (∀ p ∈ before, starts p = false) ∧ starts path = true) ∨
      (found = false ∧ tried = paths ∧ ∀ p ∈ paths, starts p = false) := by
  induction paths generalizing tried with
  | nil =>
    cases h
    exact .inr ⟨rfl, rfl, List.forall_mem_nil _⟩
  | cons first paths ih =>
    rw [lookup] at h
    split_ifs at h with hlong hstart
    · cases h
      exact .inl ⟨rfl, [], first, paths, rfl, rfl, List.forall_mem_nil _, hstart⟩
    · obtain ⟨⟨rest, _⟩, hrest, heq⟩ := Option.map_eq_some_iff.mp h
      cases heq
      have hfirst := Bool.eq_false_of_not_eq_true hstart
      rcases ih hrest with ⟨hfound, before, path, after, rfl, rfl, hbefore, hpath⟩ |
        ⟨hfound, rfl, hnone⟩
      · exact .inl ⟨hfound, first :: before, path, after, rfl, rfl,
          List.forall_mem_cons.mpr ⟨hfirst, hbefore⟩, hpath⟩
      · exact .inr ⟨hfound, rfl, List.forall_mem_cons.mpr ⟨hfirst, hnone⟩⟩

theorem lookupCommand_eq_none {starts : List UInt8 → Bool} {cmd : List UInt8} :
    lookupCommand starts cmd = none ↔ Overflows starts cmd := by
  unfold lookupCommand Overflows
  by_cases hslash : ch '/' ∈ cmd
  · rw [if_pos hslash]
    exact iff_of_false (Option.some_ne_none _) fun h => h.1 hslash
  · rw [if_neg hslash, lookup_eq_none]
    exact (and_iff_right hslash).symm

theorem lookupCommand_finds {starts : List UInt8 → Bool} {cmd : List UInt8}
    {tried : List (List UInt8)} {found : Bool}
    (h : lookupCommand starts cmd = some (tried, found)) : Finds starts cmd tried found := by
  unfold lookupCommand at h
  split_ifs at h with hslash
  · have hpaths : lookupPaths cmd = [cmd] := if_pos hslash
    cases hstart : starts cmd with
    | false =>
      rw [hstart] at h
      cases h
      rw [← hpaths]
      refine .missing ?_
      rw [hpaths]
      exact List.forall_mem_singleton.mpr hstart
    | true =>
      rw [hstart] at h
      cases h
      have hfinds : Finds starts cmd ([] ++ [cmd]) true :=
        .program hpaths (List.forall_mem_nil _) hstart
      exact hfinds
  · rcases lookup_eq_some h with ⟨rfl, before, path, after, hpaths, rfl, hbefore, hpath⟩ |
      ⟨rfl, rfl, hnone⟩
    · exact .program hpaths hbefore hpath
    · exact .missing hnone

/-- On every line and with any programs, `try_exec` runs out of `fullpath` exactly when the lookup
of the command does, and otherwise tries the documented paths up to the first program. -/
theorem tryExec_finds (line : CString) (tail : List UInt8)
    (argv : {v : List (Option Nat) // v.length = maxArgs})
    (fullpath : {b : List UInt8 // b.length = pathSize}) (starts : List UInt8 → Bool) :
    ∃ parsed, parseLine (line.bytes ++ 0 :: tail) argv = some parsed ∧
      (tryExec starts fullpath parsed.buf parsed.argv = none ↔
        Overflows starts (commandWord line.bytes)) ∧
      ∀ run, tryExec starts fullpath parsed.buf parsed.argv = some run →
        ∃ tried, readPaths run.calls = some tried ∧
          Finds starts (commandWord line.bytes) tried run.started := by
  obtain ⟨parsed, hparse, hleaves⟩ := parseLine_leaves line.no_nul tail argv.2
  obtain ⟨ts, hts⟩ := commandWord_texts line.bytes
  have hfirst : ((texts line.bytes).take (maxArgs - 1))[0]? = some (commandWord line.bytes) := by
    rw [hts]
    rfl
  obtain ⟨a, harg, hcmd⟩ := hleaves.string 0 _ hfirst
  have hseen := tryExec_seen starts fullpath harg hcmd
  refine ⟨parsed, hparse, ?_, fun run hrun => ?_⟩
  · rw [← lookupCommand_eq_none, ← Option.map_eq_none_iff, hseen, Option.map_eq_none_iff]
  · rw [hrun, Option.map_some] at hseen
    obtain ⟨⟨tried, found⟩, hlookup, hr⟩ := Option.map_eq_some_iff.mp hseen.symm
    obtain ⟨paths, hpaths, heq⟩ := Option.map_eq_some_iff.mp hr.symm
    cases heq
    exact ⟨tried, hpaths, lookupCommand_finds hlookup⟩

/-! ## Whole runs -/

/-- The moves that a child can make, as far as their kind goes. -/
def RefChild.Expects : RefChild → ChildMove → Prop
  | .lookup _, .exec _ _ => True
  | .notFound _, .print _ => True
  | .program, .read _ => True
  | .program, .write _ => True
  | .program, .exit _ => True
  | _, _ => False

/-- The moves that the shell can make, as far as their kind goes, and the answers that a kernel
can give. -/
def RefPoint.Expects : RefPoint → ShellMove → Prop
  | .banner, .print _ => True
  | .prompt, .print _ => True
  | .reading _, .read _ => True
  | .reading _, .readEnd ret => ret ≤ 0
  | .chdir _, .chdir _ => True
  | .getcwd, .getcwd _ => True
  | .fork _, .fork ret => ret ≠ 0
  | .waiting _ child, .child m => child.Expects m
  | .waiting _ child, .wait => child = .dead
  | .say _, .print _ => True
  | .bye _, .print _ => True
  | _, _ => False

theorem RefChild.step_eq_none {child : RefChild} {m : ChildMove} (h : child.Expects m) :
    child.step m = none ↔ ∃ words starts fullpath, child = .lookup words ∧
      m = .exec starts fullpath ∧ Overflows starts (words.headD []) := by
  have hother : ∀ {o : Option (List Act × RefChild)}, (∃ r, o = some r) →
      (∀ words, child ≠ .lookup words) →
        (o = none ↔ ∃ words starts fullpath, child = .lookup words ∧
          m = .exec starts fullpath ∧ Overflows starts (words.headD [])) := by
    rintro o ⟨r, rfl⟩ hchild
    refine iff_of_false (Option.some_ne_none _) ?_
    rintro ⟨words, starts, fullpath, heq, -⟩
    exact hchild words heq
  cases child with
  | lookup words =>
    cases m with
    | exec starts fullpath =>
      rw [RefChild.step, Option.map_eq_none_iff, lookupCommand_eq_none]
      constructor
      · exact fun hover => ⟨words, starts, fullpath, rfl, rfl, hover⟩
      · rintro ⟨words', starts', fullpath', heq, hmove, hover⟩
        cases heq
        cases hmove
        exact hover
    | _ => exact h.elim
  | notFound name =>
    cases m with
    | print pr => exact hother ⟨_, rfl⟩ fun _ heq => RefChild.noConfusion heq
    | _ => exact h.elim
  | program =>
    cases m with
    | exec => exact h.elim
    | print => exact h.elim
    | _ => exact hother ⟨_, rfl⟩ fun _ heq => RefChild.noConfusion heq
  | dead => cases m <;> exact h.elim

theorem RefState.step_eq_none {s : RefState} {m : ShellMove} (h : s.point.Expects m) :
    s.step m = none ↔ ∃ pid words starts fullpath, s.point = .waiting pid (.lookup words) ∧
      m = .child (.exec starts fullpath) ∧ Overflows starts (words.headD []) := by
  obtain ⟨point, history⟩ := s
  have hother : ∀ {o : Option RefState}, (∃ s', o = some s') →
      (∀ pid words, point ≠ .waiting pid (.lookup words)) →
        (o = none ↔ ∃ pid words starts fullpath, point = .waiting pid (.lookup words) ∧
          m = .child (.exec starts fullpath) ∧ Overflows starts (words.headD [])) := by
    rintro o ⟨s', rfl⟩ hpoint
    refine iff_of_false (Option.some_ne_none _) ?_
    rintro ⟨pid, words, starts, fullpath, heq, -⟩
    exact hpoint pid words heq
  cases point with
  | waiting pid child =>
    cases m with
    | child m =>
      rw [RefState.step, Option.map_eq_none_iff, RefChild.step_eq_none h]
      constructor
      · rintro ⟨words, starts, fullpath, rfl, rfl, hover⟩
        exact ⟨pid, words, starts, fullpath, rfl, rfl, hover⟩
      · rintro ⟨pid', words, starts, fullpath, heq, hmove, hover⟩
        cases heq
        cases hmove
        exact ⟨words, starts, fullpath, rfl, rfl, hover⟩
    | wait =>
      cases h
      refine hother ⟨_, rfl⟩ fun pid words heq => ?_
      cases heq
    | _ => exact h.elim
  | reading got =>
    cases m with
    | read c => exact hother ⟨_, rfl⟩ fun _ _ heq => RefPoint.noConfusion heq
    | readEnd ret => exact hother ⟨_, if_pos h⟩ fun _ _ heq => RefPoint.noConfusion heq
    | _ => exact h.elim
  | fork words =>
    cases m with
    | fork ret =>
      refine hother ?_ fun _ _ heq => RefPoint.noConfusion heq
      rw [RefState.step]
      dsimp only
      rcases Int.lt_or_gt_of_ne h with hfailed | hparent
      · exact ⟨_, (if_neg (Int.not_lt.mpr (Int.le_of_lt hfailed))).trans (if_pos hfailed)⟩
      · exact ⟨_, if_pos hparent⟩
    | _ => exact h.elim
  | exited => cases m <;> exact h.elim
  | chdir dir =>
    cases m with
    | chdir ret => exact hother ⟨_, rfl⟩ fun _ _ heq => RefPoint.noConfusion heq
    | _ => exact h.elim
  | getcwd =>
    cases m with
    | getcwd a => exact hother ⟨_, rfl⟩ fun _ _ heq => RefPoint.noConfusion heq
    | _ => exact h.elim
  | _ =>
    cases m with
    | print pr => exact hother ⟨_, rfl⟩ fun _ _ heq => RefPoint.noConfusion heq
    | _ => exact h.elim

/-- In every run, the shell and its children go on with every answer of the kernel, except where the
lookup of a child runs out of `fullpath`. -/
theorem shell_stuck_iff (input : {b : List UInt8 // b.length = maxInput})
    (argv : {v : List (Option Nat) // v.length = maxArgs}) (moves : List ShellMove)
    (s : ShellState) (hrun : run ShellState.step (shellStart input argv) moves = some s)
    (m : ShellMove) (hexpects : s.abs.point.Expects m) :
    s.step m = none ↔ ∃ pid words starts fullpath, s.abs.point = .waiting pid (.lookup words) ∧
      m = .child (.exec starts fullpath) ∧ Overflows starts (words.headD []) := by
  have hok : s.Ok := run_invariant ShellState.Ok (fun _ _ _ => shellSimulation.keeps)
    (shellStart_ok input argv) hrun
  rw [← RefState.step_eq_none hexpects, ← (hok.step m).eq, Option.map_eq_none_iff]

/-- The child looks for `ls`. -/
theorem lsMoves_stuck :
    ∃ s, run ShellState.step (shellStart freshInput freshArgv) (lsMoves.take 6) = some s ∧
      (s.step (.child (.exec noProgram freshPath)) = none ↔
        ∃ pid words starts fullpath, s.abs.point = .waiting pid (.lookup words) ∧
          ShellMove.child (.exec noProgram freshPath) = .child (.exec starts fullpath) ∧
          Overflows starts (words.headD [])) := by
  have href : ∃ r, run RefState.step refStart (lsMoves.take 6) = some r ∧
      r.point = .waiting 7 (.lookup [ascii ['l', 's']]) := ⟨_, rfl, rfl⟩
  obtain ⟨r, href, hpoint⟩ := href
  obtain ⟨s, hrun, habs⟩ := run_of_reference href
  have hexpects : s.abs.point.Expects (.child (.exec noProgram freshPath)) := by
    rw [habs, hpoint]
    trivial
  exact ⟨s, hrun, shell_stuck_iff freshInput freshArgv _ s hrun _ hexpects⟩

end Toylibc
