import Toylibc.ShellReference

/-!
# The lookup for every kernel

Whatever programs exist, `try_exec` tries the paths of the reference in their order up to the first
that is one, and runs out of `fullpath` exactly when the reference meets a path that is too long
before (`tryExec_seen`).
-/

namespace Toylibc

open Buffer

/-! ## Strings in arrays -/

theorem StringIn.read {buf t : List UInt8} {a : Nat} (h : StringIn buf a t) :
    readString buf a = some ⟨t, h.no_nul⟩ := by
  have hmem : (0 : UInt8) ∈ buf.drop a := by
    refine List.mem_of_getElem? (i := t.length) ?_
    rw [List.getElem?_drop]
    exact h.nul
  have hstring := h.string
  unfold readString
  rw [if_pos hmem]
  subst hstring
  rfl

theorem argStrings_of_entries {buf : List UInt8} {words : List (List UInt8)}
    {argv : List (Option Nat)}
    (hstring : ∀ (i : Nat) (t : List UInt8), words[i]? = some t →
      ∃ a, argv[i]? = some (some a) ∧ StringIn buf a t)
    (hnull : argv[words.length]? = some none) : argStrings buf argv = some words := by
  induction words generalizing argv with
  | nil =>
    cases argv with
    | nil => cases hnull
    | cons e argv =>
      cases hnull
      rfl
  | cons t words ih =>
    obtain ⟨a, harg, ht⟩ := hstring 0 t rfl
    cases argv with
    | nil => cases harg
    | cons e argv =>
      cases harg
      have hrest := ih (fun i u hu => hstring (i + 1) u hu) hnull
      rw [argStrings, ht.read, hrest]
      rfl

/-- The kernel reads the arguments that `parse_line` left. -/
theorem Leaves.read {parsed : Parsed} {words : List (List UInt8)} (h : Leaves parsed words) :
    argStrings parsed.buf parsed.argv = some words :=
  argStrings_of_entries h.string (h.argc ▸ h.null)

/-! ## The walk along the directories -/

/-- What the kernel sees of the calls. -/
def ExecRun.seen (run : ExecRun) : Option (List (List UInt8) × Bool) :=
  (readPaths run.calls).map fun paths => (paths, run.started)

theorem readPaths_eq {paths calls : List (List UInt8)}
    (h : List.Forall₂ (fun path call => StringIn call 0 path) paths calls) :
    readPaths calls = some paths := by
  unfold readPaths
  induction h with
  | nil => rfl
  | cons hstring _ ih =>
    rw [List.mapM_cons, hstring.read, ih]
    rfl

theorem Tries.seen {found : List (List UInt8) × Bool} {run : ExecRun} (h : Tries found run) :
    run.seen = some found := by
  rw [ExecRun.seen, readPaths_eq h.calls, h.started]
  rfl

/-- `try_exec` with any programs does what the reference does, and has no result when that has
none. -/
theorem tryExec_seen {buf cmd : List UInt8} {argv : List (Option Nat)} {i : Nat}
    (starts : List UInt8 → Bool) (fullpath : {b : List UInt8 // b.length = pathSize})
    (harg : argv[0]? = some (some i)) (hcmd : StringIn buf i cmd) :
    (tryExec starts fullpath buf argv).map ExecRun.seen =
      (lookupCommand starts cmd).map some := by
  have htries := tryExec_tries starts fullpath harg hcmd
  generalize lookupCommand starts cmd = found at htries ⊢
  generalize tryExec starts fullpath buf argv = run at htries ⊢
  cases htries with
  | none => rfl
  | some h => exact congrArg some h.seen

end Toylibc
