import Mathlib.Logic.Relation
import Toylibc.ParseTexts
import Toylibc.ShellLines

/-!
# `parse_line` against its grammar

`parse_line` takes a line apart as the reference does exactly when the line starts with an
argument (`Opens`). A line that is empty or starts with a space gets an empty argument in front
of its own, so what is typed behind a leading space is not taken for the command, and the
`argc == 0` of `main` never occurs. Only when there are 63 empty arguments anyway does one more
make no difference (`AllEmpty`).
-/

namespace Toylibc

open Buffer Words

/-- `parse_line` leaves the arguments of the reference. -/
def Tokenizes (line tail : List UInt8) (argv : List (Option Nat)) : Prop :=
  ∃ parsed, parseLine (line ++ 0 :: tail) argv = some parsed ∧ Leaves parsed (keptArguments line)

/-- All the arguments that are kept are empty, and there are as many as `argv` has room for. -/
def AllEmpty (line : List UInt8) : Prop :=
  maxArgs - 1 ≤ (arguments line).length ∧ ∀ t ∈ keptArguments line, t = []

/-- One more space outside of quotes: at either end, or in a run of spaces. -/
inductive Respace : List UInt8 → List UInt8 → Prop
  | front (l : List UInt8) : Respace l (ch ' ' :: l)
  | back (l : List UInt8) (hout : quotedAfter false l = false) : Respace l (l ++ [ch ' '])
  | run (a b : List UInt8) (hout : quotedAfter false a = false) :
      Respace (a ++ ch ' ' :: b) (a ++ ch ' ' :: ch ' ' :: b)

/-- Two calls of `parse_line` return, and leave the same arguments for `run_command`. -/
def SameCommand (buf : List UInt8) (argv : List (Option Nat)) (buf' : List UInt8)
    (argv' : List (Option Nat)) : Prop :=
  ∃ parsed parsed' args, parseLine buf argv = some parsed ∧ parseLine buf' argv' = some parsed' ∧
    Leaves parsed args ∧ Leaves parsed' args

/-! ## Spaces -/

theorem quoted_append (q : Bool) (a b : List UInt8) :
    quoted q (a ++ b) = quoted q a ++ quoted (quotedAfter q a) b := by
  induction a generalizing q with
  | nil => rfl
  | cons c a ih => rw [List.cons_append, quoted, ih, quoted, quotedAfter, List.cons_append]

/-- An unquoted space separates the arguments in front of it from those behind. -/
theorem arguments_append {a : List UInt8} (hout : quotedAfter false a = false) (b : List UInt8) :
    arguments (a ++ ch ' ' :: b) = arguments a ++ arguments b := by
  have hgap : isGap (ch ' ', false) = true := isGap_iff.mpr ⟨rfl, rfl⟩
  rw [arguments, argumentsFrom, quoted_append, hout, quoted_cons (by decide),
    words_append_cons _ _ hgap, List.map_append]
  rfl

theorem Respace.arguments_eq {l l' : List UInt8} (h : Respace l l') :
    arguments l = arguments l' := by
  cases h with
  | front => exact (argumentsFrom_gap l).symm
  | back _ hout =>
    have hnone : arguments [] = [] := argumentsFrom_nil false
    rw [arguments_append hout, hnone, List.append_nil]
  | run a b hout =>
    rw [arguments_append hout, arguments_append hout]
    exact congrArg (arguments a ++ ·) (argumentsFrom_gap b).symm

theorem arguments_eq_of_respaced {l l' : List UInt8} (h : Relation.EqvGen Respace l l') :
    arguments l = arguments l' := by
  induction h with
  | rel l l' h => exact h.arguments_eq
  | refl l => rfl
  | symm l l' _ ih => exact ih.symm
  | trans l l' l'' _ _ ih ih' => exact ih.trans ih'

/-! ## What is left -/

/-- What is in `argv` is determined. -/
theorem Leaves.unique {parsed : Parsed} {args args' : List (List UInt8)} (h : Leaves parsed args)
    (h' : Leaves parsed args') : args = args' := by
  have hlen : args.length = args'.length := h.argc.symm.trans h'.argc
  refine List.ext_getElem hlen fun i hi hi' => ?_
  obtain ⟨a, ha, hstring⟩ := h.string i _ (List.getElem?_eq_getElem hi)
  obtain ⟨a', ha', hstring'⟩ := h'.string i _ (List.getElem?_eq_getElem hi')
  rw [ha, Option.some.injEq, Option.some.injEq] at ha'
  rw [← hstring.string, ← hstring'.string, ha']

/-- One more empty text in front is not noticed when the first `n` are empty. -/
theorem take_nil_cons_iff {α : Type} (ts : List (List α)) (n : Nat) :
    ([] :: ts).take n = ts.take n ↔ n ≤ ts.length ∧ ∀ t ∈ ts.take n, t = [] := by
  induction n generalizing ts with
  | zero => exact iff_of_true rfl ⟨Nat.zero_le _, fun t ht => absurd ht List.not_mem_nil⟩
  | succ n ih =>
    cases ts with
    | nil => exact iff_of_false (by simp) fun h => Nat.not_succ_le_zero n h.1
    | cons t ts =>
      rw [List.take_succ_cons, List.take_succ_cons, List.cons.injEq, List.length_cons,
        Nat.succ_le_succ_iff, List.forall_mem_cons]
      constructor
      · rintro ⟨rfl, htail⟩
        obtain ⟨hlen, hall⟩ := (ih ts).mp htail
        exact ⟨hlen, rfl, hall⟩
      · rintro ⟨hlen, rfl, hall⟩
        exact ⟨rfl, (ih ts).mpr ⟨hlen, hall⟩⟩

theorem take_texts_iff (line : List UInt8) :
    (texts line).take (maxArgs - 1) = keptArguments line ↔ Opens line ∨ AllEmpty line := by
  by_cases h : Opens line
  · exact iff_of_true (congrArg (List.take (maxArgs - 1)) (texts_of_opens h)) (.inl h)
  · rw [texts_of_not_opens h, keptArguments, take_nil_cons_iff]
    exact ⟨fun hempty => .inr hempty, fun hor => hor.resolve_left h⟩

/-- Lines with the same arguments give the same texts when both start with an argument, or
neither does. -/
theorem take_texts_eq_iff {l l' : List UInt8} (h : arguments l = arguments l') :
    (texts l).take (maxArgs - 1) = (texts l').take (maxArgs - 1) ↔
      (Opens l ↔ Opens l') ∨ AllEmpty l := by
  have hnone := take_nil_cons_iff (arguments l) (maxArgs - 1)
  by_cases hl : Opens l <;> by_cases hl' : Opens l'
  · rw [texts_of_opens hl, texts_of_opens hl', h]
    exact iff_of_true rfl (.inl (iff_of_true hl hl'))
  · rw [texts_of_opens hl, texts_of_not_opens hl', ← h, eq_comm, hnone]
    exact ⟨.inr, fun hor => hor.resolve_left fun hiff => hl' (hiff.mp hl)⟩
  · rw [texts_of_not_opens hl, texts_of_opens hl', ← h, hnone]
    exact ⟨.inr, fun hor => hor.resolve_left fun hiff => hl (hiff.mpr hl')⟩
  · rw [texts_of_not_opens hl, texts_of_not_opens hl', h]
    exact iff_of_true rfl (.inl (iff_of_false hl hl'))

/-- `parse_line` is right about a line exactly when this starts with an argument, and spaces
make no difference exactly when they are not put in front of the first argument. -/
theorem tokenizes_iff (line : CString) (tail : List UInt8)
    (argv : {v : List (Option Nat) // v.length = maxArgs}) :
    (Tokenizes line.bytes tail argv ↔ Opens line.bytes ∨ AllEmpty line.bytes) ∧
      ∀ (line' : CString) (tail' : List UInt8)
        (argv' : {v : List (Option Nat) // v.length = maxArgs}),
        Relation.EqvGen Respace line.bytes line'.bytes →
          (SameCommand (line.bytes ++ 0 :: tail) argv (line'.bytes ++ 0 :: tail') argv' ↔
            (Opens line.bytes ↔ Opens line'.bytes) ∨ AllEmpty line.bytes) := by
  obtain ⟨parsed, hparse, hleaves⟩ := parseLine_leaves line.no_nul tail argv.2
  refine ⟨?_, fun line' tail' argv' hspaces => ?_⟩
  · rw [← take_texts_iff]
    constructor
    · rintro ⟨parsed', hparse', hkept⟩
      obtain rfl := Option.some.inj (hparse.symm.trans hparse')
      exact hleaves.unique hkept
    · intro heq
      exact ⟨parsed, hparse, heq ▸ hleaves⟩
  · obtain ⟨parsed', hparse', hleaves'⟩ := parseLine_leaves line'.no_nul tail' argv'.2
    rw [← take_texts_eq_iff (arguments_eq_of_respaced hspaces)]
    constructor
    · rintro ⟨other, other', args, hother, hother', hargs, hargs'⟩
      obtain rfl := Option.some.inj (hparse.symm.trans hother)
      obtain rfl := Option.some.inj (hparse'.symm.trans hother')
      exact (hleaves.unique hargs).trans (hargs'.unique hleaves')
    · intro heq
      exact ⟨parsed, parsed', _, hparse, hparse', hleaves, heq ▸ hleaves'⟩

/-! ### A leading space -/

def lsLine : CString := ⟨ascii ['l', 's'], by decide⟩

def spacedLsLine : CString := ⟨ascii [' ', 'l', 's'], by decide⟩

/-- A space behind the command is not noticed. -/
theorem lsLine_tokenized : Tokenizes lsLine.bytes [] freshArgv ∧
    SameCommand (lsLine.bytes ++ [0]) freshArgv (ascii ['l', 's', ' '] ++ [0]) freshArgv := by
  have hopens : Opens lsLine.bytes := by decide
  have hspace : Respace lsLine.bytes (lsLine.bytes ++ [ch ' ']) := .back lsLine.bytes (by decide)
  have hline := tokenizes_iff lsLine [] freshArgv
  refine ⟨hline.1.mpr (.inl hopens), ?_⟩
  exact (hline.2 ⟨ascii ['l', 's', ' '], by decide⟩ [] freshArgv (.rel _ _ hspace)).mpr
    (.inl (iff_of_true hopens (by decide)))

theorem spacedLsLine_kept : keptArguments spacedLsLine.bytes = [lsLine.bytes] := by
  have hspaced : spacedLsLine.bytes = ch ' ' :: lsLine.bytes := rfl
  have hls : argumentsFrom false lsLine.bytes = textsFrom false lsLine.bytes :=
    argumentsFrom_cons (by decide) _
  have htexts : textsFrom false lsLine.bytes = [lsLine.bytes] := by
    have hl : lsLine.bytes = ch 'l' :: ch 's' :: [] := rfl
    rw [hl, textsFrom_copy (by decide) (by decide), textsFrom_copy (by decide) (by decide),
      textsFrom_nil]
    rfl
  rw [keptArguments, hspaced, arguments, argumentsFrom_gap, hls, htexts]
  rfl

/-- With a space in front, `ls` is the second argument, and `run_command` sees an empty command.
A line of one space has an argument. -/
theorem spacedLsLine_not_tokenized :
    ¬Tokenizes spacedLsLine.bytes [] freshArgv ∧ Respace lsLine.bytes spacedLsLine.bytes ∧
      ¬SameCommand (lsLine.bytes ++ [0]) freshArgv (spacedLsLine.bytes ++ [0]) freshArgv ∧
      (parseLine (spacedLsLine.bytes ++ [0]) freshArgv).map (fun p => runCommand p.buf p.argv) =
        some .empty ∧
      (parseLine (ascii [' '] ++ [0]) freshArgv).map (·.argc) = some 1 := by
  have hargc : (parseLine (spacedLsLine.bytes ++ [0]) freshArgv).map (·.argc) = some 2 := by
    decide +kernel
  have hargc' : (parseLine (lsLine.bytes ++ [0]) freshArgv).map (·.argc) = some 1 := by
    decide +kernel
  refine ⟨?_, .front lsLine.bytes, ?_, by decide +kernel, by decide +kernel⟩
  · rintro ⟨parsed, hparse, hleaves⟩
    rw [hparse, Option.map_some, hleaves.argc, spacedLsLine_kept] at hargc
    exact absurd hargc (by decide)
  · rintro ⟨parsed', parsed, args, hparse', hparse, hleaves', hleaves⟩
    rw [hparse, Option.map_some, hleaves.argc] at hargc
    rw [hparse', Option.map_some, hleaves'.argc, hargc] at hargc'
    exact absurd hargc' (by decide)

end Toylibc
