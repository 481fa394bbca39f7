import Toylibc.Lib.Words
import Toylibc.Shell

/-!
# The words of a command line

The reference for `parse_line`, on the line as a whole. A double quote switches quoting on or
off and is removed, and the arguments are the words between the spaces outside of quotes
(`arguments`).

`parse_line` starts its first argument before it has seen the first byte. So what it collects
are the `fields` of the line (`texts`): the same, behind an empty argument when the line is
empty or starts with a space.
-/

namespace Toylibc

open Words

/-- The bytes of a text, each with whether it is inside quotes, where `q` says so of the first. -/
def quoted : Bool → List UInt8 → List (UInt8 × Bool)
  | _, [] => []
  | q, c :: s => (c, q) :: quoted (if c = ch '"' then !q else q) s

/-- Whether the end of the text is inside quotes. -/
def quotedAfter : Bool → List UInt8 → Bool
  | q, [] => q
  | q, c :: s => quotedAfter (if c = ch '"' then !q else q) s

/-- A space outside of quotes. -/
def isGap (b : UInt8 × Bool) : Bool := decide (b.1 = ch ' ' ∧ b.2 = false)

/-- The bytes of a word, without its quotes. -/
def unquote (w : List (UInt8 × Bool)) : List UInt8 := (w.map (·.1)).filter (· ≠ ch '"')

/-- The arguments in a text that starts inside quotes or outside. -/
def argumentsFrom (q : Bool) (s : List UInt8) : List (List UInt8) :=
  (words isGap (quoted q s)).map unquote

/-- All the arguments of a line. -/
def arguments (line : List UInt8) : List (List UInt8) := argumentsFrom false line

/-- The arguments that `argv` has room for, in front of the `NULL`. -/
def keptArguments (line : List UInt8) : List (List UInt8) := (arguments line).take (maxArgs - 1)

/-- What is collected from a text that continues an argument. -/
def textsFrom (q : Bool) (s : List UInt8) : List (List UInt8) :=
  (fields isGap (quoted q s)).map unquote

def texts (line : List UInt8) : List (List UInt8) := textsFrom false line

/-- The line starts with an argument. -/
def Opens (line : List UInt8) : Prop := line ≠ [] ∧ line.head? ≠ some (ch ' ')

instance (line : List UInt8) : Decidable (Opens line) := inferInstanceAs (Decidable (_ ∧ _))

/-! ## One byte -/

theorem isGap_iff {c : UInt8} {q : Bool} : isGap (c, q) = true ↔ c = ch ' ' ∧ q = false :=
  decide_eq_true_iff

theorem isGap_eq_false {c : UInt8} {q : Bool} (h : ¬(c = ch ' ' ∧ q = false)) :
    isGap (c, q) = false :=
  decide_eq_false h

theorem argumentsFrom_nil (q : Bool) : argumentsFrom q [] = [] := by
  rw [argumentsFrom, quoted, words_nil]
  rfl

theorem textsFrom_nil (q : Bool) : textsFrom q [] = [[]] := by
  rw [textsFrom, quoted, fields_nil]
  rfl

theorem quoted_cons {c : UInt8} (hc : c ≠ ch '"') (q : Bool) (s : List UInt8) :
    quoted q (c :: s) = (c, q) :: quoted q s := by
  rw [quoted, if_neg hc]

theorem unquote_cons {c : UInt8} (hc : c ≠ ch '"') (q : Bool) (w : List (UInt8 × Bool)) :
    unquote ((c, q) :: w) = c :: unquote w :=
  List.filter_cons_of_pos (decide_eq_true hc)

/-- A quote belongs to the argument, and is removed. -/
theorem textsFrom_quote (q : Bool) (s : List UInt8) :
    textsFrom q (ch '"' :: s) = textsFrom (!q) s := by
  have hgap : isGap (ch '"', q) = false := isGap_eq_false fun h => absurd h.1 (by decide)
  rw [textsFrom, quoted, if_pos rfl, fields_cons hgap, textsFrom]
  cases fields isGap (quoted (!q) s) <;> rfl

theorem textsFrom_copy {c : UInt8} {q : Bool} (hquote : c ≠ ch '"')
    (hgap : ¬(c = ch ' ' ∧ q = false)) (s : List UInt8) :
    textsFrom q (c :: s) = (textsFrom q s).modifyHead (c :: ·) := by
  rw [textsFrom, quoted_cons hquote, fields_cons (isGap_eq_false hgap), textsFrom]
  cases fields isGap (quoted q s) with
  | nil => rfl
  | cons w ws =>
    rw [List.modifyHead_cons, List.map_cons, List.map_cons, List.modifyHead_cons,
      unquote_cons hquote]

/-- A space ends the argument. -/
theorem textsFrom_gap (s : List UInt8) :
    textsFrom false (ch ' ' :: s) = [] :: argumentsFrom false s := by
  rw [textsFrom, quoted_cons (by decide), fields_cons_sep (isGap_iff.mpr ⟨rfl, rfl⟩)]
  rfl

theorem argumentsFrom_gap (s : List UInt8) :
    argumentsFrom false (ch ' ' :: s) = argumentsFrom false s := by
  rw [argumentsFrom, quoted_cons (by decide), words_cons_sep (isGap_iff.mpr ⟨rfl, rfl⟩)]
  rfl

theorem argumentsFrom_cons {c : UInt8} {q : Bool} (hgap : ¬(c = ch ' ' ∧ q = false))
    (s : List UInt8) : argumentsFrom q (c :: s) = textsFrom q (c :: s) := by
  rw [argumentsFrom, textsFrom, quoted, words_cons (isGap_eq_false hgap)]

/-! ## Whole lines -/

theorem texts_of_opens {line : List UInt8} (h : Opens line) : texts line = arguments line := by
  cases line with
  | nil => exact absurd rfl h.1
  | cons c s =>
    refine (argumentsFrom_cons (fun hc => h.2 ?_) s).symm
    rw [List.head?_cons, hc.1]

/-- An empty argument is put in front. -/
theorem texts_of_not_opens {line : List UInt8} (h : ¬Opens line) :
    texts line = [] :: arguments line := by
  cases line with
  | nil => rw [texts, arguments, textsFrom_nil, argumentsFrom_nil]
  | cons c s =>
    have hc : c = ch ' ' := by
      by_contra hne
      exact h ⟨List.cons_ne_nil c s, fun hhead => hne (Option.some.inj hhead)⟩
    rw [texts, arguments, hc, textsFrom_gap, argumentsFrom_gap]

theorem map_fst_quoted (q : Bool) (s : List UInt8) : (quoted q s).map (·.1) = s := by
  induction s generalizing q with
  | nil => rfl
  | cons c s ih => rw [quoted, List.map_cons, ih]

/-- The bytes of the texts come from the line. -/
theorem mem_of_mem_texts {line t : List UInt8} {c : UInt8} (ht : t ∈ texts line) (hc : c ∈ t) :
    c ∈ line := by
  obtain ⟨w, hw, rfl⟩ := List.mem_map.mp ht
  obtain ⟨b, hb, rfl⟩ := List.mem_map.mp (List.mem_of_mem_filter hc)
  have hbyte := List.mem_map_of_mem (f := (·.1)) (mem_of_mem_fields hw hb)
  rwa [map_fst_quoted] at hbyte

end Toylibc
