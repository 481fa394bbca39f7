import Toylibc.ParseTexts
import Toylibc.ShellLines

/-!
# Quoted arguments come back

Arguments written between double quotes, with spaces between them, are what `parse_line` finds in
the line, byte for byte (`quoting_round_trip`).
-/

namespace Toylibc

open Buffer

/-- An argument between double quotes. -/
def quoteArg (t : List UInt8) : List UInt8 := ch '"' :: (t ++ [ch '"'])

def spaces (n : Nat) : List UInt8 := List.replicate n (ch ' ')

/-- The line of an argument, and further ones with one space and `k` more in front of each.
Behind the last one are `trail` spaces. -/
def quoteLine (trail : Nat) : List UInt8 → List (Nat × List UInt8) → List UInt8
  | t, [] => quoteArg t ++ spaces trail
  | t, (k, u) :: rest => quoteArg t ++ (spaces (k + 1) ++ quoteLine trail u rest)

/-- An argument that can be written between quotes. -/
def Quotable (t : List UInt8) : Prop := (0 : UInt8) ∉ t ∧ ch '"' ∉ t

/-! ## The texts of the line -/

theorem argumentsFrom_spaces (n : Nat) (s : List UInt8) :
    argumentsFrom false (spaces n ++ s) = argumentsFrom false s := by
  induction n with
  | zero => rfl
  | succ n ih =>
    rw [spaces, List.replicate_succ, List.cons_append, argumentsFrom_gap]
    exact ih

/-- Inside quotes every byte is copied, spaces too. -/
theorem textsFrom_inside {t : List UInt8} (ht : ch '"' ∉ t) (s : List UInt8) :
    textsFrom true (t ++ s) = (textsFrom true s).modifyHead (t ++ ·) := by
  induction t with
  | nil => exact (congrFun List.modifyHead_id _).symm
  | cons c t ih =>
    have hc : c ≠ ch '"' := fun h => ht (h ▸ List.mem_cons_self)
    have hgap : ¬(c = ch ' ' ∧ true = false) := fun h => Bool.noConfusion h.2
    rw [List.cons_append, textsFrom_copy hc hgap, ih fun h => ht (List.mem_cons_of_mem c h),
      List.modifyHead_modifyHead]
    rfl

theorem textsFrom_quoteArg {t : List UInt8} (ht : ch '"' ∉ t) (s : List UInt8) :
    textsFrom false (quoteArg t ++ s) = (textsFrom false s).modifyHead (t ++ ·) := by
  rw [quoteArg, List.cons_append, textsFrom_quote, List.append_assoc, Bool.not_false,
    textsFrom_inside ht, List.singleton_append, textsFrom_quote, Bool.not_true]

/-- An argument, spaces behind it, and what follows. -/
theorem textsFrom_quoteArg_spaces {t : List UInt8} (ht : ch '"' ∉ t) (k : Nat) (s : List UInt8) :
    textsFrom false (quoteArg t ++ (spaces (k + 1) ++ s)) = t :: argumentsFrom false s := by
  rw [textsFrom_quoteArg ht, spaces, List.replicate_succ, List.cons_append, textsFrom_gap]
  exact congrArg₂ List.cons (List.append_nil t) (argumentsFrom_spaces k s)

/-- The texts of the line are the arguments it was made from. -/
theorem textsFrom_quoteLine (trail : Nat) {t : List UInt8} {rest : List (Nat × List UInt8)}
    (h : ∀ u ∈ t :: rest.map (·.2), ch '"' ∉ u) :
    textsFrom false (quoteLine trail t rest) = t :: rest.map (·.2) := by
  induction rest generalizing t with
  | nil =>
    have ht := h t List.mem_cons_self
    cases trail with
    | zero =>
      rw [quoteLine, textsFrom_quoteArg ht, spaces, List.replicate_zero, textsFrom_nil]
      exact congrArg ([·]) (List.append_nil t)
    | succ k =>
      have hspaces := textsFrom_quoteArg_spaces ht k []
      rwa [List.append_nil, argumentsFrom_nil] at hspaces
  | cons u rest ih =>
    obtain ⟨k, u⟩ := u
    have hline : ∃ s, quoteLine trail u rest = ch '"' :: s := by
      cases rest <;> exact ⟨_, rfl⟩
    obtain ⟨s, hs⟩ := hline
    have hrest := ih fun v hv => h v (List.mem_cons_of_mem t hv)
    rw [quoteLine, textsFrom_quoteArg_spaces (h t List.mem_cons_self), hs,
      argumentsFrom_cons (fun hgap => absurd hgap.1 (by decide)), ← hs, hrest]
    rfl

/-- Quotes and spaces are all that is added. -/
theorem not_mem_quoteLine {c : UInt8} (hquote : c ≠ ch '"') (hspace : c ≠ ch ' ') (trail : Nat)
    {t : List UInt8} {rest : List (Nat × List UInt8)} (h : ∀ u ∈ t :: rest.map (·.2), c ∉ u) :
    c ∉ quoteLine trail t rest := by
  have hquoted : ∀ u : List UInt8, c ∉ u → c ∉ quoteArg u := by
    intro u hu
    simp only [quoteArg, List.mem_cons, List.mem_append, List.not_mem_nil, or_false, not_or]
    exact ⟨hquote, hu, hquote⟩
  have hspaces : ∀ n, c ∉ spaces n := fun n hmem => hspace (List.eq_of_mem_replicate hmem)
  induction rest generalizing t with
  | nil =>
    rw [quoteLine, List.mem_append, not_or]
    exact ⟨hquoted t (h t List.mem_cons_self), hspaces trail⟩
  | cons u rest ih =>
    obtain ⟨k, u⟩ := u
    rw [quoteLine, List.mem_append, List.mem_append, not_or, not_or]
    exact ⟨hquoted t (h t List.mem_cons_self), hspaces (k + 1),
      ih fun v hv => h v (List.mem_cons_of_mem t hv)⟩

theorem zero_not_mem_quoteLine (trail : Nat) {t : List UInt8} {rest : List (Nat × List UInt8)}
    (h : ∀ u ∈ t :: rest.map (·.2), (0 : UInt8) ∉ u) : (0 : UInt8) ∉ quoteLine trail t rest :=
  not_mem_quoteLine (by decide) (by decide) trail h

/-- `parse_line` finds the arguments that a line was made from, at most 63 of any lengths. -/
theorem quoting_round_trip {t : List UInt8} {rest : List (Nat × List UInt8)}
    (hbytes : ∀ u ∈ t :: rest.map (·.2), Quotable u)
    (hcount : (t :: rest.map (·.2)).length ≤ maxArgs - 1) (trail : Nat) (tail : List UInt8)
    (argv : {v : List (Option Nat) // v.length = maxArgs}) :
    ∃ parsed, parseLine (quoteLine trail t rest ++ 0 :: tail) argv = some parsed ∧
      Leaves parsed (t :: rest.map (·.2)) := by
  have hnul := zero_not_mem_quoteLine trail fun u hu => (hbytes u hu).1
  have htexts := textsFrom_quoteLine trail fun u hu => (hbytes u hu).2
  obtain ⟨parsed, hparse, hleaves⟩ := parseLine_leaves hnul tail argv.2
  rw [texts, htexts, List.take_of_length_le hcount] at hleaves
  exact ⟨parsed, hparse, hleaves⟩

/-- `"a b"  "" `: a space inside quotes, an empty argument, and a space at the end. -/
theorem quotedSpace_round_trip :
    ∃ parsed, parseLine (quoteLine 1 (ascii ['a', ' ', 'b']) [(1, [])] ++ [0]) freshArgv =
        some parsed ∧
      Leaves parsed [ascii ['a', ' ', 'b'], []] := by
  refine @quoting_round_trip _ [(1, [])] (fun u hu => ?_) (by decide) 1 [] freshArgv
  rcases List.mem_cons.mp hu with rfl | hu
  · exact ⟨by decide, by decide⟩
  · rw [List.mem_singleton.mp hu]
    exact ⟨List.not_mem_nil, List.not_mem_nil⟩

end Toylibc
