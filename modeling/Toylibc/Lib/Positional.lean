import Mathlib.Data.Nat.Digits.Lemmas

/-!
# Positional numerals

A numeral is a text over an alphabet of digits, the highest digit first. The value of a digit is
its place in the alphabet, and the base is the size of the alphabet.

* `read`: the value of a text.
* `IsNumeral`: the text is *the* numeral of a value: it reads as the value, and it has no leading
  zero unless it is a single digit.
-/

namespace Positional

variable {α : Type} [DecidableEq α]

/-- One more digit behind the value `acc`. -/
def readDigit (alphabet : List α) (acc : Nat) (c : α) : Option Nat :=
  if c ∈ alphabet then some (acc * alphabet.length + alphabet.idxOf c) else none

/-- The value of a text, if all of it is digits. -/
def read (alphabet text : List α) : Option Nat := text.foldlM (readDigit alphabet) 0

structure IsNumeral (alphabet : List α) (val : Nat) (text : List α) : Prop where
  nonempty : text ≠ []
  reads : read alphabet text = some val
  no_leading_zero : text.head? = alphabet.head? → text.length = 1

variable {alphabet text : List α} {val : Nat}

theorem readDigit_of_getElem? {acc d : Nat} {c : α} (hnodup : alphabet.Nodup)
    (hc : alphabet[d]? = some c) :
    readDigit alphabet acc c = some (acc * alphabet.length + d) := by
  obtain ⟨hlt, rfl⟩ := List.getElem?_eq_some_iff.mp hc
  rw [readDigit, if_pos (List.getElem_mem hlt), hnodup.idxOf_getElem d hlt]

theorem read_concat (c : α) :
    read alphabet (text ++ [c]) =
      (read alphabet text).bind fun acc => readDigit alphabet acc c := by
  unfold read
  rw [List.foldlM_append]
  simp only [List.foldlM_cons, List.foldlM_nil, bind_pure]
  rfl

/-- What is read is made of digits. -/
theorem mem_of_read (h : read alphabet text = some val) : ∀ c ∈ text, c ∈ alphabet := by
  induction text using List.reverseRecOn generalizing val with
  | nil => nofun
  | append_singleton text x ih =>
    rw [read_concat] at h
    obtain ⟨acc, hacc, hx⟩ := Option.bind_eq_some_iff.mp h
    intro c hc
    rcases List.mem_append.mp hc with hc | hc
    · exact ih hacc c hc
    · obtain rfl := List.mem_singleton.mp hc
      by_contra hnot
      rw [readDigit, if_neg hnot] at hx
      cases hx

/-- Digits that are given lowest first are read back in reverse. -/
theorem read_reverse_map {digit : Nat → α} (hnodup : alphabet.Nodup) {ds : List Nat}
    (hdigit : ∀ d ∈ ds, alphabet[d]? = some (digit d)) :
    read alphabet (ds.map digit).reverse = some (Nat.ofDigits alphabet.length ds) := by
  induction ds with
  | nil => rfl
  | cons d ds ih =>
    rw [List.map_cons, List.reverse_cons, read_concat, ih fun e he => hdigit e (.tail _ he),
      Option.bind_some, readDigit_of_getElem? hnodup (hdigit d (List.mem_cons_self ..)),
      Nat.ofDigits_cons]
    congr 1
    ring

/-- The digits of a positive value, in reverse, are its numeral. -/
theorem isNumeral_digits {base : Nat} {digit : Nat → α} (hbase : 1 < base)
    (hlength : alphabet.length = base) (hnodup : alphabet.Nodup)
    (hdigit : ∀ d, d < base → alphabet[d]? = some (digit d)) (hval : val ≠ 0) :
    IsNumeral alphabet val ((Nat.digits base val).map digit).reverse := by
  have hne : Nat.digits base val ≠ [] := Nat.digits_ne_nil_iff_ne_zero.mpr hval
  have hlt : ∀ d ∈ Nat.digits base val, d < base := fun d hd => Nat.digits_lt_base hbase hd
  refine ⟨?_, ?_, fun hhead => ?_⟩
  · rw [Ne, List.reverse_eq_nil_iff, List.map_eq_nil_iff]
    exact hne
  · rw [read_reverse_map hnodup fun d hd => hdigit d (hlt d hd), hlength, Nat.ofDigits_digits]
  · -- the highest digit is not zero, so it is not the first of the alphabet
    have hlast := hlt _ (List.getLast_mem hne)
    rw [List.head?_reverse, List.getLast?_map, List.getLast?_eq_some_getLast hne, Option.map_some,
      ← hdigit _ hlast, List.head?_eq_getElem?] at hhead
    have hzero := (List.getElem?_inj (by omega) hnodup).mp hhead
    exact absurd hzero (Nat.getLast_digit_ne_zero base hval)

end Positional
