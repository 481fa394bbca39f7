import Toylibc.Stdio
import Mathlib.Data.Nat.Digits.Lemmas

/-!
# `utoa`, `itoa` and `xtoa`

The digit loop writes the digits of the value, the lowest first, and `str_reverse` turns
them round. `numeral` is the text this should give: the digits of the value, the highest
first, and one zero digit for the value zero.
-/

namespace Toylibc

open Buffer

/-- The numeral of `val` in the given base. -/
def numeral (base : Nat) (digit : Nat → UInt8) (val : Nat) : List UInt8 :=
  if val = 0 then [ch '0'] else ((Nat.digits base val).map digit).reverse

/-- The decimal numeral of a value. -/
def decimal (val : Nat) : List UInt8 := numeral 10 (fun d => UInt8.ofNat ((ch '0').toNat + d)) val

/-- The hexadecimal numeral of a value, in lower case. -/
def hexadecimal (val : Nat) : List UInt8 := numeral 16 (fun d => hexDigits.getD d 0) val

/-- The decimal numeral of a signed value. -/
def signedDecimal (val : Int) : List UInt8 :=
  if val < 0 then ch '-' :: decimal val.natAbs else decimal val.natAbs

section

variable {base : Nat} (digit : Nat → UInt8)

/-- The loop appends the digits behind `l`. -/
theorem digitLoop_eq (hbase : 1 < base) (fuel val : Nat) (l r : List UInt8)
    (hroom : (Nat.digits base val).length ≤ r.length)
    (hfuel : (Nat.digits base val).length < fuel) :
    digitLoop base digit fuel val l.length (l ++ r) =
      some (l.length + (Nat.digits base val).length,
        l ++ (Nat.digits base val).map digit ++ r.drop (Nat.digits base val).length) := by
  induction fuel generalizing val l r with
  | zero => omega
  | succ fuel ih =>
    rcases Nat.eq_zero_or_pos val with rfl | hpos
    · simp [digitLoop]
    · rw [Nat.digits_def' hbase hpos] at hroom hfuel ⊢
      simp only [List.length_cons] at hroom hfuel
      cases r with
      | nil => simp at hroom
      | cons y r =>
        -- the buffer is split behind the digit that was just stored
        have hrest := ih (val / base) (l ++ [digit (val % base)]) r
          (show (Nat.digits base (val / base)).length ≤ r.length by
            simp only [List.length_cons] at hroom; omega) (by omega)
        simp only [List.length_append, List.length_cons, List.length_nil, List.append_assoc,
          List.singleton_append] at hrest
        rw [digitLoop, if_pos hpos, store_append_cons]
        simp only [hrest, List.length_cons, List.map_cons, List.drop_succ_cons, List.append_assoc,
          List.cons_append, Option.some.injEq, Prod.mk.injEq, and_true]
        omega

theorem length_numeral_of_ne_zero {val : Nat} (h : val ≠ 0) :
    (numeral base digit val).length = (Nat.digits base val).length := by
  rw [numeral, if_neg h, List.length_reverse, List.length_map]

/-- The converted value, and the NUL behind it. -/
theorem numToString_eq (hbase : 1 < base) {val : Nat} (hval : val < base ^ 64) (l r : List UInt8)
    (hroom : (numeral base digit val).length + 1 ≤ r.length) :
    numToString base digit val (l ++ r) l.length = some ((numeral base digit val).length,
      l ++ numeral base digit val ++ 0 :: r.drop ((numeral base digit val).length + 1)) := by
  unfold numToString
  by_cases hzero : val = 0
  · subst hzero
    obtain ⟨x, y, r, rfl⟩ : ∃ x y r', r = x :: y :: r' := by
      cases r with
      | nil => simp at hroom
      | cons x r =>
        cases r with
        | nil => simp [numeral] at hroom
        | cons y r => exact ⟨x, y, r, rfl⟩
    have hsecond := store_append_cons (l ++ [ch '0']) r 0 y
    simp only [List.length_append, List.length_cons, List.length_nil, List.append_assoc,
      List.singleton_append] at hsecond
    simp [store_append_cons, hsecond, numeral]
  · have hlen : (numeral base digit val).length = (Nat.digits base val).length :=
      length_numeral_of_ne_zero digit hzero
    have hle : (Nat.digits base val).length ≤ 64 := (Nat.digits_length_le_iff hbase val).mpr hval
    rw [hlen] at hroom ⊢
    have hloop := digitLoop_eq digit hbase 65 val l r (by omega) (by omega)
    obtain ⟨y, hy⟩ : ∃ y, r.drop (Nat.digits base val).length =
        y :: r.drop ((Nat.digits base val).length + 1) :=
      ⟨_, List.drop_eq_getElem_cons (by omega)⟩
    have hnul := store_append_cons (l ++ (Nat.digits base val).map digit)
      (r.drop ((Nat.digits base val).length + 1)) 0 y
    rw [List.length_append, List.length_map, ← hy] at hnul
    have hreverse : ∀ tail : List UInt8,
        strReverse (l ++ (Nat.digits base val).map digit ++ tail) l.length
            (l.length + (Nat.digits base val).length) =
          some (l ++ ((Nat.digits base val).map digit).reverse ++ tail) := by
      intro tail
      have := reverseUp_append l ((Nat.digits base val).map digit) tail
        (show _ < (l ++ (Nat.digits base val).map digit ++ tail).length + 1 by
          simp only [List.length_append]; omega)
      rwa [List.length_map] at this
    rw [if_neg hzero, hloop]
    simp only [bind, Option.bind, hnul, hreverse, Nat.add_sub_cancel_left, numeral, if_neg hzero]

theorem length_numeral_le (hbase : 1 < base) {val k : Nat} (hval : val < base ^ k) (hk : 0 < k) :
    (numeral base digit val).length ≤ k := by
  by_cases hzero : val = 0
  · rw [numeral, if_pos hzero]
    exact hk
  · rw [length_numeral_of_ne_zero digit hzero]
    exact (Nat.digits_length_le_iff hbase val).mpr hval

end

theorem length_decimal_le (val : Nat) (h : val < 2 ^ 64) : (decimal val).length ≤ 64 :=
  length_numeral_le _ (by decide) (Nat.lt_trans h (by decide)) (by decide)

theorem length_hexadecimal_le (val : Nat) (h : val < 2 ^ 64) : (hexadecimal val).length ≤ 64 :=
  length_numeral_le _ (by decide) (Nat.lt_trans h (by decide)) (by decide)

theorem length_signedDecimal_le (val : Int) (h : val.natAbs < 2 ^ 64) :
    (signedDecimal val).length ≤ 65 := by
  have hlen := length_decimal_le val.natAbs h
  unfold signedDecimal
  split
  · rw [List.length_cons]
    omega
  · omega

end Toylibc
