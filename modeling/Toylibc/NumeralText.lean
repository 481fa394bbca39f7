import Toylibc.Lib.Positional
import Toylibc.Numerals

/-!
# The text of a number

`utoa`, `xtoa` and `itoa` leave the numeral of the value and a NUL in the caller's buffer, and
touch nothing behind that (`conversions_exact`). A store outside the buffer has no result, and
`itoaChecked` has none where a signed operation overflows.
-/

namespace Toylibc

open Buffer Positional

/-- The digits of `utoa`. -/
def decimalDigits : List UInt8 :=
  ascii ['0', '1', '2', '3', '4', '5', '6', '7', '8', '9']

/-- The value is a `long`. -/
def IsLong (x : Int) : Prop := -2 ^ 63 ≤ x ∧ x < 2 ^ 63

instance (x : Int) : Decidable (IsLong x) := inferInstanceAs (Decidable (_ ∧ _))

/-- A signed result, if it does not overflow. -/
def long (x : Int) : Option Int := if IsLong x then some x else none

/-- `itoa`, with its signed operations checked for overflow. -/
def itoaChecked (val : Int) (buf : List UInt8) : Option (Nat × List UInt8) :=
  if val < 0 then do
    let buf ← store buf 0 (ch '-')
    let sum ← long (val + 1)
    let magnitude ← long (-sum)
    let (len, buf) ← utoa (wadd magnitude.toNat 1) buf 1
    some (1 + len, buf)
  else utoa val.toNat buf 0

/-- The value of a decimal numeral that may have a sign. -/
def readSigned : List UInt8 → Option Int
  | [] => none
  | c :: text =>
    if c = ch '-' then (read decimalDigits text).map fun (n : Nat) => -(n : Int)
    else (read decimalDigits (c :: text)).map fun (n : Nat) => (n : Int)

/-- `buf'` is the buffer `buf` with a text of `len` bytes at its start, among the first 32. -/
structure Converted (buf buf' : List UInt8) (len : Nat) : Prop where
  length : buf'.length = buf.length
  room : len < 32
  nul : buf'[len]? = some 0
  no_nul : (0 : UInt8) ∉ buf'.take len
  rest : buf'.drop (len + 1) = buf.drop (len + 1)

/-- The text is the numeral of the magnitude, with a sign in front for a negative value. -/
def IsSignedNumeral (val : Int) (text : List UInt8) : Prop :=
  if val < 0 then ∃ digits, text = ch '-' :: digits ∧ IsNumeral decimalDigits val.natAbs digits
  else IsNumeral decimalDigits val.natAbs text

/-! ## The numerals -/

theorem numeral_isNumeral {base : Nat} {digit : Nat → UInt8} {alphabet : List UInt8}
    (hbase : 1 < base) (hlength : alphabet.length = base) (hnodup : alphabet.Nodup)
    (hdigit : ∀ d, d < base → alphabet[d]? = some (digit d)) (hzero : alphabet[0]? = some (ch '0'))
    (val : Nat) : IsNumeral alphabet val (numeral base digit val) := by
  unfold numeral
  split
  · next hval =>
    refine ⟨List.cons_ne_nil _ _, ?_, fun _ => rfl⟩
    rw [hval, show [ch '0'] = ([0].map fun _ => ch '0').reverse from rfl,
      read_reverse_map hnodup fun d hd => List.mem_singleton.mp hd ▸ hzero, Nat.ofDigits_singleton]
  · next hval => exact isNumeral_digits hbase hlength hnodup hdigit hval

theorem decimal_isNumeral (val : Nat) : IsNumeral decimalDigits val (decimal val) :=
  numeral_isNumeral (by decide) rfl (by decide) (by decide) rfl val

theorem hexadecimal_isNumeral (val : Nat) : IsNumeral hexDigits val (hexadecimal val) :=
  numeral_isNumeral (by decide) rfl (by decide) (by decide) rfl val

/-- A numeral does not start with a sign and has no NUL. -/
theorem not_mem_numeral {alphabet text : List UInt8} {val : Nat} {c : UInt8}
    (h : IsNumeral alphabet val text) (hc : c ∉ alphabet) : c ∉ text :=
  fun hmem => hc (mem_of_read h.reads c hmem)

theorem signedDecimal_isSignedNumeral (val : Int) : IsSignedNumeral val (signedDecimal val) := by
  unfold IsSignedNumeral signedDecimal
  split
  · exact ⟨decimal val.natAbs, rfl, decimal_isNumeral val.natAbs⟩
  · exact decimal_isNumeral val.natAbs

theorem readSigned_of_isSignedNumeral {val : Int} {text : List UInt8}
    (h : IsSignedNumeral val text) : readSigned text = some val := by
  unfold IsSignedNumeral at h
  split at h
  · next hneg =>
    obtain ⟨digits, rfl, hdigits⟩ := h
    rw [readSigned, if_pos rfl, hdigits.reads, Option.map_some]
    congr 1
    omega
  · next hpos =>
    cases text with
    | nil => exact absurd rfl h.nonempty
    | cons c text =>
      have hsign : c ≠ ch '-' := fun heq =>
        not_mem_numeral h (show ch '-' ∉ decimalDigits by decide) (heq ▸ List.mem_cons_self ..)
      rw [readSigned, if_neg hsign, h.reads, Option.map_some]
      congr 1
      omega

/-! ## The conversions -/

/-- The numeral of a value below `base ^ 29` fits behind a sign. -/
theorem numToString_converted {base : Nat} (digit : Nat → UInt8) (hbase : 1 < base) {val : Nat}
    (hval : val < base ^ 29) {l r : List UInt8} (hl : l.length ≤ 1)
    (hr : 32 ≤ (l ++ r).length) (hnul : (0 : UInt8) ∉ l ++ numeral base digit val) :
    ∃ buf', numToString base digit val (l ++ r) l.length =
        some ((numeral base digit val).length, buf') ∧
      buf'.take (l.length + (numeral base digit val).length) = l ++ numeral base digit val ∧
      Converted (l ++ r) buf' (l.length + (numeral base digit val).length) := by
  have hlen := length_numeral_le digit hbase hval (by decide)
  have hval' : val < base ^ 64 :=
    Nat.lt_of_lt_of_le hval (Nat.pow_le_pow_right (by omega) (by decide))
  rw [List.length_append] at hr
  refine ⟨_, numToString_eq digit hbase hval' l r (by omega), ?_, ?_⟩
  · rw [← List.length_append, List.take_left]
  · constructor
    · simp only [List.length_append, List.length_cons, List.length_drop]
      omega
    · omega
    · rw [← List.length_append, List.getElem?_append_right (Nat.le_refl _), Nat.sub_self]
      rfl
    · rw [← List.length_append, List.take_left]
      exact hnul
    · rw [← List.length_append, ← List.drop_drop, List.drop_left, List.length_append,
        Nat.add_assoc, List.drop_append]
      simp

theorem utoa_converted {val : Nat} (hval : val < 2 ^ 64) {buf : List UInt8}
    (hbuf : 32 ≤ buf.length) : ∃ buf', utoa val buf 0 = some ((decimal val).length, buf') ∧
      buf'.take (decimal val).length = decimal val ∧ Converted buf buf' (decimal val).length := by
  obtain ⟨buf', hconv, htake, hbuf'⟩ :=
    numToString_converted (fun d => UInt8.ofNat ((ch '0').toNat + d)) (show 1 < 10 by decide)
      (Nat.lt_trans hval (by decide)) (l := []) (r := buf) (by decide) hbuf
      (not_mem_numeral (decimal_isNumeral val) (by decide))
  rw [List.length_nil, Nat.zero_add] at htake hbuf'
  exact ⟨buf', hconv, htake, hbuf'⟩

theorem xtoa_converted {val : Nat} (hval : val < 2 ^ 64) {buf : List UInt8}
    (hbuf : 32 ≤ buf.length) : ∃ buf', xtoa val buf 0 = some ((hexadecimal val).length, buf') ∧
      buf'.take (hexadecimal val).length = hexadecimal val ∧
      Converted buf buf' (hexadecimal val).length := by
  obtain ⟨buf', hconv, htake, hbuf'⟩ :=
    numToString_converted (fun d => hexDigits.getD d 0) (show 1 < 16 by decide)
      (Nat.lt_trans hval (by decide)) (l := []) (r := buf) (by decide) hbuf
      (not_mem_numeral (hexadecimal_isNumeral val) (by decide))
  rw [List.length_nil, Nat.zero_add] at htake hbuf'
  exact ⟨buf', hconv, htake, hbuf'⟩

/-- No signed operation of `itoa` overflows, at `LONG_MIN` neither. -/
theorem itoaChecked_eq {val : Int} (hval : IsLong val) (buf : List UInt8) :
    itoaChecked val buf = itoa val buf := by
  unfold itoaChecked itoa
  split
  · next hneg =>
    obtain ⟨hlo, hhi⟩ := hval
    have hsum : long (val + 1) = some (val + 1) := if_pos ⟨by omega, by omega⟩
    have hmagnitude : long (-(val + 1)) = some (-(val + 1)) := if_pos ⟨by omega, by omega⟩
    simp only [hsum, hmagnitude, Option.bind_eq_bind, Option.bind_some]
  · rfl

/-- `itoa` is exact for every `long`, the lowest included. -/
theorem itoa_converted {val : Int} (hval : IsLong val) {buf : List UInt8}
    (hbuf : 32 ≤ buf.length) : ∃ buf', itoa val buf = some ((signedDecimal val).length, buf') ∧
      buf'.take (signedDecimal val).length = signedDecimal val ∧
      Converted buf buf' (signedDecimal val).length := by
  obtain ⟨hlo, hhi⟩ := hval
  unfold itoa signedDecimal
  by_cases hneg : val < 0
  · have habs : wadd (-(val + 1)).toNat 1 = val.natAbs := by
      rw [wadd_eq (by omega)]
      omega
    cases buf with
    | nil => exact absurd hbuf (by decide)
    | cons y r =>
      have hfirst : store (y :: r) 0 (ch '-') = some ([ch '-'] ++ r) := rfl
      obtain ⟨buf', hconv, htake, hbuf'⟩ :=
        numToString_converted (fun d => UInt8.ofNat ((ch '0').toNat + d)) (show 1 < 10 by decide)
          (Nat.lt_trans (show val.natAbs < 2 ^ 64 by omega) (by decide)) (l := [ch '-']) (r := r)
          (by decide) hbuf (List.not_mem_cons_of_ne_of_not_mem (by decide)
            (not_mem_numeral (decimal_isNumeral val.natAbs) (by decide)))
      rw [if_pos hneg, if_pos hneg, hfirst]
      simp only [Option.bind_eq_bind, Option.bind_some, habs, utoa, List.length_cons]
      rw [show (1 : Nat) = [ch '-'].length from rfl, hconv, Nat.add_comm (List.length _)]
      -- the sign takes the place of the first byte, which is not part of the rest
      exact ⟨buf', rfl, htake, ⟨hbuf'.length, hbuf'.room, hbuf'.nul, hbuf'.no_nul, hbuf'.rest⟩⟩
  · rw [if_neg hneg, if_neg hneg, show val.toNat = val.natAbs by omega]
    exact utoa_converted (by omega) hbuf

/-! ## Into the array of `toylibc_printf` -/

theorem utoa_numBuf (val : Nat) (h : val < 2 ^ 64) :
    ∃ buf, utoa val numBuf 0 = some ((decimal val).length, buf) ∧
      buf.take (decimal val).length = decimal val := by
  obtain ⟨buf, hconv, htake, -⟩ := utoa_converted h (show 32 ≤ numBuf.length by decide)
  exact ⟨buf, hconv, htake⟩

theorem xtoa_numBuf (val : Nat) (h : val < 2 ^ 64) :
    ∃ buf, xtoa val numBuf 0 = some ((hexadecimal val).length, buf) ∧
      buf.take (hexadecimal val).length = hexadecimal val := by
  obtain ⟨buf, hconv, htake, -⟩ := xtoa_converted h (show 32 ≤ numBuf.length by decide)
  exact ⟨buf, hconv, htake⟩

theorem itoa_numBuf (val : Int) (hlo : -2 ^ 63 ≤ val) (hhi : val < 2 ^ 63) :
    ∃ buf, itoa val numBuf = some ((signedDecimal val).length, buf) ∧
      buf.take (signedDecimal val).length = signedDecimal val := by
  obtain ⟨buf, hconv, htake, -⟩ := itoa_converted ⟨hlo, hhi⟩ (show 32 ≤ numBuf.length by decide)
  exact ⟨buf, hconv, htake⟩

/-! ## Every value -/

/-- The conversions of every 64-bit value. -/
theorem conversions_exact :
    (∀ val, val < 2 ^ 64 → ∀ buf : List UInt8, 32 ≤ buf.length →
      ∃ len buf', utoa val buf 0 = some (len, buf') ∧ Converted buf buf' len ∧
        IsNumeral decimalDigits val (buf'.take len)) ∧
    (∀ val, val < 2 ^ 64 → ∀ buf : List UInt8, 32 ≤ buf.length →
      ∃ len buf', xtoa val buf 0 = some (len, buf') ∧ Converted buf buf' len ∧
        IsNumeral hexDigits val (buf'.take len)) ∧
    (∀ val, IsLong val → ∀ buf : List UInt8, 32 ≤ buf.length →
      ∃ len buf', itoa val buf = some (len, buf') ∧ itoaChecked val buf = some (len, buf') ∧
        Converted buf buf' len ∧ IsSignedNumeral val (buf'.take len) ∧
        readSigned (buf'.take len) = some val) := by
  refine ⟨fun val hval buf hbuf => ?_, fun val hval buf hbuf => ?_, fun val hval buf hbuf => ?_⟩
  · obtain ⟨buf', hconv, htake, hbuf'⟩ := utoa_converted hval hbuf
    exact ⟨_, buf', hconv, hbuf', by rw [htake]; exact decimal_isNumeral val⟩
  · obtain ⟨buf', hconv, htake, hbuf'⟩ := xtoa_converted hval hbuf
    exact ⟨_, buf', hconv, hbuf', by rw [htake]; exact hexadecimal_isNumeral val⟩
  · obtain ⟨buf', hconv, htake, hbuf'⟩ := itoa_converted hval hbuf
    have hsigned : IsSignedNumeral val (buf'.take (signedDecimal val).length) := by
      rw [htake]
      exact signedDecimal_isSignedNumeral val
    exact ⟨_, buf', hconv, (itoaChecked_eq hval buf).trans hconv, hbuf', hsigned,
      readSigned_of_isSignedNumeral hsigned⟩

/-- The lowest `long` is printed, and read back. -/
theorem conversions_exact_lowest : ∃ len buf', itoa (-2 ^ 63) numBuf = some (len, buf') ∧
    readSigned (buf'.take len) = some (-2 ^ 63) := by
  obtain ⟨len, buf', hconv, -, -, -, hread⟩ :=
    conversions_exact.2.2 (-2 ^ 63) (by decide) numBuf (by decide)
  exact ⟨len, buf', hconv, hread⟩

end Toylibc
