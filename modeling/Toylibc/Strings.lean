import Toylibc.Lib.Buffer
import Toylibc.Lib.ByteMemory

/-!
# `string.c`

The byte loops of `string.c` over a byte memory. Each function returns the memory
it leaves and its result. `toylibc_memmove` copies whatever the two ranges have in common,
and `toylibc_memcpy` does so when it does not move bytes up within the source
(`memmove_copies`).

The scans for a NUL run on fuel: after `2 ^ 64` bytes a scan has seen every address, so one that
outlives its fuel never ends. The loop of `toylibc_strcpy` stores only bytes that it has read and
that are not NUL, so the same holds of it. A result `none` means that the call does not return.
-/

namespace Toylibc

open ByteMemory

/-- `toylibc_memcpy`: bytewise, lowest address first. -/
def toylibcMemcpy (m : Mem) (dest src n : Nat) : Mem × Nat :=
  (copyUp m dest src 0 n, dest)

/-- `toylibc_memmove`: upwards when the source is above, downwards when it is below. -/
def toylibcMemmove (m : Mem) (dest src n : Nat) : Mem × Nat :=
  if dest < src then (copyUp m dest src 0 n, dest)
  else if src < dest then (copyDown m dest src n, dest)
  else (m, dest)

/-- `toylibc_memset`: every byte becomes `(unsigned char)c`. -/
def toylibcMemset (m : Mem) (dest : Nat) (c : Int) (n : Nat) : Mem × Nat :=
  (fillUp m dest (UInt8.ofInt c) 0 n, dest)

/-- The loop of `toylibc_strlen` at `s`, after `n` bytes. -/
def strlenFrom (m : Mem) (s n : Nat) : Nat → Option Nat
  | 0 => none
  | fuel + 1 => if loadByte m s ≠ 0 then strlenFrom m (s + 1) (n + 1) fuel else some n

/-- `toylibc_strlen`. -/
def toylibcStrlen (m : Mem) (s : Nat) : Option Nat := strlenFrom m s 0 space

/-- `(int)(unsigned char)x - (int)(unsigned char)y`. -/
def byteDiff (x y : UInt8) : Int := x.toNat - y.toNat

/-- The loop of `toylibc_memcmp` from the index `i` on. -/
def memcmpFrom (m : Mem) (a b i : Nat) : Nat → Int
  | 0 => 0
  | n + 1 =>
    if loadByte m (a + i) ≠ loadByte m (b + i) then
      byteDiff (loadByte m (a + i)) (loadByte m (b + i))
    else memcmpFrom m a b (i + 1) n

/-- `toylibc_memcmp`. -/
def toylibcMemcmp (m : Mem) (a b n : Nat) : Int := memcmpFrom m a b 0 n

/-- The loop of `toylibc_strcmp`. -/
def strcmpFrom (m : Mem) (a b : Nat) : Nat → Option Int
  | 0 => none
  | fuel + 1 =>
    if loadByte m a ≠ 0 ∧ loadByte m b ≠ 0 then
      if loadByte m a ≠ loadByte m b then some (byteDiff (loadByte m a) (loadByte m b))
      else strcmpFrom m (a + 1) (b + 1) fuel
    else some (byteDiff (loadByte m a) (loadByte m b))

/-- `toylibc_strcmp` of the strings at two addresses. -/
def toylibcStrcmpAt (m : Mem) (a b : Nat) : Option Int := strcmpFrom m a b space

/-- The loop of `toylibc_strcpy`, and the NUL that it ends with. -/
def strcpyFrom (m : Mem) (d src : Nat) : Nat → Option Mem
  | 0 => none
  | fuel + 1 =>
    if loadByte m src ≠ 0 then strcpyFrom (storeByte m d (loadByte m src)) (d + 1) (src + 1) fuel
    else some (storeByte m d 0)

/-- `toylibc_strcpy`. -/
def toylibcStrcpy (m : Mem) (dest src : Nat) : Option (Mem × Nat) :=
  match strcpyFrom m dest src space with
  | none => none
  | some m => some (m, dest)

/-- `toylibc_strcpy` of a string, given by its bytes before the NUL, to an index of an array. -/
def toylibcStrcpyTo (buf : List UInt8) (off : Nat) : List UInt8 → Option (List UInt8)
  | [] => Buffer.store buf off 0
  | c :: s =>
    match Buffer.store buf off c with
    | none => none
    | some buf => toylibcStrcpyTo buf (off + 1) s

/-- `toylibc_strcmp` of two strings, given by their bytes before the NUL. -/
def toylibcStrcmp : List UInt8 → List UInt8 → Int
  | x :: a, y :: b => if x ≠ y then x.toNat - y.toNat else toylibcStrcmp a b
  | a, b => (a.headD 0).toNat - (b.headD 0).toNat

/-! ## Copies -/

/-- A forward copy is right when the destination starts below the source, or apart from it. -/
theorem memcpy_copied (m : Mem) {dest src n : Nat} (hdest : dest + n ≤ space)
    (hsrc : src + n ≤ space) (h : dest ≤ src ∨ src + n ≤ dest) :
    Copied m (toylibcMemcpy m dest src n).1 dest src n :=
  copyUp_copied m hdest hsrc h

/-- A forward copy writes the destination only, whatever it has in common with the source. -/
theorem memcpy_sameOutside (m : Mem) {dest n : Nat} (src : Nat) (hdest : dest + n ≤ space) :
    SameOutside m (toylibcMemcpy m dest src n).1 dest (dest + n) :=
  copyUp_sameOutside m dest src 0 n hdest

/-- A copy into a range that was written before. -/
theorem memcpy_sameOutside_trans {m m' : Mem} {dest n x y : Nat} (h : SameOutside m m' x y)
    (src : Nat) (hlo : x ≤ dest) (hhi : dest + n ≤ y) (htop : y ≤ space) :
    SameOutside m (toylibcMemcpy m' dest src n).1 x y :=
  h.trans ((memcpy_sameOutside m' src (by omega)).mono hlo hhi)

/-- The direction is chosen so that no byte is overwritten before it is read. -/
theorem memmove_copied (m : Mem) {dest src n : Nat} (hdest : dest + n ≤ space)
    (hsrc : src + n ≤ space) : Copied m (toylibcMemmove m dest src n).1 dest src n := by
  unfold toylibcMemmove
  split
  · next hbelow => exact copyUp_copied m hdest hsrc (.inl (Nat.le_of_lt hbelow))
  · split
    · next habove => exact copyDown_copied m hdest hsrc (.inl (Nat.le_of_lt habove))
    · obtain rfl : dest = src := by omega
      exact Copied.refl m dest n

theorem memmove_result (m : Mem) (dest src n : Nat) : (toylibcMemmove m dest src n).2 = dest := by
  unfold toylibcMemmove
  split_ifs <;> rfl

/-- `toylibc_memmove` copies overlapping ranges, and `toylibc_memcpy` leaves the same memory
unless it moves bytes up within the source. -/
theorem memmove_copies (m : Mem) {dest src n : Nat} (hdest : dest + n ≤ space)
    (hsrc : src + n ≤ space) :
    (∀ i, i < n → loadByte (toylibcMemmove m dest src n).1 (dest + i) = loadByte m (src + i)) ∧
      SameOutside m (toylibcMemmove m dest src n).1 dest (dest + n) ∧
      (toylibcMemmove m dest src n).2 = dest ∧
      (dest + n ≤ src ∨ src + n ≤ dest ∨ dest ≤ src → ∀ x, x < space →
        loadByte (toylibcMemcpy m dest src n).1 x =
          loadByte (toylibcMemmove m dest src n).1 x) := by
  have hmove := memmove_copied m hdest hsrc
  refine ⟨hmove.bytes, hmove.frame, memmove_result m dest src n, fun hapart x hx => ?_⟩
  exact (memcpy_copied m hdest hsrc (by omega)).unique hmove hx

/-- Three bytes are moved up by one. -/
theorem memmove_copies_overlap :
    loadByte (toylibcMemmove ⟨UInt8.ofNat, []⟩ 101 100 3).1 103 = 102 :=
  (memmove_copies ⟨UInt8.ofNat, []⟩ (show 101 + 3 ≤ space by decide) (by decide)).1 2 (by decide)

end Toylibc
