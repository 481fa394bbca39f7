import Toylibc.StringOrder

/-!
# Copies of strings

`toylibc_strcpy` stops at a NUL that it reads from the memory it writes. While the destination
starts at or below the source, or behind its NUL, no store reaches a byte that is still to be
read, so the loop is a forward copy of the string with its NUL (`strcpyFrom_eq`).
-/

namespace Toylibc

open ByteMemory

variable {m m' : Mem} {a b : Nat} {s : List UInt8}

/-- Equal bytes are equal strings, the NUL included. -/
theorem StringAt.congr (h : StringAt m a s)
    (hsame : ∀ i, i < s.length + 1 → loadByte m' (b + i) = loadByte m (a + i)) :
    StringAt m' b s := by
  induction s generalizing a b with
  | nil => exact (hsame 0 Nat.one_pos).trans h
  | cons x s ih =>
    obtain ⟨hx, hx0, hrest⟩ := h
    refine ⟨(hsame 0 (Nat.succ_pos _)).trans hx, hx0, ih hrest fun i hi => ?_⟩
    have hnext := hsame (i + 1) (Nat.succ_lt_succ hi)
    rwa [show b + (i + 1) = b + 1 + i by omega, show a + (i + 1) = a + 1 + i by omega] at hnext

/-- A string outside the changed range stays. -/
theorem StringAt.frame {lo hi : Nat} (h : StringAt m a s) (hframe : SameOutside m m' lo hi)
    (htop : a + s.length < space) (hout : a + s.length < lo ∨ hi ≤ a) : StringAt m' a s :=
  h.congr fun i hi => hframe (a + i) (by omega) (by omega)

/-- A copy of the bytes up to the NUL is a copy of the string. -/
theorem StringAt.copied (h : StringAt m a s) (hcopy : Copied m m' b a (s.length + 1)) :
    StringAt m' b s :=
  h.congr hcopy.bytes

/-- Over a string, the loop is the forward copy of its bytes and the NUL. -/
theorem strcpyFrom_eq {dest src i : Nat} (hs : StringAt m (src + i) s)
    (hsrc : src + i + s.length < space) (hdest : dest + i + s.length < space)
    (hapart : dest ≤ src ∨ src + i + s.length < dest + i) {fuel : Nat} (hfuel : s.length < fuel) :
    strcpyFrom m (dest + i) (src + i) fuel = some (copyUp m dest src i (s.length + 1)) := by
  induction s generalizing m i fuel with
  | nil =>
    cases fuel with
    | zero => exact absurd hfuel (Nat.not_lt_zero _)
    | succ fuel =>
      have hend : loadByte m (src + i) = 0 := hs
      rw [strcpyFrom, if_neg (not_not.mpr hend), List.length_nil, copyUp, hend]
      rfl
  | cons x s ih =>
    cases fuel with
    | zero => exact absurd hfuel (Nat.not_lt_zero _)
    | succ fuel =>
      obtain ⟨hx, hx0, hrest⟩ := hs
      rw [List.length_cons] at hsrc hdest hapart hfuel ⊢
      -- the store is below what is still to be read, or behind it
      have hstore := storeByte_sameOutside m (a := dest + i) (by omega) (loadByte m (src + i))
      have hkept := hrest.frame hstore (by omega) (by omega)
      rw [strcpyFrom, if_pos (hx.symm ▸ hx0), copyUp]
      exact ih (i := i + 1) hkept (by omega) (by omega) (by omega) (by omega)

/-- `toylibc_strcpy` copies a string to the left, or to memory behind it: it returns, with the
string at the destination, and writes nothing else. -/
theorem strcpy_copies {dest src : Nat} (hs : StringAt m src s) (hsrc : src + s.length < space)
    (hdest : dest + s.length < space) (hapart : dest ≤ src ∨ src + s.length < dest) :
    ∃ m', toylibcStrcpy m dest src = some (m', dest) ∧ Copied m m' dest src (s.length + 1) ∧
      toylibcStrlen m' dest = some s.length ∧
      ∀ c, StringAt m c s → c + s.length < space →
        c + s.length < dest ∨ dest + s.length < c → toylibcStrcmpAt m' dest c = some 0 := by
  have hcopy : Copied m (copyUp m dest src 0 (s.length + 1)) dest src (s.length + 1) :=
    copyUp_copied m (by omega) (by omega) (by omega)
  have hcopied := hs.copied hcopy
  refine ⟨copyUp m dest src 0 (s.length + 1), ?_, hcopy, toylibcStrlen_eq hcopied, ?_⟩
  · have hloop := strcpyFrom_eq (i := 0) hs hsrc hdest hapart hs.length_lt
    rw [Nat.add_zero, Nat.add_zero] at hloop
    rw [toylibcStrcpy, hloop]
  · intro c hc htop hout
    have hother := hc.frame hcopy.frame htop (by omega)
    rw [toylibcStrcmpAt_eq hcopied hother, (toylibcStrcmp_eq_zero hs.ne_zero hs.ne_zero).mpr rfl]

/-! ## Copies into an array -/

/-- The bytes of the array `buf` are at the address `base`. -/
def ArrayAt (m : Mem) (base : Nat) (buf : List UInt8) : Prop :=
  ∀ i c, buf[i]? = some c → loadByte m (base + i) = c

theorem ArrayAt.store {base off : Nat} {buf buf' : List UInt8} {c : UInt8}
    (h : ArrayAt m base buf) (htop : base + buf.length ≤ space)
    (hstore : Buffer.store buf off c = some buf') :
    ArrayAt (storeByte m (base + off) c) base buf' := by
  obtain ⟨hoff, rfl⟩ := Buffer.store_eq_some hstore
  intro i x hx
  obtain ⟨hi, -⟩ := List.getElem?_eq_some_iff.mp hx
  rw [List.length_set] at hi
  rcases Nat.lt_trichotomy i off with hlt | rfl | hgt
  · rw [List.getElem?_set_ne (by omega)] at hx
    rw [loadByte_storeByte_ne m (by omega) (by omega) (by omega)]
    exact h i x hx
  · rw [List.getElem?_set_self hi, Option.some.injEq] at hx
    rw [loadByte_storeByte_same m (by omega), hx]
  · rw [List.getElem?_set_ne (by omega)] at hx
    rw [loadByte_storeByte_ne m (by omega) (by omega) (by omega)]
    exact h i x hx

/-- The loop in memory does to the array what the function of the array does. -/
theorem strcpyFrom_refines {base off src : Nat} {buf buf' : List UInt8} (hs : StringAt m src s)
    (hsrc : src + s.length < space) (harray : ArrayAt m base buf)
    (htop : base + buf.length ≤ space)
    (hapart : base + buf.length ≤ src ∨ src + s.length < base)
    (hcopy : toylibcStrcpyTo buf off s = some buf') {fuel : Nat} (hfuel : s.length < fuel) :
    ∃ m', strcpyFrom m (base + off) src fuel = some m' ∧ ArrayAt m' base buf' ∧
      SameOutside m m' base (base + buf.length) := by
  induction s generalizing m off buf src fuel with
  | nil =>
    cases fuel with
    | zero => exact absurd hfuel (Nat.not_lt_zero _)
    | succ fuel =>
      obtain ⟨hoff, -⟩ := Buffer.store_eq_some hcopy
      have hframe := storeByte_sameOutside m (a := base + off) (by omega) 0
      exact ⟨_, if_neg (not_not.mpr hs), harray.store htop hcopy, hframe.mono (by omega) (by omega)⟩
  | cons x s ih =>
    cases fuel with
    | zero => exact absurd hfuel (Nat.not_lt_zero _)
    | succ fuel =>
      obtain ⟨hx, hx0, hrest⟩ := hs
      rw [List.length_cons] at hsrc hapart hfuel
      rw [toylibcStrcpyTo] at hcopy
      split at hcopy
      · cases hcopy
      · next buf1 hstore =>
        obtain ⟨hoff, -⟩ := Buffer.store_eq_some hstore
        have hlen := Buffer.length_store hstore
        have hframe := (storeByte_sameOutside m (a := base + off) (by omega) x).mono
          (show base ≤ base + off by omega) (show base + off + 1 ≤ base + buf.length by omega)
        obtain ⟨m', hloop, harray', hframe'⟩ := ih
          (hrest.frame hframe (by omega) (by omega)) (by omega) (harray.store htop hstore)
          (by omega) (by omega) hcopy (Nat.lt_of_succ_lt_succ hfuel)
        rw [hlen] at hframe'
        refine ⟨m', ?_, harray', hframe.trans hframe'⟩
        rw [strcpyFrom, if_pos (hx.symm ▸ hx0), hx]
        exact hloop

/-- `toylibcStrcpyTo` is `toylibc_strcpy` to an array, from a string that lies apart from it. -/
theorem strcpyTo_refines {base off src : Nat} {buf buf' : List UInt8} (hs : StringAt m src s)
    (hsrc : src + s.length < space) (harray : ArrayAt m base buf)
    (htop : base + buf.length ≤ space)
    (hapart : base + buf.length ≤ src ∨ src + s.length < base)
    (hcopy : toylibcStrcpyTo buf off s = some buf') :
    ∃ m', toylibcStrcpy m (base + off) src = some (m', base + off) ∧ ArrayAt m' base buf' ∧
      SameOutside m m' base (base + buf.length) := by
  obtain ⟨m', hloop, harray', hframe⟩ :=
    strcpyFrom_refines hs hsrc harray htop hapart hcopy hs.length_lt
  refine ⟨m', ?_, harray', hframe⟩
  rw [toylibcStrcpy, hloop]

/-- A string that fits is written behind the first bytes, with its NUL. -/
theorem strcpyTo_append (l : List UInt8) {r : List UInt8} (h : s.length < r.length) :
    toylibcStrcpyTo (l ++ r) l.length s = some (l ++ (s ++ 0 :: r.drop (s.length + 1))) := by
  induction s generalizing l r with
  | nil =>
    cases r with
    | nil => exact absurd h (Nat.not_lt_zero _)
    | cons y r => exact Buffer.store_append_cons l r 0 y
  | cons x s ih =>
    cases r with
    | nil => exact absurd h (Nat.not_lt_zero _)
    | cons y r =>
      have hrest := ih (l ++ [x]) (Nat.lt_of_succ_lt_succ h)
      rw [List.length_append, List.length_singleton, List.append_assoc, List.append_assoc,
        List.singleton_append, List.singleton_append] at hrest
      rw [toylibcStrcpyTo, Buffer.store_append_cons]
      exact hrest

theorem strcpyTo_overflow {off : Nat} {buf : List UInt8} (h : buf.length ≤ off + s.length) :
    toylibcStrcpyTo buf off s = none := by
  induction s generalizing off buf with
  | nil => exact if_neg (Nat.not_lt_of_le h)
  | cons x s ih =>
    rw [toylibcStrcpyTo]
    split
    · rfl
    · next buf1 hstore =>
      have hlen := Buffer.length_store hstore
      rw [List.length_cons] at h
      exact ih (by omega)

/-! ### A copy of a string over itself -/

/-- The string `xab` at address 8. -/
def shiftedString : Mem :=
  ⟨fun x => if x = 8 then 0x78 else if x = 9 then 0x61 else if x = 10 then 0x62 else 0, []⟩

/-- `strcpy(s, s + 1)` drops the first byte of `s`, over the string itself. -/
theorem shiftedString_copied :
    ∃ m', toylibcStrcpy shiftedString 8 9 = some (m', 8) ∧ toylibcStrlen m' 8 = some 2 := by
  have hsource : StringAt shiftedString 9 [0x61, 0x62] := ⟨rfl, by decide, rfl, by decide, rfl⟩
  obtain ⟨m', hcall, -, hlen, -⟩ :=
    strcpy_copies hsource (by decide) (by decide) (.inl (by decide : 8 ≤ 9))
  exact ⟨m', hcall, hlen⟩

end Toylibc
