import Mathlib.Tactic.Common
import Mathlib.Tactic.Ring

/-!
# Byte-addressed memory

A flat memory of bytes with 64-bit addresses. Addresses are natural numbers that
wrap at `2 ^ 64`. A memory also keeps the list of the addresses that were stored
to, so that "writes nothing" is a statement about a memory and not only about the
values in it.

* `loadByte`, `storeByte`: one byte.
* `loadLE`, `storeLE`: a little-endian word of any number of bytes.
* `copyUp`, `fillUp`: the byte loops that copy or fill a range, lowest byte first.
* `copyDown`: the loop that copies a range, highest byte first.
* `SameOutside m m' lo hi`: the frame. The two memories agree outside `[lo, hi)`.
* `Copied m m' d s n`: what a copy owes, whichever way it goes.
-/

namespace ByteMemory

/-- The number of addresses. -/
abbrev space : Nat := 2 ^ 64

/-- The bytes of the memory, and the addresses stored to so far, the last first. -/
structure Mem where
  byte : Nat → UInt8
  written : List Nat

def loadByte (m : Mem) (a : Nat) : UInt8 := m.byte (a % space)

def storeByte (m : Mem) (a : Nat) (b : UInt8) : Mem :=
  { byte := fun x => if x = a % space then b else m.byte x
    written := a % space :: m.written }

/-- The little-endian word of `n` bytes at `a`. -/
def loadLE (m : Mem) : Nat → Nat → Nat
  | 0, _ => 0
  | n + 1, a => (loadByte m a).toNat + 256 * loadLE m n (a + 1)

/-- Store the low `n` bytes of `v` at `a`, little-endian. -/
def storeLE (m : Mem) : Nat → Nat → Nat → Mem
  | 0, _, _ => m
  | n + 1, a, v => storeLE (storeByte m a (UInt8.ofNat v)) n (a + 1) (v / 256)

/-- `for (i = 0; i < n; i++) d[i] = s[i]`, with the first index `i` given. -/
def copyUp (m : Mem) (d s i : Nat) : Nat → Mem
  | 0 => m
  | n + 1 => copyUp (storeByte m (d + i) (loadByte m (s + i))) d s (i + 1) n

/-- `for (i = n; i > 0; i--) d[i - 1] = s[i - 1]`. -/
def copyDown (m : Mem) (d s : Nat) : Nat → Mem
  | 0 => m
  | n + 1 => copyDown (storeByte m (d + n) (loadByte m (s + n))) d s n

/-- `for (i = 0; i < n; i++) d[i] = b`, with the first index `i` given. -/
def fillUp (m : Mem) (d : Nat) (b : UInt8) (i : Nat) : Nat → Mem
  | 0 => m
  | n + 1 => fillUp (storeByte m (d + i) b) d b (i + 1) n

/-- The two memories hold the same bytes outside `[lo, hi)`. -/
def SameOutside (m m' : Mem) (lo hi : Nat) : Prop :=
  ∀ x, x < space → x < lo ∨ hi ≤ x → loadByte m' x = loadByte m x

/-- `[d, d + n)` holds what `[s, s + n)` held, and nothing else changed. -/
structure Copied (m m' : Mem) (d s n : Nat) : Prop where
  bytes : ∀ i, i < n → loadByte m' (d + i) = loadByte m (s + i)
  frame : SameOutside m m' d (d + n)

/-! ## One byte -/

theorem loadByte_storeByte (m : Mem) {a x : Nat} (ha : a < space) (hx : x < space) (b : UInt8) :
    loadByte (storeByte m a b) x = if x = a then b else loadByte m x := by
  simp only [loadByte, storeByte, Nat.mod_eq_of_lt ha, Nat.mod_eq_of_lt hx]

theorem loadByte_storeByte_same (m : Mem) {a : Nat} (ha : a < space) (b : UInt8) :
    loadByte (storeByte m a b) a = b := by
  rw [loadByte_storeByte m ha ha, if_pos rfl]

theorem loadByte_storeByte_ne (m : Mem) {a x : Nat} (ha : a < space) (hx : x < space)
    (hne : x ≠ a) (b : UInt8) : loadByte (storeByte m a b) x = loadByte m x := by
  rw [loadByte_storeByte m ha hx, if_neg hne]

/-! ## Frames -/

theorem SameOutside.refl (m : Mem) (lo hi : Nat) : SameOutside m m lo hi :=
  fun _ _ _ => rfl

theorem SameOutside.trans {m m' m'' : Mem} {lo hi : Nat} (h : SameOutside m m' lo hi)
    (h' : SameOutside m' m'' lo hi) : SameOutside m m'' lo hi :=
  fun x hx hout => (h' x hx hout).trans (h x hx hout)

theorem SameOutside.mono {m m' : Mem} {lo hi lo' hi' : Nat} (h : SameOutside m m' lo hi)
    (hlo : lo' ≤ lo) (hhi : hi ≤ hi') : SameOutside m m' lo' hi' :=
  fun x hx hout => h x hx (by omega)

theorem storeByte_sameOutside (m : Mem) {a : Nat} (ha : a < space) (b : UInt8) :
    SameOutside m (storeByte m a b) a (a + 1) :=
  fun x hx hout => loadByte_storeByte_ne m ha hx (by omega) b

/-- A word store changes only the bytes of the word. -/
theorem storeLE_sameOutside (m : Mem) (n a v : Nat) (h : a + n ≤ space) :
    SameOutside m (storeLE m n a v) a (a + n) := by
  induction n generalizing m a v with
  | zero => exact SameOutside.refl m _ _
  | succ n ih =>
    have hfirst := storeByte_sameOutside m (a := a) (by omega) (UInt8.ofNat v)
    have hrest := ih (storeByte m a (UInt8.ofNat v)) (a + 1) (v / 256) (by omega)
    exact (hfirst.mono (Nat.le_refl _) (by omega)).trans (hrest.mono (by omega) (by omega))

/-- A copy changes only the destination. -/
theorem copyUp_sameOutside (m : Mem) (d s i n : Nat) (h : d + i + n ≤ space) :
    SameOutside m (copyUp m d s i n) (d + i) (d + i + n) := by
  induction n generalizing m i with
  | zero => exact SameOutside.refl m _ _
  | succ n ih =>
    have hfirst := storeByte_sameOutside m (a := d + i) (by omega) (loadByte m (s + i))
    have hrest := ih (storeByte m (d + i) (loadByte m (s + i))) (i + 1) (by omega)
    exact (hfirst.mono (Nat.le_refl _) (by omega)).trans (hrest.mono (by omega) (by omega))

/-- A copy downwards changes only the destination. -/
theorem copyDown_sameOutside (m : Mem) (d s n : Nat) (h : d + n ≤ space) :
    SameOutside m (copyDown m d s n) d (d + n) := by
  induction n generalizing m with
  | zero => exact SameOutside.refl m _ _
  | succ n ih =>
    have hlast := storeByte_sameOutside m (a := d + n) (by omega) (loadByte m (s + n))
    have hrest := ih (storeByte m (d + n) (loadByte m (s + n))) (by omega)
    exact (hlast.mono (by omega) (by omega)).trans (hrest.mono (Nat.le_refl _) (by omega))

/-- A fill changes only the destination. -/
theorem fillUp_sameOutside (m : Mem) (d : Nat) (b : UInt8) (i n : Nat) (h : d + i + n ≤ space) :
    SameOutside m (fillUp m d b i n) (d + i) (d + i + n) := by
  induction n generalizing m i with
  | zero => exact SameOutside.refl m _ _
  | succ n ih =>
    have hfirst := storeByte_sameOutside m (a := d + i) (by omega) b
    have hrest := ih (storeByte m (d + i) b) (i + 1) (by omega)
    exact (hfirst.mono (Nat.le_refl _) (by omega)).trans (hrest.mono (by omega) (by omega))

theorem loadByte_fillUp (m : Mem) {d i n : Nat} (b : UInt8) (h : d + i + n ≤ space) :
    ∀ j, j < n → loadByte (fillUp m d b i n) (d + i + j) = b := by
  induction n generalizing m i with
  | zero => exact fun j hj => absurd hj (Nat.not_lt_zero j)
  | succ n ih =>
    intro j hj
    have hframe := fillUp_sameOutside (storeByte m (d + i) b) d b (i + 1) n (by omega)
    rw [fillUp]
    cases j with
    | zero =>
      exact (hframe (d + i) (by omega) (by omega)).trans (loadByte_storeByte_same m (by omega) b)
    | succ j =>
      have hload := ih (storeByte m (d + i) b) (i := i + 1) (by omega) j (by omega)
      rwa [show d + (i + 1) + j = d + i + (j + 1) by omega] at hload

/-! ## Copies of overlapping ranges -/

/-- A copy upwards stays ahead of its own stores when it moves bytes down, or to a range that
does not meet the source. -/
theorem loadByte_copyUp (m : Mem) {d s i n : Nat} (hd : d + i + n ≤ space) (hs : s + i + n ≤ space)
    (h : d ≤ s ∨ s + i + n ≤ d + i) :
    ∀ j, j < n → loadByte (copyUp m d s i n) (d + i + j) = loadByte m (s + i + j) := by
  induction n generalizing m i with
  | zero => exact fun j hj => absurd hj (Nat.not_lt_zero j)
  | succ n ih =>
    intro j hj
    have hfirst := storeByte_sameOutside m (a := d + i) (by omega) (loadByte m (s + i))
    have hrest := ih (storeByte m (d + i) (loadByte m (s + i))) (i := i + 1) (by omega) (by omega)
      (by omega)
    have hframe := copyUp_sameOutside (storeByte m (d + i) (loadByte m (s + i))) d s (i + 1) n
      (by omega)
    rw [copyUp]
    cases j with
    | zero =>
      -- the later stores are above the first one
      exact (hframe (d + i) (by omega) (by omega)).trans (loadByte_storeByte_same m (by omega) _)
    | succ j =>
      have hload := hrest j (by omega)
      rw [show d + (i + 1) + j = d + i + (j + 1) by omega,
        show s + (i + 1) + j = s + i + (j + 1) by omega] at hload
      exact hload.trans (hfirst _ (by omega) (by omega))

/-- A copy downwards stays ahead of its own stores when it moves bytes up, or to a range that
does not meet the source. -/
theorem loadByte_copyDown (m : Mem) {d s n : Nat} (hd : d + n ≤ space) (hs : s + n ≤ space)
    (h : s ≤ d ∨ d + n ≤ s) :
    ∀ j, j < n → loadByte (copyDown m d s n) (d + j) = loadByte m (s + j) := by
  induction n generalizing m with
  | zero => exact fun j hj => absurd hj (Nat.not_lt_zero j)
  | succ n ih =>
    intro j hj
    have hlast := storeByte_sameOutside m (a := d + n) (by omega) (loadByte m (s + n))
    have hrest := ih (storeByte m (d + n) (loadByte m (s + n))) (by omega) (by omega) (by omega)
    have hframe := copyDown_sameOutside (storeByte m (d + n) (loadByte m (s + n))) d s n (by omega)
    rw [copyDown]
    rcases Nat.lt_succ_iff_lt_or_eq.mp hj with hlt | rfl
    · exact (hrest j hlt).trans (hlast _ (by omega) (by omega))
    · -- the later stores are below the first one
      exact (hframe (d + j) (by omega) (by omega)).trans (loadByte_storeByte_same m (by omega) _)

theorem copyUp_copied (m : Mem) {d s n : Nat} (hd : d + n ≤ space) (hs : s + n ≤ space)
    (h : d ≤ s ∨ s + n ≤ d) : Copied m (copyUp m d s 0 n) d s n where
  bytes := loadByte_copyUp m (i := 0) hd hs h
  frame := copyUp_sameOutside m d s 0 n hd

theorem copyDown_copied (m : Mem) {d s n : Nat} (hd : d + n ≤ space) (hs : s + n ≤ space)
    (h : s ≤ d ∨ d + n ≤ s) : Copied m (copyDown m d s n) d s n where
  bytes := loadByte_copyDown m hd hs h
  frame := copyDown_sameOutside m d s n hd

/-- A range is its own copy. -/
theorem Copied.refl (m : Mem) (d n : Nat) : Copied m m d d n :=
  ⟨fun _ _ => rfl, SameOutside.refl m _ _⟩

/-- Two copies of the same bytes leave the same memory. -/
theorem Copied.unique {m m₁ m₂ : Mem} {d s n : Nat} (h₁ : Copied m m₁ d s n)
    (h₂ : Copied m m₂ d s n) {x : Nat} (hx : x < space) : loadByte m₁ x = loadByte m₂ x := by
  by_cases hin : d ≤ x ∧ x < d + n
  · obtain ⟨i, rfl⟩ := Nat.exists_eq_add_of_le hin.1
    rw [h₁.bytes i (by omega), h₂.bytes i (by omega)]
  · rw [h₁.frame x hx (by omega), h₂.frame x hx (by omega)]

/-! ## Words -/

/-- A load depends only on the bytes of the word. -/
theorem loadLE_congr {m m' : Mem} {n a b : Nat}
    (h : ∀ i, i < n → loadByte m' (a + i) = loadByte m (b + i)) :
    loadLE m' n a = loadLE m n b := by
  induction n generalizing a b with
  | zero => rfl
  | succ n ih =>
    have hhead : loadByte m' a = loadByte m b := h 0 (Nat.succ_pos n)
    have htail : loadLE m' n (a + 1) = loadLE m n (b + 1) := by
      refine ih fun i hi => ?_
      have := h (i + 1) (by omega)
      rwa [show a + (i + 1) = a + 1 + i by omega, show b + (i + 1) = b + 1 + i by omega] at this
    simp only [loadLE, hhead, htail]

/-- A word of the copy is a word of what was copied. -/
theorem Copied.loadLE_eq {m m' : Mem} {d s n i k : Nat} (h : Copied m m' d s n) (hk : i + k ≤ n) :
    loadLE m' k (d + i) = loadLE m k (s + i) :=
  loadLE_congr fun j hj => by
    have hbyte := h.bytes (i + j) (by omega)
    rwa [← Nat.add_assoc, ← Nat.add_assoc] at hbyte

/-- A word outside the changed range loads the same value. -/
theorem SameOutside.loadLE_eq {m m' : Mem} {lo hi n a : Nat} (h : SameOutside m m' lo hi)
    (ha : a + n ≤ space) (hout : a + n ≤ lo ∨ hi ≤ a) : loadLE m' n a = loadLE m n a :=
  loadLE_congr fun i hi' => h (a + i) (by omega) (by omega)

/-- A load of the word just stored. -/
theorem loadLE_storeLE_same (m : Mem) (n a v : Nat) (h : a + n ≤ space) :
    loadLE (storeLE m n a v) n a = v % 256 ^ n := by
  induction n generalizing m a v with
  | zero => simp only [loadLE, Nat.pow_zero, Nat.mod_one]
  | succ n ih =>
    have hhead : loadByte (storeLE (storeByte m a (UInt8.ofNat v)) n (a + 1) (v / 256)) a =
        UInt8.ofNat v := by
      rw [storeLE_sameOutside _ n (a + 1) (v / 256) (by omega) a (by omega) (by omega)]
      exact loadByte_storeByte_same m (by omega) _
    simp only [loadLE, storeLE, ih _ (a + 1) (v / 256) (by omega), hhead, UInt8.toNat_ofNat']
    rw [Nat.pow_succ 256, Nat.mul_comm (256 ^ n), Nat.mod_mul]

/-- A word store leaves every byte alone that it does not hit, also when it wraps. -/
theorem loadByte_storeLE_of_ne (m : Mem) {n a v x : Nat}
    (h : ∀ i, i < n → x % space ≠ (a + i) % space) :
    loadByte (storeLE m n a v) x = loadByte m x := by
  induction n generalizing m a v with
  | zero => rfl
  | succ n ih =>
    rw [storeLE, ih _ fun i hi => by
      have := h (i + 1) (by omega)
      rwa [show a + (i + 1) = a + 1 + i by omega] at this]
    simp only [loadByte, storeByte]
    exact if_neg (h 0 (by omega))

/-- The word stored `d` bytes behind `a`, over the end of the memory or not, does not meet the
one at `a`. -/
theorem loadLE_storeLE_wrap (m : Mem) {n a d v : Nat} (hn : n ≤ d) (hd : d + n ≤ space) :
    loadLE (storeLE m n ((a + d) % space) v) n a = loadLE m n a :=
  loadLE_congr fun i hi => loadByte_storeLE_of_ne m fun j hj heq => by
    unfold space at *
    omega

/-- A load of a word that does not meet the stored one. -/
theorem loadLE_storeLE_of_disjoint (m : Mem) (n a v k b : Nat) (ha : a + n ≤ space)
    (hb : b + k ≤ space) (h : a + n ≤ b ∨ b + k ≤ a) :
    loadLE (storeLE m n a v) k b = loadLE m k b :=
  (storeLE_sameOutside m n a v ha).loadLE_eq hb (by omega)

end ByteMemory
