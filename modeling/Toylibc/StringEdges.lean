import Toylibc.StringCopy

/-!
# The edges of `string.c`

What the loops do where their callers should not take them. A forward copy that moves bytes up
within the source repeats the bytes between the two starts. A string that is copied over its own
NUL is copied for ever. A scan for a NUL ends unless no byte of the memory is one, and two strings
are compared up to where they differ or end, wherever they lie. And blocks that contain NULs are
compared to the end, in the order of their bytes.
-/

namespace Toylibc

open ByteMemory

/-! ## A copy to the right -/

theorem succ_mod_cases {k : Nat} (hk : 0 < k) (j : Nat) :
    (j % k + 1 = k ∧ (j + 1) % k = 0) ∨ (j % k + 1 < k ∧ (j + 1) % k = j % k + 1) := by
  have hlt := Nat.mod_lt j hk
  have hdiv := Nat.div_add_mod j k
  rcases Nat.lt_or_eq_of_le (Nat.succ_le_of_lt hlt) with hin | hend
  · refine .inr ⟨hin, ?_⟩
    rw [show j + 1 = k * (j / k) + (j % k + 1) by omega, Nat.mul_add_mod, Nat.mod_eq_of_lt hin]
  · refine .inl ⟨hend, ?_⟩
    rw [show j + 1 = k * (j / k) + k by omega, Nat.mul_add_mod, Nat.mod_self]

/-- A copy upwards to a place `k` bytes above reads again what it has stored. -/
theorem loadByte_copyUp_above (m : Mem) {s k i n : Nat} (hk : 0 < k)
    (htop : s + k + i + n ≤ space) : ∀ j, j < n →
      loadByte (copyUp m (s + k) s i n) (s + k + i + j) = loadByte m (s + i + j % k) := by
  induction n generalizing m i with
  | zero => exact fun j hj => absurd hj (Nat.not_lt_zero j)
  | succ n ih =>
    intro j hj
    have hfirst : ∀ x, x < space → loadByte (storeByte m (s + k + i) (loadByte m (s + i))) x =
        if x = s + k + i then loadByte m (s + i) else loadByte m x :=
      fun x hx => loadByte_storeByte m (by omega) hx _
    have hframe := copyUp_sameOutside (storeByte m (s + k + i) (loadByte m (s + i))) (s + k) s
      (i + 1) n (by omega)
    rw [copyUp]
    cases j with
    | zero =>
      rw [Nat.zero_mod]
      have hkept := hframe (s + k + i) (by omega) (by omega)
      exact hkept.trans (loadByte_storeByte_same m (by omega) _)
    | succ j =>
      have hload := ih (storeByte m (s + k + i) (loadByte m (s + i))) (i := i + 1) (by omega) j
        (by omega)
      rw [show s + k + (i + 1) + j = s + k + i + (j + 1) by omega] at hload
      rw [hload]
      -- the last of the `k` bytes is the one that was stored
      rcases succ_mod_cases hk j with ⟨hend, hmod⟩ | ⟨hin, hmod⟩
      · rw [hmod, hfirst _ (by omega), if_pos (by omega), Nat.add_zero]
      · rw [hmod, hfirst _ (by omega), if_neg (by omega), show s + (i + 1) + j % k =
          s + i + (j % k + 1) by omega]

/-- `toylibc_memcpy` to a place `k` bytes above the source repeats the first `k` bytes, and so it
agrees with `toylibc_memmove` exactly on bytes that repeat after `k`. -/
theorem memcpy_repeats (m : Mem) {src k n : Nat} (hk : 0 < k) (htop : src + k + n ≤ space) :
    (∀ i, i < n → loadByte (toylibcMemcpy m (src + k) src n).1 (src + k + i) =
      loadByte m (src + i % k)) ∧
    ((∀ x, x < space → loadByte (toylibcMemcpy m (src + k) src n).1 x =
        loadByte (toylibcMemmove m (src + k) src n).1 x) ↔
      ∀ i, i < n → loadByte m (src + i) = loadByte m (src + i % k)) := by
  have hbytes := loadByte_copyUp_above m (i := 0) hk htop
  have hmove := memmove_copied m htop (show src + n ≤ space by omega)
  have hframe := memcpy_sameOutside m src htop
  refine ⟨hbytes, fun hsame i hi => ?_, fun hperiod x hx => ?_⟩
  · rw [← hmove.bytes i hi, ← hsame (src + k + i) (by omega)]
    exact hbytes i hi
  · by_cases hin : src + k ≤ x ∧ x < src + k + n
    · obtain ⟨i, rfl⟩ := Nat.exists_eq_add_of_le hin.1
      have hi : i < n := by omega
      rw [hmove.bytes i hi, hperiod i hi]
      exact hbytes i hi
    · rw [hframe x hx (by omega), hmove.frame x hx (by omega)]

/-- Three bytes are moved up by one, and the first one is repeated. -/
theorem memcpy_repeats_first :
    loadByte (toylibcMemcpy ⟨UInt8.ofNat, []⟩ (100 + 1) 100 3).1 (100 + 1 + 2) = 100 :=
  (memcpy_repeats ⟨UInt8.ofNat, []⟩ Nat.one_pos (show 100 + 1 + 3 ≤ space by decide)).1 2
    (by decide)

/-! ## A string over its own end -/

/-- While the `k` bytes from the source to the destination are not NUL, the next ones are not
either: each is a copy of one of them. -/
theorem strcpyFrom_above (m : Mem) {src k : Nat} (hk : 0 < k)
    (hbytes : ∀ i, i < k → loadByte m (src + i) ≠ 0) (fuel : Nat) :
    strcpyFrom m (src + k) src fuel = none := by
  induction fuel generalizing m src with
  | zero => rfl
  | succ fuel ih =>
    have hfirst : loadByte m src ≠ 0 := hbytes 0 hk
    rw [strcpyFrom, if_pos hfirst, show src + k + 1 = src + 1 + k by omega]
    refine ih (storeByte m (src + k) (loadByte m src)) fun i hi => ?_
    simp only [loadByte, storeByte]
    split
    · exact hfirst
    · next hne =>
      have hlt : i + 1 < k := by
        refine Nat.lt_of_le_of_ne (Nat.succ_le_of_lt hi) fun hend => hne ?_
        rw [← hend]
        congr 1
        omega
      have hkept := hbytes (i + 1) hlt
      rwa [show src + (i + 1) = src + 1 + i by omega] at hkept

/-- `toylibc_strcpy` returns exactly when the destination does not start behind the first byte of
the string and up to its NUL. -/
theorem strcpy_returns_iff {m : Mem} {dest src : Nat} {s : List UInt8} (hs : StringAt m src s)
    (hsrc : src + s.length < space) (hdest : dest + s.length < space) :
    (∃ r, toylibcStrcpy m dest src = some r) ↔ dest ≤ src ∨ src + s.length < dest := by
  constructor
  · rintro ⟨r, hcall⟩
    by_contra hover
    obtain ⟨k, rfl⟩ := Nat.exists_eq_add_of_le (show src ≤ dest by omega)
    have hloop := strcpyFrom_above m (show 0 < k by omega)
      (fun i hi => hs.loadByte_ne_zero (show i < s.length by omega)) space
    rw [toylibcStrcpy, hloop] at hcall
    cases hcall
  · intro hapart
    have hloop := strcpyFrom_eq (i := 0) hs hsrc hdest hapart hs.length_lt
    rw [Nat.add_zero, Nat.add_zero] at hloop
    exact ⟨_, by rw [toylibcStrcpy, hloop]⟩

/-- The string `ab` at address 9 cannot be copied to its second byte. -/
theorem shiftedString_not_copied : ¬∃ r, toylibcStrcpy shiftedString 10 9 = some r := by
  have hsource : StringAt shiftedString 9 [0x61, 0x62] := ⟨rfl, by decide, rfl, by decide, rfl⟩
  rw [strcpy_returns_iff hsource (by decide) (by decide)]
  decide

/-! ## The end of a scan -/

/-- A search of one period sees all there is to see. -/
theorem find?_period {p : Nat → Bool} {N : Nat} (hN : 0 < N) (hper : ∀ i, p (i + N) = p i) :
    (∀ n, (List.range' 0 N).find? p = some n ↔ p n ∧ ∀ j, j < n → p j = false) ∧
    ((List.range' 0 N).find? p = none ↔ ∀ i, p i = false) := by
  have hmod : ∀ i, p (i % N) = p i := by
    intro i
    induction i using Nat.strongRecOn with
    | ind i ih =>
      rcases Nat.lt_or_ge i N with hlt | hge
      · rw [Nat.mod_eq_of_lt hlt]
      · obtain ⟨k, rfl⟩ := Nat.exists_eq_add_of_le' hge
        rw [Nat.add_mod_right, ih k (by omega), hper]
  refine ⟨fun n => ?_, ?_⟩
  · rw [List.find?_range'_eq_some]
    simp only [Nat.zero_le, true_implies, Bool.not_eq_true', List.mem_range'_1, Nat.zero_add,
      true_and]
    refine ⟨fun h => ⟨h.1, h.2.2⟩, fun h => ⟨h.1, ?_, h.2⟩⟩
    -- further on the search would be at an index that it has passed
    by_contra hlong
    have hlt : n % N < n := Nat.lt_of_lt_of_le (Nat.mod_lt n hN) (Nat.le_of_not_lt hlong)
    have hpassed := h.2 (n % N) hlt
    rw [hmod, h.1] at hpassed
    cases hpassed
  · rw [List.find?_range'_eq_none]
    simp only [Nat.zero_le, true_implies, Bool.not_eq_true', Nat.zero_add]
    refine ⟨fun h i => ?_, fun h i _ => h i⟩
    rw [← hmod]
    exact h (i % N) (Nat.mod_lt i hN)

theorem loadByte_add_space (m : Mem) (a i : Nat) :
    loadByte m (a + (i + space)) = loadByte m (a + i) := by
  rw [loadByte, loadByte, ← Nat.add_assoc, Nat.add_mod_right]

/-- Every address comes behind every other one. -/
theorem no_nul_iff (m : Mem) (a : Nat) :
    (∀ i, loadByte m (a + i) ≠ 0) ↔ ∀ x, loadByte m x ≠ 0 := by
  refine ⟨fun h x => ?_, fun h i => h (a + i)⟩
  have hx := h (x % space + space - a % space)
  unfold loadByte at hx ⊢
  rwa [show (a + (x % space + space - a % space)) % space = x % space by
    unfold space; omega] at hx

theorem strlenFrom_find (m : Mem) (s i fuel : Nat) :
    strlenFrom m (s + i) i fuel =
      (List.range' i fuel).find? fun j => decide (loadByte m (s + j) = 0) := by
  induction fuel generalizing i with
  | zero => rfl
  | succ fuel ih =>
    rw [strlenFrom, List.range'_succ, List.find?_cons]
    split
    · next hne =>
      rw [decide_eq_false hne]
      exact ih (i + 1)
    · next hend =>
      rw [not_not] at hend
      rw [decide_eq_true hend]

/-- The strings at `a` and `b` are decided at the index `j`: they differ there, or they end. -/
def Decides (m : Mem) (a b j : Nat) : Prop :=
  loadByte m (a + j) ≠ loadByte m (b + j) ∨ loadByte m (a + j) = 0

instance (m : Mem) (a b j : Nat) : Decidable (Decides m a b j) :=
  inferInstanceAs (Decidable (_ ∨ _))

theorem decides_add_space (m : Mem) (a b j : Nat) :
    Decides m a b (j + space) ↔ Decides m a b j := by
  rw [Decides, loadByte_add_space, loadByte_add_space, Decides]

theorem not_decides (m : Mem) (a b j : Nat) :
    ¬Decides m a b j ↔ loadByte m (a + j) ≠ 0 ∧ loadByte m (a + j) = loadByte m (b + j) := by
  rw [Decides, not_or, not_not, and_comm]

theorem strcmpFrom_find (m : Mem) (a b i fuel : Nat) :
    strcmpFrom m (a + i) (b + i) fuel =
      ((List.range' i fuel).find? fun j => decide (Decides m a b j)).map fun j =>
        byteDiff (loadByte m (a + j)) (loadByte m (b + j)) := by
  induction fuel generalizing i with
  | zero => rfl
  | succ fuel ih =>
    rw [strcmpFrom, List.range'_succ, List.find?_cons]
    split
    · next hne =>
      split
      · next hdiff =>
        rw [decide_eq_true (show Decides m a b i from .inl hdiff), Option.map_some]
      · next heq =>
        rw [not_not] at heq
        rw [decide_eq_false ((not_decides m a b i).mpr ⟨hne.1, heq⟩)]
        exact ih (i + 1)
    · next hend =>
      have hdec : Decides m a b i := by
        by_contra hnot
        obtain ⟨hne, heq⟩ := (not_decides m a b i).mp hnot
        exact hend ⟨hne, heq ▸ hne⟩
      rw [decide_eq_true hdec, Option.map_some]

theorem strlen_iff (m : Mem) (s : Nat) :
    (∀ n, toylibcStrlen m s = some n ↔
      loadByte m (s + n) = 0 ∧ ∀ j, j < n → loadByte m (s + j) ≠ 0) ∧
    (toylibcStrlen m s = none ↔ ∀ x, loadByte m x ≠ 0) := by
  have hfind := find?_period (p := fun j => decide (loadByte m (s + j) = 0))
    (show 0 < space by decide) fun i => by rw [loadByte_add_space]
  simp only [decide_eq_true_eq, decide_eq_false_iff_not] at hfind
  have hscan : toylibcStrlen m s = _ := strlenFrom_find m s 0 space
  rw [hscan]
  exact ⟨hfind.1, hfind.2.trans (no_nul_iff m s)⟩

theorem strcmp_iff (m : Mem) (a b : Nat) :
    (∀ r, toylibcStrcmpAt m a b = some r ↔ ∃ n, Decides m a b n ∧ (∀ j, j < n → ¬Decides m a b j) ∧
      r = byteDiff (loadByte m (a + n)) (loadByte m (b + n))) ∧
    (toylibcStrcmpAt m a b = none ↔
      (∀ x, loadByte m x ≠ 0) ∧ ∀ i, loadByte m (a + i) = loadByte m (b + i)) := by
  have hfind := find?_period (p := fun j => decide (Decides m a b j)) (show 0 < space by decide)
    fun i => decide_eq_decide.mpr (decides_add_space m a b i)
  simp only [decide_eq_true_eq, decide_eq_false_iff_not] at hfind
  have hscan : toylibcStrcmpAt m a b = _ := strcmpFrom_find m a b 0 space
  rw [hscan]
  refine ⟨fun r => ?_, ?_⟩
  · rw [Option.map_eq_some_iff]
    constructor
    · rintro ⟨n, hn, rfl⟩
      rw [hfind.1] at hn
      exact ⟨n, hn.1, hn.2, rfl⟩
    · rintro ⟨n, hdec, hbefore, rfl⟩
      exact ⟨n, (hfind.1 n).mpr ⟨hdec, hbefore⟩, rfl⟩
  · rw [Option.map_eq_none_iff, hfind.2, ← no_nul_iff m a, ← forall_and]
    exact forall_congr' (not_decides m a b)

/-- On every memory `toylibc_strlen` answers where the first NUL is, and `toylibc_strcmp` the
difference where the strings first differ or end. The one fails to return exactly when no byte of
the memory is NUL, and the other when moreover the memory is the same from both addresses on. So
`toylibc_strcmp` returns wherever `toylibc_strlen` does anywhere. -/
theorem string_scans (m : Mem) (a b : Nat) :
    ((∀ n, toylibcStrlen m a = some n ↔
        loadByte m (a + n) = 0 ∧ ∀ j, j < n → loadByte m (a + j) ≠ 0) ∧
      (toylibcStrlen m a = none ↔ ∀ x, loadByte m x ≠ 0)) ∧
    ((∀ r, toylibcStrcmpAt m a b = some r ↔
        ∃ n, Decides m a b n ∧ (∀ j, j < n → ¬Decides m a b j) ∧
          r = byteDiff (loadByte m (a + n)) (loadByte m (b + n))) ∧
      (toylibcStrcmpAt m a b = none ↔
        (∀ x, loadByte m x ≠ 0) ∧ ∀ i, loadByte m (a + i) = loadByte m (b + i))) ∧
    ∀ s n, toylibcStrlen m s = some n → toylibcStrcmpAt m a b ≠ none := by
  refine ⟨strlen_iff m a, strcmp_iff m a b, fun s n hlen hnone => ?_⟩
  have hzero := (((strlen_iff m s).1 n).mp hlen).1
  exact ((strcmp_iff m a b).2.mp hnone).1 (s + n) hzero

/-! ## Blocks -/

/-- The `n` bytes at `a`. -/
def bytesAt (m : Mem) (a : Nat) : Nat → List UInt8
  | 0 => []
  | n + 1 => loadByte m a :: bytesAt m (a + 1) n

theorem bytesAt_congr {m m' : Mem} {a b n : Nat}
    (h : ∀ i, i < n → loadByte m' (a + i) = loadByte m (b + i)) :
    bytesAt m' a n = bytesAt m b n := by
  induction n generalizing a b with
  | zero => rfl
  | succ n ih =>
    have hhead : loadByte m' a = loadByte m b := h 0 (Nat.succ_pos n)
    rw [bytesAt, bytesAt, hhead, ih fun i hi => ?_]
    have hnext := h (i + 1) (Nat.succ_lt_succ hi)
    rwa [show a + (i + 1) = a + 1 + i by omega, show b + (i + 1) = b + 1 + i by omega] at hnext

theorem lexicographic_cons {r : Int} {s t : List UInt8} (x : UInt8) (h : Lexicographic r s t) :
    Lexicographic r (x :: s) (x :: t) where
  neg := by
    rw [h.neg, List.cons_lt_cons_iff]
    exact ⟨fun hlt => .inr ⟨rfl, hlt⟩, fun hor => hor.elim (absurd · (UInt8.lt_irrefl x)) And.right⟩
  zero := by
    rw [h.zero, List.cons.injEq]
    exact (and_iff_right rfl).symm
  pos := by
    rw [h.pos, List.cons_lt_cons_iff]
    exact ⟨fun hlt => .inr ⟨rfl, hlt⟩, fun hor => hor.elim (absurd · (UInt8.lt_irrefl x)) And.right⟩

/-- The first different bytes decide. -/
theorem lexicographic_byteDiff {x y : UInt8} (hne : x ≠ y) (s t : List UInt8) :
    Lexicographic (byteDiff x y) (x :: s) (y :: t) where
  neg := by
    rw [byteDiff_lt_zero, List.cons_lt_cons_iff]
    exact ⟨.inl, fun hor => hor.resolve_right fun hbad => hne hbad.1⟩
  zero := by
    rw [byteDiff_eq_zero, List.cons.injEq]
    exact iff_of_false hne fun hbad => hne hbad.1
  pos := by
    have hswap := byteDiff_lt_zero (x := y) (y := x)
    rw [byteDiff_swap, Int.neg_neg_iff_pos] at hswap
    rw [hswap, List.cons_lt_cons_iff]
    exact ⟨.inl, fun hor => hor.resolve_right fun hbad => hne hbad.1.symm⟩

theorem memcmpFrom_lexicographic (m : Mem) (a b i n : Nat) :
    Lexicographic (memcmpFrom m a b i n) (bytesAt m (a + i) n) (bytesAt m (b + i) n) := by
  induction n generalizing i with
  | zero => exact ⟨by simp [memcmpFrom, bytesAt], by simp [memcmpFrom, bytesAt],
      by simp [memcmpFrom, bytesAt]⟩
  | succ n ih =>
    have hrest := ih (i + 1)
    rw [← Nat.add_assoc, ← Nat.add_assoc] at hrest
    rw [memcmpFrom, bytesAt, bytesAt]
    split
    · next hne => exact lexicographic_byteDiff hne _ _
    · next heq =>
      rw [not_not] at heq
      rw [heq]
      exact lexicographic_cons _ hrest

/-- `toylibc_memcmp` of two blocks of any bytes, NULs included, is negative, zero or positive as
the one comes before, is equal to or comes after the other in the order of their bytes. So it
finds a block equal to its copy by `toylibc_memmove`, and a block between two others is found
between them. -/
theorem memcmp_lexicographic (m : Mem) (a b n : Nat) :
    Lexicographic (toylibcMemcmp m a b n) (bytesAt m a n) (bytesAt m b n) ∧
      (∀ c, toylibcMemcmp m a b n ≤ 0 → toylibcMemcmp m b c n ≤ 0 → toylibcMemcmp m a c n ≤ 0 ∧
        (toylibcMemcmp m a b n < 0 ∨ toylibcMemcmp m b c n < 0 → toylibcMemcmp m a c n < 0)) ∧
      (a + n ≤ space → b + n ≤ space → a + n ≤ b ∨ b + n ≤ a →
        toylibcMemcmp (toylibcMemmove m a b n).1 a b n = 0) := by
  have horder : ∀ (m : Mem) (a b : Nat),
      Lexicographic (toylibcMemcmp m a b n) (bytesAt m a n) (bytesAt m b n) :=
    fun m a b => memcmpFrom_lexicographic m a b 0 n
  refine ⟨horder m a b, fun c => (horder m a b).trans (horder m b c) (horder m a c), ?_⟩
  intro ha hb hapart
  have hmove := memmove_copied m ha hb
  rw [(horder _ a b).zero, bytesAt_congr hmove.bytes]
  exact (bytesAt_congr fun i hi => hmove.frame (b + i) (by omega) (by omega)).symm

end Toylibc
