import Toylibc.Strings

/-!
# The order of strings

`toylibc_strcmp` stops at a NUL and `toylibc_memcmp` at a length. Up to the NUL of the shorter
string they meet the same first difference, so they return the same number, and its sign is the
lexicographic order of the bytes taken as unsigned (`strcmp_lexicographic`).
-/

namespace Toylibc

open ByteMemory

/-- The bytes from `a` on are `s` and then a NUL, which is not in `s`. -/
def StringAt (m : Mem) : Nat → List UInt8 → Prop
  | a, [] => loadByte m a = 0
  | a, c :: s => loadByte m a = c ∧ c ≠ 0 ∧ StringAt m (a + 1) s

/-- The sign of `r` is the lexicographic order of `s` and `t`. -/
structure Lexicographic (r : Int) (s t : List UInt8) : Prop where
  neg : r < 0 ↔ s < t
  zero : r = 0 ↔ s = t
  pos : 0 < r ↔ t < s

/-! ## Strings as lists -/

theorem byteDiff_swap (x y : UInt8) : byteDiff y x = -byteDiff x y := by
  unfold byteDiff
  omega

theorem byteDiff_lt_zero {x y : UInt8} : byteDiff x y < 0 ↔ x < y := by
  rw [UInt8.lt_iff_toNat_lt]
  unfold byteDiff
  omega

theorem byteDiff_eq_zero {x y : UInt8} : byteDiff x y = 0 ↔ x = y := by
  rw [← UInt8.toNat_inj]
  unfold byteDiff
  omega

theorem zero_lt_of_ne_zero {x : UInt8} (hx : x ≠ 0) : 0 < x := by
  rw [UInt8.lt_iff_toNat_lt]
  refine Nat.pos_of_ne_zero fun hzero => hx ?_
  exact UInt8.toNat_inj.mp hzero

/-- The other way around the result changes its sign. -/
theorem toylibcStrcmp_swap (s t : List UInt8) : toylibcStrcmp t s = -toylibcStrcmp s t := by
  induction s generalizing t with
  | nil =>
    cases t with
    | nil => rfl
    | cons y t => exact byteDiff_swap 0 y
  | cons x s ih =>
    cases t with
    | nil => exact byteDiff_swap x 0
    | cons y t =>
      by_cases hxy : x = y
      · rw [toylibcStrcmp, toylibcStrcmp, if_neg (not_not.mpr hxy.symm), if_neg (not_not.mpr hxy)]
        exact ih t
      · rw [toylibcStrcmp, toylibcStrcmp, if_pos (Ne.symm hxy), if_pos hxy]
        exact byteDiff_swap x y

theorem toylibcStrcmp_eq_zero {s t : List UInt8} (hs : ∀ c ∈ s, c ≠ 0) (ht : ∀ c ∈ t, c ≠ 0) :
    toylibcStrcmp s t = 0 ↔ s = t := by
  induction s generalizing t with
  | nil =>
    cases t with
    | nil => exact iff_of_true rfl rfl
    | cons y t =>
      have hy := ht y (List.mem_cons_self ..)
      exact iff_of_false (fun h => hy (byteDiff_eq_zero.mp h).symm) nofun
  | cons x s ih =>
    cases t with
    | nil =>
      have hx := hs x (List.mem_cons_self ..)
      exact iff_of_false (fun h => hx (byteDiff_eq_zero.mp h)) nofun
    | cons y t =>
      rw [List.cons.injEq]
      by_cases hxy : x = y
      · rw [toylibcStrcmp, if_neg (not_not.mpr hxy), ih (fun c hc => hs c (.tail _ hc))
          (fun c hc => ht c (.tail _ hc))]
        exact ⟨fun h => ⟨hxy, h⟩, fun h => h.2⟩
      · rw [toylibcStrcmp, if_pos hxy]
        exact iff_of_false (fun h => hxy (byteDiff_eq_zero.mp h)) fun h => hxy h.1

theorem toylibcStrcmp_lt_zero {s t : List UInt8} (hs : ∀ c ∈ s, c ≠ 0) (ht : ∀ c ∈ t, c ≠ 0) :
    toylibcStrcmp s t < 0 ↔ s < t := by
  induction s generalizing t with
  | nil =>
    cases t with
    | nil => exact iff_of_false (Int.lt_irrefl 0) (List.not_lt_nil [])
    | cons y t =>
      -- a proper prefix comes first
      exact iff_of_true (byteDiff_lt_zero.mpr (zero_lt_of_ne_zero (ht y (List.mem_cons_self ..))))
        (List.nil_lt_cons y t)
  | cons x s ih =>
    cases t with
    | nil =>
      refine iff_of_false (fun h => ?_) (List.not_lt_nil _)
      exact UInt8.not_lt_zero (byteDiff_lt_zero.mp h)
    | cons y t =>
      rw [List.cons_lt_cons_iff]
      by_cases hxy : x = y
      · rw [toylibcStrcmp, if_neg (not_not.mpr hxy), ih (fun c hc => hs c (.tail _ hc))
          (fun c hc => ht c (.tail _ hc))]
        constructor
        · exact fun h => .inr ⟨hxy, h⟩
        · rintro (hlt | ⟨-, h⟩)
          · exact absurd hlt (hxy ▸ UInt8.lt_irrefl x)
          · exact h
      · rw [toylibcStrcmp, if_pos hxy]
        constructor
        · exact fun h => .inl (byteDiff_lt_zero.mp h)
        · rintro (hlt | ⟨heq, -⟩)
          · exact byteDiff_lt_zero.mpr hlt
          · exact absurd heq hxy

theorem toylibcStrcmp_lexicographic {s t : List UInt8} (hs : ∀ c ∈ s, c ≠ 0)
    (ht : ∀ c ∈ t, c ≠ 0) : Lexicographic (toylibcStrcmp s t) s t where
  neg := toylibcStrcmp_lt_zero hs ht
  zero := toylibcStrcmp_eq_zero hs ht
  pos := by
    rw [← toylibcStrcmp_lt_zero ht hs, toylibcStrcmp_swap s t]
    omega

/-- Signs that say the order can be chained. -/
theorem Lexicographic.trans {r r' r'' : Int} {s t u : List UInt8} (h : Lexicographic r s t)
    (h' : Lexicographic r' t u) (h'' : Lexicographic r'' s u) (hr : r ≤ 0) (hr' : r' ≤ 0) :
    r'' ≤ 0 ∧ (r < 0 ∨ r' < 0 → r'' < 0) := by
  rcases Int.lt_or_eq_of_le hr with hlt | heq
  · rcases Int.lt_or_eq_of_le hr' with hlt' | heq'
    · have hchain := h''.neg.mpr (List.lt_trans (h.neg.mp hlt) (h'.neg.mp hlt'))
      exact ⟨by omega, fun _ => hchain⟩
    · have hchain := h''.neg.mpr (h'.zero.mp heq' ▸ h.neg.mp hlt)
      exact ⟨by omega, fun _ => hchain⟩
  · obtain rfl := h.zero.mp heq
    rcases Int.lt_or_eq_of_le hr' with hlt' | heq'
    · have hchain := h''.neg.mpr (h'.neg.mp hlt')
      exact ⟨by omega, fun _ => hchain⟩
    · have hsame := h''.zero.mpr (h'.zero.mp heq')
      exact ⟨by omega, by omega⟩

/-! ## Strings in memory -/

section

variable {m : Mem} {a b : Nat} {s t : List UInt8}

theorem StringAt.ne_zero (h : StringAt m a s) : ∀ c ∈ s, c ≠ 0 := by
  induction s generalizing a with
  | nil => nofun
  | cons x s ih =>
    rintro c hc
    rcases List.mem_cons.mp hc with rfl | hc
    · exact h.2.1
    · exact ih h.2.2 c hc

theorem StringAt.loadByte_end (h : StringAt m a s) : loadByte m (a + s.length) = 0 := by
  induction s generalizing a with
  | nil => exact h
  | cons x s ih =>
    rw [List.length_cons, show a + (s.length + 1) = a + 1 + s.length by omega]
    exact ih h.2.2

theorem StringAt.loadByte_ne_zero (h : StringAt m a s) {i : Nat} (hi : i < s.length) :
    loadByte m (a + i) ≠ 0 := by
  induction s generalizing a i with
  | nil => exact absurd hi (Nat.not_lt_zero i)
  | cons x s ih =>
    cases i with
    | zero => exact h.1.symm ▸ h.2.1
    | succ i =>
      rw [show a + (i + 1) = a + 1 + i by omega]
      exact ih h.2.2 (Nat.lt_of_succ_lt_succ hi)

/-- A string does not reach around the address space: it would run over its own NUL. -/
theorem StringAt.length_lt (h : StringAt m a s) : s.length < space := by
  by_contra hlong
  refine h.loadByte_ne_zero (i := s.length - space) (by unfold space at *; omega) ?_
  have hend := h.loadByte_end
  unfold loadByte at hend ⊢
  rwa [show (a + (s.length - space)) % space = (a + s.length) % space by unfold space at *; omega]

theorem strlenFrom_eq (h : StringAt m a s) {n fuel : Nat} (hfuel : s.length < fuel) :
    strlenFrom m a n fuel = some (n + s.length) := by
  induction s generalizing a n fuel with
  | nil =>
    cases fuel with
    | zero => exact absurd hfuel (Nat.not_lt_zero _)
    | succ fuel => exact if_neg (not_not.mpr h)
  | cons x s ih =>
    cases fuel with
    | zero => exact absurd hfuel (Nat.not_lt_zero _)
    | succ fuel =>
      rw [strlenFrom, if_pos (h.1.symm ▸ h.2.1), ih h.2.2 (Nat.lt_of_succ_lt_succ hfuel),
        List.length_cons]
      congr 1
      omega

theorem toylibcStrlen_eq (h : StringAt m a s) : toylibcStrlen m a = some s.length := by
  rw [toylibcStrlen, strlenFrom_eq h h.length_lt, Nat.zero_add]

/-- The loop over memory computes what the list version does. -/
theorem strcmpFrom_eq (ha : StringAt m a s) (hb : StringAt m b t) {fuel : Nat}
    (hfuel : s.length < fuel) : strcmpFrom m a b fuel = some (toylibcStrcmp s t) := by
  induction s generalizing a b t fuel with
  | nil =>
    cases fuel with
    | zero => exact absurd hfuel (Nat.not_lt_zero _)
    | succ fuel =>
      have ha : loadByte m a = 0 := ha
      rw [strcmpFrom, if_neg (fun h => h.1 ha), ha]
      cases t with
      | nil => rw [show loadByte m b = 0 from hb]; rfl
      | cons y t => rw [hb.1]; rfl
  | cons x s ih =>
    cases fuel with
    | zero => exact absurd hfuel (Nat.not_lt_zero _)
    | succ fuel =>
      obtain ⟨hx, hx0, hrest⟩ := ha
      cases t with
      | nil =>
        have hb : loadByte m b = 0 := hb
        rw [strcmpFrom, if_neg (fun h => h.2 hb), hx, hb]
        rfl
      | cons y t =>
        obtain ⟨hy, hy0, hrest'⟩ := hb
        rw [strcmpFrom, hx, hy, if_pos ⟨hx0, hy0⟩, toylibcStrcmp]
        split
        · rfl
        · exact ih hrest hrest' (Nat.lt_of_succ_lt_succ hfuel)

theorem toylibcStrcmpAt_eq (ha : StringAt m a s) (hb : StringAt m b t) :
    toylibcStrcmpAt m a b = some (toylibcStrcmp s t) :=
  strcmpFrom_eq ha hb ha.length_lt

/-- Up to the first NUL the bytes are compared as in `toylibc_strcmp`. -/
theorem memcmpFrom_eq {i : Nat} (ha : StringAt m (a + i) s) (hb : StringAt m (b + i) t) :
    memcmpFrom m a b i (min s.length t.length + 1) = toylibcStrcmp s t := by
  induction s generalizing i t with
  | nil =>
    have ha : loadByte m (a + i) = 0 := ha
    rw [List.length_nil, Nat.zero_min, memcmpFrom, ha]
    cases t with
    | nil => rw [if_neg (not_not.mpr hb.symm)]; rfl
    | cons y t => rw [hb.1, if_pos hb.2.1.symm]; rfl
  | cons x s ih =>
    obtain ⟨hx, hx0, hrest⟩ := ha
    rw [memcmpFrom, hx]
    cases t with
    | nil =>
      have hb : loadByte m (b + i) = 0 := hb
      rw [hb, if_pos hx0]
      rfl
    | cons y t =>
      obtain ⟨hy, hy0, hrest'⟩ := hb
      rw [hy, toylibcStrcmp, List.length_cons, List.length_cons, Nat.succ_min_succ]
      split
      · rfl
      · exact ih hrest hrest'

/-- `toylibc_strcmp` returns, with the number that `toylibc_memcmp` returns up to the NUL of the
shorter string. Its sign is the lexicographic order of the bytes, so it changes when the strings
change places, and can be chained. -/
theorem strcmp_lexicographic (ha : StringAt m a s) (hb : StringAt m b t) :
    ∃ r, toylibcStrcmpAt m a b = some r ∧ Lexicographic r s t ∧
      (∃ n k, toylibcStrlen m a = some n ∧ toylibcStrlen m b = some k ∧
        r = toylibcMemcmp m a b (min n k + 1)) ∧
      toylibcStrcmpAt m b a = some (-r) ∧
      ∀ c u, StringAt m c u → ∃ r' r'', toylibcStrcmpAt m b c = some r' ∧
        toylibcStrcmpAt m a c = some r'' ∧
        (r ≤ 0 → r' ≤ 0 → r'' ≤ 0 ∧ (r < 0 ∨ r' < 0 → r'' < 0)) := by
  have horder := toylibcStrcmp_lexicographic ha.ne_zero hb.ne_zero
  refine ⟨toylibcStrcmp s t, toylibcStrcmpAt_eq ha hb, horder, ?_, ?_, ?_⟩
  · refine ⟨s.length, t.length, toylibcStrlen_eq ha, toylibcStrlen_eq hb, ?_⟩
    exact (memcmpFrom_eq (i := 0) ha hb).symm
  · rw [toylibcStrcmpAt_eq hb ha, toylibcStrcmp_swap]
  · intro c u hc
    refine ⟨_, _, toylibcStrcmpAt_eq hb hc, toylibcStrcmpAt_eq ha hc, ?_⟩
    exact horder.trans (toylibcStrcmp_lexicographic hb.ne_zero hc.ne_zero)
      (toylibcStrcmp_lexicographic ha.ne_zero hc.ne_zero)

end

/-- The string `61 C8` at address 0 and the string `61` at address 10. -/
def twoStrings : Mem :=
  ⟨fun x => if x = 0 then 0x61 else if x = 1 then 0xC8 else if x = 10 then 0x61 else 0, []⟩

/-- A byte above `0x7F` is above the NUL. -/
theorem twoStrings_lexicographic :
    ∃ r, toylibcStrcmpAt twoStrings 0 10 = some r ∧ 0 < r := by
  have hlong : StringAt twoStrings 0 [0x61, 0xC8] := ⟨rfl, by decide, rfl, by decide, rfl⟩
  have hshort : StringAt twoStrings 10 [0x61] := ⟨rfl, by decide, rfl⟩
  obtain ⟨r, hcmp, horder, -⟩ := strcmp_lexicographic hlong hshort
  exact ⟨r, hcmp, horder.pos.mpr (by decide)⟩

end Toylibc
