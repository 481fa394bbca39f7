import Toylibc.Lib.ByteMemory
import Toylibc.Word

/-!
# The kernel calls of the allocator

`heap.c` reaches the kernel through `toylibc_brk`, `toylibc_mmap` and
`toylibc_munmap`. The kernel itself is not part of the repository: it is the
parameter `Kernel`, which answers each call from the calls made before. Quantifying
over kernels therefore ranges over every sequence of answers.

`Kernel.Lawful` is what the allocator may rely on: `brk` moves the break to the asked
address or answers something else, and nobody else moves it; `mmap` fails or returns
a fresh page-aligned region; addresses handed out are user addresses.
-/

namespace Toylibc

open ByteMemory

/-- One kernel call with its answer. The answer of `munmap` is never looked at. -/
inductive Syscall
  | brk (addr ret : Nat)
  | mmap (length ret : Nat)
  | munmap (addr length : Nat)
deriving DecidableEq

/-- A kernel: the program break at the start, and the answer to each call given the
earlier calls, the last first. -/
structure Kernel where
  break0 : Nat
  brk : List Syscall → Nat → Nat
  mmap : List Syscall → Nat → Nat

/-- User addresses end here. -/
def userTop : Nat := 2 ^ 47

/-- The value is an error number `-errno` in `[-4095, -1]`. -/
def isErrno (ret : Nat) : Bool := decide (2 ^ 64 - 4095 ≤ ret ∧ ret < 2 ^ 64)

/-- The program break after the calls `h`: the last address that was granted. -/
def breakAfter (K : Kernel) : List Syscall → Nat
  | [] => K.break0
  | .brk addr ret :: h => if ret = addr then addr else breakAfter K h
  | .mmap _ _ :: h => breakAfter K h
  | .munmap _ _ :: h => breakAfter K h

/-- The mappings alive after the calls `h`, each with its start and its length. -/
def mapsAfter : List Syscall → List (Nat × Nat)
  | [] => []
  | .brk _ _ :: h => mapsAfter h
  | .mmap length ret :: h => if isErrno ret then mapsAfter h else (ret, length) :: mapsAfter h
  | .munmap addr length :: h => (mapsAfter h).erase (addr, length)

/-- The ranges `[a, b)` and `[c, d)` have no address in common. -/
def Apart (a b c d : Nat) : Prop := ∀ x, a ≤ x → x < b → ¬(c ≤ x ∧ x < d)

/-- The documented behaviour of the kernel. -/
structure Kernel.Lawful (K : Kernel) : Prop where
  break0_pos : 0 < K.break0
  break0_user : K.break0 ≤ userTop
  /-- `brk(NULL)` answers the current break. -/
  brk_query : ∀ h, K.brk h 0 = breakAfter K h
  brk_user : ∀ h addr, K.brk h addr = addr → addr ≤ userTop
  /-- A granted break does not run into a mapping. -/
  brk_apart : ∀ h addr, K.brk h addr = addr → ∀ r ∈ mapsAfter h,
    Apart (breakAfter K h) addr r.1 (r.1 + r.2)
  /-- A mapping that is not refused is page aligned and in user space. -/
  mmap_page : ∀ h length, isErrno (K.mmap h length) = false →
    4096 ∣ K.mmap h length ∧ K.mmap h length + length ≤ userTop
  /-- It is disjoint from the break area and from the other mappings. -/
  mmap_apart_break : ∀ h length, isErrno (K.mmap h length) = false →
    Apart K.break0 (breakAfter K h) (K.mmap h length) (K.mmap h length + length)
  mmap_apart_maps : ∀ h length, isErrno (K.mmap h length) = false → ∀ r ∈ mapsAfter h,
    Apart r.1 (r.1 + r.2) (K.mmap h length) (K.mmap h length + length)

/-- The statics of `heap.c`, the memory, and the kernel calls made so far. -/
structure Heap where
  mem : Mem
  heapLo : Nat
  heapHi : Nat
  heapOk : Bool
  log : List Syscall

/-- Bytes that the kernel hands over are zero. The kernel's own stores are not
stores of the program. -/
def zeroFill (m : Mem) (a length : Nat) : Mem :=
  { m with byte := fun x => if a ≤ x ∧ x < a + length then 0 else m.byte x }

/-- `toylibc_brk`: the wrapper returns what the kernel answers. -/
def toylibcBrk (K : Kernel) (w : Heap) (addr : Nat) : Nat × Heap :=
  let ret := K.brk w.log addr
  (ret, { w with log := .brk addr ret :: w.log })

/-- `toylibc_mmap(NULL, length, PROT_READ | PROT_WRITE, MAP_PRIVATE | MAP_ANONYMOUS, -1, 0)`;
`heap.c` makes no other call of it. -/
def toylibcMmap (K : Kernel) (w : Heap) (length : Nat) : Nat × Heap :=
  let ret := K.mmap w.log length
  let mem := if isErrno ret then w.mem else zeroFill w.mem ret length
  (ret, { w with mem := mem, log := .mmap length ret :: w.log })

/-- `toylibc_munmap`. -/
def toylibcMunmap (w : Heap) (addr length : Nat) : Heap :=
  { w with log := .munmap addr length :: w.log }

/-! ## Ranges -/

theorem apart_of_le {a b c d : Nat} (h : b ≤ c ∨ d ≤ a) : Apart a b c d := by
  intro x hlo hhi hx
  omega

theorem Apart.symm {a b c d : Nat} (h : Apart a b c d) : Apart c d a b :=
  fun x hlo hhi hx => h x hx.1 hx.2 ⟨hlo, hhi⟩

theorem Apart.mono {a b c d a' b' c' d' : Nat} (h : Apart a b c d) (ha : a ≤ a') (hb : b' ≤ b)
    (hc : c ≤ c') (hd : d' ≤ d) : Apart a' b' c' d' :=
  fun x hlo hhi hx => h x (by omega) (by omega) ⟨by omega, by omega⟩

/-- Of two ranges that are apart and not empty one ends before the other starts. -/
theorem Apart.ordered {a b c d : Nat} (h : Apart a b c d) (hab : a < b) (hcd : c < d) :
    b ≤ c ∨ d ≤ a := by
  by_contra hnot
  by_cases hac : a ≤ c
  · exact h c hac (by omega) ⟨Nat.le_refl _, hcd⟩
  · exact h a (Nat.le_refl _) hab ⟨by omega, by omega⟩

/-! ## Small kernels -/

/-- The last address granted, when the break started at `4096`. -/
def smallBreak : List Syscall → Nat
  | [] => 4096
  | .brk addr ret :: h => if ret = addr then addr else smallBreak h
  | .mmap _ _ :: h => smallBreak h
  | .munmap _ _ :: h => smallBreak h

theorem breakAfter_eq_smallBreak {K : Kernel} (hstart : K.break0 = 4096) (h : List Syscall) :
    breakAfter K h = smallBreak h := by
  induction h with
  | nil => exact hstart
  | cons c h ih =>
    cases c with
    | brk addr ret => simp only [breakAfter, smallBreak, ih]
    | mmap length ret => exact ih
    | munmap addr length => exact ih

/-- The break never moves, and `mmap` answers the error number `-errno`. -/
def refusingKernel (errno : Nat) : Kernel where
  break0 := 4096
  brk h addr := if addr = 0 then smallBreak h else 0
  mmap _ _ := 2 ^ 64 - errno

theorem refusingKernel_lawful {errno : Nat} (hpos : 0 < errno) (hle : errno ≤ 4095) :
    (refusingKernel errno).Lawful := by
  have herrno : ∀ h length, isErrno ((refusingKernel errno).mmap h length) = true := by
    intro h length
    refine decide_eq_true ⟨?_, ?_⟩
    · simp only [refusingKernel]
      omega
    · simp only [refusingKernel]
      omega
  have hgrant : ∀ h addr, (refusingKernel errno).brk h addr = addr → addr = 0 := by
    intro h addr hgrant
    by_contra hne
    simp only [refusingKernel, if_neg hne] at hgrant
    exact hne hgrant.symm
  constructor
  · exact Nat.succ_pos 4095
  · exact show 4096 ≤ userTop by decide
  · intro h
    rw [breakAfter_eq_smallBreak rfl]
    simp [refusingKernel]
  · intro h addr hgrant'
    rw [hgrant h addr hgrant']
    exact Nat.zero_le _
  · intro h addr hgrant' r _
    rw [hgrant h addr hgrant']
    exact fun x _ hx => absurd hx (Nat.not_lt_zero x)
  · intro h length hok
    rw [herrno] at hok
    cases hok
  · intro h length hok
    rw [herrno] at hok
    cases hok
  · intro h length hok
    rw [herrno] at hok
    cases hok

/-- Grants a break above `4096` up to `2 ^ 30` that meets no mapping, and one mapping at a
time, at `2 ^ 46`. -/
def smallKernel : Kernel where
  break0 := 4096
  brk h addr :=
    if addr = 0 then smallBreak h
    else if addr ≤ 2 ^ 30 ∧ ∀ r ∈ mapsAfter h, addr ≤ r.1 then addr
    else 0
  mmap h length :=
    if 2 ^ 46 + length ≤ userTop ∧ smallBreak h ≤ 2 ^ 46 ∧ mapsAfter h = [] then 2 ^ 46
    else 2 ^ 64 - 12

/-- With the `brk` of `smallKernel`, only the mappings are left to check. -/
theorem lawful_of_small_brk {K : Kernel} (hbreak0 : K.break0 = 4096)
    (hbrk : K.brk = smallKernel.brk)
    (hmmap : ∀ h length, isErrno (K.mmap h length) = false →
      4096 ∣ K.mmap h length ∧ K.mmap h length + length ≤ userTop ∧
        smallBreak h ≤ K.mmap h length ∧
        ∀ r ∈ mapsAfter h, Apart r.1 (r.1 + r.2) (K.mmap h length) (K.mmap h length + length)) :
    K.Lawful where
  break0_pos := by
    rw [hbreak0]
    decide
  break0_user := by
    rw [hbreak0]
    decide
  brk_query h := by
    rw [breakAfter_eq_smallBreak hbreak0, hbrk]
    simp [smallKernel]
  brk_user h addr hgrant := by
    simp only [hbrk, smallKernel, userTop] at hgrant ⊢
    split_ifs at hgrant <;> omega
  brk_apart h addr hgrant r hr := by
    intro x hlo hhi hx
    simp only [hbrk, smallKernel] at hgrant
    split_ifs at hgrant with h0 hroom
    · omega
    · have := hroom.2 r hr
      omega
    · omega
  mmap_page h length hok := by
    obtain ⟨hdvd, huser, -, -⟩ := hmmap h length hok
    exact ⟨hdvd, huser⟩
  mmap_apart_break h length hok := by
    obtain ⟨-, -, hbelow, -⟩ := hmmap h length hok
    rw [breakAfter_eq_smallBreak hbreak0]
    exact apart_of_le (.inl hbelow)
  mmap_apart_maps h length hok := by
    obtain ⟨-, -, -, hmaps⟩ := hmmap h length hok
    exact hmaps

theorem smallKernel_mmap_granted {h : List Syscall} {length : Nat}
    (hok : isErrno (smallKernel.mmap h length) = false) :
    smallKernel.mmap h length = 2 ^ 46 ∧ 2 ^ 46 + length ≤ userTop ∧ smallBreak h ≤ 2 ^ 46 ∧
      mapsAfter h = [] := by
  revert hok
  simp only [smallKernel]
  split_ifs with hcond
  · exact fun _ => ⟨rfl, hcond⟩
  · intro hok
    simp [isErrno] at hok

theorem smallKernel_lawful : smallKernel.Lawful := by
  refine lawful_of_small_brk rfl rfl fun h length hok => ?_
  obtain ⟨heq, huser, hbreak, hnone⟩ := smallKernel_mmap_granted hok
  rw [heq, hnone]
  exact ⟨by decide, huser, hbreak, fun r hr => absurd hr List.not_mem_nil⟩

/-- Like `smallKernel`, but it grants mappings above one another, `2 ^ 30` bytes apart. -/
def stackKernel : Kernel where
  break0 := 4096
  brk := smallKernel.brk
  mmap h length :=
    let a := 2 ^ 46 + 2 ^ 30 * (mapsAfter h).length
    if a + length ≤ userTop ∧ smallBreak h ≤ 2 ^ 46 ∧ ∀ r ∈ mapsAfter h, r.1 + r.2 ≤ a then a
    else 2 ^ 64 - 12

theorem stackKernel_mmap_granted {h : List Syscall} {length : Nat}
    (hok : isErrno (stackKernel.mmap h length) = false) :
    ∃ k, stackKernel.mmap h length = 2 ^ 46 + 2 ^ 30 * k ∧
      stackKernel.mmap h length + length ≤ userTop ∧ smallBreak h ≤ 2 ^ 46 ∧
      ∀ r ∈ mapsAfter h, r.1 + r.2 ≤ stackKernel.mmap h length := by
  revert hok
  simp only [stackKernel]
  split_ifs with hcond
  · exact fun _ => ⟨_, rfl, hcond⟩
  · intro hok
    simp [isErrno] at hok

theorem stackKernel_lawful : stackKernel.Lawful := by
  refine lawful_of_small_brk rfl rfl fun h length hok => ?_
  obtain ⟨k, heq, huser, hbreak, hbelow⟩ := stackKernel_mmap_granted hok
  exact ⟨by omega, huser, by omega, fun r hr => apart_of_le (.inl (hbelow r hr))⟩

/-- Like `smallKernel`, but it grants each mapping right below the last one. -/
def downKernel : Kernel where
  break0 := 4096
  brk := smallKernel.brk
  mmap h length :=
    let top := match mapsAfter h with
      | [] => 2 ^ 46
      | r :: _ => r.1
    let a := (top - length) / 4096 * 4096
    if a + length ≤ userTop ∧ smallBreak h ≤ a ∧ ∀ r ∈ mapsAfter h, a + length ≤ r.1 then a
    else 2 ^ 64 - 12

theorem downKernel_mmap_granted {h : List Syscall} {length : Nat}
    (hok : isErrno (downKernel.mmap h length) = false) :
    ∃ k, downKernel.mmap h length = k * 4096 ∧ downKernel.mmap h length + length ≤ userTop ∧
      smallBreak h ≤ downKernel.mmap h length ∧
      ∀ r ∈ mapsAfter h, downKernel.mmap h length + length ≤ r.1 := by
  revert hok
  simp only [downKernel]
  split_ifs with hcond
  · exact fun _ => ⟨_, rfl, hcond⟩
  · intro hok
    simp [isErrno] at hok

theorem downKernel_lawful : downKernel.Lawful := by
  refine lawful_of_small_brk rfl rfl fun h length hok => ?_
  obtain ⟨k, heq, huser, hbreak, habove⟩ := downKernel_mmap_granted hok
  exact ⟨by omega, huser, hbreak, fun r hr => apart_of_le (.inr (habove r hr))⟩

end Toylibc
