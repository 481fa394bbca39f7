import Mathlib.Data.List.Basic
import Mathlib.Tactic.Common

/-!
# Lines and chunks

* `split sep s`: the lines of `s` that end with a separator, and the rest behind the last one.
* `chunks n l`: `l` in chunks of `n` elements, the last one shorter.
* `fullChunks n l`: only those of the full length.
-/

namespace Lines

variable {α : Type}

section split

variable [DecidableEq α] {sep : α}

def split (sep : α) : List α → List (List α) × List α
  | [] => ([], [])
  | c :: s =>
    let r := split sep s
    if c = sep then ([] :: r.1, r.2)
    else
      match r.1 with
      | [] => ([], c :: r.2)
      | l :: ls => ((c :: l) :: ls, r.2)

/-- A text without separators goes in front of the first line, or of the rest. -/
theorem split_append {a : List α} (ha : sep ∉ a) (s : List α) :
    split sep (a ++ s) =
      match (split sep s).1 with
      | [] => ([], a ++ (split sep s).2)
      | l :: ls => ((a ++ l) :: ls, (split sep s).2) := by
  induction a with
  | nil =>
    rw [List.nil_append]
    rcases split sep s with ⟨ls, t⟩
    cases ls <;> rfl
  | cons c a ih =>
    have hc : c ≠ sep := fun h => ha (h ▸ List.mem_cons_self)
    have hrest := ih fun h => ha (List.mem_cons_of_mem _ h)
    rw [List.cons_append, split, hrest, if_neg hc]
    rcases split sep s with ⟨ls, t⟩
    cases ls <;> rfl

theorem split_line {l : List α} (hl : sep ∉ l) (s : List α) :
    split sep (l ++ sep :: s) = (l :: (split sep s).1, (split sep s).2) := by
  have hsep : split sep (sep :: s) = ([] :: (split sep s).1, (split sep s).2) := if_pos rfl
  rw [split_append hl, hsep]
  dsimp only
  rw [List.append_nil]

/-- The first separator is where it is. -/
theorem split_unique {a b s t : List α} (ha : sep ∉ a) (hb : sep ∉ b)
    (h : a ++ sep :: s = b ++ sep :: t) : a = b ∧ s = t := by
  have hsplit := congrArg (split sep) h
  rw [split_line ha, split_line hb, Prod.mk.injEq, List.cons.injEq] at hsplit
  obtain ⟨⟨rfl, -⟩, -⟩ := hsplit
  exact ⟨rfl, (List.cons.inj (List.append_cancel_left h)).2⟩

theorem split_of_not_mem {t : List α} (ht : sep ∉ t) : split sep t = ([], t) := by
  have happend := split_append ht []
  rw [List.append_nil] at happend
  rw [happend]
  exact congrArg (([] : List (List α)), ·) (List.append_nil t)

end split

section chunks

variable {n : Nat} {l : List α}

def chunks (n : Nat) (l : List α) : List (List α) :=
  if n = 0 ∨ l.length < n then (if l.isEmpty then [] else [l])
  else l.take n :: chunks n (l.drop n)
termination_by l.length
decreasing_by
  rw [List.length_drop]
  omega

def fullChunks (n : Nat) (l : List α) : List (List α) :=
  if n = 0 ∨ l.length < n then [] else l.take n :: fullChunks n (l.drop n)
termination_by l.length
decreasing_by
  rw [List.length_drop]
  omega

theorem chunks_nil : chunks n ([] : List α) = [] := by
  rw [chunks]
  cases n <;> rfl

theorem flatten_chunks (n : Nat) (l : List α) : (chunks n l).flatten = l := by
  fun_induction chunks n l with
  | case1 l hshort hempty => rw [List.isEmpty_iff.mp hempty, List.flatten_nil]
  | case2 l hshort hempty => exact List.flatten_singleton
  | case3 l hlong ih => rw [List.flatten_cons, ih, List.take_append_drop]

theorem chunks_of_lt (h : l.length < n) (hl : l ≠ []) : chunks n l = [l] := by
  rw [chunks, if_pos (Or.inr h), if_neg (by rwa [List.isEmpty_iff])]

theorem fullChunks_of_lt (h : l.length < n) : fullChunks n l = [] := by
  rw [fullChunks, if_pos (Or.inr h)]

theorem chunks_append {a : List α} (ha : a.length = n) (hn : 0 < n) (l : List α) :
    chunks n (a ++ l) = a :: chunks n l := by
  have hlong : ¬(n = 0 ∨ (a ++ l).length < n) := by
    rw [List.length_append]
    omega
  rw [chunks, if_neg hlong, List.take_left' ha, List.drop_left' ha]

theorem fullChunks_append {a : List α} (ha : a.length = n) (hn : 0 < n) (l : List α) :
    fullChunks n (a ++ l) = a :: fullChunks n l := by
  have hlong : ¬(n = 0 ∨ (a ++ l).length < n) := by
    rw [List.length_append]
    omega
  rw [fullChunks, if_neg hlong, List.take_left' ha, List.drop_left' ha]

theorem chunks_of_le (hn : 0 < n) (h : l.length ≤ n) (hl : l ≠ []) : chunks n l = [l] := by
  rcases Nat.eq_or_lt_of_le h with heq | hlt
  · have happend := chunks_append heq hn []
    rwa [List.append_nil, chunks_nil] at happend
  · exact chunks_of_lt hlt hl

theorem one_le_length_chunks (hn : 0 < n) (hl : l ≠ []) : 1 ≤ (chunks n l).length := by
  rcases Nat.lt_or_ge l.length n with hlt | hge
  · rw [chunks_of_lt hlt hl]
    exact Nat.le_refl 1
  · rw [← List.take_append_drop n l, chunks_append (List.length_take_of_le hge) hn]
    exact Nat.le_add_left 1 _

/-- A text that is too long gives more than one chunk. -/
theorem two_le_length_chunks (hn : 0 < n) (h : n < l.length) : 2 ≤ (chunks n l).length := by
  have hrest : l.drop n ≠ [] := by
    rw [Ne, List.drop_eq_nil_iff]
    omega
  have hone := one_le_length_chunks hn hrest
  rw [← List.take_append_drop n l, chunks_append (List.length_take_of_le (by omega)) hn,
    List.length_cons]
  omega

theorem lt_of_fullChunks_eq_nil (hn : 0 < n) (h : fullChunks n l = []) : l.length < n := by
  by_contra hge
  rw [fullChunks, if_neg (by omega)] at h
  cases h

/-- The lines that are not empty. -/
def nonEmpty (ls : List (List α)) : List (List α) := ls.filter fun l => !l.isEmpty

theorem nonEmpty_cons_nil (ls : List (List α)) : nonEmpty ([] :: ls) = nonEmpty ls := rfl

theorem nonEmpty_cons (hl : l ≠ []) (ls : List (List α)) :
    nonEmpty (l :: ls) = l :: nonEmpty ls := by
  cases l with
  | nil => exact absurd rfl hl
  | cons => rfl

theorem flatten_chunks_of_le (hn : 0 < n) {ls : List (List α)} (h : ∀ l ∈ ls, l.length ≤ n) :
    (ls.map (chunks n)).flatten = nonEmpty ls := by
  induction ls with
  | nil => rfl
  | cons l ls ih =>
    have hrest := ih fun k hk => h k (List.mem_cons_of_mem _ hk)
    rw [List.map_cons, List.flatten_cons, hrest]
    by_cases hl : l = []
    · rw [hl, chunks_nil, nonEmpty_cons_nil]
      rfl
    · rw [chunks_of_le hn (h l List.mem_cons_self) hl, nonEmpty_cons hl]
      rfl

theorem length_nonEmpty_le (hn : 0 < n) (ls : List (List α)) :
    (nonEmpty ls).length ≤ (ls.map (chunks n)).flatten.length := by
  induction ls with
  | nil => exact Nat.le_refl 0
  | cons l ls ih =>
    rw [List.map_cons, List.flatten_cons, List.length_append]
    by_cases hl : l = []
    · rw [hl, nonEmpty_cons_nil]
      omega
    · have hone := one_le_length_chunks hn hl
      rw [nonEmpty_cons hl, List.length_cons]
      omega

/-- When there is one chunk for each line, no line was too long. -/
theorem le_of_length_chunks_le (hn : 0 < n) {ls : List (List α)}
    (h : (ls.map (chunks n)).flatten.length ≤ (nonEmpty ls).length) :
    ∀ l ∈ ls, l.length ≤ n := by
  induction ls with
  | nil => nofun
  | cons l ls ih =>
    have hrest := length_nonEmpty_le hn ls
    rw [List.map_cons, List.flatten_cons, List.length_append] at h
    by_cases hl : l = []
    · rw [hl, nonEmpty_cons_nil, chunks_nil, List.length_nil, Nat.zero_add] at h
      rw [List.forall_mem_cons, hl]
      exact ⟨Nat.zero_le n, ih h⟩
    · have hone := one_le_length_chunks hn hl
      rw [nonEmpty_cons hl, List.length_cons] at h
      rw [List.forall_mem_cons]
      refine ⟨?_, ih (by omega)⟩
      by_contra hlong
      have htwo := two_le_length_chunks hn (Nat.lt_of_not_le hlong)
      omega

end chunks

end Lines
