import Mathlib.Data.List.Basic
import Mathlib.Data.List.Range
import Mathlib.Tactic.Common

/-!
# Offers that are taken in part

A sequence is offered piece by piece, and the receiver takes a prefix of every piece. An
offer `(n, r)` is a piece of `n` elements of which the first `r` are taken.

What was taken is a prefix of what was offered when nothing is taken behind an element that
was left (`taken_eq_take`). For a sequence without repetitions this is the only way
(`inOrder_of_closed`).
-/

namespace Partial

variable {α β : Type}

/-- The elements of `xs` that are taken. -/
def taken : List α → List (Nat × Nat) → List α
  | _, [] => []
  | xs, o :: os => xs.take o.2 ++ taken (xs.drop o.1) os

/-- Something is taken of an offer only if every offer before it was taken in full. -/
def InOrder (os : List (Nat × Nat)) : Prop := os.Pairwise fun a b => 0 < b.2 → a.2 = a.1

instance (os : List (Nat × Nat)) : Decidable (InOrder os) :=
  inferInstanceAs (Decidable (List.Pairwise _ os))

def offered : List (Nat × Nat) → Nat
  | [] => 0
  | o :: os => o.1 + offered os

def total : List (Nat × Nat) → Nat
  | [] => 0
  | o :: os => o.2 + total os

theorem taken_map (f : α → β) (xs : List α) (os : List (Nat × Nat)) :
    taken (xs.map f) os = (taken xs os).map f := by
  induction os generalizing xs with
  | nil => rfl
  | cons o os ih => rw [taken, taken, List.map_append, ← List.map_take, ← List.map_drop, ih]

theorem total_pos {os : List (Nat × Nat)} {o : Nat × Nat} (ho : o ∈ os) (hpos : 0 < o.2) :
    0 < total os := by
  induction ho with
  | head => exact Nat.add_pos_left hpos _
  | tail _ _ ih => exact Nat.add_pos_right _ ih

theorem exists_taken_of_total_pos {os : List (Nat × Nat)} (h : 0 < total os) :
    ∃ o ∈ os, 0 < o.2 := by
  induction os with
  | nil => cases h
  | cons o os ih =>
    rcases Nat.eq_zero_or_pos o.2 with hzero | hpos
    · have hrest : 0 < total os := by
        rwa [total, hzero, Nat.zero_add] at h
      obtain ⟨p, hp, hp0⟩ := ih hrest
      exact ⟨p, List.mem_cons_of_mem _ hp, hp0⟩
    · exact ⟨o, List.mem_cons_self, hpos⟩

theorem total_le_offered {os : List (Nat × Nat)} (hle : ∀ o ∈ os, o.2 ≤ o.1) :
    total os ≤ offered os := by
  induction os with
  | nil => exact Nat.le_refl 0
  | cons o os ih =>
    exact Nat.add_le_add (hle o List.mem_cons_self)
      (ih fun p hp => hle p (List.mem_cons_of_mem _ hp))

theorem taken_of_total_zero {os : List (Nat × Nat)} (h : total os = 0) (xs : List α) :
    taken xs os = [] := by
  induction os generalizing xs with
  | nil => rfl
  | cons o os ih =>
    obtain ⟨ho, hos⟩ := Nat.add_eq_zero_iff.mp (show o.2 + total os = 0 from h)
    rw [taken, ho, ih hos, List.take_zero, List.append_nil]

theorem length_taken {xs : List α} {os : List (Nat × Nat)} (hle : ∀ o ∈ os, o.2 ≤ o.1)
    (hlen : xs.length = offered os) : (taken xs os).length = total os := by
  induction os generalizing xs with
  | nil => rfl
  | cons o os ih =>
    have hsplit : xs.length = o.1 + offered os := hlen
    have ho := hle o List.mem_cons_self
    have hdrop : (xs.drop o.1).length = offered os := by
      rw [List.length_drop]
      omega
    have hrest := ih (fun p hp => hle p (List.mem_cons_of_mem _ hp)) hdrop
    rw [taken, List.length_append, List.length_take, hrest, Nat.min_eq_left (by omega)]
    rfl

theorem taken_eq_take {os : List (Nat × Nat)} (h : InOrder os) (xs : List α) :
    taken xs os = xs.take (total os) := by
  induction os generalizing xs with
  | nil => rfl
  | cons o os ih =>
    obtain ⟨hfirst, hrest⟩ := List.pairwise_cons.mp h
    change _ = xs.take (o.2 + total os)
    rcases Nat.eq_zero_or_pos (total os) with hzero | hpos
    · rw [taken, taken_of_total_zero hzero, hzero, List.append_nil, Nat.add_zero]
    · -- something is taken later, so this offer was taken in full
      obtain ⟨p, hp, hp0⟩ := exists_taken_of_total_pos hpos
      have hfull := hfirst p hp hp0
      rw [taken, ih hrest, hfull, List.take_add]

theorem mem_of_mem_taken {x : α} {xs : List α} {os : List (Nat × Nat)} (h : x ∈ taken xs os) :
    x ∈ xs := by
  induction os generalizing xs with
  | nil => cases h
  | cons o os ih =>
    rcases List.mem_append.mp h with hx | hx
    · exact List.mem_of_mem_take hx
    · exact List.mem_of_mem_drop (ih hx)

/-- In an increasing sequence the elements before an index are below those from it on. -/
theorem lt_of_mem_take_drop {xs : List Nat} (hxs : xs.Pairwise (· < ·)) {i x y : Nat}
    (hx : x ∈ xs.take i) (hy : y ∈ xs.drop i) : x < y := by
  rw [← List.take_append_drop i xs] at hxs
  exact (List.pairwise_append.mp hxs).2.2 x hx y hy

/-- The elements of an increasing sequence are taken in order when each is taken only
together with all smaller ones. -/
theorem inOrder_of_closed {xs : List Nat} {os : List (Nat × Nat)} (hxs : xs.Pairwise (· < ·))
    (hle : ∀ o ∈ os, o.2 ≤ o.1) (hlen : xs.length = offered os)
    (hclosed : ∀ p ∈ taken xs os, ∀ q ∈ xs, q < p → q ∈ taken xs os) : InOrder os := by
  induction os generalizing xs with
  | nil => exact List.Pairwise.nil
  | cons o os ih =>
    have hsplit : xs.length = o.1 + offered os := hlen
    have ho := hle o List.mem_cons_self
    have hle' : ∀ p ∈ os, p.2 ≤ p.1 := fun p hp => hle p (List.mem_cons_of_mem _ hp)
    have hlen' : (xs.drop o.1).length = offered os := by
      rw [List.length_drop]
      omega
    refine List.Pairwise.cons (fun p hp hpos => ?_)
      (ih (hxs.sublist (List.drop_sublist _ _)) hle' hlen' fun p hp q hq hlt => ?_)
    · -- else the first element that was left of `o` is below one that is taken later
      by_contra hne
      have hleft : o.2 < xs.length := by omega
      obtain ⟨y, hy⟩ : ∃ y, y ∈ taken (xs.drop o.1) os := by
        refine List.exists_mem_of_length_pos ?_
        rw [length_taken hle' hlen']
        exact total_pos hp hpos
      have hdrop : xs[o.2] ∈ xs.drop o.2 := by
        rw [List.drop_eq_getElem_cons hleft]
        exact List.mem_cons_self
      have htake : xs[o.2] ∈ xs.take o.1 :=
        List.mem_take_iff_getElem.mpr ⟨o.2, by omega, rfl⟩
      have hbelow := lt_of_mem_take_drop hxs htake (mem_of_mem_taken hy)
      rcases List.mem_append.mp (hclosed y (List.mem_append_right _ hy) _
        (List.getElem_mem hleft) hbelow) with hmem | hmem
      · exact Nat.lt_irrefl _ (lt_of_mem_take_drop hxs hmem hdrop)
      · exact Nat.lt_irrefl _ (lt_of_mem_take_drop hxs htake (mem_of_mem_taken hmem))
    · -- a smaller element of the rest was taken from the rest
      have hmem := hclosed p (List.mem_append_right _ hp) q (List.mem_of_mem_drop hq) hlt
      rcases List.mem_append.mp hmem with hmem | hmem
      · have hin := List.take_subset_take_left xs ho hmem
        exact absurd (lt_of_mem_take_drop hxs hin hq) (Nat.lt_irrefl q)
      · exact hmem

/-- Of a sequence of positions that agrees with `0, 1, ..` up to `u` only, the positions
taken are an initial segment exactly when they are taken in order and are at most `u`. -/
theorem taken_prefix_range_iff {u n : Nat} {ys : List Nat} {os : List (Nat × Nat)}
    (hxs : (List.range u ++ ys).Pairwise (· < ·)) (hys : ∀ y ∈ ys, u < y)
    (hu : u ≤ n) (hle : ∀ o ∈ os, o.2 ≤ o.1)
    (hlen : (List.range u ++ ys).length = offered os) :
    taken (List.range u ++ ys) os <+: List.range n ↔ InOrder os ∧ total os ≤ u := by
  constructor
  · intro h
    -- what was taken are the positions below their number
    have heq : taken (List.range u ++ ys) os = List.range (total os) := by
      have hlength := length_taken hle hlen
      have htake := List.prefix_iff_eq_take.mp h
      rw [hlength, List.take_range] at htake
      have := h.length_le
      rw [hlength, List.length_range] at this
      rwa [Nat.min_eq_left this] at htake
    have horder : InOrder os := by
      refine inOrder_of_closed hxs hle hlen fun p hp q _ hlt => ?_
      rw [heq, List.mem_range] at hp ⊢
      exact Nat.lt_trans hlt hp
    refine ⟨horder, ?_⟩
    by_contra hgt
    have hat := congrArg (·[u]?) heq
    simp only [taken_eq_take horder] at hat
    rw [List.getElem?_take_of_lt (by omega), List.getElem?_append_right (by simp),
      List.length_range, Nat.sub_self, List.getElem?_range (by omega)] at hat
    exact Nat.lt_irrefl u (hys u (List.mem_of_getElem? hat))
  · rintro ⟨horder, hle'⟩
    rw [taken_eq_take horder, List.take_append_of_le_length (by rwa [List.length_range]),
      List.take_range, Nat.min_eq_left hle']
    have hrange := List.take_prefix (total os) (List.range n)
    rwa [List.take_range, Nat.min_eq_left (by omega)] at hrange

end Partial
