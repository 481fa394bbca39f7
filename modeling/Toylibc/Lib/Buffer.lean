import Mathlib.Data.List.Induction
import Mathlib.Tactic.Common

/-!
# Fixed-size buffers

A buffer is a list whose length never changes. A store outside of it has no result, so
"every index is in range" is the statement that a function returns one.

* `store b i x`: `b[i] = x`.
* `reverseUp`: the loop that reverses a part of a buffer in place.

Lemmas about a buffer that is split as `l ++ m ++ r` say what a store or a reversal does
to the middle.
-/

namespace Buffer

variable {α : Type}

/-- `b[i] = x`. -/
def store (b : List α) (i : Nat) (x : α) : Option (List α) :=
  if i < b.length then some (b.set i x) else none

/-- `while (i < j) { swap(b[i], b[j]); i++; j--; }`, with fuel. -/
def reverseUp : Nat → List α → Nat → Nat → Option (List α)
  | 0, _, _, _ => none
  | fuel + 1, b, i, j =>
    if i < j then do
      let x ← b[i]?
      let y ← b[j]?
      let b ← store b i y
      let b ← store b j x
      reverseUp fuel b (i + 1) (j - 1)
    else some b

theorem store_append_cons (l r : List α) (x y : α) :
    store (l ++ y :: r) l.length x = some (l ++ x :: r) := by
  simp [store]

theorem length_store {b b' : List α} {i : Nat} {x : α} (h : store b i x = some b') :
    b'.length = b.length := by
  unfold store at h
  split at h
  · cases h
    exact List.length_set
  · cases h

theorem store_of_lt {b : List α} {i : Nat} (h : i < b.length) (x : α) :
    store b i x = some (b.set i x) := if_pos h

theorem store_eq_some {α : Type} {b b' : List α} {i : Nat} {x : α} (h : store b i x = some b') :
    i < b.length ∧ b' = b.set i x := by
  unfold store at h
  split at h
  · next hi => exact ⟨hi, (Option.some.inj h).symm⟩
  · cases h

/-- A store behind the first `i` elements appends to them. -/
theorem take_store {b b' : List α} {i : Nat} {x : α} (h : store b i x = some b') :
    b'.take (i + 1) = b.take i ++ [x] := by
  unfold store at h
  split at h
  · next hlt =>
    cases h
    rw [List.take_add_one, List.take_set_of_le (Nat.le_refl i), List.getElem?_set_self hlt]
    rfl
  · cases h

theorem getElem?_append_cons (l r : List α) (x : α) : (l ++ x :: r)[l.length]? = some x := by
  simp

/-- One round of the loop swaps the two ends of the middle. -/
theorem reverseUp_swap (l m r : List α) (x y : α) (fuel : Nat) :
    reverseUp (fuel + 1) (l ++ x :: (m ++ y :: r)) l.length (l.length + m.length + 1) =
      reverseUp fuel (l ++ y :: (m ++ x :: r)) (l.length + 1) (l.length + m.length) := by
  have hlast : (l ++ x :: m).length = l.length + m.length + 1 := by simp; omega
  have hlast' : (l ++ y :: m).length = l.length + m.length + 1 := by simp; omega
  have hready : (l ++ x :: (m ++ y :: r))[l.length + m.length + 1]? = some y := by
    have := getElem?_append_cons (l ++ x :: m) r y
    rwa [hlast, List.append_assoc, List.cons_append] at this
  have hstore : store (l ++ y :: (m ++ y :: r)) (l.length + m.length + 1) x =
      some (l ++ y :: (m ++ x :: r)) := by
    have := store_append_cons (l ++ y :: m) r x y
    rwa [hlast', List.append_assoc, List.append_assoc, List.cons_append, List.cons_append] at this
  have hlt : l.length < l.length + m.length + 1 := by omega
  rw [reverseUp, if_pos hlt, getElem?_append_cons, hready]
  simp only [bind, Option.bind, store_append_cons, hstore, Nat.add_sub_cancel]

/-- The middle of the buffer is reversed, the rest is kept. -/
theorem reverseUp_append (l m r : List α) {fuel : Nat} (hfuel : m.length < fuel) :
    reverseUp fuel (l ++ m ++ r) l.length (l.length + m.length - 1) =
      some (l ++ m.reverse ++ r) := by
  induction m using List.bidirectionalRec generalizing l r fuel with
  | nil =>
    obtain ⟨fuel, rfl⟩ := Nat.exists_eq_add_of_lt hfuel
    have hend : ¬l.length < l.length + 0 - 1 := by omega
    rw [List.length_nil, reverseUp, if_neg hend]
    rfl
  | singleton x =>
    obtain ⟨fuel, rfl⟩ := Nat.exists_eq_add_of_lt hfuel
    simp [reverseUp]
  | cons_append x m y ih =>
    simp only [List.length_cons, List.length_append, List.length_nil] at hfuel
    obtain ⟨fuel, rfl⟩ := Nat.exists_eq_succ_of_ne_zero (show fuel ≠ 0 by omega)
    have hrest := ih (l ++ [y]) (x :: r) (show m.length < fuel by omega)
    have hswap := reverseUp_swap l m r x y fuel
    simp only [List.length_append, List.length_cons, List.length_nil, List.append_assoc,
      List.cons_append, List.nil_append, List.reverse_cons,
      List.reverse_append, List.reverse_nil] at hrest hswap ⊢
    rw [show l.length + (m.length + (0 + 1) + 1) - 1 = l.length + m.length + 1 by omega, hswap,
      ← hrest]
    congr 1
    omega

end Buffer
