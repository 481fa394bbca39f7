import Mathlib.Tactic.Common

/-!
# Stores of objects

What the client of an allocator thinks of: objects, each with its address and its cells. A cell
is `none` while nobody has stored to it. The addresses are numbers and the cells have any type.

* `Store.put`, `Store.drop`, `Store.poke`: a new object, the end of one, a store to an address.
* `resize`: the cells of an object that is moved to a place of another size.
* `Store.Knows o a i b`: the cell at the index `i` of the object at `a` is known to be `b`.
* `Store.Holds o read`: a memory, given by what it answers at each address, has what is known.
* `Store.Separate`: two objects have no address in common, and `Store.Vacant` is what a new one
  needs for that.
-/

namespace Objects

variable {β : Type}

/-- The cells of the object at each address where one starts. -/
abbrev Store (β : Type) := Nat → Option (List (Option β))

/-- The first `n` cells; those that did not exist are unknown. -/
def resize (v : List (Option β)) (n : Nat) : List (Option β) :=
  v.take n ++ List.replicate (n - v.length) none

namespace Store

/-- No objects. -/
def empty : Store β := fun _ => none

def put (o : Store β) (a : Nat) (v : List (Option β)) : Store β := Function.update o a (some v)

def drop (o : Store β) (a : Nat) : Store β := Function.update o a none

/-- The store of `b` to the address `x`, in whichever object has it. -/
def poke (o : Store β) (x : Nat) (b : β) : Store β :=
  fun a => (o a).map fun v => if a ≤ x then v.set (x - a) (some b) else v

/-- What is known of a cell is what the memory has there. -/
def Holds (o : Store β) (read : Nat → β) : Prop :=
  ∀ a v, o a = some v → ∀ i b, v[i]? = some (some b) → read (a + i) = b

/-- `n` cells at `p` meet no object. -/
def Vacant (o : Store β) (p n : Nat) : Prop :=
  ∀ a v, o a = some v → a ≠ p ∧ ∀ x, a ≤ x → x < a + v.length → ¬(p ≤ x ∧ x < p + n)

/-- Two objects have no address in common. -/
def Separate (o : Store β) : Prop :=
  ∀ a v, o a = some v → Vacant (o.drop a) a v.length

variable {o : Store β} {read read' : Nat → β} {a p : Nat} {v : List (Option β)}

@[simp] theorem put_self (o : Store β) (a : Nat) (v : List (Option β)) : o.put a v a = some v :=
  Function.update_self ..

theorem put_of_ne (h : p ≠ a) (v : List (Option β)) : o.put a v p = o p :=
  Function.update_of_ne h ..

@[simp] theorem drop_self (o : Store β) (a : Nat) : o.drop a a = none :=
  Function.update_self ..

theorem drop_of_ne (h : p ≠ a) : o.drop a p = o p :=
  Function.update_of_ne h ..

theorem drop_eq_some : o.drop a p = some v ↔ p ≠ a ∧ o p = some v := by
  by_cases h : p = a
  · subst h
    simp
  · rw [drop_of_ne h]
    exact ⟨fun hv => ⟨h, hv⟩, fun hv => hv.2⟩

theorem put_eq_some {v' : List (Option β)} :
    o.put a v p = some v' ↔ (p = a ∧ v = v') ∨ (p ≠ a ∧ o p = some v') := by
  by_cases h : p = a
  · subst h
    simp
  · rw [put_of_ne h]
    exact ⟨fun hv => .inr ⟨h, hv⟩, fun hv => (hv.resolve_left fun hbad => h hbad.1).2⟩

/-- A store changes cells, and no object begins, ends or changes its length. -/
@[simp] theorem poke_length (o : Store β) (x : Nat) (b : β) (a : Nat) :
    (o.poke x b a).map List.length = (o a).map List.length := by
  unfold poke
  cases o a with
  | none => rfl
  | some v =>
    simp only [Option.map_some]
    split
    · rw [List.length_set]
    · rfl

/-- The byte at the index `i` of the object at `a` is known to be `b`. -/
def Knows (o : Store β) (a i : Nat) (b : β) : Prop :=
  ∃ v, o a = some v ∧ v[i]? = some (some b)

theorem Knows.put_of_ne {i : Nat} {b : β} (h : o.Knows a i b) (hne : a ≠ p)
    (v : List (Option β)) : (o.put p v).Knows a i b := by
  obtain ⟨v', hv', hb⟩ := h
  exact ⟨v', by rwa [Store.put_of_ne hne], hb⟩

theorem Knows.drop_of_ne {i : Nat} {b : β} (h : o.Knows a i b) (hne : a ≠ p) :
    (o.drop p).Knows a i b := by
  obtain ⟨v, hv, hb⟩ := h
  exact ⟨v, by rwa [Store.drop_of_ne hne], hb⟩

/-- A store to another address leaves the byte alone. -/
theorem Knows.poke_of_ne {i x : Nat} {b : β} (h : o.Knows a i b) (hne : x ≠ a + i) (b' : β) :
    (o.poke x b').Knows a i b := by
  obtain ⟨v, hv, hb⟩ := h
  refine ⟨_, by rw [poke, hv, Option.map_some], ?_⟩
  split
  · rwa [List.getElem?_set_ne (by omega)]
  · exact hb

/-- After a store to it the byte is known. -/
theorem knows_poke {i : Nat} (hv : o a = some v) (hi : i < v.length) (b : β) :
    (o.poke (a + i) b).Knows a i b := by
  refine ⟨v.set i (some b), ?_, List.getElem?_set_self hi⟩
  rw [poke, hv, Option.map_some, if_pos (Nat.le_add_right a i), Nat.add_sub_cancel_left]

theorem Vacant.ne_of_knows {n i : Nat} {b : β} (h : o.Vacant p n) (hk : o.Knows a i b) : a ≠ p := by
  obtain ⟨v, hv, -⟩ := hk
  exact (h a v hv).1

/-! ## What the memory holds -/

theorem Holds.read_eq (h : o.Holds read) {i : Nat} {b : β} (hk : o.Knows a i b) :
    read (a + i) = b := by
  obtain ⟨v, hv, hb⟩ := hk
  exact h a v hv i b hb

theorem holds_empty (read : Nat → β) : Holds empty read :=
  fun _ _ hv => absurd hv (Option.some_ne_none _).symm

/-- Objects keep what they hold when the memory changes outside of them. -/
theorem Holds.congr (h : o.Holds read)
    (hsame : ∀ a v, o a = some v → ∀ i, i < v.length → read' (a + i) = read (a + i)) :
    o.Holds read' := by
  intro a v hv i b hb
  have hi : i < v.length := (List.getElem?_eq_some_iff.mp hb).1
  rw [hsame a v hv i hi]
  exact h a v hv i b hb

theorem Holds.drop (h : o.Holds read) (a : Nat) : (o.drop a).Holds read :=
  fun p v hv => h p v (drop_eq_some.mp hv).2

theorem Holds.put (h : (o.drop a).Holds read)
    (hnew : ∀ i b, v[i]? = some (some b) → read (a + i) = b) : (o.put a v).Holds read := by
  intro p v' hv'
  rcases put_eq_some.mp hv' with ⟨rfl, rfl⟩ | ⟨hne, hv'⟩
  · exact hnew
  · exact h p v' (drop_eq_some.mpr ⟨hne, hv'⟩)

theorem Holds.poke (h : o.Holds read) {x : Nat} {b : β} (hx : read' x = b)
    (hne : ∀ a v, o a = some v → ∀ i, i < v.length → a + i ≠ x → read' (a + i) = read (a + i)) :
    (o.poke x b).Holds read' := by
  intro a v' hv'
  obtain ⟨v, hv, rfl⟩ := Option.map_eq_some_iff.mp hv'
  intro i b' hb'
  by_cases heq : a + i = x
  · subst heq
    rw [if_pos (Nat.le_add_right a i), Nat.add_sub_cancel_left] at hb'
    have hi : i < v.length := by
      have := (List.getElem?_eq_some_iff.mp hb').1
      rwa [List.length_set] at this
    rw [List.getElem?_set_self hi, Option.some.injEq, Option.some.injEq] at hb'
    rw [hx, hb']
  · have hold : v[i]? = some (some b') := by
      split at hb'
      · rwa [List.getElem?_set_ne (by omega)] at hb'
      · exact hb'
    rw [hne a v hv i (List.getElem?_eq_some_iff.mp hold).1 heq]
    exact h a v hv i b' hold

/-! ## Objects apart -/

theorem separate_empty : Separate (empty : Store β) :=
  fun _ _ hv => absurd hv (Option.some_ne_none _).symm

theorem Separate.drop (h : o.Separate) (a : Nat) : (o.drop a).Separate := by
  intro p v hv a' v' hv'
  have hv' := drop_eq_some.mp hv'
  exact h p v (drop_eq_some.mp hv).2 a' v'
    (drop_eq_some.mpr ⟨hv'.1, (drop_eq_some.mp hv'.2).2⟩)

theorem Separate.put (h : o.Separate) (hvacant : o.Vacant p v.length) : (o.put p v).Separate := by
  intro a v₁ hv₁ a' v₂ hv₂
  obtain ⟨hne, hv₂⟩ := drop_eq_some.mp hv₂
  rcases put_eq_some.mp hv₁ with ⟨rfl, rfl⟩ | ⟨-, hold₁⟩
  · rcases put_eq_some.mp hv₂ with ⟨rfl, -⟩ | ⟨-, hold₂⟩
    · exact absurd rfl hne
    · exact hvacant a' v₂ hold₂
  · rcases put_eq_some.mp hv₂ with ⟨rfl, rfl⟩ | ⟨-, hold₂⟩
    · refine ⟨hne, fun x hlo hhi hx => ?_⟩
      exact (hvacant a v₁ hold₁).2 x hx.1 hx.2 ⟨hlo, hhi⟩
    · exact h a v₁ hold₁ a' v₂ (drop_eq_some.mpr ⟨hne, hold₂⟩)

theorem Separate.poke (h : o.Separate) (x : Nat) (b : β) : (o.poke x b).Separate := by
  have hlength : ∀ {a v}, o.poke x b a = some v → ∃ v', o a = some v' ∧ v'.length = v.length := by
    intro a v hv
    have hmap := poke_length o x b a
    rw [hv, Option.map_some] at hmap
    exact Option.map_eq_some_iff.mp hmap.symm
  intro a v hv a' v' hv'
  obtain ⟨hne, hv'⟩ := drop_eq_some.mp hv'
  obtain ⟨d, hd, hlen⟩ := hlength hv
  obtain ⟨d', hd', hlen'⟩ := hlength hv'
  rw [← hlen, ← hlen']
  exact h a d hd a' d' (drop_eq_some.mpr ⟨hne, hd'⟩)

end Store

/-! ## Resizing -/

@[simp] theorem length_resize (v : List (Option β)) (n : Nat) : (resize v n).length = n := by
  rw [resize, List.length_append, List.length_take, List.length_replicate]
  omega

/-- What is known after the resizing was known before. -/
theorem getElem?_resize {v : List (Option β)} {n i : Nat} {b : β}
    (h : (resize v n)[i]? = some (some b)) : i < min v.length n ∧ v[i]? = some (some b) := by
  rw [resize, List.getElem?_append, List.length_take] at h
  split_ifs at h with hi
  · rw [List.getElem?_take_of_lt (by omega)] at h
    exact ⟨by omega, h⟩
  · rw [List.getElem?_replicate] at h
    split_ifs at h
    cases h

/-- What is known of a cell that is kept stays known. -/
theorem getElem?_resize_of_lt {v : List (Option β)} {n i : Nat} {b : β} (hi : i < n)
    (h : v[i]? = some (some b)) : (resize v n)[i]? = some (some b) := by
  have hlen : i < v.length := (List.getElem?_eq_some_iff.mp h).1
  rw [resize, List.getElem?_append_left (by rw [List.length_take]; omega),
    List.getElem?_take_of_lt hi, h]

end Objects
