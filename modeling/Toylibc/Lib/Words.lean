import Toylibc.Lib.Lines

/-!
# Words

* `words p l`: the maximal pieces of `l` in which no element satisfies `p`.
* `fields p l`: the same, but the piece in front of the first separator is kept when it is empty.
-/

namespace Words

open Lines

variable {α : Type} {p : α → Bool}

def words (p : α → Bool) (l : List α) : List (List α) := nonEmpty (l.splitOnP p)

def fields (p : α → Bool) (l : List α) : List (List α) :=
  match l.splitOnP p with
  | [] => []
  | w :: ws => w :: nonEmpty ws

theorem words_nil : words p [] = [] := by
  rw [words, List.splitOnP_nil]
  rfl

theorem fields_nil : fields p [] = [[]] := by
  rw [fields, List.splitOnP_nil]
  rfl

/-- A separator cuts a text into two texts of their own. -/
theorem words_append_cons (a b : List α) {x : α} (hx : p x = true) :
    words p (a ++ x :: b) = words p a ++ words p b := by
  rw [words, List.splitOnP_append_cons a b hx]
  exact List.filter_append ..

theorem words_cons_sep {x : α} (hx : p x = true) (l : List α) : words p (x :: l) = words p l := by
  have hcut := words_append_cons [] l hx
  rwa [List.nil_append, words_nil, List.nil_append] at hcut

theorem fields_cons_sep {x : α} (hx : p x = true) (l : List α) :
    fields p (x :: l) = [] :: words p l := by
  rw [fields, List.splitOnP_cons_eq_if_modifyHead, if_pos hx]
  rfl

/-- Another element belongs to the first field. -/
theorem fields_cons {x : α} (hx : p x = false) (l : List α) :
    fields p (x :: l) = (fields p l).modifyHead (x :: ·) := by
  rw [fields, fields, List.splitOnP_cons_eq_if_modifyHead, hx]
  cases l.splitOnP p <;> rfl

/-- A text that starts with a word has no empty field. -/
theorem words_cons {x : α} (hx : p x = false) (l : List α) :
    words p (x :: l) = fields p (x :: l) := by
  rw [words, fields, List.splitOnP_cons_eq_if_modifyHead, hx]
  cases l.splitOnP p with
  | nil => rfl
  | cons w ws => exact nonEmpty_cons (List.cons_ne_nil x w) ws

/-- The first field is the text up to the first separator. -/
theorem fields_eq_cons (l : List α) : ∃ ws, fields p l = l.takeWhile (! p ·) :: ws := by
  induction l with
  | nil => exact ⟨[], fields_nil⟩
  | cons x l ih =>
    cases hx : p x with
    | true => exact ⟨words p l, by rw [fields_cons_sep hx, List.takeWhile_cons, hx]; rfl⟩
    | false =>
      obtain ⟨ws, hws⟩ := ih
      refine ⟨ws, ?_⟩
      rw [fields_cons hx, hws, List.takeWhile_cons, hx]
      rfl

theorem mem_of_mem_splitOnP {l w : List α} {x : α} (hw : w ∈ l.splitOnP p) (hx : x ∈ w) :
    x ∈ l := by
  induction l generalizing w with
  | nil =>
    rw [List.splitOnP_nil, List.mem_singleton] at hw
    rwa [hw] at hx
  | cons y l ih =>
    rw [List.splitOnP_cons_eq_if_modifyHead] at hw
    split at hw
    · rcases List.mem_cons.mp hw with rfl | hw
      · cases hx
      · exact List.mem_cons_of_mem y (ih hw hx)
    · cases hsplit : l.splitOnP p with
      | nil => exact absurd hsplit (List.splitOnP_ne_nil p l)
      | cons v vs =>
        rw [hsplit] at hw ih
        rcases List.mem_cons.mp hw with rfl | hw
        · rcases List.mem_cons.mp hx with rfl | hx
          · exact List.mem_cons_self
          · exact List.mem_cons_of_mem y (ih List.mem_cons_self hx)
        · exact List.mem_cons_of_mem y (ih (List.mem_cons_of_mem v hw) hx)

theorem mem_of_mem_fields {l w : List α} {x : α} (hw : w ∈ fields p l) (hx : x ∈ w) : x ∈ l := by
  refine mem_of_mem_splitOnP (p := p) ?_ hx
  unfold fields at hw
  split at hw
  · cases hw
  · next v vs hsplit =>
    rw [hsplit]
    rcases List.mem_cons.mp hw with rfl | hw
    · exact List.mem_cons_self
    · exact List.mem_cons_of_mem v (List.mem_of_mem_filter hw)

end Words
