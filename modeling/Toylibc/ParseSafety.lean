import Toylibc.ParseTexts

/-!
# `parse_line` is memory safe

All that is asked of the in-place loops of `parse_line`, on every line: no unread byte is
overwritten, no store leaves the line or `argv`, and `argv` points to strings of the buffer, one
behind the other (`parseLine_safe`).
-/

namespace Toylibc

open Buffer

/-- The strings that the first `argc` entries of `argv` point to end inside the line, and begin
one behind the other. -/
structure PointsInside (n : Nat) (parsed : Parsed) : Prop where
  ends : ∀ i, i < parsed.argc → ∃ a e, parsed.argv[i]? = some (some a) ∧ a ≤ e ∧ e ≤ n ∧
    parsed.buf[e]? = some 0
  increasing : ∀ i j, i < j → j < parsed.argc → ∃ a b, parsed.argv[i]? = some (some a) ∧
    parsed.argv[j]? = some (some b) ∧ a < b

theorem Finished.pointsInside {line : List UInt8} {parsed : Parsed} (h : Finished line parsed)
    (hnul : (0 : UInt8) ∉ line) : PointsInside line.length parsed := by
  have hargc : parsed.argc ≤ (texts line).length := h.argc ▸ Nat.min_le_right _ _
  refine ⟨fun i hi => ?_, fun i j hij hj => ?_⟩
  · have ht : (texts line)[i]? = some (texts line)[i] := List.getElem?_eq_getElem (by omega)
    obtain ⟨r, hr⟩ := packed_split ht
    have hfits := h.fits
    rw [hr, List.length_append, List.length_append, List.length_cons] at hfits
    exact ⟨_, _, h.slots i hi, Nat.le_add_right _ _, by omega, (h.stringIn hnul ht).nul⟩
  · exact ⟨_, _, h.slots i (by omega), h.slots j hj, packed_take_lt hij (by omega)⟩

/-- `parse_line` on any line in a buffer. At every loop head, the write cursor is not behind the
read cursor and the unread bytes are as they were; every store is inside the line or inside
`argv`; and it returns with pointers into the line. -/
theorem parseLine_safe (line : CString) (tail : List UInt8)
    (argv : {v : List (Option Nat) // v.length = maxArgs}) :
    (∀ r, Passes (line.bytes ++ 0 :: tail) argv r →
      (r.point ≠ .done → r.st.out ≤ r.st.input ∧
        ∀ i, r.st.input ≤ i → r.st.buf[i]? = (line.bytes ++ 0 :: tail)[i]?) ∧
      (∀ i ∈ r.stored, i ≤ line.bytes.length) ∧ ∀ i ∈ r.slots, i < maxArgs) ∧
    ∃ r, Passes (line.bytes ++ 0 :: tail) argv r ∧ r.point = .done ∧
      parseLine (line.bytes ++ 0 :: tail) argv = some ⟨r.st.argc, r.st.buf, r.st.argv⟩ ∧
      PointsInside line.bytes.length ⟨r.st.argc, r.st.buf, r.st.argv⟩ := by
  have hend : (line.bytes ++ 0 :: tail)[line.bytes.length]? = some 0 :=
    getElem?_append_cons line.bytes tail 0
  constructor
  · intro r hpass
    obtain ⟨hreading, hstored, hslots⟩ := parse_safe hend argv.2 hpass
    exact ⟨fun hhead => ⟨(hreading hhead).out_le, (hreading hhead).unread⟩, hstored, hslots⟩
  · obtain ⟨parsed, hparse, hdone⟩ := parseLine_finished line.no_nul tail argv.2
    obtain ⟨r, hpass, hpoint, rfl⟩ := parseLine_passes hparse
    exact ⟨r, hpass, hpoint, hparse, hdone.pointsInside line.no_nul⟩

end Toylibc
