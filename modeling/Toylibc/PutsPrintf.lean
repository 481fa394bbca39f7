import Toylibc.PartialWrites

/-!
# `puts` and `printf`

`toylibc_puts(s)` passes the string and the line break to two writes of their own, and
`toylibc_printf("%s\n", s)` sends them through its buffer. When every write is accepted the
output and the result are the same, for `NULL` too (`puts_eq_printf`). The bytes of `s` are not
read as a format, so it makes no difference where `%` occurs in them.
-/

namespace Toylibc

/-- The format `%s` with a line break. -/
def lineFormat : CString := ⟨ascii ['%', 's', '\n'], by decide⟩

/-- The argument of `toylibc_puts` for a pointer and the string that it points to. -/
def pointed (p : BitVec 64) (s : CString) : Option CString := if p = 0 then none else some s

theorem accepted_of_acceptsAll {w : Writer} (hw : w.AcceptsAll) (k : Nat)
    (bs : List (List UInt8)) : accepted (writeCalls w k bs) = bs.flatten := by
  induction bs generalizing k with
  | nil => rfl
  | cons b bs ih =>
    have hrest := ih (k + 1)
    unfold accepted at hrest ⊢
    rw [writeCalls, List.map_cons, List.flatten_cons, hrest, hw, Int.toNat_natCast,
      List.take_length, List.flatten_cons]

/-- The texts that the format stands for are those of `toylibc_puts`. -/
theorem lineFormat_pieces (p : BitVec 64) (s : CString) :
    ∃ ps, pieces lineFormat.bytes [.ptr p s] = some (ps, []) ∧
      ps.flatten = putsText (pointed p s) := by
  have hpieces : pieces lineFormat.bytes [.ptr p s] =
      some ([if p = 0 then ascii ['(', 'n', 'u', 'l', 'l', ')'] else s.bytes, [ch '\n']], []) :=
    rfl
  refine ⟨_, hpieces, ?_⟩
  unfold pointed
  split <;> rfl

/-- `toylibc_puts` writes its text, and answers its length. -/
theorem puts_accepted {w : Writer} (hw : w.AcceptsAll) {s : Option CString}
    (hshort : (putsText s).length < 2 ^ 31) :
    accepted (toylibcPuts w s).2 = putsText s ∧ (∀ c ∈ (toylibcPuts w s).2, c.fd = 1) ∧
      (toylibcPuts w s).1 = (putsText s).length := by
  cases s with
  | none =>
    have hcalls : (toylibcPuts w none).2 = writeCalls w 0 [nullLine] := rfl
    rw [hcalls, accepted_of_acceptsAll hw]
    exact ⟨List.flatten_singleton, fun c => writeCalls_fd, rfl⟩
  | some s =>
    have hcalls : (toylibcPuts w (some s)).2 = writeCalls w 0 [s.bytes, [ch '\n']] := rfl
    have hlen : (putsText (some s)).length = s.bytes.length + 1 := List.length_append
    rw [hcalls, accepted_of_acceptsAll hw]
    refine ⟨?_, fun c => writeCalls_fd, ?_⟩
    · rw [List.flatten_cons, List.flatten_singleton, putsText]
    · have hret : (toylibcPuts w (some s)).1 =
          if (s.bytes.length : Int) < 0 ∨ (1 : Int) < 0 then -1
          else toInt (s.bytes.length + 1) := by
        unfold toylibcPuts toylibcWrite
        dsimp only
        rw [hw, hw]
        rfl
      rw [hlen] at hshort
      rw [hret, if_neg (by omega), toInt_eq (by omega) (by omega), hlen]
      rfl

/-- `toylibc_puts(s)` is `toylibc_printf("%s\n", s)`, when the kernel accepts every write. -/
theorem puts_eq_printf {w : Writer} (hw : w.AcceptsAll)
    (buf : {b : List UInt8 // b.length = printfBufSize}) (p : BitVec 64) (s : CString)
    (hshort : p ≠ 0 → s.bytes.length < 2 ^ 31 - 1) :
    ∃ r, toylibcPrintf w buf lineFormat [.ptr p s] = some r ∧
      accepted r.calls = accepted (toylibcPuts w (pointed p s)).2 ∧
      (∀ c ∈ r.calls, c.fd = 1) ∧ (∀ c ∈ (toylibcPuts w (pointed p s)).2, c.fd = 1) ∧
      r.ret = (toylibcPuts w (pointed p s)).1 := by
  have hlen : (putsText (pointed p s)).length < 2 ^ 31 := by
    unfold pointed
    split
    · decide
    · next hp =>
      have hs := hshort hp
      rw [putsText, List.length_append, List.length_singleton]
      omega
  obtain ⟨hout, hfd, hret⟩ := puts_accepted hw hlen
  obtain ⟨ps, hps, htext⟩ := lineFormat_pieces p s
  obtain ⟨ret, bs, hprintf, hbuf, hprinted⟩ := printf_buffered w buf lineFormat hps
  rw [map_cut_eq (by rwa [htext]), htext] at hbuf hprinted
  refine ⟨_, hprintf, ?_, fun c => writeCalls_fd, hfd, ?_⟩
  · rw [hout, accepted_of_acceptsAll hw, hbuf.text]
  · rw [hret]
    exact hprinted hw hlen

/-- The string `%d%`, which would be a format. -/
def formatLike : CString := ⟨ascii ['%', 'd', '%'], by decide⟩

theorem formatLike_printed : ∃ r,
    toylibcPrintf acceptingWriter freshBuf lineFormat [.ptr 1 formatLike] = some r ∧
      accepted r.calls = ascii ['%', 'd', '%', '\n'] ∧ r.ret = 4 := by
  obtain ⟨r, hprintf, hout, -, -, hret⟩ := puts_eq_printf (w := acceptingWriter)
    (fun _ _ => rfl) freshBuf 1 formatLike (by decide)
  exact ⟨r, hprintf, hout, hret⟩

end Toylibc
