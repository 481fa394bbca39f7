import Toylibc.Lib.Lines
import Toylibc.PartialWrites
import Toylibc.PutsPrintf

/-!
# The exact output of `printf`

Under every kernel a call of `printf` passes on its text in pieces of 2047 bytes, and answers the
number of the bytes that the kernel accepted (`printf_exact`). A format may be printed in two
calls where it is not inside a directive (`printf_twice`), and a text with its `%` doubled is a
format that prints the text (`printf_escape`).
-/

namespace Toylibc

open Buffer Lines

/-! ## The calls -/

/-- The buffers are the text in pieces of the size of the array. -/
theorem Buffered.eq_chunks {bs : List (List UInt8)} {text : List UInt8} (h : Buffered bs text) :
    bs = chunks (printfBufSize - 1) text := by
  have hsize : 0 < printfBufSize - 1 := by decide
  have hfull := h.full
  have hlast := h.last
  rw [← h.text]
  clear h
  induction bs with
  | nil => exact chunks_nil.symm
  | cons b bs ih =>
    obtain ⟨⟨hpos, hle⟩, hrest⟩ := List.forall_mem_cons.mp hlast
    rw [List.flatten_cons]
    cases bs with
    | nil =>
      rw [List.flatten_nil, List.append_nil]
      exact (chunks_of_le hsize hle (List.ne_nil_of_length_pos hpos)).symm
    | cons b' bs =>
      rw [List.dropLast_cons_cons, List.forall_mem_cons] at hfull
      rw [chunks_append hfull.1 hsize, ← ih hfull.2 hrest]

/-! ## The answer -/

section

variable {w : Writer} {I : PrintfCtx → Prop}

/-- What `printf_putc` keeps. -/
def KeptByPutc (w : Writer) (I : PrintfCtx → Prop) : Prop :=
  ∀ ctx c ctx', I ctx → printfPutc w ctx c = some ctx' → I ctx'

theorem KeptByPutc.putsFrom (hputc : KeptByPutc w I) {s : List UInt8} {n i : Nat}
    {ctx ctx' : PrintfCtx} (h : I ctx) (hputs : printfPutsFrom w s n i ctx = some ctx') :
    I ctx' := by
  induction n generalizing i ctx with
  | zero =>
    cases hputs
    exact h
  | succ n ih =>
    rw [printfPutsFrom] at hputs
    split at hputs
    · cases hputs
    · split at hputs
      · cases hputs
      · next hput => exact ih (hputc _ _ _ h hput) hputs

theorem KeptByPutc.puts (hputc : KeptByPutc w I) {s : List UInt8} {len : Int}
    {ctx ctx' : PrintfCtx} (h : I ctx) (hputs : printfPuts w ctx s len = some ctx') : I ctx' :=
  hputc.putsFrom h hputs

theorem KeptByPutc.number (hputc : KeptByPutc w I) {num : Option (Nat × List UInt8)}
    {ctx ctx' : PrintfCtx} (h : I ctx) (hnum : printfNumber w ctx num = some ctx') : I ctx' := by
  unfold printfNumber at hnum
  split at hnum
  · cases hnum
  · exact hputc.puts h hnum

/-- Every directive puts bytes, and nothing else. -/
theorem KeptByPutc.directive (hputc : KeptByPutc w I) {spec : UInt8} {args : List Arg}
    {ctx : PrintfCtx} {r : PrintfCtx × List Arg} (h : I ctx)
    (hdir : printfDirective w spec args ctx = some r) : I r.1 := by
  have hmap : ∀ {o : Option PrintfCtx} {args : List Arg}, (∀ ctx', o = some ctx' → I ctx') →
      o.map (·, args) = some r → I r.1 := by
    intro o args ho hr
    obtain ⟨ctx', hctx, rfl⟩ := Option.map_eq_some_iff.mp hr
    exact ho ctx' hctx
  unfold printfDirective at hdir
  split_ifs at hdir
  -- the numbers
  iterate 3
    split at hdir
    · exact hmap (fun _ => hputc.number h) hdir
    · cases hdir
  · split at hdir
    · split at hdir
      · exact hmap (fun _ => hputc.puts h) hdir
      · exact hmap (fun _ => hputc.puts h) hdir
    · cases hdir
  · split at hdir
    · exact hmap (fun _ => hputc _ _ _ h) hdir
    · cases hdir
  · split at hdir
    · split at hdir
      · cases hdir
      · next hprefix => exact hmap (fun _ => hputc.number (hputc.puts h hprefix)) hdir
    · cases hdir
  · exact hmap (fun _ => hputc _ _ _ h) hdir
  · split at hdir
    · cases hdir
    · next hpercent => exact hmap (fun _ => hputc _ _ _ (hputc _ _ _ h hpercent)) hdir

theorem KeptByPutc.loop (hputc : KeptByPutc w I) {fmt : List UInt8} {args rest : List Arg}
    {ctx ctx' : PrintfCtx} (h : I ctx) (hloop : printfLoop w fmt args ctx = some (ctx', rest)) :
    I ctx' := by
  induction fmt using List.twoStepInduction generalizing args ctx with
  | nil =>
    cases hloop
    exact h
  | singleton c =>
    by_cases hc : c = ch '%'
    · rw [printfLoop.eq_def] at hloop
      dsimp only at hloop
      rw [if_neg (not_not.mpr hc)] at hloop
      cases hloop
      exact h
    · rw [printfLoop_text hc] at hloop
      split at hloop
      · cases hloop
      · next hput =>
        cases hloop
        exact hputc _ _ _ h hput
  | cons_cons c spec fmt ih ih' =>
    by_cases hc : c = ch '%'
    · rw [hc, printfLoop_directive] at hloop
      split at hloop
      · cases hloop
      · next hdir => exact ih (hputc.directive h hdir) hloop
    · rw [printfLoop_text hc] at hloop
      split at hloop
      · cases hloop
      · next hput => exact ih' _ (hputc _ _ _ h hput) hloop

end

/-- The total is the number of bytes that the kernel accepted. -/
structure Counted (ctx : PrintfCtx) : Prop where
  pos_le : ctx.pos ≤ printfBufSize
  total : ctx.total = toInt (accepted ctx.calls).length

theorem accepted_concat (calls : List WriteCall) (c : WriteCall) :
    accepted (calls ++ [c]) = accepted calls ++ c.bytes.take c.ret.toNat := by
  unfold accepted
  rw [List.map_append, List.flatten_append, List.map_singleton, List.flatten_singleton]

theorem toInt_add (a b : Int) : toInt (toInt a + b) = toInt (a + b) := by
  unfold toInt
  exact Int.bmod_add_bmod

/-- The answer of a write is added when it is positive. -/
theorem total_write {total ret : Int} {calls : List WriteCall} {bytes : List UInt8}
    (htotal : total = toInt (accepted calls).length) (hle : ret ≤ bytes.length)
    (hlen : bytes.length ≤ printfBufSize) :
    (if 0 < ret then toInt (total + toInt ret) else total) =
      toInt (accepted (calls ++ [⟨1, bytes, ret⟩])).length := by
  rw [accepted_concat, List.length_append, htotal]
  by_cases hret : 0 < ret
  · have htake : ((bytes.take ret.toNat).length : Int) = ret := by
      rw [List.length_take]
      omega
    have hbound : (bytes.length : Int) ≤ 2048 := Int.ofNat_le.mpr hlen
    rw [if_pos hret, Int.natCast_add, htake, toInt_eq (Int.le_of_lt hret) (by omega), toInt_add]
  · have hzero : ret.toNat = 0 := by omega
    rw [if_neg hret]
    dsimp only
    rw [hzero, List.take_zero, List.length_nil, Nat.add_zero]

theorem Counted.flush {ctx : PrintfCtx} (h : Counted ctx) (w : Writer) :
    Counted (printfFlush w ctx) := by
  unfold printfFlush
  split
  · refine ⟨Nat.zero_le _, total_write h.total (w.answer_le _ _) ?_⟩
    exact Nat.le_trans (List.length_take_le _ _) h.pos_le
  · exact h

theorem counted_kept (w : Writer) : KeptByPutc w Counted := by
  intro ctx c ctx' h hput
  unfold printfPutc at hput
  dsimp only at hput
  split at hput
  · cases hput
  · next buf hstore =>
    cases hput
    split
    · next hfull =>
      have hflush := h.flush w
      have hpos : (printfFlush w ctx).pos = 0 := by
        have hsome : 0 < ctx.pos := Nat.lt_of_lt_of_le (by decide) hfull
        rw [printfFlush, if_pos hsome]
      refine ⟨?_, hflush.total⟩
      change (printfFlush w ctx).pos + 1 ≤ printfBufSize
      rw [hpos]
      decide
    · next hroom =>
      refine ⟨?_, h.total⟩
      change ctx.pos + 1 ≤ printfBufSize
      omega

/-- The total is counted from the first byte on. -/
theorem printf_counted {w : Writer} {buf : {b : List UInt8 // b.length = printfBufSize}}
    {fmt : CString} {args : List Arg} {r : PrintfResult}
    (hprintf : toylibcPrintf w buf fmt args = some r) :
    r.ret = toInt (accepted r.calls).length := by
  unfold toylibcPrintf at hprintf
  split at hprintf
  · cases hprintf
  · next ctx args' hloop =>
    have hstart : Counted ⟨buf, 0, 0, []⟩ :=
      ⟨Nat.zero_le _, (toInt_eq (Int.le_refl 0) (by decide)).symm⟩
    have hend := ((counted_kept w).loop hstart hloop).flush w
    cases hprintf
    exact hend.total

theorem length_accepted_le (calls : List WriteCall) :
    (accepted calls).length ≤ (calls.map (·.bytes)).flatten.length := by
  induction calls with
  | nil => exact Nat.le_refl 0
  | cons c calls ih =>
    unfold accepted at ih ⊢
    rw [List.map_cons, List.map_cons, List.flatten_cons, List.flatten_cons, List.length_append,
      List.length_append, List.length_take]
    omega

/-- What a call of `printf` does under every kernel, when its texts have less than `2 ^ 31` bytes
together. -/
theorem printf_exact (w : Writer) (buf : {b : List UInt8 // b.length = printfBufSize})
    (fmt : CString) {args rest : List Arg} {text : List UInt8}
    (htext : expansion fmt.bytes args = some (text, rest)) (hshort : text.length < 2 ^ 31) :
    ∃ r, toylibcPrintf w buf fmt args = some r ∧ r.args = rest ∧
      r.calls = writeCalls w 0 (chunks (printfBufSize - 1) text) ∧
      r.ret = (accepted r.calls).length := by
  obtain ⟨⟨ps, _⟩, hps, heq⟩ := Option.map_eq_some_iff.mp htext
  cases heq
  obtain ⟨ret, bs, hprintf, hbuffered, -⟩ := printf_buffered w buf fmt hps
  rw [map_cut_eq hshort] at hbuffered
  obtain rfl := hbuffered.eq_chunks
  refine ⟨_, hprintf, rfl, rfl, ?_⟩
  have hle := length_accepted_le (writeCalls w 0 (chunks (printfBufSize - 1) ps.flatten))
  rw [writeCalls_bytes, hbuffered.text] at hle
  have hret := printf_counted hprintf
  dsimp only at hret hle hshort ⊢
  rw [hret, toInt_eq (by omega) (by omega)]

/-- The text decides everything: two calls with the same text are not told apart by any kernel. -/
theorem printf_congr (w : Writer) (buf : {b : List UInt8 // b.length = printfBufSize})
    {fmt fmt' : CString} {args args' rest : List Arg} {text : List UInt8}
    (htext : expansion fmt.bytes args = some (text, rest))
    (htext' : expansion fmt'.bytes args' = some (text, rest)) (hshort : text.length < 2 ^ 31) :
    toylibcPrintf w buf fmt args = toylibcPrintf w buf fmt' args' := by
  obtain ⟨⟨ret, calls, rest1⟩, hr, hargs, hcalls, hret⟩ := printf_exact w buf fmt htext hshort
  obtain ⟨⟨ret', calls', rest2⟩, hr', hargs', hcalls', hret'⟩ :=
    printf_exact w buf fmt' htext' hshort
  dsimp only at hargs hcalls hret hargs' hcalls' hret'
  rw [hr, hr', hret, hret', hcalls, hcalls', hargs, hargs']

theorem printf_exact_percent : ∃ r,
    toylibcPrintf acceptingWriter freshBuf percentFormat [.word 42] = some r ∧ r.args = [] ∧
      r.calls = writeCalls acceptingWriter 0
        (chunks (printfBufSize - 1) (ascii ['n', '=', '4', '2', '%', '\n'])) ∧
      r.ret = (accepted r.calls).length :=
  printf_exact acceptingWriter freshBuf percentFormat percentFormat_expansion (by decide)

/-! ## Two calls -/

/-- The format does not end inside a directive. -/
def closed : List UInt8 → Bool
  | [] => true
  | c :: fmt =>
    if c ≠ ch '%' then closed fmt
    else
      match fmt with
      | [] => false
      | _ :: fmt => closed fmt

theorem closed_text {c : UInt8} (hc : c ≠ ch '%') (fmt : List UInt8) :
    closed (c :: fmt) = closed fmt := by
  rw [closed.eq_def]
  exact if_pos hc

theorem closed_directive (spec : UInt8) (fmt : List UInt8) :
    closed (ch '%' :: spec :: fmt) = closed fmt := by
  rw [closed.eq_def]
  exact if_neg (not_not.mpr rfl)

/-- Behind a closed format the next one starts with the arguments that are left. -/
theorem pieces_append {fmt : List UInt8} (hclosed : closed fmt = true) (fmt' : List UInt8)
    {args rest : List Arg} {ps : List (List UInt8)} (hps : pieces fmt args = some (ps, rest)) :
    pieces (fmt ++ fmt') args = (pieces fmt' rest).map fun r => (ps ++ r.1, r.2) := by
  induction fmt using List.twoStepInduction generalizing args ps with
  | nil =>
    cases hps
    exact Option.map_id'.symm
  | singleton c =>
    have hc : c ≠ ch '%' := by
      rintro rfl
      exact absurd hclosed (by decide)
    rw [pieces_text hc] at hps
    cases hps
    rw [List.singleton_append, pieces_text hc]
    rfl
  | cons_cons c spec fmt ih ih' =>
    by_cases hc : c = ch '%'
    · rw [hc, closed_directive] at hclosed
      rw [hc, pieces_directive] at hps
      rw [hc, List.cons_append, List.cons_append, pieces_directive]
      cases hdir : directiveText spec args with
      | none =>
        rw [hdir] at hps
        cases hps
      | some r =>
        rw [hdir] at hps
        obtain ⟨⟨qs, _⟩, hqs, heq⟩ := Option.map_eq_some_iff.mp hps
        cases heq
        dsimp only
        rw [ih hclosed hqs, Option.map_map]
        rfl
    · rw [closed_text hc] at hclosed
      rw [pieces_text hc] at hps
      obtain ⟨⟨qs, _⟩, hqs, heq⟩ := Option.map_eq_some_iff.mp hps
      cases heq
      have hrest := ih' _ hclosed hqs
      rw [List.cons_append] at hrest
      rw [List.cons_append, List.cons_append, pieces_text hc, hrest, Option.map_map]
      rfl

theorem expansion_append {fmt : List UInt8} (hclosed : closed fmt = true) {fmt' : List UInt8}
    {args rest rest' : List Arg} {t t' : List UInt8}
    (ht : expansion fmt args = some (t, rest)) (ht' : expansion fmt' rest = some (t', rest')) :
    expansion (fmt ++ fmt') args = some (t ++ t', rest') := by
  obtain ⟨⟨ps, _⟩, hps, heq⟩ := Option.map_eq_some_iff.mp ht
  obtain ⟨⟨ps', _⟩, hps', heq'⟩ := Option.map_eq_some_iff.mp ht'
  cases heq
  cases heq'
  rw [expansion, pieces_append hclosed fmt' hps, hps']
  exact congrArg some (Prod.ext List.flatten_append rfl)

def CString.append (s t : CString) : CString where
  bytes := s.bytes ++ t.bytes
  no_nul := fun hmem => (List.mem_append.mp hmem).elim s.no_nul t.no_nul

/-- When every byte is accepted, a format for less than `2 ^ 31` bytes may be printed in two calls,
anywhere but inside a directive: the second call takes the arguments that the first one left, the
outputs follow each other, and the answers add up. -/
theorem printf_twice {w : Writer} (hw : w.AcceptsAll)
    (buf : {b : List UInt8 // b.length = printfBufSize}) {fmt fmt' : CString}
    (hclosed : closed fmt.bytes = true) {args rest rest' : List Arg} {t t' : List UInt8}
    (ht : expansion fmt.bytes args = some (t, rest))
    (ht' : expansion fmt'.bytes rest = some (t', rest')) (hshort : (t ++ t').length < 2 ^ 31) :
    ∃ r r1 r2, toylibcPrintf w buf (fmt.append fmt') args = some r ∧
      toylibcPrintf w buf fmt args = some r1 ∧ toylibcPrintf w buf fmt' r1.args = some r2 ∧
      accepted r.calls = accepted r1.calls ++ accepted r2.calls ∧ r.ret = r1.ret + r2.ret ∧
      r.args = r2.args := by
  have hlen : (t ++ t').length = t.length + t'.length := List.length_append
  obtain ⟨r, hr, hargs, hcalls, hret⟩ :=
    printf_exact w buf (fmt.append fmt') (expansion_append hclosed ht ht') hshort
  obtain ⟨r1, hr1, hargs1, hcalls1, hret1⟩ := printf_exact w buf fmt ht (by omega)
  obtain ⟨r2, hr2, hargs2, hcalls2, hret2⟩ := printf_exact w buf fmt' ht' (by omega)
  have hout : accepted r.calls = accepted r1.calls ++ accepted r2.calls := by
    rw [hcalls, hcalls1, hcalls2, accepted_of_acceptsAll hw, accepted_of_acceptsAll hw,
      accepted_of_acceptsAll hw, flatten_chunks, flatten_chunks, flatten_chunks]
  refine ⟨r, r1, r2, hr, hr1, hargs1 ▸ hr2, hout, ?_, hargs.trans hargs2.symm⟩
  rw [hret, hout, List.length_append, hret1, hret2]
  exact Int.natCast_add _ _

/-- `%u`, and then `%%`. -/
theorem printf_twice_percent : ∃ r r1 r2,
    toylibcPrintf acceptingWriter freshBuf
        (CString.append ⟨ascii ['%', 'u'], by decide⟩ ⟨ascii ['%', '%'], by decide⟩) [.word 42] =
      some r ∧
    toylibcPrintf acceptingWriter freshBuf ⟨ascii ['%', 'u'], by decide⟩ [.word 42] = some r1 ∧
    toylibcPrintf acceptingWriter freshBuf ⟨ascii ['%', '%'], by decide⟩ r1.args = some r2 ∧
    accepted r.calls = accepted r1.calls ++ accepted r2.calls ∧ r.ret = r1.ret + r2.ret ∧
    r.args = r2.args := by
  have hnumber : expansion (ascii ['%', 'u']) [.word 42] = some (decimal 42, []) := rfl
  have hpercent : expansion (ascii ['%', '%']) [] = some (ascii ['%'], []) := rfl
  exact printf_twice (fun _ _ => rfl) freshBuf rfl hnumber hpercent (by decide)

/-! ## Literal text -/

/-- Every `%` is doubled. -/
def escape (s : List UInt8) : List UInt8 :=
  s.flatMap fun c => if c = ch '%' then [ch '%', ch '%'] else [c]

def CString.escape (s : CString) : CString where
  bytes := Toylibc.escape s.bytes
  no_nul := by
    intro hmem
    obtain ⟨c, hc, hzero⟩ := List.mem_flatMap.mp hmem
    by_cases hpercent : c = ch '%'
    · rw [if_pos hpercent] at hzero
      exact absurd hzero (by decide)
    · rw [if_neg hpercent, List.mem_singleton] at hzero
      exact s.no_nul (hzero ▸ hc)

theorem pieces_escape (s : List UInt8) (args : List Arg) :
    pieces (escape s) args = some (s.map ([·]), args) := by
  induction s with
  | nil => rfl
  | cons c s ih =>
    rw [escape, List.flatMap_cons, ← escape]
    by_cases hc : c = ch '%'
    · have hpercent : directiveText (ch '%') args = some ([ch '%'], args) := rfl
      rw [if_pos hc, hc, List.cons_append, List.singleton_append, pieces_directive, hpercent]
      dsimp only
      rw [ih]
      rfl
    · rw [if_neg hc, List.singleton_append, pieces_text hc, ih]
      rfl

theorem expansion_escape (s : List UInt8) (args : List Arg) :
    expansion (escape s) args = some (s, args) := by
  have hflat : (s.map ([·])).flatten = s := by
    induction s with
    | nil => rfl
    | cons c s ih => rw [List.map_cons, List.flatten_cons, ih, List.singleton_append]
  rw [expansion, pieces_escape]
  exact congrArg some (Prod.ext hflat rfl)

/-- A text of less than `2 ^ 31` bytes with its `%` doubled, printed as a format, and the text
printed with `%s` are the same calls with the same answer, under every kernel. -/
theorem printf_escape (w : Writer) (buf : {b : List UInt8 // b.length = printfBufSize})
    (s : CString) (p : {p : BitVec 64 // p ≠ 0}) (args : List Arg)
    (hshort : s.bytes.length < 2 ^ 31) :
    toylibcPrintf w buf s.escape args =
      toylibcPrintf w buf stringFormat (.ptr p s :: args) := by
  have hstring : expansion stringFormat.bytes (.ptr p s :: args) = some (s.bytes, args) := by
    have hpieces : pieces stringFormat.bytes (.ptr p.1 s :: args) =
        some ([if p.1 = 0 then ascii ['(', 'n', 'u', 'l', 'l', ')'] else s.bytes], args) := rfl
    rw [expansion, hpieces, if_neg p.2]
    exact congrArg some (Prod.ext List.flatten_singleton rfl)
  exact printf_congr w buf (expansion_escape s.bytes args) hstring hshort

/-- `50%`, in pieces of any size. -/
theorem printf_escape_percent :
    toylibcPrintf lateWriter freshBuf
        (CString.escape ⟨ascii ['5', '0', '%'], by decide⟩) [.word 7] =
      toylibcPrintf lateWriter freshBuf stringFormat
        [.ptr 1 ⟨ascii ['5', '0', '%'], by decide⟩, .word 7] :=
  printf_escape lateWriter freshBuf _ ⟨1, by decide⟩ _ (by decide)

end Toylibc
