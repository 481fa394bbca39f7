import Toylibc.NumeralText

/-!
# `printf` against its reference

`pieces` is the unbuffered expansion of a format: the text of every item from left to
right, and the arguments that are left. The loop of `printf` sends exactly these texts
through the buffer (`printfLoop_sends`), where `Sent` describes the buffer between two
bytes. With a kernel that accepts everything the output is the expansion
(`printf_eq_expansion`).

A `%s` argument of `2 ^ 31` bytes or more is the one text that is not sent as a whole,
because its length is converted to `int`: of each text the loop sends its `cut`.
-/

namespace Toylibc

open Buffer

/-! ## The reference -/

/-- The text of one directive, and the arguments behind it. -/
def directiveText (spec : UInt8) (args : List Arg) : Option (List UInt8 × List Arg) :=
  if spec = ch 'd' ∨ spec = ch 'i' then
    match args with
    | .word v :: args => some (signedDecimal v.toInt, args)
    | _ => none
  else if spec = ch 'u' then
    match args with
    | .word v :: args => some (decimal v.toNat, args)
    | _ => none
  else if spec = ch 'x' then
    match args with
    | .word v :: args => some (hexadecimal v.toNat, args)
    | _ => none
  else if spec = ch 's' then
    match args with
    | .ptr p s :: args =>
      some (if p = 0 then ascii ['(', 'n', 'u', 'l', 'l', ')'] else s.bytes, args)
    | _ => none
  else if spec = ch 'c' then
    match args with
    | .word v :: args => some ([UInt8.ofNat v.toNat], args)
    | _ => none
  else if spec = ch 'p' then
    match args with
    | .ptr p _ :: args => some (ascii ['0', 'x'] ++ hexadecimal p.toNat, args)
    | _ => none
  else if spec = ch '%' then some ([ch '%'], args)
  else some ([ch '%', spec], args)

/-- The texts of the items of a format, and the arguments that are left. -/
def pieces : List UInt8 → List Arg → Option (List (List UInt8) × List Arg)
  | [], args => some ([], args)
  | c :: fmt, args =>
    if c ≠ ch '%' then (pieces fmt args).map fun r => ([c] :: r.1, r.2)
    else
      match fmt with
      | [] => some ([], args)
      | spec :: fmt =>
        match directiveText spec args with
        | none => none
        | some (t, args) => (pieces fmt args).map fun r => (t :: r.1, r.2)

/-- The expansion of a format as one text. -/
def expansion (fmt : List UInt8) (args : List Arg) : Option (List UInt8 × List Arg) :=
  (pieces fmt args).map fun r => (r.1.flatten, r.2)

/-- The specifiers of a format that read an argument. -/
def consuming : List UInt8 → Nat
  | [] => 0
  | c :: fmt =>
    if c ≠ ch '%' then consuming fmt
    else
      match fmt with
      | [] => 0
      | spec :: fmt =>
        (if spec ∈ ascii ['d', 'i', 'u', 'x', 's', 'c', 'p'] then 1 else 0) + consuming fmt

theorem pieces_text {c : UInt8} (hc : c ≠ ch '%') (fmt : List UInt8) (args : List Arg) :
    pieces (c :: fmt) args = (pieces fmt args).map fun r => ([c] :: r.1, r.2) := by
  rw [pieces.eq_def]
  exact if_pos hc

theorem pieces_directive (spec : UInt8) (fmt : List UInt8) (args : List Arg) :
    pieces (ch '%' :: spec :: fmt) args =
      match directiveText spec args with
      | none => none
      | some (t, args) => (pieces fmt args).map fun r => (t :: r.1, r.2) := by
  rw [pieces.eq_def]
  exact if_neg (not_not.mpr rfl)

/-- What `printf_puts` sends of a text whose length is converted to `int`. -/
def cut (t : List UInt8) : List UInt8 := t.take (toInt t.length).toNat

theorem toInt_eq {x : Int} (hlo : 0 ≤ x) (hhi : x < 2 ^ 31) : toInt x = x := by
  unfold toInt
  rw [Int.bmod_eq_of_le] <;> omega

theorem cut_eq {t : List UInt8} (h : t.length < 2 ^ 31) : cut t = t := by
  rw [cut, toInt_eq (by omega) (by omega), Int.toNat_natCast, List.take_length]

/-! ## The buffer between two bytes -/

/-- The calls of `write` that pass on the buffers `bs`, the first with the number `k`. -/
def writeCalls (w : Writer) : Nat → List (List UInt8) → List WriteCall
  | _, [] => []
  | k, b :: bs => ⟨1, b, w.answer k b.length⟩ :: writeCalls w (k + 1) bs

/-- Every write is accepted in full. -/
def Writer.AcceptsAll (w : Writer) : Prop := ∀ k n, w.answer k n = n

/-- The bytes `sent` went into the buffer: full buffers `bs` were passed on, and the rest is
still there. -/
structure Sent (w : Writer) (bs : List (List UInt8)) (sent : List UInt8) (ctx : PrintfCtx) :
    Prop where
  size : ctx.buf.length = printfBufSize
  pos_lt : ctx.pos < printfBufSize
  calls : ctx.calls = writeCalls w 0 bs
  full : ∀ b ∈ bs, b.length = printfBufSize - 1
  text : bs.flatten ++ ctx.buf.take ctx.pos = sent
  pos_pos : bs ≠ [] → 0 < ctx.pos
  total : w.AcceptsAll → sent.length < 2 ^ 31 → ctx.total = bs.flatten.length

theorem writeCalls_concat (w : Writer) (k : Nat) (bs : List (List UInt8)) (b : List UInt8) :
    writeCalls w k (bs ++ [b]) =
      writeCalls w k bs ++ [⟨1, b, w.answer (k + bs.length) b.length⟩] := by
  induction bs generalizing k with
  | nil => rfl
  | cons c bs ih =>
    simp only [List.cons_append, writeCalls, ih, List.length_cons]
    rw [show k + 1 + bs.length = k + (bs.length + 1) by omega]

theorem length_writeCalls (w : Writer) (k : Nat) (bs : List (List UInt8)) :
    (writeCalls w k bs).length = bs.length := by
  induction bs generalizing k with
  | nil => rfl
  | cons b bs ih => simp only [writeCalls, List.length_cons, ih]

section

variable {w : Writer} {bs : List (List UInt8)} {sent : List UInt8} {ctx : PrintfCtx}

theorem Sent.length_pending (h : Sent w bs sent ctx) :
    (ctx.buf.take ctx.pos).length = ctx.pos := by
  have hsize := h.size
  have hlt := h.pos_lt
  rw [List.length_take]
  omega

/-- Flushing a buffer that is not empty passes its bytes on. -/
theorem Sent.flush (h : Sent w bs sent ctx) (hpos : 0 < ctx.pos) :
    (printfFlush w ctx).calls = writeCalls w 0 (bs ++ [ctx.buf.take ctx.pos]) ∧
      (printfFlush w ctx).buf = ctx.buf ∧ (printfFlush w ctx).pos = 0 ∧
      (w.AcceptsAll → sent.length < 2 ^ 31 → (printfFlush w ctx).total = sent.length) := by
  have hlen := h.length_pending
  unfold printfFlush toylibcWrite
  rw [if_pos hpos, writeCalls_concat, h.calls, length_writeCalls]
  refine ⟨by rw [Nat.zero_add], rfl, rfl, fun hall hshort => ?_⟩
  have htotal := h.total hall hshort
  have htext := congrArg List.length h.text
  rw [List.length_append, hlen] at htext
  have hret : (0 : Int) < ctx.pos := by omega
  dsimp only
  rw [hlen, hall, if_pos hret, htotal, toInt_eq (x := ctx.pos) (by omega) (by omega),
    toInt_eq (by omega) (by omega)]
  omega

/-- One byte goes into the buffer; the store is in range. -/
theorem Sent.putc (h : Sent w bs sent ctx) (c : UInt8) :
    ∃ bs' ctx', printfPutc w ctx c = some ctx' ∧ Sent w bs' (sent ++ [c]) ctx' := by
  have hsize := h.size
  have hlt := h.pos_lt
  have hbuf : 0 < printfBufSize - 1 := by decide
  unfold printfPutc
  by_cases hfull : printfBufSize - 1 ≤ ctx.pos
  · -- the buffer is passed on first, and the byte is its new start
    obtain ⟨hcalls, hkeep, hzero, htotal⟩ := h.flush (by omega)
    have hroom : 0 < ctx.buf.length := by omega
    have hstore := store_of_lt hroom c
    rw [if_pos hfull]
    dsimp only
    rw [hkeep, hzero, hstore]
    refine ⟨bs ++ [ctx.buf.take ctx.pos], _, rfl, ?_, ?_, hcalls, ?_, ?_, ?_, ?_⟩
    · rw [← hsize]
      exact length_store hstore
    · change 0 + 1 < printfBufSize
      omega
    · intro b hb
      rcases List.mem_append.mp hb with hb | hb
      · exact h.full b hb
      · rw [List.mem_singleton.mp hb, h.length_pending]
        omega
    · have htake := take_store hstore
      rw [List.take_zero, List.nil_append] at htake
      rw [List.flatten_concat, h.text]
      exact congrArg (sent ++ ·) htake
    · exact fun _ => Nat.succ_pos 0
    · intro hall hshort
      rw [List.length_append, List.length_singleton] at hshort
      rw [List.flatten_concat, h.text]
      exact htotal hall (by omega)
  · have hstore := store_of_lt (show ctx.pos < ctx.buf.length by omega) c
    rw [if_neg hfull]
    dsimp only
    rw [hstore]
    refine ⟨bs, _, rfl, ?_, ?_, h.calls, h.full, ?_, ?_, ?_⟩
    · rw [← hsize]
      exact length_store hstore
    · change ctx.pos + 1 < printfBufSize
      omega
    · change bs.flatten ++ List.take (ctx.pos + 1) _ = _
      rw [take_store hstore, ← List.append_assoc, h.text]
    · exact fun _ => Nat.succ_pos ctx.pos
    · intro hall hshort
      rw [List.length_append, List.length_singleton] at hshort
      exact h.total hall (by omega)

/-- The loop of `printf_puts` sends the bytes from the index `i` on. -/
theorem Sent.putsFrom (s : List UInt8) (n i : Nat) (h : Sent w bs sent ctx)
    (hin : i + n ≤ s.length) :
    ∃ bs' ctx', printfPutsFrom w s n i ctx = some ctx' ∧
      Sent w bs' (sent ++ (s.drop i).take n) ctx' := by
  induction n generalizing i bs sent ctx with
  | zero =>
    refine ⟨bs, ctx, rfl, ?_⟩
    rwa [List.take_zero, List.append_nil]
  | succ n ih =>
    have hi : i < s.length := by omega
    obtain ⟨bs1, ctx1, hputc, hsent⟩ := h.putc s[i]
    obtain ⟨bs2, ctx2, hrest, hsent⟩ := ih (i + 1) hsent (by omega)
    rw [printfPutsFrom, List.getElem?_eq_getElem hi]
    refine ⟨bs2, ctx2, ?_, ?_⟩
    · simp only [hputc, hrest]
    · rw [List.drop_eq_getElem_cons hi, List.take_succ_cons]
      rwa [List.append_assoc] at hsent

theorem Sent.puts (h : Sent w bs sent ctx) (s : List UInt8) (len : Int)
    (hlen : len ≤ s.length) :
    ∃ bs' ctx', printfPuts w ctx s len = some ctx' ∧
      Sent w bs' (sent ++ s.take len.toNat) ctx' := by
  have hputs := h.putsFrom s len.toNat 0 (by omega)
  rwa [List.drop_zero] at hputs

theorem toInt_le (n : Nat) : toInt n ≤ n := by
  unfold toInt
  rw [Int.bmod_def]
  split <;> omega

theorem Sent.putsCut (h : Sent w bs sent ctx) (s : List UInt8) :
    ∃ bs' ctx', printfPuts w ctx s (toInt s.length) = some ctx' ∧
      Sent w bs' (sent ++ cut s) ctx' :=
  h.puts s (toInt s.length) (toInt_le s.length)

/-- A converted number is sent when `num` is the conversion to `text`. -/
theorem Sent.number (h : Sent w bs sent ctx) {num : Option (Nat × List UInt8)}
    {text : List UInt8}
    (hnum : ∃ buf, num = some (text.length, buf) ∧ buf.take text.length = text) :
    ∃ bs' ctx', printfNumber w ctx num = some ctx' ∧ Sent w bs' (sent ++ text) ctx' := by
  obtain ⟨buf, rfl, htake⟩ := hnum
  have hlen := congrArg List.length htake
  rw [List.length_take] at hlen
  have hputs := h.puts buf text.length (by omega)
  rwa [Int.toNat_natCast, htake] at hputs

/-- A specifier whose argument is one word sends the text that `conv` writes for it. -/
theorem Sent.wordArg (h : Sent w bs sent ctx) {conv : BitVec 32 → Option (Nat × List UInt8)}
    {text : BitVec 32 → List UInt8}
    (hconv : ∀ v, ∃ buf, conv v = some ((text v).length, buf) ∧
      buf.take (text v).length = text v)
    (hlen : ∀ v, (text v).length ≤ 65) {args args' : List Arg} {t : List UInt8}
    (ht : (match args with
      | .word v :: args => some (text v, args)
      | _ => none) = some (t, args')) :
    ∃ bs' ctx', (match args with
      | .word v :: args => (printfNumber w ctx (conv v)).map (·, args)
      | _ => none) = some (ctx', args') ∧ Sent w bs' (sent ++ cut t) ctx' := by
  split at ht <;> cases ht
  next v =>
    obtain ⟨bs', ctx', hputs, hsent⟩ := h.number (hconv v)
    rw [cut_eq (Nat.lt_of_le_of_lt (hlen v) (by decide))]
    exact ⟨bs', ctx', congrArg (Option.map (·, args')) hputs, hsent⟩

/-- One directive sends its text and reads its argument. -/
theorem Sent.directive (h : Sent w bs sent ctx) {spec : UInt8} {args args' : List Arg}
    {t : List UInt8} (ht : directiveText spec args = some (t, args')) :
    ∃ bs' ctx', printfDirective w spec args ctx = some (ctx', args') ∧
      Sent w bs' (sent ++ cut t) ctx' := by
  have hword : ∀ v : BitVec 32, v.toNat < 2 ^ 64 := fun v => Nat.lt_trans v.isLt (by decide)
  have hint : ∀ v : BitVec 32, -2 ^ 31 ≤ v.toInt ∧ v.toInt < 2 ^ 31 :=
    fun v => ⟨v.le_toInt, v.toInt_lt⟩
  unfold directiveText at ht
  unfold printfDirective
  by_cases hd : spec = ch 'd' ∨ spec = ch 'i'
  · rw [if_pos hd] at ht ⊢
    refine h.wordArg (fun v => itoa_numBuf v.toInt ?_ ?_)
      (fun v => length_signedDecimal_le v.toInt ?_) ht <;>
      · have hv := hint v
        omega
  rw [if_neg hd] at ht ⊢
  by_cases hu : spec = ch 'u'
  · rw [if_pos hu] at ht ⊢
    exact h.wordArg (fun v => utoa_numBuf v.toNat (hword v))
      (fun v => Nat.le_succ_of_le (length_decimal_le v.toNat (hword v))) ht
  rw [if_neg hu] at ht ⊢
  by_cases hx : spec = ch 'x'
  · rw [if_pos hx] at ht ⊢
    exact h.wordArg (fun v => xtoa_numBuf v.toNat (hword v))
      (fun v => Nat.le_succ_of_le (length_hexadecimal_le v.toNat (hword v))) ht
  rw [if_neg hx] at ht ⊢
  by_cases hs : spec = ch 's'
  · rw [if_pos hs] at ht ⊢
    split at ht <;> cases ht
    next p s =>
      by_cases hnull : p = 0
      · obtain ⟨bs', ctx', hputs, hsent⟩ :=
          h.puts (ascii ['(', 'n', 'u', 'l', 'l', ')']) 6 (Int.le_refl 6)
        simp only [if_pos hnull]
        rw [cut_eq (show (ascii _).length < 2 ^ 31 by decide)]
        exact ⟨bs', ctx', congrArg (Option.map (·, args')) hputs, hsent⟩
      · obtain ⟨bs', ctx', hputs, hsent⟩ := h.putsCut s.bytes
        simp only [if_neg hnull]
        exact ⟨bs', ctx', congrArg (Option.map (·, args')) hputs, hsent⟩
  rw [if_neg hs] at ht ⊢
  by_cases hc : spec = ch 'c'
  · rw [if_pos hc] at ht ⊢
    split at ht <;> cases ht
    next v =>
      obtain ⟨bs', ctx', hputc, hsent⟩ := h.putc (UInt8.ofNat v.toNat)
      rw [cut_eq (show [_].length < 2 ^ 31 from Nat.one_lt_two_pow (by decide))]
      exact ⟨bs', ctx', congrArg (Option.map (·, args')) hputc, hsent⟩
  rw [if_neg hc] at ht ⊢
  by_cases hp : spec = ch 'p'
  · rw [if_pos hp] at ht ⊢
    split at ht <;> cases ht
    next p s =>
      have hlt := p.isLt
      obtain ⟨bs1, ctx1, hputs1, hsent⟩ := h.puts (ascii ['0', 'x']) 2 (Int.le_refl 2)
      obtain ⟨bs2, ctx2, hputs2, hsent⟩ := hsent.number (xtoa_numBuf p.toNat (by omega))
      have hlen := length_hexadecimal_le p.toNat (by omega)
      have hshort : (ascii ['0', 'x'] ++ hexadecimal p.toNat).length < 2 ^ 31 := by
        rw [List.length_append]
        change 2 + _ < 2 ^ 31
        omega
      rw [cut_eq hshort, ← List.append_assoc]
      refine ⟨bs2, ctx2, ?_, hsent⟩
      simp only [hputs1, hputs2, Option.map_some]
  rw [if_neg hp] at ht ⊢
  by_cases hpercent : spec = ch '%'
  · rw [if_pos hpercent] at ht ⊢
    cases ht
    obtain ⟨bs', ctx', hputc, hsent⟩ := h.putc (ch '%')
    rw [cut_eq (show [_].length < 2 ^ 31 from Nat.one_lt_two_pow (by decide))]
    exact ⟨bs', ctx', congrArg (Option.map (·, args)) hputc, hsent⟩
  · rw [if_neg hpercent] at ht ⊢
    cases ht
    obtain ⟨bs1, ctx1, hputc1, hsent⟩ := h.putc (ch '%')
    obtain ⟨bs2, ctx2, hputc2, hsent⟩ := hsent.putc spec
    have hshort : [ch '%', spec].length < 2 ^ 31 := by
      change 2 < 2 ^ 31
      decide
    rw [cut_eq hshort]
    refine ⟨bs2, ctx2, ?_, ?_⟩
    · simp only [hputc1, hputc2, Option.map_some]
    · rwa [List.append_assoc] at hsent

end

/-! ## The whole call -/

theorem printfLoop_text {c : UInt8} (hc : c ≠ ch '%') (w : Writer) (fmt : List UInt8)
    (args : List Arg) (ctx : PrintfCtx) :
    printfLoop w (c :: fmt) args ctx =
      match printfPutc w ctx c with
      | none => none
      | some ctx => printfLoop w fmt args ctx := by
  rw [printfLoop.eq_def]
  exact if_pos hc

theorem printfLoop_directive (w : Writer) (spec : UInt8) (fmt : List UInt8) (args : List Arg)
    (ctx : PrintfCtx) :
    printfLoop w (ch '%' :: spec :: fmt) args ctx =
      match printfDirective w spec args ctx with
      | none => none
      | some (ctx, args) => printfLoop w fmt args ctx := by
  rw [printfLoop.eq_def]
  exact if_neg (not_not.mpr rfl)

/-- The loop sends what `printf_puts` sends of every item, from left to right. -/
theorem printfLoop_sends (w : Writer) (fmt : List UInt8) (args rest : List Arg)
    (ps : List (List UInt8)) (hps : pieces fmt args = some (ps, rest))
    {bs : List (List UInt8)} {sent : List UInt8} {ctx : PrintfCtx} (h : Sent w bs sent ctx) :
    ∃ bs' ctx', printfLoop w fmt args ctx = some (ctx', rest) ∧
      Sent w bs' (sent ++ (ps.map cut).flatten) ctx' := by
  induction fmt, args using pieces.induct generalizing ps bs sent ctx with
  | case1 args =>
    cases hps
    exact ⟨bs, ctx, rfl, by rwa [List.map_nil, List.flatten_nil, List.append_nil]⟩
  | case2 c fmt args hc ih =>
    rw [pieces_text hc] at hps
    obtain ⟨⟨qs, _⟩, hqs, heq⟩ := Option.map_eq_some_iff.mp hps
    cases heq
    obtain ⟨bs1, ctx1, hputc, hsent⟩ := h.putc c
    obtain ⟨bs2, ctx2, hloop, hsent⟩ := ih qs hqs hsent
    refine ⟨bs2, ctx2, ?_, ?_⟩
    · rw [printfLoop_text hc, hputc]
      exact hloop
    · have hcut : cut [c] = [c] :=
        cut_eq (show [_].length < 2 ^ 31 from Nat.one_lt_two_pow (by decide))
      rwa [List.map_cons, List.flatten_cons, hcut, ← List.append_assoc]
  | case3 c args hc =>
    have hpercent := not_not.mp hc
    subst hpercent
    cases hps
    exact ⟨bs, ctx, rfl, by rwa [List.map_nil, List.flatten_nil, List.append_nil]⟩
  | case4 c args hc spec fmt hnone =>
    -- the argument list does not match
    have hpercent := not_not.mp hc
    subst hpercent
    rw [pieces_directive, hnone] at hps
    cases hps
  | case5 c args hc spec fmt t args' hsome ih =>
    have hpercent := not_not.mp hc
    subst hpercent
    rw [pieces_directive, hsome] at hps
    obtain ⟨⟨qs, _⟩, hqs, heq⟩ := Option.map_eq_some_iff.mp hps
    cases heq
    obtain ⟨bs1, ctx1, hdir, hsent⟩ := h.directive hsome
    obtain ⟨bs2, ctx2, hloop, hsent⟩ := ih qs hqs hsent
    refine ⟨bs2, ctx2, ?_, ?_⟩
    · rw [printfLoop_directive, hdir]
      exact hloop
    · rwa [List.map_cons, List.flatten_cons, ← List.append_assoc]

/-- The buffers that a call of `printf` passes on for a text: all but the last are full, and
none is empty. -/
structure Buffered (bs : List (List UInt8)) (text : List UInt8) : Prop where
  text : bs.flatten = text
  full : ∀ b ∈ bs.dropLast, b.length = printfBufSize - 1
  last : ∀ b ∈ bs, 0 < b.length ∧ b.length ≤ printfBufSize - 1

/-- `printf` passes on what its loop sends, whatever the kernel answers. -/
theorem printf_buffered (w : Writer) (buf : {b : List UInt8 // b.length = printfBufSize})
    (fmt : CString) {args rest : List Arg} {ps : List (List UInt8)}
    (hps : pieces fmt.bytes args = some (ps, rest)) :
    ∃ ret bs, toylibcPrintf w buf fmt args = some ⟨ret, writeCalls w 0 bs, rest⟩ ∧
      Buffered bs (ps.map cut).flatten ∧
      (w.AcceptsAll → (ps.map cut).flatten.length < 2 ^ 31 →
        ret = (ps.map cut).flatten.length) := by
  have hstart : Sent w [] [] ⟨buf, 0, 0, []⟩ :=
    ⟨buf.2, show 0 < printfBufSize by decide, rfl, nofun, rfl, fun h => absurd rfl h,
      fun _ _ => rfl⟩
  obtain ⟨bs, ctx, hloop, hsent⟩ := printfLoop_sends w fmt.bytes args rest ps hps hstart
  rw [List.nil_append] at hsent
  unfold toylibcPrintf
  rw [hloop]
  have hfit : ∀ b ∈ bs, 0 < b.length ∧ b.length ≤ printfBufSize - 1 := by
    intro b hb
    rw [hsent.full b hb]
    decide
  rcases Nat.eq_zero_or_pos ctx.pos with hzero | hpos
  · -- nothing is pending, so nothing was passed on either
    have hnone : bs = [] := by
      by_contra hne
      exact Nat.ne_of_gt (hsent.pos_pos hne) hzero
    subst hnone
    have hempty : (ps.map cut).flatten = [] := by
      rw [← hsent.text, hzero]
      rfl
    refine ⟨ctx.total, [], ?_, ⟨hempty.symm, nofun, nofun⟩, ?_⟩
    · have hflush : printfFlush w ctx = ctx := if_neg (by omega)
      dsimp only
      rw [hflush, hsent.calls]
    · rw [hempty]
      intro hall _
      exact hsent.total hall (by rw [hempty]; decide)
  · obtain ⟨hcalls, -, -, htotal⟩ := hsent.flush hpos
    refine ⟨(printfFlush w ctx).total, bs ++ [ctx.buf.take ctx.pos], ?_, ⟨?_, ?_, ?_⟩, htotal⟩
    · dsimp only
      rw [hcalls]
    · rw [List.flatten_concat, hsent.text]
    · rw [List.dropLast_concat]
      exact hsent.full
    · intro b hb
      rcases List.mem_append.mp hb with hb | hb
      · exact hfit b hb
      · rw [List.mem_singleton.mp hb, hsent.length_pending]
        exact ⟨hpos, Nat.le_sub_one_of_lt hsent.pos_lt⟩

theorem writeCalls_bytes (w : Writer) (k : Nat) (bs : List (List UInt8)) :
    (writeCalls w k bs).map (·.bytes) = bs := by
  induction bs generalizing k with
  | nil => rfl
  | cons b bs ih => rw [writeCalls, List.map_cons, ih]

theorem writeCalls_fd {w : Writer} {k : Nat} {bs : List (List UInt8)} {c : WriteCall}
    (hc : c ∈ writeCalls w k bs) : c.fd = 1 := by
  induction bs generalizing k with
  | nil => cases hc
  | cons b bs ih =>
    cases hc with
    | head => rfl
    | tail _ hc => exact ih hc

/-- No text is cut when all of them together are short. -/
theorem map_cut_eq {ps : List (List UInt8)} (h : ps.flatten.length < 2 ^ 31) :
    ps.map cut = ps := by
  induction ps with
  | nil => rfl
  | cons p ps ih =>
    rw [List.flatten_cons, List.length_append] at h
    rw [List.map_cons, cut_eq (by omega), ih (by omega)]

theorem consuming_text {c : UInt8} (hc : c ≠ ch '%') (fmt : List UInt8) :
    consuming (c :: fmt) = consuming fmt := by
  rw [consuming.eq_def]
  exact if_pos hc

theorem consuming_directive (spec : UInt8) (fmt : List UInt8) :
    consuming (ch '%' :: spec :: fmt) =
      (if spec ∈ ascii ['d', 'i', 'u', 'x', 's', 'c', 'p'] then 1 else 0) + consuming fmt := by
  rw [consuming.eq_def]
  exact if_neg (not_not.mpr rfl)

theorem directiveText_args {spec : UInt8} {args rest : List Arg} {t : List UInt8}
    (h : directiveText spec args = some (t, rest)) :
    rest = args.drop (if spec ∈ ascii ['d', 'i', 'u', 'x', 's', 'c', 'p'] then 1 else 0) := by
  have hmem : spec ∈ ascii ['d', 'i', 'u', 'x', 's', 'c', 'p'] ↔
      (spec = ch 'd' ∨ spec = ch 'i') ∨ spec = ch 'u' ∨ spec = ch 'x' ∨ spec = ch 's' ∨
        spec = ch 'c' ∨ spec = ch 'p' := by
    simp only [ascii, List.map_cons, List.map_nil, List.mem_cons, List.not_mem_nil, or_false,
      or_assoc]
  simp only [hmem]
  unfold directiveText at h
  split_ifs at h with hd hu hx hs hc hp hpercent
  iterate 6
    · split at h <;> cases h
      rw [if_pos (by tauto)]
      rfl
  all_goals
    cases h
    rw [if_neg (by tauto)]
    rfl

/-- The arguments are read in order, one by every specifier that reads one. -/
theorem pieces_args {fmt : List UInt8} {args rest : List Arg} {ps : List (List UInt8)}
    (h : pieces fmt args = some (ps, rest)) : rest = args.drop (consuming fmt) := by
  induction fmt, args using pieces.induct generalizing ps with
  | case1 args =>
    cases h
    rfl
  | case2 c fmt args hc ih =>
    rw [pieces_text hc] at h
    obtain ⟨⟨qs, _⟩, hqs, heq⟩ := Option.map_eq_some_iff.mp h
    cases heq
    rw [ih hqs, consuming_text hc]
  | case3 c args hc =>
    have hpercent := not_not.mp hc
    subst hpercent
    cases h
    rfl
  | case4 c args hc spec fmt hnone =>
    have hpercent := not_not.mp hc
    subst hpercent
    rw [pieces_directive, hnone] at h
    cases h
  | case5 c args hc spec fmt t args' hsome ih =>
    have hpercent := not_not.mp hc
    subst hpercent
    rw [pieces_directive, hsome] at h
    obtain ⟨⟨qs, _⟩, hqs, heq⟩ := Option.map_eq_some_iff.mp h
    cases heq
    rw [ih hqs, directiveText_args hsome, List.drop_drop, consuming_directive]

/-- `printf` writes the expansion of the format and returns its length, when the kernel
accepts every write. -/
theorem printf_eq_expansion {w : Writer} (hw : w.AcceptsAll)
    (buf : {b : List UInt8 // b.length = printfBufSize}) (fmt : CString) {args rest : List Arg}
    {text : List UInt8} (htext : expansion fmt.bytes args = some (text, rest))
    (hshort : text.length < 2 ^ 31) :
    ∃ calls, toylibcPrintf w buf fmt args = some ⟨text.length, calls, rest⟩ ∧
      (calls.map (·.bytes)).flatten = text ∧ (∀ c ∈ calls, c.fd = 1) ∧
      rest = args.drop (consuming fmt.bytes) := by
  obtain ⟨⟨ps, _⟩, hps, heq⟩ := Option.map_eq_some_iff.mp htext
  cases heq
  obtain ⟨ret, bs, hprintf, hbuf, hret⟩ := printf_buffered w buf fmt hps
  have hcut : (ps.map cut).flatten = ps.flatten := by rw [map_cut_eq hshort]
  rw [hcut] at hbuf hret
  refine ⟨writeCalls w 0 bs, ?_, ?_, fun c => writeCalls_fd, pieces_args hps⟩
  · rw [hprintf, hret hw hshort]
  · rw [writeCalls_bytes, hbuf.text]

/-! ### A run -/

def acceptingWriter : Writer := ⟨fun _ n => n, fun _ n => Int.le_refl n⟩

/-- The array `buf` before anything is written. -/
def freshBuf : {b : List UInt8 // b.length = printfBufSize} :=
  ⟨List.replicate printfBufSize 0, List.length_replicate⟩

/-- The format `n=%u%%` and a line break. -/
def percentFormat : CString := ⟨ascii ['n', '=', '%', 'u', '%', '%', '\n'], by decide⟩

theorem percentFormat_expansion :
    expansion percentFormat.bytes [.word 42] = some (ascii ['n', '=', '4', '2', '%', '\n'], []) :=
  rfl

theorem percentFormat_printed :
    ∃ calls, toylibcPrintf acceptingWriter freshBuf percentFormat [.word 42] =
        some ⟨6, calls, []⟩ ∧
      (calls.map (·.bytes)).flatten = ascii ['n', '=', '4', '2', '%', '\n'] ∧
      (∀ c ∈ calls, c.fd = 1) ∧ [] = [Arg.word 42].drop (consuming percentFormat.bytes) :=
  printf_eq_expansion (fun _ _ => rfl) freshBuf percentFormat percentFormat_expansion (by decide)

end Toylibc
