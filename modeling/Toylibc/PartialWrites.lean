import Toylibc.Lib.Partial
import Toylibc.Printf

/-!
# Output under partial writes

The kernel may accept a part of a write, or nothing. Output has no holes when the bytes that
were accepted are those at an initial segment of the positions of the full text (`NoHoles`).

`printf_flush` empties the buffer whatever the answer was, and `puts` writes the line break
whatever became of the string. So the output has no holes exactly when the kernel itself
accepts nothing behind a byte that it left, and no byte behind a `%s` argument that the
conversion of its length to `int` has cut (`output_without_holes_iff`). The run of `puts`
at the end loses a byte.
-/

namespace Toylibc

open Partial

/-- The bytes that the kernel accepted, in order. -/
def accepted (calls : List WriteCall) : List UInt8 :=
  (calls.map fun c => c.bytes.take c.ret.toNat).flatten

/-- The positions of the accepted bytes, where `pos` are those of all the bytes offered. -/
def acceptedAt (pos : List Nat) (calls : List WriteCall) : List Nat :=
  taken pos (calls.map fun c => (c.bytes.length, c.ret.toNat))

/-- The accepted bytes are a prefix of the full text, and no byte is behind one that was
not accepted. -/
def NoHoles (text : List UInt8) (pos : List Nat) (calls : List WriteCall) : Prop :=
  accepted calls <+: text ∧ acceptedAt pos calls <+: List.range text.length

/-- The lengths that are offered and the lengths that are accepted, from the call `k` on. -/
def offers (w : Writer) : Nat → List Nat → List (Nat × Nat)
  | _, [] => []
  | k, n :: ns => (n, (w.answer k n).toNat) :: offers w (k + 1) ns

/-! ## Positions -/

/-- The positions, in a text that starts at `o`, of the bytes that `printf` sends. -/
def sentAt : Nat → List (List UInt8) → List Nat
  | _, [] => []
  | o, p :: ps => List.range' o (cut p).length ++ sentAt (o + p.length) ps

/-- The bytes up to the first cut. -/
def unbroken : List (List UInt8) → Nat
  | [] => 0
  | p :: ps => if cut p = p then p.length + unbroken ps else (cut p).length

theorem cut_initial (p : List UInt8) : cut p <+: p := by
  unfold cut
  exact List.take_prefix _ _

theorem length_cut_le (p : List UInt8) : (cut p).length ≤ p.length := (cut_initial p).length_le

theorem sentAt_ge {o i : Nat} {ps : List (List UInt8)} (h : i ∈ sentAt o ps) : o ≤ i := by
  induction ps generalizing o with
  | nil => cases h
  | cons p ps ih =>
    rcases List.mem_append.mp h with hi | hi
    · exact (List.mem_range'_1.mp hi).1
    · exact Nat.le_trans (Nat.le_add_right _ _) (ih hi)

theorem sentAt_increasing (o : Nat) (ps : List (List UInt8)) :
    (sentAt o ps).Pairwise (· < ·) := by
  induction ps generalizing o with
  | nil => exact List.Pairwise.nil
  | cons p ps ih =>
    refine List.pairwise_append.mpr ⟨List.pairwise_lt_range', ih _, fun i hi j hj => ?_⟩
    have hlt := (List.mem_range'_1.mp hi).2
    have hge := sentAt_ge hj
    have hcut := length_cut_le p
    omega

/-- Up to the first cut every byte is sent, and the byte at the cut is not. -/
theorem sentAt_split (o : Nat) (ps : List (List UInt8)) :
    ∃ ys, sentAt o ps = List.range' o (unbroken ps) ++ ys ∧ ∀ y ∈ ys, o + unbroken ps < y := by
  induction ps generalizing o with
  | nil => exact ⟨[], rfl, nofun⟩
  | cons p ps ih =>
    unfold sentAt unbroken
    by_cases hcut : cut p = p
    · obtain ⟨ys, hys, hlt⟩ := ih (o + p.length)
      rw [if_pos hcut, hcut, hys]
      refine ⟨ys, ?_, fun y hy => ?_⟩
      · rw [← List.append_assoc, List.range'_append_1]
      · rw [← Nat.add_assoc]
        exact hlt y hy
    · rw [if_neg hcut]
      refine ⟨_, rfl, fun y hy => ?_⟩
      have hge := sentAt_ge hy
      have hshort : (cut p).length < p.length := by
        refine Nat.lt_of_le_of_ne (length_cut_le p) fun heq => hcut ?_
        exact (cut_initial p).eq_of_length heq
      omega

theorem unbroken_le (ps : List (List UInt8)) : unbroken ps ≤ ps.flatten.length := by
  induction ps with
  | nil => exact Nat.le_refl 0
  | cons p ps ih =>
    have hcut := length_cut_le p
    rw [unbroken, List.flatten_cons, List.length_append]
    split <;> omega

theorem range'_getElem? (l m r : List UInt8) :
    (List.range' l.length m.length).map ((l ++ m ++ r)[·]?) = m.map some := by
  induction m generalizing l with
  | nil => rfl
  | cons x m ih =>
    have hrest := ih (l ++ [x])
    rw [List.length_append, List.append_assoc, List.append_assoc, List.singleton_append] at hrest
    have hfirst : (l ++ x :: (m ++ r))[l.length]? = some x := by simp
    rw [List.length_cons, List.range'_succ, List.map_cons, List.append_assoc, List.cons_append,
      hfirst, List.map_cons]
    exact congrArg (some x :: ·) hrest

/-- The bytes sent are those of the text at the positions `sentAt`. -/
theorem sentAt_text (pre : List UInt8) (ps : List (List UInt8)) :
    (sentAt pre.length ps).map ((pre ++ ps.flatten)[·]?) = ((ps.map cut).flatten).map some := by
  induction ps generalizing pre with
  | nil => rfl
  | cons p ps ih =>
    have hrest := ih (pre ++ p)
    rw [List.length_append, List.append_assoc] at hrest
    obtain ⟨tail, htail⟩ := cut_initial p
    have hpiece := range'_getElem? pre (cut p) (tail ++ ps.flatten)
    rw [List.append_assoc, ← List.append_assoc (cut p), htail] at hpiece
    rw [sentAt, List.map_append, List.flatten_cons, hpiece, hrest, List.map_cons,
      List.flatten_cons, List.map_append]

/-! ## Calls -/

theorem offers_le (w : Writer) (k : Nat) (ns : List Nat) : ∀ o ∈ offers w k ns, o.2 ≤ o.1 := by
  induction ns generalizing k with
  | nil => nofun
  | cons n ns ih =>
    intro o ho
    cases ho with
    | head => exact Int.toNat_le.mpr (w.answer_le k n)
    | tail _ ho => exact ih (k + 1) o ho

theorem offered_offers (w : Writer) (k : Nat) (ns : List Nat) :
    offered (offers w k ns) = ns.sum := by
  induction ns generalizing k with
  | nil => rfl
  | cons n ns ih =>
    change n + offered (offers w (k + 1) ns) = _
    rw [ih, List.sum_cons]

theorem acceptedAt_writeCalls (w : Writer) (k : Nat) (bs : List (List UInt8)) (pos : List Nat) :
    acceptedAt pos (writeCalls w k bs) = taken pos (offers w k (bs.map List.length)) := by
  unfold acceptedAt
  congr 1
  induction bs generalizing k with
  | nil => rfl
  | cons b bs ih => rw [writeCalls, List.map_cons, ih, List.map_cons, offers]

theorem accepted_writeCalls (w : Writer) (k : Nat) (bs : List (List UInt8)) :
    accepted (writeCalls w k bs) = taken bs.flatten (offers w k (bs.map List.length)) := by
  induction bs generalizing k with
  | nil => rfl
  | cons b bs ih =>
    have hle : (w.answer k b.length).toNat ≤ b.length := Int.toNat_le.mpr (w.answer_le k b.length)
    rw [List.map_cons, offers, taken, List.flatten_cons, List.drop_left,
      List.take_append_of_le_length hle, ← ih]
    rfl

/-- The calls `bs` leave no hole when they are accepted in order and up to `u` at most, where
the positions of the bytes follow each other up to `u` only. -/
theorem noHoles_iff {text : List UInt8} {pos ys : List Nat} {u : Nat} {bs : List (List UInt8)}
    (w : Writer) (hpos : pos = List.range u ++ ys) (hinc : pos.Pairwise (· < ·))
    (hys : ∀ y ∈ ys, u < y) (hu : u ≤ text.length)
    (htext : pos.map (text[·]?) = bs.flatten.map some) :
    NoHoles text pos (writeCalls w 0 bs) ↔
      InOrder (offers w 0 (bs.map List.length)) ∧
        total (offers w 0 (bs.map List.length)) ≤ u := by
  have hlen : pos.length = offered (offers w 0 (bs.map List.length)) := by
    have := congrArg List.length htext
    rwa [List.length_map, List.length_map, List.length_flatten, ← offered_offers w 0] at this
  have hbytes : acceptedAt pos (writeCalls w 0 bs) <+: List.range text.length →
      accepted (writeCalls w 0 bs) <+: text := by
    intro h
    rw [acceptedAt_writeCalls] at h
    have hmap := h.map (text[·]?)
    have hall : (List.range text.length).map (text[·]?) = text.map some := by
      have := range'_getElem? [] text []
      rwa [List.nil_append, List.append_nil, List.length_nil, ← List.range_eq_range'] at this
    rw [hall, ← taken_map, htext, taken_map, ← accepted_writeCalls] at hmap
    exact (List.prefix_map_iff_of_injective (Option.some_injective _)).mp hmap
  have hiff := taken_prefix_range_iff (hpos ▸ hinc) hys hu (offers_le w 0 _) (hpos ▸ hlen)
  rw [← hpos, ← acceptedAt_writeCalls] at hiff
  exact ⟨fun h => hiff.mp h.2, fun h => ⟨hbytes (hiff.mpr h), hiff.mpr h⟩⟩

/-- The lengths of the writes of `printf` for `n` bytes: full buffers, and a rest. -/
def writeLens (n : Nat) : List Nat :=
  List.replicate (n / (printfBufSize - 1)) (printfBufSize - 1) ++
    if n % (printfBufSize - 1) = 0 then [] else [n % (printfBufSize - 1)]

theorem Buffered.lengths {bs : List (List UInt8)} {text : List UInt8} (h : Buffered bs text) :
    bs.map List.length = writeLens text.length := by
  have hfull := h.full
  have hlast := h.last
  unfold writeLens
  rw [← h.text]
  rw [show printfBufSize - 1 = 2047 from rfl] at hfull hlast ⊢
  rcases List.eq_nil_or_concat' bs with rfl | ⟨bs', b, rfl⟩
  · rfl
  · rw [List.dropLast_concat] at hfull
    obtain ⟨hpos, hle⟩ := hlast b (List.mem_append_right _ List.mem_cons_self)
    have hrep : bs'.map List.length = List.replicate bs'.length 2047 :=
      List.map_eq_replicate_iff.mpr hfull
    have hsum : (bs' ++ [b]).flatten.length = bs'.length * 2047 + b.length := by
      rw [List.flatten_concat, List.length_append, List.length_flatten, hrep,
        List.sum_replicate_nat]
    rw [List.map_append, hrep, hsum]
    rcases Nat.eq_or_lt_of_le hle with heq | hlt
    · have hdiv : (bs'.length * 2047 + b.length) / 2047 = bs'.length + 1 := by omega
      have hmod : (bs'.length * 2047 + b.length) % 2047 = 0 := by omega
      rw [hdiv, if_pos hmod, List.append_nil, List.replicate_succ', List.map_singleton, heq]
    · have hdiv : (bs'.length * 2047 + b.length) / 2047 = bs'.length := by omega
      have hmod : (bs'.length * 2047 + b.length) % 2047 = b.length := by omega
      rw [hdiv, hmod, if_neg (Nat.ne_of_gt hpos), List.map_singleton]

/-! ## `printf` and `puts` -/

/-- A text that is sent as a whole has no holes when it is accepted in order. -/
theorem whole_noHoles_iff (w : Writer) (bs : List (List UInt8)) :
    NoHoles bs.flatten (List.range bs.flatten.length) (writeCalls w 0 bs) ↔
      InOrder (offers w 0 (bs.map List.length)) := by
  have htext := range'_getElem? [] bs.flatten []
  rw [List.nil_append, List.append_nil, List.length_nil, ← List.range_eq_range'] at htext
  have htotal := total_le_offered (offers_le w 0 (bs.map List.length))
  rw [offered_offers, ← List.length_flatten] at htotal
  rw [noHoles_iff w (List.append_nil _).symm List.pairwise_lt_range nofun (Nat.le_refl _) htext]
  exact and_iff_left htotal

def nullLine : List UInt8 := ascii ['(', 'n', 'u', 'l', 'l', ')', '\n']

/-- The text that `puts` outputs. -/
def putsText : Option CString → List UInt8
  | none => nullLine
  | some s => s.bytes ++ [ch '\n']

/-- The lengths of the writes of `puts`. -/
def putsLens : Option CString → List Nat
  | none => [nullLine.length]
  | some s => [s.bytes.length, 1]

theorem puts_noHoles_iff (w : Writer) (s : Option CString) :
    NoHoles (putsText s) (List.range (putsText s).length) (toylibcPuts w s).2 ↔
      InOrder (offers w 0 (putsLens s)) := by
  cases s with
  | none => exact whole_noHoles_iff w [nullLine]
  | some s =>
    have hflat : [s.bytes, [ch '\n']].flatten = s.bytes ++ [ch '\n'] := by
      rw [List.flatten_cons, List.flatten_singleton]
    have hiff := whole_noHoles_iff w [s.bytes, [ch '\n']]
    rw [hflat] at hiff
    exact hiff

theorem printf_noHoles_iff (w : Writer) (buf : {b : List UInt8 // b.length = printfBufSize})
    (fmt : CString) {args rest : List Arg} {ps : List (List UInt8)}
    (hps : pieces fmt.bytes args = some (ps, rest)) :
    ∃ r, toylibcPrintf w buf fmt args = some r ∧
      (NoHoles ps.flatten (sentAt 0 ps) r.calls ↔
        InOrder (offers w 0 (writeLens (ps.map cut).flatten.length)) ∧
          total (offers w 0 (writeLens (ps.map cut).flatten.length)) ≤ unbroken ps) := by
  obtain ⟨ret, bs, hprintf, hbuf, -⟩ := printf_buffered w buf fmt hps
  obtain ⟨ys, hsplit, hys⟩ := sentAt_split 0 ps
  rw [Nat.zero_add] at hys
  rw [← List.range_eq_range'] at hsplit
  have htext := sentAt_text [] ps
  rw [List.nil_append, ← hbuf.text] at htext
  refine ⟨_, hprintf, ?_⟩
  rw [← hbuf.lengths]
  exact noHoles_iff w hsplit (sentAt_increasing 0 ps) hys (unbroken_le ps) htext

/-- Exactly when the output of `printf` and that of `puts` have no holes. -/
theorem output_without_holes_iff (w : Writer) (buf : {b : List UInt8 // b.length = printfBufSize})
    (fmt : CString) {args rest : List Arg} {ps : List (List UInt8)}
    (hps : pieces fmt.bytes args = some (ps, rest)) (s : Option CString) :
    (∃ r, toylibcPrintf w buf fmt args = some r ∧
      (NoHoles ps.flatten (sentAt 0 ps) r.calls ↔
        InOrder (offers w 0 (writeLens (ps.map cut).flatten.length)) ∧
          total (offers w 0 (writeLens (ps.map cut).flatten.length)) ≤ unbroken ps)) ∧
      (NoHoles (putsText s) (List.range (putsText s).length) (toylibcPuts w s).2 ↔
        InOrder (offers w 0 (putsLens s))) :=
  ⟨printf_noHoles_iff w buf fmt hps, puts_noHoles_iff w s⟩

/-! ### A refused write -/

/-- The first write is refused with an error, the others are accepted. -/
def lateWriter : Writer :=
  ⟨fun k n => if k = 0 then -5 else n, fun k n => by split <;> omega⟩

def abString : CString := ⟨ascii ['a', 'b'], by decide⟩

def percentPieces : List (List UInt8) :=
  [ascii ['n'], ascii ['='], ascii ['4', '2'], ascii ['%'], ascii ['\n']]

theorem percentFormat_pieces :
    pieces percentFormat.bytes [.word 42] = some (percentPieces, []) := rfl

theorem output_without_holes_ab :
    (∃ r, toylibcPrintf lateWriter freshBuf percentFormat [.word 42] = some r ∧
      (NoHoles percentPieces.flatten (sentAt 0 percentPieces) r.calls ↔
        InOrder (offers lateWriter 0 (writeLens (percentPieces.map cut).flatten.length)) ∧
          total (offers lateWriter 0 (writeLens (percentPieces.map cut).flatten.length)) ≤
            unbroken percentPieces)) ∧
      (NoHoles (putsText (some abString)) (List.range (putsText (some abString)).length)
          (toylibcPuts lateWriter (some abString)).2 ↔
        InOrder (offers lateWriter 0 (putsLens (some abString)))) :=
  output_without_holes_iff lateWriter freshBuf percentFormat percentFormat_pieces (some abString)

/-- One full buffer, and a byte behind it. -/
def longString : CString :=
  ⟨List.replicate 2047 (ch 'a') ++ [ch 'b'], by
    rw [List.mem_append, List.mem_replicate]
    decide⟩

def stringFormat : CString := ⟨ascii ['%', 's'], by decide⟩

theorem stringFormat_pieces (s : CString) :
    pieces stringFormat.bytes [.ptr 1 s] = some ([s.bytes], []) := rfl

/-- `printf` drops the refused buffer and outputs the byte behind it; `puts` outputs the line
break alone. -/
theorem lateWriter_holes :
    (∃ r, toylibcPrintf lateWriter freshBuf stringFormat [.ptr 1 longString] = some r ∧
      accepted r.calls = [ch 'b'] ∧ ¬accepted r.calls <+: longString.bytes) ∧
      accepted (toylibcPuts lateWriter (some abString)).2 = [ch '\n'] ∧
      ¬accepted (toylibcPuts lateWriter (some abString)).2 <+: putsText (some abString) := by
  refine ⟨?_, by decide, by decide⟩
  obtain ⟨ret, bs, hprintf, hbuf, -⟩ :=
    printf_buffered lateWriter freshBuf stringFormat (stringFormat_pieces longString)
  have hlen : longString.bytes.length = 2048 := by
    rw [longString, List.length_append, List.length_replicate]
    rfl
  have hcut : ([longString.bytes].map cut).flatten = longString.bytes := by
    have hshort : [longString.bytes].flatten.length < 2 ^ 31 := by
      rw [List.flatten_singleton, hlen]
      decide
    rw [map_cut_eq hshort, List.flatten_singleton]
  rw [hcut] at hbuf
  have hoffers : offers lateWriter 0 (writeLens 2048) = [(2047, 0), (1, 1)] := by decide
  have hacc : accepted (writeCalls lateWriter 0 bs) = [ch 'b'] := by
    rw [accepted_writeCalls, hbuf.lengths, hbuf.text, hlen, hoffers]
    simp only [taken, List.take_zero, List.nil_append, List.append_nil]
    rw [longString, List.drop_left' List.length_replicate]
    rfl
  refine ⟨_, hprintf, hacc, ?_⟩
  rw [hacc]
  intro hbytes
  have hfirst : longString.bytes = ch 'a' :: (List.replicate 2046 (ch 'a') ++ [ch 'b']) := rfl
  rw [hfirst] at hbytes
  exact absurd (List.cons_prefix_cons.mp hbytes).1 (by decide)

end Toylibc
