import Toylibc.Lib.Buffer
import Toylibc.Word

/-!
# `stdio.c`

`printf` and `puts`, function by function. A C string is the list of its bytes before the
terminating NUL (`CString`). The calls of `write` are recorded with their answers, and the
kernel is the parameter `Writer`. A local array is a list; a store outside of it, an argument
list that does not match the format, and a loop that outlives its fuel give `none`.
-/

namespace Toylibc

open Buffer

def ch (c : Char) : UInt8 := UInt8.ofNat c.toNat

def ascii (s : List Char) : List UInt8 := s.map ch

structure CString where
  bytes : List UInt8
  no_nul : (0 : UInt8) ∉ bytes

/-- The conversion to `int`. -/
def toInt (x : Int) : Int := x.bmod (2 ^ 32)

/-! ## `write` -/

/-- One call of `write` with the answer of the kernel. -/
structure WriteCall where
  fd : Nat
  bytes : List UInt8
  ret : Int
deriving DecidableEq

/-- The answers of the kernel, by the number of the call and the length asked for. A negative
answer is an error number. -/
structure Writer where
  answer : Nat → Nat → Int
  answer_le : ∀ k n, answer k n ≤ n

/-- `toylibc_write`: the wrapper returns what the kernel answers. -/
def toylibcWrite (w : Writer) (calls : List WriteCall) (fd : Nat) (bytes : List UInt8) :
    Int × List WriteCall :=
  let ret := w.answer calls.length bytes.length
  (ret, calls ++ [⟨fd, bytes, ret⟩])

/-! ## The buffer of `printf` -/

def printfBufSize : Nat := 2048

/-- `printf_ctx_t`, and the calls of `write` so far. -/
structure PrintfCtx where
  buf : List UInt8
  pos : Nat
  total : Int
  calls : List WriteCall

/-- `printf_flush`. The buffer is emptied whatever the answer was. -/
def printfFlush (w : Writer) (ctx : PrintfCtx) : PrintfCtx :=
  if 0 < ctx.pos then
    let r := toylibcWrite w ctx.calls 1 (ctx.buf.take ctx.pos)
    { ctx with
      pos := 0
      total := if 0 < r.1 then toInt (ctx.total + toInt r.1) else ctx.total
      calls := r.2 }
  else ctx

/-- `printf_putc`. -/
def printfPutc (w : Writer) (ctx : PrintfCtx) (c : UInt8) : Option PrintfCtx :=
  let ctx := if printfBufSize - 1 ≤ ctx.pos then printfFlush w ctx else ctx
  match store ctx.buf ctx.pos c with
  | none => none
  | some buf => some { ctx with buf := buf, pos := ctx.pos + 1 }

/-- The loop of `printf_puts` from the index `i` on, for `n` more bytes. -/
def printfPutsFrom (w : Writer) (s : List UInt8) : Nat → Nat → PrintfCtx → Option PrintfCtx
  | 0, _, ctx => some ctx
  | n + 1, i, ctx =>
    match s[i]? with
    | none => none
    | some c =>
      match printfPutc w ctx c with
      | none => none
      | some ctx => printfPutsFrom w s n (i + 1) ctx

/-- `printf_puts`; `len` is an `int`. -/
def printfPuts (w : Writer) (ctx : PrintfCtx) (s : List UInt8) (len : Int) : Option PrintfCtx :=
  printfPutsFrom w s len.toNat 0 ctx

/-! ## Numbers -/

/-- `str_reverse(buf + i, buf + j)`. -/
def strReverse (buf : List UInt8) (i j : Nat) : Option (List UInt8) :=
  reverseUp (buf.length + 1) buf i (j - 1)

/-- The digit loop of `utoa` and `xtoa`: `while (val > 0) { buf[i++] = ..; val /= base; }`. -/
def digitLoop (base : Nat) (digit : Nat → UInt8) :
    Nat → Nat → Nat → List UInt8 → Option (Nat × List UInt8)
  | 0, _, _, _ => none
  | fuel + 1, val, i, buf =>
    if 0 < val then
      -- the lowest digit first
      match store buf i (digit (val % base)) with
      | none => none
      | some buf => digitLoop base digit fuel (val / base) (i + 1) buf
    else some (i, buf)

/-- The body that `utoa` and `xtoa` share, on the string at `buf + off`. A value of 64 bits
has at most 64 digits. -/
def numToString (base : Nat) (digit : Nat → UInt8) (val : Nat) (buf : List UInt8) (off : Nat) :
    Option (Nat × List UInt8) :=
  if val = 0 then do
    let buf ← store buf off (ch '0')
    let buf ← store buf (off + 1) 0
    some (1, buf)
  else do
    let (i, buf) ← digitLoop base digit 65 val off buf
    let buf ← store buf i 0
    let buf ← strReverse buf off i
    some (i - off, buf)

/-- `utoa`: `'0' + (char)(val % 10)`. -/
def utoa (val : Nat) (buf : List UInt8) (off : Nat) : Option (Nat × List UInt8) :=
  numToString 10 (fun d => UInt8.ofNat ((ch '0').toNat + d)) val buf off

/-- The table of `xtoa`. -/
def hexDigits : List UInt8 :=
  ascii ['0', '1', '2', '3', '4', '5', '6', '7', '8', '9', 'a', 'b', 'c', 'd', 'e', 'f']

/-- `xtoa`: `hex[val & 0xF]`, and `val >>= 4`. -/
def xtoa (val : Nat) (buf : List UInt8) (off : Nat) : Option (Nat × List UInt8) :=
  numToString 16 (fun d => hexDigits.getD d 0) val buf off

/-- `itoa`: the magnitude is taken without overflow. -/
def itoa (val : Int) (buf : List UInt8) : Option (Nat × List UInt8) :=
  if val < 0 then do
    let buf ← store buf 0 (ch '-')
    let absVal := wadd (-(val + 1)).toNat 1
    let (len, buf) ← utoa absVal buf 1
    some (1 + len, buf)
  else utoa val.toNat buf 0

/-! ## `printf` -/

/-- One variadic argument: an `int` or `unsigned int`, or a pointer with the string that it
points to, which is read only by `%s` and only when the pointer is not `NULL`. -/
inductive Arg
  | word (v : BitVec 32)
  | ptr (p : BitVec 64) (s : CString)

/-- `char num_buf[32]`, which nothing reads before it is written. -/
def numBuf : List UInt8 := List.replicate 32 0

/-- One number: convert it, and append the text. -/
def printfNumber (w : Writer) (ctx : PrintfCtx) (num : Option (Nat × List UInt8)) :
    Option PrintfCtx :=
  match num with
  | none => none
  | some (len, buf) => printfPuts w ctx buf len

/-- The `switch` on the byte behind `%`. -/
def printfDirective (w : Writer) (spec : UInt8) (args : List Arg) (ctx : PrintfCtx) :
    Option (PrintfCtx × List Arg) :=
  if spec = ch 'd' ∨ spec = ch 'i' then
    match args with
    | .word v :: args => (printfNumber w ctx (itoa v.toInt numBuf)).map (·, args)
    | _ => none
  else if spec = ch 'u' then
    match args with
    | .word v :: args => (printfNumber w ctx (utoa v.toNat numBuf 0)).map (·, args)
    | _ => none
  else if spec = ch 'x' then
    match args with
    | .word v :: args => (printfNumber w ctx (xtoa v.toNat numBuf 0)).map (·, args)
    | _ => none
  else if spec = ch 's' then
    match args with
    | .ptr p s :: args =>
      if p = 0 then (printfPuts w ctx (ascii ['(', 'n', 'u', 'l', 'l', ')']) 6).map (·, args)
      else
        -- `(int)toylibc_strlen(s)`
        (printfPuts w ctx s.bytes (toInt s.bytes.length)).map (·, args)
    | _ => none
  else if spec = ch 'c' then
    match args with
    | .word v :: args => (printfPutc w ctx (UInt8.ofNat v.toNat)).map (·, args)
    | _ => none
  else if spec = ch 'p' then
    match args with
    | .ptr p _ :: args =>
      match printfPuts w ctx (ascii ['0', 'x']) 2 with
      | none => none
      | some ctx => (printfNumber w ctx (xtoa p.toNat numBuf 0)).map (·, args)
    | _ => none
  else if spec = ch '%' then (printfPutc w ctx (ch '%')).map (·, args)
  else
    match printfPutc w ctx (ch '%') with
    | none => none
    | some ctx => (printfPutc w ctx spec).map (·, args)

/-- The loop of `toylibc_printf` over the format. -/
def printfLoop (w : Writer) : List UInt8 → List Arg → PrintfCtx → Option (PrintfCtx × List Arg)
  | [], args, ctx => some (ctx, args)
  | c :: fmt, args, ctx =>
    if c ≠ ch '%' then
      match printfPutc w ctx c with
      | none => none
      | some ctx => printfLoop w fmt args ctx
    else
      match fmt with
      -- a `%` at the end of the format is dropped
      | [] => some (ctx, args)
      | spec :: fmt =>
        match printfDirective w spec args ctx with
        | none => none
        | some (ctx, args) => printfLoop w fmt args ctx

/-- What a call of `printf` leaves: its result, the calls of `write`, the unread arguments. -/
structure PrintfResult where
  ret : Int
  calls : List WriteCall
  args : List Arg

/-- `toylibc_printf`. The array `buf` lies on the stack and starts with any content. -/
def toylibcPrintf (w : Writer) (buf : {b : List UInt8 // b.length = printfBufSize})
    (fmt : CString) (args : List Arg) : Option PrintfResult :=
  match printfLoop w fmt.bytes args ⟨buf, 0, 0, []⟩ with
  | none => none
  | some (ctx, args) =>
    let ctx := printfFlush w ctx
    some ⟨ctx.total, ctx.calls, args⟩

/-! ## `puts` -/

/-- `toylibc_puts`; `none` is `NULL`. -/
def toylibcPuts (w : Writer) (s : Option CString) : Int × List WriteCall :=
  match s with
  | none =>
    let r := toylibcWrite w [] 1 (ascii ['(', 'n', 'u', 'l', 'l', ')', '\n'])
    (7, r.2)
  | some s =>
    let r1 := toylibcWrite w [] 1 s.bytes
    let r2 := toylibcWrite w r1.2 1 (ascii ['\n'])
    (if r1.1 < 0 ∨ r2.1 < 0 then -1 else toInt (r1.1 + r2.1), r2.2)

end Toylibc
