import Ganoid.Libc.Itoa
import Ganoid.Libc.Stdlib

/-!
# `vsprintf`

`vsprintf` of `lib/libc/vsprintf.c` and the functions that read a conversion for it. The format is a
string, read through a pointer that is what is left of it. The output buffer is split at the pointer
`buf`: what was stored before it, and the memory from it on, which is whatever it was except that a
NUL is stored at the end. The arguments are consumed one by one, and an argument of another type
than the one asked for gives no answer.

`flags` is not set back after a conversion, while the other four variables are; and the width that
the loop starts with is -1, not the 0 it is set back to.

`realize_string` has `itoa` write to an array of 100 characters on its stack. A longer string goes
over the frame of the function, and gives no answer either.
-/

open Fuelled

namespace Ganoid

/-- An argument of a call. -/
inductive Arg
  | int (val : U32)
  | str (s : List U8)

/-- `strlen`. -/
def strlen (s : List U8) : U32 := BitVec.ofNat 32 (s.takeWhile fun c ↦ c ≠ 0).length

namespace Vsprintf

/-! ### The flags -/

/-- `ZEROPAD`. -/
def zeropadFlag : U32 := 1

/-- `PLUS`. -/
def plusFlag : U32 := 4

/-- `SPACE`. -/
def spaceFlag : U32 := 8

/-- `LEFT`. -/
def leftFlag : U32 := 16

/-- `SPECIAL`. -/
def specialFlag : U32 := 32

/-! ### Buffer and arguments -/

/-- The output buffer, before the pointer `buf` and from it on. -/
structure Buf where
  before : List U8
  after : List U8

/-- `*buf++ = c`. -/
def Buf.put (buf : Buf) (c : U8) : Buf := ⟨buf.before ++ [c], buf.after.tail⟩

/-- `*buf = 0`. -/
def Buf.terminate (buf : Buf) : Buf := ⟨buf.before, 0 :: buf.after.tail⟩

/-- Store a string without its NUL. -/
def copyString : Buf → List U8 → Buf
  | buf, [] => buf
  | buf, c :: s => if c = 0 then buf else copyString (buf.put c) s

/-- `va_arg (vl, int)`. -/
def vaInt : List Arg → Fuelled (U32 × List Arg)
  | .int val :: vl => pure (val, vl)
  | _ => never

/-- `va_arg (vl, char *)`. -/
def vaStr : List Arg → Fuelled (List U8 × List Arg)
  | .str s :: vl => pure (s, vl)
  | _ => never

/-! ### Reading a conversion -/

/-- `uptonext`: whether a `%` was found, and the two pointers. -/
def uptonext : Buf → List U8 → Bool × Buf × List U8
  | buf, [] => (false, buf.terminate, [])
  | buf, c :: fmt =>
    if c = 0 then (false, buf.terminate, c :: fmt)
    else if c = 0x25 then (true, buf, c :: fmt)
    else uptonext (buf.put c) fmt

/-- `getflags`. -/
def getflags (flags : U32) : List U8 → U32 × List U8
  | [] => (flags, [])
  | c :: fmt =>
    if c = 0x2D then getflags (flags ||| leftFlag) fmt
    else if c = 0x2B then getflags (flags ||| plusFlag) fmt
    else if c = 0x20 then getflags (flags ||| spaceFlag) fmt
    else if c = 0x23 then getflags (flags ||| specialFlag) fmt
    else if c = 0x30 then getflags (flags ||| zeropadFlag) fmt
    else (flags, c :: fmt)

/-- The second loop of `get_value`, from the digit at offset `i - 1` down. -/
def valueSum (fmt : List U8) : ℕ → U32 → U32 → U32
  | 0, _, val => val
  | i + 1, t, val => valueSum fmt i (t * 10) (val + (fmt.getD i 0 &&& 0x0F).setWidth 32 * t)

/-- `get_value`: the value, and the pointer behind the digits. -/
def getValue (fmt : List U8) : U32 × List U8 :=
  (valueSum fmt (digitRun fmt) 1 0, fmt.drop (digitRun fmt))

/-- `get_lengthmodifier`. -/
def getLengthmodifier (fmt : List U8) : U32 × List U8 :=
  if deref fmt = 0x6C then (0x6C, fmt.tail) else (-1, fmt)

/-- `get_conv_specifier`. -/
def getConvSpecifier (fmt : List U8) : U32 :=
  let c := deref fmt
  if c = 0x64 ∨ c = 0x69 then 0x64
  else if c = 0x6F ∨ c = 0x75 ∨ c = 0x78 ∨ c = 0x58 ∨ c = 0x70 ∨ c = 0x63 ∨ c = 0x73 then
    c.setWidth 32
  else -1

/-- The field width that `vsprintf` reads, if there is one, or else the one it has. -/
def getFieldwidth (fieldwidth : U32) (fmt : List U8) (vl : List Arg) :
    Fuelled (U32 × List U8 × List Arg) :=
  if isdigit (deref fmt) then
    let (fieldwidth, fmt) := getValue fmt
    pure (fieldwidth, fmt, vl)
  else if deref fmt = 0x2A then do
    let (fieldwidth, vl) ← vaInt vl
    pure (fieldwidth, fmt.tail, vl)
  else pure (fieldwidth, fmt, vl)

/-- The precision that `vsprintf` reads, if there is one, or else the one it has. -/
def getPrecision (precision : U32) (fmt : List U8) : U32 × List U8 :=
  if deref fmt = 0x2E then getValue fmt.tail else (precision, fmt)

/-! ### Writing it -/

/-- `STR_SIZE`. -/
def strSize : ℕ := 100

/-- The specifiers for which `realize_string` calls `itoa`. -/
def intSpecifiers : List U32 := [0x64, 0x70, 0x78, 0x75]

/-- The string that is in `str` after the call of `itoa` for one of these specifiers. -/
def itoaStr (convSpecifier fieldwidth val : U32) : Fuelled (List U8) :=
  if convSpecifier = 0x64 then itoa val 10 0 fieldwidth
  else if convSpecifier = 0x70 then do
    let str ← itoa val 16 1 fieldwidth
    pure (0x30 :: 0x78 :: str)
  else if convSpecifier = 0x78 then itoa val 16 1 fieldwidth
  else itoa val 10 1 fieldwidth

/-- `realize_string`. A specifier that it does not know stops the machine. -/
def realizeString (buf : Buf) (_flags fieldwidth _precision _lengthModifier convSpecifier : U32)
    (vl : List Arg) : Fuelled (Buf × List Arg) := do
  let (buf, str, vl) ← (
    if convSpecifier = 0x73 then do
      let (ch, vl) ← vaStr vl
      pure (copyString buf ch, [], vl)
    else if convSpecifier ∈ intSpecifiers then do
      let (val, vl) ← vaInt vl
      let str ← itoaStr convSpecifier fieldwidth val
      -- with its NUL, a longer string is stored over the frame
      if str.length < strSize then pure (buf, str, vl) else never
    else if convSpecifier = 0x63 then do
      let (val, vl) ← vaInt vl
      pure (buf.put (val.setWidth 8), [], vl)
    else never)
  pure ((copyString buf str).terminate, vl)

/-! ### The loop -/

/-- The variables of `vsprintf`. -/
structure State where
  buf : Buf
  fmt : List U8
  vl : List Arg
  flags : U32
  fieldwidth : U32
  precision : U32
  lengthModifier : U32
  convSpecifier : U32

/-- One pass through the loop of `vsprintf` up to the call of `realize_string`: the variables with
which it makes the call, or the buffer with which the loop is left. -/
def readCall (s : State) : Fuelled (State ⊕ Buf) :=
  let (found, buf, fmt) := uptonext s.buf s.fmt
  if !found then pure (.inr buf)
  else
    let fmt := fmt.tail
    if deref fmt = 0 then pure (.inr buf.terminate)
    else do
      let (flags, fmt) := getflags s.flags fmt
      let (fieldwidth, fmt, vl) ← getFieldwidth s.fieldwidth fmt s.vl
      let fieldwidth := if flags &&& leftFlag ≠ 0 then -fieldwidth else fieldwidth
      let (precision, fmt) := getPrecision s.precision fmt
      let (lengthModifier, fmt) := getLengthmodifier fmt
      pure (.inl ⟨buf, fmt.tail, vl, flags, fieldwidth, precision, lengthModifier,
        getConvSpecifier fmt⟩)

/-- The call. -/
def State.realize (c : State) : Fuelled (Buf × List Arg) :=
  realizeString c.buf c.flags c.fieldwidth c.precision c.lengthModifier c.convSpecifier c.vl

/-- What the call stores in `str`, from its start to the NUL. -/
def scratch (c : State) : Fuelled (List U8) :=
  if c.convSpecifier ∈ intSpecifiers then do
    let (val, _) ← vaInt c.vl
    let str ← itoaStr c.convSpecifier c.fieldwidth val
    pure (str ++ [0])
  else pure []

/-- The variables after the call. -/
def State.next (c : State) (w : Buf × List Arg) : State := ⟨w.1, c.fmt, w.2, c.flags, 0, 0, 0, 0⟩

/-- One pass through the loop of `vsprintf`. -/
def pass (s : State) : Fuelled (State ⊕ Buf) := do
  match ← readCall s with
  | .inr buf => pure (.inr buf)
  | .inl c =>
    let w ← c.realize
    pure (.inl (c.next w))

end Vsprintf

open Vsprintf in
/-- `vsprintf`: the buffer, whose memory was `buf`, and the value returned. -/
def vsprintf (buf fmt : List U8) (vl : List Arg) : Fuelled (Buf × U32) := do
  let buf ← loop pass ⟨⟨[], buf⟩, fmt, vl, 0, -1, 0, -1, 0⟩
  pure (buf, strlen buf.after)

end Ganoid
