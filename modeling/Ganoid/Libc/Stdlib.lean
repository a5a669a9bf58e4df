import Ganoid.Library.Fuelled
import Ganoid.Library.Positional
import Ganoid.Types

/-!
# Reading numbers

`atoi` and `simple_strtoull` of `lib/libc/stdlib.c` with the functions they call, and the character
classes of `include/ganoid/ctype.h`. A string is the list of its bytes before the NUL, and a pointer
into it is what is left of it, so that reading at the end of the list reads the NUL (`deref`). No
function moves a pointer past the NUL, nor before the string.

The value stored through `endptr` is part of the answer. It is `none` where the function returns
without storing anything.
-/

open Fuelled

namespace Ganoid

/-! ### Characters -/

/-- `isdigit`. -/
def isdigit (c : U8) : Bool := 0x30 ≤ c && c ≤ 0x39

/-- `ishexchar`. -/
def ishexchar (c : U8) : Bool := 0x41 ≤ c && c ≤ 0x46

/-- `isxdigit`. -/
def isxdigit (c : U8) : Bool := isdigit c || ishexchar c

/-- `isspace`. -/
def isspace (c : U8) : Bool := c = 0x20

/-- `*nptr`. -/
def deref : List U8 → U8
  | [] => 0
  | c :: _ => c

@[simp] theorem deref_nil : deref [] = 0 := rfl

@[simp] theorem deref_cons (c : U8) (nptr : List U8) : deref (c :: nptr) = c := rfl

/-! ### `atoi` -/

/-- The first loop of `atoi` and of `get_value`, which goes up to the units digit and counts the
digits. -/
def digitRun : List U8 → ℕ
  | [] => 0
  | c :: nptr => if isdigit c then digitRun nptr + 1 else 0

/-- The second loop of `atoi`, from the digit at offset `i - 1` down. A character that is not a
digit would stop the machine. -/
def atoiSum (nptr : List U8) : ℕ → U32 → U32 → Fuelled U32
  | 0, _, val => pure val
  | i + 1, t, val =>
    let c := nptr.getD i 0
    if !isdigit c then never
    else atoiSum nptr i (t * 10) (val + (c &&& 0x0F).setWidth 32 * t)

/-- The sign, which `atoi` and `simple_strtoull` skip alike: whether it is a minus, and the pointer
behind it. -/
def takeSign (nptr : List U8) : Bool × List U8 :=
  if deref nptr = 0x2B then (false, nptr.tail)
  else if deref nptr = 0x2D then (true, nptr.tail)
  else (false, nptr)

/-- `atoi`. -/
def atoi (nptr : List U8) : Fuelled U32 := do
  let (flag, nptr) := takeSign nptr
  let val ← atoiSum nptr (digitRun nptr) 1 0
  pure (if flag then ~~~val + 1 else val)

/-! ### `simple_strtoull` -/

/-- `detect_base`: the base, or -1, and the pointer it leaves. -/
def detectBase (nptr : List U8) : U32 × List U8 :=
  if deref nptr = 0 then (-1, nptr)
  else if deref nptr = 0x30 then
    let nptr := nptr.tail
    if deref nptr = 0x78 then
      let nptr := nptr.tail
      (if isxdigit (deref nptr) then 16 else -1, nptr)
    else if isdigit (deref nptr) then (8, nptr)
    else (-1, nptr)
  else (-1, nptr)

/-- `hex_process`: the result, 0 or -1, and the pointer it leaves. -/
def hexProcess (nptr : List U8) : U32 × List U8 :=
  if deref nptr = 0 then (-1, nptr)
  else
    let nptr :=
      if deref nptr = 0x30 then
        let nptr := nptr.tail
        if deref nptr = 0x78 then nptr.tail else nptr
      else nptr
    (if isxdigit (deref nptr) then 0 else -1, nptr)

/-- `is_correct_digit`. -/
def isCorrectDigit (d : U8) (base : U32) : Bool :=
  if base = 10 then isdigit d
  else if base = 16 then isxdigit d
  else if base = 2 then d = 0x30 || d = 0x31
  else isdigit d && (d.setWidth 32 - 0x30).slt base

/-- The value of a digit, as the loop of `simple_strtoull` computes it. -/
def digitOf (c : U8) (base : U32) : U32 :=
  let digit := c.setWidth 32
  if base = 16 then
    if ishexchar c then digit - 0x41 + 10 else digit - 0x30
  else digit - 0x30

/-- The loop of `simple_strtoull`, from `mul` and `num`: the number, and where it ends. -/
def convertDigits (base : U32) : List U8 → U32 → U64 → U64 × List U8
  | [], _, num => (num, [])
  | c :: nptr, mul, num =>
    if isCorrectDigit c base then
      convertDigits base nptr base (num * mul.setWidth 64 + (digitOf c base).setWidth 64)
    else (num, c :: nptr)

/-- The loop of `simple_strtoull` that skips blanks. -/
def skipSpace : List U8 → List U8
  | [] => []
  | c :: nptr => if isspace c then skipSpace nptr else c :: nptr

/-- The loop of `simple_strtoull` that gobbles up leading zeros. -/
def gobbleZeros : List U8 → List U8
  | [] => []
  | c :: nptr => if c = 0x30 then gobbleZeros nptr else c :: nptr

/-- `simple_strtoull` from the number on, with the base known. -/
def strtoullNumber (negSign : Bool) (base : U32) (nptr : List U8) : U64 × Option (List U8) :=
  let nptr := gobbleZeros nptr
  let (num, nptr) := convertDigits base nptr 1 0
  (if negSign then ~~~num + 1 else num, some nptr)

/-- `simple_strtoull` from the point where the base is known. -/
def strtoullBase (negSign : Bool) (base : U32) (nptr : List U8) : U64 × Option (List U8) :=
  if base = 16 then
    let (result, nptr) := hexProcess nptr
    if result ≠ 0 then (0, none) else strtoullNumber negSign base nptr
  else strtoullNumber negSign base nptr

/-- `simple_strtoull` behind the sign, in base 0. -/
def strtoullDetect (negSign : Bool) (nptr : List U8) : U64 × Option (List U8) :=
  let (base, nptr) := detectBase nptr
  if base = -1 then (0, none) else strtoullBase negSign base nptr

/-- `simple_strtoull`: the number, and what is stored through `endptr` if it is not `NULL`. The
string is `none` where `nptr` is `NULL`. -/
def simpleStrtoull (nptr : Option (List U8)) (base : U32) : U64 × Option (List U8) :=
  match nptr with
  | none => (0, none)
  | some nptr =>
    if (36 : U32).slt base ∨ base.slt 0 ∨ base = 1 then (0, none)
    else
      let nptr := skipSpace nptr
      let (negSign, nptr) := takeSign nptr
      if base = 0 then strtoullDetect negSign nptr else strtoullBase negSign base nptr

/-- `simple_strtoul`. -/
def simpleStrtoul (nptr : Option (List U8)) (base : U32) : U32 × Option (List U8) :=
  let (num, endptr) := simpleStrtoull nptr base
  (num.setWidth 32, endptr)

end Ganoid
