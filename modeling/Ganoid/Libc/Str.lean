import Ganoid.Library.ByteStrings
import Ganoid.Library.Fuelled
import Ganoid.Types

/-!
# Strings and blocks

The functions of `lib/libc/string.c` that copy and compare. A pointer is an address of the memory,
which has no protected parts, and pointers are compared as addresses. An `int` is a word, and a
`char` is signed, so that it is sign-extended where it is computed with.
-/

open Fuelled

namespace Ganoid

/-- `*s` where it is computed with. -/
def charAt (m : Mem) (s : U32) : U32 := (m s).signExtend 32

namespace Str

/-- The loop of `memcmp`, from `i`, `a1` and `a2`. -/
def compareBlocks (m : Mem) (n : U32) : U32 × U32 × U32 → Fuelled U32 :=
  loop fun (i, a1, a2) ↦
    if i < n then
      let diff := charAt m a1 - charAt m a2
      if diff ≠ 0 then pure (.inr diff) else pure (.inl (i + 1, a1 + 1, a2 + 1))
    else pure (.inr 0)

/-- The loop of `strcmp`, from `s1` and `s2`. -/
def compareStrings (m : Mem) : U32 × U32 → Fuelled U32 :=
  loop fun (s1, s2) ↦
    if m s1 ≠ 0 then
      let diff := charAt m s1 - charAt m s2
      if diff ≠ 0 then pure (.inr diff) else pure (.inl (s1 + 1, s2 + 1))
    else pure (.inr 0)

/-- The loop of `strncmp`, from `i`, `s1` and `s2`. -/
def comparePrefixes (m : Mem) (n : U32) : U32 × U32 × U32 → Fuelled U32 :=
  loop fun (i, s1, s2) ↦
    if i < n then
      let diff := charAt m s1 - charAt m s2
      if diff ≠ 0 then pure (.inr diff)
      else if m s1 = 0 then pure (.inr 0)
      else pure (.inl (i + 1, s1 + 1, s2 + 1))
    else pure (.inr 0)

/-- The loop of `memmove`, from the memory, `d` and `s`. -/
def moveBackwards (src : U32) : Mem × U32 × U32 → Fuelled Mem :=
  loop fun (m, d, s) ↦
    let m := Function.update m d (m s)
    if s = src then pure (.inr m) else pure (.inl (m, d - 1, s - 1))

/-- The first loop of `strncpy`, from the memory, `dest`, `src` and `n`: the memory, `dest` and `n`
where it ends. -/
def copyCounted : Mem × U32 × U32 × U32 → Fuelled (Mem × U32 × U32) :=
  loop fun (m, dest, src, n) ↦
    if n ≠ 0 then
      let n := n - 1
      let m := Function.update m dest (m src)
      if m src = 0 then pure (.inr (m, dest, n)) else pure (.inl (m, dest + 1, src + 1, n))
    else pure (.inr (m, dest, n - 1))

/-- The second loop of `strncpy`, from the memory, `dest` and `n`. -/
def clearCounted : Mem × U32 × U32 → Fuelled Mem :=
  loop fun (m, dest, n) ↦
    if n ≠ 0 then pure (.inl (Function.update m dest 0, dest + 1, n - 1)) else pure (.inr m)

/-- The first loop of `strncat`, which goes up to the NUL. -/
def findNul (m : Mem) : U32 → Fuelled U32 :=
  loop fun dest ↦ if m dest ≠ 0 then pure (.inl (dest + 1)) else pure (.inr dest)

/-- The second loop of `strncat`, from the memory, `i`, `dest` and `src`: the memory, `dest` and
`src` where it ends. -/
def appendCounted (n : U32) : Mem × U32 × U32 × U32 → Fuelled (Mem × U32 × U32) :=
  loop fun (m, i, dest, src) ↦
    if i < n then
      let m := Function.update m dest (m src)
      if m src = 0 then pure (.inr (m, dest, src)) else pure (.inl (m, i + 1, dest + 1, src + 1))
    else pure (.inr (m, dest, src))

end Str

open Str

/-- `memcmp`. -/
def memcmp (m : Mem) (s1 s2 n : U32) : Fuelled U32 := compareBlocks m n (0, s1, s2)

/-- `memmove`: the memory, and the value returned. -/
def memmove (m : Mem) (dest src n : U32) : Fuelled (Mem × U32) := do
  let m ← (
    if src < dest ∧ dest < src + n then moveBackwards src (m, dest + n - 1, src + n - 1)
    else pure m)
  pure (m, dest)

/-- `strcmp`. -/
def strcmp (m : Mem) (s1 s2 : U32) : Fuelled U32 := compareStrings m (s1, s2)

/-- `strncmp`. -/
def strncmp (m : Mem) (s1 s2 n : U32) : Fuelled U32 := comparePrefixes m n (0, s1, s2)

/-- `strncpy`: the memory, and the value returned. -/
def strncpy (m : Mem) (dest src n : U32) : Fuelled (Mem × U32) := do
  let (m, dest', n) ← copyCounted (m, dest, src, n)
  let m ← clearCounted (m, dest', n)
  pure (m, dest)

/-- `strncat`: the memory, and the value returned. -/
def strncat (m : Mem) (dest src n : U32) : Fuelled (Mem × U32) := do
  let dest' ← findNul m dest
  let (m, dest', src) ← appendCounted n (m, 0, dest', src)
  let m := if m src = 0 then Function.update m dest' 0 else m
  pure (m, dest)

end Ganoid
