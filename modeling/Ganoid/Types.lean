import Mathlib.Algebra.Group.Nat.Defs

/-!
# The integer types of the kernel

`include/ganoid/types.h` gives the fixed-width types the whole kernel is written in. They are bit
vectors here, so arithmetic wraps around and comparisons are unsigned, as in the source.
-/

/-- `u8`. -/
abbrev U8 := BitVec 8

/-- `u16`. -/
abbrev U16 := BitVec 16

/-- `u32`, which is also `unsigned`, `size_t` and the type of an address. -/
abbrev U32 := BitVec 32

/-- The 64-bit integers of the multiboot tables. -/
abbrev U64 := BitVec 64
