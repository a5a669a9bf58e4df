import Ganoid.Arch.Sysinfo
import Ganoid.Library.Fuelled
import Ganoid.Library.PackedBits

/-!
# The physical page allocator

The functions of `mm/page.c` and `mm/heap.c`, as the code computes them. A frame is a page of
physical memory, and the bitmap `free_bm` holds one bit for each of the `2 ^ 20` frames of the
address space: a set bit is a busy frame.

The array has `uintCnt` words, but nothing in the code stops an index from passing its end, where
the program reads and writes whatever memory follows. `FreeBm.words` is therefore a function on all
indices, its values from `uintCnt` on being that memory. The log `FreeBm.touched` records every
index the code reads or writes; no function consults it.

Every loop of the source is a `Fuelled.loop`. The ones over a bitmap that always end are shown to
end where they are specified; the outer loop of `findFreeBitsRange` does not always.
-/

open Fuelled

namespace Ganoid

/-- `PAGE_SIZE`. -/
def pageSize : U32 := 4096

/-- `NUM_FRAMES`, the frames of a 32-bit address space. -/
def numFrames : U32 := 1048576

/-- `LAST_BIT_NO`. -/
def lastBitNo : U32 := numFrames - 1

/-- `NUM_BITS_PER_UINT`. -/
def numBitsPerUint : U32 := 32

/-- `UINT_CNT`, the words of `free_bm`. -/
def uintCnt : U32 := numFrames / numBitsPerUint

/-- `GET_PAGENO`. -/
def getPageno (a : U32) : U32 := a / pageSize

/-- `PAGENO_TO_ADDR`. -/
def pagenoToAddr (b : U32) : U32 := b * pageSize

/-- The array `free_bm` with the memory behind it, and the log of the indices accessed so far. -/
structure FreeBm where
  /-- The word at `free_bm[i]`. -/
  words : ℕ → U32
  /-- The indices read or written, latest first. -/
  touched : List ℕ

namespace FreeBm

/-- Whether the bit of a frame is set. -/
def busy (bm : FreeBm) (b : ℕ) : Bool :=
  PackedBits.get bm.words b

/-- An access to `free_bm[i]`. -/
def touch (bm : FreeBm) (i : ℕ) : FreeBm :=
  { bm with touched := i :: bm.touched }

@[simp] theorem touched_touch (bm : FreeBm) (i : ℕ) : (bm.touch i).touched = i :: bm.touched := rfl

/-- `free_bm[i] = v`. -/
def store (bm : FreeBm) (i : ℕ) (v : U32) : FreeBm :=
  { bm.touch i with words := Function.update bm.words i v }

end FreeBm

/-! ### One bit -/

/-- `fp_setbit`. -/
def fpSetbit (bm : FreeBm) (b : U32) : FreeBm :=
  let index := b / numBitsPerUint
  let offset := b % numBitsPerUint
  let mask := 1#32 <<< offset
  bm.store index.toNat (bm.words index.toNat ||| mask)

/-- `fp_clearbit`. -/
def fpClearbit (bm : FreeBm) (b : U32) : FreeBm :=
  let index := b / numBitsPerUint
  let offset := b % numBitsPerUint
  let mask := 1#32 <<< offset
  bm.store index.toNat (bm.words index.toNat &&& ~~~mask)

/-- `fp_getbit`. The source tests the same word twice. -/
def fpGetbit (bm : FreeBm) (b : U32) : Bool × FreeBm :=
  let index := b / numBitsPerUint
  let offset := b % numBitsPerUint
  let mask := 1#32 <<< offset
  (bm.words index.toNat &&& mask != 0 && bm.words index.toNat &&& mask != 0,
    bm.touch index.toNat)

/-- The loop `for (bit = start_bit; bit <= end_bit; bit++)` that `fp_setbit_range` and
`fp_clearbit_range` share. -/
def fpBitRange (op : FreeBm → U32 → FreeBm) (bm : FreeBm) (startBit endBit : U32) :
    Fuelled FreeBm :=
  loop (fun s : FreeBm × U32 ↦
    if s.2 ≤ endBit then pure (.inl (op s.1 s.2, s.2 + 1)) else pure (.inr s.1)) (bm, startBit)

/-- `fp_setbit_range`. -/
def fpSetbitRange (bm : FreeBm) (startBit endBit : U32) : Fuelled FreeBm :=
  fpBitRange fpSetbit bm startBit endBit

/-- `fp_clearbit_range`. -/
def fpClearbitRange (bm : FreeBm) (startBit endBit : U32) : Fuelled FreeBm :=
  fpBitRange fpClearbit bm startBit endBit

/-! ### Initialization -/

/-- The first loop of `init_page_allocator`, which sets all bits. -/
def setAllBusy (bm : FreeBm) : Fuelled FreeBm :=
  loop (fun s : FreeBm × U32 ↦
    if s.2 < uintCnt then pure (.inl (s.1.store s.2.toNat (~~~0), s.2 + 1)) else pure (.inr s.1))
    (bm, 0)

/-- One pass of the last loop of `init_page_allocator`, which clears the bits of one range. The
linker script's `__start_` and `__end_` are `areaStart` and `areaEnd`. -/
def initEntry (areaStart areaEnd : U32) (bm : FreeBm) (s : RamMap) : Fuelled FreeBm :=
  let nextBlockAddr := s.saddr + s.len
  if s.saddr ≤ areaStart ∧ areaEnd < nextBlockAddr then
    let belowKernel :=
      if s.saddr ≠ areaStart then
        fpClearbitRange bm (getPageno s.saddr) (getPageno (areaStart - 1))
      else pure bm
    belowKernel >>= fun bm ↦
      if nextBlockAddr ≠ areaEnd then
        fpClearbitRange bm (getPageno (areaEnd + pageSize)) (getPageno (nextBlockAddr - 1))
      else pure bm
  else
    fpClearbitRange bm (getPageno s.saddr) (getPageno (nextBlockAddr - 1))

/-- `init_page_allocator`, on the ranges that `get_rammap_ptr` returns. -/
def initPageAllocator (bm : FreeBm) (ramMap : List RamMap) (areaStart areaEnd : U32) :
    Fuelled FreeBm := do
  let bm ← setAllBusy bm
  ramMap.foldlM (initEntry areaStart areaEnd) bm

/-! ### The search -/

/-- The locals of `find_first_free` that its loops change. -/
structure FirstFree where
  /-- The bitmap, for its access log. -/
  bm : FreeBm
  /-- The word looked at. -/
  index : U32
  /-- The bit of that word looked at. -/
  mask : U32
  /-- The number of that bit. -/
  i : U32

/-- The inner loop of `find_first_free`: look at the bits of one word, from `mask` on. -/
def scanWord : FirstFree → Fuelled (Bool × FirstFree) :=
  loop fun s ↦
    if s.mask = 0 then pure (.inr (false, s))
    else
      let word := s.bm.words s.index.toNat
      let s := { s with bm := s.bm.touch s.index.toNat }
      if word &&& s.mask = 0 then pure (.inr (true, s))
      else pure (.inl { s with mask := s.mask <<< 1, i := s.i + 1 })

/-- `find_first_free`, with `some bit` for the return value 0 and `none` for 1. -/
def findFirstFree (bm : FreeBm) (start : U32) : Fuelled (Option U32 × FreeBm) :=
  loop (fun s : FirstFree ↦
    if s.i < numFrames then do
      let (freeBitFound, s) ← scanWord s
      if freeBitFound then pure (.inr (some s.i, s.bm))
      else pure (.inl { s with index := s.index + 1, mask := 1 })
    else pure (.inr (none, s.bm)))
    { bm := bm, index := start / numBitsPerUint, mask := 1#32 <<< (start % numBitsPerUint),
      i := start }

/-- The verification loop of `find_free_bits_range`: count the free bits that follow
`firstFreeBit`, up to `remainingBits` of them. -/
def countFollowing (bm : FreeBm) (firstFreeBit remainingBits : U32) : Fuelled (U32 × FreeBm) :=
  loop (fun s : FreeBm × U32 × U32 ↦
    let (bm, i, b) := s
    if i < remainingBits then
      let (busy, bm) := fpGetbit bm b
      if busy then pure (.inr (i, bm)) else pure (.inl (bm, i + 1, b + 1))
    else pure (.inr (i, bm))) (bm, 0, firstFreeBit + 1)

/-- One pass through the outer loop of `find_free_bits_range`, whose state is the bitmap with its
log and the local `l_start_bit`. -/
def searchPass (remainingBits : U32) (s : FreeBm × U32) :
    Fuelled ((FreeBm × U32) ⊕ (Option U32 × FreeBm)) :=
  let (bm, lStartBit) := s
  if lStartBit + remainingBits ≤ lastBitNo then do
    let (found, bm) ← findFirstFree bm lStartBit
    match found with
    | some firstFreeBit => do
      let (i, bm) ← countFollowing bm firstFreeBit remainingBits
      if i = remainingBits then pure (.inr (some firstFreeBit, bm))
      else pure (.inl (bm, firstFreeBit + i))
    | none => pure (.inr (none, bm))
  else pure (.inr (none, bm))

/-- `find_free_bits_range`, with `some start_bit` for the return value 0 and `none` for 1. -/
def findFreeBitsRange (bm : FreeBm) (count : U32) : Fuelled (Option U32 × FreeBm) :=
  loop (searchPass (count - 1)) (bm, 0)

/-! ### The interface -/

/-- `get_free_pages`: the address of the block, 0 being `NULL`. -/
def getFreePages (bm : FreeBm) (count : U32) : Fuelled (U32 × FreeBm) := do
  let (r, bm) ← findFreeBitsRange bm count
  match r with
  | none => pure (0, bm)
  | some startBit => do
    let lastBit := startBit + count - 1
    let bm ← fpSetbitRange bm startBit lastBit
    pure (pagenoToAddr startBit, bm)

/-- `free_page`. -/
def freePage (bm : FreeBm) (ptr : U32) : FreeBm :=
  let bit := getPageno ptr
  if ptr ≠ 0 then fpClearbit bm bit else bm

/-- The pages `kmalloc` asks for. -/
def kmallocPageCnt (size : U32) : U32 := size / pageSize + 1

/-- `kmalloc`. -/
def kmalloc (bm : FreeBm) (size : U32) : Fuelled (U32 × FreeBm) :=
  getFreePages bm (kmallocPageCnt size)

/-- `kfree`, which does nothing. -/
def kfree (bm : FreeBm) (_ptr : U32) : FreeBm := bm

end Ganoid
