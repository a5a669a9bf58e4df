import Ganoid.Library.Fuelled
import Ganoid.Library.PackedBits
import Ganoid.Mm.Page

/-!
# The boot memory allocator

The functions of `mm/bootmem.c`, as the code computes them. The allocator serves whole frames out of
a heap window, the addresses from `bm_heap_start` to `bm_heap_end`. It keeps a bitmap of its own,
`free_bitmap`, in which a set bit is a busy frame, and a table of accounts, one node for each block
handed out, by which a block that is freed is found again.

The window is compared by frame numbers (`GETBIT`), which are below `2 ^ 20` for any address, so no
search leaves the bitmap and there is no memory behind it to model. A node with the start bit 0 is
an empty one, which is why the window must not contain frame 0.
-/

open Fuelled

namespace Ganoid.Bootmem

/-- `kdebug_init_val`, with which the locals of the searches are initialized. -/
def kdebugInitVal : U32 := 0xCAFED00D

/-- `GETBIT`. -/
def getbit (a : U32) : U32 := a / pageSize

/-- `FROMBIT`. -/
def frombit (b : U32) : U32 := b * pageSize

/-- `ROUND_TO_PAGE_SIZE`. -/
def roundToPageSize (s : U32) : U32 := pageSize * ((s - 1) / pageSize) + pageSize

/-- `bm_account`. -/
structure BmAccount where
  startBit : U32
  endBit : U32
deriving DecidableEq

/-- The static variables of the allocator. -/
structure BootMem where
  bmHeapStart : U32
  bmHeapEnd : U32
  /-- The word at `free_bitmap[i]`. -/
  freeBitmap : ℕ → U32
  /-- The nodes from `start_addr_acnt` to `end_addr_acnt`. -/
  acnt : List BmAccount
  acntI : U32

namespace BootMem

/-- The first frame of the heap window. -/
def startBit (m : BootMem) : U32 := getbit m.bmHeapStart

/-- The last frame of the heap window. -/
def endBit (m : BootMem) : U32 := getbit m.bmHeapEnd

/-- Whether the bit of a frame is set. -/
def busy (m : BootMem) (b : ℕ) : Bool := PackedBits.get m.freeBitmap b

end BootMem

/-! ### Bits -/

/-- `bm_setbit`. -/
def bmSetbit (m : BootMem) (bitno : U32) : BootMem :=
  let index := (bitno / 32).toNat
  let offset := bitno % 32
  let mask := 1#32 <<< offset
  { m with freeBitmap := Function.update m.freeBitmap index (m.freeBitmap index ||| mask) }

/-- `bm_clearbit`. -/
def bmClearbit (m : BootMem) (bitno : U32) : BootMem :=
  let index := (bitno / 32).toNat
  let offset := bitno % 32
  let mask := 1#32 <<< offset
  { m with freeBitmap := Function.update m.freeBitmap index (m.freeBitmap index &&& ~~~mask) }

/-- `bm_getbit`. -/
def bmGetbit (m : BootMem) (bitno : U32) : U32 :=
  let index := (bitno / 32).toNat
  let offset := bitno % 32
  let mask := 1#32 <<< offset
  m.freeBitmap index &&& mask

/-- The loop that `bm_setbit_range` and `bm_clearbit_range` share. -/
def bmBitRange (op : BootMem → U32 → BootMem) (m : BootMem) (first last : U32) : Fuelled BootMem :=
  loop (fun s : BootMem × U32 ↦
    if s.2 ≤ last then pure (.inl (op s.1 s.2, s.2 + 1)) else pure (.inr s.1)) (m, first)

/-- `bm_setbit_range`. -/
def bmSetbitRange (m : BootMem) (first last : U32) : Fuelled BootMem :=
  bmBitRange bmSetbit m first last

/-- `bm_clearbit_range`. -/
def bmClearbitRange (m : BootMem) (first last : U32) : Fuelled BootMem :=
  bmBitRange bmClearbit m first last

/-! ### The search -/

/-- The locals of `find_first_free` that its loops change. -/
structure FirstFreeBit where
  index : U32
  mask : U32
  i : U32

/-- The inner loop of `find_first_free`: look at the bits of one word, from `mask` on, up to
`end_bit`. -/
def scanWord (m : BootMem) : FirstFreeBit → Fuelled (Bool × FirstFreeBit) :=
  loop fun s ↦
    if s.mask ≠ 0 ∧ s.i ≤ m.endBit then
      if m.freeBitmap s.index.toNat &&& s.mask = 0 then pure (.inr (true, s))
      else pure (.inl { s with mask := s.mask <<< 1, i := s.i + 1 })
    else pure (.inr (false, s))

/-- `find_first_free`, with `some bit` for the return value 0 and `none` for 1. -/
def findFirstFree (m : BootMem) (start : U32) : Fuelled (Option U32) :=
  if m.endBit < start then pure none
  else loop (fun s : FirstFreeBit ↦
    if s.i ≤ m.endBit then do
      let (freeBitFound, s) ← scanWord m s
      if freeBitFound then pure (.inr (some s.i))
      else pure (.inl { s with index := s.index + 1, mask := 1 })
    else pure (.inr none))
    { index := start / 32, mask := 1#32 <<< (start % 32), i := start }

/-- The verification loop of `find_free_bits_range`: count the free bits that follow
`first_free_bit` in the window, up to `remaining_bits` of them. -/
def countFollowing (m : BootMem) (firstFreeBit remainingBits : U32) : Fuelled U32 :=
  loop (fun s : U32 × U32 ↦
    let (i, b) := s
    if i < remainingBits ∧ b ≤ m.endBit then
      if bmGetbit m b ≠ 0 then pure (.inr i) else pure (.inl (i + 1, b + 1))
    else pure (.inr i)) (0, firstFreeBit + 1)

/-- The locals of `find_free_bits_range` that its outer loop changes. -/
structure RangeSearch where
  lStartBit : U32
  firstFreeBit : U32
  i : U32

/-- One pass through the outer loop of `find_free_bits_range`. A pass in which `find_first_free`
fails goes on from the values that the last one left. -/
def searchPass (m : BootMem) (remainingBits : U32) (s : RangeSearch) :
    Fuelled (RangeSearch ⊕ Option U32) :=
  if s.lStartBit + remainingBits ≤ m.endBit then do
    let found ← findFirstFree m s.lStartBit
    match found with
    | some firstFreeBit => do
      let i ← countFollowing m firstFreeBit remainingBits
      if i = remainingBits then pure (.inr (some firstFreeBit))
      else pure (.inl ⟨firstFreeBit + i, firstFreeBit, i⟩)
    | none => pure (.inl { s with lStartBit := s.firstFreeBit + s.i })
  else pure (.inr none)

/-- `find_free_bits_range`, with `some start_bit` for the return value 0 and `none` for 1. -/
def findFreeBitsRange (m : BootMem) (totalBits : U32) : Fuelled (Option U32) :=
  loop (searchPass m (totalBits - 1)) ⟨m.startBit, kdebugInitVal, kdebugInitVal⟩

/-! ### Accounts -/

/-- The test of `search_bit_in_acnt`. -/
def BmAccount.has (s : BmAccount) (bit : U32) : Prop := bit ≤ s.endBit ∧ s.startBit ≤ bit

instance (s : BmAccount) (bit : U32) : Decidable (s.has bit) := inferInstanceAs (Decidable (_ ∧ _))

/-- `search_bit_in_acnt`: the index of the first node that has the bit. -/
def searchBitInAcnt : List BmAccount → U32 → Option ℕ
  | [], _ => none
  | s :: nodes, bit =>
    if s.has bit then some 0 else (searchBitInAcnt nodes bit).map (· + 1)

/-- `search_free_acnt_node`. -/
def searchFreeAcntNode (acnt : List BmAccount) : Option ℕ := searchBitInAcnt acnt 0

/-! ### The interface -/

/-- The number of frames that `bm_malloc` searches for. -/
def bmBits (size : U32) : U32 := roundToPageSize size / pageSize

/-- `bm_malloc`: the address of the block, 0 being `NULL`. -/
def bmMalloc (m : BootMem) (size : U32) : Fuelled (U32 × BootMem) :=
  let bits := bmBits size
  match searchFreeAcntNode m.acnt with
  | none => pure (0, m)
  | some s => do
    let r ← findFreeBitsRange m bits
    match r with
    | none => pure (0, m)
    | some startBit => do
      let endBit := startBit + bits - 1
      let m ← bmSetbitRange m startBit endBit
      pure (frombit startBit,
        { m with acnt := m.acnt.set s ⟨startBit, endBit⟩, acntI := m.acntI + 1 })

/-- `bm_free`. A block that has no account fails the assertion and stops the machine. -/
def bmFree (m : BootMem) (ptr : U32) : Fuelled BootMem :=
  let bit := getbit ptr
  if ptr ≠ 0 then
    match searchBitInAcnt m.acnt bit with
    | none => never
    | some s => do
      let node := m.acnt.getD s ⟨0, 0⟩
      let m ← bmClearbitRange m node.startBit node.endBit
      pure { m with acnt := m.acnt.set s ⟨0, 0⟩, acntI := m.acntI - 1 }
  else pure m

end Ganoid.Bootmem
