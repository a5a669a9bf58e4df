import Ganoid.Arch.Dispatch
import Ganoid.Library.I386Tables

/-!
# The descriptor tables

`arch/i386/kernel/gdt.c` and the rest of `idt.c`: the table of segments, what the two printing
functions show of the tables, and how an interrupt gets from its vector to its stub through both.

`add_gdt_entry` scatters a base and a limit over the fields of a descriptor. What the processor
collects again is what was asked for exactly if each argument fits into its field
(`addGdtEntry_describes_iff`). All gates are trap gates, so interrupts stay on until the `cli` of
the stub.
-/

open Fuelled I386

namespace Ganoid

/-! ### The structures -/

/-- `struct segment_descriptor`. -/
structure SegmentDescriptor where
  segLimitLow : U16
  baseAddrLow : U16
  baseAddrMiddle : U8
  flags1 : U8
  flags2 : U8
  baseAddrHigh : U8
  deriving DecidableEq

/-- The eight bytes of the structure, which is packed. -/
def SegmentDescriptor.bits (d : SegmentDescriptor) : BitVec 64 :=
  (d.baseAddrHigh ++ (d.flags2 ++ (d.flags1 ++ (d.baseAddrMiddle ++ (d.baseAddrLow ++
    d.segLimitLow : BitVec (16 + 16)) : BitVec (8 + 32)) : BitVec (8 + 40)) : BitVec (8 + 48)) :
      BitVec (8 + 56))

/-- The eight bytes of the structure, which is packed. -/
def InterruptDescriptor.bits (d : InterruptDescriptor) : BitVec 64 :=
  (d.offsetHigh ++ (d.flags ++ (d.zeroArea ++ (d.segmentSelector ++ d.offsetLow :
    BitVec (16 + 16)) : BitVec (8 + 32)) : BitVec (8 + 40)) : BitVec (16 + 48))

/-- The fields of a segment, from the structure. -/
theorem decode_segmentBits (d : SegmentDescriptor) : Segment.decode d.bits = {
    base := (d.baseAddrHigh ++ (d.baseAddrMiddle ++ d.baseAddrLow : BitVec (8 + 16)) :
      BitVec (8 + 24))
    limit := (d.flags2.extractLsb' 0 4 ++ d.segLimitLow : BitVec (4 + 16))
    type := d.flags1.extractLsb' 0 4
    codeOrData := d.flags1.getLsbD 4
    privilege := d.flags1.extractLsb' 5 2
    present := d.flags1.getLsbD 7
    big := d.flags2.getLsbD 6
    granular := d.flags2.getLsbD 7 } := by
  rw [Segment.decode, Segment.mk.injEq, SegmentDescriptor.bits]
  refine ⟨?hbase, ?hlimit, ?htype, ?hcodeOrData, ?hprivilege, ?hpresent, ?hbig, ?hgranular⟩
  case hbase | hlimit | htype | hprivilege =>
    refine BitVec.eq_of_getLsbD_eq fun i hi ↦ ?_
    simp only [BitVec.getLsbD_append, BitVec.getLsbD_extractLsb']
    grind
  case hcodeOrData | hpresent | hbig | hgranular =>
    simp only [BitVec.getLsbD_append]
    rfl

/-- The fields of a gate, from the structure. -/
theorem decode_gateBits (d : InterruptDescriptor) : Gate.decode d.bits = {
    offset := (d.offsetHigh ++ d.offsetLow : BitVec (16 + 16))
    selector := d.segmentSelector
    type := d.flags.extractLsb' 0 5
    privilege := d.flags.extractLsb' 5 2
    present := d.flags.getLsbD 7 } := by
  rw [Gate.decode, Gate.mk.injEq, InterruptDescriptor.bits]
  refine ⟨?hoffset, ?hselector, ?htype, ?hprivilege, ?hpresent⟩
  case hoffset | hselector | htype | hprivilege =>
    refine BitVec.eq_of_getLsbD_eq fun i hi ↦ ?_
    simp only [BitVec.getLsbD_append, BitVec.getLsbD_extractLsb']
    grind
  case hpresent =>
    simp only [BitVec.getLsbD_append]
    rfl

/-! ### The global descriptor table -/

/-- `CODE_NO_CONFIRMING_NO_R`. -/
def codeNoConfirmingNoR : U32 := 8

/-- `DATA_EXPAND_UP_RW`. -/
def dataExpandUpRw : U32 := 2

/-- `DESC_CODEDATA`. -/
def descCodedata : U32 := 1

/-- `GBL_DESC_DEFAULT_OPERATION_SIZE_32BIT`. -/
def gblDescDefaultOperationSize32bit : U32 := 1 <<< 6

/-- `GBL_DESC_GRANULARITY_4KB`. -/
def gblDescGranularity4kb : U32 := 1 <<< 7

/-- `GBL_DESC_SEGMENT_PRESENT`. -/
def gblDescSegmentPresent : U32 := 1 <<< 7

/-- The descriptor that `add_gdt_entry` writes. -/
def gdtEntry (segBase segLimit segType descType descPrivLevel defaultOperationSize
    granularity : U32) : SegmentDescriptor where
  segLimitLow := (segLimit &&& 0xFFFF).setWidth 16
  baseAddrLow := (segBase &&& 0xFFFF).setWidth 16
  baseAddrMiddle := ((segBase &&& 0x00FF0000) >>> 16).setWidth 8
  flags1 := (gblDescSegmentPresent ||| descPrivLevel <<< 5 ||| descType <<< 4 |||
    segType).setWidth 8
  flags2 := (granularity ||| defaultOperationSize ||| (segLimit &&& 0x000F0000) >>> 16).setWidth 8
  baseAddrHigh := ((segBase &&& 0xFF000000) >>> 24).setWidth 8

/-- `add_gdt_entry`. -/
def addGdtEntry (gdt : ℕ → SegmentDescriptor) (gdtIndex : ℕ) (segBase segLimit segType descType
    descPrivLevel defaultOperationSize granularity : U32) : ℕ → SegmentDescriptor :=
  Function.update gdt gdtIndex
    (gdtEntry segBase segLimit segType descType descPrivLevel defaultOperationSize granularity)

/-- `DEFAULT_GDT_SIZE`. -/
def defaultGdtSize : ℕ := 6

/-- The table that `init_GDT` leaves in `GDT`. -/
def initGdt (gdt : ℕ → SegmentDescriptor) : ℕ → SegmentDescriptor :=
  let gdt := fun i ↦ if i < defaultGdtSize then ⟨0, 0, 0, 0, 0, 0⟩ else gdt i
  let gdt := addGdtEntry gdt 1 0 0xFFFFF codeNoConfirmingNoR descCodedata descSvc
    gblDescDefaultOperationSize32bit gblDescGranularity4kb
  addGdtEntry gdt 2 0 0xFFFFF dataExpandUpRw descCodedata descSvc
    gblDescDefaultOperationSize32bit gblDescGranularity4kb

/-- `GDTR_val.table_limit` after `init_GDT`: the size of the table, where the processor expects the
offset of its last byte. -/
def gdtrLimit : U16 := BitVec.ofNat 16 (8 * defaultGdtSize)

/-- The table of segments after `init_GDT`, as the processor sees it. -/
def segmentTable (gdt : ℕ → SegmentDescriptor) : Table where
  entry i := (initGdt gdt i).bits
  limit := gdtrLimit

/-- What a descriptor says of a segment is what `add_gdt_entry` was asked for, and the segment is
there. -/
structure Describes (s : Segment) (segBase segLimit segType descType descPrivLevel
    defaultOperationSize granularity : U32) : Prop where
  base : s.base = segBase
  limit : s.limit.toNat = segLimit.toNat
  type : s.type.toNat = segType.toNat
  codeOrData : s.codeOrData.toNat = descType.toNat
  privilege : s.privilege.toNat = descPrivLevel.toNat
  present : s.present = true
  big : (if s.big then gblDescDefaultOperationSize32bit else 0) = defaultOperationSize
  granular : (if s.granular then gblDescGranularity4kb else 0) = granularity

/-- A base comes back together. -/
theorem base_gdtEntry (segBase segLimit segType descType descPrivLevel defaultOperationSize
    granularity : U32) : (Segment.decode (gdtEntry segBase segLimit segType descType descPrivLevel
      defaultOperationSize granularity).bits).base = segBase := by
  rw [decode_segmentBits]
  have hlow : ∀ i : Fin 32, (0xFFFF : U32).getLsbD i = decide ((i : ℕ) < 16) := by decide
  have hmiddle : ∀ i : Fin 32, (0x00FF0000 : U32).getLsbD i =
      decide (16 ≤ (i : ℕ) ∧ (i : ℕ) < 24) := by decide
  have hhigh : ∀ i : Fin 32, (0xFF000000 : U32).getLsbD i = decide (24 ≤ (i : ℕ)) := by decide
  refine BitVec.eq_of_getLsbD_eq fun i hi ↦ ?_
  have h₁ := hlow ⟨i, hi⟩
  have h₂ := hmiddle ⟨i, hi⟩
  have h₃ := hhigh ⟨i, hi⟩
  simp only [gdtEntry, BitVec.getLsbD_append, BitVec.getLsbD_setWidth, BitVec.getLsbD_ushiftRight,
    BitVec.getLsbD_and]
  grind

/-- The fields of the first byte of flags come apart again. -/
theorem flags1_gdtEntry {segType descType descPrivLevel : U32} (htype : segType.toNat < 16)
    (hdesc : descType.toNat < 2) (hpriv : descPrivLevel.toNat < 4) (segBase segLimit
    defaultOperationSize granularity : U32) :
    let flags := (gdtEntry segBase segLimit segType descType descPrivLevel defaultOperationSize
      granularity).flags1
    (flags.extractLsb' 0 4).toNat = segType.toNat ∧ (flags.getLsbD 4).toNat = descType.toNat ∧
      (flags.extractLsb' 5 2).toNat = descPrivLevel.toNat ∧ flags.getLsbD 7 = true := by
  have hall : ∀ (p : Fin 4) (t : Fin 2) (y : Fin 16),
      let flags := (gblDescSegmentPresent ||| BitVec.ofNat 32 p <<< 5 |||
        BitVec.ofNat 32 t <<< 4 ||| BitVec.ofNat 32 y).setWidth 8
      (flags.extractLsb' 0 4).toNat = y ∧ (flags.getLsbD 4).toNat = t ∧
        (flags.extractLsb' 5 2).toNat = p ∧ flags.getLsbD 7 = true := by decide
  have h := hall ⟨_, hpriv⟩ ⟨_, hdesc⟩ ⟨_, htype⟩
  simp only [BitVec.ofNat_toNat, BitVec.setWidth_eq] at h
  exact h

/-- The upper four bits of a limit of twenty bits. -/
theorem toNat_limitHigh {segLimit : U32} (hlimit : segLimit.toNat < 2 ^ 20) :
    ((segLimit &&& 0x000F0000) >>> 16).toNat = segLimit.toNat / 2 ^ 16 := by
  have hmask : segLimit.toNat &&& 0xFFFFF = segLimit.toNat % 2 ^ 20 :=
    Nat.and_two_pow_sub_one_eq_mod segLimit.toNat 20
  have hshift : (segLimit &&& 0x000F0000) >>> 16 = (segLimit &&& 0xFFFFF) >>> 16 := by
    refine BitVec.eq_of_getLsbD_eq fun i hi ↦ ?_
    have hbit : ∀ i : Fin 32, (0x000F0000 : U32).getLsbD (16 + i) =
      (0xFFFFF : U32).getLsbD (16 + i) := by decide
    rw [BitVec.getLsbD_ushiftRight, BitVec.getLsbD_ushiftRight, BitVec.getLsbD_and,
      BitVec.getLsbD_and, hbit ⟨i, hi⟩]
  rw [hshift, BitVec.toNat_ushiftRight, BitVec.toNat_and]
  show (segLimit.toNat &&& 0xFFFFF) >>> 16 = _
  rw [hmask, Nat.mod_eq_of_lt hlimit, Nat.shiftRight_eq_div_pow]

/-- The limit and the two flags come out of the second byte again. -/
theorem flags2_gdtEntry {segLimit defaultOperationSize granularity : U32}
    (hlimit : segLimit.toNat < 2 ^ 20)
    (hop : defaultOperationSize = 0 ∨ defaultOperationSize = gblDescDefaultOperationSize32bit)
    (hgran : granularity = 0 ∨ granularity = gblDescGranularity4kb)
    (segBase segType descType descPrivLevel : U32) :
    let d := gdtEntry segBase segLimit segType descType descPrivLevel defaultOperationSize
      granularity
    (d.flags2.extractLsb' 0 4 ++ d.segLimitLow : BitVec (4 + 16)).toNat = segLimit.toNat ∧
      (if d.flags2.getLsbD 6 then gblDescDefaultOperationSize32bit else 0) =
        defaultOperationSize ∧
      (if d.flags2.getLsbD 7 then gblDescGranularity4kb else 0) = granularity := by
  have hall : ∀ (n : Fin 16) (b g : Bool),
      let flags := ((if g then gblDescGranularity4kb else 0) |||
        (if b then gblDescDefaultOperationSize32bit else 0) ||| BitVec.ofNat 32 n).setWidth 8
      (flags.extractLsb' 0 4).toNat = n ∧ flags.getLsbD 6 = b ∧ flags.getLsbD 7 = g := by decide
  have hn : ((segLimit &&& 0x000F0000) >>> 16).toNat < 16 := by
    rw [toNat_limitHigh hlimit]
    omega
  obtain ⟨b, rfl⟩ : ∃ b : Bool, defaultOperationSize =
      if b then gblDescDefaultOperationSize32bit else 0 :=
    hop.elim (fun h ↦ ⟨false, h⟩) fun h ↦ ⟨true, h⟩
  obtain ⟨g, rfl⟩ : ∃ g : Bool, granularity = if g then gblDescGranularity4kb else 0 :=
    hgran.elim (fun h ↦ ⟨false, h⟩) fun h ↦ ⟨true, h⟩
  have h := hall ⟨_, hn⟩ b g
  simp only [BitVec.ofNat_toNat, BitVec.setWidth_eq] at h
  obtain ⟨hfield, hbig, hgranular⟩ := h
  have hlow : ((segLimit &&& 0xFFFF).setWidth 16 : U16).toNat = segLimit.toNat % 2 ^ 16 := by
    rw [BitVec.toNat_setWidth, BitVec.toNat_and]
    show (segLimit.toNat &&& 0xFFFF) % 2 ^ 16 = _
    rw [show segLimit.toNat &&& 0xFFFF = segLimit.toNat % 2 ^ 16 from
      Nat.and_two_pow_sub_one_eq_mod segLimit.toNat 16, Nat.mod_mod]
  dsimp only [gdtEntry]
  rw [hbig, hgranular, BitVec.toNat_append, ← Nat.shiftLeft_add_eq_or_of_lt (BitVec.isLt _), hfield,
    hlow, Nat.shiftLeft_eq, toNat_limitHigh hlimit]
  exact ⟨by omega, rfl, rfl⟩

/-- **A descriptor describes the segment it was made for exactly if every argument fits into its
field**, and the entries of the table are independent of each other. -/
theorem addGdtEntry_describes_iff (gdt : ℕ → SegmentDescriptor) (gdtIndex : ℕ) (segBase segLimit
    segType descType descPrivLevel defaultOperationSize granularity : U32) :
    (Describes (Segment.decode (addGdtEntry gdt gdtIndex segBase segLimit segType descType
        descPrivLevel defaultOperationSize granularity gdtIndex).bits) segBase segLimit segType
        descType descPrivLevel defaultOperationSize granularity ↔
      segLimit.toNat < 2 ^ 20 ∧ segType.toNat < 16 ∧ descType.toNat < 2 ∧ descPrivLevel.toNat < 4 ∧
        (defaultOperationSize = 0 ∨ defaultOperationSize = gblDescDefaultOperationSize32bit) ∧
        (granularity = 0 ∨ granularity = gblDescGranularity4kb)) ∧
      ∀ i, i ≠ gdtIndex → addGdtEntry gdt gdtIndex segBase segLimit segType descType descPrivLevel
        defaultOperationSize granularity i = gdt i := by
  rw [addGdtEntry, Function.update_self]
  refine ⟨⟨fun h ↦ ?_, fun ⟨hlimit, htype, hdesc, hpriv, hop, hgran⟩ ↦ ?_⟩,
    fun i hi ↦ Function.update_of_ne hi _ _⟩
  · refine ⟨h.limit ▸ BitVec.isLt _, h.type ▸ BitVec.isLt _, ?_, h.privilege ▸ BitVec.isLt _, ?_,
      ?_⟩
    · rw [← h.codeOrData]
      exact Bool.toNat_lt _
    · rw [← h.big]
      split <;> simp
    · rw [← h.granular]
      split <;> simp
  · have hbase := base_gdtEntry segBase segLimit segType descType descPrivLevel
      defaultOperationSize granularity
    obtain ⟨hlim, hbig, hgranular⟩ :=
      flags2_gdtEntry hlimit hop hgran segBase segType descType descPrivLevel
    obtain ⟨hty, hcode, hprivilege, hpresent⟩ :=
      flags1_gdtEntry htype hdesc hpriv segBase segLimit defaultOperationSize granularity
    rw [decode_segmentBits] at hbase ⊢
    exact ⟨hbase, hlim, hty, hcode, hprivilege, hpresent, hbig, hgranular⟩

/-! ### From the vector to the stub -/

/-- The table of gates after `init_Interrupt_Descriptor_Table`, as the processor sees it. -/
def gateTable (layout : StubLayout) : Table where
  entry i := (initInterruptDescriptorTable layout i).bits
  limit := BitVec.ofNat 16 (8 * 256 - 1)

/-- The gates that the kernel makes. -/
theorem decode_idtEntry (address : U32) :
    Gate.decode (idtEntry 0x08 address descSvc intDescGatesize32bit).bits =
      ⟨address, 0x08, trapGate, 0, true⟩ := by
  have hflags : (idtEntry 0x08 address descSvc intDescGatesize32bit).flags = 0x8F := by
    show ((0x80 : U32) ||| descSvc <<< 5 ||| intDescGatesize32bit ||| 0x07).setWidth 8 = _
    decide
  have htarget := target_idtEntry 0x08 address
  rw [InterruptDescriptor.target, hflags, if_pos (by decide), Option.some_inj] at htarget
  rw [decode_gateBits, htarget, hflags]
  exact Gate.mk.injEq .. ▸ ⟨rfl, rfl, by decide, by decide, by decide⟩

/-- The code segment is all of memory. -/
theorem decode_codeSegment (gdt : ℕ → SegmentDescriptor) : Segment.decode (initGdt gdt 1).bits =
    ⟨0, 0xFFFFF, 8, true, 0, true, true, true⟩ := by
  have hentry : initGdt gdt 1 = gdtEntry 0 0xFFFFF codeNoConfirmingNoR descCodedata descSvc
      gblDescDefaultOperationSize32bit gblDescGranularity4kb := by
    rw [initGdt]
    exact (Function.update_of_ne (by decide) _ _).trans (Function.update_self _ _ _)
  rw [hentry]
  clear hentry gdt
  decide

/-- **Every interrupt goes from its vector to its stub**, through the gate and the code segment, and
finds interrupts as they were. There is no vector from 256 on. -/
theorem enter_init (layout : StubLayout) (gdt : ℕ → SegmentDescriptor) (vector : ℕ) :
    enter (segmentTable gdt) (gateTable layout) vector =
      if vector < 256 then some ⟨layout.addr (stubOf vector), 0x08, false⟩ else none := by
  have hlimit : (gateTable layout).limit.toNat = 2047 := rfl
  split
  · rename_i hvector
    have hsegment : (segmentTable gdt).fetch ((0x08 : U16) >>> 3).toNat =
        some (initGdt gdt 1).bits :=
      Table.fetch_of_le (show 8 * 1 + 7 ≤ gdtrLimit.toNat by decide)
    have hinside : (layout.addr (stubOf vector)).toNat ≤
        4096 * (0xFFFFF : BitVec 20).toNat + 4095 :=
      Nat.le_of_lt_succ (BitVec.isLt _)
    have hgate : (gateTable layout).fetch vector =
        some (idtEntry 0x08 (layout.addr (stubOf vector)) descSvc intDescGatesize32bit).bits :=
      (Table.fetch_of_le (by omega)).trans
        (congrArg (some ∘ InterruptDescriptor.bits)
          (initInterruptDescriptorTable_apply layout hvector))
    have hdecode := decode_idtEntry (layout.addr (stubOf vector))
    rw [enter_of_fetch hgate (e := (initGdt gdt 1).bits), hdecode, decode_codeSegment]
    · show some (⟨0 + layout.addr (stubOf vector), 0x08, trapGate == interruptGate⟩ : Entry) = _
      rw [show 0 + layout.addr (stubOf vector) = layout.addr (stubOf vector) from
        BitVec.zero_add _]
      rfl
    · rw [hdecode]
      exact ⟨rfl, Or.inr rfl, show (0x08 : U16).getLsbD 2 = false by decide⟩
    · rw [hdecode]
      exact hsegment
    · rw [hdecode, decode_codeSegment]
      exact ⟨by decide, hinside⟩
  · rename_i hvector
    rw [enter, Table.fetch_of_gt (by omega)]
    rfl

/-! ### Printing -/

/-- `struct GDTR_val` and `struct IDTR_val`. -/
structure TableRegister where
  tableLimit : U16
  tableBaseAddr : U32

/-- What is printed of a descriptor, with the two values that depend on its kind. -/
structure ShownDescriptor (α : Type) where
  number : ℕ
  descriptorAddress : U32
  dwordH : U32
  dwordL : U32
  first : α
  second : U32

/-- The loop of the two printing functions, with what is shown of the descriptor of an index. -/
def printTable {α : Type} (row : ℕ → ShownDescriptor α) (tableLimit : U16) :
    Fuelled (List (ShownDescriptor α)) :=
  loop (fun (v : ℕ × List (ShownDescriptor α)) ↦
    if v.1 < tableLimit.toNat then pure (.inl (v.1 + 8, v.2 ++ [row (v.1 / 8)]))
    else pure (.inr v.2)) (0, [])

/-- `print_global_desc_table`, with the base and the limit of each segment. -/
def printGlobalDescTable (table : ℕ → SegmentDescriptor) (gdtrValue : TableRegister) :
    Fuelled (List (ShownDescriptor U32)) :=
  printTable (fun i ↦
    let segDesc := table i
    { number := i
      descriptorAddress := gdtrValue.tableBaseAddr + 8 * BitVec.ofNat 32 i
      dwordH := segDesc.bits.extractLsb' 32 32
      dwordL := segDesc.bits.extractLsb' 0 32
      first := segDesc.baseAddrHigh.setWidth 32 <<< 24 |||
        segDesc.baseAddrMiddle.setWidth 32 <<< 16 ||| segDesc.baseAddrLow.setWidth 32
      second := (segDesc.flags2.setWidth 32 &&& 0x0F) <<< 16 ||| segDesc.segLimitLow.setWidth 32 })
    gdtrValue.tableLimit

/-- `print_interrupt_desc_table`, with the selector and the offset of each gate. -/
def printInterruptDescTable (table : ℕ → InterruptDescriptor) (idtrValue : TableRegister) :
    Fuelled (List (ShownDescriptor U16)) :=
  printTable (fun i ↦
    let intDesc := table i
    { number := i
      descriptorAddress := idtrValue.tableBaseAddr + 8 * BitVec.ofNat 32 i
      dwordH := intDesc.bits.extractLsb' 32 32
      dwordL := intDesc.bits.extractLsb' 0 32
      first := intDesc.segmentSelector
      second := intDesc.offsetHigh.setWidth 32 <<< 16 ||| intDesc.offsetLow.setWidth 32 })
    idtrValue.tableLimit

/-- The number of descriptors that are shown. The loop goes on where the limit, which is the offset
of the last byte, is still ahead. -/
def shownRows (tableLimit : U16) : ℕ := (tableLimit.toNat + 7) / 8

theorem printTable_returns {α : Type} (row : ℕ → ShownDescriptor α) (tableLimit : U16) :
    (printTable row tableLimit).Returns ((List.range (shownRows tableLimit)).map row) := by
  -- the rows of the descriptors so far, and not more than one behind the limit
  let Inv (v : ℕ × List (ShownDescriptor α)) : Prop :=
    8 ∣ v.1 ∧ v.1 ≤ tableLimit.toNat + 7 ∧ v.2 = (List.range (v.1 / 8)).map row
  obtain ⟨rows, hrows, rfl⟩ : ∃ rows, (printTable row tableLimit).Returns rows ∧
      rows = (List.range (shownRows tableLimit)).map row := by
    refine exists_returns_of_variant Inv _ (fun v ↦ tableLimit.toNat + 7 - v.1) ?_
      (show Inv (0, []) from ⟨Nat.dvd_zero 8, Nat.zero_le _, by simp⟩)
    rintro ⟨i, done⟩ ⟨hdvd, hle, hdone⟩
    dsimp only at hdvd hle hdone ⊢
    rcases Nat.lt_or_ge i tableLimit.toNat with hi | hi
    · rw [if_pos hi]
      refine Or.inr ⟨_, returns_pure _, ⟨?hdvd, ?hle, ?hdone⟩, ?hvariant⟩
      case hdone =>
        rw [hdone, show (i + 8) / 8 = i / 8 + 1 by omega, List.range_succ, List.map_append]
        rfl
      all_goals omega
    · rw [if_neg (Nat.not_lt.2 hi)]
      refine Or.inl ⟨_, returns_pure _, ?_⟩
      rw [hdone, shownRows, show (tableLimit.toNat + 7) / 8 = i / 8 by omega]
  exact hrows

/-- The rows are the descriptors that the processor fetches exactly if the limit is a whole number
of descriptors, or one less as it should be. -/
theorem shownRows_iff (entry : ℕ → BitVec 64) (tableLimit : U16) :
    (∀ i, i < shownRows tableLimit ↔ (Table.fetch ⟨entry, tableLimit⟩ i).isSome = true) ↔
      tableLimit.toNat % 8 = 0 ∨ tableLimit.toNat % 8 = 7 := by
  have hfetch : ∀ i, (Table.fetch ⟨entry, tableLimit⟩ i).isSome = true ↔
      8 * i + 7 ≤ tableLimit.toNat := fun i ↦ by
    rw [Table.fetch, Option.isSome_ite]
  simp only [hfetch, shownRows]
  refine ⟨fun h ↦ ?_, fun h i ↦ by omega⟩
  have hlast := h (tableLimit.toNat / 8)
  omega

/-- The base that is printed is the one that the processor takes. -/
theorem shownBase_eq (d : SegmentDescriptor) :
    d.baseAddrHigh.setWidth 32 <<< 24 ||| d.baseAddrMiddle.setWidth 32 <<< 16 |||
      d.baseAddrLow.setWidth 32 = (Segment.decode d.bits).base := by
  rw [decode_segmentBits]
  refine BitVec.eq_of_getLsbD_eq fun i hi ↦ ?_
  simp only [BitVec.getLsbD_append, BitVec.getLsbD_or, BitVec.getLsbD_shiftLeft,
    BitVec.getLsbD_setWidth]
  grind

/-- So is the limit. -/
theorem shownLimit_eq (d : SegmentDescriptor) :
    (d.flags2.setWidth 32 &&& 0x0F) <<< 16 ||| d.segLimitLow.setWidth 32 =
      (Segment.decode d.bits).limit.setWidth 32 := by
  rw [decode_segmentBits]
  have hmask : ∀ i : Fin 32, (0x0F : U32).getLsbD i = decide ((i : ℕ) < 4) := by decide
  refine BitVec.eq_of_getLsbD_eq fun i hi ↦ ?_
  have h := hmask ⟨i - 16, by omega⟩
  simp only [BitVec.getLsbD_append, BitVec.getLsbD_or, BitVec.getLsbD_shiftLeft,
    BitVec.getLsbD_setWidth, BitVec.getLsbD_and, BitVec.getLsbD_extractLsb']
  grind

/-- And the offset of a gate. -/
theorem shownOffset_eq (d : InterruptDescriptor) :
    d.offsetHigh.setWidth 32 <<< 16 ||| d.offsetLow.setWidth 32 =
      (Gate.decode d.bits).offset := by
  rw [decode_gateBits]
  refine BitVec.eq_of_getLsbD_eq fun i hi ↦ ?_
  simp only [BitVec.getLsbD_append, BitVec.getLsbD_or, BitVec.getLsbD_shiftLeft,
    BitVec.getLsbD_setWidth]
  grind

/-- The two words that are printed are the descriptor. -/
theorem shownWords_eq (d : BitVec 64) :
    (d.extractLsb' 32 32 ++ d.extractLsb' 0 32 : BitVec (32 + 32)) = d := by
  refine BitVec.eq_of_getLsbD_eq fun i hi ↦ ?_
  simp only [BitVec.getLsbD_append, BitVec.getLsbD_extractLsb']
  grind

/-- **Both tables are printed as the processor reads them**, and completely, with nothing behind
their ends, exactly if the limit is a whole number of descriptors or one less. -/
theorem printTables_show (segments : ℕ → SegmentDescriptor) (gates : ℕ → InterruptDescriptor)
    (gdtrValue idtrValue : TableRegister) :
    ∃ segmentRows gateRows, (printGlobalDescTable segments gdtrValue).Returns segmentRows ∧
      (printInterruptDescTable gates idtrValue).Returns gateRows ∧
      (∀ row ∈ segmentRows,
        (row.dwordH ++ row.dwordL : BitVec (32 + 32)) = (segments row.number).bits ∧
          row.first = (Segment.decode (segments row.number).bits).base ∧
          row.second = (Segment.decode (segments row.number).bits).limit.setWidth 32) ∧
      (∀ row ∈ gateRows,
        (row.dwordH ++ row.dwordL : BitVec (32 + 32)) = (gates row.number).bits ∧
          row.first = (Gate.decode (gates row.number).bits).selector ∧
          row.second = (Gate.decode (gates row.number).bits).offset) ∧
      ((∀ i, i ∈ segmentRows.map ShownDescriptor.number ↔
          (Table.fetch ⟨fun j ↦ (segments j).bits, gdtrValue.tableLimit⟩ i).isSome = true) ↔
        gdtrValue.tableLimit.toNat % 8 = 0 ∨ gdtrValue.tableLimit.toNat % 8 = 7) ∧
      ((∀ i, i ∈ gateRows.map ShownDescriptor.number ↔
          (Table.fetch ⟨fun j ↦ (gates j).bits, idtrValue.tableLimit⟩ i).isSome = true) ↔
        idtrValue.tableLimit.toNat % 8 = 0 ∨ idtrValue.tableLimit.toNat % 8 = 7) := by
  refine ⟨_, _, printTable_returns _ _, printTable_returns _ _, ?_, ?_, ?_, ?_⟩
  · intro row hrow
    obtain ⟨i, -, rfl⟩ := List.mem_map.1 hrow
    exact ⟨shownWords_eq _, shownBase_eq _, shownLimit_eq _⟩
  · intro row hrow
    obtain ⟨i, -, rfl⟩ := List.mem_map.1 hrow
    exact ⟨shownWords_eq _, by rw [decode_gateBits], shownOffset_eq _⟩
  · rw [← shownRows_iff fun j ↦ (segments j).bits, List.map_map]
    simp only [Function.comp_def, List.map_id', List.mem_range]
  · rw [← shownRows_iff fun j ↦ (gates j).bits, List.map_map]
    simp only [Function.comp_def, List.map_id', List.mem_range]

end Ganoid
