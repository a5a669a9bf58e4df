import Ganoid.Arch.Vectors
import Ganoid.Library.Updates

/-!
# Interrupt dispatch

The tables that a hardware interrupt goes through: the vector bases of the two interrupt
controllers (`arch/i386/kernel/apic.c`), the interrupt descriptor table (`idt.c`), the number that
each stub pushes (`vectors.S`) and the handlers (`isr.c`).

There are stubs for the vectors up to 38, which `init_Interrupt_Descriptor_Table` enters one by one.
It gives all the other vectors the stub of vector 20. The controllers have sixteen lines, at the
vectors 32 to 47, and `isr_handler` and the handler table provide for all of them, but the lines
from 7 up reach `isr_handler` as number 20 and are neither handled nor acknowledged
(`dispatchesLine_iff`).
-/

open Fuelled Updates

namespace Ganoid

/-! ### The interrupt descriptor table -/

/-- `struct interrupt_descriptor`. -/
structure InterruptDescriptor where
  offsetLow : U16
  segmentSelector : U16
  zeroArea : U8
  flags : U8
  offsetHigh : U16
  deriving DecidableEq

/-- Where the processor goes through a gate, unless it is marked as not present. -/
def InterruptDescriptor.target (d : InterruptDescriptor) : Option U32 :=
  if d.flags.getLsbD 7 then some (d.offsetHigh ++ d.offsetLow : BitVec (16 + 16)) else none

/-- `DESC_SVC`. -/
def descSvc : U32 := 0

/-- `INT_DESC_GATESIZE32BIT`. -/
def intDescGatesize32bit : U32 := 1 <<< 3

/-- The descriptor that `add_idt_entry` writes. -/
def idtEntry (segmentSelector : U16) (segmentOffset descriptorPrivLevel gateSize : U32) :
    InterruptDescriptor where
  offsetLow := (segmentOffset &&& 0x0000FFFF).setWidth 16
  segmentSelector := segmentSelector
  zeroArea := 0
  flags := ((0x80 : U32) ||| descriptorPrivLevel <<< 5 ||| gateSize ||| 0x07).setWidth 8
  offsetHigh := ((segmentOffset &&& 0xFFFF0000) >>> 16).setWidth 16

/-- `add_idt_entry`. -/
def addIdtEntry (idt : ℕ → InterruptDescriptor) (idtIndex : ℕ) (segmentSelector : U16)
    (segmentOffset descriptorPrivLevel gateSize : U32) : ℕ → InterruptDescriptor :=
  Function.update idt idtIndex
    (idtEntry segmentSelector segmentOffset descriptorPrivLevel gateSize)

/-- The addresses of the stubs `ISR0` to `ISR38`. -/
structure StubLayout where
  addr : Fin 39 → U32
  injective : Function.Injective addr

/-- The stub at an address. -/
def StubLayout.stubAt (layout : StubLayout) (p : U32) : Option (Fin 39) :=
  (List.finRange 39).find? fun stub ↦ layout.addr stub = p

/-- `init_Interrupt_Descriptor_Table`: the table is cleared, the entries 0 to 38 get the stubs of
their own numbers, and the remaining ones `ISR20`. -/
def initInterruptDescriptorTable (layout : StubLayout) : ℕ → InterruptDescriptor :=
  let idt := fun _ ↦ ⟨0, 0, 0, 0, 0⟩
  let idt := (List.finRange 39).foldl (fun idt (i : Fin 39) ↦
    addIdtEntry idt i 0x08 (layout.addr i) descSvc intDescGatesize32bit) idt
  (List.range' 39 217).foldl (fun idt i ↦
    addIdtEntry idt i 0x08 (layout.addr 20) descSvc intDescGatesize32bit) idt

/-! ### The interrupt controllers -/

/-- What the next byte on the data port of an 8259 means. -/
inductive PicPhase
  | icw2
  | icw3
  | icw4
  | mask
  deriving DecidableEq

/-- An 8259 interrupt controller, with the number of interrupts that were acknowledged. -/
structure Pic where
  phase : PicPhase
  icw1 : U8
  base : U8
  cascade : U8
  mask : U8
  acknowledged : ℕ

namespace Pic

/-- A byte on the command port. -/
def command (pic : Pic) (v : U8) : Pic :=
  if v.getLsbD 4 then { pic with phase := .icw2, icw1 := v, mask := 0 }
  else if v = 0x20 then { pic with acknowledged := pic.acknowledged + 1 }
  else pic

/-- The phase after the third initialization byte, or after the second where there is no third. -/
def lastPhase (icw1 : U8) : PicPhase :=
  if icw1.getLsbD 0 then .icw4 else .mask

/-- A byte on the data port. -/
def data (pic : Pic) (v : U8) : Pic :=
  match pic.phase with
  | .icw2 => { pic with
      base := v &&& 0xF8
      phase := if pic.icw1.getLsbD 1 then lastPhase pic.icw1 else .icw3 }
  | .icw3 => { pic with cascade := v, phase := lastPhase pic.icw1 }
  | .icw4 => { pic with phase := .mask }
  | .mask => { pic with mask := v }

/-- The vector of one of the eight lines, if the controller is initialized and passes it on. -/
def vector (pic : Pic) (line : ℕ) : Option ℕ :=
  if pic.phase = .mask ∧ pic.mask.getLsbD line = false then
    some (pic.base ||| BitVec.ofNat 8 line).toNat
  else none

end Pic

/-- The master, with the ports 0x20 and 0x21, and the slave, with the ports 0xA0 and 0xA1. -/
structure Pics where
  master : Pic
  slave : Pic

namespace Pics

/-- `outb`. -/
def outb (pics : Pics) (port : U16) (value : U8) : Pics :=
  if port = 0x20 then { pics with master := pics.master.command value }
  else if port = 0x21 then { pics with master := pics.master.data value }
  else if port = 0xA0 then { pics with slave := pics.slave.command value }
  else if port = 0xA1 then { pics with slave := pics.slave.data value }
  else pics

/-- The vector of one of the sixteen lines. Those of the slave go through the line of the master
that both take for the cascade. -/
def vector (pics : Pics) (line : ℕ) : Option ℕ :=
  if line < 8 then pics.master.vector line
  else if pics.master.cascade.getLsbD pics.slave.cascade.toNat ∧
      pics.master.mask.getLsbD pics.slave.cascade.toNat = false then
    pics.slave.vector (line - 8)
  else none

end Pics

/-- `init_APIC`, without the delays. -/
def initApic (pics : Pics) : Pics :=
  let pics := pics.outb 0x20 0x11
  let pics := pics.outb 0xA0 0x11
  let pics := pics.outb 0x21 0x20
  let pics := pics.outb 0xA1 0x28
  let pics := pics.outb 0x21 0x04
  let pics := pics.outb 0xA1 0x02
  let pics := pics.outb 0x21 0x01
  let pics := pics.outb 0xA1 0x01
  let pics := pics.outb 0x21 0x00
  pics.outb 0xA1 0x00

/-! ### The handlers -/

/-- `MAX_ISR_NUMBER`. -/
def maxIsrNumber : ℕ := 32 + 16

/-- The descriptor table, the controllers and the static variables of `isr.c`. -/
structure Interrupts (Handler : Type) where
  idt : ℕ → InterruptDescriptor
  pics : Pics
  isrHandlers : ℕ → Option Handler
  isrDispatcherInitialized : Bool

variable {Handler : Type}

namespace Interrupts

/-- `init_isr_dispatcher`. -/
def initIsrDispatcher (k : Interrupts Handler) : Interrupts Handler :=
  { k with
    isrHandlers := (List.range maxIsrNumber).foldl (fun handlers i ↦
      Function.update handlers i none) k.isrHandlers
    isrDispatcherInitialized := true }

/-- `add_isr_handler`, where the assertions stop the kernel. -/
def addIsrHandler (irqNo : ℕ) (isr : Option Handler) (k : Interrupts Handler) :
    Fuelled (Interrupts Handler) :=
  if !k.isrDispatcherInitialized then never
  else if isr.isNone then never
  else pure { k with isrHandlers := Function.update k.isrHandlers irqNo isr }

/-- `isr_handler`: the handler that is run, and the state in which it is. -/
def isrHandler (isrRegisters : IsrRegisters) (k : Interrupts Handler) :
    Option Handler × Interrupts Handler :=
  let pics :=
    if 32 ≤ isrRegisters.intNo ∧ isrRegisters.intNo ≤ 47 then
      -- one from the slave is acknowledged there as well
      let pics := if 40 ≤ isrRegisters.intNo then k.pics.outb 0xA0 0x20 else k.pics
      pics.outb 0x20 0x20
    else k.pics
  (k.isrHandlers isrRegisters.intNo.toNat, { k with pics })

/-- An interrupt on a line of the controllers, up to the call of the handler. -/
def irq (layout : StubLayout) (line : ℕ) (s : Machine) (returnAddr : U32)
    (k : Interrupts Handler) : Option (Option Handler × Interrupts Handler) := do
  let vector ← k.pics.vector line
  let target ← (k.idt vector).target
  let stub ← layout.stubAt target
  pure (k.isrHandler ((s.enterStub vector 0 stub).isrArgument returnAddr))

/-- The order in which the kernel comes up: `init_isr_dispatcher`,
`init_Interrupt_Descriptor_Table` and `init_APIC`, and then the registrations. -/
def start (layout : StubLayout) (registrations : List (Fin 48 × Handler))
    (k : Interrupts Handler) : Fuelled (Interrupts Handler) :=
  let k := k.initIsrDispatcher
  let k := { k with idt := initInterruptDescriptorTable layout }
  let k := { k with pics := initApic k.pics }
  registrations.foldlM (fun k r ↦ k.addIsrHandler r.1 (some r.2)) k

end Interrupts

/-- The handler registered most recently for a vector. -/
def lastRegistered (registrations : List (Fin 48 × Handler)) (vector : ℕ) : Option Handler :=
  lastWrite (registrations.map fun r ↦ ((r.1 : ℕ), r.2)) vector

/-- An interrupt on a line runs the handler registered most recently for it, and is acknowledged
once at the master and, if it comes from there, once at the slave. -/
def DispatchesLine (layout : StubLayout) (registrations : List (Fin 48 × Handler)) (line : ℕ)
    (s : Machine) (returnAddr : U32) (k : Interrupts Handler) : Prop :=
  ∃ ran k', k.irq layout line s returnAddr = some (ran, k') ∧
    ran = lastRegistered registrations (32 + line) ∧
    k'.pics.master.acknowledged = k.pics.master.acknowledged + 1 ∧
    k'.pics.slave.acknowledged = k.pics.slave.acknowledged + if 8 ≤ line then 1 else 0

/-! ### Through the tables -/

/-- The bytes of an address come back together. -/
theorem target_idtEntry (segmentSelector : U16) (segmentOffset : U32) :
    (idtEntry segmentSelector segmentOffset descSvc intDescGatesize32bit).target =
      some segmentOffset := by
  have hpresent : (((0x80 : U32) ||| descSvc <<< 5 ||| intDescGatesize32bit |||
      0x07).setWidth 8).getLsbD 7 = true := by decide
  have hlow : ∀ i : Fin 32, (0x0000FFFF : U32).getLsbD i = decide ((i : ℕ) < 16) := by decide
  have hhigh : ∀ i : Fin 32, (0xFFFF0000 : U32).getLsbD i = decide (16 ≤ (i : ℕ)) := by decide
  rw [InterruptDescriptor.target, idtEntry, if_pos hpresent, Option.some_inj]
  refine BitVec.eq_of_getLsbD_eq fun i hi ↦ BitVec.getLsbD_append.trans ?_
  by_cases hhalf : i < 16
  · rw [if_pos hhalf, BitVec.getLsbD_setWidth, BitVec.getLsbD_and, hlow ⟨i, hi⟩]
    simp [hhalf]
  · have hback : 16 + (i - 16) = i := by omega
    have hrange : i - 16 < 16 := by omega
    rw [if_neg hhalf, BitVec.getLsbD_setWidth, BitVec.getLsbD_ushiftRight, hback,
      BitVec.getLsbD_and, hhigh ⟨i, hi⟩]
    simp [hrange, Nat.le_of_not_lt hhalf]

/-- The stub that the table has for a vector. -/
def stubOf (vector : ℕ) : Fin 39 :=
  if h : vector < 39 then ⟨vector, h⟩ else 20

/-- The writes of the initialization, in their order. -/
def idtWrites (layout : StubLayout) : List (ℕ × InterruptDescriptor) :=
  (List.finRange 39).map (fun i : Fin 39 ↦
    ((i : ℕ), idtEntry 0x08 (layout.addr i) descSvc intDescGatesize32bit)) ++
  (List.range' 39 217).map fun i ↦
    (i, idtEntry 0x08 (layout.addr 20) descSvc intDescGatesize32bit)

theorem initInterruptDescriptorTable_eq (layout : StubLayout) :
    initInterruptDescriptorTable layout =
      (idtWrites layout).foldl (fun idt w ↦ Function.update idt w.1 w.2)
        fun _ ↦ ⟨0, 0, 0, 0, 0⟩ := by
  rw [idtWrites, List.foldl_append, List.foldl_map, List.foldl_map, initInterruptDescriptorTable]
  simp only [addIdtEntry]

/-- **The descriptor table** leads each vector up to 38 to its own stub, and the others to
`ISR20`. -/
theorem initInterruptDescriptorTable_apply (layout : StubLayout) {vector : ℕ}
    (hvector : vector < 256) : initInterruptDescriptorTable layout vector =
      idtEntry 0x08 (layout.addr (stubOf vector)) descSvc intDescGatesize32bit := by
  have hagree : ∀ w ∈ idtWrites layout, w.1 = vector →
      w.2 = idtEntry 0x08 (layout.addr (stubOf vector)) descSvc intDescGatesize32bit := by
    rintro w hw rfl
    rcases List.mem_append.1 hw with hown | hrest
    · obtain ⟨i, -, rfl⟩ := List.mem_map.1 hown
      have hstub : stubOf i = i := dif_pos i.2
      rw [hstub]
    · obtain ⟨i, hi, rfl⟩ := List.mem_map.1 hrest
      have hstub : stubOf i = 20 := dif_neg (Nat.not_lt.2 (List.mem_range'_1.1 hi).1)
      rw [hstub]
  have hmem : (vector, idtEntry 0x08 (layout.addr (stubOf vector)) descSvc
      intDescGatesize32bit) ∈ idtWrites layout := by
    by_cases hown : vector < 39
    · have hstub : stubOf vector = ⟨vector, hown⟩ := dif_pos hown
      rw [hstub]
      exact List.mem_append_left _ (List.mem_map.2 ⟨⟨vector, hown⟩, List.mem_finRange _, rfl⟩)
    · have hstub : stubOf vector = 20 := dif_neg hown
      rw [hstub]
      exact List.mem_append_right _
        (List.mem_map.2 ⟨vector, List.mem_range'_1.2 ⟨Nat.not_lt.1 hown, hvector⟩, rfl⟩)
  rw [initInterruptDescriptorTable_eq, foldl_update_apply, lastWrite_eq_some hmem hagree]
  rfl

/-- The processor finds the stub again that an entry was made for. -/
theorem stubAt_addr (layout : StubLayout) (stub : Fin 39) :
    layout.stubAt (layout.addr stub) = some stub := by
  rcases hfind : layout.stubAt (layout.addr stub) with - | found
  · have hnone := List.find?_eq_none.1 hfind stub (List.mem_finRange stub)
    simp at hnone
  · have hfound : layout.addr found = layout.addr stub := by
      simpa using List.find?_some hfind
    rw [layout.injective hfound]

/-- The controllers after `init_APIC`: no line is masked, and the vectors start at 32. -/
theorem initApic_eq (pics : Pics) : initApic pics =
    { master := ⟨.mask, 0x11, 0x20, 0x04, 0x00, pics.master.acknowledged⟩
      slave := ⟨.mask, 0x11, 0x28, 0x02, 0x00, pics.slave.acknowledged⟩ } := by
  simp [initApic, Pics.outb, Pic.command, Pic.data, Pic.lastPhase]

/-- A controller with no line masked passes on all of them. -/
theorem Pic.vector_unmasked (pic : Pic) (line : ℕ) (hphase : pic.phase = .mask)
    (hmask : pic.mask = 0) :
    pic.vector line = some (pic.base ||| BitVec.ofNat 8 line).toNat := by
  have hpasses : pic.mask.getLsbD line = false := by
    rw [hmask]
    exact BitVec.getLsbD_zero
  rw [Pic.vector, if_pos ⟨hphase, hpasses⟩]

/-- **The lines** are at the vectors from 32. -/
theorem vector_initApic (pics : Pics) {line : ℕ} (hline : line < 16) :
    (initApic pics).vector line = some (32 + line) := by
  have hmaster : ∀ line : Fin 8, (0x20 ||| BitVec.ofNat 8 line : U8).toNat = 32 + line := by decide
  have hslave : ∀ line : Fin 8, (0x28 ||| BitVec.ofNat 8 line : U8).toNat = 40 + line := by decide
  rw [initApic_eq, Pics.vector]
  by_cases hlow : line < 8
  · rw [if_pos hlow, Pic.vector_unmasked _ _ rfl rfl]
    exact congrArg some (hmaster ⟨line, hlow⟩)
  · have hcascade : (0x04 : U8).getLsbD (0x02 : U8).toNat ∧
        (0x00 : U8).getLsbD (0x02 : U8).toNat = false := by decide
    have hhigh : line - 8 < 8 := by omega
    rw [if_neg hlow, if_pos hcascade, Pic.vector_unmasked _ _ rfl rfl]
    refine congrArg some ((hslave ⟨line - 8, hhigh⟩).trans ?_)
    show 40 + (line - 8) = 32 + line
    omega

/-- `init_isr_dispatcher` empties the handler table. -/
theorem isrHandlers_initIsrDispatcher (k : Interrupts Handler) {vector : ℕ}
    (hvector : vector < maxIsrNumber) : k.initIsrDispatcher.isrHandlers vector = none := by
  have hwrites : k.initIsrDispatcher.isrHandlers =
      ((List.range maxIsrNumber).map fun i ↦ (i, (none : Option Handler))).foldl
        (fun handlers w ↦ Function.update handlers w.1 w.2) k.isrHandlers := by
    rw [List.foldl_map]
    rfl
  have hmem : (vector, (none : Option Handler)) ∈ (List.range maxIsrNumber).map fun i ↦ (i, none) :=
    List.mem_map.2 ⟨vector, List.mem_range.2 hvector, rfl⟩
  have hnone : ∀ w ∈ (List.range maxIsrNumber).map fun i ↦ (i, (none : Option Handler)),
      w.1 = vector → w.2 = none := by
    rintro w hw -
    obtain ⟨i, -, rfl⟩ := List.mem_map.1 hw
    rfl
  rw [hwrites, foldl_update_apply, lastWrite_eq_some hmem hnone]
  rfl

/-- A handler can be registered once the dispatcher is initialized. -/
theorem addIsrHandler_returns {k : Interrupts Handler} (h : k.isrDispatcherInitialized = true)
    (irqNo : ℕ) (isr : Handler) : (k.addIsrHandler irqNo (some isr)).Returns
      { k with isrHandlers := Function.update k.isrHandlers irqNo (some isr) } := by
  rw [Interrupts.addIsrHandler, h]
  exact returns_pure _

/-- **The kernel comes up** with the tables initialized and the handlers registered. -/
theorem start_returns (layout : StubLayout) (registrations : List (Fin 48 × Handler))
    (k : Interrupts Handler) : ∃ k', (Interrupts.start layout registrations k).Returns k' ∧
      k'.idt = initInterruptDescriptorTable layout ∧ k'.pics = initApic k.pics ∧
      ∀ v < maxIsrNumber, k'.isrHandlers v = lastRegistered registrations v := by
  have hloop := exists_returns_foldlM
    (f := fun (k : Interrupts Handler) (r : Fin 48 × Handler) ↦ k.addIsrHandler r.1 (some r.2))
    (fun done k' ↦ k'.isrDispatcherInitialized = true ∧
      k'.idt = initInterruptDescriptorTable layout ∧ k'.pics = initApic k.pics ∧
      ∀ v < maxIsrNumber, k'.isrHandlers v = lastRegistered done v)
    registrations ?_
    (b := { k.initIsrDispatcher with
      idt := initInterruptDescriptorTable layout, pics := initApic k.pics })
    ⟨rfl, rfl, rfl, fun v hv ↦ isrHandlers_initIsrDispatcher k hv⟩
  · obtain ⟨k', hreturns, -, htables⟩ := hloop
    exact ⟨k', hreturns, htables⟩
  · rintro done ⟨vector, handler⟩ rest k₁ - ⟨hinit, hidt, hpics, hhandlers⟩
    refine ⟨_, addIsrHandler_returns hinit vector handler, hinit, hidt, hpics, fun v hv ↦ ?_⟩
    rw [lastRegistered, List.map_append, List.map_singleton, lastWrite_concat]
    rcases eq_or_ne v vector with rfl | hne
    · simp
    · rw [if_neg hne.symm]
      exact (Function.update_of_ne hne _ _).trans (hhandlers v hv)

/-! ### Lines -/

/-- `isr_handler` acknowledges an interrupt of a line as it should, and runs its handler. -/
theorem isrHandler_line {r : IsrRegisters} {line : ℕ} (hline : line < 16)
    (hr : r.intNo = BitVec.ofNat 32 (32 + line)) (k : Interrupts Handler) :
    (k.isrHandler r).1 = k.isrHandlers (32 + line) ∧
      (k.isrHandler r).2.pics.master.acknowledged = k.pics.master.acknowledged + 1 ∧
      (k.isrHandler r).2.pics.slave.acknowledged =
        k.pics.slave.acknowledged + if 8 ≤ line then 1 else 0 := by
  have hnat : r.intNo.toNat = 32 + line := by
    rw [hr, BitVec.toNat_ofNat]
    omega
  have hapic : 32 ≤ r.intNo ∧ r.intNo ≤ 47 := by
    rw [BitVec.le_def, BitVec.le_def, hnat]
    exact ⟨Nat.le_add_right 32 line, show 32 + line ≤ 47 by omega⟩
  have hslave : 40 ≤ r.intNo ↔ 8 ≤ line := by
    rw [BitVec.le_def, hnat]
    show 40 ≤ 32 + line ↔ 8 ≤ line
    omega
  rw [Interrupts.isrHandler, if_pos hapic, hnat]
  by_cases hhigh : 8 ≤ line
  · rw [if_pos (hslave.2 hhigh), if_pos hhigh]
    exact ⟨rfl, rfl, rfl⟩
  · rw [if_neg (mt hslave.1 hhigh), if_neg hhigh]
    exact ⟨rfl, rfl, rfl⟩

/-- Nothing is acknowledged for the number of an exception. -/
theorem isrHandler_exception {r : IsrRegisters} (hr : r.intNo < 32) (k : Interrupts Handler) :
    (k.isrHandler r).2.pics = k.pics := by
  have hapic : ¬ (32 ≤ r.intNo ∧ r.intNo ≤ 47) := fun h ↦ BitVec.not_lt.2 h.1 hr
  rw [Interrupts.isrHandler, if_neg hapic]

/-- **The number that `isr_handler` is called with** for a line is that of the stub in the table. -/
theorem irq_eq {layout : StubLayout} {k : Interrupts Handler} {pics : Pics}
    (hidt : k.idt = initInterruptDescriptorTable layout) (hpics : k.pics = initApic pics)
    {line : ℕ} (hline : line < 16) (s : Machine) (returnAddr : U32) :
    ∃ r : IsrRegisters, r.intNo = BitVec.ofNat 32 (stubOf (32 + line)) ∧
      k.irq layout line s returnAddr = some (k.isrHandler r) := by
  -- the exceptions with an error code are all below 32
  have hvector : Machine.hasErrorCode (32 + line) = false := by
    rw [Machine.hasErrorCode, decide_eq_false_iff_not]
    simp
    omega
  obtain ⟨w, hpushed⟩ := Machine.pushed_enterStub hvector s 0 (stubOf (32 + line))
  rw [← List.append_nil (IsrRegisters.words _)] at hpushed
  refine ⟨s.savedRegisters (stubOf (32 + line)) w s.eip (s.cs.setWidth 32) s.eflags, rfl, ?_⟩
  rw [← Machine.isrArgument_eq hpushed (Nat.zero_le 1) returnAddr, Interrupts.irq, hpics,
    vector_initApic pics hline, Option.bind_eq_bind, Option.bind_some, hidt,
    initInterruptDescriptorTable_apply layout (by omega), target_idtEntry, Option.bind_eq_bind,
    Option.bind_some, stubAt_addr]
  rfl

/-- A line with a stub of its own is dispatched as it should be. -/
theorem dispatchesLine_of_le {layout : StubLayout} {registrations : List (Fin 48 × Handler)}
    {k : Interrupts Handler} {pics : Pics} (hidt : k.idt = initInterruptDescriptorTable layout)
    (hpics : k.pics = initApic pics)
    (hhandlers : ∀ v < maxIsrNumber, k.isrHandlers v = lastRegistered registrations v)
    {line : ℕ} (hline : line ≤ 6) (s : Machine) (returnAddr : U32) :
    DispatchesLine layout registrations line s returnAddr k := by
  have hlt : line < 16 := by omega
  obtain ⟨r, hr, hirq⟩ := irq_eq hidt hpics hlt s returnAddr
  have hown : 32 + line < 39 := by omega
  rw [stubOf, dif_pos hown] at hr
  obtain ⟨hran, hacknowledged⟩ := isrHandler_line hlt hr k
  have hlast := hhandlers (32 + line) (show 32 + line < 48 by omega)
  exact ⟨_, _, hirq, hran.trans hlast, hacknowledged⟩

/-- A line without a stub of its own is not acknowledged. -/
theorem not_dispatchesLine_of_lt {layout : StubLayout}
    {registrations : List (Fin 48 × Handler)} {k : Interrupts Handler} {pics : Pics}
    (hidt : k.idt = initInterruptDescriptorTable layout) (hpics : k.pics = initApic pics)
    {line : ℕ} (hline : 6 < line) (hlt : line < 16) (s : Machine) (returnAddr : U32) :
    ¬ DispatchesLine layout registrations line s returnAddr k := by
  rintro ⟨ran, k', hk', -, hmaster, -⟩
  obtain ⟨r, hr, hirq⟩ := irq_eq hidt hpics hlt s returnAddr
  have hrest : ¬ 32 + line < 39 := by omega
  rw [stubOf, dif_neg hrest] at hr
  have hexception : r.intNo < 32 := by
    rw [hr]
    decide
  have hsame := isrHandler_exception hexception k
  rw [hirq, Option.some_inj] at hk'
  rw [hk'] at hsame
  rw [hsame] at hmaster
  omega

/-- **The lines up to 6 are dispatched** to the handlers registered for them, and acknowledged; the
others are not. -/
theorem dispatchesLine_iff (layout : StubLayout) (registrations : List (Fin 48 × Handler))
    (k : Interrupts Handler) (line : Fin 16) (s : Machine) (returnAddr : U32) :
    ∃ k', (Interrupts.start layout registrations k).Returns k' ∧
      (DispatchesLine layout registrations line s returnAddr k' ↔ (line : ℕ) ≤ 6) := by
  obtain ⟨k', hreturns, hidt, hpics, hhandlers⟩ := start_returns layout registrations k
  refine ⟨k', hreturns, fun h ↦ ?_, fun hline ↦ ?_⟩
  · by_contra hline
    exact not_dispatchesLine_of_lt hidt hpics (Nat.not_le.1 hline) line.2 s returnAddr h
  · exact dispatchesLine_of_le hidt hpics hhandlers hline s returnAddr

/-- Stubs of sixteen bytes each. -/
def alignedStubs : StubLayout where
  addr stub := BitVec.ofNat 32 (16 * stub)
  injective i j h := by
    have hnat := congrArg BitVec.toNat h
    simp only [BitVec.toNat_ofNat] at hnat
    omega

/-- A line of the slave is not dispatched, though a handler is registered for it. -/
theorem not_dispatchesLine_fourteen :
    ¬ ∀ (layout : StubLayout) (registrations : List (Fin 48 × Unit)) (k k' : Interrupts Unit)
      (line : Fin 16) (s : Machine) (returnAddr : U32),
      (Interrupts.start layout registrations k).Returns k' →
      DispatchesLine layout registrations line s returnAddr k' := by
  intro h
  let pic : Pic := ⟨.mask, 0, 0, 0, 0, 0⟩
  obtain ⟨k', hreturns, hidt, hpics, -⟩ := start_returns alignedStubs [(46, ())]
    ⟨fun _ ↦ ⟨0, 0, 0, 0, 0⟩, ⟨pic, pic⟩, fun _ ↦ none, false⟩
  exact not_dispatchesLine_of_lt hidt hpics (by decide) (by decide) .midway 0
    (h alignedStubs [(46, ())] _ k' 14 .midway 0 hreturns)

end Ganoid
