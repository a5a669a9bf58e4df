import Ganoid.Arch.Descriptors
import Ganoid.Arch.KeyBuffer
import Ganoid.Arch.Switch

/-!
# Nested interrupts

The kernel after `kernel_main`, with any number of threads and all sixteen lines. The gates are trap
gates, so the processor goes to a stub with interrupts still on, and the first instruction of the
stub is the `cli`. Before it, another interrupt can be delivered on top of the first, to any depth,
and the timer among them resumes another task while stubs of this one have yet to begin.

A delivery and the stub that it leads to are therefore two steps here. The invariant on the contexts
is that the deliveries of every task wait on its stack (`Waiting`), below the frame if the task is
suspended: the context that the outer one interrupted is at the stack pointer of the inner one's.
What the kernel has done is recorded in lists that none of its functions reads.
-/

open Fuelled I386 Updates

namespace Ganoid

variable {Task : Type} [DecidableEq Task]

/-! ### The kernel -/

/-- The handlers that `kernel_main` registers. -/
inductive KernelHandler
  | kbdIsr
  | timerIsr
  deriving DecidableEq

/-- The registrations, in their order: those of `KBD_INTERRUPT` and of `TIMER_INTERRUPT`. -/
def registrations : List (Fin 48 × KernelHandler) :=
  [(0x21, .kbdIsr), (0x20, .timerIsr)]

/-- An interrupt whose stub has yet to begin, and the context that it has interrupted. -/
structure Delivery where
  vector : ℕ
  context : Regs

/-- The machine and the static variables, and what has happened: the deliveries of each task that
wait for their stubs, the innermost first; the context in which each task was interrupted last; the
vectors delivered and the numbers that `isr_handler` was called with; and the events of the key
buffer. -/
structure Running (Task : Type) where
  machine : Machine
  sched : Sched Task
  interrupts : Interrupts KernelHandler
  kbd : Kbd
  entered : Task → List Delivery
  latest : Task → Option Regs
  delivered : List ℕ
  handled : List ℕ
  keys : List KeyBufferEvent

/-- What the processor does to deliver an interrupt of a line, with the entry that the tables lead
to. -/
def Machine.enterGate (s : Machine) (vector : ℕ) (e : I386.Entry) : Machine :=
  let s := s.deliver vector 0
  let s := if e.turnsInterruptsOff then s.cli else s
  { s with eip := e.address, cs := e.selector }

/-- A stub, and `isr_common_stub` up to the call of `isr_handler`. -/
def Machine.beginStub (s : Machine) (stub : ℕ) : Machine :=
  (s.isr stub).isrCommonSave

/-- The table that the processor sees. -/
def gatesOf (idt : ℕ → InterruptDescriptor) : Table where
  entry i := (idt i).bits
  limit := BitVec.ofNat 16 (8 * 256 - 1)

/-- `isr_handler` with the handler that it runs. `kbd_isr` finds the byte `b`, and `timer_isr`
requests a reschedule. -/
def Running.serve (s : Running Task) (isrRegisters : IsrRegisters) (b : U8) : Running Task :=
  let (ran, interrupts) := s.interrupts.isrHandler isrRegisters
  let handled := s.handled ++ [isrRegisters.intNo.toNat]
  match ran with
  | none => { s with interrupts, handled }
  | some .kbdIsr =>
    { s with interrupts, handled, kbd := kbdIsr s.kbd b, keys := s.keys ++ [.isr b] }
  | some .timerIsr =>
    { s with interrupts, handled, sched := { s.sched with scheduleRequest := 0x10 } }

inductive RunningEvent
  | run
  | deliver (line : Fin 16)
  | stub (b : U8)

/-- One step: the current task runs for a while, in which it may take bytes from the key buffer; or,
where its interrupt flag is set, an interrupt is delivered on its stack; or the stub of the delivery
that came last runs, with the functions that it calls. -/
inductive RunningStep (layout : StubLayout) (gdt : ℕ → SegmentDescriptor) (areas : Stacks Task) :
    Running Task → RunningEvent → Running Task → Prop
  | run {s : Running Task} {t : Task} {machine : Machine} {kbd : Kbd}
      {events : List KeyBufferEvent} (hcur : s.sched.currentTask = some t)
      (hentered : s.entered t = [])
      (hmem : ∀ t' ≠ t, ∀ q, Mem.InRegion (areas.base t') (areas.size t') q →
        machine.mem q = s.machine.mem q)
      (hevents : ∀ b, .isr b ∉ events)
      (hkbd : (events.foldlM KeyBufferEvent.next s.kbd).Returns kbd) :
      RunningStep layout gdt areas s .run { s with machine, kbd, keys := s.keys ++ events }
  | deliver {s : Running Task} {t : Task} {line : Fin 16} {vector : ℕ} {e : I386.Entry}
      (hcur : s.sched.currentTask = some t)
      (hflag : s.machine.eflags &&& Machine.interruptFlag ≠ 0)
      (hvector : s.interrupts.pics.vector line = some vector)
      (henter : enter (segmentTable gdt) (gatesOf s.interrupts.idt) vector = some e)
      (hroom : Room areas t s.machine.esp) :
      RunningStep layout gdt areas s (.deliver line) { s with
        machine := s.machine.enterGate vector e
        entered := Function.update s.entered t (⟨vector, s.machine.toRegs⟩ :: s.entered t)
        delivered := s.delivered ++ [vector] }
  | stub {s : Running Task} {t : Task} {d : Delivery} {ds : List Delivery} {stub : Fin 39} {b : U8}
      {returnAddr returnAddr' : U32} {s₁ machine : Machine} {sched : Sched Task}
      (hcur : s.sched.currentTask = some t) (hentered : s.entered t = d :: ds)
      (hstub : layout.stubAt s.machine.eip = some stub)
      (hhandler : ((s.machine.beginStub stub).push returnAddr).Returned
        (Kept areas t (s.machine.beginStub stub).esp) s₁)
      (hcommon : CommonStub (Kept areas t (s.machine.beginStub stub).esp) returnAddr' s₁
        (s.serve ((s.machine.beginStub stub).isrArgument returnAddr) b).sched machine sched) :
      RunningStep layout gdt areas s (.stub b)
        { s.serve ((s.machine.beginStub stub).isrArgument returnAddr) b with
          machine, sched
          entered := Function.update s.entered t ds
          latest := Function.update s.latest t (some d.context) }

/-- A task that a stub resumes has the context in which it was interrupted last, or enters its
function. -/
def RunningEvent.Resumes (hello : U32) (entry : Task → Entry) (s : Running Task) :
    RunningEvent → Prop
  | .run => True
  | .deliver _ => True
  | .stub _ => Resumed hello entry .timer ⟨s.machine, s.sched, s.latest⟩

/-! ### The tables -/

/-- The tables as the kernel has set them up, with any numbers of acknowledgements. -/
structure TablesUp (layout : StubLayout) (k : Interrupts KernelHandler) : Prop where
  idt : k.idt = initInterruptDescriptorTable layout
  pics : ∃ pics, k.pics = initApic pics
  handlers : ∀ v < maxIsrNumber, k.isrHandlers v = lastRegistered registrations v

theorem tablesUp_start (layout : StubLayout) (k₀ : Interrupts KernelHandler) :
    ∃ k, (Interrupts.start layout registrations k₀).Returns k ∧ TablesUp layout k ∧
      k.pics.master.acknowledged = k₀.pics.master.acknowledged ∧
      k.pics.slave.acknowledged = k₀.pics.slave.acknowledged := by
  obtain ⟨k, hret, hidt, hpics, hhandlers⟩ := start_returns layout registrations k₀
  refine ⟨k, hret, ⟨hidt, ⟨_, hpics⟩, hhandlers⟩, ?_, ?_⟩
  · rw [hpics, initApic_eq]
  · rw [hpics, initApic_eq]

namespace TablesUp

variable {layout : StubLayout} {k : Interrupts KernelHandler}

/-- A delivery goes to the stub that the table has for its line, with interrupts as they were. -/
theorem enter_eq (h : TablesUp layout k) {gdt : ℕ → SegmentDescriptor} {line : Fin 16}
    {vector : ℕ} {e : I386.Entry} (hvector : k.pics.vector line = some vector)
    (henter : enter (segmentTable gdt) (gatesOf k.idt) vector = some e) :
    vector = 32 + line ∧ e = ⟨layout.addr (stubOf vector), 0x08, false⟩ := by
  obtain ⟨pics, hpics⟩ := h.pics
  rw [hpics, vector_initApic pics line.2, Option.some_inj] at hvector
  have hgates : gatesOf k.idt = gateTable layout := by
    rw [gatesOf, h.idt]
    rfl
  rw [hgates, enter_init, if_pos (by omega), Option.some_inj] at henter
  exact ⟨hvector.symm, henter.symm⟩

/-- The lines are delivered. -/
theorem exists_enter (h : TablesUp layout k) (gdt : ℕ → SegmentDescriptor) (line : Fin 16) :
    ∃ e, k.pics.vector line = some (32 + (line : ℕ)) ∧
      enter (segmentTable gdt) (gatesOf k.idt) (32 + line) = some e := by
  obtain ⟨pics, hpics⟩ := h.pics
  have hgates : gatesOf k.idt = gateTable layout := by
    rw [gatesOf, h.idt]
    rfl
  rw [hpics, vector_initApic pics line.2, hgates, enter_init, if_pos (by omega)]
  exact ⟨_, rfl, rfl⟩

/-- `isr_handler` keeps the tables. From 32 on it acknowledges the interrupt at the master. -/
theorem isrHandler (h : TablesUp layout k) {r : IsrRegisters} {stub : Fin 39}
    (hr : r.intNo = BitVec.ofNat 32 stub) :
    TablesUp layout (k.isrHandler r).2 ∧
      (k.isrHandler r).1 = lastRegistered registrations stub ∧
      (k.isrHandler r).2.pics.master.acknowledged =
        k.pics.master.acknowledged + (if 32 ≤ (stub : ℕ) then 1 else 0) ∧
      (k.isrHandler r).2.pics.slave.acknowledged = k.pics.slave.acknowledged := by
  obtain ⟨pics, hpics⟩ := h.pics
  have hnat : r.intNo.toNat = stub := by
    rw [hr, BitVec.toNat_ofNat]
    omega
  have hran : (k.isrHandler r).1 = lastRegistered registrations stub := by
    rw [← h.handlers stub (show (stub : ℕ) < 48 by omega), ← hnat]
    rfl
  have hslave : ¬ 40 ≤ r.intNo := by
    rw [BitVec.le_def, hnat]
    exact Nat.not_le.2 (show (stub : ℕ) < 40 by omega)
  have hapic : 32 ≤ r.intNo ∧ r.intNo ≤ 47 ↔ 32 ≤ (stub : ℕ) := by
    rw [BitVec.le_def, BitVec.le_def, hnat]
    exact and_iff_left (show (stub : ℕ) ≤ 47 by omega)
  rcases Nat.lt_or_ge stub 32 with hlow | hhigh
  · have hsame : (k.isrHandler r).2 = k := by
      rw [Interrupts.isrHandler, if_neg (mt hapic.1 (Nat.not_le.2 hlow))]
    rw [hsame, if_neg (Nat.not_le.2 hlow)]
    exact ⟨h, hran, rfl, rfl⟩
  · have hacked : (k.isrHandler r).2.pics = k.pics.outb 0x20 0x20 := by
      rw [Interrupts.isrHandler, if_pos (hapic.2 hhigh), if_neg hslave]
    refine ⟨⟨h.idt, ⟨⟨⟨.mask, 0, 0, 0, 0, pics.master.acknowledged + 1⟩, pics.slave⟩, ?_⟩,
      h.handlers⟩, hran, ?_, ?_⟩
    · rw [hacked, hpics, initApic_eq, initApic_eq]
      rfl
    · rw [hacked, if_pos hhigh]
      rfl
    · rw [hacked]
      rfl

end TablesUp

/-- The exceptions with an error code are all below 32. -/
theorem hasErrorCode_line (line : Fin 16) : Machine.hasErrorCode (32 + line) = false := by
  rw [Machine.hasErrorCode, decide_eq_false_iff_not]
  simp
  omega

/-! ### Deliveries on the stack -/

/-- The part of a stack from `esp` up. -/
def Above (areas : Stacks Task) (t : Task) (esp q : U32) : Prop :=
  Mem.InRegion esp (areas.size t - (esp - areas.base t).toNat) q

omit [DecidableEq Task] in
theorem Above.mono {areas : Stacks Task} {t : Task} {p k q : U32}
    (hlo : k.toNat ≤ (p - areas.base t).toNat) (hhi : (p - areas.base t).toNat ≤ areas.size t)
    (h : Above areas t p q) : Above areas t (p - k) q := by
  have hlt := areas.size_lt t
  rw [Above, Mem.InRegion] at h ⊢
  generalize areas.base t = b at hlo hhi h ⊢
  have hoff : (p - k - b).toNat = (p - b).toNat - k.toNat := by bv_omega
  have hq : (q - (p - k)).toNat ≤ (q - p).toNat + k.toNat := by bv_omega
  omega

/-- The deliveries that `regs` has on top of the stack of `t`, the innermost first: where it is
about to begin a stub, the words that `iret` takes are those of the context interrupted, which is as
it was, and in which the other deliveries are on top of the stack. -/
def Waiting (layout : StubLayout) (areas : Stacks Task) (mem : Mem) (t : Task) :
    Regs → List Delivery → Prop
  | _, [] => True
  | regs, d :: ds =>
    regs = { d.context with
      esp := d.context.esp - 12, eip := layout.addr (stubOf d.vector), cs := 0x08 } ∧
    Mem.WordsAt mem regs.esp [d.context.eip, d.context.cs.setWidth 32, d.context.eflags] ∧
    Room areas t d.context.esp ∧ Waiting layout areas mem t d.context ds

omit [DecidableEq Task] in
/-- Only changes above the stack pointer concern the deliveries. -/
theorem Waiting.of_agree {layout : StubLayout} {areas : Stacks Task} {mem mem' : Mem} {t : Task}
    {regs : Regs} {ds : List Delivery} (h : Waiting layout areas mem t regs ds)
    (hagree : ∀ q, Above areas t regs.esp q → mem' q = mem q) :
    Waiting layout areas mem' t regs ds := by
  induction ds generalizing regs with
  | nil => trivial
  | cons d ds ih =>
    obtain ⟨hregs, hwords, hroom, hrest⟩ := h
    have hesp : regs.esp = d.context.esp - 12 := by rw [hregs]
    obtain ⟨hlo, hhi⟩ := hroom
    have hroom12 : (12 : U32).toNat ≤ (d.context.esp - areas.base t).toNat :=
      Nat.le_trans (show 12 ≤ 76 by decide) hlo
    refine ⟨hregs, hwords.of_agree (by simp) fun q hq ↦ hagree q ?_, ⟨hlo, hhi⟩,
      ih hrest fun q hq ↦ hagree q ?_⟩
    · rw [Mem.InRegion] at hq
      rw [hesp] at hq ⊢
      rw [Above, Mem.InRegion]
      have hoff : (d.context.esp - 12 - areas.base t).toNat =
          (d.context.esp - areas.base t).toNat - 12 := by
        generalize areas.base t = b at hlo ⊢
        bv_omega
      have hlen : (q - (d.context.esp - 12)).toNat < 12 := hq
      omega
    · rw [hesp]
      exact hq.mono hroom12 hhi

omit [DecidableEq Task] in
/-- **A delivery** leaves one more delivery on the stack, and changes nothing outside of the twelve
bytes below the stack pointer. -/
theorem waiting_enterGate {layout : StubLayout} {areas : Stacks Task} {s : Machine} {t : Task}
    {ds : List Delivery} {vector : ℕ} (h : Waiting layout areas s.mem t s.toRegs ds)
    (hcode : Machine.hasErrorCode vector = false) (hroom : Room areas t s.esp) :
    Waiting layout areas (s.enterGate vector ⟨layout.addr (stubOf vector), 0x08, false⟩).mem t
        (s.enterGate vector ⟨layout.addr (stubOf vector), 0x08, false⟩).toRegs
        (⟨vector, s.toRegs⟩ :: ds) ∧
      ∀ q, ¬ Mem.InRegion (s.esp - 12) 12 q →
        (s.enterGate vector ⟨layout.addr (stubOf vector), 0x08, false⟩).mem q = s.mem q := by
  have hpushed := (((Machine.Pushed.refl s).push (by simp) s.eflags).push (by simp)
    (s.cs.setWidth 32)).push (by simp) s.eip
  have hdeliver : s.deliver vector 0 = ((s.push s.eflags).push (s.cs.setWidth 32)).push s.eip := by
    rw [Machine.deliver, hcode]
    rfl
  rw [← hdeliver] at hpushed
  have hesp : (s.deliver vector 0).esp = s.esp - 12 := hpushed.esp_eq
  have hregs : (s.deliver vector 0).toRegs = { s.toRegs with esp := s.esp - 12 } := by
    rw [← hesp, hdeliver]
    rfl
  have henter : (s.enterGate vector ⟨layout.addr (stubOf vector), 0x08, false⟩).toRegs =
      { s.toRegs with esp := s.esp - 12, eip := layout.addr (stubOf vector), cs := 0x08 } := by
    rw [← hesp, hdeliver]
    rw [Machine.enterGate, hdeliver]
    rfl
  have hmem : (s.enterGate vector ⟨layout.addr (stubOf vector), 0x08, false⟩).mem =
      (s.deliver vector 0).mem := rfl
  have hkept : ∀ q, ¬ Mem.InRegion (s.esp - 12) 12 q → (s.deliver vector 0).mem q = s.mem q := by
    rw [← hesp]
    exact hpushed.mem_eq
  refine ⟨⟨henter, ?_, hroom, h.of_agree fun q hq ↦ ?_⟩, hkept⟩
  · rw [henter, hmem, ← hesp]
    exact hpushed.words
  · refine hkept q fun hown ↦ ?_
    obtain ⟨hlo, hhi⟩ := hroom
    have hlt := areas.size_lt t
    rw [Above, Mem.InRegion] at hq
    rw [Mem.InRegion] at hown
    generalize areas.base t = b at hlo hhi hq
    bv_omega

omit [DecidableEq Task] in
/-- **A stub begins** by completing the frame of the context that was interrupted, and shows
`isr_handler` its own number. -/
theorem frameAt_beginStub {layout : StubLayout} {areas : Stacks Task} {s : Machine} {t : Task}
    {d : Delivery} {ds : List Delivery} (h : Waiting layout areas s.mem t s.toRegs (d :: ds))
    (stub : Fin 39) :
    (s.beginStub stub).esp = d.context.esp - 68 ∧
      FrameAt (s.beginStub stub).mem (d.context.esp - 68) d.context ∧
      (∀ q, ¬ Mem.InRegion (d.context.esp - 68) 68 q → (s.beginStub stub).mem q = s.mem q) ∧
      ∀ returnAddr, ((s.beginStub stub).isrArgument returnAddr).intNo = BitVec.ofNat 32 stub := by
  obtain ⟨hregs, hwords, -, -⟩ := h
  -- the machine as it would be without the delivery, but with its words in memory
  let s₀ : Machine := ⟨{ s.toRegs with esp := d.context.esp }, s.mem⟩
  have hesp : s.esp = d.context.esp - 12 := by rw [hregs]
  have hpushed : Machine.Pushed s₀ s
      [d.context.eip, d.context.cs.setWidth 32, d.context.eflags] := ⟨hesp, hwords, fun _ _ ↦ rfl⟩
  obtain ⟨w, hframe⟩ := Machine.pushed_isr hpushed (Nat.zero_le 1) ⟨s.esp, rfl⟩ stub
  have hbegin : (s.beginStub stub).esp = d.context.esp - 68 := hframe.esp_eq
  have hmem := hframe.mem_eq
  let r := s₀.savedRegisters stub w d.context.eip (d.context.cs.setWidth 32) d.context.eflags
  refine ⟨hbegin, ⟨r, ?_, ?_⟩, fun q hq ↦ hmem q ?_, fun returnAddr ↦ ?_⟩
  · have hall := hframe.words
    rw [List.append_nil] at hall
    rw [← hbegin]
    exact hall
  · have hback : d.context.esp - 68 + 68 = d.context.esp := BitVec.sub_add_cancel _ _
    have hcs : (d.context.cs.setWidth 32).setWidth 16 = d.context.cs := by simp
    have hs₀ : s₀.toRegs = { d.context with
        eip := layout.addr (stubOf d.vector), cs := 0x08 } := by
      show { s.toRegs with esp := d.context.esp } = _
      rw [hregs]
    simp only [r, Machine.savedRegisters, Machine.setWidth_withAx, hcs, hback, hs₀]
  · rw [← hbegin] at hq
    exact hq
  · exact congrArg IsrRegisters.intNo
      (Machine.isrArgument_eq hframe (Nat.zero_le 1) returnAddr)

/-! ### Contexts -/

omit [DecidableEq Task] in
/-- Only changes on the stack of a task concern its deliveries. -/
theorem Waiting.of_agree_stack {layout : StubLayout} {areas : Stacks Task} {mem mem' : Mem}
    {t : Task} {regs : Regs} {ds : List Delivery} (h : Waiting layout areas mem t regs ds)
    (hagree : ∀ q, Mem.InRegion (areas.base t) (areas.size t) q → mem' q = mem q) :
    Waiting layout areas mem' t regs ds := by
  cases ds with
  | nil => trivial
  | cons d ds =>
    refine h.of_agree fun q hq ↦ hagree q (inRegion_stack ?_ hq)
    obtain ⟨hregs, -, ⟨hlo, hhi⟩, -⟩ := h
    have hesp : regs.esp = d.context.esp - 12 := by rw [hregs]
    rw [hesp]
    generalize areas.base t = b at hlo hhi ⊢
    bv_omega

/-- A task that does not run: it is suspended, and its deliveries are on top of the stack in the
context that it will be resumed with. -/
def Parked (layout : StubLayout) (areas : Stacks Task) (hello : U32) (entry : Task → Entry)
    (mem : Mem) (t : Task) (esp : U32) (latest : Option Regs) (ds : List Delivery) : Prop :=
  Suspended areas hello entry mem t esp latest ∧
    match latest with
    | some c => Waiting layout areas mem t c ds
    | none => ds = []

omit [DecidableEq Task] in
theorem Parked.of_agree {layout : StubLayout} {areas : Stacks Task} {hello : U32}
    {entry : Task → Entry} {mem mem' : Mem} {t : Task} {esp : U32} {latest : Option Regs}
    {ds : List Delivery} (h : Parked layout areas hello entry mem t esp latest ds)
    (hagree : ∀ q, Mem.InRegion (areas.base t) (areas.size t) q → mem' q = mem q) :
    Parked layout areas hello entry mem' t esp latest ds := by
  obtain ⟨hsuspended, hds⟩ := h
  refine ⟨hsuspended.of_agree hagree, ?_⟩
  cases latest with
  | some c => exact Waiting.of_agree_stack hds hagree
  | none => exact hds

/-- The deliveries of the current task are on top of its stack, and all other tasks of the queue are
parked. -/
structure Contexts (layout : StubLayout) (areas : Stacks Task) (hello : U32)
    (entry : Task → Entry) (l : List Task) (s : Running Task) : Prop where
  waiting : ∀ t, s.sched.currentTask = some t →
    Waiting layout areas s.machine.mem t s.machine.toRegs (s.entered t)
  parked : ∀ t ∈ l, s.sched.currentTask ≠ some t →
    Parked layout areas hello entry s.machine.mem t (s.sched.esp t) (s.latest t) (s.entered t)

/-- After a stub of `t` has begun and the functions that it calls have returned, every task is
parked: `t` at the frame of the context interrupted, and the others where they were. -/
theorem parked_of_beginStub {layout : StubLayout} {areas : Stacks Task} {hello : U32}
    {entry : Task → Entry} {s : Machine} {t : Task} {d : Delivery} {ds : List Delivery}
    {stub : Fin 39} (h : Waiting layout areas s.mem t s.toRegs (d :: ds)) {mem : Mem}
    (hkept : ∀ q, Kept areas t (d.context.esp - 68) q → mem q = (s.beginStub stub).mem q)
    {esp : Task → U32} {latest : Task → Option Regs} {entered : Task → List Delivery} {t' : Task}
    (hother : t' ≠ t → Parked layout areas hello entry s.mem t' (esp t') (latest t')
      (entered t')) :
    Parked layout areas hello entry mem t' (Function.update esp t (d.context.esp - 68) t')
      (Function.update latest t (some d.context) t') (Function.update entered t ds t') := by
  obtain ⟨-, hframe, hmem, -⟩ := frameAt_beginStub h stub
  obtain ⟨-, -, ⟨hlo, hhi⟩, hrest⟩ := h
  have hlt := areas.size_lt t
  have hoff := toNat_frame_sub (show 68 ≤ (d.context.esp - areas.base t).toNat by omega)
  rcases eq_or_ne t' t with rfl | hne
  · rw [Function.update_self, Function.update_self, Function.update_self]
    refine ⟨⟨d.context, hframe.of_agree fun q hq ↦ hkept q (Or.inr ?_), by omega, rfl⟩, ?_⟩
    · rw [Mem.InRegion, IsrRegisters.size] at hq
      rw [Mem.InRegion]
      omega
    · show Waiting layout areas mem t' d.context ds
      refine hrest.of_agree fun q hq ↦ ?_
      have habove : Above areas t' (d.context.esp - 68) q :=
        hq.mono (Nat.le_trans (show (68 : U32).toNat ≤ 76 by decide) hlo) hhi
      rw [hkept q (Or.inr habove)]
      refine hmem q fun hown ↦ ?_
      rw [Above, Mem.InRegion] at hq
      rw [Mem.InRegion] at hown
      generalize areas.base t' = b at hlo hhi hq
      bv_omega
  · rw [Function.update_of_ne hne, Function.update_of_ne hne, Function.update_of_ne hne]
    refine (hother hne).of_agree fun q hq ↦ ?_
    rw [hkept q (Or.inl ⟨t', hne, hq⟩)]
    refine hmem q fun hown ↦ hne (areas.disjoint t' t q hq (inRegion_stack ?_ hown))
    omega

omit [DecidableEq Task] in
/-- A task that was parked is resumed with its deliveries on top of the stack. -/
theorem waiting_of_parked {layout : StubLayout} {areas : Stacks Task} {hello : U32}
    {entry : Task → Entry} {s : Machine} {t : Task} {latest : Option Regs} {ds : List Delivery}
    (h : Parked layout areas hello entry s.mem t s.esp latest ds) :
    Waiting layout areas s.isrCommonRestore.mem t s.isrCommonRestore.toRegs ds := by
  obtain ⟨⟨c, hframe, -, hlatest⟩, hds⟩ := h
  rw [Machine.mem_isrCommonRestore, Machine.toRegs_isrCommonRestore hframe]
  cases latest with
  | some c' =>
    obtain rfl : c = c' := hlatest
    exact hds
  | none =>
    obtain rfl : ds = [] := hds
    trivial

/-! ### One step -/

theorem lastRegistered_registrations (stub : Fin 39) : lastRegistered registrations stub =
    if (stub : ℕ) = 0x20 then some .timerIsr else if (stub : ℕ) = 0x21 then some .kbdIsr
      else none := by
  revert stub
  decide

omit [DecidableEq Task] in
/-- **What a call of `isr_handler` does**, for the number of a stub. -/
theorem Running.serve_eq {layout : StubLayout} {s : Running Task}
    (h : TablesUp layout s.interrupts) {r : IsrRegisters} {stub : Fin 39}
    (hr : r.intNo = BitVec.ofNat 32 stub) (b : U8) :
    s.serve r b = { s with
      interrupts := (s.interrupts.isrHandler r).2
      handled := s.handled ++ [(stub : ℕ)]
      sched := { s.sched with
        scheduleRequest := if (stub : ℕ) = 0x20 then 0x10 else s.sched.scheduleRequest }
      kbd := if (stub : ℕ) = 0x21 then kbdIsr s.kbd b else s.kbd
      keys := if (stub : ℕ) = 0x21 then s.keys ++ [.isr b] else s.keys } := by
  have hnat : r.intNo.toNat = stub := by
    rw [hr, BitVec.toNat_ofNat]
    omega
  have hran : (s.interrupts.isrHandler r).1 = _ :=
    (h.isrHandler hr).2.1.trans (lastRegistered_registrations stub)
  rw [Running.serve]
  dsimp only
  rw [hran, hnat]
  rcases eq_or_ne (stub : ℕ) 0x20 with htimer | htimer
  · have hkbd : (stub : ℕ) ≠ 0x21 := by omega
    rw [if_pos htimer, if_pos htimer, if_neg hkbd, if_neg hkbd]
  · rw [if_neg htimer, if_neg htimer]
    rcases eq_or_ne (stub : ℕ) 0x21 with hkbd | hkbd
    · rw [if_pos hkbd, if_pos hkbd, if_pos hkbd]
    · rw [if_neg hkbd, if_neg hkbd, if_neg hkbd]

/-- **One step** keeps the contexts, and resumes tasks as they were. -/
theorem RunningStep.contexts {layout : StubLayout} {gdt : ℕ → SegmentDescriptor}
    {areas : Stacks Task} {hello : U32} {entry : Task → Entry} {l : List Task}
    {s s' : Running Task} {e : RunningEvent} (h : RunningStep layout gdt areas s e s')
    (hqueue : RunQueue s.sched l) (htables : TablesUp layout s.interrupts)
    (hcontexts : Contexts layout areas hello entry l s) :
    Contexts layout areas hello entry l s' ∧ e.Resumes hello entry s' := by
  obtain ⟨hwaiting, hparked⟩ := hcontexts
  cases h with
  | run hcur hentered hmem hevents hkbd =>
    rename_i t machine kbd events
    refine ⟨⟨fun t' ht' ↦ ?_, fun t' ht' hne ↦ ?_⟩, trivial⟩
    · obtain rfl : t = t' := Option.some.inj (hcur.symm.trans ht')
      show Waiting layout areas machine.mem t machine.toRegs (s.entered t)
      rw [hentered]
      trivial
    · refine (hparked t' ht' hne).of_agree (hmem t' ?_)
      rintro rfl
      exact hne hcur
  | deliver hcur hflag hvector henter hroom =>
    rename_i t line vector e
    obtain ⟨rfl, rfl⟩ := htables.enter_eq hvector henter
    obtain ⟨hnew, hmem⟩ := waiting_enterGate (hwaiting t hcur) (hasErrorCode_line line) hroom
    obtain ⟨hlo, hhi⟩ := hroom
    refine ⟨⟨fun t' ht' ↦ ?_, fun t' ht' hne ↦ ?_⟩, trivial⟩
    · obtain rfl : t = t' := Option.some.inj (hcur.symm.trans ht')
      dsimp only
      rw [Function.update_self]
      exact hnew
    · have hne' : t' ≠ t := by
        rintro rfl
        exact hne hcur
      dsimp only
      rw [Function.update_of_ne hne']
      refine (hparked t' ht' hne).of_agree fun q hq ↦ hmem q fun hown ↦
        hne' (areas.disjoint t' t q hq (inRegion_stack ?_ hown))
      generalize areas.base t = b at hlo hhi ⊢
      bv_omega
  | stub hcur hentered hstub hhandler hcommon =>
    rename_i t d ds stub b returnAddr returnAddr' s₁ machine sched
    have hown := hwaiting t hcur
    rw [hentered] at hown
    obtain ⟨hesp, -, -, hnumber⟩ := frameAt_beginStub hown stub
    obtain ⟨-, -, ⟨hlo, hhi⟩, -⟩ := id hown
    have hoff := toNat_frame_sub (show 68 ≤ (d.context.esp - areas.base t).toNat by omega)
    -- the handler returns with the frame on top of the stack and the other stacks as they were
    have hesp₁ : s₁.esp = d.context.esp - 68 := hhandler.esp_of_call.trans hesp
    have hmem₁ : ∀ q, Kept areas t (d.context.esp - 68) q →
        s₁.mem q = (s.machine.beginStub stub).mem q := fun q hq ↦ by
      rw [← hesp] at hq hoff
      exact hhandler.mem_of_call (by omega) (by omega) hq
    -- with any memory that the functions called have kept, all tasks are parked
    have hall : ∀ mem : Mem, (∀ q, Kept areas t (d.context.esp - 68) q →
        mem q = (s.machine.beginStub stub).mem q) → ∀ t' ∈ l,
        Parked layout areas hello entry mem t'
          (Function.update s.sched.esp t (d.context.esp - 68) t')
          (Function.update s.latest t (some d.context) t') (Function.update s.entered t ds t') :=
      fun mem hmem t' ht' ↦ parked_of_beginStub hown hmem fun hne ↦ hparked t' ht' fun hcur' ↦
        hne (Option.some.inj (hcur'.symm.trans hcur))
    rw [Running.serve_eq htables (hnumber returnAddr)] at hcommon ⊢
    obtain ⟨i, hi, rfl⟩ := hqueue.exists_getElem_eq hcur
    have hmeml : l[i] ∈ l := List.getElem_mem hi
    cases hcommon with
    | notPending hrequest =>
      have hparked₁ := hall s₁.mem hmem₁
      have hresumed := hparked₁ l[i] hmeml
      rw [Function.update_self, ← hesp₁] at hresumed
      refine ⟨⟨fun t' ht' ↦ ?_, fun t' ht' hne ↦ ?_⟩, resumed_of_suspended hresumed.1 hcur⟩
      · obtain rfl : l[i] = t' := Option.some.inj (hcur.symm.trans ht')
        exact waiting_of_parked hresumed
      · have hne' : t' ≠ l[i] := by
          rintro rfl
          exact hne hcur
        have hother := hparked₁ t' ht'
        rw [Function.update_of_ne hne' _ s.sched.esp] at hother
        exact hother
    | pending hrequest hschedule hreturn =>
      rename_i s₂ esp
      have hqueue' : RunQueue { s.sched with
          scheduleRequest := if (stub : ℕ) = 0x20 then 0x10 else s.sched.scheduleRequest } l :=
        hqueue.congr rfl rfl rfl rfl
      obtain ⟨t', ht', hstep⟩ := schedulePending_eq hqueue' hi hcur (d.context.esp - 68)
      rw [Machine.framePtr_push, hesp₁, hstep] at hschedule
      obtain ⟨rfl, rfl⟩ := Prod.mk.inj (Option.some.inj hschedule)
      have hmem₂ : ∀ q, Kept areas l[i] (d.context.esp - 68) q →
          s₂.mem q = (s.machine.beginStub stub).mem q := fun q hq ↦ by
        rw [hesp, ← hesp₁] at hreturn
        rw [← hmem₁ q hq]
        rw [← hesp₁] at hq hoff
        exact hreturn.mem_of_call (by omega) (by omega) hq
      have hparked₂ := hall s₂.mem hmem₂
      have hresumed := hparked₂ t' (List.mem_of_getElem? ht')
      refine ⟨⟨fun t'' ht'' ↦ ?_, fun t'' ht'' _ ↦ hparked₂ t'' ht''⟩,
        resumed_of_suspended hresumed.1 rfl⟩
      obtain rfl : t' = t'' := Option.some.inj ht''
      exact waiting_of_parked hresumed

end Ganoid
