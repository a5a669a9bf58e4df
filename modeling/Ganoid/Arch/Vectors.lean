import Ganoid.Arch.Cpu
import Ganoid.Kernel.Sched

/-!
# The interrupt stubs

`arch/i386/kernel/vectors.S`: each stub pushes a zero and its vector, and `isr_common_stub` saves
the registers, calls `isr_handler`, calls `schedule_pending` where a reschedule is pending, and
restores the registers from wherever the stack pointer then is. The words on the stack between
saving and restoring are an `isr_registers_t`.

What the called functions do to the machine is known only by their calling convention: they give the
stack pointer back and leave alone the memory that is not theirs (`Returned`).

`FrameAt m p c` says that restoring from `p` gives the context `c`. Interrupts without an error code
leave such a frame for the interrupted context (`frameAt_save`). The processor pushes one more word
for the others, which nothing takes off again.
-/

open Fuelled

namespace Ganoid

/-- `isr_registers_t`. -/
structure IsrRegisters where
  gs : U32
  fs : U32
  es : U32
  ds : U32
  edi : U32
  esi : U32
  ebp : U32
  esp : U32
  ebx : U32
  edx : U32
  ecx : U32
  eax : U32
  intNo : U32
  errCode : U32
  eip : U32
  cs : U32
  eflags : U32
  deriving DecidableEq

namespace IsrRegisters

/-- `sizeof(isr_registers_t)`. -/
def size : ℕ := 68

/-- The fields, lowest address first. -/
def words (r : IsrRegisters) : List U32 :=
  [r.gs, r.fs, r.es, r.ds, r.edi, r.esi, r.ebp, r.esp, r.ebx, r.edx, r.ecx, r.eax, r.intNo,
    r.errCode, r.eip, r.cs, r.eflags]

/-- The structure at `p`. -/
def read (m : Mem) (p : U32) : IsrRegisters where
  gs := m.load32 p
  fs := m.load32 (p + 4)
  es := m.load32 (p + 8)
  ds := m.load32 (p + 12)
  edi := m.load32 (p + 16)
  esi := m.load32 (p + 20)
  ebp := m.load32 (p + 24)
  esp := m.load32 (p + 28)
  ebx := m.load32 (p + 32)
  edx := m.load32 (p + 36)
  ecx := m.load32 (p + 40)
  eax := m.load32 (p + 44)
  intNo := m.load32 (p + 48)
  errCode := m.load32 (p + 52)
  eip := m.load32 (p + 56)
  cs := m.load32 (p + 60)
  eflags := m.load32 (p + 64)

/-- The fields stand in a row. -/
theorem read_eq_of_wordsAt {m : Mem} {p : U32} {r : IsrRegisters} {rest : List U32}
    (h : Mem.WordsAt m p (r.words ++ rest)) : read m p = r := by
  have hword : ∀ i w, (r.words ++ rest)[i]? = some w →
      m.load32 (p + BitVec.ofNat 32 (4 * i)) = w := fun i w ↦ h.load32_add
  rw [read, show r = ⟨r.gs, r.fs, r.es, r.ds, r.edi, r.esi, r.ebp, r.esp, r.ebx, r.edx, r.ecx,
    r.eax, r.intNo, r.errCode, r.eip, r.cs, r.eflags⟩ from rfl, mk.injEq]
  exact ⟨h.1, hword 1 _ rfl, hword 2 _ rfl, hword 3 _ rfl, hword 4 _ rfl, hword 5 _ rfl,
    hword 6 _ rfl, hword 7 _ rfl, hword 8 _ rfl, hword 9 _ rfl, hword 10 _ rfl, hword 11 _ rfl,
    hword 12 _ rfl, hword 13 _ rfl, hword 14 _ rfl, hword 15 _ rfl, hword 16 _ rfl⟩

end IsrRegisters

namespace Machine

/-- The stub of a vector: `cli`, then a zero for the error code, then the vector. -/
def isr (s : Machine) (vector : ℕ) : Machine :=
  (s.cli.push 0).push (BitVec.ofNat 32 vector)

/-- The part of `isr_common_stub` that saves the segment registers. -/
def saveSegments (s : Machine) : Machine :=
  let s := s.pushAx s.ds
  let s := s.pushAx s.es
  let s := s.pushAx s.fs
  s.pushAx s.gs

/-- The part of `isr_common_stub` that loads the kernel's data segment. -/
def loadSegments (s : Machine) : Machine :=
  let s := s.movAx 0x10
  { s with ds := 0x10, es := 0x10, gs := 0x10, fs := 0x10 }

/-- `isr_common_stub` up to the call of `isr_handler`. -/
def isrCommonSave (s : Machine) : Machine :=
  s.pusha.saveSegments.loadSegments

/-- `isr_common_stub` from `schedule_not_pending` on. -/
def isrCommonRestore (s : Machine) : Machine :=
  let (eax, s) := s.pop
  let s := { s with eax, gs := eax.setWidth 16 }
  let (eax, s) := s.pop
  let s := { s with eax, fs := eax.setWidth 16 }
  let (eax, s) := s.pop
  let s := { s with eax, es := eax.setWidth 16 }
  let (eax, s) := s.pop
  let s := { s with eax, ds := eax.setWidth 16 }
  let s := s.popa
  let s := { s with esp := s.esp + 8 }
  s.sti.iret

/-- From the interrupted instruction to the call of `isr_handler`, through the stub of the number
`stub`. -/
def enterStub (s : Machine) (vector : ℕ) (errCode : U32) (stub : ℕ) : Machine :=
  ((s.deliver vector errCode).isr stub).isrCommonSave

/-- From the interrupted instruction to the call of `isr_handler`, for a vector with a stub of its
own. -/
def interrupt (s : Machine) (vector : ℕ) (errCode : U32) : Machine :=
  s.enterStub vector errCode vector

/-- The structure that `isr_handler` finds as its argument, above its return address. -/
def isrArgument (s : Machine) (returnAddr : U32) : IsrRegisters :=
  let s := s.push returnAddr
  IsrRegisters.read s.mem (s.esp + 4)

/-- A function has returned that was called in `s`, its return address already pushed. It has kept
the memory in `keep`. -/
structure Returned (keep : U32 → Prop) (s s' : Machine) : Prop where
  esp_eq : s'.esp = s.esp + 4
  mem_eq : ∀ q, keep q → s'.mem q = s.mem q

/-- The first two instructions of a compiled function. -/
def prologue (s : Machine) : Machine :=
  let s := s.push s.ebp
  { s with ebp := s.esp }

/-- The `frame_ptr` that `schedule_pending` computes: past the saved `ebp` and the return
address. -/
def framePtr (s : Machine) : U32 :=
  s.prologue.ebp + 8

end Machine

/-- `isr_common_stub` from the return of `isr_handler` on. -/
inductive CommonStub {Task : Type} [DecidableEq Task] (keep : U32 → Prop) (returnAddr : U32) :
    Machine → Sched Task → Machine → Sched Task → Prop
  | notPending {s : Machine} {sched : Sched Task} (hrequest : sched.scheduleRequest = 0) :
      CommonStub keep returnAddr s sched s.isrCommonRestore sched
  | pending {s s₁ : Machine} {sched sched' : Sched Task} {esp : U32}
      (hrequest : sched.scheduleRequest ≠ 0)
      (hschedule : sched.schedulePending (s.push returnAddr).framePtr = some (esp, sched'))
      (hreturn : (s.push returnAddr).Returned keep s₁) :
      CommonStub keep returnAddr s sched
        ({ s₁ with eax := esp, esp := esp } : Machine).isrCommonRestore sched'

/-! ### Frames -/

/-- Restoring the registers from `p` gives the context `c`. -/
def FrameAt (m : Mem) (p : U32) (c : Regs) : Prop :=
  ∃ r : IsrRegisters, Mem.WordsAt m p r.words ∧ c = {
    eax := r.eax, ecx := r.ecx, edx := r.edx, ebx := r.ebx, esp := p + 68, ebp := r.ebp
    esi := r.esi, edi := r.edi, eip := r.eip, eflags := r.eflags, cs := r.cs.setWidth 16
    ds := r.ds.setWidth 16, es := r.es.setWidth 16, fs := r.fs.setWidth 16
    gs := r.gs.setWidth 16 }

/-- A frame survives a change elsewhere. -/
theorem FrameAt.of_agree {m m' : Mem} {p : U32} {c : Regs} (h : FrameAt m p c)
    (hagree : ∀ q, Mem.InRegion p IsrRegisters.size q → m' q = m q) : FrameAt m' p c := by
  obtain ⟨r, hwords, hc⟩ := h
  exact ⟨r, hwords.of_agree (show 4 * 17 ≤ 2 ^ 32 by decide) hagree, hc⟩

namespace Machine

/-- **Restoring** gives the context of the frame that the stack pointer points at. -/
theorem toRegs_isrCommonRestore {s : Machine} {c : Regs} (h : FrameAt s.mem s.esp c) :
    s.isrCommonRestore.toRegs = c := by
  obtain ⟨r, hwords, rfl⟩ := h
  simp only [IsrRegisters.words, Mem.wordsAt_cons_iff, Mem.wordsAt_nil] at hwords
  obtain ⟨hgs, hfs, hes, hds, hedi, hesi, hebp, hesp, hebx, hedx, hecx, heax, hint, herr, heip,
    hcs, heflags, -⟩ := hwords
  have hskip : ∀ p : U32, p + 8 = p + 4 + 4 := fun p ↦ (BitVec.add_assoc p 4 4).symm
  have hsize : s.esp + 4 + 4 + 4 + 4 + 4 + 4 + 4 + 4 + 4 + 4 + 4 + 4 + 4 + 4 + 4 + 4 + 4 =
      s.esp + 68 := by
    simp only [BitVec.add_assoc]
    rfl
  simp only [isrCommonRestore, pop, popa, sti, iret, hskip]
  rw [Regs.mk.injEq]
  simp only [hgs, hfs, hes, hds, hedi, hesi, hebp, hebx, hedx, hecx, heax, heip, hcs, heflags,
    hsize, and_self]

theorem mem_isrCommonRestore (s : Machine) : s.isrCommonRestore.mem = s.mem := rfl

/-- The stack pointer moves by the size of a frame, whatever is restored. -/
theorem esp_isrCommonRestore (s : Machine) : s.isrCommonRestore.esp = s.esp + 68 := by
  show s.esp + 4 + 4 + 4 + 4 + 4 + 4 + 4 + 4 + 4 + 4 + 4 + 4 + 8 + 4 + 4 + 4 = s.esp + 68
  simp only [BitVec.add_assoc]
  rfl

/-- What the save leaves on the stack, with the words `eip`, `cs` and `eflags` that stood on top of
it before the stub. -/
def savedRegisters (s : Machine) (stub : ℕ) (esp eip cs eflags : U32) : IsrRegisters where
  gs := withAx (withAx (withAx (withAx s.eax s.ds) s.es) s.fs) s.gs
  fs := withAx (withAx (withAx s.eax s.ds) s.es) s.fs
  es := withAx (withAx s.eax s.ds) s.es
  ds := withAx s.eax s.ds
  edi := s.edi
  esi := s.esi
  ebp := s.ebp
  esp := esp
  ebx := s.ebx
  edx := s.edx
  ecx := s.ecx
  eax := s.eax
  intNo := BitVec.ofNat 32 stub
  errCode := 0
  eip := eip
  cs := cs
  eflags := eflags

theorem Pushed.saveSegments {s t : Machine} {ws : List U32} (h : Pushed s t ws)
    (hfit : 4 * (ws.length + 4) < 2 ^ 32) :
    Pushed s t.saveSegments (withAx (withAx (withAx (withAx t.eax t.ds) t.es) t.fs) t.gs ::
      withAx (withAx (withAx t.eax t.ds) t.es) t.fs :: withAx (withAx t.eax t.ds) t.es ::
      withAx t.eax t.ds :: ws) := by
  have hds := h.pushAx (by omega) t.ds
  have hes := hds.pushAx (by simp; omega) t.es
  have hfs := hes.pushAx (by simp; omega) t.fs
  exact hfs.pushAx (by simp; omega) t.gs

theorem Pushed.loadSegments {s t : Machine} {ws : List U32} (h : Pushed s t ws) :
    Pushed s t.loadSegments ws :=
  h.congr rfl rfl

/-- The stub and the save, from a state that differs from `s` in the stack alone. -/
theorem pushed_isr {s t : Machine} {eip cs eflags : U32} {rest : List U32}
    (h : Pushed s t (eip :: cs :: eflags :: rest)) (hrest : rest.length ≤ 1)
    (hregs : ∃ esp, t.toRegs = { s.toRegs with esp := esp }) (stub : ℕ) :
    ∃ w, Pushed s (t.isr stub).isrCommonSave
      ((s.savedRegisters stub w eip cs eflags).words ++ rest) := by
  obtain ⟨esp, hregs⟩ := hregs
  have hcli : Pushed s t.cli (eip :: cs :: eflags :: rest) := h.congr rfl rfl
  have hisr : Pushed s (t.isr stub) (BitVec.ofNat 32 stub :: 0 :: eip :: cs :: eflags :: rest) :=
    (hcli.push (by simp; omega) 0).push (by simp; omega) (BitVec.ofNat 32 stub)
  have hall := ((hisr.pusha (by simp; omega)).saveSegments (by simp; omega)).loadSegments
  -- the stub has written no register but `esp` and `eflags`, so those of `s` are saved
  obtain ⟨e, f, hisrRegs⟩ : ∃ e f,
      (t.isr stub).toRegs = { s.toRegs with esp := e, eflags := f } := by
    refine ⟨esp - 4 - 4, t.cli.eflags, ?_⟩
    rw [isr, toRegs_push, toRegs_push]
    have hcliRegs : t.cli.toRegs = { s.toRegs with esp := esp, eflags := t.cli.eflags } := by
      rw [cli]
      simp only [hregs]
    rw [hcliRegs]
  simp only [toRegs_pusha, hisrRegs] at hall
  exact ⟨_, hall⟩

/-- Without an error code, an interrupt leaves a frame of seventeen words. -/
theorem pushed_enterStub {vector : ℕ} (h : hasErrorCode vector = false) (s : Machine)
    (errCode : U32) (stub : ℕ) : ∃ w, Pushed s (s.enterStub vector errCode stub)
      (s.savedRegisters stub w s.eip (s.cs.setWidth 32) s.eflags).words := by
  have hdeliver := (((Pushed.refl s).push (by simp) s.eflags).push (by simp)
    (s.cs.setWidth 32)).push (by simp) s.eip
  obtain ⟨w, hw⟩ := pushed_isr hdeliver (by simp) ⟨_, rfl⟩ stub
  refine ⟨w, ?_⟩
  rw [List.append_nil] at hw
  rw [enterStub, deliver, h]
  exact hw

theorem pushed_interrupt {vector : ℕ} (h : hasErrorCode vector = false) (s : Machine)
    (errCode : U32) : ∃ w, Pushed s (s.interrupt vector errCode)
      (s.savedRegisters vector w s.eip (s.cs.setWidth 32) s.eflags).words :=
  pushed_enterStub h s errCode vector

/-- With an error code, the processor's words stand one place higher than the frame has them. -/
theorem pushed_interrupt_errCode {vector : ℕ} (h : hasErrorCode vector = true) (s : Machine)
    (errCode : U32) : ∃ w, Pushed s (s.interrupt vector errCode)
      ((s.savedRegisters vector w errCode s.eip (s.cs.setWidth 32)).words ++ [s.eflags]) := by
  have hdeliver := ((((Pushed.refl s).push (by simp) s.eflags).push (by simp)
    (s.cs.setWidth 32)).push (by simp) s.eip).push (by simp) errCode
  obtain ⟨w, hw⟩ := pushed_isr hdeliver (by simp) ⟨_, rfl⟩ vector
  refine ⟨w, ?_⟩
  rw [interrupt, enterStub, deliver, h]
  exact hw

/-- **An interrupt without an error code leaves a frame** for the interrupted context. -/
theorem frameAt_interrupt {vector : ℕ} (h : hasErrorCode vector = false) (s : Machine)
    (errCode : U32) :
    FrameAt (s.interrupt vector errCode).mem (s.interrupt vector errCode).esp s.toRegs := by
  obtain ⟨w, hpushed⟩ := pushed_interrupt h s errCode
  refine ⟨_, hpushed.words, ?_⟩
  have hesp : (s.interrupt vector errCode).esp + 68 = s.esp := by
    rw [hpushed.esp_eq]
    exact BitVec.sub_add_cancel s.esp 68
  have hcs : (s.cs.setWidth 32).setWidth 16 = s.cs := by simp
  rw [hesp]
  simp only [savedRegisters, setWidth_withAx, hcs]

/-- The argument of `isr_handler` is what stands on the stack when it is called. -/
theorem isrArgument_eq {s t : Machine} {r : IsrRegisters} {rest : List U32}
    (h : Pushed s t (r.words ++ rest)) (hrest : rest.length ≤ 1) (returnAddr : U32) :
    t.isrArgument returnAddr = r := by
  have hlen : (r.words ++ rest).length ≤ 18 := by
    rw [List.length_append, show r.words.length = 17 from rfl]
    omega
  have hcall := h.push (by omega) returnAddr
  exact IsrRegisters.read_eq_of_wordsAt hcall.words.2

theorem framePtr_push (s : Machine) (returnAddr : U32) :
    (s.push returnAddr).framePtr = s.esp := by
  show s.esp - 4 - 4 + 8 = s.esp
  bv_omega

/-- A function that returns at once keeps everything. -/
theorem exists_returned (s : Machine) (keep : U32 → Prop) : ∃ s', s.Returned keep s' :=
  ⟨{ s with esp := s.esp + 4 }, rfl, fun _ _ ↦ rfl⟩

/-- A call gives the stack pointer back. -/
theorem Returned.esp_of_call {s s' : Machine} {keep : U32 → Prop} {returnAddr : U32}
    (h : (s.push returnAddr).Returned keep s') : s'.esp = s.esp :=
  h.esp_eq.trans (BitVec.sub_add_cancel s.esp 4)

/-- A call that keeps the frame on top of the stack leaves it there. -/
theorem Returned.frameAt {s s' : Machine} {keep : U32 → Prop} {returnAddr : U32} {c : Regs}
    (h : (s.push returnAddr).Returned keep s')
    (hkeep : ∀ q, Mem.InRegion s.esp IsrRegisters.size q → keep q)
    (hframe : FrameAt s.mem s.esp c) :
    FrameAt s'.mem s'.esp c := by
  rw [h.esp_of_call]
  refine hframe.of_agree fun q hq ↦ ?_
  rw [h.mem_eq q (hkeep q hq)]
  refine Mem.store32_of_not_inRegion ?_
  rw [Mem.InRegion, IsrRegisters.size] at hq
  rw [Mem.InRegion]
  bv_omega

/-! ### Balance -/

/-- An interrupt at `s`, whose handler returned in `s₁`, is balanced: leaving the stub restores the
whole context, and the handler was shown the vector and what the processor pushed. -/
def Balanced {Task : Type} [DecidableEq Task] (vector : ℕ) (s : Machine) (errCode returnAddr : U32)
    (s₁ : Machine) (sched : Sched Task) : Prop :=
  let argument := (s.interrupt vector errCode).isrArgument returnAddr
  (∀ keep s' sched', CommonStub keep returnAddr s₁ sched s' sched' → s'.toRegs = s.toRegs) ∧
    argument.intNo = BitVec.ofNat 32 vector ∧ argument.eip = s.eip ∧
    argument.cs = s.cs.setWidth 32 ∧ argument.eflags = s.eflags

variable {Task : Type} [DecidableEq Task]

theorem balanced_of_not_hasErrorCode {vector : ℕ} (hvector : hasErrorCode vector = false)
    {s s₁ : Machine} {errCode returnAddr : U32} {sched : Sched Task}
    (hreturn : ((s.interrupt vector errCode).push returnAddr).Returned
      (Mem.InRegion (s.interrupt vector errCode).esp IsrRegisters.size) s₁)
    (hrequest : sched.scheduleRequest = 0) :
    Balanced vector s errCode returnAddr s₁ sched := by
  obtain ⟨w, hpushed⟩ := pushed_interrupt hvector s errCode
  rw [← List.append_nil (IsrRegisters.words _)] at hpushed
  have hargument := isrArgument_eq hpushed (Nat.zero_le 1) returnAddr
  have hframe := hreturn.frameAt (fun _ hq ↦ hq) (frameAt_interrupt hvector s errCode)
  refine ⟨fun keep s' sched' hstub ↦ ?_, ?_⟩
  · cases hstub with
    | notPending _ => exact toRegs_isrCommonRestore hframe
    | pending hpending => exact absurd hrequest hpending
  · rw [hargument]
    exact ⟨rfl, rfl, rfl, rfl⟩

/-- With an error code on the stack, the stub leaves the stack pointer a word too low. -/
theorem not_balanced_of_hasErrorCode {vector : ℕ} (hvector : hasErrorCode vector = true)
    {s s₁ : Machine} {errCode returnAddr : U32} {sched : Sched Task} {keep : U32 → Prop}
    (hreturn : ((s.interrupt vector errCode).push returnAddr).Returned keep s₁)
    (hrequest : sched.scheduleRequest = 0) :
    ¬ Balanced vector s errCode returnAddr s₁ sched := by
  obtain ⟨w, hpushed⟩ := pushed_interrupt_errCode hvector s errCode
  intro hbalanced
  have hregs := hbalanced.1 keep _ _ (.notPending hrequest)
  have hesp : s₁.isrCommonRestore.esp = s.esp := congrArg Regs.esp hregs
  have hentry : (s.interrupt vector errCode).esp = s.esp - 72 := hpushed.esp_eq
  -- eighteen words were pushed, and seventeen are taken off
  rw [esp_isrCommonRestore, hreturn.esp_of_call, hentry] at hesp
  bv_omega

/-- **The stub is balanced exactly for the vectors without an error code.** -/
theorem balanced_iff (vector : Fin 39) (s s₁ : Machine) (errCode returnAddr : U32)
    (sched : Sched Task)
    (hreturn : ((s.interrupt vector errCode).push returnAddr).Returned
      (Mem.InRegion (s.interrupt vector errCode).esp IsrRegisters.size) s₁)
    (hrequest : sched.scheduleRequest = 0) :
    Balanced vector s errCode returnAddr s₁ sched ↔
      (vector : ℕ) ∉ [8, 10, 11, 12, 13, 14, 17] := by
  constructor
  · intro hbalanced hmem
    exact not_balanced_of_hasErrorCode (decide_eq_true hmem) hreturn hrequest hbalanced
  · intro hmem
    exact balanced_of_not_hasErrorCode (decide_eq_false hmem) hreturn hrequest

/-- A processor in the middle of something: no two registers are equal, and no two neighbouring words
of memory are. -/
def midway : Machine :=
  ⟨⟨0x11, 0x22, 0x33, 0x44, 0x9000, 0x55, 0x66, 0x77, 0x101234, 0x202, 0x08, 0x10, 0x18, 0x20, 0x28⟩,
    fun q ↦ q.setWidth 8⟩

/-- A scheduler with no reschedule pending. -/
def quiet : Sched Unit :=
  ⟨fun _ ↦ none, fun _ ↦ none, fun _ ↦ 0, none, none, 0⟩

/-- A page fault, from a write to a page that is not there, is not balanced. -/
theorem not_balanced_pageFault :
    ¬ ∀ (vector : Fin 39) (s s₁ : Machine) (errCode returnAddr : U32) (sched : Sched Unit),
      ((s.interrupt vector errCode).push returnAddr).Returned
        (Mem.InRegion (s.interrupt vector errCode).esp IsrRegisters.size) s₁ →
      sched.scheduleRequest = 0 → Balanced vector s errCode returnAddr s₁ sched := by
  intro h
  obtain ⟨s₁, hreturn⟩ := exists_returned ((midway.interrupt 14 2).push 0x105678)
    (Mem.InRegion (midway.interrupt 14 2).esp IsrRegisters.size)
  exact not_balanced_of_hasErrorCode rfl hreturn rfl
    (h 14 midway s₁ 2 0x105678 quiet hreturn rfl)

/-- The timer interrupt is balanced, and the page fault is not. -/
theorem balanced_iff_timer : (∃ s₁, Balanced 32 midway 0 0x105678 s₁ quiet) ∧
    ∃ s₁, ¬ Balanced 14 midway 2 0x105678 s₁ quiet := by
  obtain ⟨s₁, hreturn⟩ := exists_returned ((midway.interrupt 32 0).push 0x105678)
    (Mem.InRegion (midway.interrupt 32 0).esp IsrRegisters.size)
  obtain ⟨s₂, hreturn'⟩ := exists_returned ((midway.interrupt 14 2).push 0x105678)
    (Mem.InRegion (midway.interrupt 14 2).esp IsrRegisters.size)
  refine ⟨⟨s₁, (balanced_iff (32 : Fin 39) midway s₁ 0 0x105678 quiet hreturn rfl).2 (by decide)⟩,
    s₂, fun h ↦ ?_⟩
  exact (balanced_iff (14 : Fin 39) midway s₂ 2 0x105678 quiet hreturn' rfl).1 h (by decide)

end Machine

end Ganoid
