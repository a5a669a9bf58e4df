import Ganoid.Arch.Cpu
import Ganoid.Library.Fuelled
import Ganoid.Library.PortIO

/-!
# The driver of the keyboard controller

`arch/i386/kernel/kbd.S`: the initialization of the keyboard and its controller, an 8042, and the
two functions that turn its interrupt on and off. Every routine is an operation on the machine and
on what has gone over its ports; it ends with the address that its `ret` takes off the stack, and
`call` puts it together with what follows only if that is where it was called from. The arithmetic
flags are not part of the state; a conditional jump takes its condition from the instruction before
it.

The waiting loops clear `cx` and count with all of `ecx`, so the number of times they look depends
on what the caller has in the upper half of `ecx` (`pollBudget`). Their callers are not told whether
they gave up.
-/

open Fuelled PortIO

namespace Ganoid

/-- The machine and what has gone over its ports. -/
structure Driver extends Machine where
  trace : List PortEvent

namespace Driver

/-! ### Instructions -/

/-- `push`. -/
def push (s : Driver) (v : U32) : Driver :=
  { s with toMachine := s.toMachine.push v }

/-- `pop`. -/
def pop (s : Driver) : U32 × Driver :=
  (s.toMachine.pop.1, { s with toMachine := s.toMachine.pop.2 })

/-- The lowest byte of a register. -/
def low (r : U32) : U8 := r.setWidth 8

/-- A register after its lowest byte is written. -/
def withLow (r : U32) (v : U8) : U32 :=
  (r.extractLsb' 8 24 ++ v : BitVec (24 + 8))

theorem low_withLow (r : U32) (v : U8) : low (withLow r v) = v := by
  rw [low, withLow]
  exact BitVec.setWidth_append_eq_right

theorem withLow_withLow (r : U32) (v v' : U8) : withLow (withLow r v) v' = withLow r v' := by
  have h : (r.extractLsb' 8 24 ++ v : BitVec (24 + 8)).extractLsb' 8 24 = r.extractLsb' 8 24 :=
    BitVec.extractLsb'_append_eq_left
  rw [withLow, withLow, withLow, h]

/-- `mov v, %al`. -/
def movAl (s : Driver) (v : U8) : Driver :=
  { s with eax := withLow s.eax v }

/-- `mov v, %bl`. -/
def movBl (s : Driver) (v : U8) : Driver :=
  { s with ebx := withLow s.ebx v }

/-- `outb %al, port`. -/
def outb (s : Driver) (port : U16) : Driver :=
  { s with trace := s.trace ++ [.write port (low s.eax)] }

/-- `inb port, %al`. -/
def inb (dev : Device) (s : Driver) (port : U16) : Driver :=
  let v := dev s.trace port
  { s with eax := withLow s.eax v, trace := s.trace ++ [.read port v] }

/-- `ret`, with the address it goes to. -/
def ret (s : Driver) : U32 × Driver := s.pop

/-- `call`, from the instruction before the address `back`. -/
def call (back : U32) (routine : Driver → Fuelled (U32 × Driver)) (s : Driver) :
    Fuelled Driver := do
  let (eip, s) ← routine (s.push back)
  if eip = back then pure s else never

/-- The store of a byte to memory. -/
def store8 (s : Driver) (p : U32) (v : U8) : Driver :=
  { s with mem := Function.update s.mem p v }

end Driver

/-! ### The constants of the file -/

/-- `status_port`. -/
def statusPort : U16 := 0x64

/-- `kbd_cmd_buf`. -/
def kbdCmdBuf : U16 := 0x64

/-- `kbd_data_buf`. -/
def kbdDataBuf : U16 := 0x60

/-- `out_buf_full`. -/
def outBufFull : U8 := 0x01

/-- `inpt_buf_full`. -/
def inptBufFull : U8 := 0x02

/-- `k_8042_read_cmd`. -/
def k8042ReadCmd : U8 := 0x20

/-- `k_8042_write_cmd`. -/
def k8042WriteCmd : U8 := 0x60

/-- `k_8042_self_test`. -/
def k8042SelfTest : U8 := 0xAA

/-- `k_8042_self_test_res`. -/
def k8042SelfTestRes : U8 := 0x55

/-- `kb_led_cmd`. -/
def kbLedCmd : U8 := 0xED

/-- `kb_scan_code`. -/
def kbScanCode : U8 := 0xF0

/-- `kb_scan_2`. -/
def kbScan2 : U8 := 0x02

/-- `kb_ack`. -/
def kbAck : U8 := 0xFA

namespace Driver

/-! ### The routines -/

variable (dev : Device)

/-- One pass of a waiting loop: `inb`, `test` and `loopnz` or `loopz`, which goes on for a status
that is `busy` until `ecx` has come down to zero. -/
def pollPass (busy : U8 → Bool) (s : Driver) : Fuelled (Driver ⊕ Driver) :=
  let s := s.inb dev statusPort
  let s := { s with ecx := s.ecx - 1 }
  if s.ecx ≠ 0 ∧ busy (low s.eax) = true then pure (.inl s) else pure (.inr s)

/-- What the two waiting routines have in common. -/
def waitFor (busy : U8 → Bool) (s : Driver) : Fuelled (U32 × Driver) := do
  let s := s.push s.ecx
  let s := s.push s.eax
  let s := { s with ecx := Machine.withAx s.ecx 0 }
  let s ← loop (pollPass dev busy) s
  let (eax, s) := s.pop
  let s := { s with eax }
  let (ecx, s) := s.pop
  let s := { s with ecx }
  pure s.ret

/-- The input buffer of the controller is full: it has not taken the last byte written yet. -/
def inputFull (status : U8) : Bool := status &&& inptBufFull != 0

/-- The output buffer of the controller is empty: it has no byte to be read yet. -/
def outputEmpty (status : U8) : Bool := status &&& outBufFull == 0

/-- `wait_for_ip_buf_free`. -/
def waitForIpBufFree : Driver → Fuelled (U32 × Driver) := waitFor dev inputFull

/-- `wait_for_data_in_output_buf`. -/
def waitForDataInOutputBuf : Driver → Fuelled (U32 × Driver) := waitFor dev outputEmpty

/-- `init_kbd_error`, which the routines jump to. -/
def initKbdError (s : Driver) : U32 × Driver :=
  { s with eax := 0xF1 }.ret

/-- `read_byte_from_dat_buf`. The return addresses of the calls of the file are those of `site`, in
the order of the file. -/
def readByteFromDatBuf (site : ℕ → U32) (s : Driver) : Fuelled (U32 × Driver) := do
  let s ← s.call (site 13) (waitForDataInOutputBuf dev)
  let s := s.inb dev kbdDataBuf
  pure s.ret

/-- `send_command_and_data_to_kbd_wait_ack`. -/
def sendCommandAndDataToKbdWaitAck (site : ℕ → U32) (s : Driver) : Fuelled (U32 × Driver) := do
  let s ← s.call (site 15) (waitForIpBufFree dev)
  let s := s.outb kbdDataBuf
  let s ← s.call (site 16) (waitForDataInOutputBuf dev)
  let s := s.inb dev kbdDataBuf
  if low s.eax ≠ kbAck then pure s.initKbdError
  else
    let s := s.movAl (low s.ebx)
    let s := s.outb kbdDataBuf
    let s ← s.call (site 17) (waitForDataInOutputBuf dev)
    let s := s.inb dev kbdDataBuf
    if low s.eax ≠ kbAck then pure s.initKbdError else pure s.ret

/-- `select_scan_code_2`. -/
def selectScanCode2 (site : ℕ → U32) (s : Driver) : Fuelled (U32 × Driver) := do
  let s := s.push s.ebx
  let s := s.push s.ecx
  let s := s.movAl kbScanCode
  let s := s.movBl kbScan2
  let s ← s.call (site 14) (sendCommandAndDataToKbdWaitAck dev site)
  let (ecx, s) := s.pop
  let s := { s with ecx }
  let (ebx, s) := s.pop
  let s := { s with ebx }
  pure s.ret

/-- The command byte of the controller is read, changed and written back, with the changed byte in
`bl`: what `init_kbd`, `disable_keyboard_int` and `enable_keyboard_int` have in common. The calls
are the four from the number `first` on. -/
def changeCommandByte (site : ℕ → U32) (first : ℕ) (change : U8 → U8) (s : Driver) :
    Fuelled Driver := do
  let s ← s.call (site first) (waitForIpBufFree dev)
  let s := s.movAl k8042ReadCmd
  let s := s.outb kbdCmdBuf
  let s ← s.call (site (first + 1)) (waitForDataInOutputBuf dev)
  let s := s.inb dev kbdDataBuf
  let s := s.movAl (change (low s.eax))
  let s := s.movBl (low s.eax)
  let s ← s.call (site (first + 2)) (waitForIpBufFree dev)
  let s := s.movAl k8042WriteCmd
  let s := s.outb kbdCmdBuf
  let s ← s.call (site (first + 3)) (waitForIpBufFree dev)
  let s := s.movAl (low s.ebx)
  pure (s.outb kbdDataBuf)

/-- `and $~0x01, %al`. -/
def clearInterrupt (commandByte : U8) : U8 := commandByte &&& ~~~0x01

/-- `or $0x01, %al`. -/
def setInterrupt (commandByte : U8) : U8 := commandByte ||| 0x01

/-- `init_kbd`. -/
def initKbd (site : ℕ → U32) (kbdStatus : U32) (s : Driver) : Fuelled (U32 × Driver) := do
  let s := s.push s.ebx
  let s ← s.changeCommandByte dev site 0 clearInterrupt
  let s ← s.call (site 4) (waitForIpBufFree dev)
  let s := s.movAl k8042SelfTest
  let s := s.outb kbdCmdBuf
  let s ← s.call (site 5) (waitForDataInOutputBuf dev)
  let s := s.inb dev kbdDataBuf
  if low s.eax ≠ k8042SelfTestRes then pure s.initKbdError
  else
    let s := s.movAl kbLedCmd
    let s := s.movBl 0x07
    let s ← s.call (site 6) (sendCommandAndDataToKbdWaitAck dev site)
    let s := s.movAl kbLedCmd
    let s := s.movBl 0x00
    let s ← s.call (site 7) (sendCommandAndDataToKbdWaitAck dev site)
    let s := s.movAl 0
    let s := s.store8 kbdStatus (low s.eax)
    let s ← s.call (site 8) (selectScanCode2 dev site)
    let s ← s.changeCommandByte dev site 9 setInterrupt
    let s := { s with eax := 0 }
    let (ebx, s) := s.pop
    let s := { s with ebx }
    pure s.ret

/-- What `disable_keyboard_int` and `enable_keyboard_int` have in common. -/
def keyboardInt (site : ℕ → U32) (first : ℕ) (change : U8 → U8) (s : Driver) :
    Fuelled (U32 × Driver) := do
  let s := s.push s.eax
  let s := s.push s.ebx
  let s ← s.changeCommandByte dev site first change
  let (ebx, s) := s.pop
  let s := { s with ebx }
  let (eax, s) := s.pop
  let s := { s with eax }
  pure s.ret

/-- `disable_keyboard_int`. -/
def disableKeyboardInt (site : ℕ → U32) : Driver → Fuelled (U32 × Driver) :=
  keyboardInt dev site 18 clearInterrupt

/-- `enable_keyboard_int`. -/
def enableKeyboardInt (site : ℕ → U32) : Driver → Fuelled (U32 × Driver) :=
  keyboardInt dev site 22 setInterrupt

/-! ### Waiting -/

/-- How often a loop looks that counts `ecx` down to zero. -/
def pollCount (ecx : U32) : ℕ := if ecx = 0 then 2 ^ 32 else ecx.toNat

/-- How often the waiting routines look: once for each number that `ecx` has with its lower half
cleared, and as often as it has values where the upper half is zero too. -/
def pollBudget (ecx : U32) : ℕ := pollCount (Machine.withAx ecx 0)

theorem pollCount_pos (ecx : U32) : 0 < pollCount ecx := by
  rw [pollCount]
  split
  · decide
  · rename_i h
    exact Nat.pos_of_ne_zero fun h0 ↦ h (BitVec.eq_of_toNat_eq h0)

theorem pollCount_sub_one {ecx : U32} (h : ecx - 1 ≠ 0) :
    pollCount ecx = pollCount (ecx - 1) + 1 := by
  rw [pollCount, pollCount, if_neg h]
  split <;> bv_omega

theorem pollCount_of_sub_one {ecx : U32} (h : ecx - 1 = 0) : pollCount ecx = 1 := by
  rw [pollCount]
  split <;> bv_omega

/-- The state after the status port was read and `ecx` counted down. -/
def looked (s : Driver) : Driver :=
  { s.inb dev statusPort with ecx := s.ecx - 1 }

theorem returns_pollPass (busy : U8 → Bool) (s : Driver) : (pollPass dev busy s).Returns
    (if s.ecx - 1 ≠ 0 ∧ busy (dev s.trace statusPort) = true then .inl (s.looked dev)
      else .inr (s.looked dev)) := by
  have hlow := low_withLow s.eax (dev s.trace statusPort)
  rw [pollPass, inb]
  dsimp only
  rw [hlow]
  split
  · exact returns_pure _
  · exact returns_pure _

/-- **The waiting loop** ends, has changed `eax` and `ecx` only, and has read the status port. -/
theorem returns_pollLoop (busy : U8 → Bool) (n : ℕ) : ∀ s : Driver, pollCount s.ecx = n →
    ∃ eax ecx statuses, Polled busy n statuses ∧
      dev.Answers s.trace (reads statusPort statuses) ∧ (loop (pollPass dev busy) s).Returns
        { s with eax, ecx, trace := s.trace ++ reads statusPort statuses } := by
  induction n with
  | zero => exact fun s hs ↦ absurd hs (Nat.ne_of_gt (pollCount_pos s.ecx))
  | succ n ih =>
    intro s hs
    have hpass := returns_pollPass dev busy s
    by_cases hagain : s.ecx - 1 ≠ 0 ∧ busy (dev s.trace statusPort) = true
    · rw [if_pos hagain] at hpass
      have hcount := pollCount_sub_one hagain.1
      obtain ⟨eax, ecx, vs, hpolled, hanswers, hret⟩ := ih (s.looked dev)
        (Nat.succ.inj (hcount.symm.trans hs))
      refine ⟨eax, ecx, dev s.trace statusPort :: vs, hpolled.cons hagain.2, ⟨rfl, hanswers⟩, ?_⟩
      have htrace : (s.looked dev).trace ++ reads statusPort vs =
          s.trace ++ reads statusPort (dev s.trace statusPort :: vs) := List.append_assoc ..
      rw [htrace] at hret
      exact returns_loop_of_again hpass hret
    · rw [if_neg hagain] at hpass
      refine ⟨_, _, [dev s.trace statusPort], ?_, ⟨rfl, trivial⟩, returns_loop_of_leave hpass⟩
      refine Polled.single n.succ_pos ?_
      by_cases hbusy : busy (dev s.trace statusPort) = true
      · have hone := pollCount_of_sub_one (of_not_not fun h ↦ hagain ⟨h, hbusy⟩)
        exact Or.inr (hs.symm.trans hone)
      · exact Or.inl (Bool.eq_false_iff.2 hbusy)

/-! ### What a routine leaves alone -/

/-- From `s` to `s'` the registers have changed by `effect`, but not the stack pointer; memory has
changed below the stack pointer only, not further down than `depth` bytes; and the events have gone
over the ports, with the answers of the device. -/
structure Ran (depth : ℕ) (s : Driver) (effect : Regs → Regs) (events : List PortEvent)
    (s' : Driver) : Prop where
  regs_eq : s'.toRegs = effect s.toRegs
  esp_eq : s'.esp = s.esp
  mem_eq : ∀ q, ¬ Mem.InRegion (s.esp - BitVec.ofNat 32 depth) depth q → s'.mem q = s.mem q
  trace_eq : s'.trace = s.trace ++ events
  answers : dev.Answers s.trace events

namespace Ran

variable {dev : Device} {depth : ℕ} {s s' s'' : Driver} {effect effect' : Regs → Regs}
  {events events' : List PortEvent}

/-- One after the other. -/
theorem trans (h : Ran dev depth s effect events s') (h' : Ran dev depth s' effect' events' s'') :
    Ran dev depth s (fun r ↦ effect' (effect r)) (events ++ events') s'' where
  regs_eq := by rw [h'.regs_eq, h.regs_eq]
  esp_eq := h'.esp_eq.trans h.esp_eq
  mem_eq q hq := by rw [h'.mem_eq q (by rwa [h.esp_eq]), h.mem_eq q hq]
  trace_eq := by rw [h'.trace_eq, h.trace_eq, List.append_assoc]
  answers := Device.answers_append_iff.2 ⟨h.answers, h.trace_eq ▸ h'.answers⟩

/-- A deeper bound. -/
theorem mono {n : ℕ} (h : Ran dev depth s effect events s') (hle : depth ≤ n) :
    Ran dev n s effect events s' where
  regs_eq := h.regs_eq
  esp_eq := h.esp_eq
  mem_eq q hq := h.mem_eq q fun hin ↦ hq (Mem.inRegion_sub_mono hle hin)
  trace_eq := h.trace_eq
  answers := h.answers

/-- What stands on the stack stays there. -/
theorem wordsAt {ws : List U32} (h : Ran dev depth s effect events s') (hdepth : depth ≤ 2 ^ 31)
    (hws : Mem.WordsAt s.mem s.esp ws) (hlen : 4 * ws.length ≤ 2 ^ 31) :
    Mem.WordsAt s'.mem s.esp ws :=
  hws.of_agree (by omega) fun q hq ↦ h.mem_eq q fun hin ↦ by
    rw [Mem.InRegion] at hq hin
    bv_omega

end Ran

/-- A routine that pushed words, and what ran below them: the words still stand there. -/
theorem Ran.framed {dev : Device} {depth : ℕ} {s t s' : Driver} {effect : Regs → Regs}
    {events : List PortEvent} {ws : List U32} (h : Ran dev depth t effect events s')
    (hpushed : Machine.Pushed s.toMachine t.toMachine ws)
    (hdepth : depth + 4 * ws.length ≤ 2 ^ 30) :
    Mem.WordsAt s'.mem s'.esp ws ∧ ∀ q, ¬ Mem.InRegion
      (s.esp - BitVec.ofNat 32 (depth + 4 * ws.length)) (depth + 4 * ws.length) q →
        s'.mem q = s.mem q := by
  have hesp : t.esp = s.esp - BitVec.ofNat 32 (4 * ws.length) := hpushed.esp_eq
  refine ⟨?_, fun q hq ↦ ?_⟩
  · rw [h.esp_eq]
    exact h.wordsAt (by omega) hpushed.words (by omega)
  · rw [h.mem_eq q fun hin ↦ hq (Mem.inRegion_sub_sub (hesp ▸ hin)),
      hpushed.mem_eq q fun hin ↦ hq (Mem.inRegion_sub_mono (Nat.le_add_left _ _) ?_)]
    rw [← hpushed.esp_eq]
    exact hin

/-- `pop` takes off what stands on top. -/
theorem pop_eq {s : Driver} {w : U32} {ws : List U32} (h : Mem.WordsAt s.mem s.esp (w :: ws)) :
    s.pop = (w, { s with esp := s.esp + 4 }) := by
  rw [pop, Machine.pop, h.1]

/-- A call of a routine that comes back. -/
theorem call_returns {back : U32} {routine : Driver → Fuelled (U32 × Driver)} {s s' : Driver}
    (h : (routine (s.push back)).Returns (back, s')) : (s.call back routine).Returns s' := by
  refine h.bind ?_
  show (if back = back then pure s' else never).Returns s'
  rw [if_pos rfl]
  exact returns_pure s'

/-- **The waiting routines** come back to where they were called from with everything as it was, and
have looked at the status. -/
theorem call_waitFor (busy : U8 → Bool) (back : U32) (s : Driver) :
    ∃ s' statuses, (s.call back (waitFor dev busy)).Returns s' ∧
      Polled busy (pollBudget s.ecx) statuses ∧
      Ran dev 12 s id (reads statusPort statuses) s' := by
  let t := { ((s.push back).push s.ecx).push s.eax with ecx := Machine.withAx s.ecx 0 }
  have hpushed : Machine.Pushed s.toMachine t.toMachine [s.eax, s.ecx, back] :=
    ((((Machine.Pushed.refl s.toMachine).push (by simp) back).push (by simp) s.ecx).push
      (by simp) s.eax).congr rfl rfl
  obtain ⟨eax, ecx, statuses, hpolled, hanswers, hloop⟩ := returns_pollLoop dev busy _ t rfl
  let u : Driver := { t with eax, ecx, trace := t.trace ++ reads statusPort statuses }
  obtain ⟨heax, hecx, hback, -⟩ := hpushed.words
  have hesp : t.esp + 12 = s.esp := by
    rw [hpushed.esp_eq]
    exact BitVec.sub_add_cancel s.esp 12
  refine ⟨{ s with mem := t.mem, trace := s.trace ++ reads statusPort statuses }, statuses, ?_,
    hpolled, rfl, rfl, fun q hq ↦ hpushed.mem_eq q ?_, rfl, hanswers⟩
  · have hwait : (waitFor dev busy (s.push back)).Returns
        (back, { s with mem := t.mem, trace := s.trace ++ reads statusPort statuses }) := by
      refine hloop.bind (returns_pure_iff.2 ?_)
      have hesp' : t.esp + 4 + 4 + 4 = s.esp := by
        rw [← hesp, BitVec.add_assoc, BitVec.add_assoc]
        rfl
      simp only [ret, pop, Machine.pop]
      rw [heax, hecx, hback, hesp']
      rfl
    exact call_returns hwait
  · rw [hpushed.esp_eq]
    exact hq

/-! ### The command byte -/

/-- The command byte is read as `v` and written as `v'`, each time after a look at the status. -/
inductive CommandByteEvents (budget : ℕ) (v v' : U8) : List PortEvent → Prop
  | intro {w₁ w₂ w₃ w₄ : List U8} (h₁ : Polled inputFull budget w₁)
      (h₂ : Polled outputEmpty budget w₂) (h₃ : Polled inputFull budget w₃)
      (h₄ : Polled inputFull budget w₄) :
      CommandByteEvents budget v v' (reads statusPort w₁ ++ [.write kbdCmdBuf k8042ReadCmd] ++
        reads statusPort w₂ ++ [.read kbdDataBuf v] ++ reads statusPort w₃ ++
        [.write kbdCmdBuf k8042WriteCmd] ++ reads statusPort w₄ ++ [.write kbdDataBuf v'])

section Instructions

variable (depth : ℕ) (s : Driver)

/-- `mov v, %al`. -/
def toAl (v : U8) (r : Regs) : Regs := { r with eax := withLow r.eax v }

/-- `mov %al, %bl`. -/
def alToBl (r : Regs) : Regs := { r with ebx := withLow r.ebx (low r.eax) }

/-- `mov %bl, %al`. -/
def blToAl (r : Regs) : Regs := { r with eax := withLow r.eax (low r.ebx) }

theorem ran_inb (port : U16) :
    Ran dev depth s (toAl (dev s.trace port)) [.read port (dev s.trace port)] (s.inb dev port) :=
  ⟨rfl, rfl, fun _ _ ↦ rfl, rfl, rfl, trivial⟩

theorem ran_outb (port : U16) : Ran dev depth s id [.write port (low s.eax)] (s.outb port) :=
  ⟨rfl, rfl, fun _ _ ↦ rfl, rfl, trivial⟩

theorem ran_change (change : U8 → U8) :
    Ran dev depth s (fun r ↦ toAl (change (low r.eax)) r) [] (s.movAl (change (low s.eax))) :=
  ⟨rfl, rfl, fun _ _ ↦ rfl, (List.append_nil _).symm, trivial⟩

theorem ran_alToBl : Ran dev depth s alToBl [] (s.movBl (low s.eax)) :=
  ⟨rfl, rfl, fun _ _ ↦ rfl, (List.append_nil _).symm, trivial⟩

/-- `mov v, %al` and `outb %al, port`. -/
theorem ran_send (v : U8) (port : U16) :
    Ran dev depth s (toAl v) [.write port v] ((s.movAl v).outb port) := by
  refine ⟨rfl, rfl, fun _ _ ↦ rfl, ?_, trivial⟩
  have hlow : low (s.movAl v).eax = v := low_withLow s.eax v
  rw [outb, hlow]
  rfl

/-- `mov %bl, %al` and `outb %al, port`. -/
theorem ran_sendBl (port : U16) : Ran dev depth s blToAl [.write port (low s.ebx)]
    ((s.movAl (low s.ebx)).outb port) := by
  have h := ran_send dev depth s (low s.ebx) port
  exact ⟨rfl, h.esp_eq, h.mem_eq, h.trace_eq, h.answers⟩

end Instructions

/-- **The command byte is changed**: `bl` keeps it. -/
theorem returns_changeCommandByte (site : ℕ → U32) (first : ℕ) (change : U8 → U8) (s : Driver) :
    ∃ s' v events, (s.changeCommandByte dev site first change).Returns s' ∧
      CommandByteEvents (pollBudget s.ecx) v (change v) events ∧
      Ran dev 12 s (fun r ↦ { r with
        eax := withLow r.eax (change v), ebx := withLow r.ebx (change v) }) events s' := by
  obtain ⟨s₁, w₁, hret₁, hw₁, hran₁⟩ := call_waitFor dev inputFull (site first) s
  have hrun₁ := hran₁.trans (ran_send dev 12 s₁ k8042ReadCmd kbdCmdBuf)
  obtain ⟨s₂, w₂, hret₂, hw₂, hran₂⟩ := call_waitFor dev outputEmpty (site (first + 1)) _
  let t₂ := s₂.inb dev kbdDataBuf
  let t₃ := t₂.movAl (change (low t₂.eax))
  have hrun₂ := (((hrun₁.trans hran₂).trans (ran_inb dev 12 s₂ kbdDataBuf)).trans
    (ran_change dev 12 t₂ change)).trans (ran_alToBl dev 12 t₃)
  obtain ⟨s₃, w₃, hret₃, hw₃, hran₃⟩ := call_waitFor dev inputFull (site (first + 2)) _
  have hrun₃ := (hrun₂.trans hran₃).trans (ran_send dev 12 s₃ k8042WriteCmd kbdCmdBuf)
  obtain ⟨s₄, w₄, hret₄, hw₄, hran₄⟩ := call_waitFor dev inputFull (site (first + 3)) _
  have hrun₄ := (hrun₃.trans hran₄).trans (ran_sendBl dev 12 s₄ kbdDataBuf)
  have hbudget : ∀ {effect : Regs → Regs} {events : List PortEvent} {t : Driver},
      Ran dev 12 s effect events t → (effect s.toRegs).ecx = s.ecx →
      pollBudget t.ecx = pollBudget s.ecx := fun h hecx ↦
    congrArg pollBudget ((congrArg Regs.ecx h.regs_eq).trans hecx)
  rw [hbudget hrun₁ rfl] at hw₂
  rw [hbudget hrun₂ rfl] at hw₃
  rw [hbudget hrun₃ rfl] at hw₄
  have hbl : low s₄.ebx = change (dev s₂.trace kbdDataBuf) := by
    rw [show s₄.ebx = _ from congrArg Regs.ebx (hrun₃.trans hran₄).regs_eq]
    simp only [id, toAl, alToBl, low_withLow]
  have hsent : (s₄.movAl (low s₄.ebx)).outb kbdDataBuf =
      (s₄.movAl (change (dev s₂.trace kbdDataBuf))).outb kbdDataBuf := by rw [hbl]
  simp only [List.append_nil, hbl] at hrun₄
  refine ⟨_, dev s₂.trace kbdDataBuf, _, hret₁.bind (hret₂.bind (hret₃.bind (hret₄.bind
    (returns_pure_iff.2 hsent)))), .intro hw₁ hw₂ hw₃ hw₄, ?_⟩
  have heffect := hrun₄.regs_eq
  simp only [id, toAl, alToBl, blToAl, low_withLow, withLow_withLow] at heffect
  exact ⟨heffect, hrun₄.esp_eq, hrun₄.mem_eq, hrun₄.trace_eq, hrun₄.answers⟩

/-- **The interrupt of the controller is turned on or off** with the registers and the stack of the
caller as they were. -/
theorem call_keyboardInt (site : ℕ → U32) (first : ℕ) (change : U8 → U8) (back : U32) (s : Driver) :
    ∃ s' v events, (s.call back (keyboardInt dev site first change)).Returns s' ∧
      CommandByteEvents (pollBudget s.ecx) v (change v) events ∧ Ran dev 24 s id events s' := by
  let t := ((s.push back).push s.eax).push s.ebx
  have hpushed : Machine.Pushed s.toMachine t.toMachine [s.ebx, s.eax, back] :=
    (((Machine.Pushed.refl s.toMachine).push (by simp) back).push (by simp) s.eax).push
      (by simp) s.ebx
  obtain ⟨s₁, v, events, hret, hevents, hran⟩ := returns_changeCommandByte dev site first change t
  obtain ⟨⟨hebx, heax, hback, -⟩, hmem⟩ := hran.framed hpushed (by simp)
  have hesp : s₁.esp + 4 + 4 + 4 = s.esp := by
    rw [hran.esp_eq, show t.esp = s.esp - 4 - 4 - 4 from rfl]
    bv_omega
  refine ⟨{ s with mem := s₁.mem, trace := s.trace ++ events }, v, events, call_returns ?_, hevents,
    rfl, rfl, hmem, rfl, hran.answers⟩
  refine hret.bind (returns_pure_iff.2 ?_)
  simp only [ret, pop, Machine.pop]
  rw [heax, hebx, hback, hesp, hran.trace_eq]
  simp only [hran.regs_eq]
  rfl

/-! ### Commands to the keyboard -/

/-- A command with a byte of data goes to the keyboard, which answers either with a byte. The data
is not sent if the command is not acknowledged; when it is sent, the status is not looked at. -/
inductive SendEvents (budget : ℕ) (command data : U8) : List PortEvent → Prop
  | refused {w₁ w₂ : List U8} {answer : U8} (h₁ : Polled inputFull budget w₁)
      (h₂ : Polled outputEmpty budget w₂) (hanswer : answer ≠ kbAck) :
      SendEvents budget command data (reads statusPort w₁ ++ [.write kbdDataBuf command] ++
        reads statusPort w₂ ++ [.read kbdDataBuf answer])
  | sent {w₁ w₂ w₃ : List U8} (answer : U8) (h₁ : Polled inputFull budget w₁)
      (h₂ : Polled outputEmpty budget w₂) (h₃ : Polled outputEmpty budget w₃) :
      SendEvents budget command data (reads statusPort w₁ ++ [.write kbdDataBuf command] ++
        reads statusPort w₂ ++ [.read kbdDataBuf kbAck] ++ [.write kbdDataBuf data] ++
        reads statusPort w₃ ++ [.read kbdDataBuf answer])

/-- `eax` is not what it was. -/
def intoEax (v : U32) (r : Regs) : Regs := { r with eax := v }

theorem Ran.setEax {dev : Device} {depth : ℕ} {s s' : Driver} {effect : Regs → Regs}
    {events : List PortEvent} (h : Ran dev depth s effect events s') (v : U32) :
    Ran dev depth s (fun r ↦ intoEax v (effect r)) events { s' with eax := v } where
  regs_eq := by rw [← h.regs_eq]; rfl
  esp_eq := h.esp_eq
  mem_eq := h.mem_eq
  trace_eq := h.trace_eq
  answers := h.answers

/-- A routine that changes no register but `eax`, above its return address, ends with `ret`. -/
theorem call_of_ran {dev : Device} {depth : ℕ} {s s₁ : Driver} {back : U32} {effect : Regs → Regs}
    {events : List PortEvent} {routine : Driver → Fuelled (U32 × Driver)} (hdepth : depth ≤ 2 ^ 20)
    (hran : Ran dev depth (s.push back) effect events s₁)
    (heffect : ∀ r, effect r = intoEax (effect r).eax r)
    (hret : (routine (s.push back)).Returns s₁.ret) :
    ∃ s' e, (s.call back routine).Returns s' ∧ Ran dev (depth + 4) s (intoEax e) events s' := by
  have hpushed : Machine.Pushed s.toMachine (s.push back).toMachine [back] :=
    (Machine.Pushed.refl s.toMachine).push (by simp) back
  obtain ⟨hwords, hmem⟩ := hran.framed hpushed (by simp; omega)
  have hesp : s₁.esp + 4 = s.esp := by
    rw [hran.esp_eq]
    exact BitVec.sub_add_cancel s.esp 4
  have hregs := hran.regs_eq
  rw [heffect] at hregs
  rw [ret, pop_eq hwords] at hret
  refine ⟨_, (effect (s.push back).toRegs).eax, call_returns hret, ?_, hesp, hmem, hran.trace_eq,
    hran.answers⟩
  simp only [hregs] at hesp ⊢
  rw [hesp]
  rfl

/-- **A command is sent**, and the caller finds only `eax` changed. -/
theorem call_sendCommandAndDataToKbdWaitAck (site : ℕ → U32) (back : U32) (s : Driver) :
    ∃ s' e events, (s.call back (sendCommandAndDataToKbdWaitAck dev site)).Returns s' ∧
      SendEvents (pollBudget s.ecx) (low s.eax) (low s.ebx) events ∧
      Ran dev 16 s (intoEax e) events s' := by
  obtain ⟨s₁, w₁, hret₁, hw₁, hran₁⟩ := call_waitFor dev inputFull (site 15) (s.push back)
  have hal : low s₁.eax = low s.eax := by rw [hran₁.regs_eq]; rfl
  have hrun₁ := hran₁.trans (ran_outb dev 12 s₁ kbdDataBuf)
  obtain ⟨s₂, w₂, hret₂, hw₂, hran₂⟩ :=
    call_waitFor dev outputEmpty (site 16) (s₁.outb kbdDataBuf)
  have hecx₂ : (s₁.outb kbdDataBuf).ecx = s.ecx := by rw [hrun₁.regs_eq]; rfl
  have hrun₂ := (hrun₁.trans hran₂).trans (ran_inb dev 12 s₂ kbdDataBuf)
  have hanswer : low (s₂.inb dev kbdDataBuf).eax = dev s₂.trace kbdDataBuf := low_withLow _ _
  rw [hal] at hrun₂
  rw [hecx₂] at hw₂
  by_cases hack : dev s₂.trace kbdDataBuf ≠ kbAck
  · obtain ⟨s', e, hret, hran⟩ := @call_of_ran _ _ s _ back _ _
      (sendCommandAndDataToKbdWaitAck dev site) (by decide) (hrun₂.setEax 0xF1) (fun _ ↦ rfl)
      (hret₁.bind (hret₂.bind (by
        dsimp only
        rw [hanswer, if_pos hack]
        exact returns_pure _)))
    exact ⟨s', e, _, hret, .refused hw₁ hw₂ hack, hran⟩
  · have hrun₃ := hrun₂.trans (ran_sendBl dev 12 _ kbdDataBuf)
    obtain ⟨s₃, w₃, hret₃, hw₃, hran₃⟩ := call_waitFor dev outputEmpty (site 17) _
    have hrun₄ := (hrun₃.trans hran₃).trans (ran_inb dev 12 s₃ kbdDataBuf)
    have hebx : low (s₂.inb dev kbdDataBuf).ebx = low s.ebx := by rw [hrun₂.regs_eq]; rfl
    have hecx₃ : (((s₂.inb dev kbdDataBuf).movAl (low (s₂.inb dev kbdDataBuf).ebx)).outb
      kbdDataBuf).ecx = s.ecx := by rw [hrun₃.regs_eq]; rfl
    have hlast : low (s₃.inb dev kbdDataBuf).eax = dev s₃.trace kbdDataBuf := low_withLow _ _
    rw [hecx₃] at hw₃
    rw [hebx, of_not_not hack] at hrun₄
    have hevents : SendEvents (pollBudget s.ecx) (low s.eax) (low s.ebx) _ :=
      .sent (dev s₃.trace kbdDataBuf) hw₁ hw₂ hw₃
    by_cases hack' : dev s₃.trace kbdDataBuf ≠ kbAck
    · obtain ⟨s', e, hret, hran⟩ := @call_of_ran _ _ s _ back _ _
        (sendCommandAndDataToKbdWaitAck dev site) (by decide) (hrun₄.setEax 0xF1) (fun _ ↦ rfl)
        (hret₁.bind (hret₂.bind (by
          dsimp only
          rw [hanswer, if_neg hack]
          refine hret₃.bind ?_
          rw [hlast, if_pos hack']
          exact returns_pure _)))
      exact ⟨s', e, _, hret, hevents, hran⟩
    · obtain ⟨s', e, hret, hran⟩ := @call_of_ran _ _ s _ back _ _
        (sendCommandAndDataToKbdWaitAck dev site) (by decide) hrun₄ (fun _ ↦ rfl)
        (hret₁.bind (hret₂.bind (by
          dsimp only
          rw [hanswer, if_neg hack]
          refine hret₃.bind ?_
          rw [hlast, if_neg hack']
          exact returns_pure _)))
      exact ⟨s', e, _, hret, hevents, hran⟩

/-- **The scan code set is selected**, and the caller finds only `eax` changed. -/
theorem call_selectScanCode2 (site : ℕ → U32) (back : U32) (s : Driver) :
    ∃ s' e events, (s.call back (selectScanCode2 dev site)).Returns s' ∧
      SendEvents (pollBudget s.ecx) kbScanCode kbScan2 events ∧
      Ran dev 28 s (intoEax e) events s' := by
  let t := ((s.push back).push s.ebx).push s.ecx
  have hpushed : Machine.Pushed s.toMachine t.toMachine [s.ecx, s.ebx, back] :=
    (((Machine.Pushed.refl s.toMachine).push (by simp) back).push (by simp) s.ebx).push
      (by simp) s.ecx
  let t' := (t.movAl kbScanCode).movBl kbScan2
  have hstart : Ran dev 16 t (fun r ↦ { r with
      eax := withLow r.eax kbScanCode, ebx := withLow r.ebx kbScan2 }) [] t' :=
    ⟨rfl, rfl, fun _ _ ↦ rfl, (List.append_nil _).symm, trivial⟩
  obtain ⟨s₁, e, events, hret, hevents, hran⟩ :=
    call_sendCommandAndDataToKbdWaitAck dev site (site 14) t'
  have hal : low t'.eax = kbScanCode := low_withLow _ _
  have hbl : low t'.ebx = kbScan2 := low_withLow _ _
  rw [hal, hbl] at hevents
  have hrun := hstart.trans hran
  rw [List.nil_append] at hrun
  obtain ⟨⟨hecx, hebx, hback, -⟩, hmem⟩ := hrun.framed hpushed (by simp)
  have hesp : s₁.esp + 4 + 4 + 4 = s.esp := by
    rw [hrun.esp_eq, show t.esp = s.esp - 4 - 4 - 4 from rfl]
    bv_omega
  refine ⟨{ s with eax := e, mem := s₁.mem, trace := s.trace ++ events }, e, events,
    call_returns ?_, hevents, rfl, rfl, hmem, rfl, hrun.answers⟩
  refine hret.bind (returns_pure_iff.2 ?_)
  simp only [ret, pop, Machine.pop]
  rw [hecx, hebx, hback, hesp, hrun.trace_eq]
  simp only [hrun.regs_eq]
  rfl

/-! ### The initialization -/

/-- The interrupt is turned off and the controller tests itself, with the answer that was read. -/
inductive SelfTestEvents (budget : ℕ) (answer : U8) : List PortEvent → Prop
  | intro {v : U8} {events : List PortEvent} {w₁ w₂ : List U8}
      (h : CommandByteEvents budget v (clearInterrupt v) events)
      (h₁ : Polled inputFull budget w₁) (h₂ : Polled outputEmpty budget w₂) :
      SelfTestEvents budget answer (events ++ reads statusPort w₁ ++
        [.write kbdCmdBuf k8042SelfTest] ++ reads statusPort w₂ ++ [.read kbdDataBuf answer])

/-- What goes over the ports after the test was passed: the lights go on and off, the scan code set
is selected and the interrupt is turned on. -/
inductive SetUpEvents (budget : ℕ) : List PortEvent → Prop
  | intro {v : U8} {e₁ e₂ e₃ e₄ : List PortEvent} (h₁ : SendEvents budget kbLedCmd 0x07 e₁)
      (h₂ : SendEvents budget kbLedCmd 0x00 e₂) (h₃ : SendEvents budget kbScanCode kbScan2 e₃)
      (h₄ : CommandByteEvents budget v (setInterrupt v) e₄) :
      SetUpEvents budget (e₁ ++ e₂ ++ e₃ ++ e₄)

/-- The first half of `init_kbd`, up to the answer to the self test. -/
theorem returns_selfTest (site : ℕ → U32) (s : Driver) :
    ∃ s₁ s₂ s₃ v answer events, (s.changeCommandByte dev site 0 clearInterrupt).Returns s₁ ∧
      (s₁.call (site 4) (waitForIpBufFree dev)).Returns s₂ ∧
      (((s₂.movAl k8042SelfTest).outb kbdCmdBuf).call (site 5)
        (waitForDataInOutputBuf dev)).Returns s₃ ∧
      low (s₃.inb dev kbdDataBuf).eax = answer ∧ SelfTestEvents (pollBudget s.ecx) answer events ∧
      Ran dev 12 s (fun r ↦ { r with
        eax := withLow r.eax answer, ebx := withLow r.ebx (clearInterrupt v) }) events
        (s₃.inb dev kbdDataBuf) := by
  obtain ⟨s₁, v, events, hret₁, hevents, hran₁⟩ :=
    returns_changeCommandByte dev site 0 clearInterrupt s
  obtain ⟨s₂, w₁, hret₂, hw₁, hran₂⟩ := call_waitFor dev inputFull (site 4) s₁
  have hrun₂ := (hran₁.trans hran₂).trans (ran_send dev 12 s₂ k8042SelfTest kbdCmdBuf)
  obtain ⟨s₃, w₂, hret₃, hw₂, hran₃⟩ := call_waitFor dev outputEmpty (site 5) _
  have hrun₃ := (hrun₂.trans hran₃).trans (ran_inb dev 12 s₃ kbdDataBuf)
  have hecx₁ : s₁.ecx = s.ecx := by rw [hran₁.regs_eq]
  have hecx₂ : ((s₂.movAl k8042SelfTest).outb kbdCmdBuf).ecx = s.ecx := by rw [hrun₂.regs_eq]; rfl
  rw [hecx₁] at hw₁
  rw [hecx₂] at hw₂
  refine ⟨s₁, s₂, s₃, v, dev s₃.trace kbdDataBuf, _, hret₁, hret₂, hret₃, low_withLow _ _,
    .intro hevents hw₁ hw₂, ?_⟩
  have heffect := hrun₃.regs_eq
  simp only [id, toAl, withLow_withLow] at heffect
  exact ⟨heffect, hrun₃.esp_eq, hrun₃.mem_eq, hrun₃.trace_eq, hrun₃.answers⟩

/-- `mov v, %al` and `mov v', %bl`. -/
theorem ran_movAlBl (depth : ℕ) (s : Driver) (v v' : U8) : Ran dev depth s
    (fun r ↦ { r with eax := withLow r.eax v, ebx := withLow r.ebx v' }) []
    ((s.movAl v).movBl v') :=
  ⟨rfl, rfl, fun _ _ ↦ rfl, (List.append_nil _).symm, trivial⟩

/-- The lights go on and off. -/
theorem returns_lights (site : ℕ → U32) (s : Driver) :
    ∃ s₁ s₂ e b e₁ e₂, (((s.movAl kbLedCmd).movBl 0x07).call (site 6)
        (sendCommandAndDataToKbdWaitAck dev site)).Returns s₁ ∧
      (((s₁.movAl kbLedCmd).movBl 0x00).call (site 7)
        (sendCommandAndDataToKbdWaitAck dev site)).Returns s₂ ∧
      SendEvents (pollBudget s.ecx) kbLedCmd 0x07 e₁ ∧
      SendEvents (pollBudget s.ecx) kbLedCmd 0x00 e₂ ∧
      Ran dev 16 s (fun r ↦ { r with eax := e, ebx := withLow r.ebx b }) (e₁ ++ e₂) s₂ := by
  obtain ⟨s₁, e, e₁, hret₁, hevents₁, hran₁⟩ :=
    call_sendCommandAndDataToKbdWaitAck dev site (site 6) ((s.movAl kbLedCmd).movBl 0x07)
  have hrun₁ := ((ran_movAlBl dev 16 s kbLedCmd 0x07).trans hran₁).trans
    (ran_movAlBl dev 16 s₁ kbLedCmd 0x00)
  obtain ⟨s₂, e', e₂, hret₂, hevents₂, hran₂⟩ :=
    call_sendCommandAndDataToKbdWaitAck dev site (site 7) ((s₁.movAl kbLedCmd).movBl 0x00)
  have hecx : ((s₁.movAl kbLedCmd).movBl 0x00).ecx = s.ecx := by rw [hrun₁.regs_eq]; rfl
  have hal : ∀ u : Driver, ∀ v v' : U8, low ((u.movAl v).movBl v').eax = v :=
    fun _ _ _ ↦ low_withLow _ _
  have hbl : ∀ u : Driver, ∀ v v' : U8, low ((u.movAl v).movBl v').ebx = v' :=
    fun _ _ _ ↦ low_withLow _ _
  rw [hal, hbl] at hevents₁ hevents₂
  rw [hecx] at hevents₂
  have hrun₂ := hrun₁.trans hran₂
  refine ⟨s₁, s₂, e', 0x00, e₁, e₂, hret₁, hret₂, hevents₁, hevents₂, ?_⟩
  have heffect := hrun₂.regs_eq
  simp only [intoEax, withLow_withLow] at heffect
  have hall := hrun₂.answers
  rw [List.nil_append, List.append_nil] at hall
  refine ⟨heffect, hrun₂.esp_eq, hrun₂.mem_eq, ?_, hall⟩
  rw [hrun₂.trace_eq, List.nil_append, List.append_nil]

/-- The scan code set is selected and the interrupt is turned on. -/
theorem returns_setUp (site : ℕ → U32) (s : Driver) :
    ∃ s₁ s₂ e b v e₁ e₂, (s.call (site 8) (selectScanCode2 dev site)).Returns s₁ ∧
      (s₁.changeCommandByte dev site 9 setInterrupt).Returns s₂ ∧
      SendEvents (pollBudget s.ecx) kbScanCode kbScan2 e₁ ∧
      CommandByteEvents (pollBudget s.ecx) v (setInterrupt v) e₂ ∧
      Ran dev 28 s (fun r ↦ { r with eax := e, ebx := withLow r.ebx b }) (e₁ ++ e₂) s₂ := by
  obtain ⟨s₁, e, e₁, hret₁, hevents₁, hran₁⟩ := call_selectScanCode2 dev site (site 8) s
  obtain ⟨s₂, v, e₂, hret₂, hevents₂, hran₂⟩ :=
    returns_changeCommandByte dev site 9 setInterrupt s₁
  have hecx : s₁.ecx = s.ecx := by rw [hran₁.regs_eq]; rfl
  rw [hecx] at hevents₂
  have hrun := hran₁.trans (hran₂.mono (n := 28) (by decide))
  exact ⟨s₁, s₂, withLow e (setInterrupt v), setInterrupt v, v, e₁, e₂, hret₁, hret₂, hevents₁,
    hevents₂, hrun⟩

/-- `init_kbd` has come to its end. -/
structure Initialized (kbdStatus : U32) (s s' : Driver) : Prop where
  regs_eq : s'.toRegs = { s.toRegs with eax := 0 }
  status_eq : s'.mem kbdStatus = 0
  mem_eq : ∀ q, ¬ Mem.InRegion (s.esp - 36) 36 q → q ≠ kbdStatus → s'.mem q = s.mem q
  trace_eq : ∃ e₁ e₂, SelfTestEvents (pollBudget s.ecx) k8042SelfTestRes e₁ ∧
    SetUpEvents (pollBudget s.ecx) e₂ ∧ s'.trace = s.trace ++ (e₁ ++ e₂) ∧
    dev.Answers s.trace (e₁ ++ e₂)

/-- `init_kbd` has jumped to `init_kbd_error`, which has left the return address on the stack. -/
structure Astray (back : U32) (s s' : Driver) : Prop where
  eax_eq : s'.eax = 0xF1
  esp_eq : s'.esp = s.esp - 4
  back_eq : s'.mem.load32 s'.esp = back
  trace_eq : ∃ answer events, answer ≠ k8042SelfTestRes ∧
    SelfTestEvents (pollBudget s.ecx) answer events ∧ s'.trace = s.trace ++ events ∧
    dev.Answers s.trace events

/-- **`init_kbd` comes back exactly if the controller passes its test.** Whatever the controller and
the keyboard answer, the routine comes to an end. If the test is answered with 0x55 it comes back to
where it was called from, with 0 for a result and all other registers kept, whether or not the
keyboard took its commands. If not, the address it goes to is what its caller had in `ebx`, and the
stack pointer still points at the return address. -/
theorem initKbd_returns (site : ℕ → U32) (kbdStatus back : U32) (s : Driver)
    (hstatus : ¬ Mem.InRegion (s.esp - 36) 36 kbdStatus) :
    ∃ eip s', (initKbd dev site kbdStatus (s.push back)).Returns (eip, s') ∧
      (eip = back ∧ Initialized dev kbdStatus s s' ∨ eip = s.ebx ∧ Astray dev back s s') := by
  let t := (s.push back).push s.ebx
  have hpushed : Machine.Pushed s.toMachine t.toMachine [s.ebx, back] :=
    ((Machine.Pushed.refl s.toMachine).push (by simp) back).push (by simp) s.ebx
  obtain ⟨s₁, s₂, s₃, v, answer, e₁, hret₁, hret₂, hret₃, hanswer, hevents₁, hran₁⟩ :=
    returns_selfTest dev site t
  by_cases hpassed : answer ≠ k8042SelfTestRes
  · obtain ⟨hwords, -⟩ := hran₁.framed hpushed (by simp)
    have herror : Mem.WordsAt ({ s₃.inb dev kbdDataBuf with eax := 0xF1 } : Driver).mem
        ({ s₃.inb dev kbdDataBuf with eax := 0xF1 } : Driver).esp [s.ebx, back] := hwords
    refine ⟨s.ebx, { s₃.inb dev kbdDataBuf with
      eax := 0xF1, esp := (s₃.inb dev kbdDataBuf).esp + 4 }, ?_, Or.inr ⟨rfl, rfl, ?_,
        hwords.2.1, answer, e₁, hpassed, hevents₁, hran₁.trace_eq, hran₁.answers⟩⟩
    · refine hret₁.bind (hret₂.bind (hret₃.bind ?_))
      dsimp only
      rw [hanswer, if_pos hpassed, initKbdError, ret, pop_eq herror]
      exact returns_pure _
    · show (s₃.inb dev kbdDataBuf).esp + 4 = s.esp - 4
      rw [hran₁.esp_eq]
      exact BitVec.sub_add_cancel (s.esp - 4) 4
  · obtain rfl : answer = k8042SelfTestRes := of_not_not hpassed
    obtain ⟨s₄, s₅, e, b, e₂, e₃, hret₄, hret₅, hevents₂, hevents₃, hran₂⟩ :=
      returns_lights dev site (s₃.inb dev kbdDataBuf)
    have hrun₂ := (hran₁.mono (n := 16) (by decide)).trans hran₂
    let u := (s₅.movAl 0).store8 kbdStatus (low (s₅.movAl 0).eax)
    obtain ⟨s₆, s₇, e', b', v', e₄, e₅, hret₆, hret₇, hevents₄, hevents₅, hran₃⟩ :=
      returns_setUp dev site u
    have hecx₃ : (s₃.inb dev kbdDataBuf).ecx = s.ecx := by rw [hran₁.regs_eq]; rfl
    have hecx₅ : u.ecx = s.ecx := by
      show s₅.ecx = s.ecx
      rw [hrun₂.regs_eq]
      rfl
    rw [hecx₃] at hevents₂ hevents₃
    rw [hecx₅] at hevents₄ hevents₅
    obtain ⟨hwords, hmem⟩ := hrun₂.framed hpushed (by simp)
    have hesp₅ : s₅.esp = s.esp - BitVec.ofNat 32 8 := by
      rw [hrun₂.esp_eq]
      exact hpushed.esp_eq
    have hesp₇ : s₇.esp = s.esp - BitVec.ofNat 32 8 := hran₃.esp_eq.trans hesp₅
    -- the byte that is stored is not one of the words on the stack
    have hstored : ∀ q, q ≠ kbdStatus → u.mem q = s₅.mem q :=
      fun q hq ↦ Function.update_of_ne hq _ _
    have hkept : Mem.WordsAt u.mem u.esp [s.ebx, back] := by
      refine hwords.of_agree (by simp) fun q hq ↦ hstored q fun heq ↦ hstatus ?_
      rw [hesp₅] at hq
      exact heq ▸ Mem.inRegion_sub_mono (by decide) hq
    obtain ⟨hebx, hback, -⟩ := hran₃.wordsAt (by decide) hkept (by simp)
    rw [← hran₃.esp_eq] at hebx hback
    have houtside : ∀ q, ¬ Mem.InRegion (s.esp - 36) 36 q → s₇.mem q = u.mem q := fun q hq ↦ by
      refine hran₃.mem_eq q fun hin ↦ hq ?_
      have hesp : u.esp = s.esp - BitVec.ofNat 32 8 := hesp₅
      rw [hesp] at hin
      have hjoined : Mem.InRegion (s.esp - BitVec.ofNat 32 (28 + 8)) (28 + 8) q :=
        Mem.inRegion_sub_sub hin
      exact hjoined
    have hsetUp : SetUpEvents (pollBudget s.ecx) (e₂ ++ e₃ ++ e₄ ++ e₅) :=
      .intro hevents₂ hevents₃ hevents₄ hevents₅
    refine ⟨back, { s with
      eax := 0, mem := s₇.mem, trace := s.trace ++ (e₁ ++ (e₂ ++ e₃ ++ e₄ ++ e₅)) }, ?_,
      Or.inl ⟨rfl, ?_, ?_, fun q hq hne ↦ ?_, e₁, _, hevents₁, hsetUp, ?_, ?_⟩⟩
    · refine hret₁.bind (hret₂.bind (hret₃.bind ?_))
      dsimp only
      rw [hanswer, if_neg hpassed]
      refine hret₄.bind (hret₅.bind (hret₆.bind (hret₇.bind (returns_pure_iff.2 ?_))))
      have hesp : s₇.esp + 4 + 4 = s.esp := by
        rw [hesp₇]
        bv_omega
      obtain ⟨eax, ebx, esp, hregs⟩ : ∃ eax ebx esp,
          s₇.toRegs = { s.toRegs with eax, ebx, esp } := by
        have hu : u.toRegs = { s₅.toRegs with eax := withLow s₅.eax 0 } := rfl
        rw [hran₃.regs_eq, hu, hrun₂.regs_eq]
        exact ⟨_, _, _, rfl⟩
      have htrace : s₇.trace = s.trace ++ (e₁ ++ (e₂ ++ e₃ ++ e₄ ++ e₅)) := by
        rw [hran₃.trace_eq, show u.trace = s₅.trace from rfl, hrun₂.trace_eq,
          show t.trace = s.trace from rfl]
        simp only [List.append_assoc]
      simp only [ret, pop, Machine.pop]
      rw [hebx, hback, hesp, htrace]
      simp only [hregs]
    · rfl
    · rw [houtside kbdStatus hstatus]
      exact (Function.update_self ..).trans (low_withLow _ _)
    · rw [houtside q hq, hstored q hne]
      exact hmem q fun hin ↦ hq (Mem.inRegion_sub_mono (by simp) hin)
    · rfl
    · have hall : dev.Answers s.trace _ :=
        Device.answers_append_iff.2 ⟨hrun₂.answers, hrun₂.trace_eq ▸ hran₃.answers⟩
      simpa only [List.append_assoc] using hall

/-- A machine with its stack at 0x9000. -/
def booted : Driver where
  eax := 0
  ecx := 0
  edx := 0
  ebx := 0x5000
  esp := 0x9000
  ebp := 0
  esi := 0
  edi := 0
  eip := 0
  eflags := 0
  cs := 0x08
  ds := 0x10
  es := 0x10
  fs := 0x10
  gs := 0x10
  mem := fun _ ↦ 0
  trace := []

/-- The answer to the self test is one that the device has given. -/
theorem SelfTestEvents.exists_answer {budget : ℕ} {answer : U8} {past events : List PortEvent}
    (h : SelfTestEvents budget answer events) (hanswers : dev.Answers past events) :
    ∃ sent, answer = dev sent kbdDataBuf := by
  cases h
  exact ⟨_, (Device.answers_append_iff.1 hanswers).2.1⟩

/-- The initialization, with a status byte at 0x2000, comes back to 0x1000 from hardware that answers
all reads with the byte that passes the test, and goes to what was in `ebx` with hardware that
answers all reads with zero. -/
theorem initKbd_returns_passed :
    (∃ s', (initKbd (fun _ _ ↦ k8042SelfTestRes) (fun _ ↦ 0) 0x2000
        (booted.push 0x1000)).Returns (0x1000, s') ∧
      Initialized (fun _ _ ↦ k8042SelfTestRes) 0x2000 booted s') ∧
    ∃ s', (initKbd (fun _ _ ↦ 0) (fun _ ↦ 0) 0x2000 (booted.push 0x1000)).Returns (0x5000, s') ∧
      Astray (fun _ _ ↦ 0) 0x1000 booted s' := by
  have hstatus : ¬ Mem.InRegion (booted.esp - 36) 36 0x2000 := by
    rw [Mem.InRegion]
    decide
  constructor
  · obtain ⟨eip, s', hret, ⟨rfl, hdone⟩ | ⟨-, hastray⟩⟩ :=
      initKbd_returns (fun _ _ ↦ k8042SelfTestRes) (fun _ ↦ 0) 0x2000 0x1000 booted hstatus
    · exact ⟨s', hret, hdone⟩
    · obtain ⟨answer, events, hne, hevents, -, hanswers⟩ := hastray.trace_eq
      obtain ⟨-, hanswer⟩ := hevents.exists_answer _ hanswers
      exact absurd hanswer hne
  · obtain ⟨eip, s', hret, ⟨-, hdone⟩ | ⟨rfl, hastray⟩⟩ :=
      initKbd_returns (fun _ _ ↦ 0) (fun _ ↦ 0) 0x2000 0x1000 booted hstatus
    · obtain ⟨e₁, e₂, hevents, -, -, hanswers⟩ := hdone.trace_eq
      obtain ⟨-, hanswer⟩ := hevents.exists_answer _ (Device.answers_append_iff.1 hanswers).1
      exact absurd hanswer (by decide)
    · exact ⟨s', hret, hastray⟩

/-- **`read_byte_from_dat_buf`** returns what the controller has on its data port, after some looks
at the status. -/
theorem call_readByteFromDatBuf (site : ℕ → U32) (back : U32) (s : Driver) :
    ∃ s' looks v, (s.call back (readByteFromDatBuf dev site)).Returns s' ∧
      Polled outputEmpty (pollBudget s.ecx) looks ∧
      Ran dev 16 s (toAl v) (reads statusPort looks ++ [.read kbdDataBuf v]) s' := by
  obtain ⟨s₁, looks, hret, hpolled, hran⟩ :=
    call_waitFor dev outputEmpty (site 13) (s.push back)
  have hrun := hran.trans (ran_inb dev 12 s₁ kbdDataBuf)
  have hpushed : Machine.Pushed s.toMachine (s.push back).toMachine [back] :=
    (Machine.Pushed.refl s.toMachine).push (by simp) back
  obtain ⟨hwords, hmem⟩ := hrun.framed hpushed (by simp)
  have hesp : (s₁.inb dev kbdDataBuf).esp + 4 = s.esp := by
    rw [hrun.esp_eq, hpushed.esp_eq]
    exact BitVec.sub_add_cancel s.esp 4
  refine ⟨{ s₁.inb dev kbdDataBuf with esp := (s₁.inb dev kbdDataBuf).esp + 4 }, looks,
    dev s₁.trace kbdDataBuf, call_returns (hret.bind ?_), hpolled, ?_, hesp, hmem, hrun.trace_eq,
    hrun.answers⟩
  · dsimp only
    rw [ret, pop_eq hwords]
    exact returns_pure _
  · show { (s₁.inb dev kbdDataBuf).toRegs with esp := (s₁.inb dev kbdDataBuf).esp + 4 } = _
    rw [hesp, hrun.regs_eq]
    rfl

end Driver

/-! ### The controller -/

/-- The 8042, as far as its command byte and the bytes it offers go. It offers them in the order in
which it got them. -/
structure Controller where
  commandByte : U8
  /-- The bytes to be read, from the keyboard or in answer to commands. -/
  output : List U8
  /-- The next byte of data is the command byte. -/
  awaits : Bool
  /-- What the keyboard sends after each of the bytes that go over the ports from now on. -/
  typed : ℕ → List U8

namespace Controller

/-- What the keyboard sends with `n` bytes that go over the ports, from the number `first` on. -/
def typedIn (c : Controller) (first n : ℕ) : List U8 := (List.range' first n).flatMap c.typed

/-- The controller after the keyboard has had its say `n` times. -/
def wait (c : Controller) (n : ℕ) : Controller :=
  { c with output := c.output ++ c.typedIn 0 n, typed := fun i ↦ c.typed (n + i) }

/-- What a byte on its ports does to the controller. Other commands than the two that concern the
command byte are left out, and so are bytes that it passes on to the keyboard, whose answers are
among what it sends. -/
def takes (c : Controller) : PortEvent → Controller
  | .write port v =>
    if port = kbdCmdBuf then
      if v = k8042ReadCmd then { c with output := c.output ++ [c.commandByte], awaits := false }
      else { c with awaits := v == k8042WriteCmd }
    else if port = kbdDataBuf ∧ c.awaits then { c with commandByte := v, awaits := false }
    else c
  | .read port _ => if port = kbdDataBuf then { c with output := c.output.tail } else c

/-- A byte goes over the ports, and the keyboard has its say. -/
def next (c : Controller) (e : PortEvent) : Controller := (c.takes e).wait 1

/-- The device has the controller behind its data port, and any status at all. -/
def Behind (dev : Device) (start : Controller) : Prop :=
  ∀ past b rest, (stateAfter next start past).output = b :: rest → dev past kbdDataBuf = b

theorem wait_zero (c : Controller) : c.wait 0 = c := by
  simp [wait, typedIn]

theorem typedIn_wait (c : Controller) (m n : ℕ) : (c.wait m).typedIn 0 n = c.typedIn m n := by
  rw [typedIn, typedIn, ← Nat.add_zero m, ← List.map_add_range', List.flatMap_map]
  rfl

theorem wait_wait (c : Controller) (m n : ℕ) : (c.wait m).wait n = c.wait (m + n) := by
  have hkeys : c.typedIn 0 m ++ (c.wait m).typedIn 0 n = c.typedIn 0 (m + n) := by
    rw [typedIn_wait, typedIn, typedIn, typedIn, ← List.flatMap_append,
      ← List.range'_append_1 (s := 0), Nat.zero_add]
  simp only [wait, mk.injEq, true_and, List.append_assoc, ← Nat.add_assoc, and_true]
  exact congrArg (c.output ++ ·) hkeys

/-- A look at the status changes nothing. -/
theorem next_look (c : Controller) (v : U8) : c.next (.read statusPort v) = c.wait 1 := by
  rw [next, takes, if_neg (by decide)]

/-- Looking at the status is waiting. -/
theorem stateAfter_reads (c : Controller) (looks : List U8) :
    stateAfter next c (reads statusPort looks) = c.wait looks.length := by
  induction looks generalizing c with
  | nil => exact c.wait_zero.symm
  | cons v looks ih =>
    show stateAfter next (c.next (.read statusPort v)) (reads statusPort looks) = _
    rw [ih, next_look, wait_wait, List.length_cons, Nat.add_comm]

theorem stateAfter_nil (c : Controller) : stateAfter next c [] = c := rfl

theorem stateAfter_cons (c : Controller) (e : PortEvent) (events : List PortEvent) :
    stateAfter next c (e :: events) = stateAfter next (c.next e) events :=
  rfl

/-- A byte that waits is taken, whatever the keyboard has sent after it. -/
theorem next_read (c : Controller) (n : ℕ) {b : U8} {bs : List U8} (v : U8)
    (h : c.output = b :: bs) :
    (c.wait n).next (.read kbdDataBuf v) = { c with output := bs : Controller }.wait (n + 1) := by
  rw [← wait_wait, next, takes, if_pos rfl]
  congr 1
  simp only [wait, h]
  rfl

/-- The controller from where it is asked for its command byte until it has got another one: it has
given away the first byte that it had to offer, and the keyboard has gone on. -/
theorem stateAfter_asked (c : Controller) (v v' : U8) (looks₂ looks₃ looks₄ : List U8) :
    stateAfter next c (.write kbdCmdBuf k8042ReadCmd :: (reads statusPort looks₂ ++
        .read kbdDataBuf v :: (reads statusPort looks₃ ++ .write kbdCmdBuf k8042WriteCmd ::
          (reads statusPort looks₄ ++ [.write kbdDataBuf v'])))) =
      { c with
        commandByte := v', output := (c.output ++ [c.commandByte]).tail,
        awaits := false : Controller }.wait
          (looks₂.length + looks₃.length + looks₄.length + 4) := by
  let asked : Controller := { c with output := c.output ++ [c.commandByte], awaits := false }
  obtain ⟨b, bs, hb⟩ : ∃ b bs, asked.output = b :: bs :=
    List.exists_cons_of_ne_nil (List.append_ne_nil_of_right_ne_nil _ (List.cons_ne_nil _ _))
  have htail : (c.output ++ [c.commandByte]).tail = bs := congrArg List.tail hb
  simp only [stateAfter_cons, stateAfter_append, stateAfter_reads, stateAfter_nil]
  have hasked : c.next (.write kbdCmdBuf k8042ReadCmd) = asked.wait 1 := rfl
  rw [hasked, wait_wait, next_read asked _ v hb, wait_wait, htail]
  -- the two bytes that are written do not touch what waits to be read
  have hwritten : ∀ (d : Controller) (m : ℕ),
      (((d.wait m).next (.write kbdCmdBuf k8042WriteCmd)).wait looks₄.length).next
          (.write kbdDataBuf v') =
        { d with commandByte := v', awaits := false : Controller }.wait
          (m + 1 + looks₄.length + 1) := fun d m ↦ by
    rw [← wait_wait _ (m + 1 + looks₄.length), ← wait_wait _ (m + 1), ← wait_wait _ m]
    rfl
  rw [hwritten]
  exact congrArg _ (by omega)

end Controller

namespace Driver

open Controller

variable {dev : Device} {start : Controller}

/-- What is read for the command byte is the first byte that the controller has to offer when it is
asked. -/
theorem read_eq_of_asked {v : U8} {past looks rest : List PortEvent} {c : Controller}
    (hc : stateAfter next start past = c) (hdev : Behind dev start)
    (hlooks : ∃ statuses, looks = reads statusPort statuses) (hanswers : dev.Answers past
      (.write kbdCmdBuf k8042ReadCmd :: (looks ++ .read kbdDataBuf v :: rest))) :
    v = c.output.headD c.commandByte := by
  obtain ⟨statuses, rfl⟩ := hlooks
  have hread : v = dev (past ++ [.write kbdCmdBuf k8042ReadCmd] ++ reads statusPort statuses)
      kbdDataBuf := (Device.answers_append_iff.1 hanswers).2.1
  let asked : Controller := { c with output := c.output ++ [c.commandByte], awaits := false }
  have hstate : stateAfter next start (past ++ [.write kbdCmdBuf k8042ReadCmd] ++
      reads statusPort statuses) = asked.wait (1 + statuses.length) := by
    rw [stateAfter_append, stateAfter_append, stateAfter_reads, stateAfter_cons, stateAfter_nil, hc,
      ← wait_wait]
    rfl
  rw [hread]
  rcases hout : c.output with - | ⟨b, bs⟩
  · exact hdev _ c.commandByte _ (by rw [hstate]; simp only [wait, asked, hout]; rfl)
  · exact hdev _ b _ (by rw [hstate]; simp only [wait, asked, hout]; rfl)

/-- From `s` to `s'` the controller was asked for its command byte, after some looks at the status,
and was given a changed one. The byte that was changed is the first that the controller had to offer
when it was asked, with what the keyboard sent during the looks. -/
structure CommandByteChanged (start : Controller) (change : U8 → U8) (s s' : Driver)
    (looks : List U8) (rest : List PortEvent) : Prop where
  regs_eq : s'.toRegs = s.toRegs
  mem_eq : ∀ q, ¬ Mem.InRegion (s.esp - 24) 24 q → s'.mem q = s.mem q
  polled : Polled inputFull (pollBudget s.ecx) looks
  trace_eq : s'.trace =
    s.trace ++ reads statusPort looks ++ .write kbdCmdBuf k8042ReadCmd :: rest
  commandByte_eq : (stateAfter next start s'.trace).commandByte =
    change (((stateAfter next start s.trace).wait looks.length).output.headD
      (stateAfter next start s.trace).commandByte)
  output_eq : (stateAfter next start s'.trace).output =
    (((stateAfter next start s.trace).wait looks.length).output ++
      [(stateAfter next start s.trace).commandByte]).tail ++
        (stateAfter next start s.trace).typedIn looks.length (rest.length + 1)

/-- The command byte is changed, and only what the keyboard sends later is left to be read, exactly
if the controller had nothing to offer when it was asked. -/
theorem CommandByteChanged.sets_iff {change : U8 → U8} {s s' : Driver} {looks : List U8}
    {rest : List PortEvent} (h : CommandByteChanged start change s s' looks rest) :
    ((stateAfter next start s'.trace).commandByte =
          change (stateAfter next start s.trace).commandByte ∧
        (stateAfter next start s'.trace).output =
          (stateAfter next start s.trace).typedIn looks.length (rest.length + 1) ↔
      ((stateAfter next start s.trace).wait looks.length).output = []) := by
  rw [h.commandByte_eq, h.output_eq]
  refine ⟨fun ⟨_, hout⟩ ↦ ?_, fun hempty ↦ ?_⟩
  · have htail := congrArg List.length (List.append_left_eq_self.1 hout)
    rw [List.length_tail, List.length_append, List.length_singleton, List.length_nil] at htail
    exact List.length_eq_zero_iff.1 htail
  · rw [hempty]
    exact ⟨rfl, rfl⟩

/-- What `disable_keyboard_int` and `enable_keyboard_int` do to the controller. -/
theorem keyboardInt_changes (site : ℕ → U32) (first : ℕ) (change : U8 → U8) (back : U32)
    (s : Driver) (hdev : Behind dev start) :
    ∃ s' looks rest, (s.call back (keyboardInt dev site first change)).Returns s' ∧
      CommandByteChanged start change s s' looks rest := by
  obtain ⟨s', v, events, hret, hevents, hran⟩ := call_keyboardInt dev site first change back s
  obtain @⟨looks, looks₂, looks₃, looks₄, hpolled, -, -, -⟩ := hevents
  let rest := reads statusPort looks₂ ++ .read kbdDataBuf v :: (reads statusPort looks₃ ++
    .write kbdCmdBuf k8042WriteCmd :: (reads statusPort looks₄ ++
      [.write kbdDataBuf (change v)]))
  obtain ⟨asked, hasked⟩ :
      ∃ asked, stateAfter next start (s.trace ++ reads statusPort looks) = asked := ⟨_, rfl⟩
  have hwait : asked = (stateAfter next start s.trace).wait looks.length := by
    rw [← hasked, stateAfter_append, stateAfter_reads]
  have htrace : s'.trace =
      s.trace ++ reads statusPort looks ++ .write kbdCmdBuf k8042ReadCmd :: rest := by
    simp only [hran.trace_eq, rest, List.append_assoc, List.cons_append, List.nil_append]
  have hanswers : dev.Answers (s.trace ++ reads statusPort looks)
      (.write kbdCmdBuf k8042ReadCmd :: rest) := by
    have h := hran.answers
    simp only [List.append_assoc, List.cons_append, List.nil_append] at h
    exact (Device.answers_append_iff.1 h).2
  have hv : v = asked.output.headD asked.commandByte :=
    read_eq_of_asked hasked hdev ⟨looks₂, rfl⟩ hanswers
  have hafter : stateAfter next start s'.trace =
      stateAfter next asked (.write kbdCmdBuf k8042ReadCmd :: rest) := by
    rw [htrace, stateAfter_append, hasked]
  have hstate := hafter.trans (stateAfter_asked asked v (change v) looks₂ looks₃ looks₄)
  have hcount : looks₂.length + looks₃.length + looks₄.length + 4 = rest.length + 1 := by
    simp only [rest, reads, List.length_append, List.length_map, List.length_cons,
      List.length_nil]
    omega
  refine ⟨s', looks, rest, hret, hran.regs_eq, hran.mem_eq, hpolled, htrace, ?_, ?_⟩
  · rw [hstate, hv, hwait]
    rfl
  · rw [hstate, hcount, ← typedIn_wait, ← hwait]
    have hbyte : (stateAfter next start s.trace).commandByte = asked.commandByte := by
      rw [hwait]
      rfl
    rw [hbyte]
    rfl

/-- The answers of the controller: on its data port the first byte it has to offer, and on the other
one whether there is one. -/
def answer (c : Controller) (port : U16) : U8 :=
  if port = kbdDataBuf then c.output.headD 0 else if c.output = [] then 0 else outBufFull

/-- A controller with nothing to offer and a command byte of 0x64. The keyboard sends some keys at
the first look at the status, and nothing afterwards. -/
def pressed (keys : List U8) : Controller where
  commandByte := 0x64
  output := []
  awaits := false
  typed n := if n = 0 then keys else []

theorem typedIn_pressed (keys : List U8) {first : ℕ} (h : 0 < first) (n : ℕ) :
    (pressed keys).typedIn first n = [] := by
  refine List.flatMap_eq_nil_iff.2 fun i hi ↦ ?_
  have hle := (List.mem_range'_1.1 hi).1
  exact if_neg (by omega)

theorem output_wait_pressed (keys : List U8) {n : ℕ} (h : 0 < n) :
    ((pressed keys).wait n).output = keys := by
  obtain ⟨n, rfl⟩ := Nat.exists_eq_add_of_le h
  show (List.range' 0 (1 + n)).flatMap (pressed keys).typed = keys
  rw [← List.range'_append_1, List.flatMap_append]
  show keys ++ [] ++ (pressed keys).typedIn 1 n = keys
  rw [typedIn_pressed keys Nat.one_pos, List.append_nil, List.append_nil]

theorem behind_answer (start : Controller) : Behind (.ofState next start answer) start := by
  intro past b rest h
  show answer (stateAfter next start past) kbdDataBuf = b
  rw [answer, if_pos rfl, h]
  rfl

end Driver

end Ganoid
