import Ganoid.Library.ByteMemory
import Ganoid.Types

/-!
# The processor

What the i386 does for `vectors.S`: pushes and pops on the stack, `pusha` and `popa`, the delivery
of an interrupt without a change of privilege, and `iret`. The stack segment starts at 0 and is not
tracked, and neither is where the kernel's own code is while it runs; `eip` and `cs` are the
interrupted ones throughout.

Every instruction that saves something is a sequence of pushes. `Pushed s s' ws` says that `s'` is
`s` after pushing the words `ws`, the last one first, and it is all that callers need to know of
such a sequence.
-/

namespace Ganoid

/-- The registers that make up the context of a task. -/
structure Regs where
  eax : U32
  ecx : U32
  edx : U32
  ebx : U32
  esp : U32
  ebp : U32
  esi : U32
  edi : U32
  eip : U32
  eflags : U32
  cs : U16
  ds : U16
  es : U16
  fs : U16
  gs : U16
  deriving DecidableEq

/-- The registers and the memory. -/
structure Machine extends Regs where
  mem : Mem

namespace Machine

/-- `push`. -/
def push (s : Machine) (v : U32) : Machine :=
  { s with esp := s.esp - 4, mem := s.mem.store32 (s.esp - 4) v }

/-- `pop`. -/
def pop (s : Machine) : U32 × Machine :=
  (s.mem.load32 s.esp, { s with esp := s.esp + 4 })

/-- The value of `eax` after `ax` is written. -/
def withAx (eax : U32) (v : U16) : U32 :=
  (eax.extractLsb' 16 16 ++ v : BitVec (16 + 16))

theorem setWidth_withAx (eax : U32) (v : U16) : (withAx eax v).setWidth 16 = v := by
  rw [withAx]
  exact BitVec.setWidth_append_eq_right

/-- `mov v, %ax`. -/
def movAx (s : Machine) (v : U16) : Machine :=
  { s with eax := withAx s.eax v }

/-- `mov v, %ax` and then `push %eax`, which saves a segment register. -/
def pushAx (s : Machine) (v : U16) : Machine :=
  let s := s.movAx v
  s.push s.eax

/-- `pusha`, which saves the stack pointer from before its own pushes. -/
def pusha (s : Machine) : Machine :=
  (((((((s.push s.eax).push s.ecx).push s.edx).push s.ebx).push s.esp).push s.ebp).push s.esi).push
    s.edi

/-- `popa`, which skips the saved stack pointer. -/
def popa (s : Machine) : Machine :=
  let (edi, s) := s.pop
  let (esi, s) := s.pop
  let (ebp, s) := s.pop
  let (_, s) := s.pop
  let (ebx, s) := s.pop
  let (edx, s) := s.pop
  let (ecx, s) := s.pop
  let (eax, s) := s.pop
  { s with edi, esi, ebp, ebx, edx, ecx, eax }

/-- The interrupt flag. -/
def interruptFlag : U32 := 0x200

/-- `cli`. -/
def cli (s : Machine) : Machine :=
  { s with eflags := s.eflags &&& ~~~interruptFlag }

/-- `sti`. -/
def sti (s : Machine) : Machine :=
  { s with eflags := s.eflags ||| interruptFlag }

/-- `iret`, to the same privilege level. -/
def iret (s : Machine) : Machine :=
  let (eip, s) := s.pop
  let (cs, s) := s.pop
  let (eflags, s) := s.pop
  { s with eip, cs := cs.setWidth 16, eflags }

/-- The exceptions that push an error code. -/
def hasErrorCode (vector : ℕ) : Bool :=
  vector ∈ [8, 10, 11, 12, 13, 14, 17]

/-- What the processor pushes to deliver an interrupt at the same privilege level. -/
def deliver (s : Machine) (vector : ℕ) (errCode : U32) : Machine :=
  let s := ((s.push s.eflags).push (s.cs.setWidth 32)).push s.eip
  if hasErrorCode vector then s.push errCode else s

theorem toRegs_push (s : Machine) (v : U32) :
    (s.push v).toRegs = { s.toRegs with esp := s.esp - 4 } :=
  rfl

/-- Saving the registers changes none but the stack pointer. -/
theorem toRegs_pusha (s : Machine) : s.pusha.toRegs = { s.toRegs with esp := s.esp - 32 } := by
  have hesp : s.esp - 4 - 4 - 4 - 4 - 4 - 4 - 4 - 4 = s.esp - 32 := by bv_omega
  rw [pusha]
  simp only [toRegs_push, hesp]

/-! ### Sequences of pushes -/

/-- `s'` is `s` after pushing the words `ws`, the last one first. -/
structure Pushed (s s' : Machine) (ws : List U32) : Prop where
  esp_eq : s'.esp = s.esp - BitVec.ofNat 32 (4 * ws.length)
  words : Mem.WordsAt s'.mem s'.esp ws
  mem_eq : ∀ q, ¬ Mem.InRegion s'.esp (4 * ws.length) q → s'.mem q = s.mem q

theorem Pushed.refl (s : Machine) : Pushed s s [] where
  esp_eq := (BitVec.sub_zero s.esp).symm
  words := trivial
  mem_eq _ _ := rfl

/-- One more push. -/
theorem Pushed.push {s s' : Machine} {ws : List U32} (h : Pushed s s' ws)
    (hfit : 4 * (ws.length + 1) < 2 ^ 32) (v : U32) : Pushed s (s'.push v) (v :: ws) where
  esp_eq := by
    show s'.esp - 4 = _
    rw [h.esp_eq, List.length_cons]
    bv_omega
  words := h.words.push (Nat.le_of_lt hfit) v
  mem_eq q hq := by
    have hesp : (s'.push v).esp = s'.esp - 4 := rfl
    rw [hesp, List.length_cons, Mem.InRegion] at hq
    have hstore : (s'.push v).mem q = s'.mem q :=
      Mem.store32_of_not_inRegion (by rw [Mem.InRegion]; omega)
    rw [hstore]
    exact h.mem_eq q (by rw [Mem.InRegion]; bv_omega)

/-- Writes to other registers make no difference. -/
theorem Pushed.congr {s s' s'' : Machine} {ws : List U32} (h : Pushed s s' ws)
    (hesp : s''.esp = s'.esp) (hmem : s''.mem = s'.mem) : Pushed s s'' ws where
  esp_eq := hesp.trans h.esp_eq
  words := by rw [hesp, hmem]; exact h.words
  mem_eq q hq := by rw [hmem]; exact h.mem_eq q (by rwa [hesp] at hq)

theorem Pushed.pushAx {s s' : Machine} {ws : List U32} (h : Pushed s s' ws)
    (hfit : 4 * (ws.length + 1) < 2 ^ 32) (v : U16) :
    Pushed s (s'.pushAx v) (withAx s'.eax v :: ws) := by
  have hax : Pushed s (s'.movAx v) ws := h.congr rfl rfl
  exact hax.push hfit (withAx s'.eax v)

/-- `pusha` is eight pushes. -/
theorem Pushed.pusha {s s' : Machine} {ws : List U32} (h : Pushed s s' ws)
    (hfit : 4 * (ws.length + 8) < 2 ^ 32) :
    Pushed s s'.pusha (s'.edi :: s'.esi :: s'.ebp :: s'.esp :: s'.ebx :: s'.edx :: s'.ecx ::
      s'.eax :: ws) := by
  have h₁ := h.push (by omega) s'.eax
  have h₂ := h₁.push (by simp; omega) s'.ecx
  have h₃ := h₂.push (by simp; omega) s'.edx
  have h₄ := h₃.push (by simp; omega) s'.ebx
  have h₅ := h₄.push (by simp; omega) s'.esp
  have h₆ := h₅.push (by simp; omega) s'.ebp
  have h₇ := h₆.push (by simp; omega) s'.esi
  have h₈ := h₇.push (by simp; omega) s'.edi
  exact h₈

end Machine

end Ganoid
