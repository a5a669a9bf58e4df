import Mathlib.Algebra.Group.Nat.Defs
import Mathlib.Tactic.Common

/-!
# Input and output over ports

A driver and its devices exchange bytes over numbered ports. What a device answers to a read may
depend on everything that has gone over the ports before, and on nothing else: a `Device` is a
function from the bytes exchanged so far. Quantifying over all devices is to let the hardware do
anything.

A device that keeps a state of its own is given by that state's reaction to each event, and its
answers are read off the state that the events have led to (`stateAfter`, `Device.ofState`).

A driver that has to wait reads a status port until a bit changes, but not more often than some
bound. `Polled` says what such a loop has seen.
-/

namespace PortIO

/-- A byte that goes over a port. -/
inductive PortEvent
  | read (port : BitVec 16) (value : BitVec 8)
  | write (port : BitVec 16) (value : BitVec 8)
  deriving DecidableEq

/-- The answer to a read of a port, after the events so far. -/
abbrev Device := List PortEvent → BitVec 16 → BitVec 8

namespace Device

variable {dev : Device} {past events events' : List PortEvent}

/-- The reads among the events got what the device answers. -/
def Answers (dev : Device) : List PortEvent → List PortEvent → Prop
  | _, [] => True
  | past, .read port v :: events => v = dev past port ∧ Answers dev (past ++ [.read port v]) events
  | past, .write port v :: events => Answers dev (past ++ [.write port v]) events

theorem answers_read_cons_iff {port : BitVec 16} {v : BitVec 8} :
    dev.Answers past (.read port v :: events) ↔
      v = dev past port ∧ dev.Answers (past ++ [.read port v]) events :=
  Iff.rfl

theorem answers_append_iff : dev.Answers past (events ++ events') ↔
    dev.Answers past events ∧ dev.Answers (past ++ events) events' := by
  induction events generalizing past with
  | nil => simp [Answers]
  | cons e events ih =>
    cases e with
    | read port v =>
      rw [List.cons_append, answers_read_cons_iff, answers_read_cons_iff, ih, and_assoc,
        List.append_assoc]
      rfl
    | write port v =>
      show dev.Answers (past ++ [.write port v]) (events ++ events') ↔ _
      rw [ih, List.append_assoc]
      rfl

end Device

/-! ### Devices with a state -/

variable {σ : Type*}

/-- The state of a device after the events. -/
def stateAfter (next : σ → PortEvent → σ) (start : σ) (events : List PortEvent) : σ :=
  events.foldl next start

theorem stateAfter_append (next : σ → PortEvent → σ) (start : σ) (events events' : List PortEvent) :
    stateAfter next start (events ++ events') =
      stateAfter next (stateAfter next start events) events' :=
  List.foldl_append

/-- The device that answers from its state. -/
def Device.ofState (next : σ → PortEvent → σ) (start : σ) (answer : σ → BitVec 16 → BitVec 8) :
    Device :=
  fun events ↦ answer (stateAfter next start events)

/-! ### Waiting -/

/-- What a loop has read that goes on while the status is `busy`, up to `budget` times. -/
structure Polled (busy : BitVec 8 → Bool) (budget : ℕ) (statuses : List (BitVec 8)) : Prop where
  pos : 0 < statuses.length
  le : statuses.length ≤ budget
  /-- Every status but the last kept the loop going. -/
  waited : ∀ i (h : i + 1 < statuses.length), busy statuses[i] = true
  /-- The last one ended it, or it was the last that the loop would read. -/
  ended : ∀ v, statuses.getLast? = some v → busy v = false ∨ statuses.length = budget

namespace Polled

variable {busy : BitVec 8 → Bool} {budget : ℕ} {v : BitVec 8} {vs : List (BitVec 8)}

/-- The first status ends the loop. -/
theorem single (hbudget : 0 < budget) (h : busy v = false ∨ budget = 1) :
    Polled busy budget [v] where
  pos := Nat.one_pos
  le := hbudget
  waited i hi := absurd hi (by simp)
  ended w hw := by
    obtain rfl : v = w := by simpa using hw
    exact h.imp_right Eq.symm

/-- The first status keeps the loop going. -/
theorem cons (hv : busy v = true) (h : Polled busy budget vs) :
    Polled busy (budget + 1) (v :: vs) where
  pos := Nat.succ_pos _
  le := Nat.succ_le_succ h.le
  waited i hi := by
    cases i with
    | zero => exact hv
    | succ i => exact h.waited i (Nat.lt_of_succ_lt_succ hi)
  ended w hw := by
    have hne : vs ≠ [] := List.ne_nil_of_length_pos h.pos
    rw [List.getLast?_cons_of_ne_nil hne] at hw
    exact (h.ended w hw).imp_right (congrArg (· + 1))

end Polled

/-- The reads of a status port. -/
def reads (port : BitVec 16) (statuses : List (BitVec 8)) : List PortEvent :=
  statuses.map (.read port)

end PortIO
