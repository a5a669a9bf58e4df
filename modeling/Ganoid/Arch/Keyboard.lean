import Ganoid.Arch.Keymap
import Ganoid.Arch.ScanCode
import Ganoid.Library.Along
import Ganoid.Library.RingBuffer

/-!
# Reading keys

`kbd_isr` and `read_key` of `arch/i386/kernel/kbd-handler.c`. The interrupt handler puts the bytes of
the keyboard into a circular buffer, and `read_key` takes bytes out of it until the decoder reports
a key pressed. Interrupts are off while it does, so a call runs without a byte arriving in between.

The decoder's state is a static variable and survives from one call to the next, while the flags of
a report are locals of each call. Where a call finds the buffer empty in the middle of a code, the
next one therefore goes on with that code, and what is read does not depend on when it is read
(`readKey_independent`): it is the whole stream, decoded in one piece (`keysOf`).
-/

open Fuelled

namespace Ganoid

/-- `KBD_BUFFER_SIZE`. -/
def kbdBufferSize : ℕ := 10

/-- The static variables of the handler, and the number of bytes that have arrived and have not been
taken, which no function consults. -/
structure Kbd where
  keyBuffer : ℕ → U8
  head : ℕ
  tail : ℕ
  /-- `state` of `keyboard_state_machine`. -/
  state : KbdState
  unread : ℕ

/-- The variables as they are initialized. -/
def Kbd.start : Kbd where
  keyBuffer _ := 0
  head := 0
  tail := 0
  state := .init
  unread := 0

/-- `kbd_isr`, where `read_byte_from_dat_buf` returns `b`. -/
def kbdIsr (k : Kbd) (b : U8) : Kbd :=
  let keyBuffer := Function.update k.keyBuffer k.head b
  let head := k.head + 1
  let head := if kbdBufferSize = head then 0 else head
  let tail := if head = k.tail then k.tail + 1 else k.tail
  let tail := if kbdBufferSize = tail then 0 else tail
  { k with keyBuffer := keyBuffer, head := head, tail := tail, unread := k.unread + 1 }

/-- The byte at the tail is taken, and leaves the decoder in a new state. -/
def Kbd.take (k : Kbd) (state : KbdState) : Kbd :=
  { k with tail := (k.tail + 1) % kbdBufferSize, state := state, unread := k.unread - 1 }

/-- One pass through the parse loop of `read_key`. Its locals `scan_code`, `make`, `repeat_key` and
`basic_key` are the report. -/
def parsePass (s : Kbd × KeyReport) : Fuelled ((Kbd × KeyReport) ⊕ (Kbd × KeyReport)) :=
  let (k, report) := s
  if k.tail ≠ k.head then
    let (state, report) := keyboardStateMachine k.state (k.keyBuffer k.tail)
    let k := k.take state
    if report.repeatKey then pure (.inr (k, report))
    else if report.make then pure (.inr (k, report))
    else pure (.inl (k, { report with make := false, repeatKey := false, o := 0 }))
  else pure (.inr (k, report))

/-- The parse loop of `read_key`. -/
def parse (k : Kbd) : Fuelled (Kbd × KeyReport) :=
  loop parsePass (k, .ignored)

/-- The return value of `read_key`, and what it leaves at its two pointers. -/
structure KeyRead where
  r : ℤ
  key : U32
  printable : Bool

/-- The end of `read_key` for one of the two tables, whose values of keys that print nothing have the
bit `unprintable`. -/
def findKey (keymap : List Keymap) (unprintable : U32) (scanCode : ℤ) (val : U32) :
    Fuelled KeyRead := do
  let (found, _) ← binarySearchKey scanCode (arrayOf keymap) keymap.length
  match found with
  | some val => pure ⟨0, val, !(val &&& unprintable != 0)⟩
  | none => pure ⟨-1, val, true⟩

/-- The lookup of a report in the table of its class. -/
def findReport (report : KeyReport) (val : U32) : Fuelled KeyRead :=
  if report.basicKey then findKey basicKeymap 0x100 report.o val
  else findKey extendedKeymap 0x200 report.o val

/-- `read_key`, where `*key` holds `key` before the call and the local `val` is not initialized. -/
def readKey (k : Kbd) (key val : U32) : Fuelled (KeyRead × Kbd) := do
  let (k, report) ← parse k
  if report.make || report.repeatKey then do
    let r ← findReport report val
    pure (r, k)
  else pure (⟨-1, key, true⟩, k)

/-! ### The keys of a stream -/

/-- The key and the printable flag of a make, if its scan code is in the table of its class. -/
def keyOf (report : KeyReport) : Option (U32 × Bool) :=
  if report.basicKey then
    (keymapLookup basicKeymap report.o).map fun val ↦ (val, val &&& 0x100 == 0)
  else (keymapLookup extendedKeymap report.o).map fun val ↦ (val, val &&& 0x200 == 0)

/-- The keys of a stream: of the reports with `make` set, those that are found. -/
def keysOf (state : KbdState) (bytes : List U8) : List (U32 × Bool) :=
  ((decode state bytes).filter KeyReport.make).filterMap keyOf

theorem keysOf_append (state : KbdState) (l l' : List U8) :
    keysOf state (l ++ l') = keysOf state l ++ keysOf (stateAfter state l) l' := by
  rw [keysOf, decode, Mealy.outputs_append, List.filter_append, List.filterMap_append]
  rfl

/-- A repeat is a make. -/
theorem make_of_repeatKey {state : KbdState} {b : U8}
    (h : (keyboardStateMachine state b).2.repeatKey = true) :
    (keyboardStateMachine state b).2.make = true := by
  by_cases hf : b = 0xF0#8 <;> by_cases he : b = 0xE0#8 <;> cases state <;>
    simp_all [keyboardStateMachine, KeyReport.ignored]

/-! ### One call -/

/-- The bytes that have arrived and have not been taken are in the buffer. -/
structure Queued (k : Kbd) (q : List U8) : Prop where
  holds : RingBuffer.Holds k.keyBuffer kbdBufferSize k.tail k.head q
  unread : k.unread = q.length

theorem queued_start : Queued .start [] where
  holds := RingBuffer.holds_nil _ (by decide)
  unread := rfl

/-- What the interrupt handler does to the buffer: a write at the head, and a move of the tail where
the new head has caught up with it. -/
theorem kbdIsr_eq {k : Kbd} (hhead : k.head < kbdBufferSize) (htail : k.tail < kbdBufferSize)
    (b : U8) : kbdIsr k b = { k with
      keyBuffer := Function.update k.keyBuffer k.head b
      head := (k.head + 1) % kbdBufferSize
      tail := if (k.head + 1) % kbdBufferSize = k.tail then (k.tail + 1) % kbdBufferSize else k.tail
      unread := k.unread + 1 } := by
  have hwrap : ∀ i < kbdBufferSize, (if kbdBufferSize = i + 1 then 0 else i + 1) =
      (i + 1) % kbdBufferSize := by
    decide
  simp only [kbdIsr, hwrap k.head hhead]
  split
  · rw [hwrap k.tail htail]
  · rw [if_neg (show kbdBufferSize ≠ k.tail from Nat.ne_of_gt htail)]

/-- The interrupt handler puts its byte behind the others, while there is room. -/
theorem Queued.kbdIsr {k : Kbd} {q : List U8} {b : U8} (h : Queued k q)
    (hroom : (Ganoid.kbdIsr k b).unread ≤ kbdBufferSize - 1) :
    Queued (Ganoid.kbdIsr k b) (q ++ [b]) := by
  have hlen : q.length + 1 < kbdBufferSize := by
    have hroom' : k.unread + 1 ≤ 9 := hroom
    rw [h.unread] at hroom'
    show q.length + 1 < 10
    omega
  have hpush := h.holds.arrive (by decide) b
  rw [RingBuffer.arrive_of_room hlen] at hpush
  rw [kbdIsr_eq h.holds.head_lt h.holds.tail_lt]
  exact ⟨hpush, by rw [List.length_append, ← h.unread]; rfl⟩

/-- What the parse loop does with the bytes in the buffer: it takes some of them, and either the last
one taken completes the only make among them, or there is none and the buffer is empty. -/
structure Parsed (k : Kbd) (q taken rest : List U8) (r : Kbd × KeyReport) : Prop where
  eq_append : q = taken ++ rest
  queued : Queued r.1 rest
  state : r.1.state = stateAfter k.state taken
  makes : ((decode k.state taken).filter KeyReport.make = [r.2] ∧ r.2.make = true) ∨
    ((decode k.state taken).filter KeyReport.make = [] ∧ rest = [] ∧
      r.2.make = false ∧ r.2.repeatKey = false)

theorem parse_returns {k : Kbd} {q : List U8} (h : Queued k q) {report : KeyReport}
    (hmake : report.make = false) (hrepeat : report.repeatKey = false) :
    ∃ taken rest r, (loop parsePass (k, report)).Returns r ∧ Parsed k q taken rest r := by
  -- by induction on the bytes in the buffer, one for each pass
  induction q generalizing k report with
  | nil =>
    refine ⟨[], [], (k, report), returns_loop_of_leave ?_,
      ⟨rfl, h, rfl, Or.inr ⟨rfl, rfl, hmake, hrepeat⟩⟩⟩
    have heq : ¬ k.tail ≠ k.head := not_not.2 (h.holds.eq_nil_iff.2 rfl)
    simp only [parsePass, if_neg heq]
    exact returns_pure _
  | cons b q ih =>
    have hne : k.tail ≠ k.head := fun heq ↦ absurd (h.holds.eq_nil_iff.1 heq) (by simp)
    have hfront : k.keyBuffer k.tail = b := h.holds.front
    generalize hstep : keyboardStateMachine k.state b = step
    obtain ⟨state, rep⟩ := step
    have hq : Queued (k.take state) q := by
      refine ⟨h.holds.pop, ?_⟩
      show k.unread - 1 = q.length
      rw [h.unread, List.length_cons, Nat.add_sub_cancel]
    have hdecode : ∀ l, decode k.state (b :: l) = rep :: decode state l := fun l ↦ by
      rw [decode, Mealy.outputs_cons, hstep]
    have hafter : ∀ l, stateAfter k.state (b :: l) = stateAfter state l := fun l ↦ by
      rw [stateAfter, Mealy.stateAfter_cons, hstep]
    by_cases hmk : rep.make = true
    · refine ⟨[b], q, (k.take state, rep), returns_loop_of_leave ?_,
        ⟨rfl, hq, (hafter []).symm, Or.inl ⟨?_, hmk⟩⟩⟩
      · simp only [parsePass, if_pos hne, hfront, hstep, hmk, if_true, ite_self]
        exact returns_pure _
      · rw [hdecode, List.filter_cons_of_pos hmk]
        rfl
    · have hrep : rep.repeatKey = false := by
        rw [Bool.eq_false_iff]
        intro hr
        have := @make_of_repeatKey k.state b
        rw [hstep] at this
        exact hmk (this hr)
      have hmk' : rep.make = false := Bool.eq_false_iff.2 hmk
      obtain ⟨taken, rest, r, hret, hparsed⟩ :=
        @ih (k.take state) hq { rep with make := false, repeatKey := false, o := 0 } rfl rfl
      refine ⟨b :: taken, rest, r, returns_loop_of_again ?_ hret, ?_⟩
      · simp only [parsePass, if_pos hne, hfront, hstep, hrep, hmk', Bool.false_eq_true, if_false]
        exact returns_pure _
      · refine ⟨congrArg (b :: ·) hparsed.eq_append, hparsed.queued, ?_, ?_⟩
        · rw [hafter]
          exact hparsed.state
        · rw [hdecode, List.filter_cons_of_neg hmk]
          exact hparsed.makes

/-- The key that a call has read, if it returned 0. -/
def KeyRead.keys (r : KeyRead) : List (U32 × Bool) :=
  if r.r = 0 then [(r.key, r.printable)] else []

theorem findKey_returns {keymap : List Keymap} (h : SortedKeymap keymap) (unprintable : U32)
    (scanCode : ℤ) (val : U32) : ∃ res, (findKey keymap unprintable scanCode val).Returns res ∧
      res.keys = ((keymapLookup keymap scanCode).map fun v ↦
        (v, v &&& unprintable == 0)).toList := by
  obtain ⟨reads, hsearch⟩ := binarySearchKey_arrayOf h scanCode
  cases hfound : keymapLookup keymap scanCode with
  | none =>
    rw [hfound] at hsearch
    exact ⟨_, hsearch.bind (returns_pure _), by simp [KeyRead.keys]⟩
  | some v =>
    rw [hfound] at hsearch
    exact ⟨_, hsearch.bind (returns_pure _), by simp [KeyRead.keys, bne]⟩

/-- The key found for a make. -/
theorem findReport_returns (report : KeyReport) (val : U32) :
    ∃ res, (findReport report val).Returns res ∧ res.keys = (keyOf report).toList := by
  rw [keyOf, findReport]
  cases report.basicKey with
  | true => exact findKey_returns sortedKeymap_basicKeymap 0x100 report.o val
  | false => exact findKey_returns sortedKeymap_extendedKeymap 0x200 report.o val

/-- **One call** takes some of the bytes in the buffer and reads the key that they have, if any. -/
structure ReadKeyDone (k : Kbd) (q taken rest : List U8) (r : KeyRead × Kbd) : Prop where
  eq_append : q = taken ++ rest
  queued : Queued r.2 rest
  state : r.2.state = stateAfter k.state taken
  keys : r.1.keys = keysOf k.state taken

theorem readKey_returns {k : Kbd} {q : List U8} (h : Queued k q) (key val : U32) :
    ∃ taken rest r, (readKey k key val).Returns r ∧ ReadKeyDone k q taken rest r := by
  obtain ⟨taken, rest, ⟨k', report⟩, hparse, hparsed⟩ := @parse_returns k q h .ignored rfl rfl
  rcases hparsed.makes with ⟨hfilter, hmake⟩ | ⟨hfilter, -, hmake, hrepeat⟩
  · obtain ⟨res, hfind, hkeys⟩ := findReport_returns report val
    refine ⟨taken, rest, (res, k'), hparse.bind ?_,
      ⟨hparsed.eq_append, hparsed.queued, hparsed.state, ?_⟩⟩
    · dsimp only at hmake
      simp only [hmake, Bool.true_or, if_true]
      exact hfind.bind (returns_pure _)
    · rw [keysOf, hfilter, hkeys]
      cases hkey : keyOf report <;> simp [hkey]
  · refine ⟨taken, rest, (⟨-1, key, true⟩, k'), hparse.bind ?_,
      ⟨hparsed.eq_append, hparsed.queued, hparsed.state, ?_⟩⟩
    · dsimp only at hmake hrepeat
      simp only [hmake, hrepeat, Bool.or_self, Bool.false_eq_true, if_false]
      exact returns_pure _
    · rw [keysOf, hfilter]
      rfl

/-! ### Runs -/

/-- A byte arrives, or `read_key` is called and returns. -/
inductive KbdEvent
  | isr (b : U8)
  | readKey (key val : U32) (result : KeyRead)

/-- One event. -/
inductive KbdStep : Kbd → KbdEvent → Kbd → Prop
  | isr {k : Kbd} (b : U8) : KbdStep k (.isr b) (kbdIsr k b)
  | readKey {k k' : Kbd} {key val : U32} {result : KeyRead}
      (hret : (readKey k key val).Returns (result, k')) :
      KbdStep k (.readKey key val result) k'

/-- The bytes delivered in a run. -/
def bytesOf (run : List (KbdEvent × Kbd)) : List U8 :=
  run.flatMap fun
    | (.isr b, _) => [b]
    | (.readKey _ _ _, _) => []

/-- The keys read in a run, by the calls that returned 0. -/
def keysRead (run : List (KbdEvent × Kbd)) : List (U32 × Bool) :=
  run.flatMap fun
    | (.isr _, _) => []
    | (.readKey _ _ result, _) => result.keys

/-- The run lemma: what was in the buffer and what arrives is taken in order or still there, and the
keys read are those of what was taken. -/
theorem kbdRun_taken {k : Kbd} {q : List U8} (h : Queued k q) {run : List (KbdEvent × Kbd)}
    (hrun : Along KbdStep k run) (hroom : Along (fun _ _ k' ↦ k'.unread ≤ kbdBufferSize - 1) k run) :
    ∃ taken rest, q ++ bytesOf run = taken ++ rest ∧ Queued (finish k run) rest ∧
      keysRead run = keysOf k.state taken := by
  induction run generalizing k q with
  | nil => exact ⟨[], q, by simp [bytesOf], h, rfl⟩
  | cons event run ih =>
    obtain ⟨event, k'⟩ := event
    obtain ⟨hstep, hrun⟩ := hrun
    obtain ⟨hle, hroom⟩ := hroom
    cases hstep with
    | isr b =>
      obtain ⟨taken, rest, heq, hq, hkeys⟩ := ih (h.kbdIsr hle) hrun hroom
      exact ⟨taken, rest, by rw [← heq, List.append_assoc]; rfl, hq, hkeys⟩
    | readKey hret =>
      rename_i key val result
      obtain ⟨taken₁, rest₁, r, hret', hdone⟩ := readKey_returns h key val
      obtain rfl : (result, k') = r := hret.unique hret'
      obtain ⟨taken, rest, heq, hq, hkeys⟩ := ih hdone.queued hrun hroom
      refine ⟨taken₁ ++ taken, rest, ?_, hq, ?_⟩
      · rw [hdone.eq_append, List.append_assoc, List.append_assoc, ← heq]
        rfl
      · rw [keysOf_append, ← hdone.state, ← hkeys, ← hdone.keys]
        rfl

/-- **Reading keys does not depend on when they are read.** In every run in which at most
`kbdBufferSize - 1` bytes are ever unread, every call returns, and once the buffer is drained the
keys read are those of the whole stream. -/
theorem readKey_independent (run : List (KbdEvent × Kbd)) (hrun : Along KbdStep .start run)
    (hroom : Along (fun _ _ k ↦ k.unread ≤ kbdBufferSize - 1) .start run) :
    (∀ key val, ∃ r, (readKey (finish .start run) key val).Returns r) ∧
      ((finish Kbd.start run).unread = 0 → keysRead run = keysOf .init (bytesOf run)) := by
  obtain ⟨taken, rest, heq, hq, hkeys⟩ := kbdRun_taken queued_start hrun hroom
  refine ⟨fun key val ↦ ?_, fun hdrained ↦ ?_⟩
  · obtain ⟨-, -, r, hret, -⟩ := readKey_returns hq key val
    exact ⟨r, hret⟩
  · have hrest : rest = [] := List.length_eq_zero_iff.1 (hq.unread.symm.trans hdrained)
    rw [hrest, List.append_nil, List.nil_append] at heq
    rw [hkeys, heq]
    rfl

/-- The handler after the first byte of the up arrow has arrived. -/
def upArrowHalf : Kbd := kbdIsr .start 0xE0

/-- The handler after a call has taken it and the second one has arrived. -/
def upArrowRest : Kbd := kbdIsr (upArrowHalf.take .extMakeEs) 0x75

/-- The buffer runs empty between the two bytes of the up arrow, and the key is read. -/
theorem readKey_independent_upArrow : ∃ run, Along KbdStep .start run ∧
    bytesOf run = [0xE0, 0x75] ∧ keysRead run = [(0x275, false)] ∧
    keysRead run = keysOf .init (bytesOf run) := by
  have hcall₁ : (readKey upArrowHalf 0 0).Returns (⟨-1, 0, true⟩, upArrowHalf.take .extMakeEs) :=
    ⟨2, rfl⟩
  have hcall₂ : (readKey upArrowRest 0 0).Returns
      (⟨0, 0x275, false⟩, upArrowRest.take .extBreakExpec) := ⟨8, rfl⟩
  have hrun : Along KbdStep .start [(.isr 0xE0, upArrowHalf),
      (.readKey 0 0 ⟨-1, 0, true⟩, upArrowHalf.take .extMakeEs), (.isr 0x75, upArrowRest),
      (.readKey 0 0 ⟨0, 0x275, false⟩, upArrowRest.take .extBreakExpec)] :=
    ⟨.isr 0xE0, .readKey hcall₁, .isr 0x75, .readKey hcall₂, trivial⟩
  refine ⟨_, hrun, rfl, rfl, (readKey_independent _ hrun ?_).2 rfl⟩
  exact ⟨by decide, by decide, by decide, by decide, trivial⟩

end Ganoid
