import Ganoid.Arch.Keyboard

/-!
# The key buffer

Three parties move the two positions of the key buffer: `kbd_isr`, which moves the head and, when
the buffer is full, the tail; the parse loop of `read_key`, which moves the tail with wrapping code
of its own; and `flush_kbd_buffer`, which resets both. Here they act in any order, the parse loop
one pass at a time.

What the buffer is for is said by a queue: a byte joins it behind the others and pushes the oldest
one out where there is no room for both (`queueAfter`). The queue is at any time the newest part of
what has arrived since the last flush (`queueAfter_suffix`), and the cells from the tail up to the
head hold it (`keyBuffer_holds_queue`).
-/

open Fuelled

namespace Ganoid

/-- `flush_kbd_buffer`. -/
def flushKbdBuffer (k : Kbd) : Kbd :=
  { k with head := 0, tail := 0, unread := 0 }

/-- What moves the positions of the buffer: a byte arrives, the parse loop of `read_key` makes one
pass with the given locals, or the buffer is flushed. -/
inductive KeyBufferEvent
  | isr (b : U8)
  | parse (report : KeyReport)
  | flush

/-- The variables of the handler after an event. A pass leaves them, whether the loop goes on or
not. -/
def KeyBufferEvent.next (k : Kbd) : KeyBufferEvent → Fuelled Kbd
  | .isr b => pure (kbdIsr k b)
  | .parse report => do
    let passed ← parsePass (k, report)
    pure (passed.elim Prod.fst Prod.fst)
  | .flush => pure (flushKbdBuffer k)

/-! ### The queue -/

/-- The queue after an event. -/
def KeyBufferEvent.queue (q : List U8) : KeyBufferEvent → List U8
  | .isr b => RingBuffer.arrive kbdBufferSize q b
  | .parse _ => q.tail
  | .flush => []

/-- The queue after a sequence of events, from the empty one. -/
def queueAfter (events : List KeyBufferEvent) : List U8 :=
  events.foldl KeyBufferEvent.queue []

/-- The bytes that have arrived since the last flush. -/
def sinceFlush (events : List KeyBufferEvent) : List U8 :=
  events.foldl (fun bytes event ↦ match event with
    | .isr b => bytes ++ [b]
    | .parse _ => bytes
    | .flush => []) []

theorem queueAfter_concat (events : List KeyBufferEvent) (event : KeyBufferEvent) :
    queueAfter (events ++ [event]) = event.queue (queueAfter events) :=
  List.foldl_concat _ _ _ _

/-- What has arrived and is still there is the newest part of what has arrived since the last
flush. -/
theorem queueAfter_suffix (events : List KeyBufferEvent) :
    queueAfter events <:+ sinceFlush events := by
  induction events using List.reverseRecOn with
  | nil => exact List.suffix_rfl
  | append_singleton events event ih =>
    rw [queueAfter_concat, sinceFlush, List.foldl_concat]
    obtain ⟨dropped, heq⟩ := ih
    cases event with
    | isr b =>
      refine (RingBuffer.arrive_suffix _ _ b).trans ⟨dropped, ?_⟩
      rw [← List.append_assoc, heq]
      rfl
    | parse report => exact (List.tail_suffix _).trans ⟨dropped, heq⟩
    | flush => exact List.suffix_rfl

theorem length_queueAfter_le (events : List KeyBufferEvent) :
    (queueAfter events).length ≤ kbdBufferSize - 1 := by
  induction events using List.reverseRecOn with
  | nil => exact Nat.zero_le _
  | append_singleton events event ih =>
    rw [queueAfter_concat]
    cases event with
    | isr b => exact RingBuffer.length_arrive_le _ _ b
    | parse report => exact (List.tail_suffix _).length_le.trans ih
    | flush => exact Nat.zero_le _

/-! ### The buffer holds it -/

/-- The cells from the tail up to the head hold the queue. -/
def HoldsQueue (k : Kbd) (q : List U8) : Prop :=
  RingBuffer.Holds k.keyBuffer kbdBufferSize k.tail k.head q

theorem holdsQueue_kbdIsr {k : Kbd} {q : List U8} (h : HoldsQueue k q) (b : U8) :
    HoldsQueue (kbdIsr k b) (RingBuffer.arrive kbdBufferSize q b) := by
  rw [kbdIsr_eq h.head_lt h.tail_lt]
  exact RingBuffer.Holds.arrive h (by decide) b

/-- A pass takes the byte at the tail, whatever the decoder makes of it, unless there is none. -/
theorem parsePass_holdsQueue {k : Kbd} {q : List U8} (h : HoldsQueue k q) (report : KeyReport) :
    ∃ passed, (parsePass (k, report)).Returns passed ∧
      HoldsQueue (passed.elim Prod.fst Prod.fst) q.tail := by
  rw [parsePass]
  cases q with
  | nil =>
    rw [if_neg (not_not.2 (h.eq_nil_iff.2 rfl))]
    exact ⟨_, returns_pure _, h⟩
  | cons b q =>
    have hne : k.tail ≠ k.head := fun heq ↦ absurd (h.eq_nil_iff.1 heq) (by simp)
    have hpop : ∀ state, HoldsQueue (k.take state) q := fun _ ↦ h.pop
    rw [if_pos hne]
    dsimp only
    split
    · exact ⟨_, returns_pure _, hpop _⟩
    · split
      · exact ⟨_, returns_pure _, hpop _⟩
      · exact ⟨_, returns_pure _, hpop _⟩

/-- The step lemma: every event does to the buffer what it does to the queue. -/
theorem next_holdsQueue {k : Kbd} {q : List U8} (h : HoldsQueue k q) (event : KeyBufferEvent) :
    ∃ k', (event.next k).Returns k' ∧ HoldsQueue k' (event.queue q) := by
  cases event with
  | isr b => exact ⟨_, returns_pure _, holdsQueue_kbdIsr h b⟩
  | parse report =>
    obtain ⟨passed, hret, hpassed⟩ := parsePass_holdsQueue h report
    exact ⟨_, hret.bind (returns_pure _), hpassed⟩
  | flush =>
    exact ⟨_, returns_pure _, RingBuffer.holds_nil _ (show 0 < kbdBufferSize by decide)⟩

/-- **The key buffer is a bounded queue that drops its oldest byte.** After any sequence of events
both positions are inside the buffer, and the cells from the tail up to the head hold the queue:
what has arrived since the last flush and has not been taken, of which it keeps the newest bytes, at
most one fewer than there are cells. -/
theorem keyBuffer_holds_queue (events : List KeyBufferEvent) :
    ∃ k, (events.foldlM KeyBufferEvent.next .start).Returns k ∧
      k.head < kbdBufferSize ∧ k.tail < kbdBufferSize ∧
      RingBuffer.Holds k.keyBuffer kbdBufferSize k.tail k.head (queueAfter events) ∧
      queueAfter events <:+ sinceFlush events ∧
      (queueAfter events).length ≤ kbdBufferSize - 1 := by
  obtain ⟨k, hret, h⟩ := exists_returns_foldlM (fun done k ↦ HoldsQueue k (queueAfter done)) events
    (f := KeyBufferEvent.next) (b := .start)
    (fun done event _ k _ h ↦ queueAfter_concat done event ▸ next_holdsQueue h event)
    (RingBuffer.holds_nil _ (by decide))
  exact ⟨k, hret, h.head_lt, h.tail_lt, h, queueAfter_suffix events, length_queueAfter_le events⟩

/-- Eleven arrivals leave the last nine of them. -/
example : queueAfter ([1, 2, 3, 4, 5, 6, 7, 8, 9, 10, 11].map .isr) =
    [3, 4, 5, 6, 7, 8, 9, 10, 11] := by
  decide

end Ganoid
