import Ganoid.Arch.Keyboard
import Ganoid.Library.Preemption

/-!
# Reading keys under interrupts

`read_key` moves the tail of the key buffer in two writes, the first of which may leave it behind the
last cell, and hands the byte in between to the decoder, whose state is shared by all callers. What
keeps all of this whole is that the parse loop is a critical section.

Here any number of tasks call `read_key`, one read or write at a time; the keyboard delivers bytes
wherever the interrupt flag of the running task is set, as long as there is room for them, and the
timer may make any task current. A loop that is left halfway goes on where it was, since no interrupt
arrives within it, and what it will do is what the loop of `Ganoid.Arch.Keyboard` does from there
(`ReadCode.remaining`). So the calls act as if each ran in one piece (`preempted_readKey`): the keys
that the tasks read between them are those of the bytes taken, each read by one call.
-/

open Fuelled Relation

namespace Ganoid

variable {Task : Type}

/-! ### Steps -/

/-- Where a task is, with the flags that the critical sections it is in will restore, the innermost
first. The loop of `read_key` carries its report along. -/
inductive ReadCode
  /-- In code of its own, with the interrupt flag. -/
  | caller (iflag : Bool) (saved : List Bool)
  /-- At the test of the loop, `tail != head`. -/
  | test (report : KeyReport) (saved : List Bool)
  /-- At the call of `keyboard_state_machine`. -/
  | decode (saved : List Bool)
  /-- At `tail++`. -/
  | advance (report : KeyReport) (saved : List Bool)
  /-- At `tail = (tail % KBD_BUFFER_SIZE)`. -/
  | wrap (report : KeyReport) (saved : List Bool)
  /-- At the tests of `repeat_key` and `make`. -/
  | check (report : KeyReport) (saved : List Bool)
  /-- At `EXIT_CRITICAL_SECTION`. -/
  | exit (report : KeyReport) (saved : List Bool)

namespace ReadCode

/-- The interrupt flag. -/
def iflag : ReadCode → Bool
  | caller iflag _ => iflag
  | _ => false

/-- The flags that will be restored. -/
def saved : ReadCode → List Bool
  | caller _ saved | test _ saved | decode saved | advance _ saved => saved
  | wrap _ saved | check _ saved | exit _ saved => saved

/-- In the critical section of `read_key`. -/
def Inside : ReadCode → Prop
  | caller _ _ => False
  | _ => True

/-- Outside of it. -/
def Outside (l : ReadCode) : Prop := ¬ l.Inside

end ReadCode

/-- The variables of the handler and the running task, the bytes delivered, and the reports with
which the calls have left the loop. -/
structure Readers (Task : Type) where
  kbd : Kbd
  current : Task
  delivered : List U8
  reports : List (Task × KeyReport)

/-- The locals as they are for the next pass. -/
def KeyReport.reset (report : KeyReport) : KeyReport :=
  { report with make := false, repeatKey := false, o := 0 }

/-- One read or write of a task. -/
inductive ReadStep (i : Task) : ReadCode → Readers Task → ReadCode → Readers Task → Prop
  | disable {iflag : Bool} {saved : List Bool} {s : Readers Task} :
      ReadStep i (.caller iflag saved) s (.caller false (iflag :: saved)) s
  | restore {iflag eflags : Bool} {saved : List Bool} {s : Readers Task} :
      ReadStep i (.caller iflag (eflags :: saved)) s (.caller eflags saved) s
  | readKey {iflag : Bool} {saved : List Bool} {s : Readers Task} :
      ReadStep i (.caller iflag saved) s (.test .ignored (iflag :: saved)) s
  | more {report : KeyReport} {saved : List Bool} {s : Readers Task}
      (hne : s.kbd.tail ≠ s.kbd.head) :
      ReadStep i (.test report saved) s (.decode saved) s
  | empty {report : KeyReport} {saved : List Bool} {s : Readers Task}
      (heq : s.kbd.tail = s.kbd.head) :
      ReadStep i (.test report saved) s (.exit report saved) s
  | decode {saved : List Bool} {s : Readers Task} :
      ReadStep i (.decode saved) s
        (.advance (keyboardStateMachine s.kbd.state (s.kbd.keyBuffer s.kbd.tail)).2 saved)
        { s with kbd := { s.kbd with
          state := (keyboardStateMachine s.kbd.state (s.kbd.keyBuffer s.kbd.tail)).1 } }
  | advance {report : KeyReport} {saved : List Bool} {s : Readers Task} :
      ReadStep i (.advance report saved) s (.wrap report saved)
        { s with kbd := { s.kbd with tail := s.kbd.tail + 1 } }
  | wrap {report : KeyReport} {saved : List Bool} {s : Readers Task} :
      ReadStep i (.wrap report saved) s (.check report saved)
        { s with kbd := { s.kbd with
          tail := s.kbd.tail % kbdBufferSize, unread := s.kbd.unread - 1 } }
  | stop {report : KeyReport} {saved : List Bool} {s : Readers Task}
      (hstop : report.repeatKey = true ∨ report.make = true) :
      ReadStep i (.check report saved) s (.exit report saved) s
  | again {report : KeyReport} {saved : List Bool} {s : Readers Task}
      (hrepeat : report.repeatKey = false) (hmake : report.make = false) :
      ReadStep i (.check report saved) s (.test report.reset saved) s
  | exit {report : KeyReport} {eflags : Bool} {saved : List Bool} {s : Readers Task} :
      ReadStep i (.exit report (eflags :: saved)) s (.caller eflags saved)
        { s with reports := s.reports ++ [(i, report)] }

/-- The keyboard delivers a byte while there is room for it, or the timer makes some task current. -/
inductive ReadInterrupt : Readers Task → Readers Task → Prop
  | kbd {s : Readers Task} (b : U8) (hroom : (kbdIsr s.kbd b).unread ≤ kbdBufferSize - 1) :
      ReadInterrupt s { s with kbd := kbdIsr s.kbd b, delivered := s.delivered ++ [b] }
  | timer {s : Readers Task} (next : Task) : ReadInterrupt s { s with current := next }

/-- The processor with the tasks that read keys. -/
def readProcessor (Task : Type) : Processor Task ReadCode (Readers Task) where
  running s := some s.current
  step := ReadStep
  interrupt := ReadInterrupt
  enabled l := l.iflag = true

/-! ### What is left of a call -/

/-- The end of a pass, and the passes behind it. -/
def finishPass (k : Kbd) (report : KeyReport) : Fuelled (Kbd × KeyReport) :=
  if report.repeatKey then pure (k, report)
  else if report.make then pure (k, report)
  else loop parsePass (k, report.reset)

namespace ReadCode

/-- The variables of the handler after the pass that the task is in. -/
def settled (k : Kbd) : ReadCode → Kbd
  | advance _ _ => k.take k.state
  | wrap _ _ => { k with tail := k.tail % kbdBufferSize, unread := k.unread - 1 }
  | _ => k

/-- What is left to be done of the loop that the task is in. -/
def remaining (k : Kbd) : ReadCode → Fuelled (Kbd × KeyReport)
  | caller _ _ => pure (k, .ignored)
  | test report _ => loop parsePass (k, report)
  | decode _ =>
    let (state, report) := keyboardStateMachine k.state (k.keyBuffer k.tail)
    finishPass (k.take state) report
  | advance report _ => finishPass (k.take k.state) report
  | wrap report _ =>
    finishPass { k with tail := k.tail % kbdBufferSize, unread := k.unread - 1 } report
  | check report _ => finishPass k report
  | exit report _ => pure (k, report)

theorem iflag_eq_false {l : ReadCode} (h : l.Inside) : l.iflag = false := by
  cases l <;> first | rfl | exact h.elim

end ReadCode

/-- A pass that finds a byte does what is left at the call of the decoder. -/
theorem loop_parsePass_of_ne {k : Kbd} {report : KeyReport} {saved : List Bool}
    {r : Kbd × KeyReport} (hne : k.tail ≠ k.head)
    (h : (ReadCode.remaining k (.decode saved)).Returns r) : (loop parsePass (k, report)).Returns r := by
  change (finishPass (k.take (keyboardStateMachine k.state (k.keyBuffer k.tail)).1)
    (keyboardStateMachine k.state (k.keyBuffer k.tail)).2).Returns r at h
  generalize hstep : keyboardStateMachine k.state (k.keyBuffer k.tail) = step at h
  obtain ⟨state, report'⟩ := step
  rw [finishPass] at h
  split at h
  · rename_i hrepeat
    obtain rfl := returns_pure_iff.1 h
    refine returns_loop_of_leave ?_
    simp only [parsePass, if_pos hne, hstep, if_pos hrepeat]
    exact returns_pure _
  · rename_i hrepeat
    split at h
    · rename_i hmake
      obtain rfl := returns_pure_iff.1 h
      refine returns_loop_of_leave ?_
      simp only [parsePass, if_pos hne, hstep, if_neg hrepeat, if_pos hmake]
      exact returns_pure _
    · rename_i hmake
      refine returns_loop_of_again ?_ h
      simp only [parsePass, if_pos hne, hstep, if_neg hrepeat, if_neg hmake]
      exact returns_pure _

/-- The loop ends at the first test that finds no byte. -/
theorem loop_parsePass_of_eq {k : Kbd} (report : KeyReport) (heq : k.tail = k.head) :
    (loop parsePass (k, report)).Returns (k, report) := by
  refine returns_loop_of_leave ?_
  rw [parsePass, if_neg (not_not.2 heq)]
  exact returns_pure _

/-! ### The invariant -/

/-- The keys of the reports with which calls have left the loop. -/
def keysReported (reports : List (Task × KeyReport)) : List (U32 × Bool) :=
  ((reports.map Prod.snd).filter KeyReport.make).filterMap keyOf

/-- What is true at every step of the running task: the variables are those after a run of whole
calls, and the call that the task is in ends as the next one would. -/
structure ReadersInv (l : ReadCode) (s : Readers Task) : Prop where
  events : ∃ run, Along KbdStep .start run ∧
    Along (fun _ _ k ↦ k.unread ≤ kbdBufferSize - 1) .start run ∧ bytesOf run = s.delivered ∧
    keysRead run = keysReported s.reports ∧ (l.Outside → s.kbd = finish .start run) ∧
    (l.Inside → ∀ r, (l.remaining s.kbd).Returns r → (parse (finish .start run)).Returns r)
  queued : ∃ q, Queued (l.settled s.kbd) q
  filled : ∀ saved, l = .decode saved → s.kbd.tail ≠ s.kbd.head
  flags : FlagsBalanced l.iflag l.saved

/-- What is known of a task that does not run. -/
structure ReadersRest (l : ReadCode) : Prop where
  iflag : l.iflag = true
  flags : FlagsBalanced l.iflag l.saved

variable {l l' : ReadCode} {s s' : Readers Task} {i : Task}

/-- Taking the byte at the tail leaves the others. -/
theorem Queued.take {k : Kbd} {b : U8} {q : List U8} (h : Queued k (b :: q)) (state : KbdState) :
    Queued (k.take state) q := by
  refine ⟨h.holds.pop, ?_⟩
  show k.unread - 1 = q.length
  rw [h.unread, List.length_cons, Nat.add_sub_cancel]

theorem Queued.exists_cons {k : Kbd} {q : List U8} (h : Queued k q) (hne : k.tail ≠ k.head) :
    ∃ b q', q = b :: q' := by
  cases q with
  | nil => exact absurd (h.holds.eq_nil_iff.2 rfl) hne
  | cons b q => exact ⟨b, q, rfl⟩

/-- Outside of `read_key`, what has been delivered has been taken in order or is still there, and
the keys reported are those of what was taken. -/
theorem ReadersInv.taken (h : ReadersInv l s) (hout : l.Outside) :
    ∃ taken rest, s.delivered = taken ++ rest ∧ Queued s.kbd rest ∧
      keysReported s.reports = keysOf .init taken := by
  obtain ⟨run, hrun, hroom, hbytes, hkeys, hkbd, -⟩ := h.events
  obtain ⟨taken, rest, heq, hq, htaken⟩ := kbdRun_taken queued_start hrun hroom
  rw [List.nil_append, hbytes] at heq
  rw [← hkbd hout] at hq
  exact ⟨taken, rest, heq, hq, hkeys.symm.trans htaken⟩

theorem Queued.unread_le {k : Kbd} {q : List U8} (h : Queued k q) :
    k.unread ≤ kbdBufferSize - 1 := by
  rw [h.unread]
  exact Nat.le_sub_one_of_lt h.holds.length_lt

/-- The end of a call is an event of its own. -/
theorem exists_readKey {k k' : Kbd} {q : List U8} {report : KeyReport} (h : Queued k q)
    (hparse : (parse k).Returns (k', report)) :
    ∃ result, (readKey k 0 0).Returns (result, k') ∧
      result.keys = ([report].filter KeyReport.make).filterMap keyOf := by
  obtain ⟨taken, rest, r, hparse', hparsed⟩ := @parse_returns k q h .ignored rfl rfl
  obtain rfl := hparse'.unique hparse
  rcases hparsed.makes with ⟨-, hmake⟩ | ⟨-, -, hmake, hrepeat⟩
  · obtain ⟨result, hfind, hkeys⟩ := findReport_returns report 0
    refine ⟨result, hparse.bind ?_, ?_⟩
    · dsimp only at hmake
      simp only [hmake, Bool.true_or, if_true]
      exact hfind.bind (returns_pure _)
    · rw [List.filter_cons_of_pos hmake, hkeys]
      cases hkey : keyOf report <;> simp [hkey]
  · refine ⟨⟨-1, 0, true⟩, hparse.bind ?_, ?_⟩
    · dsimp only at hmake hrepeat
      simp only [hmake, hrepeat, Bool.or_self, Bool.false_eq_true, if_false]
      exact returns_pure _
    · rw [List.filter_cons_of_neg (by simpa using hmake)]
      rfl

theorem keysReported_concat (reports : List (Task × KeyReport)) (i : Task) (report : KeyReport) :
    keysReported (reports ++ [(i, report)]) =
      keysReported reports ++ ([report].filter KeyReport.make).filterMap keyOf := by
  rw [keysReported, List.map_append, List.filter_append, List.filterMap_append]
  rfl

/-- **One step** keeps the invariant. -/
theorem ReadersInv.step (h : ReadersInv l s) (hstep : ReadStep i l s l' s') : ReadersInv l' s' := by
  obtain ⟨⟨run, hrun, hroom, hbytes, hkeys, hkbd, hparse⟩, hqueued, hfilled, hflags⟩ := h
  cases hstep with
  | disable =>
    exact ⟨⟨run, hrun, hroom, hbytes, hkeys, fun _ ↦ hkbd id, fun hin ↦ hin.elim⟩, hqueued, nofun,
      ⟨rfl, hflags⟩⟩
  | restore =>
    exact ⟨⟨run, hrun, hroom, hbytes, hkeys, fun _ ↦ hkbd id, fun hin ↦ hin.elim⟩, hqueued, nofun,
      hflags.2⟩
  | readKey =>
    refine ⟨⟨run, hrun, hroom, hbytes, hkeys, fun hout ↦ absurd trivial hout, fun _ r hr ↦ ?_⟩,
      hqueued, nofun, ⟨rfl, hflags⟩⟩
    rw [← hkbd id]
    exact hr
  | more hne =>
    refine ⟨⟨run, hrun, hroom, hbytes, hkeys, fun hout ↦ absurd trivial hout, fun _ r hr ↦ ?_⟩,
      hqueued, fun _ _ ↦ hne, hflags⟩
    exact hparse trivial r (loop_parsePass_of_ne hne hr)
  | @empty report saved _ heq =>
    refine ⟨⟨run, hrun, hroom, hbytes, hkeys, fun hout ↦ absurd trivial hout, fun _ r hr ↦ ?_⟩,
      hqueued, nofun, hflags⟩
    obtain rfl := returns_pure_iff.1 hr
    exact hparse trivial _ (loop_parsePass_of_eq report heq)
  | @decode saved =>
    obtain ⟨q, hq⟩ := hqueued
    obtain ⟨b, q, rfl⟩ := hq.exists_cons (hfilled saved rfl)
    exact ⟨⟨run, hrun, hroom, hbytes, hkeys, fun hout ↦ absurd trivial hout, hparse⟩,
      ⟨q, hq.take _⟩, nofun, hflags⟩
  | advance =>
    exact ⟨⟨run, hrun, hroom, hbytes, hkeys, fun hout ↦ absurd trivial hout, hparse⟩, hqueued, nofun,
      hflags⟩
  | wrap =>
    exact ⟨⟨run, hrun, hroom, hbytes, hkeys, fun hout ↦ absurd trivial hout, hparse⟩, hqueued, nofun,
      hflags⟩
  | @stop report saved _ hstop =>
    refine ⟨⟨run, hrun, hroom, hbytes, hkeys, fun hout ↦ absurd trivial hout, fun _ r hr ↦ ?_⟩,
      hqueued, nofun, hflags⟩
    refine hparse trivial r ?_
    show (finishPass s.kbd report).Returns r
    rw [finishPass]
    split
    · exact hr
    · rename_i hrepeat
      rw [if_pos (hstop.resolve_left hrepeat)]
      exact hr
  | @again report saved _ hrepeat hmake =>
    refine ⟨⟨run, hrun, hroom, hbytes, hkeys, fun hout ↦ absurd trivial hout, fun _ r hr ↦ ?_⟩,
      hqueued, nofun, hflags⟩
    refine hparse trivial r ?_
    show (finishPass s.kbd report).Returns r
    rw [finishPass, hrepeat, hmake]
    exact hr
  | @exit report eflags saved =>
    obtain ⟨taken, rest, -, hq, -⟩ := kbdRun_taken queued_start hrun hroom
    obtain ⟨result, hret, hresult⟩ := exists_readKey hq (hparse trivial _ (returns_pure _))
    obtain ⟨q, hq⟩ := hqueued
    refine ⟨⟨run ++ [(.readKey 0 0 result, s.kbd)], along_concat_iff.2 ⟨hrun, .readKey hret⟩,
      along_concat_iff.2 ⟨hroom, hq.unread_le⟩, ?_, ?_, fun _ ↦ (finish_concat ..).symm,
      fun hin ↦ hin.elim⟩, ⟨q, hq⟩, nofun, hflags.2⟩
    · rw [bytesOf, List.flatMap_append, ← bytesOf, hbytes]
      exact List.append_nil _
    · rw [keysRead, List.flatMap_append, ← keysRead, hkeys, keysReported_concat, ← hresult]
      exact congrArg _ (List.append_nil _)

/-- **Interrupts** find every task that can be running outside of the loop. -/
theorem ReadersInv.interrupt (h : ReadersInv l s) (hon : l.iflag = true)
    (hint : ReadInterrupt s s') (hrest : ReadersRest l') : ReadersInv l' s' := by
  have hout : ∀ {l : ReadCode}, l.iflag = true → l.Outside := fun hon hin ↦ by
    simp [ReadCode.iflag_eq_false hin] at hon
  have hsettled : ∀ {l : ReadCode} (k : Kbd), l.Outside → l.settled k = k := fun {l} k hl ↦ by
    cases l <;> first | rfl | exact absurd trivial hl
  have hfilled : ∀ k : Kbd, ∀ saved, l' = .decode saved → k.tail ≠ k.head := by
    rintro k saved rfl
    exact absurd trivial (hout hrest.iflag)
  obtain ⟨⟨run, hrun, hroom, hbytes, hkeys, hkbd, -⟩, ⟨q, hq⟩, -, -⟩ := h
  rw [hsettled _ (hout hon)] at hq
  cases hint with
  | kbd b hfits =>
    refine ⟨⟨run ++ [(.isr b, kbdIsr s.kbd b)], along_concat_iff.2 ⟨hrun, ?_⟩,
      along_concat_iff.2 ⟨hroom, hfits⟩, ?_, ?_, fun _ ↦ (finish_concat ..).symm,
      fun hin ↦ absurd hin (hout hrest.iflag)⟩, ⟨q ++ [b], ?_⟩, hfilled _, hrest.flags⟩
    · rw [← hkbd (hout hon)]
      exact .isr b
    · rw [bytesOf, List.flatMap_append, ← bytesOf, hbytes]
      rfl
    · rw [keysRead, List.flatMap_append, ← keysRead, hkeys]
      exact List.append_nil _
    · rw [hsettled _ (hout hrest.iflag)]
      exact hq.kbdIsr hfits
  | timer next =>
    refine ⟨⟨run, hrun, hroom, hbytes, hkeys, fun _ ↦ hkbd (hout hon),
      fun hin ↦ absurd hin (hout hrest.iflag)⟩, ⟨q, ?_⟩, hfilled _, hrest.flags⟩
    rwa [hsettled _ (hout hrest.iflag)]

theorem readersInv_kept : (readProcessor Task).KeepsInvariant ReadersInv ReadersRest where
  step hrun h hstep := by
    refine ⟨?_, h.step hstep⟩
    cases hstep <;> exact hrun
  interrupted h hon := ⟨hon, h.flags⟩
  interrupt _ h hon hint := ⟨_, rfl, fun _ hrest ↦ h.interrupt hon hint hrest⟩

/-! ### Leaving the loop -/

theorem gets_exit (i : Task) (report : KeyReport) {saved : List Bool} (hsaved : saved ≠ [])
    (s : Readers Task) :
    (readProcessor Task).Gets i ReadCode.Outside 1 (.exit report saved) s := by
  obtain ⟨eflags, saved, rfl⟩ := List.exists_cons_of_ne_nil hsaved
  exact .later .exit (.now id)

/-- From the end of a pass, the call ends or the next pass begins. -/
theorem gets_check {i : Task} {saved : List Bool} (hsaved : saved ≠ []) {s : Readers Task} {n : ℕ}
    (hn : 1 ≤ n) (htest : ∀ report, (readProcessor Task).Gets i ReadCode.Outside n
      (.test report saved) s) (report : KeyReport) :
    (readProcessor Task).Gets i ReadCode.Outside (n + 1) (.check report saved) s := by
  by_cases hstop : report.repeatKey = true ∨ report.make = true
  · exact .later (.stop hstop) ((gets_exit i report hsaved s).mono hn)
  · rw [not_or, Bool.not_eq_true, Bool.not_eq_true] at hstop
    exact .later (.again hstop.1 hstop.2) (htest _)

/-- The loop makes one pass of five steps for each byte. -/
theorem gets_test (i : Task) {saved : List Bool} (hsaved : saved ≠ []) {q : List U8} :
    ∀ {s : Readers Task} (report : KeyReport), Queued s.kbd q →
      (readProcessor Task).Gets i ReadCode.Outside (5 * q.length + 2) (.test report saved) s := by
  induction q with
  | nil =>
    intro s report hq
    exact .later (.empty (hq.holds.eq_nil_iff.2 rfl)) (gets_exit i report hsaved s)
  | cons b q ih =>
    intro s report hq
    have hne : s.kbd.tail ≠ s.kbd.head := fun heq ↦ absurd (hq.holds.eq_nil_iff.1 heq) (by simp)
    have hlen : 5 * (b :: q).length + 2 = 5 * q.length + 2 + 1 + 1 + 1 + 1 + 1 := by
      rw [List.length_cons, Nat.mul_succ]
    rw [hlen]
    refine .later (.more hne) (.later .decode (.later .advance (.later .wrap ?_)))
    exact gets_check hsaved (by omega) (fun report ↦ ih report (hq.take _)) _

/-- **Interrupts are not disabled for long.** A task in the loop leaves it after at most fifty
steps. -/
theorem ReadersInv.gets (h : ReadersInv l s) (i : Task) :
    (readProcessor Task).Gets i ReadCode.Outside 50 l s := by
  have hsaved : l.Inside → l.saved ≠ [] := fun hin hnil ↦ by
    have hflags := h.flags
    rw [ReadCode.iflag_eq_false hin, hnil] at hflags
    exact absurd hflags Bool.false_ne_true
  obtain ⟨q, hq⟩ := h.queued
  have hlen : q.length ≤ 9 := Nat.le_of_lt_succ hq.holds.length_lt
  -- what is left of the loop from the end of a pass
  have hcheck : ∀ {s : Readers Task}, Queued s.kbd q → l.Inside → ∀ report,
      (readProcessor Task).Gets i ReadCode.Outside 48 (.check report l.saved) s :=
    fun hq hin report ↦ (gets_check (hsaved hin) (by omega)
      (fun report ↦ gets_test i (hsaved hin) report hq) report).mono (by omega)
  cases l with
  | caller iflag saved => exact .now id
  | test report saved => exact (gets_test i (hsaved trivial) report hq).mono (by omega)
  | decode saved =>
    obtain ⟨b, q, rfl⟩ := hq.exists_cons (h.filled saved rfl)
    rw [List.length_cons] at hlen
    refine .later .decode (.later .advance (.later .wrap ?_))
    exact (gets_check (hsaved trivial) (by omega)
      (fun report ↦ gets_test i (hsaved trivial) report (hq.take _)) _).mono (by omega)
  | advance report saved => exact .later .advance (.later .wrap (hcheck hq trivial report))
  | wrap report saved => exact .later .wrap ((hcheck hq trivial report).mono (by omega))
  | check report saved => exact (hcheck hq trivial report).mono (by omega)
  | exit report saved => exact (gets_exit i report (hsaved trivial) s).mono (by omega)

/-! ### Every order of steps -/

/-- The variables before the first byte. -/
def Readers.start (idleTask : Task) : Readers Task := ⟨.start, idleTask, [], []⟩

theorem readersInv_start (idleTask : Task) : ReadersInv (.caller true []) (.start idleTask) where
  events := ⟨[], trivial, trivial, rfl, rfl, fun _ ↦ rfl, fun hin ↦ hin.elim⟩
  queued := ⟨[], queued_start⟩
  filled := nofun
  flags := rfl

/-- **Keys are read once, whoever reads them.** Tasks call `read_key`, read by read and write by
write, the keyboard delivers bytes and the timer interrupts wherever interrupts are enabled, and no
more than `kbdBufferSize - 1` bytes are ever unread. Whenever the running task is outside of the
loop, what has been delivered has been taken in order or is in the buffer, and the keys reported by
all calls together are those of what was taken. A task in the loop leaves it after at most fifty
steps, and interrupts are enabled exactly where no critical section is open. -/
theorem preempted_readKey [DecidableEq Task] {idleTask : Task} {c : Task → ReadCode}
    {s : Readers Task} (hreach : ReflTransGen (readProcessor Task).Step
      (fun _ ↦ .caller true [], .start idleTask) (c, s)) :
    ((c s.current).Outside → ∃ taken rest, s.delivered = taken ++ rest ∧ Queued s.kbd rest ∧
        keysReported s.reports = keysOf .init taken) ∧
      (readProcessor Task).Gets s.current ReadCode.Outside 50 (c s.current) s ∧
      ((c s.current).iflag = true ↔ (c s.current).saved = []) ∧
      ∀ j, j ≠ s.current → (c j).iflag = true ∧ (c j).saved = [] := by
  have hrest : ReadersRest (.caller true []) := ⟨rfl, rfl⟩
  obtain ⟨i, hrun, hinv, hothers⟩ := readersInv_kept.of_reaches
    ⟨idleTask, rfl, readersInv_start idleTask, fun _ _ ↦ hrest⟩ hreach
  obtain rfl : s.current = i := Option.some.inj hrun
  refine ⟨hinv.taken, hinv.gets s.current, hinv.flags.iflag_iff, fun j hj ↦ ?_⟩
  obtain ⟨hon, hflags⟩ := hothers j hj
  exact ⟨hon, hflags.iflag_iff.1 hon⟩

/-- A byte arrives while the idle task runs, and the next task reads its key. -/
theorem preempted_readKey_switched : ∃ c s, ReflTransGen (readProcessor ℕ).Step
      (fun _ ↦ .caller true [], .start 0) (c, s) ∧
    s.delivered = [0x1C] ∧ keysReported s.reports = [(0x41, true)] ∧
    ∃ taken rest, s.delivered = taken ++ rest ∧ Queued s.kbd rest ∧
      keysReported s.reports = keysOf .init taken := by
  have hreach : ReflTransGen (readProcessor ℕ).Step (fun _ ↦ .caller true [], .start 0) _ :=
    .tail (.tail (.tail (.tail (.tail (.tail (.tail (.tail (.tail .refl
      (.interrupt (fun i hi ↦ by obtain rfl := Option.some.inj hi; rfl) (.kbd 0x1C (by decide))))
      (.interrupt (fun i hi ↦ by obtain rfl := Option.some.inj hi; rfl) (.timer 1)))
      (.task (i := 1) rfl .readKey))
      (.task (i := 1) rfl (.more (by decide))))
      (.task (i := 1) rfl .decode))
      (.task (i := 1) rfl .advance))
      (.task (i := 1) rfl .wrap))
      (.task (i := 1) rfl (.stop (Or.inr rfl))))
      (.task (i := 1) rfl .exit)
  exact ⟨_, _, hreach, rfl, by decide, (preempted_readKey hreach).1 id⟩

end Ganoid
