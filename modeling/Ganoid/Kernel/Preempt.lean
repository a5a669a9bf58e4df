import Ganoid.Kernel.Process
import Ganoid.Library.Preemption

/-!
# Critical sections of the scheduler

The timer may interrupt a task anywhere, and the next task may call what the first one is in the
middle of. `ENTER_CRITICAL_SECTION` and `EXIT_CRITICAL_SECTION` are what keeps
`add_task_to_run_queue` and `get_free_task_struct` whole all the same: `disable_interrupts` clears
the interrupt flag and returns the flags as they were, and `restore_interrupts` puts these back.

Here every task runs code of its own, which opens and closes critical sections and calls the two
functions, one read or write at a time, and the timer interrupts it wherever the flag is set. What a
step inside of a function leaves to be done is `QueueCode.remaining`, so that a function whose
steps are taken one by one does what the function of `Ganoid.Kernel.Sched` does (`mid_step`), and no
insertion is lost, however the tasks take turns (`preempted_runQueue`).
-/

open Fuelled Relation

namespace Ganoid

variable {Task : Type} [DecidableEq Task]

/-! ### Steps -/

/-- Where a task is, with the flags that the critical sections it is in will restore, the innermost
first. Only in code of its own can it have interrupts enabled. -/
inductive QueueCode (Task : Type)
  /-- In code of its own, with the interrupt flag. -/
  | caller (iflag : Bool) (saved : List Bool)
  /-- In `while (1)` of a failed assertion. -/
  | hang (iflag : Bool) (saved : List Bool)
  /-- At the test of the loop of `add_task_to_run_queue`. -/
  | walk (task node : Task) (saved : List Bool)
  /-- At `node->next = task`. -/
  | linkNext (task node : Task) (saved : List Bool)
  /-- At `task->prev = node`. -/
  | linkPrev (task node : Task) (saved : List Bool)
  /-- At `task->next = NULL`. -/
  | clearNext (task : Task) (saved : List Bool)
  /-- At the `EXIT_CRITICAL_SECTION` of `add_task_to_run_queue`. -/
  | added (task : Task) (saved : List Bool)
  /-- At the read of `task_struct_array_index` in `get_free_task_struct`. -/
  | readIndex (saved : List Bool)
  /-- At its increment. -/
  | writeIndex (allocatedIndex : U32) (saved : List Bool)
  /-- At the `EXIT_CRITICAL_SECTION` of `get_free_task_struct`. -/
  | allocated (allocatedIndex : U32) (saved : List Bool)
  /-- At its assertion. -/
  | asserting (allocatedIndex : U32) (iflag : Bool) (saved : List Bool)

namespace QueueCode

/-- The interrupt flag. -/
def iflag : QueueCode Task → Bool
  | caller iflag _ => iflag
  | hang iflag _ => iflag
  | asserting _ iflag _ => iflag
  | _ => false

/-- The flags that will be restored. -/
def saved : QueueCode Task → List Bool
  | caller _ saved | hang _ saved | asserting _ _ saved => saved
  | walk _ _ saved | linkNext _ _ saved | linkPrev _ _ saved | clearNext _ saved => saved
  | added _ saved | readIndex saved | writeIndex _ saved | allocated _ saved => saved

/-- Between the `disable_interrupts` and the `restore_interrupts` of one of the two functions. -/
def InSection : QueueCode Task → Prop
  | caller _ _ | hang _ _ | asserting _ _ _ => False
  | _ => True

end QueueCode

/-- The variables of the two files; and the tasks whose insertion is complete, the indices that calls
of `get_free_task_struct` have taken in their critical sections, and those of them that calls have
returned, which no function consults. -/
structure Queue (Task : Type) where
  sched : Sched Task
  taskStructArrayIndex : U32
  added : List Task
  taken : List U32
  given : List U32

/-- `node->next = p`. -/
def Sched.setNext (s : Sched Task) (node : Task) (p : Option Task) : Sched Task :=
  { s with next := Function.update s.next node p }

/-- `node->prev = p`. -/
def Sched.setPrev (s : Sched Task) (node : Task) (p : Option Task) : Sched Task :=
  { s with prev := Function.update s.prev node p }

/-- One read or write of a task. A caller adds only tasks that are not in the queue. -/
inductive QueueStep (maxCreateThreads : ℕ) : QueueCode Task → Queue Task → QueueCode Task →
    Queue Task → Prop
  | disable {iflag : Bool} {saved : List Bool} {s : Queue Task} :
      QueueStep maxCreateThreads (.caller iflag saved) s (.caller false (iflag :: saved)) s
  | restore {iflag eflags : Bool} {saved : List Bool} {s : Queue Task} :
      QueueStep maxCreateThreads (.caller iflag (eflags :: saved)) s (.caller eflags saved) s
  | addTask {iflag : Bool} {saved : List Bool} {s : Queue Task} {task head : Task}
      (hhead : s.sched.head = some head) (hnew : task ∉ head :: s.added) :
      QueueStep maxCreateThreads (.caller iflag saved) s (.walk task head (iflag :: saved)) s
  | next {task node next : Task} {saved : List Bool} {s : Queue Task}
      (hnext : s.sched.next node = some next) :
      QueueStep maxCreateThreads (.walk task node saved) s (.walk task next saved) s
  | last {task node : Task} {saved : List Bool} {s : Queue Task}
      (hnext : s.sched.next node = none) :
      QueueStep maxCreateThreads (.walk task node saved) s (.linkNext task node saved) s
  | linkNext {task node : Task} {saved : List Bool} {s : Queue Task} :
      QueueStep maxCreateThreads (.linkNext task node saved) s (.linkPrev task node saved)
        { s with sched := s.sched.setNext node (some task) }
  | linkPrev {task node : Task} {saved : List Bool} {s : Queue Task} :
      QueueStep maxCreateThreads (.linkPrev task node saved) s (.clearNext task saved)
        { s with sched := s.sched.setPrev task (some node) }
  | clearNext {task : Task} {saved : List Bool} {s : Queue Task} :
      QueueStep maxCreateThreads (.clearNext task saved) s (.added task saved)
        { s with sched := s.sched.setNext task none }
  | added {task : Task} {eflags : Bool} {saved : List Bool} {s : Queue Task} :
      QueueStep maxCreateThreads (.added task (eflags :: saved)) s (.caller eflags saved)
        { s with added := s.added ++ [task] }
  | getTaskStruct {iflag : Bool} {saved : List Bool} {s : Queue Task} :
      QueueStep maxCreateThreads (.caller iflag saved) s (.readIndex (iflag :: saved)) s
  | readIndex {saved : List Bool} {s : Queue Task} :
      QueueStep maxCreateThreads (.readIndex saved) s (.writeIndex s.taskStructArrayIndex saved) s
  | writeIndex {allocatedIndex : U32} {saved : List Bool} {s : Queue Task} :
      QueueStep maxCreateThreads (.writeIndex allocatedIndex saved) s
        (.allocated allocatedIndex saved) { s with taskStructArrayIndex := allocatedIndex + 1 }
  | allocated {allocatedIndex : U32} {eflags : Bool} {saved : List Bool} {s : Queue Task} :
      QueueStep maxCreateThreads (.allocated allocatedIndex (eflags :: saved)) s
        (.asserting allocatedIndex eflags saved) { s with taken := s.taken ++ [allocatedIndex] }
  | assertFails {allocatedIndex : U32} {iflag : Bool} {saved : List Bool} {s : Queue Task}
      (hfails : logicalNot allocatedIndex < maxCreateThreads) :
      QueueStep maxCreateThreads (.asserting allocatedIndex iflag saved) s (.hang iflag saved) s
  | assertPasses {allocatedIndex : U32} {iflag : Bool} {saved : List Bool} {s : Queue Task}
      (hpasses : ¬ logicalNot allocatedIndex < maxCreateThreads) :
      QueueStep maxCreateThreads (.asserting allocatedIndex iflag saved) s (.caller iflag saved)
        { s with given := s.given ++ [allocatedIndex] }

/-- The timer interrupt calls `schedule_pending`, with the stack pointer of the frame it has
pushed. -/
inductive TimerInterrupt : Queue Task → Queue Task → Prop
  | mk {s : Queue Task} {framePtr esp : U32} {sched : Sched Task}
      (hpending : s.sched.schedulePending framePtr = some (esp, sched)) :
      TimerInterrupt s { s with sched := sched }

theorem QueueStep.currentTask_eq {maxCreateThreads : ℕ} {l l' : QueueCode Task} {s s' : Queue Task}
    (h : QueueStep maxCreateThreads l s l' s') : s'.sched.currentTask = s.sched.currentTask := by
  cases h <;> rfl

/-- The processor with its tasks. -/
def queueProcessor (Task : Type) [DecidableEq Task] (maxCreateThreads : ℕ) :
    Processor Task (QueueCode Task) (Queue Task) where
  running s := s.sched.currentTask
  step _ := QueueStep maxCreateThreads
  interrupt := TimerInterrupt
  enabled l := l.iflag = true

/-! ### What is left of a call -/

namespace QueueCode

/-- The task that is being added. -/
def adding : QueueCode Task → List Task
  | walk task _ _ | linkNext task _ _ | linkPrev task _ _ => [task]
  | clearNext task _ | added task _ => [task]
  | _ => []

/-- What is left to be done of the call of `add_task_to_run_queue` that the task is in. -/
def remaining (s : Sched Task) : QueueCode Task → Fuelled (Sched Task)
  | walk task node _ => do
    let node ← s.lastNode node
    pure (((s.setNext node (some task)).setPrev task (some node)).setNext task none)
  | linkNext task node _ =>
    pure (((s.setNext node (some task)).setPrev task (some node)).setNext task none)
  | linkPrev task node _ => pure ((s.setPrev task (some node)).setNext task none)
  | clearNext task _ => pure (s.setNext task none)
  | _ => pure s

/-- The index that the next call of `get_free_task_struct` will allocate, or the one that the call
in progress does. -/
def nextIndex (s : Queue Task) : QueueCode Task → U32
  | writeIndex allocatedIndex _ | allocated allocatedIndex _ => allocatedIndex
  | _ => s.taskStructArrayIndex

end QueueCode

/-! ### The invariant -/

/-- What is true at every step of the running task: once its call is done, the queue is as after some
calls of the functions in one piece. -/
structure QueueInv (maxCreateThreads : ℕ) (idleTask : Task) (s₀ : Queue Task)
    (l : QueueCode Task) (s : Queue Task) : Prop where
  calls : ∃ calls, added calls = s.added ++ l.adding ∧
    ∀ r, (l.remaining s.sched).Returns r → (calls.foldlM SchedCall.run s₀.sched).Returns r
  nodup : (idleTask :: (s.added ++ l.adding)).Nodup
  walking : ∀ task node saved, l = .walk task node saved →
    ∃ rest, rest.length ≤ s.added.length + 1 ∧ Visits s.sched.next (some node) rest
  flags : FlagsBalanced l.iflag l.saved
  taken : s.taken = (List.range s.taken.length).map (BitVec.ofNat 32)
  nextIndex : l.nextIndex s = BitVec.ofNat 32 s.taken.length
  incremented : ∀ i saved, l = .allocated i saved → s.taskStructArrayIndex = i + 1
  given : ∀ i ∈ s.given, maxCreateThreads ≤ logicalNot i

/-- What is known of a task that does not run. -/
structure QueueRest (l : QueueCode Task) : Prop where
  iflag : l.iflag = true
  flags : FlagsBalanced l.iflag l.saved

variable {idleTask : Task} {s₀ s s' : Queue Task} {l l' : QueueCode Task} {maxCreateThreads : ℕ}

omit [DecidableEq Task] in
theorem QueueCode.iflag_eq_false (h : l.InSection) : l.iflag = false := by
  cases l <;> first | rfl | exact h.elim

omit [DecidableEq Task] in
theorem QueueCode.adding_eq_nil (h : ¬ l.InSection) : l.adding = [] := by
  cases l <;> first | rfl | exact absurd trivial h

theorem QueueCode.remaining_eq (h : ¬ l.InSection) (s : Sched Task) : l.remaining s = pure s := by
  cases l <;> first | rfl | exact absurd trivial h

omit [DecidableEq Task] in
theorem QueueCode.nextIndex_eq (h : ¬ l.InSection) (s : Queue Task) :
    l.nextIndex s = s.taskStructArrayIndex := by
  cases l <;> first | rfl | exact absurd trivial h

/-- A call of `add_task_to_run_queue` has left to do what it does. -/
theorem addTaskToRunQueue_eq {s : Sched Task} {head : Task} (hhead : s.head = some head)
    (task : Task) (saved : List Bool) :
    s.addTaskToRunQueue task = QueueCode.remaining s (.walk task head saved) := by
  rw [Sched.addTaskToRunQueue]
  split
  · rename_i hnone
    exact absurd (hnone.symm.trans hhead) (Option.some_ne_none head).symm
  · rename_i head' hhead'
    obtain rfl : head = head' := Option.some.inj (hhead.symm.trans hhead')
    rfl

/-- Outside of the critical sections, the queue is one that calls in one piece can lead to. -/
theorem QueueInv.runQueue (h : QueueInv maxCreateThreads idleTask s₀ l s)
    (hs₀ : RunQueue s₀.sched [idleTask])
    (hout : ¬ l.InSection) : ∃ calls, (calls.foldlM SchedCall.run s₀.sched).Returns s.sched ∧
      added calls = s.added ∧ RunQueue s.sched (idleTask :: s.added) := by
  obtain ⟨calls, hadded, hcalls⟩ := h.calls
  rw [QueueCode.adding_eq_nil hout, List.append_nil] at hadded
  rw [QueueCode.remaining_eq hout] at hcalls
  have hret := hcalls _ (returns_pure _)
  have hnodup := h.nodup
  rw [QueueCode.adding_eq_nil hout, List.append_nil, ← hadded] at hnodup
  obtain ⟨sched, hret', hqueue⟩ := exec_returns hs₀ calls hnodup
  obtain rfl := hret.unique hret'
  exact ⟨calls, hret, hadded, hadded ▸ hqueue⟩

/-- With two threads or more the assertion always fails, so no index is returned. -/
theorem QueueInv.given_eq_nil (h : QueueInv maxCreateThreads idleTask s₀ l s)
    (hmax : 2 ≤ maxCreateThreads) : s.given = [] := by
  refine List.eq_nil_iff_forall_not_mem.2 fun n hn ↦ ?_
  have hle := hmax.trans (h.given n hn)
  rw [logicalNot] at hle
  split at hle <;> exact absurd hle (by decide)

/-- **One step** keeps the invariant. -/
theorem QueueInv.step (h : QueueInv maxCreateThreads idleTask s₀ l s)
    (hs₀ : RunQueue s₀.sched [idleTask]) (hstep : QueueStep maxCreateThreads l s l' s') :
    QueueInv maxCreateThreads idleTask s₀ l' s' := by
  have hqueue := fun hout ↦ h.runQueue hs₀ hout
  obtain ⟨⟨calls, hadded, hcalls⟩, hnodup, hwalking, hflags, htaken, hindex, hincr, hgiven⟩ := h
  cases hstep with
  | disable =>
    exact ⟨⟨calls, hadded, hcalls⟩, hnodup, nofun, ⟨rfl, hflags⟩, htaken, hindex, nofun, hgiven⟩
  | restore =>
    exact ⟨⟨calls, hadded, hcalls⟩, hnodup, nofun, hflags.2, htaken, hindex, nofun, hgiven⟩
  | @addTask _ _ _ task head hhead hnew =>
    obtain ⟨-, -, -, hrun⟩ := hqueue id
    have hadded : added calls = s.added := hadded.trans (List.append_nil _)
    have hnodup : (idleTask :: s.added).Nodup := by simpa [QueueCode.adding] using hnodup
    obtain rfl : head = idleTask := Option.some.inj (hhead.symm.trans hrun.visits.head_eq)
    refine ⟨⟨calls ++ [.addTaskToRunQueue task], ?_, fun r hr ↦ ?_⟩, ?_, ?_, ⟨rfl, hflags⟩, htaken,
      hindex, nofun, hgiven⟩
    · rw [added_append, hadded]
      rfl
    · refine (hcalls _ (returns_pure _)).foldlM_concat ?_
      show (s.sched.addTaskToRunQueue task).Returns r
      rwa [addTaskToRunQueue_eq hhead task _]
    · refine List.nodup_append.2 ⟨hnodup, List.nodup_singleton task, ?_⟩
      rintro a ha b hb rfl
      exact hnew (List.mem_singleton.1 hb ▸ ha)
    · rintro _ _ _ ⟨⟩
      exact ⟨head :: s.added, Nat.le_refl _, hhead ▸ hrun.visits⟩
  | @next task node next saved _ hnext =>
    refine ⟨⟨calls, hadded, fun r hr ↦ hcalls r ?_⟩, hnodup, ?_, hflags, htaken, hindex, nofun,
      hgiven⟩
    · obtain ⟨last, hlast, hr⟩ := returns_bind_iff.1 hr
      refine Returns.bind (returns_loop_of_again ?_ hlast) hr
      rw [hnext]
      exact returns_pure _
    · rintro _ _ _ ⟨⟩
      obtain ⟨rest, hlen, hvisits⟩ := hwalking task node saved rfl
      cases rest with
      | nil => exact absurd hvisits (Option.some_ne_none node)
      | cons a rest =>
        obtain ⟨hnode, hrest⟩ := hvisits
        obtain rfl := Option.some.inj hnode
        rw [hnext] at hrest
        exact ⟨rest, (Nat.le_succ _).trans hlen, hrest⟩
  | last hnext =>
    refine ⟨⟨calls, hadded, fun r hr ↦ hcalls r ?_⟩, hnodup, nofun, hflags, htaken, hindex, nofun,
      hgiven⟩
    refine Returns.bind (returns_loop_of_leave ?_) hr
    rw [hnext]
    exact returns_pure _
  | linkNext =>
    exact ⟨⟨calls, hadded, hcalls⟩, hnodup, nofun, hflags, htaken, hindex, nofun, hgiven⟩
  | linkPrev =>
    exact ⟨⟨calls, hadded, hcalls⟩, hnodup, nofun, hflags, htaken, hindex, nofun, hgiven⟩
  | clearNext =>
    exact ⟨⟨calls, hadded, hcalls⟩, hnodup, nofun, hflags, htaken, hindex, nofun, hgiven⟩
  | added =>
    refine ⟨⟨calls, ?_, hcalls⟩, ?_, nofun, hflags.2, htaken, hindex, nofun, hgiven⟩
    · rw [hadded]
      exact (List.append_nil _).symm
    · simpa [QueueCode.adding] using hnodup
  | getTaskStruct =>
    exact ⟨⟨calls, hadded, hcalls⟩, hnodup, nofun, ⟨rfl, hflags⟩, htaken, hindex, nofun, hgiven⟩
  | readIndex =>
    exact ⟨⟨calls, hadded, hcalls⟩, hnodup, nofun, hflags, htaken, hindex, nofun, hgiven⟩
  | @writeIndex allocatedIndex saved =>
    refine ⟨⟨calls, hadded, hcalls⟩, hnodup, nofun, hflags, htaken, hindex, ?_, hgiven⟩
    rintro i _ ⟨⟩
    rfl
  | @allocated allocatedIndex eflags saved =>
    obtain rfl : allocatedIndex = BitVec.ofNat 32 s.taken.length := hindex
    refine ⟨⟨calls, hadded, hcalls⟩, hnodup, nofun, hflags.2, ?_, ?_, nofun, hgiven⟩
    · rw [List.length_append, List.length_singleton, List.range_succ, List.map_append, ← htaken]
      rfl
    · show s.taskStructArrayIndex = _
      rw [hincr _ (eflags :: saved) rfl, List.length_append]
      exact (BitVec.ofNat_add ..).symm
  | assertFails =>
    exact ⟨⟨calls, hadded, hcalls⟩, hnodup, nofun, hflags, htaken, hindex, nofun, hgiven⟩
  | assertPasses hpasses =>
    refine ⟨⟨calls, hadded, hcalls⟩, hnodup, nofun, hflags, htaken, hindex, nofun, fun i hi ↦ ?_⟩
    rcases List.mem_append.1 hi with hi | hi
    · exact hgiven i hi
    · exact List.mem_singleton.1 hi ▸ Nat.le_of_not_lt hpasses

/-- **Interrupts.** Where the interrupt flag is set, the timer finds the next task, and every task
that can be the next one may go on. -/
theorem QueueInv.interrupt (h : QueueInv maxCreateThreads idleTask s₀ l s)
    (hs₀ : RunQueue s₀.sched [idleTask])
    (hon : l.iflag = true) (hint : TimerInterrupt s s') :
    ∃ j, s'.sched.currentTask = some j ∧
      ∀ l', QueueRest l' → QueueInv maxCreateThreads idleTask s₀ l' s' := by
  have hout : ¬ l.InSection := fun hin ↦ by simp [QueueCode.iflag_eq_false hin] at hon
  obtain ⟨calls, hret, hadded, hqueue⟩ := h.runQueue hs₀ hout
  obtain ⟨i, hi, hcur⟩ := hqueue.current
  cases hint with
  | @mk framePtr esp sched hpending =>
    obtain ⟨esp', sched', hpending', -, hcur'⟩ := schedulePending_next hqueue hi hcur framePtr
    obtain ⟨-, rfl⟩ := Prod.mk.inj (Option.some.inj (hpending.symm.trans hpending'))
    have hmod : (i + 1) % (idleTask :: s.added).length < (idleTask :: s.added).length :=
      Nat.mod_lt _ (Nat.zero_lt_of_lt hi)
    rw [List.getElem?_eq_getElem hmod] at hcur'
    refine ⟨_, hcur', fun l' hrest ↦ ?_⟩
    have hout' : ¬ l'.InSection := fun hin ↦ by
      simpa [QueueCode.iflag_eq_false hin] using hrest.iflag
    have hadding := QueueCode.adding_eq_nil hout'
    refine ⟨⟨calls ++ [.schedulePending framePtr], ?_, fun r hr ↦ ?_⟩, ?_, ?_, hrest.flags, h.taken,
      ?_, ?_, h.given⟩
    · rw [added_append, hadded, hadding]
      rfl
    · rw [QueueCode.remaining_eq hout'] at hr
      obtain rfl := returns_pure_iff.1 hr
      refine hret.foldlM_concat ?_
      rw [SchedCall.run, hpending]
      exact returns_pure _
    · have hnodup := h.nodup
      rw [QueueCode.adding_eq_nil hout] at hnodup
      rwa [hadding]
    · rintro task node saved rfl
      exact absurd trivial hout'
    · have hindex := h.nextIndex
      rw [QueueCode.nextIndex_eq hout] at hindex
      rwa [QueueCode.nextIndex_eq hout']
    · rintro i saved rfl
      exact absurd trivial hout'

theorem queueInv_kept (hs₀ : RunQueue s₀.sched [idleTask]) :
    (queueProcessor Task maxCreateThreads).KeepsInvariant (QueueInv maxCreateThreads idleTask s₀)
      QueueRest where
  step hrun h hstep := ⟨hstep.currentTask_eq.trans hrun, h.step hs₀ hstep⟩
  interrupted h hon := ⟨hon, h.flags⟩
  interrupt _ h hon hint := h.interrupt hs₀ hon hint

/-! ### Leaving a critical section -/

/-- Not in the critical section of either function. At its assertion, and in the endless loop of one
that has failed, a task has left the critical section of `get_free_task_struct` but not the
function. -/
def QueueCode.LeftSection (l : QueueCode Task) : Prop := ¬ l.InSection

theorem gets_added (i task : Task) {saved : List Bool} (hsaved : saved ≠ []) (s : Queue Task) :
    (queueProcessor Task maxCreateThreads).Gets i QueueCode.LeftSection 1 (.added task saved) s := by
  obtain ⟨eflags, saved, rfl⟩ := List.exists_cons_of_ne_nil hsaved
  exact .later .added (.now id)

theorem gets_allocated (i : Task) (allocatedIndex : U32) {saved : List Bool} (hsaved : saved ≠ [])
    (s : Queue Task) : (queueProcessor Task maxCreateThreads).Gets i QueueCode.LeftSection 1
      (.allocated allocatedIndex saved) s := by
  obtain ⟨eflags, saved, rfl⟩ := List.exists_cons_of_ne_nil hsaved
  exact .later .allocated (.now id)

/-- From the end of the list, four steps are left. -/
theorem gets_linkNext (i task node : Task) {saved : List Bool} (hsaved : saved ≠ [])
    (s : Queue Task) : (queueProcessor Task maxCreateThreads).Gets i QueueCode.LeftSection 4
      (.linkNext task node saved) s :=
  .later .linkNext (.later .linkPrev (.later .clearNext (gets_added i task hsaved _)))

/-- The walk goes once through what is left of the list. -/
theorem gets_walk (i task : Task) {saved : List Bool} (hsaved : saved ≠ []) {rest : List Task} :
    ∀ {node : Task}, Visits s.sched.next (some node) rest →
      (queueProcessor Task maxCreateThreads).Gets i QueueCode.LeftSection (rest.length + 4)
        (.walk task node saved) s := by
  induction rest with
  | nil => exact fun hvisits ↦ absurd hvisits (Option.some_ne_none _)
  | cons a rest ih =>
    rintro node ⟨hnode, hrest⟩
    obtain rfl := Option.some.inj hnode
    rw [List.length_cons, Nat.add_right_comm]
    cases hnext : s.sched.next node with
    | none => exact .later (.last hnext) ((gets_linkNext i task node hsaved s).mono (by omega))
    | some next =>
      rw [hnext] at hrest
      exact .later (.next hnext) (ih hrest)

/-- **Interrupts are not disabled for long.** A task in the critical section of one of the two
functions leaves it after at most five steps more than there are tasks that were added. -/
theorem QueueInv.gets (h : QueueInv maxCreateThreads idleTask s₀ l s) (i : Task) :
    (queueProcessor Task maxCreateThreads).Gets i QueueCode.LeftSection (s.added.length + 5) l
      s := by
  have hsaved : l.InSection → l.saved ≠ [] := fun hin hnil ↦ by
    have hflags := h.flags
    rw [QueueCode.iflag_eq_false hin, hnil] at hflags
    exact absurd hflags Bool.false_ne_true
  cases l with
  | caller iflag saved => exact .now id
  | hang iflag saved => exact .now id
  | asserting allocatedIndex iflag saved => exact .now id
  | walk task node saved =>
    obtain ⟨rest, hlen, hvisits⟩ := h.walking task node saved rfl
    exact (gets_walk i task (hsaved trivial) hvisits).mono (by omega)
  | linkNext task node saved => exact (gets_linkNext i task node (hsaved trivial) s).mono (by omega)
  | linkPrev task node saved =>
    exact .later .linkPrev
      (.later .clearNext ((gets_added i task (hsaved trivial) _).mono (by omega)))
  | clearNext task saved =>
    exact .later .clearNext ((gets_added i task (hsaved trivial) _).mono (by omega))
  | added task saved => exact (gets_added i task (hsaved trivial) s).mono (by omega)
  | readIndex saved =>
    exact .later .readIndex
      (.later .writeIndex ((gets_allocated i _ (hsaved trivial) _).mono (by omega)))
  | writeIndex allocatedIndex saved =>
    exact .later .writeIndex ((gets_allocated i _ (hsaved trivial) _).mono (by omega))
  | allocated allocatedIndex saved =>
    exact (gets_allocated i _ (hsaved trivial) s).mono (by omega)

/-! ### Every order of steps -/

/-- The variables before the first interrupt, with nothing added or allocated. -/
structure QueueStart (idleTask : Task) (s₀ : Queue Task) : Prop where
  sched : ∃ s, (Sched.initSchedular idleTask s).Returns s₀.sched
  taskStructArrayIndex : s₀.taskStructArrayIndex = 0
  added : s₀.added = []
  taken : s₀.taken = []
  given : s₀.given = []

theorem QueueStart.queueInv (h : QueueStart idleTask s₀) :
    QueueInv maxCreateThreads idleTask s₀ (.caller true []) s₀ where
  calls := ⟨[], by rw [h.added]; rfl, fun _ hr ↦ hr⟩
  nodup := by rw [h.added]; exact List.nodup_singleton idleTask
  walking := nofun
  flags := rfl
  taken := by rw [h.taken]; rfl
  nextIndex := by rw [h.taken]; exact h.taskStructArrayIndex
  incremented := nofun
  given := by rw [h.given]; exact fun i hi ↦ absurd hi List.not_mem_nil

/-- **No insertion is lost and no task structure is taken twice.** Tasks add others, that are not in
the queue, and take task structures, read by read and write by write, and the timer interrupts
wherever interrupts are enabled. Whenever the running task is not in the critical section of either
function, the queue is the one that the calls which have left theirs, taken one after the other in
some order, lead to: the idle task and then every task added, once. The indices taken are 0, 1, 2 and
so on modulo `2 ^ 32`, and one of them is returned only where the assertion lets it, so that none is
where two threads or more are configured. A task in one of the critical sections leaves it after a
number of steps that the length of the queue bounds, and interrupts are enabled exactly where no
critical section is open. -/
theorem preempted_runQueue (h₀ : QueueStart idleTask s₀) {c : Task → QueueCode Task}
    (hreach : ReflTransGen (queueProcessor Task maxCreateThreads).Step
      (fun _ ↦ .caller true [], s₀) (c, s)) :
    ∃ i, s.sched.currentTask = some i ∧
      (¬ (c i).InSection → ∃ calls, (calls.foldlM SchedCall.run s₀.sched).Returns s.sched ∧
        added calls = s.added ∧ RunQueue s.sched (idleTask :: s.added) ∧
        (idleTask :: s.added).Nodup) ∧
      s.taken = (List.range s.taken.length).map (BitVec.ofNat 32) ∧
      (∀ n ∈ s.given, maxCreateThreads ≤ logicalNot n) ∧
      (2 ≤ maxCreateThreads → s.given = []) ∧
      (queueProcessor Task maxCreateThreads).Gets i QueueCode.LeftSection (s.added.length + 5)
        (c i) s ∧
      ((c i).iflag = true ↔ (c i).saved = []) ∧
      ∀ j, j ≠ i → (c j).saved = [] ∧ (c j).iflag = true := by
  obtain ⟨s₁, hinit⟩ := h₀.sched
  obtain ⟨sched, hinit', hs₀, hcur⟩ := initSchedular_returns idleTask s₁
  obtain rfl := hinit'.unique hinit
  have hrest : QueueRest (.caller true [] : QueueCode Task) := ⟨rfl, rfl⟩
  have hstart : (queueProcessor Task maxCreateThreads).Holds
      (QueueInv maxCreateThreads idleTask s₀) QueueRest (fun _ ↦ .caller true [], s₀) :=
    ⟨idleTask, hcur, h₀.queueInv, fun _ _ ↦ hrest⟩
  obtain ⟨i, hrun, hinv, hothers⟩ := (queueInv_kept hs₀).of_reaches hstart hreach
  refine ⟨i, hrun, fun hout ↦ ?_, hinv.taken, hinv.given, hinv.given_eq_nil, hinv.gets i,
    hinv.flags.iflag_iff, fun j hj ↦ ?_⟩
  · obtain ⟨calls, hret, hadded, hqueue⟩ := hinv.runQueue hs₀ hout
    have hnodup := hinv.nodup
    rw [QueueCode.adding_eq_nil hout, List.append_nil] at hnodup
    exact ⟨calls, hret, hadded, hqueue, hnodup⟩
  · obtain ⟨hon, hflags⟩ := hothers j hj
    exact ⟨hflags.iflag_iff.1 hon, hon⟩

/-- The queue of the idle task 0, before the first interrupt. -/
def numberedQueue : Queue ℕ where
  sched := ⟨fun _ ↦ none, fun _ ↦ none, fun _ ↦ 0, some 0, some 0, 0x10⟩
  taskStructArrayIndex := 0
  added := []
  taken := []
  given := []

theorem queueStart_numberedQueue : QueueStart 0 numberedQueue where
  sched := by
    refine ⟨numberedQueue.sched, ?_⟩
    have hnone : Function.update (fun _ : ℕ ↦ (none : Option ℕ)) 0 none = fun _ ↦ none :=
      Function.update_eq_self 0 fun _ ↦ none
    have heq : Sched.initSchedular 0 numberedQueue.sched = pure numberedQueue.sched := by
      rw [Sched.initSchedular, Sched.addIdleTaskToRunQueue]
      simp only [numberedQueue, hnone]
    rw [heq]
    exact returns_pure _
  taskStructArrayIndex := rfl
  added := rfl
  taken := rfl
  given := rfl

/-- The idle task adds task 1, which is interrupted at the assertion of `get_free_task_struct`; the
idle task adds task 2 meanwhile, and task 1 does not get past the assertion. -/
theorem preempted_runQueue_interleaved : ∃ c s,
    ReflTransGen (queueProcessor ℕ 10).Step (fun _ ↦ .caller true [], numberedQueue) (c, s) ∧
      s.sched.currentTask = some 2 ∧ s.added = [1, 2] ∧ s.taken = [0] ∧ s.given = [] ∧
      RunQueue s.sched [0, 1, 2] := by
  have hreach : ReflTransGen (queueProcessor ℕ 10).Step
      (fun _ ↦ .caller true [], numberedQueue) _ :=
    .tail (.tail (.tail (.tail (.tail (.tail (.tail .refl
      (.task (i := 0) rfl (.addTask rfl (show 1 ∉ [0] by decide))))
      (.task (i := 0) rfl (.last rfl)))
      (.task (i := 0) rfl .linkNext))
      (.task (i := 0) rfl .linkPrev))
      (.task (i := 0) rfl .clearNext))
      (.task (i := 0) rfl .added))
      (.interrupt (fun i hi ↦ by obtain rfl := Option.some.inj hi; rfl)
        (.mk (show Sched.schedulePending 0x8000 _ = _ from rfl)))
  have hreach' : ReflTransGen (queueProcessor ℕ 10).Step
      (fun _ ↦ .caller true [], numberedQueue) _ :=
    .tail (.tail (.tail (.tail (.tail hreach
      (.task (i := 1) rfl .getTaskStruct))
      (.task (i := 1) rfl .readIndex))
      (.task (i := 1) rfl .writeIndex))
      (.task (i := 1) rfl .allocated))
      (.interrupt (fun i hi ↦ by obtain rfl := Option.some.inj hi; rfl)
        (.mk (show Sched.schedulePending 0x9000 _ = _ from rfl)))
  have hreach'' : ReflTransGen (queueProcessor ℕ 10).Step
      (fun _ ↦ .caller true [], numberedQueue) _ :=
    .tail (.tail (.tail (.tail (.tail (.tail (.tail (.tail hreach'
      (.task (i := 0) rfl (.addTask rfl (show 2 ∉ [0, 1] by decide))))
      (.task (i := 0) rfl (.next rfl)))
      (.task (i := 0) rfl (.last rfl)))
      (.task (i := 0) rfl .linkNext))
      (.task (i := 0) rfl .linkPrev))
      (.task (i := 0) rfl .clearNext))
      (.task (i := 0) rfl .added))
      (.interrupt (fun i hi ↦ by obtain rfl := Option.some.inj hi; rfl)
        (.mk (show Sched.schedulePending 0x8000 _ = _ from rfl)))
  have hlast : ReflTransGen (queueProcessor ℕ 10).Step
      (fun _ ↦ .caller true [], numberedQueue) _ :=
    .tail (.tail hreach''
      (.task (i := 1) rfl (.assertFails (by decide))))
      (.interrupt (fun i hi ↦ by obtain rfl := Option.some.inj hi; rfl)
        (.mk (show Sched.schedulePending 0x9000 _ = _ from rfl)))
  obtain ⟨i, hrun, hqueue, -⟩ := preempted_runQueue queueStart_numberedQueue hlast
  obtain rfl : 2 = i := Option.some.inj hrun
  obtain ⟨-, -, -, hqueue, -⟩ := hqueue id
  exact ⟨_, _, hlast, rfl, rfl, rfl, rfl, hqueue⟩

end Ganoid
