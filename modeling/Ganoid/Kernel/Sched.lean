import Ganoid.Library.Fuelled
import Ganoid.Library.LinkedList
import Ganoid.Types
import Mathlib.Data.List.Perm.Basic
import Mathlib.Data.List.Rotate

/-!
# The run queue

`kernel/sched.c`: the tasks that can run form a list linked in both directions, the idle task first,
and every call of `schedule_pending` makes the next one current, going round behind the last.

Nothing is assumed about what a task is. `Sched` keeps the links and the saved stack pointers of all
tasks as functions, with `none` for a null pointer; the other fields of `struct task_struct` are not
used here. `schedulePending` is handed the stack pointer that it computes from its own frame, which
`Ganoid.Arch.Switch` does for it.

The queue is described by the list of its tasks (`RunQueue`). Tasks are added behind the last one,
so the cursor in the middle of the queue is not disturbed, and each call moves it one place round
the list.
-/

open Fuelled

namespace Ganoid

variable {Task : Type} [DecidableEq Task]

/-- The links and stack pointers of all tasks, and the static variables of the file. -/
structure Sched (Task : Type) where
  next : Task → Option Task
  prev : Task → Option Task
  esp : Task → U32
  head : Option Task
  currentTask : Option Task
  scheduleRequest : U32

namespace Sched

/-- `add_idle_task_to_run_queue`, which hangs where there is a queue already. -/
def addIdleTaskToRunQueue (s : Sched Task) (task : Task) : Fuelled (Sched Task) :=
  match s.head with
  | some _ => never
  | none =>
    pure { s with
      head := some task
      prev := Function.update s.prev task none
      next := Function.update s.next task none
      currentTask := some task }

/-- `init_schedular`, with the address of `idle_task_s`. -/
def initSchedular (idleTask : Task) (s : Sched Task) : Fuelled (Sched Task) :=
  addIdleTaskToRunQueue { s with head := none } idleTask

/-- `get_next_task`. -/
def getNextTask (s : Sched Task) (curTask : Task) : Option Task :=
  match s.next curTask with
  | none => s.head
  | some next => some next

/-- `schedule_pending`, which saves `framePtr` as the stack pointer of the current task and returns
that of the next one. It is `none` where the code would follow a null pointer. -/
def schedulePending (framePtr : U32) (s : Sched Task) : Option (U32 × Sched Task) := do
  let s := { s with scheduleRequest := 0 }
  let cur ← s.currentTask
  let s := { s with esp := Function.update s.esp cur framePtr }
  let s := { s with currentTask := s.getNextTask cur }
  let cur ← s.currentTask
  pure (s.esp cur, s)

/-- The walk of `add_task_to_run_queue` to the end of the list. -/
def lastNode (s : Sched Task) : Task → Fuelled Task :=
  loop fun node ↦
    match s.next node with
    | some next => pure (.inl next)
    | none => pure (.inr node)

/-- `add_task_to_run_queue`, which hangs where there is no queue yet. -/
def addTaskToRunQueue (s : Sched Task) (task : Task) : Fuelled (Sched Task) :=
  match s.head with
  | none => never
  | some head => do
    let node ← s.lastNode head
    let s := { s with next := Function.update s.next node (some task) }
    let s := { s with prev := Function.update s.prev task (some node) }
    pure { s with next := Function.update s.next task none }

end Sched

/-! ### Calls -/

/-- A call that the rest of the kernel makes. -/
inductive SchedCall (Task : Type)
  | addTaskToRunQueue (task : Task)
  | schedulePending (framePtr : U32)

/-- One call. -/
def SchedCall.run (s : Sched Task) : SchedCall Task → Fuelled (Sched Task)
  | .addTaskToRunQueue task => s.addTaskToRunQueue task
  | .schedulePending framePtr =>
    match s.schedulePending framePtr with
    | none => never
    | some (_, s) => pure s

/-- The tasks that the calls add, in order. -/
def added : List (SchedCall Task) → List Task
  | [] => []
  | .addTaskToRunQueue task :: calls => task :: added calls
  | .schedulePending _ :: calls => added calls

/-- Calls of `schedule_pending` in a row, with the tasks that they make current. -/
def scheduleAll : List U32 → Sched Task → Option (List (Option Task) × Sched Task)
  | [], s => some ([], s)
  | framePtr :: framePtrs, s => do
    let (_, s₁) ← s.schedulePending framePtr
    let (selected, s₂) ← scheduleAll framePtrs s₁
    pure (s₁.currentTask :: selected, s₂)

omit [DecidableEq Task] in
theorem added_append (c d : List (SchedCall Task)) : added (c ++ d) = added c ++ added d := by
  induction c with
  | nil => rfl
  | cons call c ih => cases call <;> simp [added, ih]

/-! ### The queue as a list -/

/-- The run queue holds the tasks of the list, in order, and the current task is one of them. -/
structure RunQueue (s : Sched Task) (l : List Task) : Prop where
  visits : Visits s.next s.head l
  backlinked : Backlinked s.prev none l
  current : ∃ i < l.length, s.currentTask = l[i]?

namespace RunQueue

omit [DecidableEq Task] in
/-- What else a task is or the scheduler keeps does not matter. -/
theorem congr {s s' : Sched Task} {l : List Task} (h : RunQueue s l) (hnext : s'.next = s.next)
    (hprev : s'.prev = s.prev) (hhead : s'.head = s.head)
    (hcurrent : s'.currentTask = s.currentTask) : RunQueue s' l where
  visits := by rw [hnext, hhead]; exact h.visits
  backlinked := by rw [hprev]; exact h.backlinked
  current := by rw [hcurrent]; exact h.current

omit [DecidableEq Task] in
/-- The current task has a place in the queue. -/
theorem exists_getElem_eq {s : Sched Task} {l : List Task} (h : RunQueue s l) {t : Task}
    (hcur : s.currentTask = some t) : ∃ (i : ℕ) (hi : i < l.length), l[i] = t := by
  obtain ⟨i, hi, hcur'⟩ := h.current
  rw [hcur, List.getElem?_eq_getElem hi] at hcur'
  exact ⟨i, hi, (Option.some.inj hcur').symm⟩

end RunQueue

omit [DecidableEq Task] in
/-- In a sequence of distinct tasks, the one to be added next is none of those added so far. -/
theorem nodup_next {idleTask t : Task} {done rest : List Task}
    (h : (idleTask :: (done ++ t :: rest)).Nodup) : (idleTask :: done ++ [t]).Nodup :=
  h.sublist (List.Sublist.cons_cons _
    ((List.Sublist.refl _).append (List.Sublist.cons_cons t (List.nil_sublist _))))

omit [DecidableEq Task] in
/-- The walk ends at the last task. -/
theorem lastNode_returns {s : Sched Task} {l : List Task} {head last : Task}
    (h : Visits s.next (some head) (l ++ [last])) : (s.lastNode head).Returns last := by
  induction l generalizing head with
  | nil =>
    obtain ⟨hhead, hlast⟩ := h
    obtain rfl := Option.some.inj hhead
    refine returns_loop_of_leave ?_
    rw [show s.next head = none from hlast]
    exact returns_pure _
  | cons a l ih =>
    obtain ⟨hhead, hrest⟩ := h
    obtain rfl := Option.some.inj hhead
    cases hnext : s.next head with
    | none =>
      rw [hnext] at hrest
      have := hrest.head_eq
      cases l <;> simp at this
    | some next =>
      rw [hnext] at hrest
      refine returns_loop_of_again ?_ (ih hrest)
      rw [hnext]
      exact returns_pure _

/-- **Initialization** leaves the idle task alone in the queue, whatever was there before. -/
theorem initSchedular_returns (idleTask : Task) (s : Sched Task) :
    ∃ s', (Sched.initSchedular idleTask s).Returns s' ∧ RunQueue s' [idleTask] ∧
      s'.currentTask = some idleTask :=
  ⟨_, returns_pure _, ⟨⟨rfl, Function.update_self ..⟩, ⟨Function.update_self .., trivial⟩,
    0, Nat.zero_lt_one, rfl⟩, rfl⟩

/-- **Adding a task** puts it behind the last one. -/
theorem addTaskToRunQueue_returns {s : Sched Task} {l : List Task} {task : Task}
    (h : RunQueue s l) (hne : l ≠ []) (hnodup : (l ++ [task]).Nodup) :
    ∃ s', (s.addTaskToRunQueue task).Returns s' ∧ RunQueue s' (l ++ [task]) ∧ s'.esp = s.esp ∧
      s'.currentTask = s.currentTask := by
  obtain ⟨l, last, rfl⟩ := (List.eq_nil_or_concat' l).resolve_left hne
  obtain ⟨hvisits, hback, i, hi, hcur⟩ := h
  obtain ⟨head, hhead⟩ : ∃ head, s.head = some head := by
    rw [hvisits.head_eq]
    cases l <;> exact ⟨_, rfl⟩
  have hnotin : task ∉ l ++ [last] := fun hmem ↦
    List.disjoint_of_nodup_append hnodup hmem (List.mem_singleton_self task)
  have hlast : last ∉ l := fun hmem ↦
    List.disjoint_of_nodup_append (List.nodup_append.1 hnodup).1 hmem (List.mem_singleton_self last)
  have htask : ∀ c ∈ l ++ [last], c ≠ task := fun c hc heq ↦ hnotin (heq ▸ hc)
  rw [hhead] at hvisits
  -- of the links of the queue, only the one of `last` is written
  have hret : (s.addTaskToRunQueue task).Returns { s with
      next := Function.update (Function.update s.next last (some task)) task none
      prev := Function.update s.prev task (some last) } := by
    rw [Sched.addTaskToRunQueue, hhead]
    exact (lastNode_returns hvisits).bind (returns_pure _)
  refine ⟨_, hret, ⟨?_, ?_, i, ?_, ?_⟩, rfl, rfl⟩
  · show Visits (Function.update (Function.update s.next last (some task)) task none) s.head
      (l ++ [last] ++ [task])
    rw [hhead]
    refine hvisits.snoc (fun c hc ↦ ?_) ?_ (Function.update_self ..)
    · have hc' : c ≠ last := fun heq ↦ hlast (heq ▸ hc)
      rw [Function.update_of_ne (htask c (List.mem_append_left _ hc)), Function.update_of_ne hc']
    · rw [Function.update_of_ne (htask last (by simp)), Function.update_self]
  · refine (hback.congr fun c hc ↦ ?_).snoc (Function.update_self ..)
    exact Function.update_of_ne (htask c hc) _ _
  · rw [List.length_append]
    omega
  · show s.currentTask = _
    rw [List.getElem?_append_left hi, hcur]

/-- **Rescheduling** saves the stack pointer of the current task and makes the task behind it
current, going round behind the last. -/
theorem schedulePending_eq {s : Sched Task} {l : List Task} (h : RunQueue s l) {i : ℕ}
    (hi : i < l.length) (hcur : s.currentTask = some l[i]) (framePtr : U32) :
    ∃ t, l[(i + 1) % l.length]? = some t ∧
      s.schedulePending framePtr = some (Function.update s.esp l[i] framePtr t, { s with
        scheduleRequest := 0
        esp := Function.update s.esp l[i] framePtr
        currentTask := some t }) := by
  have hmod : (i + 1) % l.length < l.length := Nat.mod_lt _ (Nat.zero_lt_of_lt hi)
  have hnext : s.getNextTask l[i] = some l[(i + 1) % l.length] := by
    have hor := h.visits.next_or_head (List.getElem?_eq_getElem hi)
    rw [List.getElem?_eq_getElem hmod] at hor
    rw [← hor, Sched.getNextTask]
    cases s.next l[i] <;> rfl
  -- the writes before the call of `get_next_task` do not concern it
  have hnext' : ∀ esp cur request, Sched.getNextTask
      ⟨s.next, s.prev, esp, s.head, cur, request⟩ l[i] = some l[(i + 1) % l.length] :=
    fun _ _ _ ↦ hnext
  refine ⟨_, List.getElem?_eq_getElem hmod, ?_⟩
  simp only [Sched.schedulePending, hcur, Option.bind_eq_bind, Option.bind_some, hnext']
  rfl

/-- Rescheduling keeps the queue and moves on in it by one place. -/
theorem schedulePending_next {s : Sched Task} {l : List Task} (h : RunQueue s l) {i : ℕ}
    (hi : i < l.length) (hcur : s.currentTask = l[i]?) (framePtr : U32) :
    ∃ esp s', s.schedulePending framePtr = some (esp, s') ∧ RunQueue s' l ∧
      s'.currentTask = l[(i + 1) % l.length]? := by
  rw [List.getElem?_eq_getElem hi] at hcur
  obtain ⟨t, ht, hstep⟩ := schedulePending_eq h hi hcur framePtr
  have hmod : (i + 1) % l.length < l.length := Nat.mod_lt _ (Nat.zero_lt_of_lt hi)
  exact ⟨_, _, hstep, ⟨h.visits, h.backlinked, _, hmod, ht.symm⟩, ht.symm⟩

/-! ### Runs -/

/-- **Every sequence of calls** returns, and leaves the idle task and then the tasks added in the
queue. -/
theorem exec_returns {idleTask : Task} {s : Sched Task} (h : RunQueue s [idleTask])
    (calls : List (SchedCall Task)) (hnodup : (idleTask :: added calls).Nodup) :
    ∃ s', (calls.foldlM SchedCall.run s).Returns s' ∧ RunQueue s' (idleTask :: added calls) := by
  refine exists_returns_foldlM (fun done s ↦ RunQueue s (idleTask :: added done)) calls
    (fun done call rest s hcalls hs ↦ ?_) h
  rw [added_append]
  cases call with
  | addTaskToRunQueue task =>
    rw [hcalls, added_append] at hnodup
    obtain ⟨s', hret, hs', -⟩ :=
      addTaskToRunQueue_returns hs (List.cons_ne_nil _ _) (nodup_next hnodup)
    exact ⟨s', hret, hs'⟩
  | schedulePending framePtr =>
    obtain ⟨i, hi, hcur⟩ := hs.current
    obtain ⟨esp, s', hstep, hs', -⟩ := schedulePending_next hs hi hcur framePtr
    refine ⟨s', ?_, by rwa [added, added, List.append_nil]⟩
    show (match s.schedulePending framePtr with
      | none => never
      | some (_, s) => pure s : Fuelled (Sched Task)).Returns s'
    rw [hstep]
    exact returns_pure s'

/-- Calls of `schedule_pending` in a row make the tasks behind the current one current, one after
the other. -/
theorem scheduleAll_eq {s : Sched Task} {l : List Task} (h : RunQueue s l) {i : ℕ}
    (hi : i < l.length) (hcur : s.currentTask = l[i]?) (framePtrs : List U32) :
    ∃ s', scheduleAll framePtrs s = some
        ((List.range framePtrs.length).map fun k ↦ l[(i + 1 + k) % l.length]?, s') ∧
      s'.currentTask = l[(i + framePtrs.length) % l.length]? := by
  induction framePtrs generalizing s i with
  | nil => exact ⟨s, rfl, by rw [hcur, List.length_nil, Nat.add_zero, Nat.mod_eq_of_lt hi]⟩
  | cons framePtr framePtrs ih =>
    -- after the first call the others start one place further on
    obtain ⟨esp, s₁, hstep, hs₁, hcur₁⟩ := schedulePending_next h hi hcur framePtr
    have hmod : (i + 1) % l.length < l.length := Nat.mod_lt _ (Nat.zero_lt_of_lt hi)
    obtain ⟨s', hall, hcur'⟩ := ih hs₁ hmod hcur₁
    refine ⟨s', ?_, ?_⟩
    · simp only [scheduleAll, hstep, Option.bind_eq_bind, Option.bind_some, hall]
      rw [hcur₁, List.length_cons, List.range_succ_eq_map, List.map_cons, List.map_map]
      have hshift : (fun k ↦ l[((i + 1) % l.length + 1 + k) % l.length]?) =
          (fun k ↦ l[(i + 1 + k) % l.length]?) ∘ Nat.succ := funext fun k ↦ by
        rw [Nat.add_assoc, Nat.mod_add_mod, Function.comp_apply, Nat.add_comm 1 k]
      rw [hshift]
      rfl
    · rw [hcur', List.length_cons, Nat.mod_add_mod]
      congr 2
      omega

/-- **One round.** As many calls as there are tasks make each of them current once, and the task
that was current last. -/
theorem scheduleAll_round {s : Sched Task} {l : List Task} (h : RunQueue s l)
    (framePtrs : List U32) (hlen : framePtrs.length = l.length) :
    ∃ selected s', scheduleAll framePtrs s = some (selected, s') ∧
      selected.Perm (l.map some) ∧ s'.currentTask = s.currentTask := by
  obtain ⟨i, hi, hcur⟩ := h.current
  obtain ⟨s', hall, hcur'⟩ := scheduleAll_eq h hi hcur framePtrs
  refine ⟨_, s', hall, ?_, ?_⟩
  · have hrotate : (List.range framePtrs.length).map (fun k ↦ l[(i + 1 + k) % l.length]?) =
        (l.rotate (i + 1)).map some := by
      refine List.ext_getElem (by simp [hlen]) fun k hk hk' ↦ ?_
      have hmod : (i + 1 + k) % l.length < l.length := Nat.mod_lt _ (Nat.zero_lt_of_lt hi)
      rw [List.getElem_map, List.getElem_range, List.getElem_map, List.getElem_rotate,
        List.getElem?_eq_getElem hmod]
      simp only [Nat.add_comm k (i + 1)]
    rw [hrotate]
    exact (l.rotate_perm (i + 1)).map some
  · rw [hcur', hcur, hlen, Nat.add_mod_right, Nat.mod_eq_of_lt hi]

/-- **The run queue is well formed and fair.** After initialization and any calls that add distinct
tasks, the links visit the idle task and then the tasks added, the back links are their inverse,
the current task is in the queue, and calling `schedule_pending` once for each task makes each of
them current once and ends with the one that was current before. -/
theorem runQueue_wellFormed_fair (idleTask : Task) (s₀ : Sched Task)
    (calls : List (SchedCall Task)) (hnodup : (idleTask :: added calls).Nodup) :
    ∃ s, (Sched.initSchedular idleTask s₀ >>= fun s ↦ calls.foldlM SchedCall.run s).Returns s ∧
      Visits s.next s.head (idleTask :: added calls) ∧
      (∀ a ∈ idleTask :: added calls, ∀ b ∈ idleTask :: added calls,
        s.next a = some b ↔ s.prev b = some a) ∧
      (∃ c ∈ idleTask :: added calls, s.currentTask = some c) ∧
      ∀ framePtrs : List U32, framePtrs.length = (idleTask :: added calls).length →
        ∃ selected s', scheduleAll framePtrs s = some (selected, s') ∧
          selected.Perm ((idleTask :: added calls).map some) ∧ s'.currentTask = s.currentTask := by
  obtain ⟨s₁, hinit, hs₁, -⟩ := initSchedular_returns idleTask s₀
  obtain ⟨s, hexec, hs⟩ := exec_returns hs₁ calls hnodup
  refine ⟨s, hinit.bind hexec, hs.visits, fun a ha b hb ↦ ?_, ?_, scheduleAll_round hs⟩
  · exact hs.backlinked.prev_eq_some_iff hs.visits ha hb
  · obtain ⟨i, hi, hcur⟩ := hs.current
    rw [List.getElem?_eq_getElem hi] at hcur
    exact ⟨_, List.getElem_mem hi, hcur⟩

/-- The queue of three numbered tasks, with a reschedule between the additions. -/
theorem runQueue_wellFormed_fair_three :
    ∃ s, (Sched.initSchedular 0
          (⟨fun _ ↦ none, fun _ ↦ none, fun _ ↦ 0, none, none, 0x10⟩ : Sched ℕ) >>= fun s ↦
        [.addTaskToRunQueue 1, .schedulePending 0x8000,
          .addTaskToRunQueue 2].foldlM SchedCall.run s).Returns s ∧
      Visits s.next s.head [0, 1, 2] ∧
      (∀ a ∈ [0, 1, 2], ∀ b ∈ [0, 1, 2], s.next a = some b ↔ s.prev b = some a) ∧
      (∃ c ∈ [0, 1, 2], s.currentTask = some c) ∧
      ∀ framePtrs : List U32, framePtrs.length = [0, 1, 2].length →
        ∃ selected s', scheduleAll framePtrs s = some (selected, s') ∧
          selected.Perm ([0, 1, 2].map some) ∧ s'.currentTask = s.currentTask :=
  runQueue_wellFormed_fair 0 _
    [.addTaskToRunQueue 1, .schedulePending 0x8000, .addTaskToRunQueue 2] (by decide)

end Ganoid
