import Ganoid.Arch.Nesting

/-!
# The running kernel

What the records of a run say of the kernel's state, after any deliveries and stubs, nested as they
may be: each interrupt is served once, under the number of its stub, and the numbers served
determine the acknowledgements, the bytes that arrived in the key buffer, and the current task
(`Accounts`). With the contexts of `Ganoid.Arch.Nesting` this is the invariant of the whole kernel,
from `kernel_main` on.
-/

open Fuelled I386

namespace Ganoid

variable {Task : Type} [DecidableEq Task]

/-! ### Accounts -/

/-- How often a reschedule has taken place when these numbers have been handled: for every number of
the timer, and for the first number, because the kernel starts with a request. -/
def reschedules : List ℕ → ℕ
  | [] => 0
  | _ :: rest => rest.count 0x20 + 1

theorem reschedules_concat (handled : List ℕ) (n : ℕ) : reschedules (handled ++ [n]) =
    reschedules handled + if handled = [] ∨ n = 0x20 then 1 else 0 := by
  cases handled with
  | nil => rfl
  | cons m rest =>
    rw [List.cons_append, reschedules, reschedules, List.count_append, List.count_singleton]
    simp only [reduceCtorEq, false_or, beq_iff_eq]
    omega

/-- The event is a byte that arrives. -/
def KeyBufferEvent.isByte : KeyBufferEvent → Bool
  | .isr _ => true
  | .parse _ => false
  | .flush => false

/-- What the records of the kernel say of its state: which task is current, whether a reschedule is
pending, which interrupts wait for their stubs, what has been acknowledged, and what the key buffer
holds. -/
structure Accounts (l : List Task) (master slave : ℕ) (s : Running Task) : Prop where
  queue : RunQueue s.sched l
  turn : s.sched.currentTask = l[reschedules s.handled % l.length]?
  request : s.sched.scheduleRequest = if s.handled = [] then 0x10 else 0
  served : (s.delivered.map fun v ↦ (stubOf v : ℕ)).Perm
    (s.handled ++ l.flatMap fun t ↦ (s.entered t).map fun d ↦ (stubOf d.vector : ℕ))
  master : s.interrupts.pics.master.acknowledged = master + s.handled.countP (32 ≤ ·)
  slave : s.interrupts.pics.slave.acknowledged = slave
  holds : HoldsQueue s.kbd (queueAfter s.keys)
  bytes : s.keys.countP KeyBufferEvent.isByte = s.handled.count 0x21

/-- One more delivery of one task is one more of all. -/
theorem perm_flatMap_update {α : Type} (f : Delivery → α) {l : List Task} (hnodup : l.Nodup)
    {t : Task} (ht : t ∈ l) (entered : Task → List Delivery) (d : Delivery) (ds : List Delivery) :
    (l.flatMap fun t' ↦ (Function.update entered t (d :: ds) t').map f).Perm
      (f d :: l.flatMap fun t' ↦ (Function.update entered t ds t').map f) := by
  induction l with
  | nil => exact absurd ht List.not_mem_nil
  | cons a l ih =>
    obtain ⟨ha, hnodup⟩ := List.nodup_cons.1 hnodup
    rw [List.flatMap_cons, List.flatMap_cons]
    rcases List.mem_cons.1 ht with rfl | hmem
    · have hrest : ∀ ds', (l.flatMap fun t' ↦ (Function.update entered t ds' t').map f) =
          l.flatMap fun t' ↦ (entered t').map f := fun ds' ↦
        List.flatMap_congr fun t' ht' ↦ by
          have hne : t' ≠ t := fun heq ↦ ha (heq ▸ ht')
          rw [Function.update_of_ne hne]
      rw [hrest, hrest, Function.update_self, Function.update_self, List.map_cons]
      exact List.Perm.refl _
    · have hne : a ≠ t := fun heq ↦ ha (heq ▸ hmem)
      rw [Function.update_of_ne hne, Function.update_of_ne hne]
      exact ((ih hnodup hmem).append_left _).trans List.perm_middle

/-- The rest of `isr_common_stub` goes on to the next task if that is requested. -/
theorem CommonStub.turn {keep : U32 → Prop} {returnAddr : U32} {s s' : Machine}
    {sched sched' : Sched Task} {l : List Task} {n : ℕ}
    (h : CommonStub keep returnAddr s sched s' sched') (hqueue : RunQueue sched l)
    (hturn : sched.currentTask = l[n % l.length]?) :
    RunQueue sched' l ∧ sched'.scheduleRequest = 0 ∧
      sched'.currentTask =
        l[(n + if sched.scheduleRequest = 0 then 0 else 1) % l.length]? := by
  cases h with
  | notPending hrequest =>
    rw [if_pos hrequest]
    exact ⟨hqueue, hrequest, hturn⟩
  | pending hrequest hschedule hreturn =>
    obtain ⟨i, hi, -⟩ := hqueue.current
    have hmod : n % l.length < l.length := Nat.mod_lt _ (Nat.zero_lt_of_lt hi)
    rw [List.getElem?_eq_getElem hmod] at hturn
    obtain ⟨t, ht, hstep⟩ := schedulePending_eq hqueue hmod hturn (s.push returnAddr).framePtr
    rw [hstep] at hschedule
    obtain ⟨-, rfl⟩ := Prod.mk.inj (Option.some.inj hschedule)
    rw [if_neg hrequest, ← Nat.mod_add_mod]
    exact ⟨⟨hqueue.visits, hqueue.backlinked, _, Nat.mod_lt _ (Nat.zero_lt_of_lt hi), ht.symm⟩,
      rfl, ht.symm⟩

/-- The events of a task on the key buffer. -/
theorem holdsQueue_foldlM {k k' : Kbd} {done events : List KeyBufferEvent}
    (h : HoldsQueue k (queueAfter done)) (hret : (events.foldlM KeyBufferEvent.next k).Returns k') :
    HoldsQueue k' (queueAfter (done ++ events)) := by
  induction events generalizing k done with
  | nil =>
    obtain rfl := returns_pure_iff.1 hret
    rwa [List.append_nil]
  | cons event events ih =>
    rw [List.foldlM_cons] at hret
    obtain ⟨k₁, hstep, hret⟩ := returns_bind_iff.1 hret
    obtain ⟨k₂, hstep', hk₂⟩ := next_holdsQueue h event
    obtain rfl := hstep.unique hstep'
    rw [← queueAfter_concat] at hk₂
    have hrest := ih hk₂ hret
    rwa [List.append_assoc] at hrest

/-- **One step** keeps the accounts and the tables. -/
theorem RunningStep.accounts {layout : StubLayout} {gdt : ℕ → SegmentDescriptor}
    {areas : Stacks Task} {hello : U32} {entry : Task → Entry} {l : List Task} {master slave : ℕ}
    {s s' : Running Task} {e : RunningEvent} (h : RunningStep layout gdt areas s e s')
    (hnodup : l.Nodup) (htables : TablesUp layout s.interrupts)
    (hcontexts : Contexts layout areas hello entry l s) (haccounts : Accounts l master slave s) :
    TablesUp layout s'.interrupts ∧ Accounts l master slave s' := by
  obtain ⟨hqueue, hturn, hrequest, hserved, hmaster, hslave, hholds, hbytes⟩ := haccounts
  cases h with
  | run hcur hentered hmem hevents hkbd =>
    rename_i t machine kbd events
    have hnone : events.countP KeyBufferEvent.isByte = 0 := by
      rw [List.countP_eq_zero]
      intro event hevent
      cases event with
      | isr b => exact absurd hevent (hevents b)
      | parse report => exact Bool.false_ne_true
      | flush => exact Bool.false_ne_true
    refine ⟨htables, hqueue, hturn, hrequest, hserved, hmaster, hslave,
      holdsQueue_foldlM hholds hkbd, ?_⟩
    rw [List.countP_append, hnone]
    exact hbytes
  | deliver hcur hflag hvector henter hroom =>
    rename_i t line vector e
    obtain ⟨i, hi, rfl⟩ := hqueue.exists_getElem_eq hcur
    refine ⟨htables, hqueue, hturn, hrequest, ?_, hmaster, hslave, hholds, hbytes⟩
    have hperm := perm_flatMap_update (fun d ↦ (stubOf d.vector : ℕ)) hnodup (List.getElem_mem hi)
      s.entered ⟨vector, s.machine.toRegs⟩ (s.entered l[i])
    rw [Function.update_eq_self] at hperm
    have hmore := List.perm_append_singleton (stubOf vector : ℕ)
      (s.delivered.map fun v ↦ (stubOf v : ℕ))
    rw [List.map_append, List.map_singleton]
    exact (hmore.trans (hserved.cons _)).trans
      (List.perm_middle.symm.trans (hperm.symm.append_left _))
  | stub hcur hentered hstub hhandler hcommon =>
    rename_i t d ds stub b returnAddr returnAddr' s₁ machine sched
    have hown := hcontexts.waiting t hcur
    rw [hentered] at hown
    obtain ⟨-, -, -, hnumber⟩ := frameAt_beginStub hown stub
    -- the stub is the one that the table has for the vector delivered
    obtain rfl : stubOf d.vector = stub := by
      have heip : s.machine.eip = layout.addr (stubOf d.vector) := by rw [hown.1]
      rw [heip, stubAt_addr, Option.some_inj] at hstub
      exact hstub
    obtain ⟨htables', -, hmaster', hslave'⟩ := htables.isrHandler (hnumber returnAddr)
    rw [Running.serve_eq htables (hnumber returnAddr)] at hcommon ⊢
    obtain ⟨hqueue', hrequest', hturn'⟩ := hcommon.turn (hqueue.congr rfl rfl rfl rfl) hturn
    obtain ⟨i, hi, rfl⟩ := hqueue.exists_getElem_eq hcur
    refine ⟨htables', hqueue', ?turn, ?request, ?served, ?master, hslave'.trans hslave, ?holds,
      ?bytes⟩
    case turn =>
      rw [hturn', reschedules_concat]
      congr 3
      dsimp only
      rw [hrequest]
      rcases eq_or_ne (stubOf d.vector : ℕ) 0x20 with htimer | htimer
      · rw [if_pos htimer, if_pos (Or.inr htimer)]
        rfl
      · rw [if_neg htimer]
        rcases eq_or_ne s.handled [] with hfirst | hfirst
        · rw [if_pos hfirst, if_pos (Or.inl hfirst)]
          rfl
        · rw [if_neg hfirst, if_neg (not_or.2 ⟨hfirst, htimer⟩)]
          rfl
    case request =>
      rw [hrequest', if_neg (List.append_ne_nil_of_right_ne_nil _ (List.cons_ne_nil _ _))]
    case served =>
      have hperm := perm_flatMap_update (fun d ↦ (stubOf d.vector : ℕ)) hnodup
        (List.getElem_mem hi) s.entered d ds
      rw [← hentered, Function.update_eq_self] at hperm
      rw [List.append_assoc, List.singleton_append]
      exact hserved.trans (hperm.append_left _)
    case master =>
      dsimp only
      rw [hmaster', hmaster, List.countP_append, List.countP_singleton, Nat.add_assoc]
      simp only [decide_eq_true_eq]
    case holds =>
      dsimp only
      rcases eq_or_ne (stubOf d.vector : ℕ) 0x21 with hkbd | hkbd
      · rw [if_pos hkbd, if_pos hkbd, queueAfter_concat]
        exact holdsQueue_kbdIsr hholds b
      · rw [if_neg hkbd, if_neg hkbd]
        exact hholds
    case bytes =>
      dsimp only
      rw [List.count_append, List.count_singleton, ← hbytes]
      rcases eq_or_ne (stubOf d.vector : ℕ) 0x21 with hkbd | hkbd
      · rw [if_pos hkbd, hkbd, List.countP_append]
        rfl
      · rw [if_neg hkbd, if_neg (by simpa using hkbd)]
        rfl

/-! ### Runs -/

/-- The kernel when `kernel_main` has turned interrupts on. -/
def Running.start (machine : Machine) (sched : Sched Task) (interrupts : Interrupts KernelHandler) :
    Running Task where
  machine := machine
  sched := sched
  interrupts := interrupts
  kbd := .start
  entered _ := []
  latest _ := none
  delivered := []
  handled := []
  keys := []

theorem scheduleRequest_of_boot {areas : Stacks Task} {hello : U32} {entry : Task → Entry}
    {idleTask : Task} {threads : List Task} {sched₀ sched : Sched Task} {mem₀ mem : Mem}
    (hret : (boot areas hello entry idleTask threads sched₀ mem₀).Returns (sched, mem)) :
    sched.scheduleRequest = sched₀.scheduleRequest := by
  obtain ⟨sched₁, hinit, hthreads⟩ := returns_bind_iff.1 hret
  have hsame : sched₁.scheduleRequest = sched₀.scheduleRequest := by
    obtain rfl := returns_pure_iff.1 hinit
    rfl
  rw [← hsame]
  clear hret hinit hsame
  induction threads generalizing sched₁ mem₀ with
  | nil =>
    obtain ⟨rfl, -⟩ := Prod.mk.inj (returns_pure_iff.1 hthreads)
    rfl
  | cons t threads ih =>
    rw [List.foldlM_cons] at hthreads
    obtain ⟨⟨sched₂, mem₂⟩, hthread, hthreads⟩ := returns_bind_iff.1 hthreads
    rw [ih _ hthreads]
    obtain ⟨sched₃, hadd, hpair⟩ := returns_bind_iff.1 hthread
    obtain ⟨rfl, -⟩ := Prod.mk.inj (returns_pure_iff.1 hpair)
    rw [Sched.addTaskToRunQueue] at hadd
    split at hadd
    · exact absurd hadd not_returns_never
    · obtain ⟨node, -, hadd⟩ := returns_bind_iff.1 hadd
      obtain rfl := returns_pure_iff.1 hadd
      rfl

/-- The invariant. -/
structure RunningInv (layout : StubLayout) (areas : Stacks Task) (hello : U32)
    (entry : Task → Entry) (l : List Task) (master slave : ℕ) (s : Running Task) : Prop where
  tables : TablesUp layout s.interrupts
  contexts : Contexts layout areas hello entry l s
  accounts : Accounts l master slave s

theorem RunningStep.inv {layout : StubLayout} {gdt : ℕ → SegmentDescriptor} {areas : Stacks Task}
    {hello : U32} {entry : Task → Entry} {l : List Task} {master slave : ℕ} {s s' : Running Task}
    {e : RunningEvent} (h : RunningStep layout gdt areas s e s') (hnodup : l.Nodup)
    (hinv : RunningInv layout areas hello entry l master slave s) :
    RunningInv layout areas hello entry l master slave s' ∧ e.Resumes hello entry s' := by
  obtain ⟨htables, hcontexts, haccounts⟩ := hinv
  obtain ⟨hcontexts', hresumes⟩ := h.contexts haccounts.queue htables hcontexts
  obtain ⟨htables', haccounts'⟩ := h.accounts hnodup htables hcontexts haccounts
  exact ⟨⟨htables', hcontexts', haccounts'⟩, hresumes⟩

/-- **The kernel comes up** in the invariant. -/
theorem runningInv_start (layout : StubLayout) (k₀ : Interrupts KernelHandler)
    (areas : Stacks Task) (hello : U32) (entry : Task → Entry) (idleTask : Task)
    (threads : List Task) (hnodup : (idleTask :: threads).Nodup)
    (hsize : ∀ t ∈ threads, areas.size t = 4096) (sched₀ : Sched Task)
    (hrequest : sched₀.scheduleRequest = 0x10) (mem₀ : Mem) :
    ∃ k sched mem, (Interrupts.start layout registrations k₀).Returns k ∧
      (boot areas hello entry idleTask threads sched₀ mem₀).Returns (sched, mem) ∧
      sched.currentTask = some idleTask ∧
      ∀ regs, RunningInv layout areas hello entry (idleTask :: threads)
        k₀.pics.master.acknowledged k₀.pics.slave.acknowledged
        (.start ⟨regs, mem⟩ sched k) := by
  obtain ⟨k, hstart, htables, hmaster, hslave⟩ := tablesUp_start layout k₀
  obtain ⟨sched, mem, hboot, hcur, hinv⟩ :=
    boot_returns areas hello entry idleTask threads hnodup hsize sched₀ mem₀
  refine ⟨k, sched, mem, hstart, hboot, hcur, fun regs ↦ ⟨htables, ⟨fun t _ ↦ trivial,
    fun t ht hne ↦ ⟨(hinv regs).suspended t ht hne, rfl⟩⟩, (hinv regs).queue, ?_,
    (scheduleRequest_of_boot hboot).trans hrequest, ?_, hmaster, hslave,
    RingBuffer.holds_nil _ (show 0 < kbdBufferSize by decide), rfl⟩⟩
  · show sched.currentTask = _
    rw [hcur]
    rfl
  · have hnone : ((idleTask :: threads).flatMap fun _ ↦ ([] : List ℕ)) = [] :=
      List.flatMap_eq_nil_iff.2 fun _ _ ↦ rfl
    exact hnone ▸ List.Perm.refl _

/-- An interrupt can be delivered wherever the flag is set and there is room for it. -/
theorem RunningInv.exists_deliver {layout : StubLayout} {areas : Stacks Task} {hello : U32}
    {entry : Task → Entry} {l : List Task} {master slave : ℕ} {s : Running Task}
    (h : RunningInv layout areas hello entry l master slave s) (gdt : ℕ → SegmentDescriptor)
    {t : Task} (hcur : s.sched.currentTask = some t)
    (hflag : s.machine.eflags &&& Machine.interruptFlag ≠ 0) (hroom : Room areas t s.machine.esp)
    (line : Fin 16) : ∃ s', RunningStep layout gdt areas s (.deliver line) s' ∧
      s'.sched = s.sched ∧ s'.handled = s.handled ∧ s'.latest = s.latest ∧
      s'.entered = Function.update s.entered t
        (⟨32 + line, s.machine.toRegs⟩ :: s.entered t) ∧
      s'.machine.eflags = s.machine.eflags ∧ s'.machine.esp = s.machine.esp - 12 := by
  obtain ⟨e, hvector, henter⟩ := h.tables.exists_enter gdt line
  obtain ⟨-, rfl⟩ := h.tables.enter_eq hvector henter
  have hstep : RunningStep layout gdt areas s (.deliver line) _ :=
    .deliver hcur hflag hvector henter hroom
  obtain ⟨hwaiting, -⟩ := waiting_enterGate (h.contexts.waiting t hcur)
    (hasErrorCode_line line) hroom
  refine ⟨_, hstep, rfl, rfl, rfl, rfl, ?_, ?_⟩
  · exact (congrArg Regs.eflags hwaiting.1 :)
  · exact (congrArg Regs.esp hwaiting.1 :)

/-- A delivery can always be followed by its stub, which serves it. -/
theorem RunningInv.exists_stub {layout : StubLayout} {areas : Stacks Task} {hello : U32}
    {entry : Task → Entry} {l : List Task} {master slave : ℕ} {s : Running Task}
    (h : RunningInv layout areas hello entry l master slave s) (gdt : ℕ → SegmentDescriptor)
    {t : Task} (hcur : s.sched.currentTask = some t) {d : Delivery} {ds : List Delivery}
    (hds : s.entered t = d :: ds) (b : U8) :
    ∃ s', RunningStep layout gdt areas s (.stub b) s' ∧
      s'.handled = s.handled ++ [(stubOf d.vector : ℕ)] ∧
      s'.latest = Function.update s.latest t (some d.context) ∧
      s'.entered = Function.update s.entered t ds := by
  have hwaiting := h.contexts.waiting t hcur
  rw [hds] at hwaiting
  have hstub : layout.stubAt s.machine.eip = some (stubOf d.vector) := by
    have heip : s.machine.eip = layout.addr (stubOf d.vector) := by rw [hwaiting.1]
    rw [heip, stubAt_addr]
  obtain ⟨-, -, -, hnumber⟩ := frameAt_beginStub hwaiting (stubOf d.vector)
  have hserve := Running.serve_eq h.tables (hnumber 0) b
  have hhandled : (s.serve ((s.machine.beginStub (stubOf d.vector)).isrArgument 0) b).handled =
      s.handled ++ [(stubOf d.vector : ℕ)] := by rw [hserve]
  have hlatest : (s.serve ((s.machine.beginStub (stubOf d.vector)).isrArgument 0) b).latest =
      s.latest := by rw [hserve]
  have hqueue : RunQueue (s.serve ((s.machine.beginStub (stubOf d.vector)).isrArgument 0) b).sched
      l := by
    rw [hserve]
    exact h.accounts.queue.congr rfl rfl rfl rfl
  obtain ⟨i, hi, rfl⟩ := h.accounts.queue.exists_getElem_eq hcur
  have hcur' : (s.serve ((s.machine.beginStub (stubOf d.vector)).isrArgument 0) b).sched.currentTask
      = some l[i] := by
    rw [hserve]
    exact hcur
  let keep := Kept areas l[i] (s.machine.beginStub (stubOf d.vector)).esp
  obtain ⟨s₁, hhandler⟩ :=
    Machine.exists_returned ((s.machine.beginStub (stubOf d.vector)).push 0) keep
  rcases eq_or_ne (s.serve ((s.machine.beginStub (stubOf d.vector)).isrArgument 0)
    b).sched.scheduleRequest 0 with hidle | hpending
  · have hcommon : CommonStub keep 0 s₁ _ _ _ := .notPending hidle
    exact ⟨_, .stub hcur hds hstub hhandler hcommon, hhandled, rfl, rfl⟩
  · obtain ⟨s₂, hreturn⟩ := Machine.exists_returned (s₁.push 0) keep
    obtain ⟨t', -, hstep⟩ := schedulePending_eq hqueue hi hcur' (s₁.push 0).framePtr
    exact ⟨_, .stub hcur hds hstub hhandler (.pending hpending hstep hreturn), hhandled, rfl, rfl⟩

/-- **Interrupts nest.** For any number of threads, the kernel comes up, and in every run from
there, with interrupts delivered wherever the interrupt flag is set, before stubs and on top of each
other, every stub leaves the task that it resumes with exactly the registers of its latest
interruption, or at the entry of its function, and no delivery is ever stuck. -/
theorem nested_contexts (layout : StubLayout) (gdt : ℕ → SegmentDescriptor)
    (k₀ : Interrupts KernelHandler) (areas : Stacks Task) (hello : U32) (entry : Task → Entry)
    (idleTask : Task) (threads : List Task) (hnodup : (idleTask :: threads).Nodup)
    (hsize : ∀ t ∈ threads, areas.size t = 4096) (sched₀ : Sched Task)
    (hrequest : sched₀.scheduleRequest = 0x10) (mem₀ : Mem) :
    ∃ k sched mem, (Interrupts.start layout registrations k₀).Returns k ∧
      (boot areas hello entry idleTask threads sched₀ mem₀).Returns (sched, mem) ∧
      ∀ (regs : Regs) (r : List (RunningEvent × Running Task)),
        Along (RunningStep layout gdt areas) (.start ⟨regs, mem⟩ sched k) r →
        Along (fun _ e s' ↦ e.Resumes hello entry s') (.start ⟨regs, mem⟩ sched k) r ∧
        ∀ t, (finish (.start ⟨regs, mem⟩ sched k) r).sched.currentTask = some t →
          (finish (.start ⟨regs, mem⟩ sched k) r).entered t ≠ [] →
          ∀ b, ∃ s', RunningStep layout gdt areas (finish (.start ⟨regs, mem⟩ sched k) r)
            (.stub b) s' := by
  obtain ⟨k, sched, mem, hstart, hboot, -, hinv⟩ := runningInv_start layout k₀ areas hello entry
    idleTask threads hnodup hsize sched₀ hrequest mem₀
  refine ⟨k, sched, mem, hstart, hboot, fun regs r hrun ↦ ⟨?_, fun t hcur hentered b ↦ ?_⟩⟩
  · have hall := hrun.invariant _ (fun s e s' hs hstep ↦ (hstep.inv hnodup hs).1) (hinv regs)
    exact hall.mono fun s e s' ⟨hstep, hs, _⟩ ↦ (hstep.inv hnodup hs).2
  · have hlast := hrun.finish_of_invariant _ (fun s e s' hs hstep ↦ (hstep.inv hnodup hs).1)
      (hinv regs)
    obtain ⟨d, ds, hds⟩ := List.exists_cons_of_ne_nil hentered
    obtain ⟨s', hstep, -⟩ := hlast.exists_stub gdt hcur hds b
    exact ⟨s', hstep⟩

/-- The registers with which the idle task begins in the run below. -/
def idleRegs : Regs :=
  ⟨0, 0, 0, 0, 0x10800, 0, 0, 0, 0, Machine.interruptFlag, 0x08, 0x10, 0x10, 0x10, 0x10⟩

/-- The controllers and the tables before the kernel has set them up. -/
def powerOnInterrupts : Interrupts KernelHandler :=
  ⟨fun _ ↦ ⟨0, 0, 0, 0, 0⟩, ⟨⟨.mask, 0, 0, 0, 0, 0⟩, ⟨.mask, 0, 0, 0, 0, 0⟩⟩, fun _ ↦ none, false⟩

/-- The variables of the scheduler as they are initialized. -/
def startSched : Sched Bool :=
  ⟨fun _ ↦ none, fun _ ↦ none, fun _ ↦ 0, none, none, 0x10⟩

/-- The registers of the thread when it is interrupted in the run below. -/
def threadRegs : Regs :=
  { idleRegs with esp := 0x20F00, eip := 0x2010 }

/-- The timer interrupts a keyboard interrupt before its stub has begun, and resumes the thread. The
thread runs until the timer interrupts it as well, and then the stub of the keyboard interrupt runs
to its end. -/
theorem exists_nested {layout : StubLayout} (gdt : ℕ → SegmentDescriptor) {hello : U32}
    {entry : Bool → Entry} {k : Interrupts KernelHandler} {sched : Sched Bool} {mem : Mem}
    {master slave : ℕ} (hcur : sched.currentTask = some false)
    (hinv : RunningInv layout twoStacks hello entry [false, true] master slave
      (.start ⟨idleRegs, mem⟩ sched k)) :
    ∃ s₁ s₂ s₃ s₄ s₅ s₆ s₇, Along (RunningStep layout gdt twoStacks)
        (.start ⟨idleRegs, mem⟩ sched k) [(.deliver 1, s₁), (.deliver 0, s₂), (.stub 0, s₃),
          (.run, s₄), (.deliver 0, s₅), (.stub 0, s₆), (.stub 0x1C, s₇)] ∧
      s₃.sched.currentTask = some true ∧ s₃.latest true = none ∧
      s₇.sched.currentTask = some false ∧ s₇.latest false = some idleRegs ∧
      s₇.handled = [0x20, 0x20, 0x21] := by
  have hnodup : [false, true].Nodup := by decide
  have hroom : Room twoStacks false idleRegs.esp := by
    rw [Room]
    decide
  have hroom' : Room twoStacks false (idleRegs.esp - 12) := by
    rw [Room]
    decide
  have hroom'' : Room twoStacks true threadRegs.esp := by
    rw [Room]
    decide
  have hflag : idleRegs.eflags &&& Machine.interruptFlag ≠ 0 := by decide
  -- two deliveries on the stack of the idle task
  obtain ⟨s₁, hstep₁, hsched₁, hhandled₁, hlatest₁, hentered₁, hflag₁, hesp₁⟩ :=
    hinv.exists_deliver gdt hcur hflag hroom 1
  obtain ⟨hinv₁, -⟩ := hstep₁.inv hnodup hinv
  obtain ⟨s₂, hstep₂, hsched₂, hhandled₂, hlatest₂, hentered₂, -⟩ :=
    hinv₁.exists_deliver gdt (hsched₁ ▸ hcur) (hflag₁ ▸ hflag) (hesp₁ ▸ hroom') 0
  obtain ⟨hinv₂, -⟩ := hstep₂.inv hnodup hinv₁
  -- the stub of the inner one
  obtain ⟨s₃, hstep₃, hhandled₃, hlatest₃, hentered₃⟩ := hinv₂.exists_stub gdt
    (hsched₂ ▸ hsched₁ ▸ hcur) (hentered₂ ▸ Function.update_self ..) 0
  obtain ⟨hinv₃, -⟩ := hstep₃.inv hnodup hinv₂
  replace hhandled₃ : s₃.handled = [0x20] := by
    rw [hhandled₃, hhandled₂, hhandled₁]
    rfl
  rw [hlatest₂, hlatest₁] at hlatest₃
  rw [hentered₂, hentered₁] at hentered₃
  have hcur₃ : s₃.sched.currentTask = some true := by
    rw [hinv₃.accounts.turn, hhandled₃]
    decide
  -- the thread runs and is interrupted
  let s₄ : Running Bool :=
    { s₃ with machine := ⟨threadRegs, s₃.machine.mem⟩, keys := s₃.keys ++ [] }
  have hkbd : (([] : List KeyBufferEvent).foldlM KeyBufferEvent.next s₃.kbd).Returns s₃.kbd :=
    returns_pure s₃.kbd
  have hstep₄ : RunningStep layout gdt twoStacks s₃ .run s₄ :=
    .run hcur₃ (hentered₃ ▸ rfl) (fun _ _ _ _ ↦ rfl) (fun _ ↦ List.not_mem_nil) hkbd
  obtain ⟨hinv₄, -⟩ := hstep₄.inv hnodup hinv₃
  obtain ⟨s₅, hstep₅, hsched₅, hhandled₅, hlatest₅, hentered₅, -⟩ :=
    hinv₄.exists_deliver gdt hcur₃ hflag hroom'' 0
  obtain ⟨hinv₅, -⟩ := hstep₅.inv hnodup hinv₄
  obtain ⟨s₆, hstep₆, hhandled₆, hlatest₆, hentered₆⟩ :=
    hinv₅.exists_stub gdt (hsched₅ ▸ hcur₃) (hentered₅ ▸ Function.update_self ..) 0
  obtain ⟨hinv₆, -⟩ := hstep₆.inv hnodup hinv₅
  replace hhandled₆ : s₆.handled = [0x20, 0x20] := by
    rw [hhandled₆, hhandled₅, show s₄.handled = _ from hhandled₃]
    rfl
  rw [hentered₅, show s₄.entered = _ from hentered₃] at hentered₆
  have hcur₆ : s₆.sched.currentTask = some false := by
    rw [hinv₆.accounts.turn, hhandled₆]
    decide
  -- the stub of the keyboard
  have houter : s₆.entered false = [⟨33, idleRegs⟩] := by
    rw [hentered₆]
    rfl
  obtain ⟨s₇, hstep₇, hhandled₇, hlatest₇, -⟩ := hinv₆.exists_stub gdt hcur₆ houter 0x1C
  obtain ⟨hinv₇, -⟩ := hstep₇.inv hnodup hinv₆
  rw [hhandled₆] at hhandled₇
  refine ⟨s₁, s₂, s₃, s₄, s₅, s₆, s₇,
    ⟨hstep₁, hstep₂, hstep₃, hstep₄, hstep₅, hstep₆, hstep₇, trivial⟩, hcur₃, ?_, ?_, ?_,
    hhandled₇⟩
  · rw [hlatest₃]
    rfl
  · rw [hinv₇.accounts.turn, hhandled₇]
    decide
  · rw [hlatest₇]
    rfl

/-- In that run the thread is entered at its function, and in the end the idle task has the registers
with which it began. -/
theorem nested_contexts_two : ∃ k sched mem s₁ s₂ s₃ s₄ s₅ s₆ s₇,
    (Interrupts.start alignedStubs registrations powerOnInterrupts).Returns k ∧
    (boot twoStacks 0x1000 (fun _ ↦ ⟨0x2000, 7⟩) false [true] startSched fun _ ↦ 0).Returns
      (sched, mem) ∧
    Along (RunningStep alignedStubs (fun _ ↦ ⟨0, 0, 0, 0, 0, 0⟩) twoStacks)
      (.start ⟨idleRegs, mem⟩ sched k) [(.deliver 1, s₁), (.deliver 0, s₂), (.stub 0, s₃),
        (.run, s₄), (.deliver 0, s₅), (.stub 0, s₆), (.stub 0x1C, s₇)] ∧
    s₃.machine.eip = 0x2000 ∧ s₇.machine.toRegs = idleRegs := by
  let gdt : ℕ → SegmentDescriptor := fun _ ↦ ⟨0, 0, 0, 0, 0, 0⟩
  have hnodup : [false, true].Nodup := by decide
  obtain ⟨k, sched, mem, hstart, hboot, hrun⟩ := nested_contexts alignedStubs gdt
    powerOnInterrupts twoStacks 0x1000 (fun _ ↦ ⟨0x2000, 7⟩) false [true] hnodup (fun _ _ ↦ rfl)
    startSched rfl fun _ ↦ 0
  obtain ⟨k', sched', mem', hstart', hboot', hcur, hinv⟩ := runningInv_start alignedStubs
    powerOnInterrupts twoStacks 0x1000 (fun _ ↦ ⟨0x2000, 7⟩) false [true] hnodup (fun _ _ ↦ rfl)
    startSched rfl fun _ ↦ 0
  obtain rfl := hstart'.unique hstart
  obtain ⟨rfl, rfl⟩ := Prod.mk.inj (hboot'.unique hboot)
  obtain ⟨s₁, s₂, s₃, s₄, s₅, s₆, s₇, hsteps, hcur₃, hlatest₃, hcur₇, hlatest₇, -⟩ :=
    exists_nested gdt hcur (hinv idleRegs)
  obtain ⟨-, -, hresumed₃, -, -, -, hresumed₇, -⟩ := (hrun idleRegs _ hsteps).1
  refine ⟨_, _, _, s₁, s₂, s₃, s₄, s₅, s₆, s₇, hstart, hboot, hsteps, ?_, ?_⟩
  · exact (Resumed.entered hresumed₃ hcur₃ hlatest₃).1
  · exact Resumed.toRegs_eq hresumed₇ hcur₇ hlatest₇

/-- **Every interrupt is accounted for.** In every run, each interrupt delivered has been handled
once, under the number of its stub, or waits on the stack of one task; the numbers handled tell how
many acknowledgements there were, how many bytes have arrived in the key buffer, and, round by
round, whose turn it is. -/
theorem nested_accounts (layout : StubLayout) (gdt : ℕ → SegmentDescriptor)
    (k₀ : Interrupts KernelHandler) (areas : Stacks Task) (hello : U32) (entry : Task → Entry)
    (idleTask : Task) (threads : List Task) (hnodup : (idleTask :: threads).Nodup)
    (hsize : ∀ t ∈ threads, areas.size t = 4096) (sched₀ : Sched Task)
    (hrequest : sched₀.scheduleRequest = 0x10) (mem₀ : Mem) :
    ∃ k sched mem, (Interrupts.start layout registrations k₀).Returns k ∧
      (boot areas hello entry idleTask threads sched₀ mem₀).Returns (sched, mem) ∧
      ∀ (regs : Regs) (r : List (RunningEvent × Running Task)),
        Along (RunningStep layout gdt areas) (.start ⟨regs, mem⟩ sched k) r →
        Accounts (idleTask :: threads) k₀.pics.master.acknowledged k₀.pics.slave.acknowledged
          (finish (.start ⟨regs, mem⟩ sched k) r) := by
  obtain ⟨k, sched, mem, hstart, hboot, -, hinv⟩ := runningInv_start layout k₀ areas hello entry
    idleTask threads hnodup hsize sched₀ hrequest mem₀
  refine ⟨k, sched, mem, hstart, hboot, fun regs r hrun ↦ ?_⟩
  exact (hrun.finish_of_invariant _ (fun s e s' hs hstep ↦ (hstep.inv hnodup hs).1)
    (hinv regs)).accounts

/-- The accounts of that run: the interrupts are handled in another order than they came, and the
master has three acknowledgements. -/
theorem nested_accounts_two : ∃ k sched mem s₁ s₂ s₃ s₄ s₅ s₆ s₇,
    (Interrupts.start alignedStubs registrations powerOnInterrupts).Returns k ∧
    (boot twoStacks 0x1000 (fun _ ↦ ⟨0x2000, 7⟩) false [true] startSched fun _ ↦ 0).Returns
      (sched, mem) ∧
    Along (RunningStep alignedStubs (fun _ ↦ ⟨0, 0, 0, 0, 0, 0⟩) twoStacks)
      (.start ⟨idleRegs, mem⟩ sched k) [(.deliver 1, s₁), (.deliver 0, s₂), (.stub 0, s₃),
        (.run, s₄), (.deliver 0, s₅), (.stub 0, s₆), (.stub 0x1C, s₇)] ∧
    s₇.handled = [0x20, 0x20, 0x21] ∧ s₇.sched.currentTask = some false ∧
    s₇.interrupts.pics.master.acknowledged = 3 ∧ s₇.keys.countP KeyBufferEvent.isByte = 1 := by
  let gdt : ℕ → SegmentDescriptor := fun _ ↦ ⟨0, 0, 0, 0, 0, 0⟩
  have hnodup : [false, true].Nodup := by decide
  obtain ⟨k, sched, mem, hstart, hboot, hrun⟩ := nested_accounts alignedStubs gdt
    powerOnInterrupts twoStacks 0x1000 (fun _ ↦ ⟨0x2000, 7⟩) false [true] hnodup (fun _ _ ↦ rfl)
    startSched rfl fun _ ↦ 0
  obtain ⟨k', sched', mem', hstart', hboot', hcur, hinv⟩ := runningInv_start alignedStubs
    powerOnInterrupts twoStacks 0x1000 (fun _ ↦ ⟨0x2000, 7⟩) false [true] hnodup (fun _ _ ↦ rfl)
    startSched rfl fun _ ↦ 0
  obtain rfl := hstart'.unique hstart
  obtain ⟨rfl, rfl⟩ := Prod.mk.inj (hboot'.unique hboot)
  obtain ⟨s₁, s₂, s₃, s₄, s₅, s₆, s₇, hsteps, -, -, hcur₇, -, hhandled₇⟩ :=
    exists_nested gdt hcur (hinv idleRegs)
  have haccounts : Accounts [false, true] 0 0 s₇ := hrun idleRegs _ hsteps
  refine ⟨_, _, _, s₁, s₂, s₃, s₄, s₅, s₆, s₇, hstart, hboot, hsteps, hhandled₇, hcur₇, ?_, ?_⟩
  · rw [haccounts.master, hhandled₇]
    decide
  · rw [haccounts.bytes, hhandled₇]
    decide

end Ganoid
