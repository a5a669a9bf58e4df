import Ganoid.Kernel.Process
import Ganoid.Library.Along

/-!
# Context switches

The stubs, the scheduler and the hand-built frames together: the idle task and any number of
threads, of which one runs until a timer interrupt arrives and `isr_common_stub` resumes another.

While a task runs it may do what it likes with its registers and with all memory but the stacks of
the others. An interrupt is delivered on its stack, which must have room for the frame and for the
calls that the stub makes (`Room`); nothing in the kernel checks this. The functions called keep the
other stacks, and the interrupted one from the frame up (`Kept`).

The invariant is that every task that does not run is `Suspended`: at its saved stack pointer, on
its own stack, stands the frame of the context in which it was interrupted last, or, where it has
never run, the frame that `kernel_thread` built. That context is recorded in `System.latest`, which
no function of the kernel reads.
-/

open Fuelled

namespace Ganoid

variable {Task : Type} [DecidableEq Task]

/-- The stacks of the tasks, which do not overlap. -/
structure Stacks (Task : Type) where
  base : Task → U32
  size : Task → ℕ
  size_lt : ∀ t, size t < 2 ^ 32
  disjoint : ∀ t t' q, Mem.InRegion (base t) (size t) q → Mem.InRegion (base t') (size t') q →
    t = t'

/-- What a new thread is to do. -/
structure Entry where
  fn : U32
  arg : U32

/-- The machine and the scheduler, and the context in which each task was interrupted last. -/
structure System (Task : Type) where
  machine : Machine
  sched : Sched Task
  latest : Task → Option Regs

/-- Creating the tasks: `init_schedular`, and `kernel_thread` for each thread. -/
def boot (areas : Stacks Task) (hello : U32) (entry : Task → Entry) (idleTask : Task)
    (threads : List Task) (sched : Sched Task) (mem : Mem) : Fuelled (Sched Task × Mem) := do
  let sched ← Sched.initSchedular idleTask sched
  threads.foldlM (fun s t ↦
    startThread areas.base hello t (entry t).fn (entry t).arg s.1 s.2) (sched, mem)

/-- The stack of `t`, with `esp` as its stack pointer, has room for an interrupt frame, and for the
return address and the saved `ebp` of the functions that the stub calls. -/
def Room (areas : Stacks Task) (t : Task) (esp : U32) : Prop :=
  76 ≤ (esp - areas.base t).toNat ∧ (esp - areas.base t).toNat ≤ areas.size t

/-- The memory that the functions called in an interrupt of `t` keep: the stacks of the other tasks,
and the stack of `t` from the frame at `p` up. -/
def Kept (areas : Stacks Task) (t : Task) (p q : U32) : Prop :=
  (∃ t' ≠ t, Mem.InRegion (areas.base t') (areas.size t') q) ∨
    Mem.InRegion p (areas.size t - (p - areas.base t).toNat) q

inductive SwitchEvent
  | run
  | timer

/-- The vector of the timer. -/
def timerInterrupt : ℕ := 0x20

/-- One step: the current task runs for a while, or is interrupted by the timer, whose handler
requests a reschedule. -/
inductive SwitchStep (areas : Stacks Task) : System Task → SwitchEvent → System Task → Prop
  | run {s : System Task} {t : Task} {machine : Machine} (hcur : s.sched.currentTask = some t)
      (hmem : ∀ t' ≠ t, ∀ q, Mem.InRegion (areas.base t') (areas.size t') q →
        machine.mem q = s.machine.mem q) :
      SwitchStep areas s .run { s with machine }
  | timer {s : System Task} {t : Task} {returnAddr returnAddr' : U32} {s₁ machine : Machine}
      {sched : Sched Task} (hcur : s.sched.currentTask = some t)
      (hroom : Room areas t s.machine.esp)
      (hhandler : ((s.machine.interrupt timerInterrupt 0).push returnAddr).Returned
        (Kept areas t (s.machine.interrupt timerInterrupt 0).esp) s₁)
      (hstub : CommonStub (Kept areas t (s.machine.interrupt timerInterrupt 0).esp) returnAddr'
        s₁ { s.sched with scheduleRequest := 0x10 } machine sched) :
      SwitchStep areas s .timer
        ⟨machine, sched, Function.update s.latest t (some s.machine.toRegs)⟩

/-- A task that is resumed has the context in which it was interrupted last, or, if it never was,
enters its function with `hello` as the return address. -/
def Resumed (hello : U32) (entry : Task → Entry) (e : SwitchEvent) (s : System Task) : Prop :=
  match e with
  | .run => True
  | .timer => ∃ t, s.sched.currentTask = some t ∧
    match s.latest t with
    | some c => s.machine.toRegs = c
    | none => s.machine.eip = (entry t).fn ∧ s.machine.mem.load32 s.machine.esp = hello ∧
      s.machine.mem.load32 (s.machine.esp + 4) = (entry t).arg

omit [DecidableEq Task] in
/-- A task that was interrupted has the context back. -/
theorem Resumed.toRegs_eq {hello : U32} {entry : Task → Entry} {s : System Task} {t : Task}
    {c : Regs} (h : Resumed hello entry .timer s) (hcur : s.sched.currentTask = some t)
    (hlatest : s.latest t = some c) : s.machine.toRegs = c := by
  obtain ⟨t', ht', hregs⟩ := h
  obtain rfl : t = t' := Option.some.inj (hcur.symm.trans ht')
  rwa [hlatest] at hregs

omit [DecidableEq Task] in
/-- A task that was not is at the entry of its function. -/
theorem Resumed.entered {hello : U32} {entry : Task → Entry} {s : System Task} {t : Task}
    (h : Resumed hello entry .timer s) (hcur : s.sched.currentTask = some t)
    (hlatest : s.latest t = none) :
    s.machine.eip = (entry t).fn ∧ s.machine.mem.load32 s.machine.esp = hello ∧
      s.machine.mem.load32 (s.machine.esp + 4) = (entry t).arg := by
  obtain ⟨t', ht', hregs⟩ := h
  obtain rfl : t = t' := Option.some.inj (hcur.symm.trans ht')
  rwa [hlatest] at hregs

/-! ### Suspended tasks -/

/-- At the saved stack pointer of `t` stands, within its stack, the frame of its latest context, or
the one it was created with. -/
def Suspended (areas : Stacks Task) (hello : U32) (entry : Task → Entry) (mem : Mem) (t : Task)
    (esp : U32) (latest : Option Regs) : Prop :=
  ∃ c, FrameAt mem esp c ∧ (esp - areas.base t).toNat + 68 ≤ areas.size t ∧
    match latest with
    | some c' => c = c'
    | none => (esp - areas.base t).toNat + 76 ≤ areas.size t ∧ c.eip = (entry t).fn ∧
      Mem.WordsAt mem (esp + 68) [hello, (entry t).arg]

omit [DecidableEq Task] in
/-- An address above a saved stack pointer lies on the stack. -/
theorem inRegion_stack {areas : Stacks Task} {t : Task} {p q : U32} {n : ℕ}
    (hp : (p - areas.base t).toNat + n ≤ areas.size t) (hq : Mem.InRegion p n q) :
    Mem.InRegion (areas.base t) (areas.size t) q := by
  have hlt := areas.size_lt t
  rw [Mem.InRegion] at hq ⊢
  have hsum : q - areas.base t = (p - areas.base t) + (q - p) := by
    generalize areas.base t = b
    bv_omega
  rw [hsum, BitVec.toNat_add]
  omega

omit [DecidableEq Task] in
/-- Only changes on the stack of a task concern it while it is suspended. -/
theorem Suspended.of_agree {areas : Stacks Task} {hello : U32} {entry : Task → Entry}
    {mem mem' : Mem} {t : Task} {esp : U32} {latest : Option Regs}
    (h : Suspended areas hello entry mem t esp latest)
    (hagree : ∀ q, Mem.InRegion (areas.base t) (areas.size t) q → mem' q = mem q) :
    Suspended areas hello entry mem' t esp latest := by
  obtain ⟨c, hframe, hfits, hlatest⟩ := h
  refine ⟨c, hframe.of_agree fun q hq ↦ hagree q (inRegion_stack hfits hq), hfits, ?_⟩
  cases latest with
  | some c' => exact hlatest
  | none =>
    obtain ⟨htop, heip, hwords⟩ := hlatest
    refine ⟨htop, heip, hwords.of_agree (by simp) fun q hq ↦ hagree q ?_⟩
    have hesp : (esp + 68 - areas.base t).toNat + 8 ≤ areas.size t := by
      have hlt := areas.size_lt t
      have hsum : esp + 68 - areas.base t = (esp - areas.base t) + 68 := by
        generalize areas.base t = b
        bv_omega
      rw [hsum, BitVec.toNat_add]
      show ((esp - areas.base t).toNat + 68) % 2 ^ 32 + 8 ≤ areas.size t
      omega
    exact inRegion_stack hesp hq

/-! ### One step -/

/-- The invariant: the queue is well formed, and all of its tasks but the current one are
suspended. -/
structure SwitchInv (areas : Stacks Task) (hello : U32) (entry : Task → Entry) (l : List Task)
    (s : System Task) : Prop where
  queue : RunQueue s.sched l
  suspended : ∀ t ∈ l, s.sched.currentTask ≠ some t →
    Suspended areas hello entry s.machine.mem t (s.sched.esp t) (s.latest t)

omit [DecidableEq Task] in
/-- The word that a call pushes below a frame is not kept. -/
theorem Kept.not_inRegion_call {areas : Stacks Task} {t : Task} {p q : U32}
    (h : Kept areas t p q) (hlo : 8 ≤ (p - areas.base t).toNat)
    (hhi : (p - areas.base t).toNat ≤ areas.size t) : ¬ Mem.InRegion (p - 4) 4 q := by
  have hlt := areas.size_lt t
  intro hcall
  rcases h with ⟨t', hne, hother⟩ | hown
  · have hbelow : (p - 4 - areas.base t).toNat + 4 ≤ areas.size t := by
      generalize areas.base t = b at hlo hhi ⊢
      bv_omega
    exact hne (areas.disjoint t' t q hother (inRegion_stack hbelow hcall))
  · rw [Mem.InRegion] at hown hcall
    generalize areas.base t = b at hlo hhi hown
    bv_omega

omit [DecidableEq Task] in
/-- What a call keeps, seen from before the call. -/
theorem Machine.Returned.mem_of_call {areas : Stacks Task} {t : Task} {s s' : Machine}
    {returnAddr q : U32} (h : (s.push returnAddr).Returned (Kept areas t s.esp) s')
    (hlo : 8 ≤ (s.esp - areas.base t).toNat)
    (hhi : (s.esp - areas.base t).toNat ≤ areas.size t) (hq : Kept areas t s.esp q) :
    s'.mem q = s.mem q := by
  rw [h.mem_eq q hq]
  exact Mem.store32_of_not_inRegion (hq.not_inRegion_call hlo hhi)

/-- The offset of a frame on a stack. -/
theorem toNat_frame_sub {p b : U32} (h : 68 ≤ (p - b).toNat) :
    (p - 68 - b).toNat = (p - b).toNat - 68 := by
  bv_omega

/-- An interrupt pushes its frame onto the stack of the current task, and changes nothing else. -/
theorem interrupt_timer (s : Machine) :
    (s.interrupt timerInterrupt 0).esp = s.esp - 68 ∧
      FrameAt (s.interrupt timerInterrupt 0).mem (s.esp - 68) s.toRegs ∧
      ∀ q, ¬ Mem.InRegion (s.esp - 68) 68 q → (s.interrupt timerInterrupt 0).mem q = s.mem q := by
  have htimer : Machine.hasErrorCode timerInterrupt = false := rfl
  obtain ⟨w, hpushed⟩ := Machine.pushed_interrupt htimer s 0
  have hesp : (s.interrupt timerInterrupt 0).esp = s.esp - 68 := hpushed.esp_eq
  have hframe := Machine.frameAt_interrupt htimer s 0
  have hmem := hpushed.mem_eq
  rw [hesp] at hframe hmem
  exact ⟨hesp, hframe, hmem⟩

/-- After an interrupt of `t`, every task is suspended: `t` at the frame just saved, and the others
where they were. -/
theorem suspended_of_interrupt {areas : Stacks Task} {hello : U32} {entry : Task → Entry}
    {s : Machine} {t : Task} {esp : Task → U32} {latest : Task → Option Regs} {mem : Mem}
    (hroom : Room areas t s.esp)
    (hkept : ∀ q, Kept areas t (s.esp - 68) q → mem q = (s.interrupt timerInterrupt 0).mem q)
    {t' : Task} (hother : t' ≠ t → Suspended areas hello entry s.mem t' (esp t') (latest t')) :
    Suspended areas hello entry mem t' (Function.update esp t (s.esp - 68) t')
      (Function.update latest t (some s.toRegs) t') := by
  obtain ⟨-, hframe, hmem⟩ := interrupt_timer s
  obtain ⟨hlo, hhi⟩ := hroom
  have hlt := areas.size_lt t
  have hoff := toNat_frame_sub (show 68 ≤ (s.esp - areas.base t).toNat by omega)
  rcases eq_or_ne t' t with rfl | hne
  · rw [Function.update_self, Function.update_self]
    refine ⟨s.toRegs, hframe.of_agree fun q hq ↦ hkept q (Or.inr ?_), by omega, rfl⟩
    rw [Mem.InRegion, IsrRegisters.size] at hq
    rw [Mem.InRegion]
    omega
  · rw [Function.update_of_ne hne, Function.update_of_ne hne]
    refine (hother hne).of_agree fun q hq ↦ ?_
    rw [hkept q (Or.inl ⟨t', hne, hq⟩)]
    refine hmem q fun hown ↦ hne (areas.disjoint t' t q hq (inRegion_stack ?_ hown))
    omega

omit [DecidableEq Task] in
/-- Resuming a suspended task restores its latest context, or enters it. -/
theorem resumed_of_suspended {areas : Stacks Task} {hello : U32} {entry : Task → Entry}
    {s : Machine} {sched : Sched Task} {t : Task} {latest : Task → Option Regs}
    (h : Suspended areas hello entry s.mem t s.esp (latest t))
    (hcur : sched.currentTask = some t) :
    Resumed hello entry .timer ⟨s.isrCommonRestore, sched, latest⟩ := by
  obtain ⟨c, hframe, -, hlatest⟩ := h
  have hregs := Machine.toRegs_isrCommonRestore hframe
  refine ⟨t, hcur, ?_⟩
  show match latest t with
    | some c => s.isrCommonRestore.toRegs = c
    | none => s.isrCommonRestore.eip = (entry t).fn ∧
      s.isrCommonRestore.mem.load32 s.isrCommonRestore.esp = hello ∧
      s.isrCommonRestore.mem.load32 (s.isrCommonRestore.esp + 4) = (entry t).arg
  cases hl : latest t with
  | some c' =>
    rw [hl] at hlatest
    exact hregs.trans hlatest
  | none =>
    rw [hl] at hlatest
    obtain ⟨-, heip, hhello, harg, -⟩ := hlatest
    rw [Machine.mem_isrCommonRestore, Machine.esp_isrCommonRestore, hregs]
    exact ⟨heip, hhello, harg⟩

/-- **One step** keeps the invariant, and resumes tasks as they were. -/
theorem SwitchStep.inv_resumed {areas : Stacks Task} {hello : U32} {entry : Task → Entry}
    {l : List Task} {s s' : System Task} {e : SwitchEvent} (h : SwitchStep areas s e s')
    (hinv : SwitchInv areas hello entry l s) :
    SwitchInv areas hello entry l s' ∧ Resumed hello entry e s' := by
  obtain ⟨hqueue, hsuspended⟩ := hinv
  cases h with
  | run hcur hmem =>
    refine ⟨⟨hqueue, fun t' ht' hne ↦ (hsuspended t' ht' hne).of_agree (hmem t' ?_)⟩, trivial⟩
    rintro rfl
    exact hne hcur
  | timer hcur hroom hhandler hstub =>
    rename_i t returnAddr returnAddr' s₁ machine sched
    obtain ⟨hesp, -, -⟩ := interrupt_timer s.machine
    have hroom' := hroom
    obtain ⟨hlo, hhi⟩ := hroom'
    have hoff := toNat_frame_sub (show 68 ≤ (s.machine.esp - areas.base t).toNat by omega)
    -- the handler returns with the frame on top of the stack and the other stacks as they were
    have hesp₁ : s₁.esp = s.machine.esp - 68 := hhandler.esp_of_call.trans hesp
    have hmem₁ : ∀ q, Kept areas t (s.machine.esp - 68) q →
        s₁.mem q = (s.machine.interrupt timerInterrupt 0).mem q := fun q hq ↦ by
      rw [← hesp] at hq hoff
      exact hhandler.mem_of_call (by omega) (by omega) hq
    obtain ⟨i, hi, rfl⟩ := hqueue.exists_getElem_eq hcur
    cases hstub with
    | notPending hrequest => exact absurd hrequest (show (0x10 : U32) ≠ 0 by decide)
    | pending hrequest hschedule hreturn =>
      rename_i s₂ esp
      have hqueue' : RunQueue { s.sched with scheduleRequest := 0x10 } l :=
        hqueue.congr rfl rfl rfl rfl
      -- what `schedule_pending` takes for its caller's stack pointer is the address of that frame
      obtain ⟨t', ht', hstep⟩ := schedulePending_eq hqueue' hi hcur (s.machine.esp - 68)
      rw [Machine.framePtr_push, hesp₁, hstep] at hschedule
      obtain ⟨rfl, rfl⟩ := Prod.mk.inj (Option.some.inj hschedule)
      have hmem₂ : ∀ q, Kept areas l[i] (s.machine.esp - 68) q →
          s₂.mem q = (s.machine.interrupt timerInterrupt 0).mem q := fun q hq ↦ by
        rw [hesp, ← hesp₁] at hreturn
        rw [← hmem₁ q hq]
        rw [← hesp₁] at hq hoff
        exact hreturn.mem_of_call (by omega) (by omega) hq
      have hall : ∀ t ∈ l, Suspended areas hello entry s₂.mem t
          (Function.update s.sched.esp l[i] (s.machine.esp - 68) t)
          (Function.update s.latest l[i] (some s.machine.toRegs) t) := fun t ht ↦
        suspended_of_interrupt hroom hmem₂ fun hne ↦ hsuspended t ht (by
          rw [hcur]
          exact fun heq ↦ hne (Option.some.inj heq).symm)
      have hmod : (i + 1) % l.length < l.length := Nat.mod_lt _ (Nat.zero_lt_of_lt hi)
      have ht'l : t' ∈ l := List.mem_of_getElem? ht'
      exact ⟨⟨⟨hqueue.visits, hqueue.backlinked, _, hmod, ht'.symm⟩, fun t ht _ ↦ hall t ht⟩,
        resumed_of_suspended (hall t' ht'l) rfl⟩

/-! ### Booting -/

/-- Starting a thread leaves it suspended in front of its first instruction, and the threads started
before it where they were. -/
theorem suspended_startThread {areas : Stacks Task} {hello : U32} {entry : Task → Entry} {t : Task}
    (hsize : areas.size t = 4096) (mem : Mem) (esp : Task → U32) {t' : Task}
    (hbefore : t' ≠ t → Suspended areas hello entry mem t' (esp t') none) :
    Suspended areas hello entry
      (buildFrame mem (areas.base t) hello (entry t).fn (entry t).arg).2 t'
      (Function.update esp t (areas.base t + 4020) t') none := by
  obtain ⟨-, hwords, c, hframe, heip⟩ :=
    frameAt_buildFrame mem (areas.base t) hello (entry t).fn (entry t).arg
  have htop : (areas.base t + 4020 - areas.base t).toNat = 4020 := by
    rw [Mem.add_sub_self_left]
    rfl
  rcases eq_or_ne t' t with rfl | hne
  · rw [Function.update_self]
    exact ⟨c, hframe, by omega, by omega, heip, hwords⟩
  · rw [Function.update_of_ne hne]
    refine (hbefore hne).of_agree fun q hq ↦ buildFrame_of_not_inRegion fun hown ↦ hne ?_
    exact areas.disjoint t' t q hq (inRegion_stack (by omega) hown)

/-- **Booting** returns, with the idle task current and every thread suspended, whatever the
registers are. -/
theorem boot_returns (areas : Stacks Task) (hello : U32) (entry : Task → Entry) (idleTask : Task)
    (threads : List Task) (hnodup : (idleTask :: threads).Nodup)
    (hsize : ∀ t ∈ threads, areas.size t = 4096) (sched₀ : Sched Task) (mem₀ : Mem) :
    ∃ sched mem, (boot areas hello entry idleTask threads sched₀ mem₀).Returns (sched, mem) ∧
      sched.currentTask = some idleTask ∧
      ∀ regs, SwitchInv areas hello entry (idleTask :: threads)
        ⟨⟨regs, mem⟩, sched, fun _ ↦ none⟩ := by
  obtain ⟨sched₁, hinit, hqueue₁, hcur₁⟩ := initSchedular_returns idleTask sched₀
  -- the threads started so far are suspended; the idle task is the one that runs
  obtain ⟨⟨sched, mem⟩, hret, hqueue, hcur, hsuspended⟩ := exists_returns_foldlM
    (fun done (s : Sched Task × Mem) ↦ RunQueue s.1 (idleTask :: done) ∧
      s.1.currentTask = some idleTask ∧
      ∀ t ∈ done, Suspended areas hello entry s.2 t (s.1.esp t) none) threads
    (fun done t rest s hthreads ⟨hqueue, hcur, hsuspended⟩ ↦ by
      rw [hthreads] at hnodup hsize
      obtain ⟨sched', hret, hqueue', hesp, hcur'⟩ := startThread_returns hqueue
        (List.cons_ne_nil _ _) (nodup_next hnodup) areas.base hello (entry t).fn (entry t).arg s.2
      refine ⟨_, hret, hqueue', hcur'.trans hcur, fun t' ht' ↦ ?_⟩
      rw [hesp]
      refine suspended_startThread (hsize t (by simp)) s.2 s.1.esp fun hne ↦ hsuspended t' ?_
      exact (List.mem_append.1 ht').resolve_right fun h ↦ hne (List.mem_singleton.1 h))
    (b := (sched₁, mem₀)) ⟨hqueue₁, hcur₁, fun t ht ↦ absurd ht List.not_mem_nil⟩
  refine ⟨sched, mem, hinit.bind hret, hcur, fun regs ↦ ⟨hqueue, fun t ht hne ↦ ?_⟩⟩
  refine hsuspended t ((List.mem_cons.1 ht).resolve_left ?_)
  rintro rfl
  exact hne hcur

/-! ### Runs -/

/-- **Context switches preserve contexts.** For any number of threads, booting returns, and in every
run from there every task that is resumed has exactly the registers of its latest interruption, or,
the first time, enters its function with its return address and argument on the stack. -/
theorem contextSwitch_preserves (areas : Stacks Task) (hello : U32) (entry : Task → Entry)
    (idleTask : Task) (threads : List Task) (hnodup : (idleTask :: threads).Nodup)
    (hsize : ∀ t ∈ threads, areas.size t = 4096) (sched₀ : Sched Task) (mem₀ : Mem) :
    ∃ sched mem, (boot areas hello entry idleTask threads sched₀ mem₀).Returns (sched, mem) ∧
      ∀ (regs : Regs) (r : List (SwitchEvent × System Task)),
        Along (SwitchStep areas) ⟨⟨regs, mem⟩, sched, fun _ ↦ none⟩ r →
        Along (fun _ e s' ↦ Resumed hello entry e s') ⟨⟨regs, mem⟩, sched, fun _ ↦ none⟩ r := by
  obtain ⟨sched, mem, hboot, -, hinv⟩ :=
    boot_returns areas hello entry idleTask threads hnodup hsize sched₀ mem₀
  refine ⟨sched, mem, hboot, fun regs r hrun ↦ ?_⟩
  have hall := hrun.invariant (SwitchInv areas hello entry (idleTask :: threads))
    (fun s e s' hs hstep ↦ (hstep.inv_resumed hs).1) (hinv regs)
  exact hall.mono fun s e s' ⟨hstep, hs, _⟩ ↦ (hstep.inv_resumed hs).2

/-- The timer can interrupt wherever there is room for it, and the task after the current one is
resumed. -/
theorem exists_timer {areas : Stacks Task} {hello : U32} {entry : Task → Entry} {l : List Task}
    {s : System Task} (hinv : SwitchInv areas hello entry l s) {i : ℕ} (hi : i < l.length)
    (hcur : s.sched.currentTask = some l[i]) (hroom : Room areas l[i] s.machine.esp) :
    ∃ s', SwitchStep areas s .timer s' ∧ s'.sched.currentTask = l[(i + 1) % l.length]? ∧
      s'.latest = Function.update s.latest l[i] (some s.machine.toRegs) := by
  have hqueue' : RunQueue { s.sched with scheduleRequest := 0x10 } l :=
    hinv.queue.congr rfl rfl rfl rfl
  obtain ⟨s₁, hhandler⟩ := Machine.exists_returned ((s.machine.interrupt timerInterrupt 0).push 0)
    (Kept areas l[i] (s.machine.interrupt timerInterrupt 0).esp)
  obtain ⟨s₂, hreturn⟩ := Machine.exists_returned (s₁.push 0)
    (Kept areas l[i] (s.machine.interrupt timerInterrupt 0).esp)
  obtain ⟨t', ht', hstep⟩ := schedulePending_eq hqueue' hi hcur (s₁.push 0).framePtr
  have hrequest : (0x10 : U32) ≠ 0 := by decide
  exact ⟨_, .timer hcur hroom hhandler (.pending hrequest hstep hreturn), ht'.symm, rfl⟩

theorem not_inRegion_both {q : U32} (h : Mem.InRegion 0x10000 4096 q)
    (h' : Mem.InRegion 0x20000 4096 q) : False := by
  rw [Mem.InRegion] at h h'
  bv_omega

/-- Two stacks of a page each. -/
def twoStacks : Stacks Bool where
  base t := bif t then 0x20000 else 0x10000
  size _ := 4096
  size_lt _ := by decide
  disjoint t t' q h h' := by
    cases t with
    | false =>
      cases t' with
      | false => rfl
      | true => exact absurd h' (not_inRegion_both h)
    | true =>
      cases t' with
      | false => exact absurd h (not_inRegion_both h')
      | true => rfl

/-- A boot with one thread beside the idle task. The timer enters the thread at its function, with
its argument on the stack; the thread runs, and the next timer interrupt resumes the idle task with
the registers that it had. -/
theorem contextSwitch_preserves_oneThread :
    ∃ (sched : Sched Bool) (mem : Mem) (s₁ s₂ s₃ : System Bool),
      let regs : Regs := ⟨1, 2, 3, 4, 0x10800, 5, 6, 7, 0x1234, 0x202, 8, 0x10, 0x10, 0x10, 0x10⟩
      (boot twoStacks 0x1000 (fun _ ↦ ⟨0x2000, 7⟩) false [true]
        ⟨fun _ ↦ none, fun _ ↦ none, fun _ ↦ 0, none, none, 0x10⟩ fun _ ↦ 0).Returns (sched, mem) ∧
      Along (SwitchStep twoStacks) ⟨⟨regs, mem⟩, sched, fun _ ↦ none⟩
        [(.timer, s₁), (.run, s₂), (.timer, s₃)] ∧
      s₁.sched.currentTask = some true ∧ s₁.machine.eip = 0x2000 ∧
      s₁.machine.mem.load32 (s₁.machine.esp + 4) = 7 ∧
      s₃.sched.currentTask = some false ∧ s₃.machine.toRegs = regs := by
  let entry : Bool → Entry := fun _ ↦ ⟨0x2000, 7⟩
  let sched₀ : Sched Bool := ⟨fun _ ↦ none, fun _ ↦ none, fun _ ↦ 0, none, none, 0x10⟩
  let regs : Regs := ⟨1, 2, 3, 4, 0x10800, 5, 6, 7, 0x1234, 0x202, 8, 0x10, 0x10, 0x10, 0x10⟩
  have hnodup : (false :: [true]).Nodup := by decide
  obtain ⟨sched, mem, hboot, hrun⟩ := contextSwitch_preserves twoStacks 0x1000 entry false [true]
    hnodup (fun _ _ ↦ rfl) sched₀ fun _ ↦ 0
  obtain ⟨sched', mem', hboot', hcur, hinv⟩ := boot_returns twoStacks 0x1000 entry false [true]
    hnodup (fun _ _ ↦ rfl) sched₀ fun _ ↦ 0
  obtain ⟨rfl, rfl⟩ := Prod.mk.inj (hboot'.unique hboot)
  have hroom : Room twoStacks false regs.esp := by
    rw [Room]
    decide
  have hroom' : Room twoStacks true 0x20F00 := by
    rw [Room]
    decide
  obtain ⟨s₁, hstep₁, hcur₁, hlatest₁⟩ := exists_timer (hinv regs) (i := 0) (by decide) hcur hroom
  obtain ⟨hinv₁, hresumed₁⟩ := hstep₁.inv_resumed (hinv regs)
  let s₂ : System Bool := { s₁ with machine := ⟨{ regs with esp := 0x20F00 }, s₁.machine.mem⟩ }
  have hstep₂ : SwitchStep twoStacks s₁ .run s₂ := .run hcur₁ fun _ _ _ _ ↦ rfl
  obtain ⟨hinv₂, -⟩ := hstep₂.inv_resumed hinv₁
  obtain ⟨s₃, hstep₃, hcur₃, hlatest₃⟩ := exists_timer hinv₂ (i := 1) (by decide) hcur₁ hroom'
  have hsteps : Along (SwitchStep twoStacks) ⟨⟨regs, mem'⟩, sched', fun _ ↦ none⟩
    [(.timer, s₁), (.run, s₂), (.timer, s₃)] := ⟨hstep₁, hstep₂, hstep₃, trivial⟩
  obtain ⟨hentered, -, hresumed, -⟩ := hrun regs _ hsteps
  obtain ⟨heip, -, harg⟩ := hentered.entered hcur₁ (hlatest₁ ▸ rfl)
  refine ⟨sched', mem', s₁, s₂, s₃, hboot, hsteps, hcur₁, heip, harg, hcur₃,
    hresumed.toRegs_eq hcur₃ ?_⟩
  rw [hlatest₃, show s₂.latest = _ from hlatest₁]
  rfl

end Ganoid
