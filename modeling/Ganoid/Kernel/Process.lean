import Ganoid.Arch.Vectors

/-!
# Creating threads

`kernel/process.c`: `kernel_thread` takes the next element of `task_struct_array`, builds on its
stack the frame from which the thread will first be resumed, and adds it to the run queue.

The array has `CONFIG_MAX_CREATE_THREADS` elements, and `get_free_task_struct` means to assert that
the index it hands out is below that. The macro `_ASSERT` puts a `!` before its argument without
parenthesizing it, so what is compared is the negated index, and the assertion stops the first call
wherever two threads or more are configured (`threadsCreated_iff`).
-/

open Fuelled

namespace Ganoid

/-- `&idle_task_s`, or `&task_struct_array[i]`, which need not lie in the array. -/
inductive TaskPtr
  | idle
  | slot (i : U32)
  deriving DecidableEq

/-- The addresses that the kernel image gives to what `kernel_thread` refers to. -/
structure Image where
  /-- The address of the task's `stack`. -/
  stack : TaskPtr → U32
  /-- The address of `hello`. -/
  hello : U32

/-- The scheduler, the memory that holds the stacks, and the static index of the file. -/
structure Kernel where
  sched : Sched TaskPtr
  mem : Mem
  taskStructArrayIndex : U32

/-- `!v`, as a number. -/
def logicalNot (v : U32) : ℕ :=
  if v = 0 then 1 else 0

/-- `get_free_task_struct`, where `_ASSERT(allocated_index < CONFIG_MAX_CREATE_THREADS, ..)` expands
to `if (!allocated_index < CONFIG_MAX_CREATE_THREADS)` and a loop without end. -/
def getFreeTaskStruct (maxCreateThreads : ℕ) (k : Kernel) : Fuelled (TaskPtr × Kernel) :=
  let allocatedIndex := k.taskStructArrayIndex
  let k := { k with taskStructArrayIndex := k.taskStructArrayIndex + 1 }
  -- the `!` of the macro binds to the index alone
  if logicalNot allocatedIndex < maxCreateThreads then never
  else pure (.slot allocatedIndex, k)

/-- `DEFAULT_STACK_SIZE`. -/
def defaultStackSize : U32 := 4096

/-- The registers that `kernel_thread` writes to the frame of a new thread. -/
def threadRegisters (fn sptr : U32) : IsrRegisters where
  eflags := 0x00200260
  cs := 0x08
  eip := fn
  intNo := 0
  errCode := 0
  eax := 0
  ecx := 0
  edx := 0
  ebx := 0
  esp := sptr
  ebp := 0
  esi := 0
  edi := 0
  ds := 0x10
  es := 0x10
  fs := 0x10
  gs := 0x10

/-- The writes of `kernel_thread` to the new thread's stack, and the address of the frame. -/
def buildFrame (m : Mem) (stack hello fn arg : U32) : U32 × Mem :=
  let sptr := stack + defaultStackSize - 4
  let m := m.store32 sptr arg
  let sptr := sptr - 4
  let m := m.store32 sptr hello
  let i := sptr - BitVec.ofNat 32 IsrRegisters.size
  (i, m.storeWords i (threadRegisters fn sptr).words)

/-- `kernel_thread` from where it has its task structure `t`: build the frame on the stack of `t`,
set its stack pointer and add it to the run queue. -/
def startThread {Task : Type} [DecidableEq Task] (stack : Task → U32) (hello : U32) (t : Task)
    (fn arg : U32) (sched : Sched Task) (mem : Mem) : Fuelled (Sched Task × Mem) := do
  let (i, mem) := buildFrame mem (stack t) hello fn arg
  let sched := { sched with esp := Function.update sched.esp t i }
  let sched ← sched.addTaskToRunQueue t
  pure (sched, mem)

/-- `kernel_thread`: the return value, and the task structure that was used. -/
def kernelThread (image : Image) (maxCreateThreads : ℕ) (fn arg : U32) (k : Kernel) :
    Fuelled ((ℤ × TaskPtr) × Kernel) := do
  let (t, k) ← getFreeTaskStruct maxCreateThreads k
  let (sched, mem) ← startThread image.stack image.hello t fn arg k.sched k.mem
  pure ((0, t), { k with sched, mem })

/-- A call of `kernel_thread` for each function and argument. -/
def createThreads (image : Image) (maxCreateThreads : ℕ) :
    List (U32 × U32) → Kernel → Fuelled (List (ℤ × TaskPtr) × Kernel)
  | [], k => pure ([], k)
  | (fn, arg) :: threads, k => do
    let (result, k) ← kernelThread image maxCreateThreads fn arg k
    let (results, k) ← createThreads image maxCreateThreads threads k
    pure (result :: results, k)

/-! ### The frame of a new thread -/

/-- Where the frame lies on the stack. -/
theorem frame_addr (stack : U32) :
    stack + defaultStackSize - 4 - 4 - BitVec.ofNat 32 IsrRegisters.size = stack + 4020 := by
  rw [defaultStackSize, IsrRegisters.size]
  bv_omega

theorem sptr_addr (stack : U32) :
    stack + defaultStackSize - 4 - 4 = stack + 4020 + BitVec.ofNat 32 (4 * 17) := by
  rw [defaultStackSize]
  bv_omega

/-- **A new thread's frame** restores the context in which its function is entered, with the return
address and the argument on top of the stack. -/
theorem frameAt_buildFrame (m : Mem) (stack hello fn arg : U32) :
    (buildFrame m stack hello fn arg).1 = stack + 4020 ∧
      Mem.WordsAt (buildFrame m stack hello fn arg).2 (stack + 4020 + 68) [hello, arg] ∧
      ∃ c : Regs, FrameAt (buildFrame m stack hello fn arg).2 (stack + 4020) c ∧ c.eip = fn := by
  have hfirst : (buildFrame m stack hello fn arg).1 = stack + 4020 := frame_addr stack
  -- the argument and the return address first, and then the frame below them
  have harg : Mem.WordsAt (m.store32 (stack + defaultStackSize - 4) arg)
      (stack + defaultStackSize - 4) [arg] := ⟨Mem.load32_store32 .., trivial⟩
  have hhello := harg.push (show 4 * 2 ≤ 2 ^ 32 by decide) hello
  generalize hm : (m.store32 (stack + defaultStackSize - 4) arg).store32
    (stack + defaultStackSize - 4 - 4) hello = m₂ at hhello
  have hsecond : (buildFrame m stack hello fn arg).2 =
      m₂.storeWords (stack + 4020)
        (threadRegisters fn (stack + defaultStackSize - 4 - 4)).words := by
    rw [← frame_addr, ← hm]
    rfl
  rw [sptr_addr] at hhello
  have hwords := Mem.WordsAt.storeWords
    (threadRegisters fn (stack + defaultStackSize - 4 - 4)).words hhello
    (show 4 * 19 ≤ 2 ^ 32 by decide)
  rw [← hsecond, Mem.wordsAt_append_iff] at hwords
  exact ⟨hfirst, hwords.2, _, ⟨_, hwords.1, rfl⟩, rfl⟩

/-- Building a frame writes nothing outside the upper end of the stack. -/
theorem buildFrame_of_not_inRegion {m : Mem} {stack hello fn arg q : U32}
    (h : ¬ Mem.InRegion (stack + 4020) 76 q) : (buildFrame m stack hello fn arg).2 q = m q := by
  rw [Mem.InRegion] at h
  have hwords : ¬ (q - (stack + 4020)).toNat < 4 * 17 := by omega
  have hhello : ¬ (q - (stack + 4088)).toNat < 4 := by bv_omega
  have harg : ¬ (q - (stack + 4092)).toNat < 4 := by bv_omega
  have hsptr : stack + defaultStackSize - 4 = stack + 4092 := by
    rw [defaultStackSize]
    bv_omega
  have hsptr' : stack + defaultStackSize - 4 - 4 = stack + 4088 := by
    rw [defaultStackSize]
    bv_omega
  have hframe := @Mem.storeWords_of_not_inRegion
    ((m.store32 (stack + 4092) arg).store32 (stack + 4088) hello) (stack + 4020) q
    (threadRegisters fn (stack + 4088)).words hwords (show 4 * 17 ≤ 2 ^ 32 by decide)
  rw [Mem.store32_of_not_inRegion hhello, Mem.store32_of_not_inRegion harg] at hframe
  rw [← hframe, buildFrame]
  dsimp only
  rw [frame_addr, hsptr', hsptr]

/-- **Starting a thread** puts it at the end of the run queue. -/
theorem startThread_returns {Task : Type} [DecidableEq Task] {sched : Sched Task} {l : List Task}
    {t : Task} (h : RunQueue sched l) (hne : l ≠ []) (hnodup : (l ++ [t]).Nodup)
    (stack : Task → U32) (hello fn arg : U32) (mem : Mem) :
    ∃ sched', (startThread stack hello t fn arg sched mem).Returns
        (sched', (buildFrame mem (stack t) hello fn arg).2) ∧ RunQueue sched' (l ++ [t]) ∧
      sched'.esp = Function.update sched.esp t (stack t + 4020) ∧
      sched'.currentTask = sched.currentTask := by
  have hesp : RunQueue { sched with
      esp := Function.update sched.esp t (buildFrame mem (stack t) hello fn arg).1 } l :=
    h.congr rfl rfl rfl rfl
  obtain ⟨sched', hret, hqueue, hesp', hcur⟩ := addTaskToRunQueue_returns hesp hne hnodup
  rw [(frameAt_buildFrame mem (stack t) hello fn arg).1] at hesp'
  exact ⟨sched', hret.bind (returns_pure _), hqueue, hesp', hcur⟩

/-! ### The assertion -/

/-- What creating threads is meant to do, where `maxCreateThreads` are configured: up to that many
calls return 0, use different elements of the array and put them into the run queue in order, and
the assertion stops the call after those. -/
def ThreadsCreated (maxCreateThreads : ℕ) : Prop :=
  ∀ (image : Image) (s₀ : Sched TaskPtr) (k : Kernel), k.taskStructArrayIndex = 0 →
    (Sched.initSchedular .idle s₀).Returns k.sched →
    ∀ threads : List (U32 × U32), threads.length ≤ maxCreateThreads →
      ∃ results k', (createThreads image maxCreateThreads threads k).Returns (results, k') ∧
        results.length = threads.length ∧ (∀ r ∈ results, r.1 = 0) ∧
        (results.map Prod.snd).Nodup ∧
        (∀ r ∈ results, ∃ i : U32, r.2 = .slot i ∧ i.toNat < maxCreateThreads) ∧
        RunQueue k'.sched (.idle :: results.map Prod.snd) ∧
        (threads.length = maxCreateThreads →
          ∀ r, ¬ (getFreeTaskStruct maxCreateThreads k').Returns r)

/-- The assertion lets a call pass that it should stop, or stops one that it should let pass, unless
one thread is configured. -/
theorem getFreeTaskStruct_returns_iff (maxCreateThreads : ℕ) (k : Kernel) :
    (∃ r, (getFreeTaskStruct maxCreateThreads k).Returns r) ↔
      maxCreateThreads ≤ logicalNot k.taskStructArrayIndex := by
  rw [getFreeTaskStruct]
  split
  · rename_i hlt
    exact ⟨fun ⟨r, hr⟩ ↦ absurd hr not_returns_never, fun hle ↦ absurd hlt (Nat.not_lt.2 hle)⟩
  · rename_i hge
    exact ⟨fun _ ↦ Nat.not_lt.1 hge, fun _ ↦ ⟨_, returns_pure _⟩⟩

/-- With one thread configured, the first call is let pass and the second is stopped. -/
theorem threadsCreated_one : ThreadsCreated 1 := by
  intro image s₀ k hindex hinit threads hlen
  obtain ⟨sched, hinit', hqueue, -⟩ := initSchedular_returns TaskPtr.idle s₀
  obtain rfl := hinit.unique hinit'
  match threads, hlen with
  | [], _ =>
    exact ⟨[], k, returns_pure _, rfl, by simp, by simp, by simp, hqueue,
      fun h ↦ absurd h (by simp)⟩
  | [(fn, arg)], _ =>
    have hfree : (getFreeTaskStruct 1 k).Returns
        (.slot 0, { k with taskStructArrayIndex := 1 }) := by
      rw [getFreeTaskStruct, hindex]
      exact returns_pure _
    have hnodup : ([TaskPtr.idle] ++ [TaskPtr.slot 0]).Nodup := by decide
    obtain ⟨sched', hstart, hqueue', -⟩ := startThread_returns hqueue (List.cons_ne_nil _ _) hnodup
      image.stack image.hello fn arg k.mem
    have hthread : (kernelThread image 1 fn arg k).Returns ((0, .slot 0),
        ⟨sched', (buildFrame k.mem (image.stack (.slot 0)) image.hello fn arg).2, 1⟩) :=
      hfree.bind (hstart.bind (returns_pure _))
    refine ⟨[(0, .slot 0)], _, hthread.bind ((returns_pure _).bind (returns_pure _)), rfl,
      by simp, by simp, fun r hr ↦ ?_, hqueue', fun _ r hr ↦ ?_⟩
    · obtain rfl := List.mem_singleton.1 hr
      exact ⟨0, rfl, Nat.zero_lt_one⟩
    · have hstop : ¬ 1 ≤ logicalNot 1 := by decide
      exact hstop ((getFreeTaskStruct_returns_iff 1 _).1 ⟨r, hr⟩)
  | _ :: _ :: _, hlen => exact absurd hlen (by simp)

/-- The state in which the first thread is created, on an image with all stacks at 0. -/
theorem exists_initialized :
    ∃ (s₀ : Sched TaskPtr) (k : Kernel), k.taskStructArrayIndex = 0 ∧
      (Sched.initSchedular .idle s₀).Returns k.sched := by
  obtain ⟨sched, hinit, -⟩ := initSchedular_returns TaskPtr.idle
    ⟨fun _ ↦ none, fun _ ↦ none, fun _ ↦ 0, none, none, 0x10⟩
  exact ⟨_, ⟨sched, fun _ ↦ 0, 0⟩, rfl, hinit⟩

/-- Without a configured thread, the first call is let pass. -/
theorem not_threadsCreated_zero : ¬ ThreadsCreated 0 := by
  intro h
  obtain ⟨s₀, k, hindex, hinit⟩ := exists_initialized
  obtain ⟨results, k', hret, -, -, -, -, -, hstop⟩ :=
    h ⟨fun _ ↦ 0, 0⟩ s₀ k hindex hinit [] (Nat.le_refl 0)
  obtain ⟨r, hr⟩ := (getFreeTaskStruct_returns_iff 0 k').2 (Nat.zero_le _)
  exact hstop rfl r hr

/-- With two threads or more configured, the first call is stopped. -/
theorem not_threadsCreated_of_two_le {maxCreateThreads : ℕ} (hmax : 2 ≤ maxCreateThreads) :
    ¬ ThreadsCreated maxCreateThreads := by
  intro h
  obtain ⟨s₀, k, hindex, hinit⟩ := exists_initialized
  obtain ⟨results, k', hret, -⟩ :=
    h ⟨fun _ ↦ 0, 0⟩ s₀ k hindex hinit [(0, 0)] (by simp; omega)
  obtain ⟨a, hthread, -⟩ := returns_bind_iff.1 hret
  obtain ⟨b, hfree, -⟩ := returns_bind_iff.1 hthread
  have hle := (getFreeTaskStruct_returns_iff maxCreateThreads k).1 ⟨b, hfree⟩
  rw [hindex] at hle
  exact absurd (hmax.trans hle) (by decide)

/-- **Threads are created as meant exactly where one thread is configured.** -/
theorem threadsCreated_iff (maxCreateThreads : ℕ) :
    ThreadsCreated maxCreateThreads ↔ maxCreateThreads = 1 := by
  constructor
  · intro h
    rcases Nat.lt_or_ge maxCreateThreads 2 with hlt | hge
    · rcases Nat.eq_zero_or_pos maxCreateThreads with rfl | hpos
      · exact absurd h not_threadsCreated_zero
      · omega
    · exact absurd h (not_threadsCreated_of_two_le hge)
  · rintro rfl
    exact threadsCreated_one

/-- With the default of ten threads, not one is created. -/
theorem not_threadsCreated_default : ¬ ∀ maxCreateThreads, ThreadsCreated maxCreateThreads :=
  fun h ↦ not_threadsCreated_of_two_le (show 2 ≤ 10 by decide) (h 10)

end Ganoid
