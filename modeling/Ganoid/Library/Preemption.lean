import Mathlib.Data.Nat.Notation
import Mathlib.Logic.Function.Basic
import Mathlib.Logic.Relation

/-!
# Tasks on one processor

Tasks share a processor and what is in its memory. Each task has a context of its own, and the
processor takes steps of the task that is running until an interrupt arrives, which it can only where
the context of that task has interrupts enabled. An interrupt may change what is shared, and with it
which task runs.

Only one task is ever in the middle of something, and it is the running one: the contexts of the
others are as they were when an interrupt arrived. So an invariant speaks of what is shared and of
the context of the running task alone, and it may say anything as long as that context has interrupts
disabled. `KeepsInvariant` states what has to be shown of single steps, and
`KeepsInvariant.of_reaches` carries it over every order in which steps and interrupts can come.

A critical section begins by saving the interrupt flag and clearing it, and ends by restoring it.
Sections may be nested, and then only the end of the outermost one sets the flag
(`FlagsBalanced.iflag_iff`).
-/

universe u v w

open Relation

/-- A processor: which task is running, what its steps are, what an interrupt does, and which
contexts have interrupts enabled. -/
structure Processor (ι : Type u) (ℓ : Type v) (σ : Type w) where
  running : σ → Option ι
  /-- One step of a task, from its context and what is shared. -/
  step : ι → ℓ → σ → ℓ → σ → Prop
  interrupt : σ → σ → Prop
  enabled : ℓ → Prop

/-! ### The interrupt flag -/

/-- The interrupt flag is set where no critical section is open, and of the flags that are saved only
those of the outermost section have it set. -/
def FlagsBalanced : Bool → List Bool → Prop
  | iflag, [] => iflag = true
  | iflag, eflags :: saved => iflag = false ∧ FlagsBalanced eflags saved

theorem FlagsBalanced.iflag_iff {iflag : Bool} {saved : List Bool} (h : FlagsBalanced iflag saved) :
    iflag = true ↔ saved = [] := by
  cases saved with
  | nil => exact ⟨fun _ ↦ rfl, fun _ ↦ h⟩
  | cons eflags saved => simp [h.1]

/-! ### Steps and interrupts -/

namespace Processor

variable {ι : Type u} {ℓ : Type v} {σ : Type w} [DecidableEq ι] (P : Processor ι ℓ σ)

/-- The running task takes a step, or an interrupt arrives. -/
inductive Step : (ι → ℓ) × σ → (ι → ℓ) × σ → Prop
  | task {c : ι → ℓ} {s s' : σ} {i : ι} {l : ℓ} (hrun : P.running s = some i)
      (hstep : P.step i (c i) s l s') : Step (c, s) (Function.update c i l, s')
  | interrupt {c : ι → ℓ} {s s' : σ} (hon : ∀ i, P.running s = some i → P.enabled (c i))
      (hint : P.interrupt s s') : Step (c, s) (c, s')

/-- The property `Out` holds of a task's context after at most so many steps of its own. -/
inductive Gets (i : ι) (Out : ℓ → Prop) : ℕ → ℓ → σ → Prop
  | now {n : ℕ} {l : ℓ} {s : σ} (hout : Out l) : Gets i Out n l s
  | later {n : ℕ} {l l' : ℓ} {s s' : σ} (hstep : P.step i l s l' s') (hgets : Gets i Out n l' s') :
      Gets i Out (n + 1) l s

/-- The invariant `Inv` of the running task and what is shared is kept, where `Rest` is what is known
of the other tasks. -/
structure KeepsInvariant (Inv : ℓ → σ → Prop) (Rest : ℓ → Prop) : Prop where
  step : ∀ {i l s l' s'}, P.running s = some i → Inv l s → P.step i l s l' s' →
    P.running s' = some i ∧ Inv l' s'
  interrupted : ∀ {l s}, Inv l s → P.enabled l → Rest l
  interrupt : ∀ {i l s s'}, P.running s = some i → Inv l s → P.enabled l → P.interrupt s s' →
    ∃ j, P.running s' = some j ∧ ∀ l', Rest l' → Inv l' s'

variable {P} {Inv : ℓ → σ → Prop} {Rest : ℓ → Prop}

omit [DecidableEq ι] in
theorem Gets.mono {i : ι} {Out : ℓ → Prop} {m n : ℕ} {l : ℓ} {s : σ} (h : P.Gets i Out m l s)
    (hle : m ≤ n) : P.Gets i Out n l s := by
  induction h generalizing n with
  | now hout => exact .now hout
  | later hstep _ ih =>
    obtain ⟨k, rfl⟩ : ∃ k, n = k + 1 := ⟨n - 1, by omega⟩
    exact .later hstep (ih (by omega))

/-- A task is running and satisfies the invariant, and the others are at rest. -/
def Holds (P : Processor ι ℓ σ) (Inv : ℓ → σ → Prop) (Rest : ℓ → Prop) (x : (ι → ℓ) × σ) : Prop :=
  ∃ i, P.running x.2 = some i ∧ Inv (x.1 i) x.2 ∧ ∀ j, j ≠ i → Rest (x.1 j)

/-- The step lemma. -/
theorem KeepsInvariant.holds_step (h : P.KeepsInvariant Inv Rest) {x y : (ι → ℓ) × σ}
    (hx : P.Holds Inv Rest x) (hstep : P.Step x y) : P.Holds Inv Rest y := by
  obtain ⟨i, hrun, hinv, hrest⟩ := hx
  cases hstep with
  | @task c s s' j l hrun' hstep =>
    obtain rfl : j = i := Option.some.inj (hrun'.symm.trans hrun)
    obtain ⟨hrun'', hinv'⟩ := h.step hrun hinv hstep
    refine ⟨j, hrun'', ?_, fun k hk ↦ ?_⟩
    · show Inv (Function.update c j l j) s'
      rwa [Function.update_self]
    · show Rest (Function.update c j l k)
      rw [Function.update_of_ne hk]
      exact hrest k hk
  | @interrupt c s s' hon hint =>
    have hrest' : ∀ k, Rest (c k) := by
      intro k
      by_cases hk : k = i
      · rw [hk]
        exact h.interrupted hinv (hon i hrun)
      · exact hrest k hk
    obtain ⟨j, hrun', hinv'⟩ := h.interrupt hrun hinv (hon i hrun) hint
    exact ⟨j, hrun', hinv' _ (hrest' j), fun k _ ↦ hrest' k⟩

/-- **Invariants.** What single steps and interrupts keep holds in every state reached. -/
theorem KeepsInvariant.of_reaches (h : P.KeepsInvariant Inv Rest) {x y : (ι → ℓ) × σ}
    (hx : P.Holds Inv Rest x) (hreach : ReflTransGen P.Step x y) : P.Holds Inv Rest y := by
  induction hreach with
  | refl => exact hx
  | tail _ hstep ih => exact h.holds_step ih hstep

end Processor
