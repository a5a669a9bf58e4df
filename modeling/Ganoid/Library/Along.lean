import Mathlib.Data.Nat.Notation
import Mathlib.Tactic.Common

/-!
# Runs of a labelled transition system

A run from a state is the list of the labels taken, each with the state it led to. `Along P s r`
says that the relation `P` holds of every step of the run `r` from `s`; with the step relation of a
system for `P` it says that `r` *is* a run of that system, and with anything else it is a property
of all of its steps. One recursion therefore serves both, and one rule carries an invariant over a
run: `Along.invariant`, which hands back, for every step, the step itself and the invariant on both
sides of it. Everything else about a run follows by `Along.mono`.

`Along.invariant` asks that every step keep the invariant. `AlongHistory` is for properties of a
label that depend on the labels before it.
-/

universe u v

variable {σ : Type u} {ι : Type v}

/-- The relation `P` holds of every step of a run: of its state, its label and the next state. -/
def Along (P : σ → ι → σ → Prop) : σ → List (ι × σ) → Prop
  | _, [] => True
  | s, (i, s') :: r => P s i s' ∧ Along P s' r

@[simp]
theorem along_nil (P : σ → ι → σ → Prop) (s : σ) : Along P s [] :=
  trivial

@[simp]
theorem along_cons_iff {P : σ → ι → σ → Prop} {s s' : σ} {i : ι} {r : List (ι × σ)} :
    Along P s ((i, s') :: r) ↔ P s i s' ∧ Along P s' r :=
  Iff.rfl

/-- The state a run ends in. -/
def finish : σ → List (ι × σ) → σ
  | s, [] => s
  | _, (_, s') :: r => finish s' r

@[simp]
theorem finish_nil (s : σ) : finish s ([] : List (ι × σ)) = s :=
  rfl

@[simp]
theorem finish_cons (s s' : σ) (i : ι) (r : List (ι × σ)) : finish s ((i, s') :: r) = finish s' r :=
  rfl

namespace Along

variable {P Q : σ → ι → σ → Prop} {s : σ} {r : List (ι × σ)}

/-- A weaker relation holds along the same run. -/
theorem mono (hPQ : ∀ s i s', P s i s' → Q s i s') (h : Along P s r) : Along Q s r := by
  induction r generalizing s with
  | nil => trivial
  | cons step r ih =>
    obtain ⟨i, s'⟩ := step
    exact ⟨hPQ s i s' h.1, ih h.2⟩

/-- **Invariants.** What every step keeps holds on both sides of every step. -/
theorem invariant (Inv : σ → Prop) (hstep : ∀ s i s', Inv s → P s i s' → Inv s') (hs : Inv s)
    (h : Along P s r) : Along (fun s i s' ↦ P s i s' ∧ Inv s ∧ Inv s') s r := by
  induction r generalizing s with
  | nil => trivial
  | cons step r ih =>
    obtain ⟨i, s'⟩ := step
    have hs' : Inv s' := hstep s i s' hs h.1
    exact ⟨⟨h.1, hs, hs'⟩, ih hs' h.2⟩

/-- What every step keeps holds of the state a run ends in. -/
theorem finish_of_invariant (Inv : σ → Prop) (hstep : ∀ s i s', Inv s → P s i s' → Inv s')
    (hs : Inv s) (h : Along P s r) : Inv (finish s r) := by
  induction r generalizing s with
  | nil => exact hs
  | cons step r ih =>
    obtain ⟨i, s'⟩ := step
    exact ih (hstep s i s' hs h.1) h.2

end Along

/-- A property of the labels holds along a run exactly when it holds of each of them. -/
theorem along_label_iff {P : ι → Prop} {s : σ} {r : List (ι × σ)} :
    Along (fun _ i _ ↦ P i) s r ↔ ∀ x ∈ r, P x.1 := by
  induction r generalizing s with
  | nil => simp
  | cons step r ih =>
    obtain ⟨i, s'⟩ := step
    rw [along_cons_iff, ih, List.forall_mem_cons]

/-- A run goes on with one more step. -/
theorem along_concat_iff {P : σ → ι → σ → Prop} {s s' : σ} {i : ι} {r : List (ι × σ)} :
    Along P s (r ++ [(i, s')]) ↔ Along P s r ∧ P (finish s r) i s' := by
  induction r generalizing s with
  | nil => simp
  | cons step r ih =>
    obtain ⟨j, t⟩ := step
    rw [List.cons_append, along_cons_iff, along_cons_iff, ih, and_assoc, finish_cons]

theorem finish_concat (s s' : σ) (i : ι) (r : List (ι × σ)) : finish s (r ++ [(i, s')]) = s' := by
  induction r generalizing s with
  | nil => rfl
  | cons step r ih => exact ih step.2

/-- `P` holds of every label and of the labels before it, which are given latest first. -/
def AlongHistory (P : List ι → ι → Prop) : List ι → List ι → Prop
  | _, [] => True
  | past, i :: is => P past i ∧ AlongHistory P (i :: past) is

theorem AlongHistory.mono {P Q : List ι → ι → Prop} (hPQ : ∀ past i, P past i → Q past i)
    {past is : List ι} (h : AlongHistory P past is) : AlongHistory Q past is := by
  induction is generalizing past with
  | nil => trivial
  | cons i is ih => exact ⟨hPQ past i h.1, ih h.2⟩
