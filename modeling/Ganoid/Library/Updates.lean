import Mathlib.Logic.Function.Basic
import Mathlib.Tactic.Common

/-!
# Tables filled by a sequence of writes

A table is a function, and a write replaces its value at one index. After any sequence of writes a
table holds at each index what was written there last, or what it held before where nothing was
written (`foldl_update_apply`). `lastWrite` is that value, and the lemmas below compute it. Where
the writes come one from each pass of a counting loop, `fold_invariant` follows the loop instead.
-/

namespace Updates

variable {ι α : Type*} [DecidableEq ι]

/-- The value that was written last at an index, if any was. -/
def lastWrite : List (ι × α) → ι → Option α
  | [], _ => none
  | (j, a) :: writes, i => (lastWrite writes i).or (if j = i then some a else none)

/-- **A table holds what was written last.** -/
theorem foldl_update_apply (writes : List (ι × α)) (f : ι → α) (i : ι) :
    writes.foldl (fun f w ↦ Function.update f w.1 w.2) f i = (lastWrite writes i).getD (f i) := by
  induction writes generalizing f with
  | nil => rfl
  | cons w writes ih =>
    obtain ⟨j, a⟩ := w
    rw [List.foldl_cons, ih, lastWrite]
    rcases lastWrite writes i with - | b
    · rcases eq_or_ne i j with rfl | hne
      · simp
      · simp [Function.update_of_ne hne, hne.symm]
    · rfl

/-- Nothing was written at an index that no write names. -/
theorem lastWrite_eq_none {writes : List (ι × α)} {i : ι} (h : ∀ w ∈ writes, w.1 ≠ i) :
    lastWrite writes i = none := by
  induction writes with
  | nil => rfl
  | cons w writes ih =>
    obtain ⟨hw, hwrites⟩ := List.forall_mem_cons.1 h
    rw [lastWrite, ih hwrites, if_neg hw]
    rfl

/-- Where all writes at an index agree, the last one is any of them. -/
theorem lastWrite_eq_some {writes : List (ι × α)} {i : ι} {a : α} (hmem : (i, a) ∈ writes)
    (h : ∀ w ∈ writes, w.1 = i → w.2 = a) : lastWrite writes i = some a := by
  induction writes with
  | nil => simp at hmem
  | cons w writes ih =>
    obtain ⟨hw, hwrites⟩ := List.forall_mem_cons.1 h
    rw [lastWrite]
    by_cases hlater : ∃ w' ∈ writes, w'.1 = i
    · obtain ⟨w', hw', rfl⟩ := hlater
      have ha : w'.2 = a := hwrites w' hw' rfl
      rw [ih (ha ▸ hw') hwrites]
      rfl
    · -- no later write is at `i`, so the one we know of is the first
      have hnone : lastWrite writes i = none :=
        lastWrite_eq_none fun w' hw' heq ↦ hlater ⟨w', hw', heq⟩
      have hfirst : (i, a) = w := by
        rcases List.mem_cons.1 hmem with hfirst | hrest
        · exact hfirst
        · exact absurd ⟨_, hrest, rfl⟩ hlater
      rw [hnone, ← hfirst, if_pos rfl]
      rfl

/-- One write more. -/
theorem lastWrite_concat (writes : List (ι × α)) (w : ι × α) (i : ι) :
    lastWrite (writes ++ [w]) i = if w.1 = i then some w.2 else lastWrite writes i := by
  induction writes with
  | nil => rfl
  | cons w' writes ih =>
    rw [List.cons_append, lastWrite, ih, lastWrite]
    split_ifs <;> rfl

/-- A loop that counts from 0 up to `n` has at its end what each pass carries one further. -/
theorem fold_invariant {σ : Type*} (Inv : ℕ → σ → Prop) {n : ℕ} {f : ∀ i, i < n → σ → σ} {s : σ}
    (hs : Inv 0 s) (hstep : ∀ i (hi : i < n) s, Inv i s → Inv (i + 1) (f i hi s)) :
    Inv n (n.fold f s) := by
  induction n with
  | zero => exact hs
  | succ n ih =>
    rw [Nat.fold_succ]
    exact hstep n n.lt_succ_self _ (ih fun i hi s h ↦ hstep i (Nat.lt_succ_of_lt hi) s h)

end Updates
