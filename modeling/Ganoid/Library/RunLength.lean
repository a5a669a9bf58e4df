import Mathlib.Data.Nat.Notation
import Mathlib.Tactic.Common

/-!
# Runs of equal entries

A row is cut into runs, each a range of indices over which it has one value. `Runs row n lo hi rs`
says that the runs `rs`, taken in order, make up the indices from `lo` to below `hi`, and that a run
is as long as it can be in a row of `n` entries: it ends at `n` or where the value changes. A loop
along the row adds one run after the other (`Runs.concat`).
-/

namespace RunLength

universe u

variable {α : Type u}

/-- The indices from `lo` to below `hi`, and their value. -/
@[ext]
structure Run (α : Type u) where
  lo : ℕ
  hi : ℕ
  val : α

/-- The runs of a row of `n` entries from `lo` to below `hi`, in order. -/
def Runs (row : ℕ → α) (n : ℕ) : ℕ → ℕ → List (Run α) → Prop
  | lo, hi, [] => lo = hi
  | lo, hi, r :: rs => r.lo = lo ∧ lo < r.hi ∧ (∀ c, lo ≤ c → c < r.hi → row c = r.val) ∧
      (r.hi = n ∨ row r.hi ≠ r.val) ∧ Runs row n r.hi hi rs

variable {row : ℕ → α} {n lo hi : ℕ} {rs : List (Run α)}

/-- **One run more.** -/
theorem Runs.concat (h : Runs row n lo hi rs) {hi' : ℕ} {v : α} (hlt : hi < hi')
    (hval : ∀ c, hi ≤ c → c < hi' → row c = v) (hend : hi' = n ∨ row hi' ≠ v) :
    Runs row n lo hi' (rs ++ [⟨hi, hi', v⟩]) := by
  induction rs generalizing lo with
  | nil =>
    obtain rfl : lo = hi := h
    exact ⟨rfl, hlt, hval, hend, rfl⟩
  | cons r rs ih =>
    obtain ⟨hlo, hpos, hsame, hstop, hrest⟩ := h
    exact ⟨hlo, hpos, hsame, hstop, ih hrest⟩

/-- The runs say where they end. -/
theorem Runs.end_unique {n' hi' : ℕ} (h : Runs row n lo hi rs) (h' : Runs row n' lo hi' rs) :
    hi = hi' := by
  induction rs generalizing lo with
  | nil => exact Eq.trans (Eq.symm h) h'
  | cons r rs ih =>
    obtain ⟨-, -, -, -, hrest⟩ := h
    obtain ⟨-, -, -, -, hrest'⟩ := h'
    exact ih hrest hrest'

end RunLength
