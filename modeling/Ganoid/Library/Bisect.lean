import Mathlib.Order.Lattice
import Mathlib.Tactic.Common

/-!
# Bisection of a sorted row

A search by bisection keeps a window of indices outside which its target cannot be. `Window` is that
invariant, over the entries of a row that is sorted below a bound; it is narrowed from either side
by one comparison with an entry inside it, and a window of two entries is decided by looking at
both.
-/

namespace Bisect

universe u

variable {α : Type u} {row : ℕ → α} {n lo hi mid : ℕ} {x : α}

/-- Every entry equal to `x` has its index in the window. -/
structure Window (row : ℕ → α) (n : ℕ) (x : α) (lo hi : ℕ) : Prop where
  le : lo ≤ hi
  lt : hi < n
  inside : ∀ i, i < n → row i = x → lo ≤ i ∧ i ≤ hi

namespace Window

/-- The whole row. -/
theorem whole (hn : 0 < n) : Window row n x 0 (n - 1) where
  le := Nat.zero_le _
  lt := by omega
  inside i hi _ := ⟨Nat.zero_le i, by omega⟩

/-- A window of at most two entries, neither of which is the target, leaves no place for it. -/
theorem not_mem (h : Window row n x lo hi) (hpair : hi ≤ lo + 1) (hlo : row lo ≠ x)
    (hhi : row (lo + 1) ≠ x) {i : ℕ} (hi' : i < n) : row i ≠ x := by
  intro heq
  obtain ⟨hle, hge⟩ := h.inside i hi' heq
  rcases Nat.lt_or_eq_of_le hle with hlt | rfl
  · obtain rfl : i = lo + 1 := by omega
    exact hhi heq
  · exact hlo heq

end Window

/-! ### Sorted rows -/

variable [LinearOrder α]

/-- The entries below `n` are strictly increasing. -/
def Sorted (row : ℕ → α) (n : ℕ) : Prop :=
  ∀ i j, i < j → j < n → row i < row j

/-- Entries of a sorted row are ordered as their indices are. -/
theorem Sorted.le (h : Sorted row n) {i j : ℕ} (hij : i ≤ j) (hj : j < n) : row i ≤ row j := by
  rcases Nat.lt_or_eq_of_le hij with hlt | rfl
  · exact le_of_lt (h i j hlt hj)
  · exact le_refl _

/-- No entry occurs twice. -/
theorem Sorted.index_unique (h : Sorted row n) {i j : ℕ} (hi : i < n) (hj : j < n)
    (heq : row i = row j) : i = j := by
  rcases Nat.lt_trichotomy i j with hlt | rfl | hlt
  · exact absurd heq (ne_of_lt (h i j hlt hj))
  · rfl
  · exact absurd heq.symm (ne_of_lt (h j i hlt hi))

namespace Window

/-- An entry below the target raises the lower end. -/
theorem upper (h : Window row n x lo hi) (hs : Sorted row n) (hmid : mid ≤ hi)
    (hlt : row mid < x) : Window row n x mid hi where
  le := hmid
  lt := h.lt
  inside i hi' heq := by
    refine ⟨?_, (h.inside i hi' heq).2⟩
    by_contra hge
    have hle : row i ≤ row mid := hs.le (by omega) (Nat.lt_of_le_of_lt hmid h.lt)
    rw [heq] at hle
    exact absurd hlt (not_lt_of_ge hle)

/-- An entry not below the target lowers the upper end. -/
theorem lower (h : Window row n x lo hi) (hs : Sorted row n) (hlo : lo ≤ mid) (hmid : mid ≤ hi)
    (hge : x ≤ row mid) : Window row n x lo mid where
  le := hlo
  lt := Nat.lt_of_le_of_lt hmid h.lt
  inside i hi' heq := by
    refine ⟨(h.inside i hi' heq).1, ?_⟩
    by_contra hgt
    have hlt : row mid < row i := hs mid i (by omega) hi'
    rw [heq] at hlt
    exact absurd hge (not_le_of_gt hlt)

end Window

end Bisect
