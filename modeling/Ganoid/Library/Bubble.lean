import Mathlib.Data.List.Nodup
import Mathlib.Logic.Equiv.Basic
import Mathlib.Order.Lattice
import Mathlib.Tactic.Common

/-!
# Bubble sort on a row

A row is a function on indices of which the entries below `n` matter, and entries are compared by a
key. `step key r j` is one comparison of neighbours, at `j` and `j + 1`.

`Settled key n i r` says that the last `i` entries are in place: none before them, or among them and
before it, is larger. A pass compares at `0, 1, …, n - 2`. Up to the first settled entry it carries
the largest entry seen along (`Passing`), and behind that it swaps nothing, so a pass settles one
entry more (`Passing.settled_succ`) although it always goes to the end. After `n - 1` passes
everything is in order (`Settled.le`).
-/

namespace Bubble

universe u v

variable {α : Type u} {β : Type v} [LinearOrder β] {key : α → β} {n i j : ℕ} {r r' : ℕ → α}

/-- Compare two neighbours, and swap them if they are in the wrong order. -/
def step (key : α → β) (r : ℕ → α) (j : ℕ) : ℕ → α :=
  if key (r (j + 1)) < key (r j) then r ∘ Equiv.swap j (j + 1) else r

/-- The last `i` of `n` entries are in place. -/
def Settled (key : α → β) (n i : ℕ) (r : ℕ → α) : Prop :=
  ∀ a b, a < b → b < n → n ≤ b + i → key (r a) ≤ key (r b)

/-- A pass has made `j` comparisons: the entry it has come to, or the one before the settled ones if
it has passed that, is the largest so far. -/
structure Passing (key : α → β) (n i j : ℕ) (r : ℕ → α) : Prop where
  settled : Settled key n i r
  largest : ∀ a, a < min j (n - 1 - i) → key (r a) ≤ key (r (min j (n - 1 - i)))

/-! ### The entries stay the same -/

theorem perm_map_swap (hj : j + 1 < n) (r : ℕ → α) :
    ((List.range n).map (r ∘ Equiv.swap j (j + 1))).Perm ((List.range n).map r) := by
  rw [← List.map_map]
  refine List.Perm.map r ((List.perm_ext_iff_of_nodup ?_ List.nodup_range).2 fun a ↦ ?_)
  · exact List.nodup_range.map (Equiv.injective _)
  · rw [List.mem_map, List.mem_range]
    have hlt : ∀ b, b < n → Equiv.swap j (j + 1) b < n := fun b hb ↦ by
      rw [Equiv.swap_apply_def]
      split_ifs <;> omega
    constructor
    · rintro ⟨b, hb, rfl⟩
      exact hlt b (List.mem_range.1 hb)
    · intro ha
      exact ⟨Equiv.swap j (j + 1) a, List.mem_range.2 (hlt a ha), Equiv.swap_apply_self _ _ a⟩

theorem perm_step (hj : j + 1 < n) (r : ℕ → α) :
    ((List.range n).map (step key r j)).Perm ((List.range n).map r) := by
  rw [step]
  split
  · exact perm_map_swap hj r
  · exact List.Perm.refl _

/-! ### The order -/

theorem settled_zero (r : ℕ → α) : Settled key n 0 r := fun a b _ hb hle ↦ by omega

/-- Only the entries below `n` matter. -/
theorem Passing.congr (h : Passing key n i j r) (hr : ∀ a, a < n → r' a = r a) (hj : j < n) :
    Passing key n i j r' where
  settled a b hab hb hle := by
    rw [hr a (by omega), hr b hb]
    exact h.settled a b hab hb hle
  largest a ha := by
    rw [hr a (by omega), hr _ (by omega)]
    exact h.largest a ha

/-- A pass begins. -/
theorem Settled.passing (h : Settled key n i r) : Passing key n i 0 r where
  settled := h
  largest a ha := by omega

/-- **One comparison** of a pass. -/
theorem Passing.step (h : Passing key n i j r) (hj : j + 1 < n) :
    Passing key n i (j + 1) (step key r j) := by
  rw [Bubble.step]
  by_cases hswap : key (r (j + 1)) < key (r j)
  · rw [if_pos hswap]
    -- the larger entry is not settled, so neither are the two compared
    have hlt : j + 1 + i < n := by
      by_contra hge
      exact absurd (h.settled j (j + 1) (Nat.lt_succ_self j) hj (by omega)) (not_le_of_gt hswap)
    have hmin : min j (n - 1 - i) = j := by omega
    have hmin' : min (j + 1) (n - 1 - i) = j + 1 := by omega
    have hlargest := h.largest
    rw [hmin] at hlargest
    refine ⟨fun a b hab hb hle ↦ ?_, fun a ha ↦ ?_⟩
    · have hb' : Equiv.swap j (j + 1) b = b := Equiv.swap_apply_of_ne_of_ne (by omega) (by omega)
      rw [Function.comp_apply, Function.comp_apply, hb']
      refine h.settled _ b ?_ hb hle
      rw [Equiv.swap_apply_def]
      split_ifs <;> omega
    · rw [hmin'] at ha ⊢
      rw [Function.comp_apply, Function.comp_apply, Equiv.swap_apply_right]
      rcases Nat.lt_succ_iff_lt_or_eq.1 ha with hlt' | rfl
      · rw [Equiv.swap_apply_of_ne_of_ne (by omega) (by omega)]
        exact hlargest a hlt'
      · rw [Equiv.swap_apply_left]
        exact le_of_lt hswap
  · rw [if_neg hswap]
    refine ⟨h.settled, fun a ha ↦ ?_⟩
    rcases Nat.lt_or_ge j (n - 1 - i) with hlt | hge
    · have hmin : min j (n - 1 - i) = j := by omega
      have hmin' : min (j + 1) (n - 1 - i) = j + 1 := by omega
      have hlargest := h.largest
      rw [hmin] at hlargest
      rw [hmin'] at ha ⊢
      rcases Nat.lt_succ_iff_lt_or_eq.1 ha with hlt' | rfl
      · exact (hlargest a hlt').trans (le_of_not_gt hswap)
      · exact le_of_not_gt hswap
    · have hmin : min j (n - 1 - i) = min (j + 1) (n - 1 - i) := by omega
      rw [← hmin] at ha ⊢
      exact h.largest a ha

/-- **A whole pass** settles one more entry. -/
theorem Passing.settled_succ (h : Passing key n i (n - 1) r) : Settled key n (i + 1) r := by
  intro a b hab hb hle
  rcases Nat.lt_or_ge (b + i) n with hlt | hge
  · -- the entry that the pass has carried to its place
    have hmin : min (n - 1) (n - 1 - i) = b := by omega
    have hlargest := h.largest a
    rw [hmin] at hlargest
    exact hlargest hab
  · exact h.settled a b hab hb hge

/-- After all passes the row is sorted. -/
theorem Settled.le (h : Settled key n (n - 1) r) {a b : ℕ} (hab : a ≤ b) (hb : b < n) :
    key (r a) ≤ key (r b) := by
  rcases Nat.lt_or_eq_of_le hab with hlt | rfl
  · exact h a b hlt hb (by omega)
  · exact le_refl _

end Bubble
