import Mathlib.Data.Nat.Notation
import Mathlib.Tactic.Common

/-!
# First fit over a row of cells

The specification of a first-fit search, away from any search that meets it. A row of cells is a
predicate `busy : ℕ → Bool`; a request for `count` cells below `bound` *fits* at `s` when the cells
`s, …, s + count - 1` are all free and below the bound, and the first fit is the least such `s`.

A search that looks at one candidate at a time sees a *run*: the least free cell from some start on,
and the free cells that follow it, counted up to what it asks for (`RunFrom`). The two lemmas a
client needs read the answer off the run: a full run inside the bound is the first fit
(`RunFrom.isFirstFit`), and a short one that leaves too little room behind it means that nothing
fits (`RunFrom.not_fits`).
-/

namespace FirstFit

variable {busy : ℕ → Bool} {bound lo f i n count s t : ℕ}

/-- The request fits at `s`. -/
def Fits (busy : ℕ → Bool) (bound count s : ℕ) : Prop :=
  s + count ≤ bound ∧ ∀ k, k < count → busy (s + k) = false

/-- The request fits at `s` and nowhere before. -/
def IsFirstFit (busy : ℕ → Bool) (bound count s : ℕ) : Prop :=
  Fits busy bound count s ∧ ∀ t, t < s → ¬ Fits busy bound count t

/-- A request for at least one cell does not fit over a busy cell. -/
theorem not_fits_of_busy (hs : s ≤ t) (ht : t < s + count) (hbusy : busy t = true) :
    ¬ Fits busy bound count s := by
  rintro ⟨-, hfree⟩
  have := hfree (t - s) (by omega)
  rw [show s + (t - s) = t by omega, hbusy] at this
  exact absurd this (by simp)

/-- The first free cell from `lo` on is `f`, and `i` free cells follow it, counting no further than
`n`. -/
structure RunFrom (busy : ℕ → Bool) (bound lo f i n : ℕ) : Prop where
  lo_le : lo ≤ f
  lt : f < bound
  below : ∀ c, lo ≤ c → c < f → busy c = true
  first : busy f = false
  le : i ≤ n
  free : ∀ j, j < i → busy (f + 1 + j) = false
  stopped : i < n → busy (f + 1 + i) = true

namespace RunFrom

/-- Every cell of a run is free. -/
theorem busy_eq_false (h : RunFrom busy bound lo f i n) {k : ℕ} (hk : k ≤ i) :
    busy (f + k) = false := by
  cases k with
  | zero => exact h.first
  | succ k =>
    rw [show f + (k + 1) = f + 1 + k by omega]
    exact h.free k hk

/-- Nothing fits that starts before the run. -/
theorem not_fits_of_lt (h : RunFrom busy bound 0 f i n) (hcount : 0 < count) (ht : t < f) :
    ¬ Fits busy bound count t :=
  not_fits_of_busy (Nat.le_refl t) (by omega) (h.below t (Nat.zero_le t) ht)

/-- A run as long as the request is its first fit, if it stays inside the bound. -/
theorem isFirstFit (h : RunFrom busy bound 0 f n n) (hbound : f + (n + 1) ≤ bound) :
    IsFirstFit busy bound (n + 1) f :=
  ⟨⟨hbound, fun _ hk ↦ h.busy_eq_false (Nat.le_of_lt_succ hk)⟩,
    fun _ ht ↦ h.not_fits_of_lt (Nat.succ_pos n) ht⟩

/-- A run shorter than the request, with too little room behind it, leaves no place for it. -/
theorem not_fits (h : RunFrom busy bound 0 f i n) (hshort : i < n)
    (hend : bound < f + i + 1 + (n + 1)) : ¬ Fits busy bound (n + 1) t := by
  rcases Nat.lt_or_ge t f with hlt | hge
  · exact h.not_fits_of_lt (Nat.succ_pos n) hlt
  · rcases Nat.lt_or_ge (f + 1 + i) t with hlt' | hge'
    · rintro ⟨hle, -⟩
      omega
    · exact not_fits_of_busy hge' (by omega) (h.stopped hshort)

/-- There is only one run from a start. -/
theorem unique {f' i' : ℕ} (h : RunFrom busy bound lo f i n) (h' : RunFrom busy bound lo f' i' n) :
    f = f' ∧ i = i' := by
  have hfirst : f = f' := by
    rcases Nat.lt_trichotomy f f' with hlt | heq | hlt
    · have hbusy := h'.below f h.lo_le hlt
      rw [h.first] at hbusy
      exact absurd hbusy (by simp)
    · exact heq
    · have hbusy := h.below f' h'.lo_le hlt
      rw [h'.first] at hbusy
      exact absurd hbusy (by simp)
  subst hfirst
  refine ⟨rfl, ?_⟩
  have hle := h.le
  have hle' := h'.le
  rcases Nat.lt_trichotomy i i' with hlt | heq | hlt
  · have hstop := h.stopped (by omega)
    rw [h'.free i hlt] at hstop
    exact absurd hstop (by simp)
  · exact heq
  · have hstop := h'.stopped (by omega)
    rw [h.free i' hlt] at hstop
    exact absurd hstop (by simp)

/-- A run from a free cell that is followed by a busy one is that cell alone. -/
theorem eq_of_stopped (h : RunFrom busy bound lo f i n) (hfree : busy lo = false)
    (hstop : busy (lo + 1) = true) : f = lo ∧ i = 0 := by
  have hfirst : f = lo := by
    refine Nat.le_antisymm (Nat.le_of_not_lt fun hlt ↦ ?_) h.lo_le
    have hbusy := h.below lo (Nat.le_refl lo) hlt
    rw [hfree] at hbusy
    exact absurd hbusy (by simp)
  subst hfirst
  refine ⟨rfl, Nat.eq_zero_of_not_pos fun hpos ↦ ?_⟩
  have hnext := h.free 0 hpos
  rw [Nat.add_zero, hstop] at hnext
  exact absurd hnext (by simp)

end RunFrom

/-- The first run is shorter than the request, but there is room for the request from the run's last
cell on. A search that goes on from that cell finds it again. -/
def Stalls (busy : ℕ → Bool) (bound lo count : ℕ) : Prop :=
  ∃ f i, RunFrom busy bound lo f i (count - 1) ∧ i + 1 < count ∧ f + i + count ≤ bound

end FirstFit
