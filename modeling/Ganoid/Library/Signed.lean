import Ganoid.Library.Fuelled

/-!
# Signed words

A word whose sign bit is clear is the same number read signed and unsigned, so comparison, division
and remainder of such words are those of the natural numbers. The hypotheses say this as
`2 * x.toNat < 2 ^ w`.

`forBelow n` is the loop `for (i = 0; i < n; i++)` over signed words. It always ends, and it makes
`n.toInt.toNat` passes, none if `n` is negative (`exists_returns_forBelow`).
-/

open Fuelled

namespace Signed

variable {w : ℕ} {x y : BitVec w}

theorem toNat_toInt (hx : 2 * x.toNat < 2 ^ w) : x.toInt.toNat = x.toNat := by
  rw [BitVec.toInt_eq_toNat_of_lt hx, Int.toNat_natCast]

/-- The sign bit of a number that is not negative is clear. -/
theorem two_mul_toNat_lt (h : 0 ≤ x.toInt) : 2 * x.toNat < 2 ^ w := by
  have hcond := BitVec.toInt_eq_toNat_cond x
  have hlt := x.isLt
  split at hcond
  · assumption
  · have hcast : ((2 ^ w : ℕ) : ℤ) = 2 ^ w := Int.natCast_pow 2 w
    omega

theorem slt_iff (hx : 2 * x.toNat < 2 ^ w) (hy : 2 * y.toNat < 2 ^ w) :
    x.slt y = true ↔ x.toNat < y.toNat := by
  rw [BitVec.slt_iff_toInt_lt, BitVec.toInt_eq_toNat_of_lt hx, BitVec.toInt_eq_toNat_of_lt hy]
  omega

theorem toNat_sdiv (hx : 2 * x.toNat < 2 ^ w) (hy : 2 * y.toNat < 2 ^ w) :
    (x.sdiv y).toNat = x.toNat / y.toNat := by
  rw [BitVec.sdiv_eq, BitVec.msb_eq_false_iff_two_mul_lt.2 hx,
    BitVec.msb_eq_false_iff_two_mul_lt.2 hy]
  exact BitVec.toNat_udiv

theorem toNat_srem (hx : 2 * x.toNat < 2 ^ w) (hy : 2 * y.toNat < 2 ^ w) :
    (x.srem y).toNat = x.toNat % y.toNat := by
  rw [BitVec.srem_eq, BitVec.msb_eq_false_iff_two_mul_lt.2 hx,
    BitVec.msb_eq_false_iff_two_mul_lt.2 hy]
  exact BitVec.toNat_umod

/-! ### The counting loop -/

universe u

variable {σ : Type u}

/-- One pass through the loop `for (i = 0; i < n; i++)`. -/
def forPass (n : BitVec w) (step : σ → BitVec w → Fuelled σ) (t : σ × BitVec w) :
    Fuelled ((σ × BitVec w) ⊕ σ) :=
  if t.2.slt n then do
    let s ← step t.1 t.2
    pure (.inl (s, t.2 + 1))
  else pure (.inr t.1)

/-- The loop `for (i = 0; i < n; i++)`. -/
def forBelow (n : BitVec w) (step : σ → BitVec w → Fuelled σ) (s : σ) : Fuelled σ :=
  loop (forPass n step) (s, 0)

/-- **The counting loop.** It returns when its steps do, and the invariant that each step carries to
the next index holds where the loop ends. -/
theorem exists_returns_forBelow {n : BitVec w} {step : σ → BitVec w → Fuelled σ} (Inv : ℕ → σ → Prop)
    (hstep : ∀ (i : BitVec w) s, i.toNat < n.toInt.toNat → Inv i.toNat s →
      ∃ s', (step s i).Returns s' ∧ Inv (i.toNat + 1) s')
    {s : σ} (hs : Inv 0 s) :
    ∃ s', (forBelow n step s).Returns s' ∧ Inv n.toInt.toNat s' := by
  have hbound : 2 * n.toInt.toNat < 2 ^ w := by
    have hlt := @BitVec.two_mul_toInt_lt w n
    have hcast : ((2 ^ w : ℕ) : ℤ) = 2 ^ w := Int.natCast_pow 2 w
    have hpos : 0 < 2 ^ w := Nat.two_pow_pos w
    omega
  refine exists_returns_of_variant
    (fun t : σ × BitVec w ↦ t.2.toNat ≤ n.toInt.toNat ∧ Inv t.2.toNat t.1) (Inv n.toInt.toNat)
    (fun t ↦ n.toInt.toNat - t.2.toNat) ?_ ⟨by simp, by simpa using hs⟩
  rintro ⟨cur, i⟩ ⟨hle, hinv⟩
  dsimp only at hle hinv ⊢
  have hslt : i.slt n = true ↔ i.toNat < n.toInt.toNat := by
    rw [BitVec.slt_iff_toInt_lt, BitVec.toInt_eq_toNat_of_lt (by omega)]
    omega
  rw [forPass]
  dsimp only
  by_cases hi : i.slt n
  · have hi' := hslt.1 hi
    have hone : (1 : BitVec w).toNat = 1 := Nat.mod_eq_of_lt (show 1 < 2 ^ w by omega)
    have hnext : (i + 1).toNat = i.toNat + 1 := by
      rw [BitVec.toNat_add_of_lt (by omega), hone]
    obtain ⟨s', hret, hinv'⟩ := hstep i cur hi' hinv
    rw [if_pos hi]
    refine Or.inr ⟨_, hret.bind (returns_pure _), ?_⟩
    dsimp only
    rw [hnext]
    exact ⟨⟨hi', hinv'⟩, by omega⟩
  · have hend : i.toNat = n.toInt.toNat := by
      rw [hslt] at hi
      omega
    rw [if_neg hi]
    exact Or.inl ⟨_, returns_pure _, hend ▸ hinv⟩

end Signed
