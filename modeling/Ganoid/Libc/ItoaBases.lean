import Ganoid.Libc.RoundTrip

/-!
# `itoa` in every base

The power of the base that `itoa` starts from is held in a `long`, while the value is `unsigned`. A
power from 2^31 on is a negative number there. The first digit still comes out, and it is 1; but the
loop goes on to divide a negative number by the base, which as an `unsigned` is larger than whatever
is left of the value, so that all further digits are zeros, until the division ends at 0 from below.

Where the power is that large the text is therefore wrong (`itoa_returns_overflow`), except for 2^31
itself, whose binary digits really are a 1 and zeros. In the bases 4, 5, 7, 8, 10, 12, 13, 14 and 16
no power that fits a word is as large; in the others the largest magnitudes go wrong.
-/

open Fuelled

namespace Ganoid

namespace Itoa

/-- Signed division of a negative number by a positive one. -/
theorem toNat_neg_sdiv {a b : U32} (ha : 2 ^ 31 ≤ a.toNat) (hb : b.toNat < 2 ^ 31) :
    (-(a.sdiv b)).toNat = (-a).toNat / b.toNat := by
  have hamsb : a.msb = true := by
    rw [BitVec.msb_eq_decide]
    exact decide_eq_true (by omega)
  have hbmsb : b.msb = false := by
    rw [BitVec.msb_eq_decide]
    exact decide_eq_false (by omega)
  rw [BitVec.sdiv_eq, hamsb, hbmsb, BitVec.neg_neg]
  exact BitVec.toNat_udiv

/-- A negative divisor, as an `unsigned`, is larger than what is left of the value, and the ones
after it are larger still: their digits are zeros. -/
theorem putDigits_negative {base div absValue : U32} (hbase : 2 ≤ base.toNat)
    (hlt : base.toNat < 2 ^ 31) (hdiv : 2 ^ 31 ≤ div.toNat) (habs : absValue.toNat < div.toNat)
    (str : List U8) : (putDigits base (div.sdiv base, absValue, str)).Returns
      (str ++ List.replicate (Nat.log base.toNat (-div).toNat) 0x30) := by
  -- by induction on the distance of the divisor from 0, which each pass divides by the base
  induction hq : (-div).toNat using Nat.strongRecOn generalizing div str with
  | _ q ih =>
    subst hq
    have hnext := toNat_neg_sdiv hdiv hlt
    rcases Nat.lt_or_ge (-div).toNat base.toNat with hsmall | hge
    · have hzero : div.sdiv base = 0 := by
        rw [Nat.div_eq_of_lt hsmall] at hnext
        exact BitVec.neg_eq_zero_iff.1 (BitVec.eq_of_toNat_eq hnext)
      rw [hzero, Nat.log_of_lt hsmall]
      refine returns_loop_of_leave ?_
      dsimp only
      rw [if_neg (not_not_intro rfl)]
      exact returns_pure_iff.2 (congrArg Sum.inr (List.append_nil str).symm)
    · have hqpos : 0 < (-div).toNat / base.toNat := Nat.div_pos hge (by omega)
      have hqlt : (-div).toNat / base.toNat < (-div).toNat :=
        Nat.div_lt_self (by omega) (by omega)
      rw [Nat.log_of_one_lt_of_le (by omega) hge, ← hnext]
      generalize div.sdiv base = div' at hnext
      have hdiv' : div.toNat < div'.toNat := by bv_omega
      have hne : div' ≠ 0 := fun h ↦ by
        rw [h] at hdiv'
        exact Nat.not_lt_zero _ hdiv'
      have hdigit : absValue / div' = 0 := BitVec.eq_of_toNat_eq <| by
        rw [BitVec.toNat_udiv]
        exact Nat.div_eq_of_lt (Nat.lt_trans habs hdiv')
      have hih := ih _ (hnext ▸ hqlt) (Nat.le_trans hdiv (Nat.le_of_lt hdiv'))
        (Nat.lt_trans habs hdiv') (str ++ [0x30]) rfl
      rw [List.append_assoc, List.singleton_append, ← List.replicate_succ] at hih
      refine returns_loop_of_again ?_ hih
      dsimp only
      rw [if_pos hne, hdigit]
      exact returns_pure_iff.2 (by simp [carray])

/-- A first divisor from 2^31 on goes once into the value, and the further digits are zeros. -/
theorem putDigits_overflow {base div absValue : U32} (hbase : 2 ≤ base.toNat)
    (hlt : base.toNat < 2 ^ 31) (hdiv : 2 ^ 31 ≤ div.toNat) (habs : div.toNat ≤ absValue.toNat)
    (str : List U8) : (putDigits base (div, absValue, str)).Returns
      (str ++ 0x31 :: List.replicate (Nat.log base.toNat (-div).toNat) 0x30) := by
  have hne : div ≠ 0 := fun h ↦ by
    rw [h] at hdiv
    exact absurd hdiv (by decide)
  have hdigit : absValue / div = 1#32 := BitVec.eq_of_toNat_eq <| by
    rw [BitVec.toNat_udiv]
    exact Nat.div_eq_of_lt_le (by simpa using habs) (by simp; omega)
  have hrest : (absValue - div).toNat < div.toNat := by bv_omega
  rw [← List.singleton_append, ← List.append_assoc]
  refine returns_loop_of_again ?_ (putDigits_negative hbase hlt hdiv hrest _)
  dsimp only
  rw [if_pos hne, hdigit, BitVec.one_mul]
  exact returns_pure _

end Itoa

/-- A power of the base that is found to be large is not larger than the number. -/
theorem pow_log_le {b n : ℕ} (h : 2 ^ 31 ≤ b ^ Nat.log b n) : b ^ Nat.log b n ≤ n := by
  refine Nat.pow_log_le_self _ fun hzero ↦ ?_
  rw [hzero, Nat.log_zero_right, Nat.pow_zero] at h
  exact absurd h (by decide)

/-- What `itoa` writes where its first divisor does not fit a `long`. -/
theorem itoa_returns_overflow {value base unsignedvalue : U32} (hbase : 2 ≤ base.toNat)
    (hle : base.toNat ≤ 16) {p : ℕ}
    (hp : p = base.toNat ^ Nat.log base.toNat (magnitude value base unsignedvalue).toNat)
    (hpow : 2 ^ 31 ≤ p) (fieldwidth : U32) : (itoa value base unsignedvalue fieldwidth).Returns
      ((if IsNegative value base unsignedvalue then [0x2D] else []) ++
        field fieldwidth (itoaDigits value base unsignedvalue)
          (0x31 :: List.replicate (Nat.log base.toNat (2 ^ 32 - p)) 0x30)) := by
  have hmag := (magnitude value base unsignedvalue).isLt
  have hple := hp ▸ pow_log_le (hp ▸ hpow)
  have hval : (BitVec.ofNat 32 p : U32).toNat = p := by
    rw [BitVec.toNat_ofNat]
    omega
  have hneg : (-(BitVec.ofNat 32 p) : U32).toNat = 2 ^ 32 - p := by
    rw [BitVec.toNat_neg, hval]
    omega
  refine itoa_returns_of_putDigits hbase (fun str ↦ ?_) fieldwidth
  have hput := Itoa.putDigits_overflow hbase (by omega) (hval.symm ▸ hpow)
    (hval.symm ▸ hple) str
  rw [hneg] at hput
  rw [← hp]
  exact hput

/-- A field shows what row is in it. -/
theorem field_injective {fieldwidth : U32} {counted : List ℕ} {row row' : List U8}
    (h : field fieldwidth counted row = field fieldwidth counted row') : row = row' := by
  rw [field, field] at h
  split at h
  · exact List.append_cancel_left h
  · exact List.append_cancel_right h

/-- The characters of a 1 and zeros are those of a power of the base. -/
theorem one_zeros_eq_iff {value base unsignedvalue : U32} (hbase : 2 ≤ base.toNat)
    (hle : base.toNat ≤ 16) (k : ℕ) :
    0x31 :: List.replicate k 0x30 = (itoaDigits value base unsignedvalue).map digitChar ↔
      (magnitude value base unsignedvalue).toNat = base.toNat ^ k := by
  have hrow : (0x31 : U8) :: List.replicate k 0x30 = (1 :: List.replicate k 0).map digitChar := by
    rw [List.map_cons, List.map_replicate]
    rfl
  have hlt : ∀ d ∈ itoaDigits value base unsignedvalue, d < 16 := fun d hd ↦
    Nat.lt_of_lt_of_le (Positional.lt_of_mem_numeral (by omega) hd) hle
  rw [← Positional.numeral_eq_one_zeros_iff (by omega), ← itoaDigits]
  constructor
  · intro h
    rw [← map_digitVal_digitChar hlt, ← h, List.map_cons, List.map_replicate]
    rfl
  · intro h
    rw [h, hrow]

/-- A number in which the largest power of the base is 2^31 or more has as many digits as the
complement of that power, and is a power itself, only if it is 2^31. -/
theorem eq_pow_log_complement_iff {b n : ℕ} (hb : 2 ≤ b) (hn : n < 2 ^ 32)
    (hpow : 2 ^ 31 ≤ b ^ Nat.log b n) :
    n = b ^ Nat.log b (2 ^ 32 - b ^ Nat.log b n) ↔ n = 2 ^ 31 := by
  have hle := pow_log_le hpow
  constructor
  · intro h
    have hpower : b ^ Nat.log b n = n := by
      conv_lhs => rw [h, Nat.log_pow (by omega)]
      exact h.symm
    rw [hpower] at h hpow
    have hcomplement : n ≤ 2 ^ 32 - n := by
      conv_lhs => rw [h]
      exact Nat.pow_log_le_self b (by omega)
    omega
  · rintro rfl
    have hpower : b ^ Nat.log b (2 ^ 31) = 2 ^ 31 := Nat.le_antisymm hle hpow
    have hhalf : 2 ^ 32 - 2 ^ 31 = 2 ^ 31 := by decide
    rw [hpower, hhalf, hpower]

/-- **`itoa` in every base it has digits for** writes the text of its value exactly when the power
of the base that it starts from is a positive `long`, or the magnitude is 2^31. -/
theorem itoa_returns_itoaText_iff {value base unsignedvalue : U32} (hbase : 2 ≤ base.toNat)
    (hle : base.toNat ≤ 16) (fieldwidth : U32) :
    (itoa value base unsignedvalue fieldwidth).Returns
        (itoaText value base unsignedvalue fieldwidth) ↔
      base.toNat ^ Nat.log base.toNat (magnitude value base unsignedvalue).toNat < 2 ^ 31 ∨
        (magnitude value base unsignedvalue).toNat = 2 ^ 31 := by
  rcases Nat.lt_or_ge (base.toNat ^ Nat.log base.toNat (magnitude value base unsignedvalue).toNat)
    (2 ^ 31) with hsmall | hlarge
  · exact iff_of_true (itoa_returns hbase hle hsmall fieldwidth) (Or.inl hsmall)
  · have hover := itoa_returns_overflow hbase hle rfl hlarge fieldwidth
    rw [or_iff_right (Nat.not_lt.2 hlarge),
      ← eq_pow_log_complement_iff hbase (magnitude value base unsignedvalue).isLt hlarge,
      ← one_zeros_eq_iff hbase hle, itoaText, pad_eq_field]
    constructor
    · exact fun h ↦ field_injective (List.append_cancel_left (hover.unique h))
    · exact fun h ↦ h ▸ hover

/-- The condition holds in base 2 up to 2^31. -/
theorem itoa_returns_itoaText_iff_half :
    (itoa 0x80000000 2 1 0).Returns (itoaText 0x80000000 2 1 0) :=
  (itoa_returns_itoaText_iff (by decide) (by decide) 0).2 (Or.inr (by decide))

/-- The largest `unsigned` is not written in base 2: a 1 and 31 zeros come out for its 32 ones. -/
theorem not_itoa_returns_itoaText_ones :
    (itoa 0xFFFFFFFF 2 1 0).Returns (0x31 :: List.replicate 31 0x30) ∧
      ¬ (itoa 0xFFFFFFFF 2 1 0).Returns (itoaText 0xFFFFFFFF 2 1 0) := by
  have hret : (itoa 0xFFFFFFFF 2 1 0).Returns (0x31 :: List.replicate 31 0x30) := ⟨40, rfl⟩
  exact ⟨hret, fun h ↦ absurd (hret.unique h) (by decide)⟩

end Ganoid
