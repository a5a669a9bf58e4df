import Ganoid.Library.PackedBits
import Ganoid.Library.Positional
import Ganoid.Library.Signed
import Ganoid.Types

/-!
# `itoa`

`itoa` of `lib/libc/vsprintf.c` writes the digits of a value from the first to the last, dividing by
powers of the base, between zeros on the left or dots on the right. An `int` and a `long` are words
of 32 bits, which are compared and divided as signed numbers where the source does so, and otherwise
wrap around.

The text is the list of the bytes stored from `str` on, without the final NUL. The array it is
stored to has no end here, so nothing is said about running over one.

The code computes what `itoaText` says wherever the power of the base it starts from is a positive
`long` (`itoa_returns`), as it is in the bases 10 and 16.
-/

open Fuelled

namespace Ganoid

/-- `carray`, with its NUL. -/
def carray : List U8 :=
  [0x30, 0x31, 0x32, 0x33, 0x34, 0x35, 0x36, 0x37, 0x38, 0x39, 0x41, 0x42, 0x43, 0x44, 0x45, 0x46,
    0]

namespace Itoa

/-- The first loop of `itoa`, which counts the digits in `i`. -/
def countDigits (base : U32) : U32 × U32 → Fuelled U32 :=
  loop fun (uvalue, i) ↦
    let uvalue := uvalue / base
    if uvalue ≠ 0 then pure (.inl (uvalue, i + 1)) else pure (.inr i)

/-- The loops of `itoa` that store `fillbytes` bytes, with what is stored so far. -/
def fill (c : U8) : U32 × List U8 → Fuelled (List U8) :=
  loop fun (fillbytes, str) ↦
    if fillbytes ≠ 0 then pure (.inl (fillbytes - 1, str ++ [c])) else pure (.inr str)

/-- The loop of `itoa` that calculates `div`, from `j` and `div`. -/
def divisor (base : U32) : U32 × U32 → Fuelled U32 :=
  loop fun (j, div) ↦ if j ≠ 0 then pure (.inl (j - 1, div * base)) else pure (.inr div)

/-- The loop of `itoa` that stores the digits, from `div`, `abs_value` and what is stored so far. -/
def putDigits (base : U32) : U32 × U32 × List U8 → Fuelled (List U8) :=
  loop fun (div, absValue, str) ↦
    if div ≠ 0 then
      let d := absValue / div
      pure (.inl (div.sdiv base, absValue - d * div, str ++ [carray.getD d.toNat 0]))
    else pure (.inr str)

/-- The number of bytes that the field has left over, and 0 where the digits do not fit. -/
def fillbytes (fieldwidth noOfDigits : U32) : U32 :=
  if (fieldwidth - noOfDigits).slt 0 then 0 else fieldwidth - noOfDigits

end Itoa

open Itoa in
/-- `itoa`. -/
def itoa (value base unsignedvalue fieldwidth : U32) : Fuelled (List U8) := do
  let negative :=
    value &&& 0x80000000 ≠ 0 ∧ base ≠ 16 ∧ base ≠ 2 ∧ unsignedvalue = 0
  let str : List U8 := if negative then [0x2D] else []
  let absValue := if negative then ~~~value + 1 else value
  let noOfDigits ← countDigits base (absValue, 1)
  let str ← (if (0 : U32).slt fieldwidth then fill 0x30 (fillbytes fieldwidth noOfDigits, str)
    else pure str)
  let div ← divisor base (noOfDigits - 1, 1)
  let str ← putDigits base (div, absValue, str)
  if fieldwidth.slt 0 then fill 0x2E (fillbytes (-fieldwidth) noOfDigits, str) else pure str

/-! ### The text -/

/-- Whether `itoa` writes a sign. -/
def IsNegative (value base unsignedvalue : U32) : Prop :=
  value.msb = true ∧ base ≠ 16 ∧ base ≠ 2 ∧ unsignedvalue = 0

instance (value base unsignedvalue : U32) : Decidable (IsNegative value base unsignedvalue) :=
  inferInstanceAs (Decidable (_ ∧ _))

/-- The number whose digits `itoa` writes. -/
def magnitude (value base unsignedvalue : U32) : U32 :=
  if IsNegative value base unsignedvalue then -value else value

/-- The digits that `itoa` writes. -/
def itoaDigits (value base unsignedvalue : U32) : List ℕ :=
  Positional.numeral base.toNat (magnitude value base unsignedvalue).toNat

/-- The character of a digit. -/
def digitChar (d : ℕ) : U8 := carray.getD d 0

/-- The length of a field, less what the digits take of it. -/
def padding (fieldwidth : U32) (ds : List ℕ) : ℕ :=
  fieldwidth.toInt.natAbs - ds.length

/-- The digits in a field: zeros are put before them, or dots behind them where the width is
negative. -/
def pad (fieldwidth : U32) (ds : List ℕ) : List U8 :=
  if 0 < fieldwidth.toInt then
    List.replicate (padding fieldwidth ds) 0x30 ++ ds.map digitChar
  else ds.map digitChar ++ List.replicate (padding fieldwidth ds) 0x2E

/-- The text of a value. -/
def itoaText (value base unsignedvalue fieldwidth : U32) : List U8 :=
  (if IsNegative value base unsignedvalue then [0x2D] else []) ++
    pad fieldwidth (itoaDigits value base unsignedvalue)

namespace Itoa

/-! ### The loops -/

theorem countDigits_returns {base : U32} (hbase : 2 ≤ base.toNat) (uvalue i : U32) :
    (countDigits base (uvalue, i)).Returns (i + BitVec.ofNat 32 (Nat.log base.toNat uvalue.toNat))
    := by
  induction hu : uvalue.toNat using Nat.strongRecOn generalizing uvalue i with
  | _ u ih =>
    subst hu
    have hdiv : (uvalue / base).toNat = uvalue.toNat / base.toNat := BitVec.toNat_udiv
    by_cases hlt : uvalue.toNat < base.toNat
    · have hzero : uvalue / base = 0 := BitVec.eq_of_toNat_eq (hdiv.trans (Nat.div_eq_of_lt hlt))
      refine returns_loop_of_leave ?_
      rw [Nat.log_of_lt hlt]
      dsimp only
      rw [if_neg (not_not_intro hzero)]
      exact returns_pure_iff.2 (congrArg Sum.inr (BitVec.add_zero i).symm)
    · have hge : base.toNat ≤ uvalue.toNat := Nat.le_of_not_lt hlt
      have hpos : 0 < uvalue.toNat / base.toNat := Nat.div_pos hge (by omega)
      have hne : uvalue / base ≠ 0 := fun h ↦ by
        rw [h] at hdiv
        exact absurd hdiv (Nat.ne_of_lt hpos)
      have hless : uvalue.toNat / base.toNat < uvalue.toNat :=
        Nat.div_lt_self (by omega) (by omega)
      refine @returns_loop_of_again _ _ _ _ (uvalue / base, i + 1) _ ?_ ?_
      · dsimp only
        rw [if_pos hne]
        exact returns_pure _
      · have hlog := Nat.log_of_one_lt_of_le (by omega) hge
        have hih := ih _ hless (uvalue / base) (i + 1) hdiv
        rwa [hlog, Nat.add_comm _ 1, BitVec.ofNat_add, ← BitVec.add_assoc]

theorem fill_returns (c : U8) (fillbytes : U32) (str : List U8) :
    (fill c (fillbytes, str)).Returns (str ++ List.replicate fillbytes.toNat c) := by
  induction hn : fillbytes.toNat generalizing fillbytes str with
  | zero =>
    have hzero : fillbytes = 0 := BitVec.eq_of_toNat_eq hn
    refine returns_loop_of_leave ?_
    dsimp only
    rw [if_neg (not_not_intro hzero)]
    exact returns_pure_iff.2 (congrArg Sum.inr (List.append_nil str).symm)
  | succ n ih =>
    have hne : fillbytes ≠ 0 := fun h ↦ by
      rw [h] at hn
      exact absurd hn (by simp)
    refine @returns_loop_of_again _ _ _ _ (fillbytes - 1, str ++ [c]) _ ?_ ?_
    · dsimp only
      rw [if_pos hne]
      exact returns_pure _
    · have hih := ih (fillbytes - 1) (str ++ [c]) (by bv_omega)
      rwa [List.append_assoc, List.singleton_append, ← List.replicate_succ] at hih

theorem divisor_returns (base j : U32) (k : ℕ) :
    (divisor base (j, BitVec.ofNat 32 (base.toNat ^ k))).Returns
      (BitVec.ofNat 32 (base.toNat ^ (k + j.toNat))) := by
  induction hn : j.toNat generalizing j k with
  | zero =>
    have hzero : j = 0 := BitVec.eq_of_toNat_eq hn
    refine returns_loop_of_leave ?_
    dsimp only
    rw [if_neg (not_not_intro hzero)]
    exact returns_pure _
  | succ n ih =>
    have hne : j ≠ 0 := fun h ↦ by
      rw [h] at hn
      exact absurd hn (by simp)
    refine @returns_loop_of_again _ _ _ _ (j - 1, BitVec.ofNat 32 (base.toNat ^ (k + 1))) _ ?_ ?_
    · have hmul : BitVec.ofNat 32 (base.toNat ^ k) * base =
          BitVec.ofNat 32 (base.toNat ^ (k + 1)) := by
        rw [Nat.pow_succ, BitVec.ofNat_mul, BitVec.ofNat_toNat, BitVec.setWidth_eq]
      dsimp only
      rw [if_pos hne, hmul]
      exact returns_pure _
    · have hih := ih (j - 1) (k + 1) (by bv_omega)
      rwa [Nat.add_assoc, Nat.add_comm 1 n] at hih

/-- What is left of a number when the multiples of another one are taken off. -/
theorem toNat_sub_div_mul (x y : U32) : (x - x / y * y).toNat = x.toNat % y.toNat := by
  have hle : x.toNat / y.toNat * y.toNat ≤ x.toNat := Nat.div_mul_le_self _ _
  have hmul : (x / y * y).toNat = x.toNat / y.toNat * y.toNat := by
    rw [BitVec.toNat_mul, BitVec.toNat_udiv]
    omega
  rw [BitVec.toNat_sub_of_le (by rw [BitVec.le_def, hmul]; exact hle), hmul, Nat.mod_eq_sub_div_mul]

/-- The digits are stored from the first to the last. -/
theorem putDigits_returns {base : U32} (hbase : 2 ≤ base.toNat) (hlt : base.toNat < 2 ^ 31)
    {k : ℕ} {div absValue : U32} (hdiv : div.toNat = base.toNat ^ k) (hpow : div.toNat < 2 ^ 31)
    (habs : absValue.toNat < base.toNat ^ (k + 1)) (str : List U8) :
    (putDigits base (div, absValue, str)).Returns
      (str ++ (Positional.lastDigits base.toNat absValue.toNat (k + 1)).map digitChar) := by
  induction k generalizing div absValue str with
  | zero =>
    have hone : div = 1 := BitVec.eq_of_toNat_eq hdiv
    subst hone
    have hrest : (1 : U32).sdiv base = 0 := BitVec.eq_of_toNat_eq <| by
      rw [Signed.toNat_sdiv (by decide) (by omega)]
      exact Nat.div_eq_of_lt hbase
    refine returns_loop_of_again (returns_pure _) (returns_loop_of_leave ?_)
    dsimp only
    rw [hrest]
    exact returns_pure_iff.2 (congrArg Sum.inr (by
      rw [Nat.pow_one] at habs
      simp [Positional.lastDigits, digitChar, Nat.mod_eq_of_lt habs]))
  | succ k ih =>
    have hne : div ≠ 0 := fun h ↦ by
      rw [h] at hdiv
      exact absurd hdiv.symm (Nat.pow_pos (by omega)).ne'
    have hd : (absValue / div).toNat = absValue.toNat / base.toNat ^ (k + 1) := by
      rw [BitVec.toNat_udiv, hdiv]
    have hnext : (div.sdiv base).toNat = base.toNat ^ k := by
      rw [Signed.toNat_sdiv (by omega) (by omega), hdiv, Nat.pow_succ, Nat.mul_div_cancel _ (by omega)]
    have hrest : (absValue - absValue / div * div).toNat =
        absValue.toNat % base.toNat ^ (k + 1) := by
      rw [toNat_sub_div_mul, hdiv]
    refine @returns_loop_of_again _ _ _ _ (div.sdiv base, absValue - absValue / div * div,
      str ++ [carray.getD (absValue / div).toNat 0]) _ ?_ ?_
    · dsimp only
      rw [if_pos hne]
      exact returns_pure _
    · have hpos : 0 < base.toNat ^ (k + 1) := Nat.pow_pos (by omega)
      have hih := @ih (div.sdiv base) (absValue - absValue / div * div) hnext
        (by rw [hnext, ← Nat.mul_lt_mul_right (show 0 < base.toNat by omega), ← Nat.pow_succ, ← hdiv]
            omega)
        (by rw [hrest]; exact Nat.mod_lt _ hpos)
        (str ++ [carray.getD (absValue / div).toNat 0])
      have hdigit : absValue.toNat / base.toNat ^ (k + 1) % base.toNat =
          absValue.toNat / base.toNat ^ (k + 1) := by
        rw [Nat.pow_succ] at habs
        exact Nat.mod_eq_of_lt (Nat.div_lt_of_lt_mul habs)
      rw [hrest, Positional.lastDigits_mod _ _ (Nat.le_refl _), List.append_assoc] at hih
      rw [Positional.lastDigits, hdigit, ← hd]
      exact hih

/-! ### The field -/

theorem toNat_fillbytes {w n : U32} (hw : w.toNat ≤ 2 ^ 31) (hpos : 1 ≤ n.toNat)
    (hle : n.toNat ≤ 32) : (fillbytes w n).toNat = w.toNat - n.toNat := by
  have hslt : (w - n).slt 0 = true ↔ w.toNat < n.toNat := by
    show (w - n).slt 0#32 = true ↔ _
    rw [BitVec.slt_zero_eq_msb, BitVec.msb_eq_decide, decide_eq_true_iff]
    bv_omega
  rw [fillbytes]
  by_cases hlt : w.toNat < n.toNat
  · rw [if_pos (hslt.2 hlt)]
    exact (Nat.sub_eq_zero_of_le (Nat.le_of_lt hlt)).symm
  · rw [if_neg (hlt ∘ hslt.1)]
    bv_omega

/-- What is stored before the digits. -/
theorem zeros_returns (w : U32) {n : U32} (hpos : 1 ≤ n.toNat) (hle : n.toNat ≤ 32)
    (str : List U8) :
    (if (0 : U32).slt w then fill 0x30 (fillbytes w n, str) else pure str).Returns
      (str ++ if 0 < w.toInt then List.replicate (w.toInt.natAbs - n.toNat) 0x30 else []) := by
  have hslt : (0 : U32).slt w = decide (0 < w.toInt) := BitVec.slt_eq_decide
  by_cases hw : 0 < w.toInt
  · have habs : w.toInt.natAbs = w.toNat ∧ w.toNat ≤ 2 ^ 31 := by
      rw [BitVec.toInt_eq_toNat_cond] at hw ⊢
      split at hw <;> omega
    have hfill := fill_returns 0x30 (fillbytes w n) str
    rw [toNat_fillbytes habs.2 hpos hle] at hfill
    rwa [hslt, decide_eq_true hw, if_pos rfl, if_pos hw, habs.1]
  · rw [hslt, decide_eq_false hw, if_neg Bool.false_ne_true, if_neg hw]
    exact returns_pure_iff.2 (List.append_nil str).symm

/-- What is stored behind the digits. -/
theorem dots_returns (w : U32) {n : U32} (hpos : 1 ≤ n.toNat) (hle : n.toNat ≤ 32)
    (str : List U8) :
    (if w.slt 0 then fill 0x2E (fillbytes (-w) n, str) else pure str).Returns
      (str ++ if 0 < w.toInt then [] else List.replicate (w.toInt.natAbs - n.toNat) 0x2E) := by
  have hslt : w.slt 0 = decide (w.toInt < 0) := BitVec.slt_eq_decide
  rcases Int.lt_trichotomy w.toInt 0 with hw | hw | hw
  · have habs : w.toInt.natAbs = (-w).toNat ∧ (-w).toNat ≤ 2 ^ 31 := by
      rw [BitVec.toNat_neg]
      rw [BitVec.toInt_eq_toNat_cond] at hw ⊢
      split at hw <;> omega
    have hfill := fill_returns 0x2E (fillbytes (-w) n) str
    rw [toNat_fillbytes habs.2 hpos hle] at hfill
    rwa [hslt, decide_eq_true hw, if_pos rfl, if_neg (by omega), habs.1]
  · rw [hslt, decide_eq_false (by omega), if_neg Bool.false_ne_true, hw]
    exact returns_pure_iff.2 (by simp)
  · rw [hslt, decide_eq_false (by omega), if_neg Bool.false_ne_true, if_pos hw]
    exact returns_pure_iff.2 (List.append_nil str).symm

end Itoa

theorem isNegative_iff {value base unsignedvalue : U32} :
    (value &&& 0x80000000 ≠ 0 ∧ base ≠ 16 ∧ base ≠ 2 ∧ unsignedvalue = 0) ↔
      IsNegative value base unsignedvalue := by
  have hmask : (0x80000000 : U32) = BitVec.twoPow 32 31 := by decide
  have hmsb : value &&& 0x80000000 ≠ 0 ↔ value.msb = true := by
    rw [hmask, BitVec.msb_eq_getLsbD_last, ← Bool.not_eq_false, not_iff_not]
    exact PackedBits.and_mask_eq_zero_iff (by decide)
  rw [IsNegative, hmsb]

/-- A row of digits in a field whose width allows for other digits, those that were counted. -/
def field (fieldwidth : U32) (counted : List ℕ) (row : List U8) : List U8 :=
  if 0 < fieldwidth.toInt then List.replicate (padding fieldwidth counted) 0x30 ++ row
  else row ++ List.replicate (padding fieldwidth counted) 0x2E

theorem pad_eq_field (fieldwidth : U32) (ds : List ℕ) :
    pad fieldwidth ds = field fieldwidth ds (ds.map digitChar) :=
  rfl

open Itoa in
/-- `itoa` writes the row that its loop over the digits does, with the sign before it and in its
field. -/
theorem itoa_returns_of_putDigits {value base unsignedvalue : U32} (hbase : 2 ≤ base.toNat)
    {row : List U8} (hput : ∀ str, (putDigits base
      (BitVec.ofNat 32 (base.toNat ^ Nat.log base.toNat (magnitude value base unsignedvalue).toNat),
        magnitude value base unsignedvalue, str)).Returns (str ++ row))
    (fieldwidth : U32) : (itoa value base unsignedvalue fieldwidth).Returns
      ((if IsNegative value base unsignedvalue then [0x2D] else []) ++
        field fieldwidth (itoaDigits value base unsignedvalue) row) := by
  have habs : (if IsNegative value base unsignedvalue then ~~~value + 1 else value) =
      magnitude value base unsignedvalue := by
    rw [magnitude, BitVec.neg_eq_not_add]
    rfl
  rw [itoa, itoaDigits]
  simp only [isNegative_iff, habs]
  generalize magnitude value base unsignedvalue = mag at hput
  generalize (if IsNegative value base unsignedvalue then [(0x2D : U8)] else []) = sign
  have hlog : Nat.log base.toNat mag.toNat < 32 :=
    Nat.log_lt_of_lt_pow' (by decide) (Nat.lt_of_lt_of_le mag.isLt (Nat.pow_le_pow_left hbase 32))
  have hcount := countDigits_returns hbase mag 1
  generalize hn : (1 : U32) + BitVec.ofNat 32 (Nat.log base.toNat mag.toNat) = n at hcount
  have hn' : n.toNat = Nat.log base.toNat mag.toNat + 1 := by bv_omega
  have hdiv := divisor_returns base (n - 1) 0
  rw [Nat.pow_zero, Nat.zero_add, show (n - 1).toNat = Nat.log base.toNat mag.toNat by bv_omega]
    at hdiv
  have htext : sign ++ field fieldwidth (Positional.numeral base.toNat mag.toNat) row =
      ((sign ++ if 0 < fieldwidth.toInt then
          List.replicate (fieldwidth.toInt.natAbs - n.toNat) 0x30 else []) ++ row) ++
      if 0 < fieldwidth.toInt then []
        else List.replicate (fieldwidth.toInt.natAbs - n.toNat) 0x2E := by
    rw [field, padding, Positional.length_numeral, hn']
    split <;> simp
  rw [htext]
  have hpos : 1 ≤ n.toNat := by omega
  have hle : n.toNat ≤ 32 := by omega
  exact hcount.bind ((zeros_returns fieldwidth hpos hle sign).bind
    (hdiv.bind ((hput _).bind (dots_returns fieldwidth hpos hle _))))

/-- **`itoa` writes the text of its value**, provided the power of the base that it starts from is a
positive `long`. -/
theorem itoa_returns {value base unsignedvalue : U32} (hbase : 2 ≤ base.toNat)
    (hle : base.toNat ≤ 16)
    (hpow : base.toNat ^ Nat.log base.toNat (magnitude value base unsignedvalue).toNat < 2 ^ 31)
    (fieldwidth : U32) : (itoa value base unsignedvalue fieldwidth).Returns
      (itoaText value base unsignedvalue fieldwidth) := by
  refine itoa_returns_of_putDigits hbase (fun str ↦ ?_) fieldwidth
  refine Itoa.putDigits_returns hbase (by omega) ?_ ?_
    (Nat.lt_pow_succ_log_self (show 1 < base.toNat by omega) _) str <;>
  · rw [BitVec.toNat_ofNat]
    omega

theorem itoa_ten_returns (value unsignedvalue fieldwidth : U32) :
    (itoa value 10 unsignedvalue fieldwidth).Returns (itoaText value 10 unsignedvalue fieldwidth)
    := by
  refine itoa_returns (by decide) (by decide) ?_ fieldwidth
  have hlog := Nat.log_lt_of_lt_pow' (b := 10) (x := 10) (by decide)
    (Nat.lt_trans (magnitude value 10 unsignedvalue).isLt (by decide))
  exact Nat.lt_of_le_of_lt (Nat.pow_le_pow_right (by decide) (Nat.le_of_lt_succ hlog)) (by decide)

theorem itoa_sixteen_returns (value unsignedvalue fieldwidth : U32) :
    (itoa value 16 unsignedvalue fieldwidth).Returns (itoaText value 16 unsignedvalue fieldwidth)
    := by
  refine itoa_returns (by decide) (by decide) ?_ fieldwidth
  have hlog := Nat.log_lt_of_lt_pow' (b := 16) (x := 8) (by decide)
    (magnitude value 16 unsignedvalue).isLt
  exact Nat.lt_of_le_of_lt (Nat.pow_le_pow_right (by decide) (Nat.le_of_lt_succ hlog)) (by decide)

/-- No sign is written for an unsigned value, nor in base 16. -/
theorem not_isNegative_of_unsigned {value base unsignedvalue : U32} (h : unsignedvalue ≠ 0) :
    ¬ IsNegative value base unsignedvalue :=
  fun hneg ↦ h hneg.2.2.2

end Ganoid
