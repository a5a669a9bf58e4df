import Ganoid.Libc.Stdlib

/-!
# What the digit loops compute

Both ways of reading a row of digits give the value of the digits, modulo the size of the result:
`atoi` adds them up from the last one with a growing power of ten, `simple_strtoull` goes from the
first one by Horner's rule, after it has gobbled up the leading zeros.
-/

open Fuelled

namespace Ganoid

/-! ### Digits -/

/-- The value of a character as a digit of any base. -/
def digitVal (c : U8) : ℕ :=
  if ishexchar c then c.toNat - 55 else c.toNat - 48

/-- The value of a row of digits. -/
def digitsValue (base : U32) (ds : List U8) : ℕ :=
  Positional.value base.toNat (ds.map digitVal)

theorem digitsValue_zero_cons (base : U32) (ds : List U8) :
    digitsValue base (0x30 :: ds) = digitsValue base ds := by
  rw [digitsValue, digitsValue, List.map_cons, Positional.value_cons]
  show 0 * _ + _ = _
  rw [Nat.zero_mul, Nat.zero_add]

theorem isdigit_iff {c : U8} : isdigit c = true ↔ 48 ≤ c.toNat ∧ c.toNat ≤ 57 := by
  simp [isdigit, BitVec.le_def]

theorem ishexchar_iff {c : U8} : ishexchar c = true ↔ 65 ≤ c.toNat ∧ c.toNat ≤ 70 := by
  simp [ishexchar, BitVec.le_def]

theorem digitVal_of_isdigit {c : U8} (h : isdigit c = true) : digitVal c = c.toNat - 48 := by
  rw [isdigit_iff] at h
  rw [digitVal, if_neg (by rw [ishexchar_iff]; omega)]

/-- In every base but 16 only decimal digits are digits. -/
theorem isCorrectDigit_iff {c : U8} {base : U32} (hbase : base ≠ 16) (hle : base.toNat ≤ 36) :
    isCorrectDigit c base = true ↔ isdigit c = true ∧ digitVal c < base.toNat := by
  rw [isCorrectDigit, if_neg hbase]
  by_cases hten : base = 10
  · subst hten
    rw [if_pos rfl]
    refine ⟨fun h ↦ ⟨h, ?_⟩, And.left⟩
    rw [digitVal_of_isdigit h]
    rw [isdigit_iff] at h
    show c.toNat - 48 < 10
    omega
  · rw [if_neg hten]
    by_cases htwo : base = 2
    · subst htwo
      rw [if_pos rfl, Bool.or_eq_true, decide_eq_true_iff, decide_eq_true_iff]
      constructor
      · rintro (rfl | rfl) <;> decide
      · rintro ⟨hdigit, hlt⟩
        rw [digitVal_of_isdigit hdigit] at hlt
        rw [isdigit_iff] at hdigit
        have hlt' : c.toNat - 48 < 2 := hlt
        rcases (show c.toNat = 48 ∨ c.toNat = 49 by omega) with h | h
        · exact Or.inl (BitVec.eq_of_toNat_eq h)
        · exact Or.inr (BitVec.eq_of_toNat_eq h)
    · rw [if_neg htwo, Bool.and_eq_true]
      refine and_congr_right fun h ↦ ?_
      rw [digitVal_of_isdigit h]
      rw [isdigit_iff] at h
      have hsub : (c.setWidth 32 - 0x30 : U32).toNat = c.toNat - 48 := by bv_omega
      rw [BitVec.slt_eq_decide, decide_eq_true_iff, BitVec.toInt_eq_toNat_of_lt (by omega),
        BitVec.toInt_eq_toNat_of_lt (by omega), hsub]
      omega

theorem isCorrectDigit_sixteen (c : U8) : isCorrectDigit c 16 = isxdigit c :=
  rfl

/-- The loop of `simple_strtoull` gives a digit its value. -/
theorem digitOf_eq {c : U8} {base : U32} (hle : base.toNat ≤ 36)
    (h : isCorrectDigit c base = true) : digitOf c base = BitVec.ofNat 32 (digitVal c) := by
  have hdigit : isdigit c = true → (c.setWidth 32 - 0x30 : U32) = BitVec.ofNat 32 (digitVal c) :=
    fun hc ↦ by
      rw [digitVal_of_isdigit hc]
      rw [isdigit_iff] at hc
      bv_omega
  rw [digitOf]
  by_cases hbase : base = 16
  · subst hbase
    rw [if_pos rfl]
    by_cases hhex : ishexchar c = true
    · rw [if_pos hhex, digitVal, if_pos hhex]
      rw [ishexchar_iff] at hhex
      bv_omega
    · rw [if_neg hhex]
      rw [isCorrectDigit_sixteen, isxdigit, Bool.or_eq_true] at h
      exact hdigit (h.resolve_right hhex)
  · rw [if_neg hbase]
    exact hdigit ((isCorrectDigit_iff hbase hle).1 h).1

/-- The NUL ends every numeral. -/
theorem isCorrectDigit_nul {base : U32} (hle : base.toNat ≤ 36) : isCorrectDigit 0 base = false := by
  by_cases hbase : base = 16
  · subst hbase
    rfl
  · refine Bool.eq_false_iff.2 fun h ↦ ?_
    exact absurd ((isCorrectDigit_iff hbase hle).1 h).1 (by decide)

theorem isCorrectDigit_zero {base : U32} (hpos : 1 ≤ base.toNat) (hle : base.toNat ≤ 36) :
    isCorrectDigit 0x30 base = true := by
  by_cases hbase : base = 16
  · subst hbase
    rfl
  · exact (isCorrectDigit_iff hbase hle).2 ⟨by decide, hpos⟩

/-! ### Forwards -/

/-- **Horner's rule.** The loop reads the digits up to the first character that is not one. -/
theorem convertDigits_append {base : U32} (hle : base.toNat ≤ 36) {ds tail : List U8}
    (hds : ∀ c ∈ ds, isCorrectDigit c base = true)
    (htail : isCorrectDigit (deref tail) base = false) {mul : U32} {v : ℕ}
    (hmul : v = 0 ∨ mul = base) :
    convertDigits base (ds ++ tail) mul (BitVec.ofNat 64 v) =
      (BitVec.ofNat 64 (v * base.toNat ^ ds.length + digitsValue base ds), tail) := by
  induction ds generalizing mul v with
  | nil =>
    have hend : convertDigits base tail mul (BitVec.ofNat 64 v) = (BitVec.ofNat 64 v, tail) := by
      cases tail with
      | nil => rfl
      | cons c tail => rw [convertDigits, if_neg (by rw [deref_cons] at htail; simp [htail])]
    rw [List.nil_append, hend]
    simp [digitsValue]
  | cons c ds ih =>
    obtain ⟨hc, hds⟩ := List.forall_mem_cons.1 hds
    have hdigit : (digitOf c base).setWidth 64 = BitVec.ofNat 64 (digitVal c) := by
      rw [digitOf_eq hle hc]
      have hlt := c.isLt
      have hval : digitVal c < 256 := by
        rw [digitVal]
        split <;> omega
      apply BitVec.eq_of_toNat_eq
      simp
      omega
    have hstep : BitVec.ofNat 64 v * mul.setWidth 64 + (digitOf c base).setWidth 64 =
        BitVec.ofNat 64 (v * base.toNat + digitVal c) := by
      rw [hdigit, BitVec.ofNat_add, BitVec.ofNat_mul]
      rcases hmul with rfl | rfl
      · simp
      · rw [BitVec.ofNat_toNat]
    rw [List.cons_append, convertDigits, if_pos hc, hstep, ih hds (Or.inr rfl), digitsValue,
      digitsValue, List.map_cons, Positional.value_cons, List.length_map, List.length_cons]
    congr 2
    ring

/-- Leading zeros are gobbled up without changing the value. -/
theorem gobbleZeros_append {base : U32} {ds tail : List U8} (htail : deref tail ≠ 0x30) :
    ∃ ds', gobbleZeros (ds ++ tail) = ds' ++ tail ∧ (∀ c ∈ ds', c ∈ ds) ∧
      digitsValue base ds' = digitsValue base ds := by
  induction ds with
  | nil =>
    refine ⟨[], ?_, fun c hc ↦ hc, rfl⟩
    cases tail with
    | nil => rfl
    | cons c tail => rw [List.nil_append, gobbleZeros, if_neg (by rwa [deref_cons] at htail)]
  | cons c ds ih =>
    rw [List.cons_append, gobbleZeros]
    by_cases hc : c = 0x30
    · obtain ⟨ds', heq, hmem, hval⟩ := ih
      refine ⟨ds', by rw [if_pos hc, heq], fun d hd ↦ List.mem_cons_of_mem c (hmem d hd), ?_⟩
      rw [hval, hc, digitsValue_zero_cons]
    · exact ⟨c :: ds, by rw [if_neg hc]; rfl, fun d hd ↦ hd, rfl⟩

/-- A value with its sign. -/
def signed (neg : Bool) (v : ℕ) : U64 :=
  if neg then -BitVec.ofNat 64 v else BitVec.ofNat 64 v

theorem signed_zero (neg : Bool) : signed neg 0 = 0 := by
  cases neg <;> rfl

/-- **`simple_strtoull` from the number on**, over a row of digits. -/
theorem strtoullNumber_append {base : U32} (hpos : 1 ≤ base.toNat) (hle : base.toNat ≤ 36)
    (negSign : Bool) {ds tail : List U8} (hds : ∀ c ∈ ds, isCorrectDigit c base = true)
    (htail : isCorrectDigit (deref tail) base = false) :
    strtoullNumber negSign base (ds ++ tail) =
      (signed negSign (digitsValue base ds), some tail) := by
  have hzero : deref tail ≠ 0x30 := fun h ↦ by
    rw [h, isCorrectDigit_zero hpos hle] at htail
    exact absurd htail (by simp)
  obtain ⟨ds', heq, hmem, hval⟩ := @gobbleZeros_append base ds tail hzero
  have hconvert : convertDigits base (ds' ++ tail) 1 0 =
      (BitVec.ofNat 64 (0 * base.toNat ^ ds'.length + digitsValue base ds'), tail) :=
    convertDigits_append hle (fun c hc ↦ hds c (hmem c hc)) htail (Or.inl rfl)
  have hneg : ∀ num : U64, ~~~num + 1 = -num := fun num ↦ (BitVec.neg_eq_not_add num).symm
  rw [strtoullNumber, heq]
  dsimp only
  rw [hconvert, Nat.zero_mul, Nat.zero_add, hval, hneg]
  rfl

/-- The bases that `simple_strtoull` accepts. -/
def ValidBase (base : U32) : Prop :=
  base = 0 ∨ 2 ≤ base.toNat ∧ base.toNat ≤ 36

/-- What `simple_strtoull` does behind the blanks and the sign. -/
theorem simpleStrtoull_some {base : U32} (hbase : ValidBase base) (nptr : List U8) :
    simpleStrtoull (some nptr) base =
      if base = 0 then
        strtoullDetect (takeSign (skipSpace nptr)).1 (takeSign (skipSpace nptr)).2
      else strtoullBase (takeSign (skipSpace nptr)).1 base (takeSign (skipSpace nptr)).2 := by
  have hvalid : ¬ ((36 : U32).slt base = true ∨ base.slt 0 = true ∨ base = 1) := by
    have hle : base.toNat ≤ 36 := by
      rcases hbase with rfl | ⟨-, hle⟩
      · decide
      · exact hle
    have hint : base.toInt = base.toNat := BitVec.toInt_eq_toNat_of_lt (by omega)
    have hone : base ≠ 1 := by
      rcases hbase with rfl | ⟨hge, -⟩
      · decide
      · rintro rfl
        exact absurd hge (by decide)
    rw [BitVec.slt_eq_decide, BitVec.slt_eq_decide, decide_eq_true_iff, decide_eq_true_iff, hint]
    rintro (h | h | h)
    · have h' : (36 : ℤ) < base.toNat := h
      omega
    · have h' : (base.toNat : ℤ) < 0 := h
      omega
    · exact hone h
  rw [simpleStrtoull, if_neg hvalid]

/-- A prefix `0x` and a digit select base 16. -/
theorem detectBase_hex {nptr : List U8} (h : isxdigit (deref nptr) = true) :
    detectBase (0x30 :: 0x78 :: nptr) = (16, nptr) := by
  simp [detectBase, h]

/-- What `hex_process` looks at: the string without a prefix `0x`, or without a first 0. -/
def stripHex (nptr : List U8) : List U8 :=
  if deref nptr = 0x30 then
    if deref nptr.tail = 0x78 then nptr.tail.tail else nptr.tail
  else nptr

/-- In base 16 there is a number when a digit follows what is stripped, and otherwise the function
returns at once. -/
theorem strtoullBase_sixteen (negSign : Bool) (nptr : List U8) :
    strtoullBase negSign 16 nptr =
      if isxdigit (deref (stripHex nptr)) then strtoullNumber negSign 16 (stripHex nptr)
      else (0, none) := by
  have hprocess : hexProcess nptr =
      (if isxdigit (deref (stripHex nptr)) then 0 else -1, stripHex nptr) := by
    rw [hexProcess]
    by_cases hnul : deref nptr = 0
    · have hstrip : stripHex nptr = nptr := by rw [stripHex, hnul, if_neg (by decide)]
      rw [if_pos hnul, hstrip, hnul]
      rfl
    · rw [if_neg hnul]
      rfl
  rw [strtoullBase, if_pos rfl, hprocess]
  by_cases hdigit : isxdigit (deref (stripHex nptr)) = true
  · rw [if_pos hdigit, if_pos hdigit]
    rfl
  · rw [if_neg hdigit, if_neg hdigit]
    rfl

/-- A row of hexadecimal digits is read, whether or not its first 0 is taken for the start of a
prefix. -/
theorem strtoullBase_sixteen_append (negSign : Bool) {ds tail : List U8} (hnil : ds ≠ [])
    (hlone : ds ≠ [0x30]) (hds : ∀ c ∈ ds, isxdigit c = true)
    (htail : isxdigit (deref tail) = false) :
    strtoullBase negSign 16 (ds ++ tail) = (signed negSign (digitsValue 16 ds), some tail) := by
  obtain ⟨c, cs, rfl⟩ := List.exists_cons_of_ne_nil hnil
  obtain ⟨hc, hcs⟩ := List.forall_mem_cons.1 hds
  have hnumber : ∀ {row : List U8}, (∀ c ∈ row, isxdigit c = true) →
      strtoullNumber negSign 16 (row ++ tail) = (signed negSign (digitsValue 16 row), some tail) :=
    fun hrow ↦ strtoullNumber_append (by decide) (by decide) negSign hrow htail
  rw [strtoullBase_sixteen]
  by_cases hzero : c = 0x30
  · subst hzero
    have hmore : cs ≠ [] := fun hnil ↦ hlone (by rw [hnil])
    obtain ⟨d, cs, rfl⟩ := List.exists_cons_of_ne_nil hmore
    have hd := hcs d List.mem_cons_self
    have hx : d ≠ 0x78 := fun heq ↦ by
      rw [heq] at hd
      exact absurd hd (by decide)
    have hstrip : stripHex (0x30 :: d :: cs ++ tail) = d :: cs ++ tail := by
      rw [stripHex, List.cons_append, deref_cons, if_pos rfl, List.tail_cons, List.cons_append,
        deref_cons, if_neg hx]
    rw [hstrip, List.cons_append, deref_cons, if_pos hd, ← List.cons_append, hnumber hcs,
      digitsValue_zero_cons]
  · have hstrip : stripHex (c :: cs ++ tail) = c :: cs ++ tail := by
      rw [stripHex, List.cons_append, deref_cons, if_neg hzero]
    rw [hstrip, List.cons_append, deref_cons, if_pos hc, ← List.cons_append, hnumber hds]

/-- A single 0 is given up, unless it starts a prefix. -/
theorem strtoullBase_sixteen_lone (negSign : Bool) {tail : List U8}
    (htail : isxdigit (deref tail) = false)
    (hmark : ¬ (deref tail = 0x78 ∧ isxdigit (deref tail.tail) = true)) :
    strtoullBase negSign 16 (0x30 :: tail) = (0, none) := by
  rw [strtoullBase_sixteen, stripHex, deref_cons, if_pos rfl, List.tail_cons]
  by_cases hx : deref tail = 0x78
  · rw [if_pos hx, if_neg fun hdigit ↦ hmark ⟨hx, hdigit⟩]
  · rw [if_neg hx, htail, if_neg Bool.false_ne_true]

/-- A prefix `0x` with a digit behind it is skipped. -/
theorem strtoullBase_sixteen_marked (negSign : Bool) {nptr : List U8}
    (h : isxdigit (deref nptr) = true) :
    strtoullBase negSign 16 (0x30 :: 0x78 :: nptr) = strtoullNumber negSign 16 nptr := by
  have hstrip : stripHex (0x30 :: 0x78 :: nptr) = nptr := rfl
  rw [strtoullBase_sixteen, hstrip, if_pos h]

/-- In the other bases it goes on at once. -/
theorem strtoullBase_of_ne {base : U32} (hbase : base ≠ 16) (negSign : Bool) (nptr : List U8) :
    strtoullBase negSign base nptr = strtoullNumber negSign base nptr :=
  if_neg hbase

/-! ### Backwards -/

theorem digitRun_append {ds tail : List U8} (hds : ∀ c ∈ ds, isdigit c = true)
    (htail : isdigit (deref tail) = false) : digitRun (ds ++ tail) = ds.length := by
  induction ds with
  | nil =>
    cases tail with
    | nil => rfl
    | cons c tail =>
      rw [deref_cons] at htail
      rw [List.nil_append, digitRun, if_neg (by simp [htail]), List.length_nil]
  | cons c ds ih =>
    obtain ⟨hc, hds⟩ := List.forall_mem_cons.1 hds
    rw [List.cons_append, digitRun, if_pos hc, ih hds, List.length_cons]

/-- The value of a decimal digit, as `atoi` computes it. -/
theorem and_0x0F_eq {c : U8} (h : isdigit c = true) :
    (c &&& 0x0F).setWidth 32 = BitVec.ofNat 32 (digitVal c) := by
  rw [digitVal_of_isdigit h]
  rw [isdigit_iff] at h
  have hmask : (c &&& 0x0F).toNat = c.toNat % 16 := by
    rw [BitVec.toNat_and]
    exact Nat.and_two_pow_sub_one_eq_mod c.toNat 4
  apply BitVec.eq_of_toNat_eq
  rw [BitVec.toNat_setWidth, hmask, BitVec.toNat_ofNat]
  omega

/-- One digit more, with the weight `t`. -/
theorem weigh_take_succ {nptr : List U8} {i : ℕ} (hi : i < nptr.length)
    (hc : isdigit (nptr.getD i 0) = true) (t val : U32) :
    val + t * BitVec.ofNat 32 (digitsValue 10 (nptr.take (i + 1))) =
      val + (nptr.getD i 0 &&& 0x0F).setWidth 32 * t +
        t * 10 * BitVec.ofNat 32 (digitsValue 10 (nptr.take i)) := by
  have htake : nptr.take (i + 1) = nptr.take i ++ [nptr.getD i 0] := by
    rw [List.take_succ_eq_append_getElem hi, List.getD_eq_getElem?_getD,
      List.getElem?_eq_getElem hi, Option.getD_some]
  rw [and_0x0F_eq hc, htake, digitsValue, List.map_append, List.map_singleton,
    Positional.value_concat, BitVec.ofNat_add, BitVec.ofNat_mul]
  show _ = _ + t * 10 * BitVec.ofNat 32 (Positional.value 10 _)
  grind

theorem getD_mem_take {nptr : List U8} {i : ℕ} (hi : i < nptr.length) :
    nptr.getD i 0 ∈ nptr.take (i + 1) := by
  rw [List.take_succ_eq_append_getElem hi, List.getD_eq_getElem?_getD,
    List.getElem?_eq_getElem hi, Option.getD_some]
  exact List.mem_append_right _ List.mem_cons_self

/-- **Adding up from the last digit** gives what Horner's rule gives from the first. -/
theorem atoiSum_returns {nptr : List U8} {i : ℕ} (hi : i ≤ nptr.length)
    (hdigits : ∀ c ∈ nptr.take i, isdigit c = true) (t val : U32) :
    (atoiSum nptr i t val).Returns (val + t * BitVec.ofNat 32 (digitsValue 10 (nptr.take i))) := by
  induction i generalizing t val with
  | zero => exact returns_pure_iff.2 (by simp [digitsValue])
  | succ i ih =>
    have hc : isdigit (nptr.getD i 0) = true := hdigits _ (getD_mem_take hi)
    have hih := ih (Nat.le_of_lt hi)
      (fun c hc ↦ hdigits c (List.take_subset_take_left nptr (Nat.le_succ i) hc)) (t * 10)
      (val + (nptr.getD i 0 &&& 0x0F).setWidth 32 * t)
    rw [weigh_take_succ hi hc, atoiSum, hc]
    exact hih

/-- The row of digits that `atoi` finds behind a sign. -/
theorem atoiSum_digitRun_returns {ds tail : List U8} (hds : ∀ c ∈ ds, isdigit c = true)
    (htail : isdigit (deref tail) = false) :
    (atoiSum (ds ++ tail) (digitRun (ds ++ tail)) 1 0).Returns
      (BitVec.ofNat 32 (digitsValue 10 ds)) := by
  have htake : (ds ++ tail).take ds.length = ds := by simp
  have hsum := @atoiSum_returns (ds ++ tail) ds.length (by simp) (by rwa [htake]) 1 0
  rw [htake] at hsum
  rw [digitRun_append hds htail]
  have hone : (0 : U32) + 1 * BitVec.ofNat 32 (digitsValue 10 ds) =
      BitVec.ofNat 32 (digitsValue 10 ds) := by
    simp
  rwa [hone] at hsum

/-- **`atoi`** of a row of digits. -/
theorem atoi_returns {ds tail : List U8} (hds : ∀ c ∈ ds, isdigit c = true)
    (htail : isdigit (deref tail) = false) (hplus : deref (ds ++ tail) ≠ 0x2B)
    (hminus : deref (ds ++ tail) ≠ 0x2D) :
    (atoi (ds ++ tail)).Returns (BitVec.ofNat 32 (digitsValue 10 ds)) := by
  rw [atoi, takeSign, if_neg hplus, if_neg hminus]
  exact (atoiSum_digitRun_returns hds htail).bind (returns_pure _)

/-- **`atoi`** of a row of digits behind a minus sign. -/
theorem atoi_minus_returns {ds tail : List U8} (hds : ∀ c ∈ ds, isdigit c = true)
    (htail : isdigit (deref tail) = false) :
    (atoi (0x2D :: (ds ++ tail))).Returns (-BitVec.ofNat 32 (digitsValue 10 ds)) := by
  rw [atoi, takeSign, deref_cons, if_neg (by decide), if_pos rfl, List.tail_cons,
    BitVec.neg_eq_not_add]
  exact (atoiSum_digitRun_returns hds htail).bind (returns_pure _)

end Ganoid
