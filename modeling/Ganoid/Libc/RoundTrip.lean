import Ganoid.Libc.Digits
import Ganoid.Libc.Itoa

/-!
# Integers survive being written and read

What `itoa` writes is a row of digits, between a sign and some dots. Zeros that pad it on the left
belong to the row and do not change its value; a dot, like the NUL, is not a digit, and ends it for
every reader. So the readers see the digits of the value, and read it back.

In base 16 there is one way not to reach the digits: `hex_process` takes the first of them for the
start of a prefix `0x` and looks at the next. It gives up when there is none, which happens to the
text of 0 only, and then the answer is 0 all the same.
-/

open Fuelled

namespace Ganoid

/-! ### The row of digits -/

theorem digitVal_digitChar {d : ℕ} (hd : d < 16) : digitVal (digitChar d) = d := by
  have h : ∀ d : Fin 16, digitVal (digitChar d) = d := by decide
  exact h ⟨d, hd⟩

theorem isdigit_digitChar {d : ℕ} (hd : d < 10) : isdigit (digitChar d) = true := by
  have h : ∀ d : Fin 10, isdigit (digitChar d) = true := by decide
  exact h ⟨d, hd⟩

theorem isxdigit_digitChar {d : ℕ} (hd : d < 16) : isxdigit (digitChar d) = true := by
  have h : ∀ d : Fin 16, isxdigit (digitChar d) = true := by decide
  exact h ⟨d, hd⟩

/-- The characters of digits tell what digits they are. -/
theorem map_digitVal_digitChar {ds : List ℕ} (hds : ∀ d ∈ ds, d < 16) :
    (ds.map digitChar).map digitVal = ds := by
  rw [List.map_map]
  exact (List.map_congr_left fun d hd ↦ digitVal_digitChar (hds d hd)).trans ds.map_id

/-- `tail` starts with a dot, or with nothing. -/
def DotsOnly (tail : List U8) : Prop :=
  ∃ k, tail = List.replicate k 0x2E

theorem DotsOnly.deref_eq {tail : List U8} (h : DotsOnly tail) :
    deref tail = 0 ∨ deref tail = 0x2E := by
  obtain ⟨k, rfl⟩ := h
  cases k with
  | zero => exact Or.inl rfl
  | succ k => exact Or.inr rfl

/-- A row of digits and what ends it. -/
structure DigitRow (base : U32) (n : ℕ) (text row tail : List U8) : Prop where
  text_eq : text = row ++ tail
  ne_nil : row ≠ []
  isxdigit : ∀ c ∈ row, isxdigit c = true
  value : digitsValue base row = n
  tail : DotsOnly tail

/-- The characters of a padded numeral. -/
theorem mem_row {k : ℕ} {ds : List ℕ} {c : U8}
    (hc : c ∈ List.replicate k (0x30 : U8) ++ ds.map digitChar) : ∃ d ∈ 0 :: ds, c = digitChar d := by
  rcases List.mem_append.1 hc with hc | hc
  · exact ⟨0, List.mem_cons_self, List.eq_of_mem_replicate hc⟩
  · obtain ⟨d, hd, rfl⟩ := List.mem_map.1 hc
    exact ⟨d, List.mem_cons_of_mem 0 hd, rfl⟩

/-- The value of a padded numeral. -/
theorem digitsValue_row {base : U32} {ds : List ℕ} (hds : ∀ d ∈ ds, d < 16) (k : ℕ) :
    digitsValue base (List.replicate k (0x30 : U8) ++ ds.map digitChar) =
      Positional.value base.toNat ds := by
  have hzero : digitVal 0x30 = 0 := rfl
  rw [digitsValue, List.map_append, List.map_replicate, hzero, map_digitVal_digitChar hds,
    Positional.value_zeros_append]

/-- **What `itoa` writes behind the sign** is a row of digits, whatever the width. -/
theorem pad_numeral_row {base : U32} (hbase : 1 < base.toNat) (hle : base.toNat ≤ 16)
    (fieldwidth : U32) (n : ℕ) : ∃ row tail,
      DigitRow base n (pad fieldwidth (Positional.numeral base.toNat n)) row tail ∧
        ∀ c ∈ row, ∃ d < base.toNat, c = digitChar d := by
  have hlt : ∀ d ∈ Positional.numeral base.toNat n, d < base.toNat := fun d hd ↦
    Positional.lt_of_mem_numeral (by omega) hd
  obtain ⟨k, j, htext⟩ : ∃ k j, pad fieldwidth (Positional.numeral base.toNat n) =
      (List.replicate k 0x30 ++ (Positional.numeral base.toNat n).map digitChar) ++
        List.replicate j 0x2E := by
    rw [pad]
    split
    · exact ⟨_, 0, (List.append_nil _).symm⟩
    · exact ⟨0, _, rfl⟩
  have hchars : ∀ c ∈ List.replicate k 0x30 ++ (Positional.numeral base.toNat n).map digitChar,
      ∃ d < base.toNat, c = digitChar d := fun c hc ↦ by
    obtain ⟨d, hd, rfl⟩ := mem_row hc
    rcases List.mem_cons.1 hd with rfl | hd
    · exact ⟨0, by omega, rfl⟩
    · exact ⟨d, hlt d hd, rfl⟩
  refine ⟨_, _, ⟨htext, fun hnil ↦ ?_, fun c hc ↦ ?_, ?_, j, rfl⟩, hchars⟩
  · have hlen := congrArg List.length hnil
    rw [List.length_append, List.length_map, Positional.length_numeral] at hlen
    exact absurd hlen (by simp)
  · obtain ⟨d, hd, rfl⟩ := hchars c hc
    exact isxdigit_digitChar (by omega)
  · rw [digitsValue_row fun d hd ↦ Nat.lt_of_lt_of_le (hlt d hd) hle]
    exact Positional.value_numeral hbase n

/-! ### Base 10 -/

/-- `atoi` reads a signed value back. -/
theorem atoi_itoaText (v w : U32) : (atoi (itoaText v 10 0 w)).Returns v := by
  obtain ⟨row, tail, hrow, hchars⟩ := @pad_numeral_row 10 (by decide) (by decide) w
    (magnitude v 10 0).toNat
  have hdigits : ∀ c ∈ row, isdigit c = true := fun c hc ↦ by
    obtain ⟨d, hd, rfl⟩ := hchars c hc
    exact isdigit_digitChar hd
  have htail : isdigit (deref tail) = false := by
    rcases hrow.tail.deref_eq with h | h <;> rw [h] <;> rfl
  have hval : BitVec.ofNat 32 (digitsValue 10 row) = magnitude v 10 0 := by
    rw [hrow.value, BitVec.ofNat_toNat, BitVec.setWidth_eq]
  rw [itoaText, itoaDigits, hrow.text_eq]
  by_cases hneg : IsNegative v 10 0
  · have hminus := atoi_minus_returns hdigits htail
    rw [hval, magnitude, if_pos hneg, BitVec.neg_neg] at hminus
    rwa [if_pos hneg]
  · have hhead : isdigit (deref (row ++ tail)) = true := by
      obtain ⟨c, cs, hcons⟩ := List.exists_cons_of_ne_nil hrow.ne_nil
      rw [hcons]
      exact hdigits c (by rw [hcons]; exact List.mem_cons_self)
    have hplus := atoi_returns hdigits htail (fun h ↦ by rw [h] at hhead; exact absurd hhead (by decide))
      fun h ↦ by rw [h] at hhead; exact absurd hhead (by decide)
    rw [hval, magnitude, if_neg hneg] at hplus
    rwa [if_neg hneg, List.nil_append]

/-! ### `simple_strtoul` -/

/-- There is nothing to skip before a digit. -/
theorem takeSign_skipSpace {s : List U8} (h : isxdigit (deref s) = true) :
    takeSign (skipSpace s) = (false, s) := by
  have hne : ∀ d : U8, isxdigit d = false → deref s ≠ d := fun d hd heq ↦ by
    rw [heq, hd] at h
    exact absurd h (by simp)
  cases s with
  | nil => exact absurd h (by decide)
  | cons c s =>
    have hspace : isspace c = false := decide_eq_false (hne 0x20 rfl)
    rw [skipSpace, hspace, if_neg Bool.false_ne_true, takeSign, if_neg (hne 0x2B rfl),
      if_neg (hne 0x2D rfl)]

namespace DigitRow

variable {base : U32} {n : ℕ} {text row tail : List U8}

theorem isxdigit_deref (h : DigitRow base n text row tail) : Ganoid.isxdigit (deref text) = true :=
  by
  obtain ⟨c, cs, rfl⟩ := List.exists_cons_of_ne_nil h.ne_nil
  rw [h.text_eq]
  exact h.isxdigit c List.mem_cons_self

/-- The row ends where `simple_strtoull` stops to read. -/
theorem not_isCorrectDigit_tail (h : DigitRow base n text row tail) (hle : base.toNat ≤ 36) :
    isCorrectDigit (deref tail) base = false := by
  rcases h.tail.deref_eq with htail | htail
  · rw [htail]
    exact isCorrectDigit_nul hle
  · rw [htail]
    by_cases hbase : base = 16
    · rw [hbase]
      rfl
    · exact Bool.eq_false_iff.2 fun hc ↦ absurd ((isCorrectDigit_iff hbase hle).1 hc).1 (by decide)

theorem strtoullNumber_eq (h : DigitRow base n text row tail) (hpos : 1 ≤ base.toNat)
    (hle : base.toNat ≤ 36) (hrow : ∀ c ∈ row, isCorrectDigit c base = true) :
    (strtoullNumber false base text).1 = BitVec.ofNat 64 n := by
  have hnumber := strtoullNumber_append hpos hle false hrow (h.not_isCorrectDigit_tail hle)
  rw [h.text_eq, hnumber, h.value]
  rfl

/-- A row of hexadecimal digits is read, whatever `hex_process` makes of its first digits. -/
theorem strtoullBase_sixteen_eq (h : DigitRow 16 n text row tail) :
    (strtoullBase false 16 text).1 = BitVec.ofNat 64 n := by
  have htail : Ganoid.isxdigit (deref tail) = false := h.not_isCorrectDigit_tail (by decide)
  rw [h.text_eq, ← h.value]
  by_cases hlone : row = [0x30]
  · subst hlone
    have hmark : ¬ (deref tail = 0x78 ∧ Ganoid.isxdigit (deref tail.tail) = true) := by
      rintro ⟨hx, -⟩
      rcases h.tail.deref_eq with heq | heq
      · exact absurd (heq.symm.trans hx) (by decide)
      · exact absurd (heq.symm.trans hx) (by decide)
    rw [List.singleton_append, strtoullBase_sixteen_lone false htail hmark]
    rfl
  · rw [strtoullBase_sixteen_append false h.ne_nil hlone h.isxdigit htail]
    rfl

/-- The same with `0x` before it. -/
theorem strtoullBase_prefix_eq (h : DigitRow 16 n text row tail) :
    (strtoullBase false 16 (0x30 :: 0x78 :: text)).1 = BitVec.ofNat 64 n := by
  rw [strtoullBase_sixteen_marked false h.isxdigit_deref]
  exact h.strtoullNumber_eq (by decide) (by decide) h.isxdigit

end DigitRow

theorem setWidth_ofNat_toNat (v : U32) : (BitVec.ofNat 64 v.toNat).setWidth 32 = v := by
  apply BitVec.eq_of_toNat_eq
  simp

/-- The text of an unsigned value. -/
theorem itoaText_unsigned (v base w : U32) :
    itoaText v base 1 w = pad w (Positional.numeral base.toNat v.toNat) := by
  have hneg : ¬ IsNegative v base 1 := not_isNegative_of_unsigned (by decide)
  rw [itoaText, if_neg hneg, itoaDigits, magnitude, if_neg hneg, List.nil_append]

theorem simpleStrtoul_itoaText_ten (v w : U32) :
    (simpleStrtoul (some (itoaText v 10 1 w)) 10).1 = v := by
  obtain ⟨row, tail, hrow, hchars⟩ := @pad_numeral_row 10 (by decide) (by decide) w v.toNat
  have hnumber := hrow.strtoullNumber_eq (by decide) (by decide) fun c hc ↦ by
    obtain ⟨d, hd, rfl⟩ := hchars c hc
    exact isdigit_digitChar hd
  rw [simpleStrtoul, itoaText_unsigned, simpleStrtoull_some (Or.inr (by decide)),
    takeSign_skipSpace hrow.isxdigit_deref, if_neg (by decide), strtoullBase_of_ne (by decide)]
  exact (congrArg (BitVec.setWidth 32) hnumber).trans (setWidth_ofNat_toNat v)

/-- The three ways of reading a hexadecimal text. -/
theorem simpleStrtoul_itoaText_sixteen (v w : U32) :
    (simpleStrtoul (some (itoaText v 16 1 w)) 16).1 = v ∧
      (simpleStrtoul (some (0x30 :: 0x78 :: itoaText v 16 1 w)) 16).1 = v ∧
      (simpleStrtoul (some (0x30 :: 0x78 :: itoaText v 16 1 w)) 0).1 = v := by
  obtain ⟨row, tail, hrow, -⟩ := @pad_numeral_row 16 (by decide) (by decide) w v.toNat
  have hsign : takeSign (skipSpace (0x30 :: 0x78 :: itoaText v 16 1 w)) =
      (false, 0x30 :: 0x78 :: itoaText v 16 1 w) := takeSign_skipSpace rfl
  rw [itoaText_unsigned] at hsign ⊢
  refine ⟨?_, ?_, ?_⟩
  · rw [simpleStrtoul, simpleStrtoull_some (Or.inr (by decide)),
      takeSign_skipSpace hrow.isxdigit_deref, if_neg (by decide)]
    exact (congrArg (BitVec.setWidth 32) hrow.strtoullBase_sixteen_eq).trans
      (setWidth_ofNat_toNat v)
  · rw [simpleStrtoul, simpleStrtoull_some (Or.inr (by decide)), hsign, if_neg (by decide)]
    exact (congrArg (BitVec.setWidth 32) hrow.strtoullBase_prefix_eq).trans (setWidth_ofNat_toNat v)
  · have hdetect := detectBase_hex hrow.isxdigit_deref
    rw [simpleStrtoul, simpleStrtoull_some (Or.inl rfl), hsign, if_pos rfl, strtoullDetect,
      hdetect]
    exact (congrArg (BitVec.setWidth 32) hrow.strtoullBase_sixteen_eq).trans
      (setWidth_ofNat_toNat v)

/-- **Integers survive being written and read**, in every field: signed ones through `atoi`, and
unsigned ones through `simple_strtoul`, in base 10, in base 16 with a prefix or without one, and in
base 0 with a prefix. -/
theorem itoa_roundTrip (v w : U32) :
    (∃ text, (itoa v 10 0 w).Returns text ∧ (atoi text).Returns v) ∧
      (∃ text, (itoa v 10 1 w).Returns text ∧ (simpleStrtoul (some text) 10).1 = v) ∧
      ∃ text, (itoa v 16 1 w).Returns text ∧ (simpleStrtoul (some text) 16).1 = v ∧
        (simpleStrtoul (some (0x30 :: 0x78 :: text)) 16).1 = v ∧
        (simpleStrtoul (some (0x30 :: 0x78 :: text)) 0).1 = v :=
  ⟨⟨_, itoa_ten_returns v 0 w, atoi_itoaText v w⟩,
    ⟨_, itoa_ten_returns v 1 w, simpleStrtoul_itoaText_ten v w⟩,
    ⟨_, itoa_sixteen_returns v 1 w, simpleStrtoul_itoaText_sixteen v w⟩⟩

end Ganoid
