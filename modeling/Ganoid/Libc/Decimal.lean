import Ganoid.Libc.Format
import Ganoid.Libc.Strtoull

/-!
# Three decimal parsers

`atoi` and `get_value` add the digits up from the last one, with a power of ten that wraps around;
`simple_strtoull` gobbles up leading zeros and goes on by Horner's rule, in 64 bits. All three find
the same digits and give them the same value modulo 2^32, however many there are: each of them is
the value of the leading digits (`digitsValue`), taken modulo its own width.
-/

open Fuelled

namespace Ganoid

open Vsprintf

theorem isdigit_deref_dropWhile (s : List U8) : isdigit (deref (s.dropWhile isdigit)) = false := by
  induction s with
  | nil => rfl
  | cons c s ih =>
    rw [List.dropWhile_cons]
    split
    · exact ih
    · rename_i hc
      exact Bool.eq_false_iff.2 hc

theorem isdigit_of_mem_takeWhile {s : List U8} : ∀ c ∈ s.takeWhile isdigit, isdigit c = true :=
  fun _ hc ↦ List.mem_takeWhile_imp hc

/-- **`get_value`** reads the leading digits and leaves the pointer behind them. -/
theorem getValue_eq (s : List U8) : getValue s =
    (BitVec.ofNat 32 (digitsValue 10 (s.takeWhile isdigit)), s.dropWhile isdigit) := by
  conv_lhs => rw [← @List.takeWhile_append_dropWhile _ isdigit s]
  exact getValue_append isdigit_of_mem_takeWhile (isdigit_deref_dropWhile s)

/-- **`atoi`** reads the leading digits behind the sign. -/
theorem atoi_eq (s : List U8) : (atoi s).Returns
    ((signed (takeSign s).1 (digitsValue 10 ((takeSign s).2.takeWhile isdigit))).setWidth 32) := by
  rw [atoi]
  generalize takeSign s = sign
  obtain ⟨neg, rest⟩ := sign
  have hsum := atoiSum_digitRun_returns (@isdigit_of_mem_takeWhile rest)
    (isdigit_deref_dropWhile rest)
  rw [List.takeWhile_append_dropWhile] at hsum
  refine hsum.bind (returns_pure_iff.2 ?_)
  cases neg with
  | true =>
    show ~~~BitVec.ofNat 32 _ + 1 = (-BitVec.ofNat 64 _).setWidth 32
    rw [BitVec.setWidth_neg_of_le (by decide), BitVec.setWidth_ofNat_of_le (by decide)]
    exact (BitVec.neg_eq_not_add _).symm
  | false => simp [signed]

/-- **`simple_strtoull`** in base 10 reads the leading digits behind the blanks and the sign. -/
theorem simpleStrtoull_ten (s : List U8) : (simpleStrtoull (some s) 10).1 =
    signed (takeSign (skipSpace s)).1
      (digitsValue 10 ((takeSign (skipSpace s)).2.takeWhile isdigit)) := by
  rw [simpleStrtoull_some (Or.inr (by decide)), if_neg (by decide),
    strtoullBase_of_ne (by decide)]
  generalize takeSign (skipSpace s) = sign
  obtain ⟨neg, rest⟩ := sign
  conv_lhs => rw [← @List.takeWhile_append_dropWhile _ isdigit rest]
  have hnumber := @strtoullNumber_append 10 (by decide) (by decide) neg _ _
    (@isdigit_of_mem_takeWhile rest) (isdigit_deref_dropWhile rest)
  exact congrArg Prod.fst hnumber

/-- A string that starts with a digit has no sign. -/
theorem takeSign_of_isdigit {s : List U8} (h : isdigit (deref s) = true) :
    takeSign s = (false, s) := by
  have hplus : deref s ≠ 0x2B := fun heq ↦ absurd (heq ▸ h) (by decide)
  have hminus : deref s ≠ 0x2D := fun heq ↦ absurd (heq ▸ h) (by decide)
  rw [takeSign, if_neg hplus, if_neg hminus]

/-- **The three decimal parsers agree.** On every string that does not start with a space `atoi`
returns what `simple_strtoull` does modulo 2^32, and on one that starts with a digit `get_value`
does too and leaves its pointer behind the leading digits. -/
theorem decimal_parsers_agree (s : List U8) :
    (deref s ≠ 0x20 → (atoi s).Returns ((simpleStrtoull (some s) 10).1.setWidth 32)) ∧
    (isdigit (deref s) = true → (atoi s).Returns (getValue s).1 ∧
      (getValue s).1 = (simpleStrtoull (some s) 10).1.setWidth 32 ∧
      (getValue s).2 = s.dropWhile isdigit) := by
  have hatoi : deref s ≠ 0x20 → (atoi s).Returns ((simpleStrtoull (some s) 10).1.setWidth 32) :=
    fun h ↦ by
      rw [simpleStrtoull_ten, skipSpace_of_ne h]
      exact atoi_eq s
  refine ⟨hatoi, fun h ↦ ?_⟩
  have hspace : deref s ≠ 0x20 := fun heq ↦ absurd (heq ▸ h) (by decide)
  have hvalue : (getValue s).1 = (simpleStrtoull (some s) 10).1.setWidth 32 := by
    rw [simpleStrtoull_ten, skipSpace_of_ne hspace, takeSign_of_isdigit h, getValue_eq, signed,
      if_neg Bool.false_ne_true]
    simp
  exact ⟨hvalue ▸ hatoi hspace, hvalue, congrArg Prod.snd (getValue_eq s)⟩

/-- Eleven nines: the value wraps around in 32 bits and not in 64. A minus sign in front of three
nines makes the number negative, and a second sign is no digit. -/
theorem decimal_parsers_agree_nines :
    (simpleStrtoull (some (List.replicate 11 0x39)) 10).1 = 99999999999 ∧
    (getValue (List.replicate 11 0x39)).1 = 1215752191 ∧
    (atoi (List.replicate 11 0x39)).Returns (BitVec.setWidth 32 (99999999999 : U64)) ∧
    (atoi (0x2D :: List.replicate 3 0x39)).Returns (-999) ∧
    (atoi [0x2B, 0x2D, 0x39]).Returns 0 :=
  ⟨rfl, ((decimal_parsers_agree (List.replicate 11 0x39)).2 rfl).2.1,
    (decimal_parsers_agree (List.replicate 11 0x39)).1 (by decide),
    (decimal_parsers_agree (0x2D :: List.replicate 3 0x39)).1 (by decide),
    (decimal_parsers_agree [0x2B, 0x2D, 0x39]).1 (by decide)⟩

end Ganoid
