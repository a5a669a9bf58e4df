import Mathlib.Data.List.Induction
import Mathlib.Data.Nat.Digits.Defs
import Mathlib.Data.Nat.Log
import Mathlib.Tactic.Ring

/-!
# Positional numerals, most significant digit first

`Nat.digits` and `Nat.ofDigits` have the least significant digit first. Programs that print and read
numbers work from the other end: a printer divides by the falling powers of the base (`numeral`), a
parser multiplies what it has by the base and adds the next digit (`value`). The two are inverse to
each other (`value_numeral`), and leading zeros do not matter (`value_zeros_append`).

A number has `Nat.log b n + 1` digits, zero having one.
-/

namespace Positional

variable {b n k : ℕ}

/-- The value of a list of digits, by Horner's rule. -/
def value (b : ℕ) (ds : List ℕ) : ℕ :=
  ds.foldl (fun n d ↦ n * b + d) 0

@[simp]
theorem value_nil (b : ℕ) : value b [] = 0 :=
  rfl

/-- Reading one more digit. -/
theorem value_concat (b : ℕ) (ds : List ℕ) (d : ℕ) : value b (ds ++ [d]) = value b ds * b + d := by
  rw [value, List.foldl_append]
  rfl

/-- Horner's rule gives the value that the digits have the other way round. -/
theorem value_eq_ofDigits (b : ℕ) (ds : List ℕ) : value b ds = Nat.ofDigits b ds.reverse := by
  induction ds using List.reverseRecOn with
  | nil => rfl
  | append_singleton ds d ih =>
    rw [value_concat, ih, List.reverse_append, List.reverse_singleton, List.singleton_append,
      Nat.ofDigits_cons]
    ring

theorem value_append (b : ℕ) (ds es : List ℕ) :
    value b (ds ++ es) = value b ds * b ^ es.length + value b es := by
  rw [value_eq_ofDigits, List.reverse_append, Nat.ofDigits_append, List.length_reverse,
    ← value_eq_ofDigits, ← value_eq_ofDigits]
  ring

theorem value_cons (b d : ℕ) (ds : List ℕ) :
    value b (d :: ds) = d * b ^ ds.length + value b ds := by
  rw [← List.singleton_append, value_append, value, List.foldl_cons, List.foldl_nil, Nat.zero_mul,
    Nat.zero_add]

/-- Leading zeros do not change a value. -/
theorem value_zeros_append (b k : ℕ) (ds : List ℕ) :
    value b (List.replicate k 0 ++ ds) = value b ds := by
  induction k with
  | zero => rfl
  | succ k ih =>
    rw [List.replicate_succ, List.cons_append, value_cons, ih, Nat.zero_mul, Nat.zero_add]

/-- The last `k` digits of a number. -/
def lastDigits (b n : ℕ) : ℕ → List ℕ
  | 0 => []
  | k + 1 => n / b ^ k % b :: lastDigits b n k

@[simp]
theorem length_lastDigits (b n k : ℕ) : (lastDigits b n k).length = k := by
  induction k with
  | zero => rfl
  | succ k ih => rw [lastDigits, List.length_cons, ih]

theorem lt_of_mem_lastDigits (hb : 0 < b) {d : ℕ} (hd : d ∈ lastDigits b n k) : d < b := by
  induction k with
  | zero => exact absurd hd List.not_mem_nil
  | succ k ih =>
    rcases List.mem_cons.1 hd with rfl | hd
    · exact Nat.mod_lt _ hb
    · exact ih hd

theorem value_lastDigits (b n k : ℕ) : value b (lastDigits b n k) = n % b ^ k := by
  induction k with
  | zero => rw [lastDigits, value_nil, Nat.pow_zero, Nat.mod_one]
  | succ k ih =>
    rw [lastDigits, value_cons, length_lastDigits, ih, Nat.pow_succ, Nat.mod_mul, Nat.mul_comm,
      Nat.add_comm]

/-- The last digits of a number depend on what is left of it after its first ones. -/
theorem lastDigits_mod (b n : ℕ) {j : ℕ} (h : k ≤ j) :
    lastDigits b (n % b ^ j) k = lastDigits b n k := by
  induction k with
  | zero => rfl
  | succ k ih =>
    have hdigit : n % b ^ j / b ^ k % b = n / b ^ k % b := by
      obtain ⟨i, rfl⟩ := Nat.exists_eq_add_of_lt h
      rw [show k + i + 1 = k + (i + 1) by omega, Nat.pow_add, Nat.mod_mul_right_div_self,
        Nat.pow_succ', Nat.mod_mul_right_mod]
    rw [lastDigits, lastDigits, hdigit, ih (Nat.le_of_succ_le h)]

/-- All digits of a number, at least one. -/
def numeral (b n : ℕ) : List ℕ :=
  lastDigits b n (Nat.log b n + 1)

@[simp]
theorem length_numeral (b n : ℕ) : (numeral b n).length = Nat.log b n + 1 :=
  length_lastDigits b n _

theorem lt_of_mem_numeral (hb : 0 < b) {d : ℕ} (hd : d ∈ numeral b n) : d < b :=
  lt_of_mem_lastDigits hb hd

/-- **A numeral has the value it was made from.** -/
theorem value_numeral (hb : 1 < b) (n : ℕ) : value b (numeral b n) = n := by
  rw [numeral, value_lastDigits]
  exact Nat.mod_eq_of_lt (Nat.lt_pow_succ_log_self hb n)

theorem lastDigits_zero (b k : ℕ) : lastDigits b 0 k = List.replicate k 0 := by
  induction k with
  | zero => rfl
  | succ k ih => rw [lastDigits, ih, Nat.zero_div, Nat.zero_mod, List.replicate_succ]

/-- The numbers written with a 1 and zeros are the powers of the base. -/
theorem numeral_eq_one_zeros_iff (hb : 1 < b) :
    numeral b n = 1 :: List.replicate k 0 ↔ n = b ^ k := by
  constructor
  · intro h
    have hval := congrArg (value b) h
    have hzeros : value b (List.replicate k 0) = 0 := by
      rw [← List.append_nil (List.replicate k 0), value_zeros_append, value_nil]
    rwa [value_numeral hb, value_cons, hzeros, List.length_replicate, Nat.one_mul,
      Nat.add_zero] at hval
  · rintro rfl
    have hpos : 0 < b ^ k := Nat.pow_pos (by omega)
    have hzeros := lastDigits_mod b (b ^ k) (Nat.le_refl k)
    rw [Nat.mod_self, lastDigits_zero] at hzeros
    rw [numeral, Nat.log_pow hb, lastDigits, Nat.div_self hpos, Nat.mod_eq_of_lt hb, ← hzeros]

end Positional
