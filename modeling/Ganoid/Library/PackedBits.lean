import Mathlib.Logic.Function.Basic
import Mathlib.Tactic.Common

/-!
# Bits packed into words

A bit array kept in an array of `w`-bit words: bit `b` is bit `b % w` of word `b / w`. The words are
a function on all of `ℕ`, so the array has no length of its own; a client that cares where its array
ends bounds the *word* index, and reads beyond it are reads of whatever memory follows.

The three operations are the usual mask operations, and the two laws a client needs are
`get_set` and `get_clear`: one bit changes and every other bit of every word stays. Both need only
`0 < w`. `and_mask_bne_zero` and its companions connect the masks a program computes with shifts
to these operations.
-/

namespace PackedBits

variable {w : ℕ}

/-- Bit `b` of the packed array. -/
def get (words : ℕ → BitVec w) (b : ℕ) : Bool :=
  (words (b / w)).getLsbD (b % w)

/-- Set bit `b`. -/
def set (words : ℕ → BitVec w) (b : ℕ) : ℕ → BitVec w :=
  Function.update words (b / w) (words (b / w) ||| BitVec.twoPow w (b % w))

/-- Clear bit `b`. -/
def clear (words : ℕ → BitVec w) (b : ℕ) : ℕ → BitVec w :=
  Function.update words (b / w) (words (b / w) &&& ~~~ BitVec.twoPow w (b % w))

/-- Two bits lie in the same place of the same word only when they are the same bit. -/
theorem eq_of_div_eq_of_mod_eq {b c : ℕ} (hdiv : c / w = b / w) (hmod : c % w = b % w) : c = b := by
  rw [← Nat.div_add_mod c w, ← Nat.div_add_mod b w, hdiv, hmod]

/-- Setting a bit changes that bit and no other. -/
theorem get_set (hw : 0 < w) (words : ℕ → BitVec w) (b c : ℕ) :
    get (set words b) c = (decide (c = b) || get words c) := by
  by_cases hcb : c = b
  · subst hcb
    simp [get, set, Nat.mod_lt c hw]
  · by_cases hdiv : c / w = b / w
    · have hmod : b % w ≠ c % w := fun h ↦ hcb (eq_of_div_eq_of_mod_eq hdiv h.symm)
      simp [get, set, hdiv, hcb, hmod]
    · simp [get, set, hdiv, hcb]

/-- Clearing a bit changes that bit and no other. -/
theorem get_clear (hw : 0 < w) (words : ℕ → BitVec w) (b c : ℕ) :
    get (clear words b) c = (!decide (c = b) && get words c) := by
  by_cases hcb : c = b
  · subst hcb
    simp [get, clear, Nat.mod_lt c hw]
  · by_cases hdiv : c / w = b / w
    · have hmod : c % w ≠ b % w := fun h ↦ hcb (eq_of_div_eq_of_mod_eq hdiv h)
      have hlt : c % w < w := Nat.mod_lt c hw
      simp [get, clear, hdiv, hcb, hmod, hlt]
    · simp [get, clear, hdiv, hcb]

/-- Two arrays that agree in every bit are the same words. -/
theorem eq_of_get_eq (hw : 0 < w) {words words' : ℕ → BitVec w}
    (h : ∀ b, get words b = get words' b) : words = words' := by
  funext i
  refine BitVec.eq_of_getLsbD_eq fun j hj ↦ ?_
  have hbit := h (w * i + j)
  rwa [get, get, Nat.mul_add_div hw, Nat.div_eq_of_lt hj, Nat.add_zero, Nat.mul_add_mod,
    Nat.mod_eq_of_lt hj] at hbit

/-- The words that hold the bits `lo ≤ c ≤ b` are that of `b` and those that hold the bits
before it. -/
theorem exists_word_succ_iff {lo b i : ℕ} (h : lo ≤ b) :
    (∃ c, lo ≤ c ∧ c < b + 1 ∧ i = c / w) ↔ i = b / w ∨ ∃ c, lo ≤ c ∧ c < b ∧ i = c / w := by
  constructor
  · rintro ⟨c, hc, hcb, rfl⟩
    rcases Nat.lt_succ_iff_lt_or_eq.1 hcb with hlt | rfl
    · exact Or.inr ⟨c, hc, hlt, rfl⟩
    · exact Or.inl rfl
  · rintro (rfl | ⟨c, hc, hcb, rfl⟩)
    · exact ⟨b, h, Nat.lt_succ_self b, rfl⟩
    · exact ⟨c, hc, Nat.lt_succ_of_lt hcb, rfl⟩

/-! ### Masks -/

/-- The one-bit mask a program computes as `1 << offset`. -/
theorem one_shiftLeft_eq_twoPow (i : ℕ) : (1#w <<< i) = BitVec.twoPow w i := by
  rw [BitVec.twoPow_eq]

/-- Masking with a one-bit mask tests the bit. -/
theorem and_mask_bne_zero {x : BitVec w} {i : ℕ} (hi : i < w) :
    (x &&& BitVec.twoPow w i != 0#w) = x.getLsbD i := by
  have hne : BitVec.twoPow w i ≠ 0#w := by
    intro h
    have hbit : (BitVec.twoPow w i).getLsbD i = false := by rw [h, BitVec.getLsbD_zero]
    simp [hi] at hbit
  rw [BitVec.and_twoPow]
  cases x.getLsbD i with
  | false => simp
  | true => simpa using hne

/-- Masking with a one-bit mask gives zero exactly when the bit is clear. -/
theorem and_mask_eq_zero_iff {x : BitVec w} {i : ℕ} (hi : i < w) :
    x &&& BitVec.twoPow w i = 0#w ↔ x.getLsbD i = false := by
  rw [← and_mask_bne_zero hi, bne_eq_false_iff_eq]

/-- A scan that keeps a bit number, its word and its mask apart tests the bit with that number. -/
theorem and_mask_eq_zero_iff_get {words : ℕ → BitVec w} {mask : BitVec w} {i index k : ℕ}
    (hk : k < w) (hmask : mask = BitVec.twoPow w k) (hi : i = w * index + k) :
    words index &&& mask = 0#w ↔ get words i = false := by
  have hpos : 0 < w := Nat.lt_of_le_of_lt (Nat.zero_le k) hk
  rw [hmask, hi, get, Nat.mul_add_div hpos, Nat.div_eq_of_lt hk, Nat.add_zero, Nat.mul_add_mod,
    Nat.mod_eq_of_lt hk]
  exact and_mask_eq_zero_iff hk

/-- Shifting a one-bit mask left moves it to the next bit. -/
theorem twoPow_shiftLeft_one (i : ℕ) : BitVec.twoPow w i <<< 1 = BitVec.twoPow w (i + 1) := by
  rw [BitVec.twoPow_eq, BitVec.twoPow_eq, BitVec.shiftLeft_add]

/-- A one-bit mask is zero once it has been shifted out of the word. -/
theorem twoPow_eq_zero_iff {i : ℕ} : BitVec.twoPow w i = 0#w ↔ w ≤ i := by
  constructor
  · intro h
    have hbit : (BitVec.twoPow w i).getLsbD i = false := by rw [h, BitVec.getLsbD_zero]
    simpa using hbit
  · intro h
    apply BitVec.eq_of_getLsbD_eq
    intro j hj
    simp
    omega

/-- A mask that goes through a word bit by bit is zero when it is behind the last bit. -/
theorem mask_eq_zero_iff {mask : BitVec w} {k : ℕ} (h : mask = BitVec.twoPow w k) (hk : k ≤ w) :
    mask = 0#w ↔ k = w := by
  rw [h, twoPow_eq_zero_iff]
  omega

end PackedBits
