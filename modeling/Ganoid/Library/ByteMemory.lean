import Mathlib.Algebra.Group.Nat.Defs
import Mathlib.Tactic.Common

/-!
# A 32-bit byte-addressed memory

A memory is a function from 32-bit addresses to bytes, so it has no end and addresses wrap around.
Words are little-endian and need not be aligned.

`WordsAt m p ws` says that the words `ws` stand at `p`, lowest address first, which is how a stack
frame reads from its stack pointer. A stack discipline is three lemmas about it: pushing a word
extends the list at the front (`WordsAt.push`), popping takes the first word off
(`wordsAt_cons_iff`), and a change elsewhere leaves the list alone (`WordsAt.of_agree`). An array is
read and written by index instead, at the addresses `word p k` (`load32_store32_word`). Regions are
compared by offset, `(q - p).toNat < n`, so no lemma asks that a region not wrap.
-/

/-- The bytes of memory. -/
abbrev Mem := BitVec 32 → BitVec 8

namespace Mem

/-- The address lies in the `n` bytes from `p` on. -/
def InRegion (p : BitVec 32) (n : ℕ) (q : BitVec 32) : Prop :=
  (q - p).toNat < n

/-- Regions that end at the same address. -/
theorem inRegion_sub_mono {p q : BitVec 32} {k n : ℕ} (hle : k ≤ n)
    (h : InRegion (p - BitVec.ofNat 32 k) k q) : InRegion (p - BitVec.ofNat 32 n) n q := by
  rw [InRegion] at h ⊢
  bv_omega

/-- A region that ends where another one begins. -/
theorem inRegion_sub_sub {p q : BitVec 32} {k n : ℕ}
    (h : InRegion (p - BitVec.ofNat 32 k - BitVec.ofNat 32 n) n q) :
    InRegion (p - BitVec.ofNat 32 (n + k)) (n + k) q := by
  have hp : p - BitVec.ofNat 32 k - BitVec.ofNat 32 n = p - BitVec.ofNat 32 (n + k) := by
    bv_omega
  rw [hp, InRegion] at h
  rw [InRegion]
  omega

/-- The word at `p`. -/
def load32 (m : Mem) (p : BitVec 32) : BitVec 32 :=
  m (p + 3) ++ m (p + 2) ++ m (p + 1) ++ m p

/-- The double word at `p`. -/
def load64 (m : Mem) (p : BitVec 32) : BitVec 64 :=
  m.load32 (p + 4) ++ m.load32 p

/-- Write a word at `p`. -/
def store32 (m : Mem) (p v : BitVec 32) : Mem := fun q ↦
  if (q - p).toNat < 4 then v.extractLsb' (8 * (q - p).toNat) 8 else m q

/-- The first `n` bytes from `s` on of `src`, written to `d`. -/
def copyFrom (dst : Mem) (d : BitVec 32) (src : Mem) (s : BitVec 32) (n : ℕ) : Mem := fun q ↦
  if (q - d).toNat < n then src (s + (q - d)) else dst q

theorem add_sub_self_left (p k : BitVec 32) : p + k - p = k := by
  rw [BitVec.add_comm, BitVec.add_sub_cancel]

/-- A write changes only the four bytes it writes. -/
theorem store32_of_not_inRegion {m : Mem} {p v q : BitVec 32} (h : ¬ InRegion p 4 q) :
    m.store32 p v q = m q := by
  rw [InRegion] at h
  rw [store32, if_neg h]

/-- A word read depends on four bytes. -/
theorem load32_congr {m m' : Mem} {p : BitVec 32} (h : ∀ q, InRegion p 4 q → m' q = m q) :
    m'.load32 p = m.load32 p := by
  have h' : ∀ k : BitVec 32, k.toNat < 4 → m' (p + k) = m (p + k) := fun k hk ↦ by
    refine h (p + k) ?_
    rw [InRegion, add_sub_self_left]
    exact hk
  have h0 := h' 0 (by decide)
  rw [show p + (0 : BitVec 32) = p from BitVec.add_zero p] at h0
  rw [load32, load32, h0, h' 1 (by decide), h' 2 (by decide), h' 3 (by decide)]

/-- Reading back what was written. -/
theorem load32_store32 (m : Mem) (p v : BitVec 32) : (m.store32 p v).load32 p = v := by
  have h : ∀ k : BitVec 32, k.toNat < 4 →
      m.store32 p v (p + k) = v.extractLsb' (8 * k.toNat) 8 := fun k hk ↦ by
    rw [store32, add_sub_self_left, if_pos hk]
  have h0 := h 0 (by decide)
  rw [show p + (0 : BitVec 32) = p from BitVec.add_zero p] at h0
  rw [load32, h0, h 1 (by decide), h 2 (by decide), h 3 (by decide)]
  apply BitVec.eq_of_getLsbD_eq
  intro i hi
  -- bit by bit, by the byte that the bit is in
  simp only [BitVec.getLsbD_append, BitVec.getLsbD_extractLsb']
  by_cases h₁ : i < 8
  · simp [h₁]
  · by_cases h₂ : i - 8 < 8
    · simp [h₁, h₂, show 8 + (i - 8) = i by omega]
    · by_cases h₃ : i - 8 - 8 < 8
      · simp [h₁, h₂, h₃, show 16 + (i - 8 - 8) = i by omega]
      · simp [h₁, h₂, h₃, show i - 8 - 8 - 8 < 8 by omega, show 24 + (i - 8 - 8 - 8) = i by omega]

/-- A word that lies in a copied block is the word copied there. -/
theorem load32_copyFrom {dst src : Mem} {d s k : BitVec 32} {n : ℕ} (h : k.toNat + 4 ≤ n)
    (hfit : n ≤ 2 ^ 32) : (dst.copyFrom d src s n).load32 (d + k) = src.load32 (s + k) := by
  have h' : ∀ j : BitVec 32, j.toNat < 4 →
      dst.copyFrom d src s n (d + k + j) = src (s + k + j) := fun j hj ↦ by
    rw [copyFrom, BitVec.add_assoc, add_sub_self_left, BitVec.add_assoc]
    exact if_pos (by rw [BitVec.toNat_add]; omega)
  have h0 := h' 0 (by decide)
  rw [show ∀ p : BitVec 32, p + (0 : BitVec 32) = p from BitVec.add_zero,
    show ∀ p : BitVec 32, p + (0 : BitVec 32) = p from BitVec.add_zero] at h0
  rw [load32, load32, h0, h' 1 (by decide), h' 2 (by decide), h' 3 (by decide)]

/-- A copy depends on the bytes copied. -/
theorem copyFrom_congr {dst src src' : Mem} {d s : BitVec 32} {n : ℕ}
    (h : ∀ q, InRegion s n q → src' q = src q) : dst.copyFrom d src' s n = dst.copyFrom d src s n := by
  funext q
  rw [copyFrom, copyFrom]
  split
  · rename_i hq
    refine h _ ?_
    rw [InRegion, add_sub_self_left]
    exact hq
  · rfl

/-! ### Words in a row -/

/-- The words `ws` stand at `p`, lowest address first. -/
def WordsAt (m : Mem) : BitVec 32 → List (BitVec 32) → Prop
  | _, [] => True
  | p, w :: ws => m.load32 p = w ∧ WordsAt m (p + 4) ws

@[simp] theorem wordsAt_nil (m : Mem) (p : BitVec 32) : WordsAt m p [] := trivial

@[simp]
theorem wordsAt_cons_iff {m : Mem} {p w : BitVec 32} {ws : List (BitVec 32)} :
    WordsAt m p (w :: ws) ↔ m.load32 p = w ∧ WordsAt m (p + 4) ws :=
  Iff.rfl

/-- The `i`-th word stands `4 * i` bytes from the first. -/
theorem WordsAt.load32_add {m : Mem} {p w : BitVec 32} {ws : List (BitVec 32)} {i : ℕ}
    (h : WordsAt m p ws) (hi : ws[i]? = some w) : m.load32 (p + BitVec.ofNat 32 (4 * i)) = w := by
  induction ws generalizing p i with
  | nil => simp at hi
  | cons v ws ih =>
    cases i with
    | zero =>
      obtain rfl : v = w := by simpa using hi
      rw [Nat.mul_zero, BitVec.add_zero]
      exact h.1
    | succ i =>
      have hoff : p + BitVec.ofNat 32 (4 * (i + 1)) = p + 4 + BitVec.ofNat 32 (4 * i) := by
        bv_omega
      rw [hoff]
      exact ih h.2 hi

/-- Two groups of words in a row. -/
theorem wordsAt_append_iff {m : Mem} {p : BitVec 32} {ws vs : List (BitVec 32)} :
    WordsAt m p (ws ++ vs) ↔
      WordsAt m p ws ∧ WordsAt m (p + BitVec.ofNat 32 (4 * ws.length)) vs := by
  induction ws generalizing p with
  | nil =>
    rw [List.length_nil, Nat.mul_zero, BitVec.add_zero]
    exact (and_iff_right trivial).symm
  | cons w ws ih =>
    have hoff : p + BitVec.ofNat 32 (4 * (ws.length + 1)) =
        p + 4 + BitVec.ofNat 32 (4 * ws.length) := by bv_omega
    rw [List.length_cons, hoff, List.cons_append, wordsAt_cons_iff, wordsAt_cons_iff, ih, and_assoc]

/-- A change outside the words leaves them where they are. -/
theorem WordsAt.of_agree {m m' : Mem} {p : BitVec 32} {ws : List (BitVec 32)}
    (h : WordsAt m p ws) (hfit : 4 * ws.length ≤ 2 ^ 32)
    (hagree : ∀ q, InRegion p (4 * ws.length) q → m' q = m q) : WordsAt m' p ws := by
  induction ws generalizing p with
  | nil => trivial
  | cons w ws ih =>
    rw [List.length_cons] at hfit hagree
    obtain ⟨hw, hws⟩ := h
    refine ⟨?_, ih hws (by omega) fun q hq ↦ hagree q ?_⟩
    · rw [← hw]
      exact load32_congr fun q hq ↦ hagree q (by rw [InRegion] at hq ⊢; omega)
    · rw [InRegion] at hq ⊢
      bv_omega

/-- Writing a word just below the words extends them at the front. -/
theorem WordsAt.push {m : Mem} {p : BitVec 32} {ws : List (BitVec 32)} (h : WordsAt m p ws)
    (hfit : 4 * (ws.length + 1) ≤ 2 ^ 32) (v : BitVec 32) :
    WordsAt (m.store32 (p - 4) v) (p - 4) (v :: ws) := by
  refine ⟨load32_store32 m (p - 4) v, ?_⟩
  rw [BitVec.sub_add_cancel]
  refine h.of_agree (by omega) fun q hq ↦ store32_of_not_inRegion ?_
  rw [InRegion] at hq ⊢
  bv_omega

/-- Write words in a row, lowest address first. -/
def storeWords (m : Mem) (p : BitVec 32) : List (BitVec 32) → Mem
  | [] => m
  | w :: ws => (m.storeWords (p + 4) ws).store32 p w

/-- Words written in a row stand there, in front of those that stood behind them. -/
theorem WordsAt.storeWords {m : Mem} {p : BitVec 32} {vs : List (BitVec 32)}
    (ws : List (BitVec 32)) (h : WordsAt m (p + BitVec.ofNat 32 (4 * ws.length)) vs)
    (hfit : 4 * (ws.length + vs.length) ≤ 2 ^ 32) : WordsAt (m.storeWords p ws) p (ws ++ vs) := by
  induction ws generalizing p with
  | nil =>
    rw [List.length_nil, Nat.mul_zero, BitVec.add_zero] at h
    exact h
  | cons w ws ih =>
    rw [List.length_cons] at h hfit
    have hoff : p + BitVec.ofNat 32 (4 * (ws.length + 1)) =
        p + 4 + BitVec.ofNat 32 (4 * ws.length) := by bv_omega
    rw [hoff] at h
    have hpush := (ih h (by omega)).push (by rw [List.length_append]; omega) w
    rw [show p + 4 - 4 = p from BitVec.add_sub_cancel p 4] at hpush
    exact hpush

/-- Nothing else is written. -/
theorem storeWords_of_not_inRegion {m : Mem} {p q : BitVec 32} {ws : List (BitVec 32)}
    (h : ¬ InRegion p (4 * ws.length) q) (hfit : 4 * ws.length ≤ 2 ^ 32) :
    m.storeWords p ws q = m q := by
  induction ws generalizing p with
  | nil => rfl
  | cons w ws ih =>
    rw [List.length_cons, InRegion] at h
    rw [List.length_cons] at hfit
    have hrest : ¬ InRegion (p + 4) (4 * ws.length) q := by
      rw [InRegion]
      bv_omega
    rw [storeWords, store32_of_not_inRegion (by rw [InRegion]; omega), ih hrest (by omega)]

/-! ### Arrays of words -/

/-- The address of the `k`-th word of the array at `p`. -/
def word (p : BitVec 32) (k : ℕ) : BitVec 32 := p + BitVec.ofNat 32 (4 * k)

theorem word_zero (p : BitVec 32) : word p 0 = p := BitVec.add_zero p

theorem word_succ (p : BitVec 32) (k : ℕ) : word p (k + 1) = word (p + 4) k := by
  rw [word, word]
  bv_omega

/-- The words in a row, one by one. -/
theorem wordsAt_map_range_iff {m : Mem} {p : BitVec 32} {n : ℕ} {r : ℕ → BitVec 32} :
    WordsAt m p ((List.range n).map r) ↔ ∀ k, k < n → m.load32 (word p k) = r k := by
  induction n generalizing p r with
  | zero => simp
  | succ n ih =>
    rw [List.range_succ_eq_map, List.map_cons, List.map_map, wordsAt_cons_iff, ih]
    constructor
    · rintro ⟨hfirst, hrest⟩ k hk
      cases k with
      | zero => rwa [word_zero]
      | succ k =>
        rw [word_succ]
        exact hrest k (Nat.lt_of_succ_lt_succ hk)
    · intro h
      exact ⟨word_zero p ▸ h 0 n.succ_pos,
        fun k hk ↦ word_succ p k ▸ h (k + 1) (Nat.succ_lt_succ hk)⟩

/-- The words of a row, read one by one. -/
theorem WordsAt.map_load32_word {m : Mem} {p : BitVec 32} {ws : List (BitVec 32)}
    (h : WordsAt m p ws) : (List.range ws.length).map (fun k ↦ m.load32 (word p k)) = ws := by
  refine List.ext_getElem (by simp) fun i _ hi ↦ ?_
  rw [List.getElem_map, List.getElem_range]
  exact h.load32_add (List.getElem?_eq_getElem hi)

/-- **An array read after a write** to one of its words. -/
theorem load32_store32_word {p v : BitVec 32} {j k n : ℕ} (m : Mem) (hfit : 4 * n ≤ 2 ^ 32)
    (hj : j < n) (hk : k < n) :
    (m.store32 (word p j) v).load32 (word p k) = if k = j then v else m.load32 (word p k) := by
  split
  · rename_i heq
    rw [heq]
    exact load32_store32 m _ v
  · refine load32_congr fun q hq ↦ store32_of_not_inRegion ?_
    rw [InRegion, word] at hq ⊢
    bv_omega

/-- The words of an array lie in its region. -/
theorem inRegion_word {p q : BitVec 32} {k n : ℕ} (hfit : 4 * n ≤ 2 ^ 32) (hk : k < n)
    (hq : InRegion (word p k) 4 q) : InRegion p (4 * n) q := by
  rw [InRegion, word] at *
  bv_omega

end Mem
