import Ganoid.Libc.Memcpy
import Ganoid.Library.Bubble
import Ganoid.Library.Signed

/-!
# Bubble sort

`bubble_sort` and `swap_int` of `arch/i386/kernel/clib.c`, on a memory that logs what it accesses.
The output array is a row of words, and a comparison of the source is a comparison of that row
(`entry_comparePair`), so that the passes are those of `Bubble`. The source makes every pass to the
end of the array, and all of `n - 1` passes.
-/

open Fuelled Signed

namespace Ganoid

/-- `swap_int`. -/
def swapInt (t : TracedMem) (element1 element2 : U32) : TracedMem :=
  let (tmp, t) := t.load32 element1
  let (v, t) := t.load32 element2
  let t := t.store32 element1 v
  t.store32 element2 tmp

/-- `&array[k]`. -/
def intAddr (array k : U32) : U32 := array + k * 4

/-- The body of the inner loop of `bubble_sort`. -/
def comparePair (outputArray : U32) (t : TracedMem) (j : U32) : TracedMem :=
  let (a, t) := t.load32 (intAddr outputArray j)
  let (b, t) := t.load32 (intAddr outputArray (j + 1))
  if b.slt a then swapInt t (intAddr outputArray j) (intAddr outputArray (j + 1)) else t

/-- `bubble_sort`. -/
def bubbleSort (t : TracedMem) (inputArray outputArray elements : U32) : Fuelled TracedMem := do
  let lastPair := elements - 1
  let (t, _) ← memcpy t outputArray inputArray (elements * 4)
  forBelow lastPair
    (fun t _ ↦ forBelow lastPair (fun t j ↦ pure (comparePair outputArray t j)) t) t

/-- The entry `array[k]`. -/
def entry (m : Mem) (array : U32) (k : ℕ) : U32 := m.load32 (Mem.word array k)

theorem intAddr_eq_word (array k : U32) : intAddr array k = Mem.word array k.toNat := by
  rw [intAddr, Mem.word]
  bv_omega

/-! ### One comparison -/

section Compare

variable {q : U32} {n : ℕ} (hfit : 4 * n ≤ 2 ^ 32)

include hfit

theorem entry_swapInt (t : TracedMem) {j k : ℕ} (hj : j + 1 < n) (hk : k < n) :
    entry (swapInt t (Mem.word q j) (Mem.word q (j + 1))).mem q k =
      entry t.mem q (Equiv.swap j (j + 1) k) := by
  show ((t.mem.store32 (Mem.word q j) (entry t.mem q (j + 1))).store32 (Mem.word q (j + 1))
    (entry t.mem q j)).load32 (Mem.word q k) = _
  rw [Mem.load32_store32_word _ hfit hj hk,
    Mem.load32_store32_word _ hfit (Nat.lt_of_succ_lt hj) hk, Equiv.swap_apply_def]
  split_ifs with hright hleft
  · omega
  · rfl
  · rfl
  · rfl

/-- **One comparison of the source** is one comparison of the row. -/
theorem entry_comparePair (t : TracedMem) {j : U32} {k : ℕ} (hj : j.toNat + 1 < n) (hk : k < n) :
    entry (comparePair q t j).mem q k = Bubble.step BitVec.toInt (entry t.mem q) j.toNat k := by
  have hnext : (j + 1).toNat = j.toNat + 1 := by bv_omega
  rw [comparePair, intAddr_eq_word, intAddr_eq_word, hnext, Bubble.step]
  by_cases hless : (entry t.mem q (j.toNat + 1)).slt (entry t.mem q j.toNat)
  · rw [if_pos (BitVec.slt_iff_toInt_lt.1 hless)]
    refine Eq.trans (congrArg (fun u : TracedMem ↦ entry u.mem q k) (if_pos hless)) ?_
    exact entry_swapInt hfit _ hj hk
  · rw [if_neg fun hlt ↦ hless (BitVec.slt_iff_toInt_lt.2 hlt)]
    exact Eq.trans (congrArg (fun u : TracedMem ↦ entry u.mem q k) (if_neg hless)) rfl

/-- A comparison writes only to the array. -/
theorem mem_comparePair (t : TracedMem) {j a : U32} (hj : j.toNat + 1 < n)
    (ha : ¬ Mem.InRegion q (4 * n) a) : (comparePair q t j).mem a = t.mem a := by
  have hnext : (j + 1).toNat = j.toNat + 1 := by bv_omega
  have hout : ∀ k, k < n → ¬ Mem.InRegion (Mem.word q k) 4 a := fun k hk hin ↦
    ha (Mem.inRegion_word hfit hk hin)
  rw [comparePair, intAddr_eq_word, intAddr_eq_word, hnext]
  dsimp only
  split
  · show ((t.mem.store32 _ _).store32 _ _) a = t.mem a
    rw [Mem.store32_of_not_inRegion (hout _ hj),
      Mem.store32_of_not_inRegion (hout _ (Nat.lt_of_succ_lt hj))]
  · rfl

/-- And it accesses nothing else. -/
theorem within_comparePair {P : U32 → Prop} {t : TracedMem} (h : t.Within P) {j : U32}
    (hj : j.toNat + 1 < n) (hP : ∀ a, Mem.InRegion q (4 * n) a → P a) :
    (comparePair q t j).Within P := by
  have hnext : (j + 1).toNat = j.toNat + 1 := by bv_omega
  have hword : ∀ k, k < n → ∀ a, Mem.InRegion (Mem.word q k) 4 a → P a := fun k hk a ha ↦
    hP a (Mem.inRegion_word hfit hk ha)
  have hleft := hword _ (Nat.lt_of_succ_lt hj)
  have hright := hword _ hj
  rw [comparePair, intAddr_eq_word, intAddr_eq_word, hnext]
  dsimp only
  split
  · exact ((((h.load32 hleft).load32 hright).load32 hleft).load32 hright).store32 hleft _
      |>.store32 hright _
  · exact (h.load32 hleft).load32 hright

end Compare

/-! ### The loops -/

/-- The output array holds the entries of the input in some order, and nothing else has been
changed or accessed. -/
structure Sorting (P : U32 → Prop) (m : Mem) (q : U32) (ws : List U32) (t : TracedMem) : Prop where
  within : t.Within P
  frame : ∀ a, ¬ Mem.InRegion q (4 * ws.length) a → t.mem a = m a
  perm : ((List.range ws.length).map (entry t.mem q)).Perm ws

section Passes

variable {P : U32 → Prop} {m : Mem} {q lastPair : U32} {ws : List U32}
  (hfit : 4 * ws.length < 2 ^ 32) (hP : ∀ a, Mem.InRegion q (4 * ws.length) a → P a)
  (hlast : lastPair.toInt.toNat = ws.length - 1)

include hfit hP

theorem Sorting.comparePair {t : TracedMem} (h : Sorting P m q ws t) {j : U32}
    (hj : j.toNat + 1 < ws.length) : Sorting P m q ws (comparePair q t j) where
  within := within_comparePair (Nat.le_of_lt hfit) h.within hj hP
  frame a ha := (mem_comparePair (Nat.le_of_lt hfit) t hj ha).trans (h.frame a ha)
  perm := by
    have hentries : (List.range ws.length).map (entry (Ganoid.comparePair q t j).mem q) =
        (List.range ws.length).map (Bubble.step BitVec.toInt (entry t.mem q) j.toNat) :=
      List.map_congr_left fun k hk ↦
        entry_comparePair (Nat.le_of_lt hfit) t hj (List.mem_range.1 hk)
    rw [hentries]
    exact (Bubble.perm_step hj _).trans h.perm

include hlast

/-- **One pass** settles one more entry. -/
theorem Sorting.pass {t : TracedMem} (h : Sorting P m q ws t) {i : ℕ}
    (hi : Bubble.Settled BitVec.toInt ws.length i (entry t.mem q)) :
    ∃ t', (forBelow lastPair (fun t j ↦ pure (Ganoid.comparePair q t j)) t).Returns t' ∧
      Sorting P m q ws t' ∧
      Bubble.Settled BitVec.toInt ws.length (i + 1) (entry t'.mem q) := by
  obtain ⟨t', hret, hsorting, hpassing⟩ := @exists_returns_forBelow _ _ lastPair
    (fun t j ↦ pure (Ganoid.comparePair q t j))
    (fun j t ↦ Sorting P m q ws t ∧ Bubble.Passing BitVec.toInt ws.length i j (entry t.mem q))
    (fun j t hj ⟨hsorting, hpassing⟩ ↦ by
      rw [hlast] at hj
      have hj' : j.toNat + 1 < ws.length := by omega
      exact ⟨_, returns_pure _, hsorting.comparePair hfit hP hj', (hpassing.step hj').congr
        (fun a ha ↦ entry_comparePair (Nat.le_of_lt hfit) t hj' ha) hj'⟩)
    t ⟨h, hi.passing⟩
  rw [hlast] at hpassing
  exact ⟨t', hret, hsorting, hpassing.settled_succ⟩

/-- All passes sort the array. -/
theorem Sorting.passes {t : TracedMem} (h : Sorting P m q ws t) :
    ∃ t', (forBelow lastPair (fun t _ ↦
      forBelow lastPair (fun t j ↦ pure (Ganoid.comparePair q t j)) t) t).Returns t' ∧
      Sorting P m q ws t' ∧
      Bubble.Settled BitVec.toInt ws.length (ws.length - 1) (entry t'.mem q) := by
  have hloop := @exists_returns_forBelow _ _ lastPair
    (fun t _ ↦ forBelow lastPair (fun t j ↦ pure (Ganoid.comparePair q t j)) t)
    (fun i t ↦ Sorting P m q ws t ∧ Bubble.Settled BitVec.toInt ws.length i (entry t.mem q))
    (fun _ t _ ⟨hsorting, hsettled⟩ ↦ hsorting.pass hfit hP hlast hsettled)
    t ⟨h, Bubble.settled_zero _⟩
  rwa [hlast] at hloop

end Passes

/-- Entries of which none exceeds a later one are sorted as a list. -/
theorem pairwise_map_range {n : ℕ} {r : ℕ → U32}
    (h : ∀ a b, a ≤ b → b < n → (r a).toInt ≤ (r b).toInt) :
    ((List.range n).map r).Pairwise fun v w ↦ v.toInt ≤ w.toInt := by
  rw [List.pairwise_map]
  refine List.pairwise_lt_range.imp_of_mem fun {a b} _ hb hlt ↦ ?_
  exact h a b (Nat.le_of_lt hlt) (List.mem_range.1 hb)

/-- Two arrays that do not overlap leave each other room. -/
theorem four_mul_lt_of_apart {p q : U32} {n : ℕ} (h : Mem.Apart p (4 * n) q (4 * n)) :
    4 * n < 2 ^ 32 := by
  rcases Nat.eq_zero_or_pos n with rfl | hpos
  · omega
  · by_contra hge
    refine h q ?_ (Mem.inRegion_self q (by omega))
    exact Nat.lt_of_lt_of_le (q - p).isLt (by omega)

/-- The number of pairs that a pass compares, as an `int`. -/
theorem toInt_lastPair {n : ℕ} (hn : 4 * n < 2 ^ 32) :
    (BitVec.ofNat 32 n - 1 : U32).toInt.toNat = n - 1 := by
  rcases Nat.eq_zero_or_pos n with rfl | hpos
  · decide
  · have hpairs : (BitVec.ofNat 32 n - 1 : U32).toNat = n - 1 := by bv_omega
    rw [Signed.toNat_toInt (by omega), hpairs]

/-- An array copied elsewhere is there entry by entry. -/
theorem map_entry_copyFrom {m dst : Mem} {p q : U32} {ws : List U32} (h : m.WordsAt p ws)
    (hfit : 4 * ws.length < 2 ^ 32) :
    (List.range ws.length).map (entry (dst.copyFrom q m p (4 * ws.length)) q) = ws := by
  refine Eq.trans (List.map_congr_left fun k hk ↦ ?_) h.map_load32_word
  have hk' := List.mem_range.1 hk
  have hoff : (BitVec.ofNat 32 (4 * k)).toNat = 4 * k := Nat.mod_eq_of_lt (by omega)
  exact Mem.load32_copyFrom (by omega) (Nat.le_of_lt hfit)

/-- **`bubble_sort` sorts.** The output array holds the entries of the input array in non-decreasing
order, the input array and everything else is as it was, and nothing but the two arrays has been
accessed. -/
theorem bubbleSort_sorts {t : TracedMem} {p q : U32} {ws : List U32} (hin : t.mem.WordsAt p ws)
    (hapart : Mem.Apart p (4 * ws.length) q (4 * ws.length)) :
    ∃ t' ws', (bubbleSort t p q (BitVec.ofNat 32 ws.length)).Returns t' ∧ t'.mem.WordsAt q ws' ∧
      ws'.Pairwise (fun v w ↦ v.toInt ≤ w.toInt) ∧ ws'.Perm ws ∧ t'.mem.WordsAt p ws ∧
      (∀ a, ¬ Mem.InRegion q (4 * ws.length) a → t'.mem a = t.mem a) ∧
      t'.Within fun a ↦ a ∈ t.touched ∨ Mem.InRegion p (4 * ws.length) a ∨
        Mem.InRegion q (4 * ws.length) a := by
  have hfit := four_mul_lt_of_apart hapart
  have hbytes : (BitVec.ofNat 32 ws.length * 4 : U32).toNat = 4 * ws.length := by bv_omega
  have hlast := toInt_lastPair hfit
  let P : U32 → Prop := fun a ↦ a ∈ t.touched ∨ Mem.InRegion p (4 * ws.length) a ∨
    Mem.InRegion q (4 * ws.length) a
  have hq : ∀ a, Mem.InRegion q (4 * ws.length) a → P a := fun a ha ↦ Or.inr (Or.inr ha)
  obtain ⟨t₁, hcopy, hwithin, hmem⟩ := @memcpy_returns P t q p (BitVec.ofNat 32 ws.length * 4)
    (by rwa [hbytes]) (by rw [hbytes]; exact fun a ha ↦ Or.inr (Or.inl ha)) (by rwa [hbytes])
    fun a ha ↦ Or.inl ha
  rw [hbytes] at hmem
  have hstart : Sorting P t.mem q ws t₁ :=
    ⟨hwithin, fun a ha ↦ hmem ▸ Mem.copyFrom_of_not_inRegion ha,
      hmem ▸ .of_eq (map_entry_copyFrom hin hfit)⟩
  obtain ⟨t', hret, hsorting, hsettled⟩ := hstart.passes hfit hq hlast
  refine ⟨t', (List.range ws.length).map (entry t'.mem q), hcopy.bind hret,
    Mem.wordsAt_map_range_iff.2 fun k _ ↦ rfl, pairwise_map_range fun a b hab hb ↦ hsettled.le hab hb,
    hsorting.perm, ?_, hsorting.frame, hsorting.within⟩
  exact hin.of_agree (Nat.le_of_lt hfit) fun a ha ↦ hsorting.frame a (hapart a ha)

/-- Three numbers, one of them negative, sorted into an array right behind them. -/
theorem bubbleSort_sorts_three :
    ∃ t' ws', (bubbleSort ⟨Mem.storeWords (fun _ ↦ 0) 0x1000 [5, -3, 1], []⟩ 0x1000 0x100C 3).Returns
        t' ∧ t'.mem.WordsAt 0x100C ws' ∧ ws'.Pairwise (fun v w ↦ v.toInt ≤ w.toInt) ∧
      ws'.Perm [5, -3, 1] := by
  obtain ⟨t', ws', hret, hout, hsorted, hperm, -⟩ := @bubbleSort_sorts
    ⟨Mem.storeWords (fun _ ↦ 0) 0x1000 [5, -3, 1], []⟩ 0x1000 0x100C [5, -3, 1]
    ⟨by decide, by decide, by decide, trivial⟩ (fun a ha hb ↦ by
      rw [Mem.InRegion] at ha hb
      simp only [List.length_cons, List.length_nil] at ha hb
      bv_omega)
  exact ⟨t', ws', hret, hout, hsorted, hperm⟩

end Ganoid
