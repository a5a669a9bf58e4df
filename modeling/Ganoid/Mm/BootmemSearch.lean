import Ganoid.Library.FirstFit
import Ganoid.Mm.Bootmem
import Ganoid.Mm.PageSearch

/-!
# What the boot memory search computes

One specification lemma for each function of `Ganoid.Mm.Bootmem`, over the frames themselves. A frame
behind the window is as good as busy to the search (`BootMem.shut`), so what the search sees is the
first run of the window, and as in the page allocator the run decides it after one pass
(`findFreeBitsRange_case`).

Two things differ. A pass in which no frame is found does not end the search but goes on from what
the last pass left, which at first is `kdebug_init_val` twice: a start behind every window. And a
size that rounds up to no frame at all makes `remaining_bits` the largest number there is, which no
run reaches and which wraps round in the test of the outer loop.
-/

open Fuelled

namespace Ganoid.Bootmem

variable (m : BootMem)

theorem toNat_getbit (a : U32) : (getbit a).toNat = a.toNat / 4096 := by
  rw [getbit, BitVec.toNat_udiv, toNat_pageSize]

theorem toNat_startBit_lt : m.startBit.toNat < 1048576 := by
  rw [BootMem.startBit, toNat_getbit]
  omega

theorem toNat_endBit_lt : m.endBit.toNat < 1048576 := by
  rw [BootMem.endBit, toNat_getbit]
  omega

theorem toNat_bmBits_lt (size : U32) : (bmBits size).toNat < 1048576 := by
  rw [bmBits, BitVec.toNat_udiv, toNat_pageSize]
  omega

/-! ### Bits -/

theorem busy_bmSetbit (b : U32) (c : ℕ) :
    (bmSetbit m b).busy c = if c = b.toNat then true else m.busy c := by
  have hwords : (bmSetbit m b).freeBitmap = PackedBits.set m.freeBitmap b.toNat := by
    simp [bmSetbit, PackedBits.set, ← PackedBits.one_shiftLeft_eq_twoPow]
  rw [BootMem.busy, hwords, PackedBits.get_set (by omega)]
  by_cases hc : c = b.toNat <;> simp [BootMem.busy, hc]

theorem busy_bmClearbit (b : U32) (c : ℕ) :
    (bmClearbit m b).busy c = if c = b.toNat then false else m.busy c := by
  have hwords : (bmClearbit m b).freeBitmap = PackedBits.clear m.freeBitmap b.toNat := by
    simp [bmClearbit, PackedBits.clear, ← PackedBits.one_shiftLeft_eq_twoPow]
  rw [BootMem.busy, hwords, PackedBits.get_clear (by omega)]
  by_cases hc : c = b.toNat <;> simp [BootMem.busy, hc]

theorem bmGetbit_ne_zero_iff (b : U32) : bmGetbit m b ≠ 0 ↔ m.busy b.toNat = true := by
  have hzero := @PackedBits.and_mask_eq_zero_iff 32 (m.freeBitmap (b.toNat / 32)) (b.toNat % 32)
    (Nat.mod_lt _ (by omega))
  rw [← Bool.not_eq_false, not_iff_not, BootMem.busy, PackedBits.get, ← hzero]
  simp [bmGetbit, PackedBits.one_shiftLeft_eq_twoPow]

/-- `m'` is `m` with the frames `lo ≤ c < hi` marked `v` and nothing else changed. -/
structure Marked (m : BootMem) (lo hi : ℕ) (v : Bool) (m' : BootMem) : Prop where
  busy_eq : ∀ c, m'.busy c = if lo ≤ c ∧ c < hi then v else m.busy c
  rest : ∃ freeBitmap, m' = { m with freeBitmap := freeBitmap }

theorem bmBitRange_returns {op : BootMem → U32 → BootMem} {v : Bool}
    (hbusy : ∀ m b c, (op m b).busy c = if c = b.toNat then v else m.busy c)
    (hrest : ∀ m b, ∃ freeBitmap, op m b = { m with freeBitmap := freeBitmap })
    {first last : U32} (hle : first.toNat ≤ last.toNat + 1) (hlast : last.toNat < 2 ^ 32 - 1) :
    ∃ m', (bmBitRange op m first last).Returns m' ∧
      Marked m first.toNat (last.toNat + 1) v m' := by
  -- the frames before the current one are marked
  refine exists_returns_upTo (fun b cur ↦ Marked m first.toNat b v cur) hle (by omega)
    (fun b cur hlo _ hmark ↦ ⟨fun c ↦ ?_, ?_⟩)
    ⟨fun c ↦ by rw [if_neg (by omega)], m.freeBitmap, rfl⟩
  · rw [hbusy, hmark.busy_eq]
    grind
  · obtain ⟨freeBitmap, hop⟩ := hrest cur b
    obtain ⟨_, rfl⟩ := hmark.rest
    exact ⟨freeBitmap, hop⟩

theorem bmSetbitRange_returns {first last : U32} (hle : first.toNat ≤ last.toNat + 1)
    (hlast : last.toNat < 2 ^ 32 - 1) : ∃ m', (bmSetbitRange m first last).Returns m' ∧
      Marked m first.toNat (last.toNat + 1) true m' :=
  bmBitRange_returns m busy_bmSetbit (fun _ _ ↦ ⟨_, rfl⟩) hle hlast

theorem bmClearbitRange_returns {first last : U32} (hle : first.toNat ≤ last.toNat + 1)
    (hlast : last.toNat < 2 ^ 32 - 1) : ∃ m', (bmClearbitRange m first last).Returns m' ∧
      Marked m first.toNat (last.toNat + 1) false m' :=
  bmBitRange_returns m busy_bmClearbit (fun _ _ ↦ ⟨_, rfl⟩) hle hlast

/-! ### Finding the first free frame -/

/-- The locals of the scan point at frame `i`, in bit `k` of word `index`. -/
structure FirstFreeBit.At (s : FirstFreeBit) (k : ℕ) : Prop where
  mask_eq : s.mask = BitVec.twoPow 32 k
  i_eq : s.i.toNat = 32 * s.index.toNat + k

variable {m}

theorem FirstFreeBit.At.masked_eq_zero_iff {s : FirstFreeBit} {k : ℕ} (h : s.At k) (hk : k < 32) :
    m.freeBitmap s.index.toNat &&& s.mask = 0 ↔ m.busy s.i.toNat = false := by
  exact PackedBits.and_mask_eq_zero_iff_get hk h.mask_eq h.i_eq

/-- What the inner loop of the scan leaves behind: it stopped at the first free frame of the window
from `i` on, or at the end of the word or of the window. -/
structure WordScanned (m : BootMem) (s : FirstFreeBit) (r : Bool × FirstFreeBit) : Prop where
  index_eq : r.2.index = s.index
  le : s.i.toNat ≤ r.2.i.toNat
  busy : ∀ c, s.i.toNat ≤ c → c < r.2.i.toNat → m.busy c = true
  found : r.1 = true → r.2.i ≤ m.endBit ∧ m.busy r.2.i.toNat = false
  exhausted : r.1 = false → r.2.i.toNat = 32 * (s.index.toNat + 1) ∨
    r.2.i.toNat = m.endBit.toNat + 1

/-- The state of the inner loop: it is at bit `j` of the word, or behind it, not far behind the
window, and every frame before has been found busy. -/
structure WordScanning (m : BootMem) (s t : FirstFreeBit) (j : ℕ) : Prop where
  index_eq : t.index = s.index
  le : s.i.toNat ≤ t.i.toNat
  le_end : t.i.toNat ≤ m.endBit.toNat + 1
  busy : ∀ c, s.i.toNat ≤ c → c < t.i.toNat → m.busy c = true
  at_bit : t.At j
  bit_le : j ≤ 32

namespace WordScanning

variable {s t : FirstFreeBit} {j : ℕ}

/-- A free frame ends the loop. -/
theorem found (h : WordScanning m s t j) (hin : t.i ≤ m.endBit)
    (hfree : m.busy t.i.toNat = false) : WordScanned m s (true, t) where
  index_eq := h.index_eq
  le := h.le
  busy := h.busy
  found := fun _ ↦ ⟨hin, hfree⟩
  exhausted := by simp

/-- A busy frame is passed over. -/
theorem next (h : WordScanning m s t j) (hj : j < 32) (hin : t.i ≤ m.endBit)
    (hbusy : m.busy t.i.toNat = true) :
    WordScanning m s { t with mask := t.mask <<< 1, i := t.i + 1 } (j + 1) := by
  have hend := toNat_endBit_lt m
  have hin' : t.i.toNat ≤ m.endBit.toNat := hin
  have hle := h.le
  have hnext : (t.i + 1).toNat = t.i.toNat + 1 := by bv_omega
  refine ⟨h.index_eq, by dsimp only; omega, by dsimp only; omega, fun c hc hlt ↦ ?_, ⟨?_, ?_⟩, hj⟩
  · dsimp only at hlt
    rcases Nat.lt_succ_iff_lt_or_eq.1 (hnext ▸ hlt) with hlt | rfl
    · exact h.busy c hc hlt
    · exact hbusy
  · dsimp only
    rw [h.at_bit.mask_eq]
    exact PackedBits.twoPow_shiftLeft_one j
  · dsimp only
    rw [hnext, h.at_bit.i_eq]
    rfl

/-- The word or the window is exhausted. -/
theorem exhausted (h : WordScanning m s t j) (hstop : j < 32 → ¬ t.i ≤ m.endBit) :
    WordScanned m s (false, t) where
  index_eq := h.index_eq
  le := h.le
  busy := h.busy
  found := by simp
  exhausted := by
    intro _
    dsimp only
    rcases Nat.lt_or_eq_of_le h.bit_le with hj | rfl
    · have hbehind : ¬ t.i.toNat ≤ m.endBit.toNat := hstop hj
      exact Or.inr (Nat.le_antisymm h.le_end (Nat.lt_of_not_le hbehind))
    · refine Or.inl ?_
      rw [h.at_bit.i_eq, h.index_eq]
      rfl

end WordScanning

theorem scanWord_returns {k : ℕ} {s : FirstFreeBit} (hat : s.At k) (hk : k < 32)
    (hi : s.i ≤ m.endBit) : ∃ r, (scanWord m s).Returns r ∧ WordScanned m s r := by
  have hend := toNat_endBit_lt m
  have hi' : s.i.toNat ≤ m.endBit.toNat := hi
  refine exists_returns_of_variant (fun t : FirstFreeBit ↦ ∃ j, WordScanning m s t j)
    (WordScanned m s) (fun t ↦ m.endBit.toNat + 1 - t.i.toNat) ?_
    ⟨k, rfl, Nat.le_refl _, by omega, fun c _ _ ↦ by omega, hat, Nat.le_of_lt hk⟩
  rintro t ⟨j, h⟩
  have hmask : t.mask = 0 ↔ j = 32 := PackedBits.mask_eq_zero_iff h.at_bit.mask_eq h.bit_le
  by_cases hgo : t.mask ≠ 0 ∧ t.i ≤ m.endBit
  · rw [if_pos hgo]
    have hj : j < 32 := Nat.lt_of_le_of_ne h.bit_le fun hj ↦ hgo.1 (hmask.2 hj)
    have hle : t.i.toNat ≤ m.endBit.toNat := hgo.2
    have hnext : (t.i + 1).toNat = t.i.toNat + 1 := by bv_omega
    cases hbusy : m.busy t.i.toNat with
    | false =>
      rw [if_pos ((h.at_bit.masked_eq_zero_iff hj).2 hbusy)]
      exact Or.inl ⟨_, returns_pure _, h.found hgo.2 hbusy⟩
    | true =>
      rw [if_neg fun hzero ↦ absurd ((h.at_bit.masked_eq_zero_iff hj).1 hzero) (by simp [hbusy])]
      exact Or.inr ⟨_, returns_pure _, ⟨j + 1, h.next hj hgo.2 hbusy⟩, by dsimp only; omega⟩
  · rw [if_neg hgo]
    refine Or.inl ⟨_, returns_pure _, h.exhausted fun hj hin ↦ hgo ⟨fun hzero ↦ ?_, hin⟩⟩
    exact Nat.ne_of_lt hj (hmask.1 hzero)

/-- The outcome of a search for the first free frame of the window from `lo` on. -/
structure FirstFreeFound (m : BootMem) (lo : ℕ) (r : Option U32) : Prop where
  found : ∀ f, r = some f → lo ≤ f.toNat ∧ f.toNat ≤ m.endBit.toNat ∧ m.busy f.toNat = false ∧
    ∀ c, lo ≤ c → c < f.toNat → m.busy c = true
  none : r = none → ∀ c, lo ≤ c → c ≤ m.endBit.toNat → m.busy c = true

/-- `find_first_free` always returns, with the least free frame of the window from its start on. -/
theorem findFirstFree_returns (m : BootMem) (start : U32) :
    ∃ r, (findFirstFree m start).Returns r ∧ FirstFreeFound m start.toNat r := by
  have hend := toNat_endBit_lt m
  rw [findFirstFree]
  by_cases hbehind : m.endBit < start
  · rw [if_pos hbehind]
    have hbehind' : m.endBit.toNat < start.toNat := hbehind
    exact ⟨_, returns_pure _, by simp, fun _ c hc hle ↦ by omega⟩
  · rw [if_neg hbehind]
    have hstart : ¬ m.endBit.toNat < start.toNat := hbehind
    -- at the head of the outer loop every frame from the start to `i` has been found busy
    refine exists_returns_of_variant
      (fun s : FirstFreeBit ↦ start.toNat ≤ s.i.toNat ∧
        (∀ c, start.toNat ≤ c → c < s.i.toNat → m.busy c = true) ∧
        (s.i.toNat = m.endBit.toNat + 1 ∨ ∃ k, k < 32 ∧ s.At k))
      (FirstFreeFound m start.toNat) (fun s ↦ m.endBit.toNat + 1 - s.i.toNat) ?_ ?_
    · rintro s ⟨hle, hbusy, hpos⟩
      by_cases hgo : s.i ≤ m.endBit
      · rw [if_pos hgo]
        have hgo' : s.i.toNat ≤ m.endBit.toNat := hgo
        obtain ⟨k, hk, hat⟩ := hpos.resolve_left (by omega)
        have hi_eq := hat.i_eq
        obtain ⟨⟨found, t⟩, hret, hword⟩ := scanWord_returns hat hk hgo
        have hle' : s.i.toNat ≤ t.i.toNat := hword.le
        have hbusy' : ∀ c, start.toNat ≤ c → c < t.i.toNat → m.busy c = true := fun c hc hlt ↦ by
          rcases Nat.lt_or_ge c s.i.toNat with h | h
          · exact hbusy c hc h
          · exact hword.busy c h hlt
        cases found with
        | true =>
          obtain ⟨hin, hfree⟩ := hword.found rfl
          have hin' : t.i.toNat ≤ m.endBit.toNat := hin
          refine Or.inl ⟨_, hret.bind (returns_pure _), ?_, by simp⟩
          rintro f ⟨⟩
          exact ⟨Nat.le_trans hle hle', hin', hfree, hbusy'⟩
        | false =>
          have hindex : (t.index + 1).toNat = s.index.toNat + 1 := by
            have : t.index = s.index := hword.index_eq
            bv_omega
          have hend' : t.i.toNat = 32 * (s.index.toNat + 1) ∨ t.i.toNat = m.endBit.toNat + 1 :=
            hword.exhausted rfl
          refine Or.inr ⟨_, hret.bind (returns_pure _),
            ⟨show start.toNat ≤ t.i.toNat by omega, hbusy', ?_⟩, ?_⟩
          · refine hend'.symm.imp_right fun hword' ↦ ⟨0, by omega, rfl, ?_⟩
            show t.i.toNat = 32 * (t.index + 1).toNat + 0
            omega
          · show m.endBit.toNat + 1 - t.i.toNat < m.endBit.toNat + 1 - s.i.toNat
            omega
      · rw [if_neg hgo]
        have hgo' : ¬ s.i.toNat ≤ m.endBit.toNat := hgo
        exact Or.inl ⟨_, returns_pure _, by simp, fun _ c hc hle' ↦ hbusy c hc (by omega)⟩
    · refine ⟨Nat.le_refl _, fun c _ _ ↦ by dsimp only at *; omega, Or.inr ⟨start.toNat % 32,
        Nat.mod_lt _ (by omega), ?_, ?_⟩⟩
      · simp [PackedBits.one_shiftLeft_eq_twoPow]
      · simp
        omega

/-! ### Counting the frames that follow -/

/-- Whether a frame is busy or lies behind the window. -/
def BootMem.shut (m : BootMem) (c : ℕ) : Bool := m.busy c || decide (m.endBit.toNat < c)

theorem shut_eq_busy {c : ℕ} (hc : c ≤ m.endBit.toNat) : m.shut c = m.busy c := by
  rw [BootMem.shut, decide_eq_false (by omega), Bool.or_false]

/-- The verification loop counts the free frames of the window after `f`, up to `n`. -/
structure Followed (m : BootMem) (f n i : ℕ) : Prop where
  le : i ≤ n
  free : ∀ j, j < i → m.shut (f + 1 + j) = false
  stopped : i < n → m.shut (f + 1 + i) = true

/-- The state of the verification loop: `i` frames of the window have been counted and are free. -/
structure Following (m : BootMem) (f n : ℕ) (s : U32 × U32) : Prop where
  le : s.1.toNat ≤ n
  at_eq : s.2.toNat = f + 1 + s.1.toNat
  le_end : s.2.toNat ≤ m.endBit.toNat + 1
  free : ∀ j, j < s.1.toNat → m.shut (f + 1 + j) = false

namespace Following

variable {f n : ℕ} {i b : U32}

/-- A busy frame stops the count. -/
theorem stopped (h : Following m f n (i, b)) (hin : b.toNat ≤ m.endBit.toNat)
    (hbusy : m.busy b.toNat = true) : Followed m f n i.toNat where
  le := h.le
  free := h.free
  stopped := by
    intro _
    have hb : b.toNat = f + 1 + i.toNat := h.at_eq
    rw [← hb, shut_eq_busy hin]
    exact hbusy

/-- A free frame is counted. -/
theorem next (h : Following m f n (i, b)) (hlt : i.toNat < n) (hin : b.toNat ≤ m.endBit.toNat)
    (hfree : m.busy b.toNat = false) : Following m f n (i + 1, b + 1) := by
  have hend := toNat_endBit_lt m
  have hb : b.toNat = f + 1 + i.toNat := h.at_eq
  have hi' : (i + 1).toNat = i.toNat + 1 := by bv_omega
  have hb' : (b + 1).toNat = b.toNat + 1 := by bv_omega
  refine ⟨by dsimp only; omega, by dsimp only; omega, by dsimp only; omega, fun j hj ↦ ?_⟩
  dsimp only at hj
  rcases Nat.lt_succ_iff_lt_or_eq.1 (hi' ▸ hj) with hji | rfl
  · exact h.free j hji
  · rw [← hb, shut_eq_busy hin]
    exact hfree

/-- The count ends at the number asked for or at the end of the window. -/
theorem counted (h : Following m f n (i, b)) (hstop : i.toNat < n → ¬ b.toNat ≤ m.endBit.toNat) :
    Followed m f n i.toNat where
  le := h.le
  free := h.free
  stopped := by
    intro hlt
    have hb : b.toNat = f + 1 + i.toNat := h.at_eq
    have hbehind := hstop hlt
    rw [BootMem.shut, ← hb, decide_eq_true (by omega), Bool.or_true]

end Following

theorem countFollowing_returns {f : U32} (n : U32) (hf : f.toNat ≤ m.endBit.toNat) :
    ∃ i, (countFollowing m f n).Returns i ∧ Followed m f.toNat n.toNat i.toNat := by
  have hend := toNat_endBit_lt m
  refine exists_returns_of_variant (Following m f.toNat n.toNat)
    (fun i : U32 ↦ Followed m f.toNat n.toNat i.toNat) (fun s ↦ n.toNat - s.1.toNat) ?_
    ⟨Nat.zero_le _, by bv_omega, by bv_omega, fun j hj ↦ absurd hj (Nat.not_lt_zero j)⟩
  rintro ⟨i, b⟩ h
  dsimp only
  by_cases hgo : i < n ∧ b ≤ m.endBit
  · have hlt : i.toNat < n.toNat := hgo.1
    have hi : (i + 1).toNat = i.toNat + 1 := by bv_omega
    rw [if_pos hgo]
    by_cases hstop : bmGetbit m b ≠ 0
    · rw [if_pos hstop]
      exact Or.inl ⟨_, returns_pure _, h.stopped hgo.2 ((bmGetbit_ne_zero_iff m b).1 hstop)⟩
    · rw [if_neg hstop]
      rw [bmGetbit_ne_zero_iff, Bool.not_eq_true] at hstop
      exact Or.inr ⟨_, returns_pure _, h.next hlt hgo.2 hstop, by dsimp only; omega⟩
  · rw [if_neg hgo]
    exact Or.inl ⟨_, returns_pure _, h.counted fun hlt hin ↦ hgo ⟨hlt, hin⟩⟩

/-! ### The search -/

/-- A run of the window from `lo` on. -/
abbrev RunFrom (m : BootMem) (lo f i n : ℕ) : Prop :=
  FirstFit.RunFrom m.shut (m.endBit.toNat + 1) lo f i n

/-- One pass of the search: it finds every frame from its start on busy, or it finds a run and is
done or goes on from the last frame of the run. -/
theorem searchPass_returns (m : BootMem) {n : U32} {s : RangeSearch}
    (hguard : s.lStartBit + n ≤ m.endBit) :
    (∀ c, s.lStartBit.toNat ≤ c → c ≤ m.endBit.toNat → m.busy c = true) ∧
        (searchPass m n s).Returns (.inl { s with lStartBit := s.firstFreeBit + s.i }) ∨
      ∃ f i : U32, RunFrom m s.lStartBit.toNat f.toNat i.toNat n.toNat ∧
        (searchPass m n s).Returns (if i = n then .inr (some f) else .inl ⟨f + i, f, i⟩) := by
  obtain ⟨found, hfirst, hspec⟩ := findFirstFree_returns m s.lStartBit
  rw [searchPass, if_pos hguard]
  cases found with
  | none => exact Or.inl ⟨hspec.none rfl, hfirst.bind (returns_pure _)⟩
  | some f =>
    obtain ⟨hlo, hle, hfree, hbelow⟩ := hspec.found f rfl
    obtain ⟨i, hcount, hfollow⟩ := countFollowing_returns n hle
    refine Or.inr ⟨f, i, ⟨hlo, by omega, fun c hc hlt ↦ ?_, ?_, hfollow.le, hfollow.free,
      hfollow.stopped⟩, hfirst.bind (hcount.bind ?_)⟩
    · rw [shut_eq_busy (by omega)]
      exact hbelow c hc hlt
    · rw [shut_eq_busy hle]
      exact hfree
    · by_cases hin : i = n
      · rw [if_pos hin, if_pos hin]
        exact returns_pure _
      · rw [if_neg hin, if_neg hin]
        exact returns_pure _

/-- A start from which the request does not fit into the window ends the search. -/
theorem loop_searchPass_fails {n : U32} {s : RangeSearch} (hguard : ¬ s.lStartBit + n ≤ m.endBit) :
    (loop (searchPass m n) s).Returns none := by
  refine returns_loop_of_leave ?_
  rw [searchPass, if_neg hguard]
  exact returns_pure _

/-- The values the locals are initialized with name a frame behind every window. -/
theorem kdebugInitVal_not_le {n : U32} (hn : n.toNat < 1048576 ∨ n = 0xFFFFFFFF) :
    ¬ kdebugInitVal + kdebugInitVal + n ≤ m.endBit := by
  have hend := toNat_endBit_lt m
  intro h
  have h' : (kdebugInitVal + kdebugInitVal + n).toNat ≤ m.endBit.toNat := h
  rw [kdebugInitVal] at h'
  rcases hn with hn | rfl <;> bv_omega

/-- A search that goes on from a free frame with a busy one behind it finds that frame again, in
every pass. -/
theorem loop_searchPass_diverges {l n : U32} {s : RangeSearch} (hs : s.lStartBit = l) (hn : n ≠ 0)
    (hguard : l + n ≤ m.endBit) (hle : l.toNat ≤ m.endBit.toNat) (hfree : m.busy l.toNat = false)
    (hstop : m.shut (l.toNat + 1) = true) (r : Option U32) :
    ¬ (loop (searchPass m n) s).Returns r := by
  -- no pass moves the start
  refine not_returns_of_invariant (fun s : RangeSearch ↦ s.lStartBit = l) (fun s hs ↦ ?_) hs r
  subst hs
  rcases searchPass_returns m hguard with ⟨hall, -⟩ | ⟨f, i, hrun, hret⟩
  · have hbusy := hall _ (Nat.le_refl _) hle
    rw [hfree] at hbusy
    exact absurd hbusy (by simp)
  · obtain ⟨hf, hi⟩ := hrun.eq_of_stopped (by rw [shut_eq_busy hle]; exact hfree) hstop
    obtain rfl : f = s.lStartBit := BitVec.eq_of_toNat_eq hf
    obtain rfl : i = 0 := BitVec.eq_of_toNat_eq hi
    rw [if_neg hn.symm] at hret
    exact ⟨_, hret, BitVec.add_zero _⟩

/-- The search for the frames that a size rounds up to never ends: the window's first run stalls it,
or the size rounds up to none and the window has a free frame. -/
def Stuck (m : BootMem) (bits : U32) : Prop :=
  FirstFit.Stalls m.shut (m.endBit.toNat + 1) m.startBit.toNat bits.toNat ∨
    bits = 0 ∧ 1 ≤ m.startBit.toNat ∧
      ∃ c, m.startBit.toNat ≤ c ∧ c ≤ m.endBit.toNat ∧ m.busy c = false

/-- **The search is decided by the first run.** -/
inductive SearchCase (m : BootMem) (bits : U32) : Prop
  | fails (hend : ¬ Stuck m bits) (hret : (findFreeBitsRange m bits).Returns none)
  /-- The first run is long enough. -/
  | found (hend : ¬ Stuck m bits) (hpos : 1 ≤ bits.toNat) (f : U32)
      (hrun : RunFrom m m.startBit.toNat f.toNat (bits.toNat - 1) (bits.toNat - 1))
      (hret : (findFreeBitsRange m bits).Returns (some f))
  | diverges (hstuck : Stuck m bits) (hdiv : ∀ r, ¬ (findFreeBitsRange m bits).Returns r)

/-- Nothing stalls a search that finds every frame of the window busy. -/
theorem not_stalls_of_all_busy {count : ℕ}
    (hall : ∀ c, m.startBit.toNat ≤ c → c ≤ m.endBit.toNat → m.busy c = true) :
    ¬ FirstFit.Stalls m.shut (m.endBit.toNat + 1) m.startBit.toNat count := by
  rintro ⟨f, i, hrun, -, -⟩
  have hlt := hrun.lt
  have hbusy := hall f hrun.lo_le (by omega)
  rw [← shut_eq_busy (by omega), hrun.first] at hbusy
  exact absurd hbusy (by simp)

/-- The search after a first pass that found no free frame. -/
theorem findFreeBitsRange_all_busy {n : U32} (hn : n.toNat < 1048576 ∨ n = 0xFFFFFFFF)
    (hret : (searchPass m n ⟨m.startBit, kdebugInitVal, kdebugInitVal⟩).Returns
      (.inl ⟨kdebugInitVal + kdebugInitVal, kdebugInitVal, kdebugInitVal⟩)) :
    (loop (searchPass m n) ⟨m.startBit, kdebugInitVal, kdebugInitVal⟩).Returns none :=
  returns_loop_of_again hret (loop_searchPass_fails (kdebugInitVal_not_le hn))

/-- A run lies in the window, for the window's end would have stopped it. -/
theorem run_le_endBit {lo f i n : ℕ} (hrun : RunFrom m lo f i n) : f + i ≤ m.endBit.toNat := by
  have hlt := hrun.lt
  refine Nat.le_of_not_lt fun hbehind ↦ ?_
  cases i with
  | zero => omega
  | succ j =>
    have hfree := hrun.free j (Nat.lt_succ_self j)
    rw [BootMem.shut, decide_eq_true (by omega), Bool.or_true] at hfree
    exact absurd hfree (by simp)

/-- The search after a first pass that found a short run and goes on from its last frame. -/
theorem loop_diverges_of_short {n f i : U32} {s : RangeSearch}
    (hrun : RunFrom m s.lStartBit.toNat f.toNat i.toNat n.toNat) (hne : i ≠ n)
    (hret : (searchPass m n s).Returns (.inl ⟨f + i, f, i⟩)) (hguard : f + i + n ≤ m.endBit)
    (r : Option U32) : ¬ (loop (searchPass m n) s).Returns r := by
  have hend := toNat_endBit_lt m
  have hin := run_le_endBit hrun
  have hle := hrun.le
  have hshort : i.toNat < n.toNat := by bv_omega
  intro hr
  have hadd : (f + i).toNat = f.toNat + i.toNat := by bv_omega
  obtain hleave | ⟨s', hagain, hrest⟩ := returns_loop_iff.1 hr
  · exact absurd (hleave.unique hret) (by simp)
  · obtain rfl := Sum.inl.inj (hagain.unique hret)
    refine loop_searchPass_diverges (l := f + i) rfl (by bv_omega) hguard (by omega) ?_ ?_ r hrest
    · rw [hadd, ← shut_eq_busy hin]
      exact hrun.busy_eq_false (Nat.le_refl _)
    · rw [hadd, show f.toNat + i.toNat + 1 = f.toNat + 1 + i.toNat by omega]
      exact hrun.stopped hshort

/-- A search for at least one frame. -/
theorem searchCase_of_pos (m : BootMem) {bits : U32} (hpos : 1 ≤ bits.toNat)
    (hlt : bits.toNat < 1048576) : SearchCase m bits := by
  have hstart := toNat_startBit_lt m
  have hend := toNat_endBit_lt m
  have hn : (bits - 1).toNat = bits.toNat - 1 := by bv_omega
  have hne : bits ≠ 0 := by bv_omega
  have hstuck : Stuck m bits ↔
      FirstFit.Stalls m.shut (m.endBit.toNat + 1) m.startBit.toNat bits.toNat :=
    or_iff_left fun h ↦ hne h.1
  by_cases hguard : m.startBit + (bits - 1) ≤ m.endBit
  · rcases searchPass_returns m (s := ⟨m.startBit, kdebugInitVal, kdebugInitVal⟩) hguard with
      ⟨hall, hret⟩ | ⟨f, i, hrun, hret⟩
    · exact .fails (fun h ↦ not_stalls_of_all_busy hall (hstuck.1 h))
        (findFreeBitsRange_all_busy (Or.inl (by omega)) hret)
    · have hrun' := hrun
      rw [hn] at hrun'
      dsimp only at hrun'
      by_cases hin : i = bits - 1
      · rw [if_pos hin] at hret
        subst hin
        rw [hn] at hrun'
        refine .found (fun h ↦ ?_) hpos f hrun' (returns_loop_of_leave hret)
        obtain ⟨f', i', hrun'', hshort, -⟩ := hstuck.1 h
        obtain ⟨-, hi⟩ := hrun'.unique hrun''
        omega
      · rw [if_neg hin] at hret
        have hle := hrun'.le
        have hflt := hrun'.lt
        have hshort : i.toNat + 1 < bits.toNat := by bv_omega
        by_cases hroom : f.toNat + i.toNat + bits.toNat ≤ m.endBit.toNat + 1
        · refine .diverges (hstuck.2 ⟨_, _, hrun', hshort, hroom⟩) fun r ↦
            loop_diverges_of_short hrun hin hret ?_ r
          show (f + i + (bits - 1)).toNat ≤ m.endBit.toNat
          bv_omega
        · refine .fails (fun h ↦ ?_) (returns_loop_of_again hret (loop_searchPass_fails fun h ↦ ?_))
          · obtain ⟨f', i', hrun'', -, hroom'⟩ := hstuck.1 h
            obtain ⟨hf, hi⟩ := hrun'.unique hrun''
            omega
          · have h' : (f + i + (bits - 1)).toNat ≤ m.endBit.toNat := h
            bv_omega
  · refine .fails (fun h ↦ ?_) (loop_searchPass_fails hguard)
    obtain ⟨f, i, hrun, -, hroom⟩ := hstuck.1 h
    have hlo := hrun.lo_le
    refine hguard ?_
    show (m.startBit + (bits - 1)).toNat ≤ m.endBit.toNat
    bv_omega

/-- A search for no frame at all. -/
theorem searchCase_zero (m : BootMem) : SearchCase m 0 := by
  have hstart := toNat_startBit_lt m
  have hend := toNat_endBit_lt m
  have hstuck : Stuck m 0 ↔ 1 ≤ m.startBit.toNat ∧
      ∃ c, m.startBit.toNat ≤ c ∧ c ≤ m.endBit.toNat ∧ m.busy c = false := by
    refine ⟨fun h ↦ ?_, fun h ↦ Or.inr ⟨rfl, h⟩⟩
    rcases h with ⟨_, _, -, hshort, -⟩ | ⟨-, h⟩
    · exact absurd hshort (Nat.not_lt_zero _)
    · exact h
  by_cases hguard : m.startBit + (0 - 1) ≤ m.endBit
  · have hguard' : (m.startBit + (0 - 1)).toNat ≤ m.endBit.toNat := hguard
    have hpos : 1 ≤ m.startBit.toNat := by bv_omega
    rcases searchPass_returns m (s := ⟨m.startBit, kdebugInitVal, kdebugInitVal⟩) hguard with
      ⟨hall, hret⟩ | ⟨f, i, hrun, hret⟩
    · refine .fails (fun h ↦ ?_) (findFreeBitsRange_all_busy (Or.inr rfl) hret)
      obtain ⟨-, c, hc, hle, hfree⟩ := hstuck.1 h
      rw [hall c hc hle] at hfree
      exact absurd hfree (by simp)
    · -- no run is as long as the largest number there is
      have hin := run_le_endBit hrun
      have hlo : m.startBit.toNat ≤ f.toNat := hrun.lo_le
      have hne : i ≠ 0 - 1 := by bv_omega
      rw [if_neg hne] at hret
      have hfree : m.busy f.toNat = false := by
        rw [← shut_eq_busy (by omega)]
        exact hrun.first
      refine .diverges (hstuck.2 ⟨hpos, f.toNat, hlo, by omega, hfree⟩) fun r ↦
        loop_diverges_of_short hrun hne hret ?_ r
      show (f + i + (0 - 1)).toNat ≤ m.endBit.toNat
      bv_omega
  · refine .fails (fun h ↦ ?_) (loop_searchPass_fails hguard)
    obtain ⟨hpos, c, hc, hle, -⟩ := hstuck.1 h
    refine hguard ?_
    show (m.startBit + (0 - 1)).toNat ≤ m.endBit.toNat
    bv_omega

theorem findFreeBitsRange_case (m : BootMem) {bits : U32} (hlt : bits.toNat < 1048576) :
    SearchCase m bits := by
  by_cases hpos : 1 ≤ bits.toNat
  · exact searchCase_of_pos m hpos hlt
  · obtain rfl : bits = 0 := by bv_omega
    exact searchCase_zero m

end Ganoid.Bootmem
