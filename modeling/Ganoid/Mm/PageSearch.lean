import Ganoid.Library.FirstFit
import Ganoid.Mm.Page

/-!
# What the page search computes

One specification lemma for each function of `Ganoid.Mm.Page`, in terms of the frames themselves:
`FreeBm.busy` for the state of a frame and `FreeBm.touched` for the words accessed. Callers use
these lemmas and never unfold the functions.

The outer loop of the search is read off the bitmap's *first run*: its least free frame and the free
frames that follow, counted up to the number asked for. A bitmap has a first run unless every frame
is busy, and the run decides the search after one pass (`findFreeBitsRange_case`):

* a full run is returned, even where it passes the last frame;
* a short run behind which the request no longer fits ends the search;
* any other short run is found again by every later pass, so the search does not return
  (`loop_searchPass_diverges`).
-/

open Fuelled

namespace Ganoid

@[simp] theorem toNat_numBitsPerUint : numBitsPerUint.toNat = 32 := rfl

@[simp] theorem toNat_numFrames : numFrames.toNat = 1048576 := rfl

@[simp] theorem toNat_lastBitNo : lastBitNo.toNat = 1048575 := rfl

@[simp] theorem toNat_uintCnt : uintCnt.toNat = 32768 := rfl

@[simp] theorem toNat_pageSize : pageSize.toNat = 4096 := rfl

/-! ### One bit -/

theorem busy_fpSetbit (bm : FreeBm) (b : U32) (c : ℕ) :
    (fpSetbit bm b).busy c = if c = b.toNat then true else bm.busy c := by
  have hwords : (fpSetbit bm b).words = PackedBits.set bm.words b.toNat := by
    simp [fpSetbit, FreeBm.store, PackedBits.set, ← PackedBits.one_shiftLeft_eq_twoPow]
  rw [FreeBm.busy, hwords, PackedBits.get_set (by omega)]
  by_cases hc : c = b.toNat <;> simp [FreeBm.busy, hc]

theorem touched_fpSetbit (bm : FreeBm) (b : U32) :
    (fpSetbit bm b).touched = b.toNat / 32 :: bm.touched := by
  simp [fpSetbit, FreeBm.store]

theorem busy_fpClearbit (bm : FreeBm) (b : U32) (c : ℕ) :
    (fpClearbit bm b).busy c = if c = b.toNat then false else bm.busy c := by
  have hwords : (fpClearbit bm b).words = PackedBits.clear bm.words b.toNat := by
    simp [fpClearbit, FreeBm.store, PackedBits.clear, ← PackedBits.one_shiftLeft_eq_twoPow]
  rw [FreeBm.busy, hwords, PackedBits.get_clear (by omega)]
  by_cases hc : c = b.toNat <;> simp [FreeBm.busy, hc]

theorem touched_fpClearbit (bm : FreeBm) (b : U32) :
    (fpClearbit bm b).touched = b.toNat / 32 :: bm.touched := by
  simp [fpClearbit, FreeBm.store]

/-- Reading a bit reads the frame's state and accesses the word that holds it. -/
theorem fpGetbit_eq (bm : FreeBm) (b : U32) :
    fpGetbit bm b = (bm.busy b.toNat, bm.touch (b.toNat / 32)) := by
  have hbit := @PackedBits.and_mask_bne_zero 32 (bm.words (b.toNat / 32)) (b.toNat % 32)
    (Nat.mod_lt _ (by omega))
  simp [fpGetbit, FreeBm.busy, PackedBits.get, PackedBits.one_shiftLeft_eq_twoPow, hbit]

/-! ### A range of bits -/

/-- `bm'` is `bm` with the frames `lo ≤ c < hi` marked `v` and the words that hold them
accessed. -/
structure Marked (bm : FreeBm) (lo hi : ℕ) (v : Bool) (bm' : FreeBm) : Prop where
  /-- The frames of the range are marked and no others. -/
  busy_eq : ∀ c, bm'.busy c = if lo ≤ c ∧ c < hi then v else bm.busy c
  /-- The words of the range are accessed and no others. -/
  mem_touched_iff : ∀ i, i ∈ bm'.touched ↔ (∃ c, lo ≤ c ∧ c < hi ∧ i = c / 32) ∨ i ∈ bm.touched

theorem marked_of_le (bm : FreeBm) {lo hi : ℕ} (v : Bool) (h : hi ≤ lo) :
    Marked bm lo hi v bm where
  busy_eq c := by rw [if_neg (by omega)]
  mem_touched_iff i := ⟨Or.inr, fun h' ↦ h'.resolve_left fun ⟨c, _, _, _⟩ ↦ by omega⟩

/-- Marking the next frame extends the range by one. -/
theorem Marked.snoc {bm cur next : FreeBm} {lo b : ℕ} {v : Bool} (h : Marked bm lo b v cur)
    (hlo : lo ≤ b) (hbusy : ∀ c, next.busy c = if c = b then v else cur.busy c)
    (htouched : next.touched = b / 32 :: cur.touched) : Marked bm lo (b + 1) v next where
  busy_eq c := by
    rw [hbusy, h.busy_eq]
    grind
  mem_touched_iff i := by
    rw [htouched, List.mem_cons, h.mem_touched_iff, PackedBits.exists_word_succ_iff hlo, or_assoc]

/-- A range loop that ends below the top of `unsigned` returns, with its range marked. -/
theorem fpBitRange_returns {op : FreeBm → U32 → FreeBm} {v : Bool}
    (hbusy : ∀ bm b c, (op bm b).busy c = if c = b.toNat then v else bm.busy c)
    (htouched : ∀ bm b, (op bm b).touched = b.toNat / 32 :: bm.touched)
    (bm : FreeBm) {startBit endBit : U32} (hend : endBit.toNat < 2 ^ 32 - 1) :
    ∃ bm', (fpBitRange op bm startBit endBit).Returns bm' ∧
      Marked bm startBit.toNat (endBit.toNat + 1) v bm' := by
  -- the frames before the current one are marked; a start behind the end makes the range empty
  by_cases hle : startBit.toNat ≤ endBit.toNat + 1
  · exact exists_returns_upTo (fun b cur ↦ Marked bm startBit.toNat b v cur) hle (by omega)
      (fun b cur hlo _ hmark ↦ hmark.snoc hlo (hbusy cur b) (htouched cur b))
      (marked_of_le bm v (Nat.le_refl _))
  · refine ⟨bm, returns_loop_of_leave ?_, marked_of_le bm v (by omega)⟩
    rw [if_neg (by bv_omega)]
    exact returns_pure _

theorem fpSetbitRange_returns (bm : FreeBm) {startBit endBit : U32}
    (hend : endBit.toNat < 2 ^ 32 - 1) :
    ∃ bm', (fpSetbitRange bm startBit endBit).Returns bm' ∧
      Marked bm startBit.toNat (endBit.toNat + 1) true bm' :=
  fpBitRange_returns busy_fpSetbit touched_fpSetbit bm hend

theorem fpClearbitRange_returns (bm : FreeBm) {startBit endBit : U32}
    (hend : endBit.toNat < 2 ^ 32 - 1) :
    ∃ bm', (fpClearbitRange bm startBit endBit).Returns bm' ∧
      Marked bm startBit.toNat (endBit.toNat + 1) false bm' :=
  fpBitRange_returns busy_fpClearbit touched_fpClearbit bm hend

/-! ### Finding the first free frame -/

/-- The bitmap after looking at the frames `lo ≤ c < hi` and finding them busy. -/
structure Scanned (bm : FreeBm) (lo hi : ℕ) (bm' : FreeBm) : Prop where
  /-- Looking changes no word. -/
  words_eq : bm'.words = bm.words
  /-- Every frame looked at is busy. -/
  busy : ∀ c, lo ≤ c → c < hi → bm.busy c = true
  /-- Only words of the array are accessed. -/
  touched : ∀ i ∈ bm'.touched, i < 32768 ∨ i ∈ bm.touched

/-- An access to a word of the array. -/
theorem Scanned.touch {bm bm' : FreeBm} {lo hi i : ℕ} (h : Scanned bm lo hi bm') (hi' : i < 32768) :
    Scanned bm lo hi (bm'.touch i) where
  words_eq := h.words_eq
  busy := h.busy
  touched := by
    intro k hmem
    rcases List.mem_cons.1 hmem with rfl | hmem
    · exact Or.inl hi'
    · exact h.touched k hmem

/-- One more busy frame. -/
theorem Scanned.snoc {bm bm' : FreeBm} {lo hi : ℕ} (h : Scanned bm lo hi bm')
    (hbusy : bm.busy hi = true) : Scanned bm lo (hi + 1) bm' where
  words_eq := h.words_eq
  busy := by
    intro c hc hlt
    rcases Nat.lt_succ_iff_lt_or_eq.1 hlt with hlt | rfl
    · exact h.busy c hc hlt
    · exact hbusy
  touched := h.touched

theorem busy_eq_of_words_eq {bm bm' : FreeBm} (h : bm'.words = bm.words) (c : ℕ) :
    bm'.busy c = bm.busy c := by
  rw [FreeBm.busy, FreeBm.busy, h]

/-- The locals of the scan point at frame `i`, in bit `k` of word `index`. -/
structure FirstFree.At (s : FirstFree) (k : ℕ) : Prop where
  mask_eq : s.mask = BitVec.twoPow 32 k
  i_eq : s.i.toNat = 32 * s.index.toNat + k

theorem FirstFree.At.masked_eq_zero_iff {s : FirstFree} {k : ℕ} (h : s.At k) (hk : k < 32) :
    s.bm.words s.index.toNat &&& s.mask = 0 ↔ s.bm.busy s.i.toNat = false := by
  exact PackedBits.and_mask_eq_zero_iff_get hk h.mask_eq h.i_eq

/-- What the inner loop of the scan leaves behind: it stopped at the first free frame from `i` on,
or at the end of the word. -/
structure WordScanned (bm : FreeBm) (lo : ℕ) (s : FirstFree) (r : Bool × FirstFree) : Prop where
  index_eq : r.2.index = s.index
  scanned : Scanned bm lo r.2.i.toNat r.2.bm
  le : s.i.toNat ≤ r.2.i.toNat
  found : r.1 = true → r.2.i.toNat < 32 * (s.index.toNat + 1) ∧ bm.busy r.2.i.toNat = false
  exhausted : r.1 = false → r.2.i.toNat = 32 * (s.index.toNat + 1)

/-- The state of the inner loop: it is at bit `j` of the word, or behind it, and every frame before
has been found busy. -/
structure Scanning (bm : FreeBm) (lo : ℕ) (s t : FirstFree) (j : ℕ) : Prop where
  index_eq : t.index = s.index
  le : s.i.toNat ≤ t.i.toNat
  scanned : Scanned bm lo t.i.toNat t.bm
  at_bit : t.At j
  bit_le : j ≤ 32

namespace Scanning

variable {bm : FreeBm} {lo j : ℕ} {s t : FirstFree}

theorem i_eq (h : Scanning bm lo s t j) : t.i.toNat = 32 * s.index.toNat + j := by
  rw [h.at_bit.i_eq, h.index_eq]

/-- The bit is the state of the frame. -/
theorem masked_eq_zero_iff (h : Scanning bm lo s t j) (hj : j < 32) :
    t.bm.words t.index.toNat &&& t.mask = 0 ↔ bm.busy t.i.toNat = false := by
  rw [h.at_bit.masked_eq_zero_iff hj, busy_eq_of_words_eq h.scanned.words_eq]

/-- The mask has been shifted out, so the word is exhausted. -/
theorem exhausted (h : Scanning bm lo s t j) (hj : j = 32) : WordScanned bm lo s (false, t) where
  index_eq := h.index_eq
  scanned := h.scanned
  le := h.le
  found := by simp
  exhausted := by
    intro _
    have hi := h.i_eq
    dsimp only
    omega

/-- A free frame ends the loop. -/
theorem found (h : Scanning bm lo s t j) (hj : j < 32) (hindex : s.index.toNat < 32768)
    (hfree : bm.busy t.i.toNat = false) :
    WordScanned bm lo s (true, { t with bm := t.bm.touch t.index.toNat }) where
  index_eq := h.index_eq
  scanned := h.scanned.touch (h.index_eq ▸ hindex)
  le := h.le
  found := by
    intro _
    have hi := h.i_eq
    exact ⟨by dsimp only; omega, hfree⟩
  exhausted := by simp

/-- A busy frame is passed over. -/
theorem next (h : Scanning bm lo s t j) (hj : j < 32) (hindex : s.index.toNat < 32768)
    (hbusy : bm.busy t.i.toNat = true) :
    Scanning bm lo s
      { t with bm := t.bm.touch t.index.toNat, mask := t.mask <<< 1, i := t.i + 1 } (j + 1) := by
  have hi := h.i_eq
  have hle := h.le
  have hnext : (t.i + 1).toNat = t.i.toNat + 1 := by bv_omega
  refine ⟨h.index_eq, by dsimp only; omega, ?_, ⟨?_, ?_⟩, hj⟩
  · dsimp only
    rw [hnext]
    exact (h.scanned.snoc hbusy).touch (h.index_eq ▸ hindex)
  · dsimp only
    rw [h.at_bit.mask_eq]
    exact PackedBits.twoPow_shiftLeft_one j
  · dsimp only
    rw [hnext, h.index_eq, hi]
    rfl

end Scanning

theorem scanWord_returns {bm : FreeBm} {lo k : ℕ} {s : FirstFree} (hat : s.At k) (hk : k ≤ 32)
    (hi : s.index.toNat < 32768) (hscan : Scanned bm lo s.i.toNat s.bm) :
    ∃ r, (scanWord s).Returns r ∧ WordScanned bm lo s r := by
  refine exists_returns_of_variant (fun t : FirstFree ↦ ∃ j, Scanning bm lo s t j)
    (WordScanned bm lo s) (fun t ↦ 32 * (s.index.toNat + 1) - t.i.toNat) ?_
    ⟨k, rfl, Nat.le_refl _, hscan, hat, hk⟩
  rintro t ⟨j, h⟩
  have hmask : t.mask = 0 ↔ j = 32 := PackedBits.mask_eq_zero_iff h.at_bit.mask_eq h.bit_le
  by_cases hend : j = 32
  · rw [if_pos (hmask.2 hend)]
    exact Or.inl ⟨_, returns_pure _, h.exhausted hend⟩
  · have hj : j < 32 := Nat.lt_of_le_of_ne h.bit_le hend
    rw [if_neg fun hzero ↦ hend (hmask.1 hzero)]
    cases hbusy : bm.busy t.i.toNat with
    | false =>
      rw [if_pos ((h.masked_eq_zero_iff hj).2 hbusy)]
      exact Or.inl ⟨_, returns_pure _, h.found hj hi hbusy⟩
    | true =>
      rw [if_neg fun hzero ↦ absurd ((h.masked_eq_zero_iff hj).1 hzero) (by simp [hbusy])]
      have hnext := h.next hj hi hbusy
      have hi_eq := h.i_eq
      have hi_next := hnext.i_eq
      exact Or.inr ⟨_, returns_pure _, ⟨j + 1, hnext⟩, by dsimp only at hi_next ⊢; omega⟩

/-- The outcome of a search for the first free frame from `lo` on. -/
structure FirstFreeFound (bm : FreeBm) (lo : ℕ) (r : Option U32 × FreeBm) : Prop where
  words_eq : r.2.words = bm.words
  touched : ∀ i ∈ r.2.touched, i < 32768 ∨ i ∈ bm.touched
  found : ∀ f, r.1 = some f → lo ≤ f.toNat ∧ f.toNat < 1048576 ∧ bm.busy f.toNat = false ∧
    ∀ c, lo ≤ c → c < f.toNat → bm.busy c = true
  none : r.1 = none → ∀ c, lo ≤ c → c < 1048576 → bm.busy c = true

/-- `find_first_free` always returns, with the least free frame from its start on. -/
theorem findFirstFree_returns (bm : FreeBm) {start : U32} (hstart : start.toNat < 1048576) :
    ∃ r, (findFirstFree bm start).Returns r ∧ FirstFreeFound bm start.toNat r := by
  -- at the head of the outer loop every frame from the start to `i` has been found busy
  refine exists_returns_of_variant
    (fun s : FirstFree ↦ Scanned bm start.toNat s.i.toNat s.bm ∧ start.toNat ≤ s.i.toNat ∧
      s.i.toNat ≤ 1048576 ∧ ∃ k, k < 32 ∧ s.At k)
    (FirstFreeFound bm start.toNat)
    (fun s ↦ 1048576 - s.i.toNat) ?_ ?_
  · rintro s ⟨hscan, hlo, hhi, k, hk, hat⟩
    have hi_eq := hat.i_eq
    by_cases hlt : s.i < numFrames
    · have hlt' : s.i.toNat < 1048576 := hlt
      obtain ⟨⟨found, t⟩, hret, hword⟩ :=
        scanWord_returns hat (Nat.le_of_lt hk) (by omega) hscan
      have hle : s.i.toNat ≤ t.i.toNat := hword.le
      simp only [hlt, if_true]
      cases found with
      | true =>
        have hlt'' : t.i.toNat < 32 * (s.index.toNat + 1) := (hword.found rfl).1
        have hfree := (hword.found rfl).2
        refine Or.inl ⟨_, hret.bind (returns_pure _), hword.scanned.words_eq,
          hword.scanned.touched, ?_, by simp⟩
        rintro f ⟨⟩
        exact ⟨show start.toNat ≤ t.i.toNat by omega, show t.i.toNat < 1048576 by omega, hfree,
          hword.scanned.busy⟩
      | false =>
        have hend : t.i.toNat = 32 * (s.index.toNat + 1) := hword.exhausted rfl
        have hindex : (t.index + 1).toNat = s.index.toNat + 1 := by
          have : t.index = s.index := hword.index_eq
          bv_omega
        refine Or.inr ⟨_, hret.bind (returns_pure _), ⟨hword.scanned, ?_, ?_, 0, by omega, ?_⟩, ?_⟩
        · show start.toNat ≤ t.i.toNat
          omega
        · show t.i.toNat ≤ 1048576
          omega
        · exact ⟨rfl, show t.i.toNat = 32 * (t.index + 1).toNat + 0 by omega⟩
        · show 1048576 - t.i.toNat < 1048576 - s.i.toNat
          omega
    · have hi : s.i.toNat = 1048576 := by
        have : ¬ s.i.toNat < 1048576 := hlt
        omega
      simp only [hlt, if_false]
      refine Or.inl ⟨_, returns_pure _, hscan.words_eq, hscan.touched, by simp,
        fun _ c hc hlt' ↦ ?_⟩
      exact hscan.busy c hc (by omega)
  · refine ⟨⟨rfl, fun c hc hlt ↦ ?_, fun i hi ↦ Or.inr hi⟩, Nat.le_refl _, by dsimp only; omega,
      start.toNat % 32, Nat.mod_lt _ (by omega), ?_, ?_⟩
    · dsimp only at hlt
      omega
    · simp [PackedBits.one_shiftLeft_eq_twoPow]
    · simp
      omega

/-! ### Counting the frames that follow -/

/-- The verification loop counts the free frames after `f` up to `n`, and accesses exactly the words
of the frames it looked at: those it counted, and the busy one that stopped it. -/
structure Followed (bm : FreeBm) (f n : ℕ) (r : U32 × FreeBm) : Prop where
  words_eq : r.2.words = bm.words
  le : r.1.toNat ≤ n
  free : ∀ j, j < r.1.toNat → bm.busy (f + 1 + j) = false
  stopped : r.1.toNat < n → bm.busy (f + 1 + r.1.toNat) = true
  mem_touched_iff : ∀ i, i ∈ r.2.touched ↔
    (∃ c, f + 1 ≤ c ∧ c < f + 1 + min (r.1.toNat + 1) n ∧ i = c / 32) ∨ i ∈ bm.touched

/-- The state of the verification loop: `i` frames have been counted, they are free, and their words
are those accessed. -/
structure Following (bm : FreeBm) (f n : ℕ) (s : FreeBm × U32 × U32) : Prop where
  words_eq : s.1.words = bm.words
  le : s.2.1.toNat ≤ n
  at_eq : s.2.2.toNat = f + 1 + s.2.1.toNat
  free : ∀ j, j < s.2.1.toNat → bm.busy (f + 1 + j) = false
  mem_touched_iff : ∀ i, i ∈ s.1.touched ↔
    (∃ c, f + 1 ≤ c ∧ c < s.2.2.toNat ∧ i = c / 32) ∨ i ∈ bm.touched

namespace Following

variable {bm cur : FreeBm} {f n : ℕ} {i b : U32}

/-- The frame looked at in a pass joins those accessed before it. -/
theorem mem_touched_touch_iff (h : Following bm f n (cur, i, b)) (w : ℕ) :
    w ∈ (cur.touch (b.toNat / 32)).touched ↔
      (∃ c, f + 1 ≤ c ∧ c < b.toNat + 1 ∧ w = c / 32) ∨ w ∈ bm.touched := by
  have hb : b.toNat = f + 1 + i.toNat := h.at_eq
  have htouched := h.mem_touched_iff w
  dsimp only at htouched
  rw [FreeBm.touched_touch, List.mem_cons, htouched, PackedBits.exists_word_succ_iff (by omega),
    or_assoc]

theorem busy_eq (h : Following bm f n (cur, i, b)) :
    cur.busy b.toNat = bm.busy (f + 1 + i.toNat) := by
  have hb : b.toNat = f + 1 + i.toNat := h.at_eq
  rw [← hb]
  exact busy_eq_of_words_eq h.words_eq _

/-- A busy frame stops the count. -/
theorem stopped (h : Following bm f n (cur, i, b)) (hlt : i.toNat < n)
    (hbusy : cur.busy b.toNat = true) : Followed bm f n (i, cur.touch (b.toNat / 32)) where
  words_eq := h.words_eq
  le := h.le
  free := h.free
  stopped := fun _ ↦ h.busy_eq.symm.trans hbusy
  mem_touched_iff := by
    intro w
    have hb : b.toNat = f + 1 + i.toNat := h.at_eq
    have hend : f + 1 + min (i.toNat + 1) n = b.toNat + 1 := by
      rw [Nat.min_eq_left hlt, hb]
      omega
    dsimp only
    rw [hend]
    exact h.mem_touched_touch_iff w

/-- A free frame is counted. -/
theorem next (h : Following bm f n (cur, i, b)) (hlt : i.toNat < n) (hn : f + 1 + n < 2 ^ 32)
    (hfree : cur.busy b.toNat = false) :
    Following bm f n (cur.touch (b.toNat / 32), i + 1, b + 1) := by
  have hb : b.toNat = f + 1 + i.toNat := h.at_eq
  have hi' : (i + 1).toNat = i.toNat + 1 := by bv_omega
  have hb' : (b + 1).toNat = b.toNat + 1 := by bv_omega
  refine ⟨h.words_eq, by dsimp only; omega, by dsimp only; omega, fun j hj ↦ ?_, fun w ↦ ?_⟩
  · dsimp only at hj
    rcases Nat.lt_succ_iff_lt_or_eq.1 (hi' ▸ hj) with hji | rfl
    · exact h.free j hji
    · exact h.busy_eq.symm.trans hfree
  · dsimp only
    rw [hb']
    exact h.mem_touched_touch_iff w

/-- All frames asked for have been counted. -/
theorem counted (h : Following bm f n (cur, i, b)) (hge : n ≤ i.toNat) :
    Followed bm f n (i, cur) where
  words_eq := h.words_eq
  le := h.le
  free := h.free
  stopped := fun hlt ↦ absurd hge (Nat.not_le_of_lt hlt)
  mem_touched_iff := by
    intro w
    have hb : b.toNat = f + 1 + i.toNat := h.at_eq
    have hi : i.toNat = n := Nat.le_antisymm h.le hge
    have htouched := h.mem_touched_iff w
    dsimp only at htouched ⊢
    rw [htouched, Nat.min_eq_right (by omega), hb, hi]

end Following

theorem countFollowing_returns (bm : FreeBm) {f n : U32} (h : f.toNat + 1 + n.toNat < 2 ^ 32) :
    ∃ r, (countFollowing bm f n).Returns r ∧ Followed bm f.toNat n.toNat r := by
  refine exists_returns_of_variant (Following bm f.toNat n.toNat) (Followed bm f.toNat n.toNat)
    (fun s ↦ n.toNat - s.2.1.toNat) ?_ ?_
  · rintro ⟨cur, i, b⟩ hfollow
    dsimp only
    by_cases hlt : i < n
    · have hlt' : i.toNat < n.toNat := hlt
      have hi : (i + 1).toNat = i.toNat + 1 := by bv_omega
      rw [if_pos hlt, fpGetbit_eq]
      cases hbusy : cur.busy b.toNat with
      | true => exact Or.inl ⟨_, returns_pure _, hfollow.stopped hlt' hbusy⟩
      | false =>
        exact Or.inr ⟨_, returns_pure _, hfollow.next hlt' h hbusy, by dsimp only; omega⟩
    · rw [if_neg hlt]
      exact Or.inl ⟨_, returns_pure _, hfollow.counted (BitVec.not_lt.1 hlt)⟩
  · have hstart : (f + 1).toNat = f.toNat + 1 := by bv_omega
    refine ⟨rfl, Nat.zero_le _, hstart, fun j hj ↦ absurd hj (Nat.not_lt_zero j), fun i ↦ ?_⟩
    refine (or_iff_right ?_).symm
    rintro ⟨c, hc, hcb, -⟩
    dsimp only at hcb
    omega

/-! ### The search -/

/-- A run of the bitmap from `lo` on: its frames below the end of the address space. -/
abbrev RunFrom (bm : FreeBm) (lo f i n : ℕ) : Prop :=
  FirstFit.RunFrom bm.busy 1048576 lo f i n

/-- The first run of the bitmap. -/
abbrev FirstRun (bm : FreeBm) (f i n : ℕ) : Prop :=
  RunFrom bm 0 f i n

/-- The words accessed in finding a run: words of the array, and the words of the frames looked at
behind the first free one. -/
structure RunAccessed (bm : FreeBm) (f i n : ℕ) (bm' : FreeBm) : Prop where
  words_eq : bm'.words = bm.words
  touched : ∀ w ∈ bm'.touched, w < 32768 ∨ w ∈ bm.touched ∨
    ∃ c, f + 1 ≤ c ∧ c < f + 1 + min (i + 1) n ∧ w = c / 32
  mem_touched : ∀ c, f + 1 ≤ c → c < f + 1 + min (i + 1) n → c / 32 ∈ bm'.touched

/-- One pass of the search, from a start at which the request still fits: it finds every frame from
there on busy, or it finds a run and is done or goes on from its end. -/
theorem searchPass_returns (bm : FreeBm) {l n : U32} (hfit : l.toNat + n.toNat ≤ 1048575) :
    (∀ c, l.toNat ≤ c → c < 1048576 → bm.busy c = true) ∧
        (∃ bm', (searchPass n (bm, l)).Returns (.inr (none, bm')) ∧ bm'.words = bm.words ∧
          ∀ w ∈ bm'.touched, w < 32768 ∨ w ∈ bm.touched) ∨
      ∃ f i : U32, RunFrom bm l.toNat f.toNat i.toNat n.toNat ∧
        ∃ bm', RunAccessed bm f.toNat i.toNat n.toNat bm' ∧
          (searchPass n (bm, l)).Returns
            (if i = n then .inr (some f, bm') else .inl (bm', f + i)) := by
  have hguard : l + n ≤ lastBitNo := by
    have : (l + n).toNat = l.toNat + n.toNat := by bv_omega
    show (l + n).toNat ≤ 1048575
    omega
  obtain ⟨⟨found, bm₁⟩, hfirst, hspec⟩ := findFirstFree_returns bm (show l.toNat < 1048576 by omega)
  simp only [searchPass, hguard, if_true]
  cases found with
  | none =>
    exact Or.inl ⟨hspec.none rfl, bm₁, hfirst.bind (returns_pure _), hspec.words_eq,
      hspec.touched⟩
  | some f =>
    obtain ⟨hlo, hlt, hfree, hbelow⟩ := hspec.found f rfl
    obtain ⟨⟨i, bm₂⟩, hcount, hfollow⟩ := countFollowing_returns bm₁ (f := f) (n := n) (by omega)
    have hbusy : ∀ c, bm₁.busy c = bm.busy c := busy_eq_of_words_eq hspec.words_eq
    refine Or.inr ⟨f, i, ⟨hlo, hlt, hbelow, hfree, hfollow.le, fun j hj ↦ ?_, fun hi ↦ ?_⟩, bm₂,
      ⟨hfollow.words_eq.trans hspec.words_eq, fun w hw ↦ ?_, fun c hc hlt' ↦ ?_⟩,
      hfirst.bind (hcount.bind ?_)⟩
    · rw [← hbusy]
      exact hfollow.free j hj
    · rw [← hbusy]
      exact hfollow.stopped hi
    · rcases (hfollow.mem_touched_iff w).1 hw with h | h
      · exact Or.inr (Or.inr h)
      · exact (hspec.touched w h).imp_right Or.inl
    · exact (hfollow.mem_touched_iff _).2 (Or.inl ⟨c, hc, hlt', rfl⟩)
    · by_cases hin : i = n
      · simp only [hin, if_true]
        exact returns_pure _
      · simp only [hin, if_false]
        exact returns_pure _

/-- **The search is decided by the first run.** The five ways a search for `count` frames goes. -/
inductive SearchCase (bm : FreeBm) (count : U32) : Prop
  /-- The request is empty or larger than the address space. -/
  | outOfRange (h : count.toNat = 0 ∨ 1048576 < count.toNat)
      (hret : (findFreeBitsRange bm count).Returns (none, bm))
  /-- No frame is free. -/
  | allBusy (hpos : 1 ≤ count.toNat) (hle : count.toNat ≤ 1048576)
      (hbusy : ∀ c, c < 1048576 → bm.busy c = true)
      (bm' : FreeBm) (hwords : bm'.words = bm.words)
      (htouched : ∀ w ∈ bm'.touched, w < 32768 ∨ w ∈ bm.touched)
      (hret : (findFreeBitsRange bm count).Returns (none, bm'))
  /-- The first run is long enough. -/
  | found (hpos : 1 ≤ count.toNat) (hle : count.toNat ≤ 1048576) (f : U32)
      (hrun : FirstRun bm f.toNat (count.toNat - 1) (count.toNat - 1)) (bm' : FreeBm)
      (hacc : RunAccessed bm f.toNat (count.toNat - 1) (count.toNat - 1) bm')
      (hret : (findFreeBitsRange bm count).Returns (some f, bm'))
  /-- The first run is too short, and so is the rest of the bitmap from its end on. -/
  | runsOut (hpos : 1 ≤ count.toNat) (hle : count.toNat ≤ 1048576) (f i : U32)
      (hrun : FirstRun bm f.toNat i.toNat (count.toNat - 1)) (hshort : i.toNat < count.toNat - 1)
      (hend : 1048576 < f.toNat + i.toNat + count.toNat) (bm' : FreeBm)
      (hacc : RunAccessed bm f.toNat i.toNat (count.toNat - 1) bm')
      (hret : (findFreeBitsRange bm count).Returns (none, bm'))
  /-- The first run is too short, and every later pass finds its last frame again. -/
  | diverges (hpos : 1 ≤ count.toNat) (hle : count.toNat ≤ 1048576) (f i : U32)
      (hrun : FirstRun bm f.toNat i.toNat (count.toNat - 1)) (hshort : i.toNat < count.toNat - 1)
      (hend : f.toNat + i.toNat + count.toNat ≤ 1048576)
      (hdiv : ∀ r, ¬ (findFreeBitsRange bm count).Returns r)

/-- A search that goes on from the last frame of a short run finds that frame again, in every
pass. -/
theorem loop_searchPass_diverges {bm : FreeBm} {l n : U32} (hn : 0 < n.toNat)
    (hfit : l.toNat + n.toNat ≤ 1048575) (hfree : bm.busy l.toNat = false)
    (hstop : bm.busy (l.toNat + 1) = true) (r : Option U32 × FreeBm) :
    ¬ (loop (searchPass n) (bm, l)).Returns r := by
  -- no pass changes a word or moves the start
  refine not_returns_of_invariant (fun s : FreeBm × U32 ↦ s.1.words = bm.words ∧ s.2 = l) ?_
    ⟨rfl, rfl⟩ r
  rintro ⟨cur, l'⟩ ⟨hwords, hl'⟩
  obtain rfl : l' = l := hl'
  have hbusy : ∀ c, cur.busy c = bm.busy c := busy_eq_of_words_eq hwords
  rcases searchPass_returns cur hfit with ⟨hall, -⟩ | ⟨f, i, hrun, bm', hacc, hret⟩
  · have := hall l'.toNat (Nat.le_refl _) (by omega)
    rw [hbusy, hfree] at this
    exact absurd this (by simp)
  · -- the run found is the same frame, followed by none
    obtain ⟨hf, hi⟩ := hrun.eq_of_stopped ((hbusy _).trans hfree) ((hbusy _).trans hstop)
    obtain rfl : f = l' := BitVec.eq_of_toNat_eq hf
    obtain rfl : i = 0 := BitVec.eq_of_toNat_eq hi
    have hne : (0 : U32) ≠ n := by
      rintro rfl
      exact absurd hn (by simp)
    rw [if_neg hne, show f + (0 : U32) = f from BitVec.add_zero f] at hret
    exact ⟨_, hret, hacc.words_eq.trans hwords, rfl⟩

theorem findFreeBitsRange_case (bm : FreeBm) (count : U32) : SearchCase bm count := by
  by_cases hrange : count.toNat = 0 ∨ 1048576 < count.toNat
  · refine .outOfRange hrange (returns_loop_of_leave ?_)
    have hguard : ¬ (0 + (count - 1) ≤ lastBitNo) := by
      intro h
      have : (0 + (count - 1)).toNat ≤ 1048575 := h
      bv_omega
    simp only [searchPass, hguard, if_false]
    exact returns_pure _
  · have hpos : 1 ≤ count.toNat := by omega
    have hle : count.toNat ≤ 1048576 := by omega
    have hn : (count - 1).toNat = count.toNat - 1 := by bv_omega
    have hfit : (0 : U32).toNat + (count - 1).toNat ≤ 1048575 := by
      rw [hn]
      simp
      omega
    rcases searchPass_returns bm hfit with ⟨hall, bm', hret, hwords, htouched⟩ |
      ⟨f, i, hrun, bm', hacc, hret⟩
    · exact .allBusy hpos hle (fun c hc ↦ hall c (Nat.zero_le c) hc) bm' hwords htouched
        (returns_loop_of_leave hret)
    · rw [hn] at hrun hacc
      by_cases hin : i = count - 1
      · rw [if_pos hin] at hret
        rw [hin, hn] at hrun hacc
        exact .found hpos hle f hrun bm' hacc (returns_loop_of_leave hret)
      · rw [if_neg hin] at hret
        have hshort : i.toNat < count.toNat - 1 := by
          have := hrun.le
          bv_omega
        have hf := hrun.lt
        have hadd : (f + i).toNat = f.toNat + i.toNat := by bv_omega
        by_cases hend : 1048576 < f.toNat + i.toNat + count.toNat
        · -- the request no longer fits behind the run
          refine .runsOut hpos hle f i hrun hshort hend bm' hacc
            (returns_loop_of_again hret (returns_loop_of_leave ?_))
          have hguard : ¬ (f + i + (count - 1) ≤ lastBitNo) := by
            intro h
            have h' : (f + i + (count - 1)).toNat ≤ 1048575 := h
            bv_omega
          simp only [searchPass, hguard, if_false]
          exact returns_pure _
        · refine .diverges hpos hle f i hrun hshort (by omega) fun r hr ↦ ?_
          -- the first pass goes on from the run's last frame
          obtain hleave | ⟨s', hagain, hrest⟩ := returns_loop_iff.1 hr
          · exact absurd (hleave.unique hret) (by simp)
          · obtain rfl := Sum.inl.inj (hagain.unique hret)
            have hbusy : ∀ c, bm'.busy c = bm.busy c := busy_eq_of_words_eq hacc.words_eq
            refine loop_searchPass_diverges (by omega) (by omega) ?_ ?_ r hrest
            · rw [hbusy, hadd]
              exact hrun.busy_eq_false (Nat.le_refl _)
            · rw [hbusy, hadd, show f.toNat + i.toNat + 1 = f.toNat + 1 + i.toNat by omega]
              exact hrun.stopped hshort

/-- A search changes no word. -/
theorem words_eq_of_search {bm bm' : FreeBm} {count : U32} {found : Option U32}
    (h : (findFreeBitsRange bm count).Returns (found, bm')) : bm'.words = bm.words := by
  rcases findFreeBitsRange_case bm count with ⟨-, hret⟩ | ⟨-, -, -, _, hwords, -, hret⟩ |
    ⟨-, -, _, -, _, hacc, hret⟩ | ⟨-, -, _, _, -, -, -, _, hacc, hret⟩ | ⟨-, -, _, _, -, -, -, hdiv⟩
  · obtain rfl := (Prod.mk.inj (h.unique hret)).2
    rfl
  · obtain rfl := (Prod.mk.inj (h.unique hret)).2
    exact hwords
  · obtain rfl := (Prod.mk.inj (h.unique hret)).2
    exact hacc.words_eq
  · obtain rfl := (Prod.mk.inj (h.unique hret)).2
    exact hacc.words_eq
  · exact absurd h (hdiv _)

/-- A search that succeeds has found a full first run. -/
theorem firstRun_of_search {bm bm' : FreeBm} {count f : U32}
    (h : (findFreeBitsRange bm count).Returns (some f, bm')) :
    1 ≤ count.toNat ∧ count.toNat ≤ 1048576 ∧
      FirstRun bm f.toNat (count.toNat - 1) (count.toNat - 1) := by
  rcases findFreeBitsRange_case bm count with ⟨-, hret⟩ | ⟨-, -, -, _, -, -, hret⟩ |
    ⟨hpos, hle, g, hrun, _, -, hret⟩ | ⟨-, -, _, _, -, -, -, _, -, hret⟩ |
    ⟨-, -, _, _, -, -, -, hdiv⟩
  · exact absurd (h.unique hret) (by simp)
  · exact absurd (h.unique hret) (by simp)
  · obtain rfl : f = g := Option.some.inj (congrArg Prod.fst (h.unique hret))
    exact ⟨hpos, hle, hrun⟩
  · exact absurd (h.unique hret) (by simp)
  · exact absurd h (hdiv _)

/-- A search finds the first free frame if enough frames are free from there on. -/
theorem search_of_free {bm : FreeBm} {count f : U32} (hpos : 1 ≤ count.toNat)
    (hle : f.toNat + count.toNat ≤ 1048576) (hbelow : ∀ b < f.toNat, bm.busy b = true)
    (hfree : ∀ b, f.toNat ≤ b → b < f.toNat + count.toNat → bm.busy b = false) :
    ∃ bm₁, (findFreeBitsRange bm count).Returns (some f, bm₁) := by
  have hzero := hfree f.toNat (Nat.le_refl _) (by omega)
  -- the first run starts there and is not stopped before the request is full
  have hfirst : ∀ {g i : ℕ}, FirstRun bm g i (count.toNat - 1) →
      g = f.toNat ∧ count.toNat - 1 ≤ i := by
    intro g i hrun
    obtain rfl : g = f.toNat := by
      rcases Nat.lt_trichotomy g f.toNat with hlt | heq | hgt
      · exact absurd (hrun.first.symm.trans (hbelow g hlt)) Bool.false_ne_true
      · exact heq
      · exact absurd (hzero.symm.trans (hrun.below _ (Nat.zero_le _) hgt)) Bool.false_ne_true
    refine ⟨rfl, Nat.le_of_not_lt fun hshort ↦ ?_⟩
    have hstop := hrun.stopped hshort
    rw [hfree _ (by omega) (by omega)] at hstop
    exact absurd hstop Bool.false_ne_true
  rcases findFreeBitsRange_case bm count with ⟨hrange, -⟩ | ⟨-, -, hbusy, -⟩ |
    ⟨-, -, g, hrun, bm₁, -, hret⟩ | ⟨-, -, g, i, hrun, hshort, -⟩ | ⟨-, -, g, i, hrun, hshort, -⟩
  · omega
  · rw [hbusy _ (by omega)] at hzero
    exact absurd hzero.symm Bool.false_ne_true
  · obtain rfl : g = f := BitVec.eq_of_toNat_eq (hfirst hrun).1
    exact ⟨bm₁, hret⟩
  · exact absurd (hfirst hrun).2 (Nat.not_le_of_lt hshort)
  · exact absurd (hfirst hrun).2 (Nat.not_le_of_lt hshort)

/-! ### The block handed out -/

/-- A failed search makes `get_free_pages` return `NULL`. -/
theorem getFreePages_of_none {bm bm₁ : FreeBm} {count : U32}
    (h : (findFreeBitsRange bm count).Returns (none, bm₁)) :
    (getFreePages bm count).Returns (0, bm₁) :=
  h.bind (returns_pure _)

/-- A successful search makes `get_free_pages` mark the block and return its address. -/
theorem getFreePages_of_some {bm bm₁ : FreeBm} {count f : U32} (hpos : 1 ≤ count.toNat)
    (hf : f.toNat + count.toNat < 2 ^ 32)
    (h : (findFreeBitsRange bm count).Returns (some f, bm₁)) :
    ∃ bm', (getFreePages bm count).Returns (pagenoToAddr f, bm') ∧
      Marked bm₁ f.toNat (f.toNat + count.toNat) true bm' := by
  have hlast : (f + count - 1).toNat = f.toNat + count.toNat - 1 := by bv_omega
  obtain ⟨bm', hret, hmark⟩ :=
    @fpSetbitRange_returns bm₁ f (f + count - 1) (by omega)
  rw [hlast, Nat.sub_add_cancel (by omega)] at hmark
  exact ⟨bm', h.bind (hret.bind (returns_pure _)), hmark⟩

/-- What a call of `get_free_pages` that returned has done. -/
inductive GetFreePagesCase (bm : FreeBm) (count : U32) : U32 × FreeBm → Prop
  /-- The search found no run, and the bitmap is unchanged. -/
  | none (bm' : FreeBm) (hsearch : (findFreeBitsRange bm count).Returns (none, bm'))
      (hwords : bm'.words = bm.words) : GetFreePagesCase bm count (0, bm')
  /-- The search found a run of free frames, which are now busy. -/
  | some (f : U32) (bm₁ bm' : FreeBm) (hpos : 1 ≤ count.toNat) (hle : count.toNat ≤ 1048576)
      (hrun : FirstRun bm f.toNat (count.toNat - 1) (count.toNat - 1))
      (hsearch : (findFreeBitsRange bm count).Returns (some f, bm₁))
      (hacc : RunAccessed bm f.toNat (count.toNat - 1) (count.toNat - 1) bm₁)
      (hmark : Marked bm₁ f.toNat (f.toNat + count.toNat) true bm') :
      GetFreePagesCase bm count (pagenoToAddr f, bm')

theorem getFreePages_case {bm : FreeBm} {count : U32} {r : U32 × FreeBm}
    (h : (getFreePages bm count).Returns r) : GetFreePagesCase bm count r := by
  rcases findFreeBitsRange_case bm count with ⟨-, hret⟩ | ⟨-, -, -, bm', hwords, -, hret⟩ |
    ⟨hpos, hle, f, hrun, bm₁, hacc, hret⟩ | ⟨-, -, f, i, -, -, -, bm', hacc, hret⟩ |
    ⟨-, -, f, i, -, -, -, hdiv⟩
  · rw [h.unique (getFreePages_of_none hret)]
    exact .none bm hret rfl
  · rw [h.unique (getFreePages_of_none hret)]
    exact .none bm' hret hwords
  · have hlt := hrun.lt
    obtain ⟨bm', hret', hmark⟩ := getFreePages_of_some hpos (by omega) hret
    rw [h.unique hret']
    exact .some f bm₁ bm' hpos hle hrun hret hacc hmark
  · rw [h.unique (getFreePages_of_none hret)]
    exact .none bm' hret hacc.words_eq
  · obtain ⟨a, ha, -⟩ := returns_bind_iff.1 h
    exact absurd ha (hdiv a)

end Ganoid
