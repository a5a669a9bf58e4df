import Ganoid.Mm.PageRun

/-!
# The address of frame 0

`get_free_pages` returns `NULL` when its search failed, and `NULL` is also the address of frame 0.
The search assumes that it is never asked to start from there, but it always is, so a block that
starts with frame 0 is handed out as soon as the frames from 0 on are free (`TakesFrameZero`): the
caller is told of a failure, and the frames stay busy. In every other case a failure is one, and
whatever is marked busy has an address that can be given back (`FailsAtomically`).

Whether a machine can ever get there is decided by its initialization. No call frees frame 0 unless
it was handed out, so it is free in some reachable state exactly when a range of the memory map
clears it.
-/

open Fuelled

namespace Ganoid

/-- What `get_free_pages` promises of a return value and the bitmap it leaves. -/
structure AtomicFailure (bm : FreeBm) (count : U32) (r : U32 × FreeBm) : Prop where
  /-- `NULL` is returned exactly when the search found no run. -/
  null_iff : r.1 = 0 ↔ ∃ bm₁, (findFreeBitsRange bm count).Returns (none, bm₁)
  /-- A call that returns `NULL` changes nothing. -/
  unchanged : r.1 = 0 → r.2.words = bm.words
  /-- A frame that was marked busy has an address inside the block by which it can be freed. -/
  named : ∀ b < numFrames.toNat, bm.busy b = false → r.2.busy b = true → r.1 ≠ 0 ∧
    ∃ ptr : U32, r.1.toNat ≤ ptr.toNat ∧
      ptr.toNat < r.1.toNat + pageSize.toNat * count.toNat ∧ (freePage r.2 ptr).busy b = false

/-- Every call for `count` pages that returns keeps that promise. -/
def FailsAtomically (bm : FreeBm) (count : U32) : Prop :=
  ∀ r, (getFreePages bm count).Returns r → AtomicFailure bm count r

/-- The first `count` frames are free. -/
def TakesFrameZero (bm : FreeBm) (count : U32) : Prop :=
  1 ≤ count.toNat ∧ count.toNat ≤ numFrames.toNat ∧ ∀ b < count.toNat, bm.busy b = false

/-- Freeing the address of a page frees its frame. -/
theorem busy_freePage_pagenoToAddr (bm : FreeBm) {b : ℕ} (hpos : 0 < b) (hb : b < 1048576) :
    (freePage bm (pagenoToAddr (BitVec.ofNat 32 b))).busy b = false := by
  have hval : (BitVec.ofNat 32 b).toNat = b := by
    rw [BitVec.toNat_ofNat]
    omega
  have haddr := toNat_pagenoToAddr (f := BitVec.ofNat 32 b) (by omega)
  rw [hval] at haddr
  have hne : pagenoToAddr (BitVec.ofNat 32 b) ≠ 0 := by bv_omega
  rw [freePage, if_pos hne, busy_fpClearbit, toNat_getPageno, haddr, if_pos (by omega)]

/-- A search of free frames from 0 on finds frame 0. -/
theorem search_of_takesFrameZero {bm : FreeBm} {count : U32} (h : TakesFrameZero bm count) :
    ∃ bm₁, (findFreeBitsRange bm count).Returns (some 0, bm₁) := by
  obtain ⟨hpos, hle, hfree⟩ := h
  have hzero : (0 : U32).toNat + count.toNat = count.toNat := Nat.zero_add _
  exact search_of_free hpos (by rw [hzero]; exact hle) (fun b hb ↦ absurd hb (Nat.not_lt_zero b))
    fun b _ hb ↦ hfree b (hzero ▸ hb)

/-- **One call** keeps the promise exactly when it does not hand out frame 0. -/
theorem failsAtomically_iff (bm : FreeBm) (count : U32) :
    FailsAtomically bm count ↔ ¬ TakesFrameZero bm count := by
  constructor
  · intro h hzero
    obtain ⟨bm₁, hsearch⟩ := search_of_takesFrameZero hzero
    obtain ⟨bm', hret, -⟩ := getFreePages_of_some hzero.1 (by simp; omega) hsearch
    obtain ⟨bm₂, hnone⟩ := (h _ hret).null_iff.1 rfl
    exact absurd (hsearch.unique hnone) (by simp)
  · intro hzero r hret
    rcases getFreePages_case hret with ⟨bm', hsearch, hwords⟩ |
      ⟨f, bm₁, bm', hpos, hle, hrun, hsearch, hacc, hmark⟩
    · refine ⟨iff_of_true rfl ⟨bm', hsearch⟩, fun _ ↦ hwords, fun b _ hfree hbusy ↦ ?_⟩
      rw [busy_eq_of_words_eq hwords, hfree] at hbusy
      exact absurd hbusy (by simp)
    · have hlt := hrun.lt
      have haddr := toNat_pagenoToAddr hlt
      have hf : 0 < f.toNat := by
        refine Nat.pos_of_ne_zero fun hf ↦ hzero ⟨hpos, hle, fun b hb ↦ ?_⟩
        have hfree := hrun.busy_eq_false (k := b) (by omega)
        rwa [hf, Nat.zero_add] at hfree
      have hne : pagenoToAddr f ≠ 0 := by bv_omega
      refine ⟨iff_of_false hne fun ⟨_, hnone⟩ ↦ absurd (hsearch.unique hnone) (by simp),
        fun heq ↦ absurd heq hne, fun b hb hfree hbusy ↦ ⟨hne, ?_⟩⟩
      have hb' : b < 1048576 := hb
      have hin : f.toNat ≤ b ∧ b < f.toNat + count.toNat := by
        by_contra hout
        rw [hmark.busy_eq, if_neg hout, busy_eq_of_words_eq hacc.words_eq, hfree] at hbusy
        exact absurd hbusy (by simp)
      have hval : (BitVec.ofNat 32 b).toNat = b := by
        rw [BitVec.toNat_ofNat]
        omega
      have hptr := toNat_pagenoToAddr (f := BitVec.ofNat 32 b) (by omega)
      refine ⟨pagenoToAddr (BitVec.ofNat 32 b), ?_, ?_,
        busy_freePage_pagenoToAddr bm' (by omega) hb'⟩
      · dsimp only
        omega
      · rw [toNat_pageSize]
        dsimp only
        omega

/-! ### Runs -/

/-- Frame 0 is busy, and no block has it. -/
structure ZeroReserved (s : PageState) : Prop where
  busy : s.bm.busy 0 = true
  live : ∀ B ∈ s.live, 0 ∉ B

/-- An allocation takes free frames only. -/
theorem ZeroReserved.of_allocates {s s' : PageState} {count : U32} {found : Option U32}
    (h : ZeroReserved s) (ha : Allocates s count found s') : ZeroReserved s' := by
  obtain ⟨hlive, hframes⟩ := ha
  have hout : 0 ∉ block found count := fun hin ↦ by
    have hfree := ((hframes 0 (by decide)).1 hin).1
    rw [h.busy] at hfree
    exact absurd hfree (by simp)
  refine ⟨(hframes 0 (by decide)).2 hout ▸ h.busy, ?_⟩
  rw [hlive]
  cases found with
  | none => exact h.live
  | some f => exact List.forall_mem_cons.2 ⟨hout, h.live⟩

/-- Frame 0 stays out of use, for it is not freed by anyone who does not hold it. -/
theorem ZeroReserved.step {s s' : PageState} {c : PageCall} (h : ZeroReserved s)
    (hstep : PageStep s c s') : ZeroReserved s' := by
  cases hstep with
  | getFreePages henv hsearch hret => exact h.of_allocates (allocates_of_returns henv hsearch hret).1
  | kmalloc henv hsearch hret => exact h.of_allocates (allocates_of_returns henv hsearch hret).1
  | kfree henv => exact ⟨(henv.busy_eq (by decide)).trans h.busy, h.live⟩
  | freeNull henv => exact ⟨(henv.busy_eq (by decide)).trans h.busy, h.live⟩
  | freePage henv hptr hheld =>
    rename_i bm bm₀ before after B ptr
    have hzero : 0 ∉ B := h.live B (by simp)
    have hne : (0 : ℕ) ≠ (getPageno ptr).toNat := fun heq ↦ hzero (heq ▸ hheld)
    refine ⟨?_, fun C hC hmem ↦ ?_⟩
    · show (Ganoid.freePage bm₀ ptr).busy 0 = true
      rw [Ganoid.freePage, if_pos hptr, busy_fpClearbit, if_neg hne, henv.busy_eq (by decide)]
      exact h.busy
    · rcases List.mem_append.1 hC with hC | hC
      · exact h.live C (by simp [hC]) hmem
      · rcases List.mem_cons.1 hC with rfl | hC
        · exact hzero (Finset.mem_of_mem_erase hmem)
        · exact h.live C (by simp [hC]) hmem

/-- **`NULL` means failure in every reachable state exactly when the initialization leaves frame 0
busy.** In a reachable state of any machine, a call keeps its promise exactly when it does not hand
out frame 0. -/
theorem reachable_failsAtomically_iff (bm bm₁ : FreeBm) (ramMap : List RamMap)
    (areaStart areaEnd : U32) (hinit : (initPageAllocator bm ramMap areaStart areaEnd).Returns bm₁) :
    (∀ r, Along PageStep ⟨bm₁, []⟩ r → ∀ bm₀, SameArray (finish ⟨bm₁, []⟩ r).bm bm₀ →
      ∀ count, FailsAtomically bm₀ count ↔ ¬ TakesFrameZero bm₀ count) ∧
    ((∀ r, Along PageStep ⟨bm₁, []⟩ r → ∀ bm₀, SameArray (finish ⟨bm₁, []⟩ r).bm bm₀ →
      ∀ count, FailsAtomically bm₀ count) ↔
        ∀ s ∈ ramMap, ¬ ClearedBy areaStart areaEnd s 0) := by
  refine ⟨fun r _ bm₀ _ count ↦ failsAtomically_iff bm₀ count, ?_⟩
  obtain ⟨bm₂, hinit', hfree, -⟩ := initPageAllocator_returns bm ramMap areaStart areaEnd
  obtain rfl := hinit.unique hinit'
  constructor
  · intro h s hs hclear
    have hzero : bm₁.busy 0 = false := (hfree 0 (by decide)).2 ⟨s, hs, hclear⟩
    refine (failsAtomically_iff bm₁ 1).1 (h [] trivial bm₁ (fun _ _ ↦ rfl) 1) ?_
    exact ⟨by decide, by decide, fun b hb ↦ (Nat.lt_one_iff.1 hb) ▸ hzero⟩
  · intro h r hrun bm₀ henv count
    have hbusy : bm₁.busy 0 = true := (Bool.not_eq_false _).mp fun hzero ↦ by
      obtain ⟨s, hs, hclear⟩ := (hfree 0 (by decide)).1 hzero
      exact h s hs hclear
    have hreserved := hrun.finish_of_invariant ZeroReserved (fun _ _ _ hs hstep ↦ hs.step hstep)
      ⟨hbusy, fun B hB ↦ absurd hB List.not_mem_nil⟩
    refine (failsAtomically_iff bm₀ count).2 fun ⟨hpos, _, hfree'⟩ ↦ ?_
    have hzero := hfree' 0 hpos
    rw [henv.busy_eq (by decide), hreserved.busy] at hzero
    exact absurd hzero (by simp)

/-- The map of a machine whose memory starts at address 0. -/
def lowMap : List RamMap := [⟨0, 0x9F000⟩, ⟨0x100000, 0x7EE0000⟩]

theorem clearedBy_lowMap : ClearedBy 0x100000 0x140000 ⟨0, 0x9F000⟩ 0 := by
  rw [ClearedBy]
  decide

/-- On such a machine the first page handed out is reported as a failure. -/
theorem not_failsAtomically_lowMap :
    ∃ bm₁, (initPageAllocator ⟨fun _ ↦ 0, []⟩ lowMap 0x100000 0x140000).Returns bm₁ ∧
      ¬ FailsAtomically bm₁ 1 := by
  obtain ⟨bm₁, hinit, hfree, -⟩ :=
    initPageAllocator_returns ⟨fun _ ↦ 0, []⟩ lowMap 0x100000 0x140000
  have hzero : bm₁.busy 0 = false :=
    (hfree 0 (by decide)).2 ⟨_, List.mem_cons_self, clearedBy_lowMap⟩
  refine ⟨bm₁, hinit, fun h ↦ (failsAtomically_iff bm₁ 1).1 h ?_⟩
  exact ⟨by decide, by decide, fun b hb ↦ (Nat.lt_one_iff.1 hb) ▸ hzero⟩

/-- The reachable states of that machine. -/
theorem reachable_failsAtomically_iff_lowMap :
    ∃ bm₁, (initPageAllocator ⟨fun _ ↦ 0, []⟩ lowMap 0x100000 0x140000).Returns bm₁ ∧
      (∀ r, Along PageStep ⟨bm₁, []⟩ r → ∀ bm₀, SameArray (finish ⟨bm₁, []⟩ r).bm bm₀ →
        ∀ count, FailsAtomically bm₀ count ↔ ¬ TakesFrameZero bm₀ count) ∧
      ((∀ r, Along PageStep ⟨bm₁, []⟩ r → ∀ bm₀, SameArray (finish ⟨bm₁, []⟩ r).bm bm₀ →
        ∀ count, FailsAtomically bm₀ count) ↔
          ∀ s ∈ lowMap, ¬ ClearedBy 0x100000 0x140000 s 0) := by
  obtain ⟨bm₁, hinit, -⟩ := initPageAllocator_returns ⟨fun _ ↦ 0, []⟩ lowMap 0x100000 0x140000
  exact ⟨bm₁, hinit, reachable_failsAtomically_iff _ bm₁ lowMap 0x100000 0x140000 hinit⟩

end Ganoid
