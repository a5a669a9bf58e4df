import Ganoid.Mm.BootmemSearch
import Ganoid.Mm.PageFit

/-!
# Which searches return

Both allocators search with a loop that is meant to end because each candidate it rejects makes the
next search start behind it. The next start is the last frame of the run rejected, though, and not
the frame behind it: the second search finds that frame, counts no follower, and starts from it
again. So the loop ends exactly when the first run is long enough, or the request no longer fits
behind it (`FirstFit.Stalls`), and with the loop the functions that call it.
-/

open Fuelled

namespace Ganoid

/-! ### The page allocator -/

/-- The search of the page allocator never ends. -/
def Stalled (bm : FreeBm) (count : U32) : Prop :=
  FirstFit.Stalls bm.busy numFrames.toNat 0 count.toNat

/-- The search returns exactly when its first run does not stall it. -/
theorem findFreeBitsRange_returns_iff (bm : FreeBm) (count : U32) :
    (∃ r, (findFreeBitsRange bm count).Returns r) ↔ ¬ Stalled bm count := by
  have hframes : numFrames.toNat = 1048576 := toNat_numFrames
  rw [Stalled, hframes]
  rcases findFreeBitsRange_case bm count with ⟨hrange, hret⟩ | ⟨-, -, hbusy, bm', -, -, hret⟩ |
    ⟨hpos, -, f, hrun, bm', -, hret⟩ | ⟨hpos, -, f, i, hrun, -, hend, bm', -, hret⟩ |
    ⟨-, -, f, i, hrun, hshort, hend, hdiv⟩
  · refine iff_of_true ⟨_, hret⟩ ?_
    rintro ⟨f, i, -, hshort, hend⟩
    omega
  · refine iff_of_true ⟨_, hret⟩ ?_
    rintro ⟨f, i, hrun, -, -⟩
    have hfirst := hrun.first
    rw [hbusy f hrun.lt] at hfirst
    exact absurd hfirst (by simp)
  · refine iff_of_true ⟨_, hret⟩ ?_
    rintro ⟨g, i, hrun', hshort, -⟩
    obtain ⟨-, hi⟩ := hrun.unique hrun'
    omega
  · refine iff_of_true ⟨_, hret⟩ ?_
    rintro ⟨g, j, hrun', -, hroom⟩
    obtain ⟨hg, hj⟩ := hrun.unique hrun'
    omega
  · exact iff_of_false (fun ⟨r, hr⟩ ↦ hdiv r hr) fun h ↦
      h ⟨f.toNat, i.toNat, hrun, by omega, by omega⟩

/-- `get_free_pages` returns when its search does. -/
theorem getFreePages_returns_iff (bm : FreeBm) (count : U32) :
    (∃ r, (getFreePages bm count).Returns r) ↔ ¬ Stalled bm count := by
  rw [← findFreeBitsRange_returns_iff]
  constructor
  · rintro ⟨r, hr⟩
    obtain ⟨a, ha, -⟩ := returns_bind_iff.1 hr
    exact ⟨a, ha⟩
  · rintro ⟨⟨found, bm'⟩, hret⟩
    cases found with
    | none => exact ⟨_, getFreePages_of_none hret⟩
    | some f =>
      obtain ⟨hpos, hle, hrun⟩ := firstRun_of_search hret
      have hlt := hrun.lt
      obtain ⟨bm'', hret', -⟩ := getFreePages_of_some hpos (by omega) hret
      exact ⟨_, hret'⟩

end Ganoid

namespace Ganoid.Bootmem

/-! ### The boot memory allocator -/

/-- The search returns exactly when it is not stuck. -/
theorem findFreeBitsRange_returns_iff (m : BootMem) (size : U32) :
    (∃ r, (findFreeBitsRange m (bmBits size)).Returns r) ↔ ¬ Stuck m (bmBits size) := by
  cases findFreeBitsRange_case m (toNat_bmBits_lt size) with
  | fails hend hret => exact iff_of_true ⟨_, hret⟩ hend
  | found hend _ f _ hret => exact iff_of_true ⟨_, hret⟩ hend
  | diverges hstuck hdiv => exact iff_of_false (fun ⟨r, hr⟩ ↦ hdiv r hr) fun h ↦ h hstuck

theorem searchBitInAcnt_eq_none_iff {acnt : List BmAccount} {bit : U32} :
    searchBitInAcnt acnt bit = none ↔ ∀ node ∈ acnt, ¬ node.has bit := by
  induction acnt with
  | nil => simp [searchBitInAcnt]
  | cons s nodes ih =>
    rw [searchBitInAcnt, List.forall_mem_cons, ← ih]
    by_cases hs : s.has bit <;> simp [hs]

/-- `bm_malloc` returns when it has no node for the block, and otherwise when its search does. -/
theorem bmMalloc_returns_iff (m : BootMem) (size : U32) :
    (∃ r, (bmMalloc m size).Returns r) ↔
      (∀ node ∈ m.acnt, ¬ node.has 0) ∨ ¬ Stuck m (bmBits size) := by
  rw [← searchBitInAcnt_eq_none_iff, ← findFreeBitsRange_returns_iff, bmMalloc, searchFreeAcntNode]
  cases searchBitInAcnt m.acnt 0 with
  | none => exact iff_of_true ⟨_, returns_pure _⟩ (Or.inl rfl)
  | some s =>
    have hsome : ¬ some s = none := by simp
    rw [or_iff_right hsome]
    constructor
    · rintro ⟨r, hr⟩
      obtain ⟨found, hfound, -⟩ := returns_bind_iff.1 hr
      exact ⟨found, hfound⟩
    · rintro ⟨found, hret⟩
      cases found with
      | none => exact ⟨_, hret.bind (returns_pure _)⟩
      | some f =>
        have hlt := toNat_bmBits_lt size
        have hend := toNat_endBit_lt m
        obtain ⟨hpos, hin⟩ : 1 ≤ (bmBits size).toNat ∧
            f.toNat + ((bmBits size).toNat - 1) ≤ m.endBit.toNat := by
          cases findFreeBitsRange_case m hlt with
          | fails _ hret' => exact absurd (hret.unique hret') (by simp)
          | diverges _ hdiv => exact absurd hret (hdiv _)
          | found _ hpos f' hrun hret' =>
            obtain rfl := Option.some.inj (hret.unique hret')
            exact ⟨hpos, run_le_endBit hrun⟩
        obtain ⟨m', hmark, -⟩ :=
          @bmSetbitRange_returns m f (f + bmBits size - 1) (by bv_omega) (by bv_omega)
        exact ⟨_, hret.bind (hmark.bind (returns_pure _))⟩

end Ganoid.Bootmem

namespace Ganoid

/-! ### All searches -/

/-- **The searches return exactly when they do not stall**: the search of the page allocator, on
every bitmap and for every count, the two functions that call it, and the search of the boot memory
allocator and the function that calls it, for every heap and every size. -/
theorem searches_return_iff (bm : FreeBm) (m : Bootmem.BootMem) (count size : U32) :
    ((∃ r, (findFreeBitsRange bm count).Returns r) ↔ ¬ Stalled bm count) ∧
      ((∃ r, (getFreePages bm count).Returns r) ↔ ¬ Stalled bm count) ∧
      ((∃ r, (kmalloc bm size).Returns r) ↔ ¬ Stalled bm (kmallocPageCnt size)) ∧
      ((∃ r, (Bootmem.findFreeBitsRange m (Bootmem.bmBits size)).Returns r) ↔
        ¬ Bootmem.Stuck m (Bootmem.bmBits size)) ∧
      ((∃ r, (Bootmem.bmMalloc m size).Returns r) ↔
        (∀ node ∈ m.acnt, ¬ node.has 0) ∨ ¬ Bootmem.Stuck m (Bootmem.bmBits size)) :=
  ⟨findFreeBitsRange_returns_iff bm count, getFreePages_returns_iff bm count,
    getFreePages_returns_iff bm (kmallocPageCnt size), Bootmem.findFreeBitsRange_returns_iff m size,
    Bootmem.bmMalloc_returns_iff m size⟩

/-- A bitmap in which frame 1 is busy and every other frame is free. -/
def secondFrameBusy (i : ℕ) : U32 :=
  if i = 0 then 2 else 0

/-- A heap of 256 frames of which the second is busy. -/
def secondFrameBusyHeap : Bootmem.BootMem where
  bmHeapStart := 0x200000
  bmHeapEnd := 0x2FFFFF
  freeBitmap i := if i = 16 then 2 else 0
  acnt := [⟨0, 0⟩]
  acntI := 0

theorem busy_secondFrameBusy : (freshBm secondFrameBusy).busy 0 = false ∧
    (freshBm secondFrameBusy).busy 1 = true := by
  decide

/-- With its second frame busy, neither allocator returns from a request for two frames. -/
theorem searches_not_return :
    (¬ ∃ r, (findFreeBitsRange (freshBm secondFrameBusy) 2).Returns r) ∧
      (¬ ∃ r, (getFreePages (freshBm secondFrameBusy) 2).Returns r) ∧
      (¬ ∃ r, (kmalloc (freshBm secondFrameBusy) 0x1000).Returns r) ∧
      ¬ ∃ r, (Bootmem.bmMalloc secondFrameBusyHeap 0x2000).Returns r := by
  have hpage : Stalled (freshBm secondFrameBusy) 2 := by
    obtain ⟨hfree, hbusy⟩ := busy_secondFrameBusy
    exact ⟨0, 0, ⟨Nat.le_refl 0, by decide, by simp, hfree, by decide, by simp, fun _ ↦ hbusy⟩,
      by decide, by decide⟩
  have hboot : Bootmem.Stuck secondFrameBusyHeap 2 :=
    Or.inl ⟨512, 0, ⟨by decide, by decide, fun c hc hlt ↦ absurd hc (Nat.not_le_of_lt hlt),
      by decide, by decide, by simp, fun _ ↦ by decide⟩, by decide, by decide⟩
  refine ⟨fun h ↦ (findFreeBitsRange_returns_iff _ _).1 h hpage,
    fun h ↦ (getFreePages_returns_iff _ _).1 h hpage,
    fun h ↦ (getFreePages_returns_iff _ _).1 h hpage,
    fun h ↦ ((Bootmem.bmMalloc_returns_iff _ _).1 h).elim (fun hnode ↦ ?_) fun hend ↦ hend hboot⟩
  exact hnode ⟨0, 0⟩ List.mem_cons_self (by decide)

end Ganoid
