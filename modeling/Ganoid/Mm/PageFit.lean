import Ganoid.Mm.PageSearch

/-!
# First fit and range safety of the page search

The search is meant to hand out the least run of `count` free frames inside the address space, and
to stay inside `free_bm` while it does so (`SearchCorrect`). The bound it tests is that of the scan
position, though, and not that of the free frame found from there. The two differ when the free
frames of the bitmap are exactly its last ones and fewer than the request (`ShortTail`): the scan
position 0 leaves room enough, the first free frame does not, and the verification loop reads past
the end of the array. On every other bitmap the search is correct wherever it returns.
-/

open Fuelled

namespace Ganoid

/-- A bitmap that no function has accessed yet. -/
def freshBm (words : ℕ → U32) : FreeBm where
  words := words
  touched := []

@[simp] theorem words_freshBm (words : ℕ → U32) : (freshBm words).words = words := rfl

@[simp] theorem touched_freshBm (words : ℕ → U32) : (freshBm words).touched = [] := rfl

/-- The purpose of the search, for one search of the bitmap `words` that returned `r`. -/
structure SearchCorrect (words : ℕ → U32) (count : U32) (r : Option U32 × FreeBm) : Prop where
  /-- The search succeeds exactly when some run of `count` frames is free. -/
  isSome_iff : r.1.isSome ↔
    ∃ s, FirstFit.Fits (freshBm words).busy numFrames.toNat count.toNat s
  /-- It returns the least one. -/
  least : ∀ s, r.1 = some s →
    FirstFit.IsFirstFit (freshBm words).busy numFrames.toNat count.toNat s.toNat
  /-- The search never leaves the array. -/
  inBounds : ∀ i ∈ r.2.touched, i < uintCnt.toNat
  /-- Neither does `get_free_pages`, which goes on to mark what was found. -/
  mark_inBounds : ∀ p, (getFreePages (freshBm words) count).Returns p →
    ∀ i ∈ p.2.touched, i < uintCnt.toNat

/-- The free frames are the last ones of the address space, and fewer than the request. -/
def ShortTail (words : ℕ → U32) (count : U32) : Prop :=
  count.toNat ≤ numFrames.toNat ∧ ∃ f, f < numFrames.toNat ∧ numFrames.toNat < f + count.toNat ∧
    (∀ c, c < f → (freshBm words).busy c = true) ∧
    ∀ c, f ≤ c → c < numFrames.toNat → (freshBm words).busy c = false

variable {words : ℕ → U32} {count : U32}

/-- A failed search is correct when nothing fits and it stayed inside the array. -/
theorem searchCorrect_none {bm : FreeBm}
    (hret : (findFreeBitsRange (freshBm words) count).Returns (none, bm))
    (hfit : ∀ s, ¬ FirstFit.Fits (freshBm words).busy 1048576 count.toNat s)
    (htouched : ∀ i ∈ bm.touched, i < 32768) : SearchCorrect words count (none, bm) where
  isSome_iff := ⟨fun h ↦ absurd h (by simp), fun ⟨s, hs⟩ ↦ absurd hs (hfit s)⟩
  least := by simp
  inBounds := htouched
  mark_inBounds p hp := by
    rw [hp.unique (getFreePages_of_none hret)]
    exact htouched

/-- A successful search is correct when its block ends inside the address space. -/
theorem searchCorrect_some {bm : FreeBm} {f : U32} (hpos : 1 ≤ count.toNat)
    (hrun : FirstRun (freshBm words) f.toNat (count.toNat - 1) (count.toNat - 1))
    (hacc : RunAccessed (freshBm words) f.toNat (count.toNat - 1) (count.toNat - 1) bm)
    (hret : (findFreeBitsRange (freshBm words) count).Returns (some f, bm))
    (hend : f.toNat + count.toNat ≤ 1048576) : SearchCorrect words count (some f, bm) := by
  have hfirst := hrun.isFirstFit (by omega)
  rw [Nat.sub_add_cancel hpos] at hfirst
  have htouched : ∀ i ∈ bm.touched, i < 32768 := by
    intro i hi
    rcases hacc.touched i hi with h | h | ⟨c, -, hc, rfl⟩
    · exact h
    · exact absurd h (by simp)
    · omega
  refine ⟨⟨fun _ ↦ ⟨f.toNat, hfirst.1⟩, fun _ ↦ rfl⟩, ?_, htouched, ?_⟩
  · rintro s ⟨⟩
    exact hfirst
  · intro p hp i hi
    obtain ⟨bm', hret', hmark⟩ := getFreePages_of_some hpos (by omega) hret
    rw [hp.unique hret'] at hi
    rcases (hmark.mem_touched_iff i).1 hi with ⟨c, -, hc, rfl⟩ | h
    · show c / 32 < 32768
      omega
    · exact htouched i h

/-- The frames behind a run that ends at the last frame of the address space are a short tail. -/
theorem shortTail_of_run {f i : ℕ} (hle : count.toNat ≤ 1048576)
    (hrun : FirstRun (freshBm words) f i (count.toNat - 1)) (hreach : 1048576 ≤ f + i + 1)
    (hlong : 1048576 < f + count.toNat) : ShortTail words count := by
  refine ⟨hle, f, hrun.lt, hlong, fun c hc ↦ hrun.below c (Nat.zero_le c) hc, fun c hfc hc ↦ ?_⟩
  have hbusy := hrun.busy_eq_false (show c - f ≤ i by simp at hc; omega)
  rwa [show f + (c - f) = c by omega] at hbusy

/-- Outside short tails every search that returns is correct. -/
theorem searchCorrect_of_not_shortTail (htail : ¬ ShortTail words count) (hpos : 1 ≤ count.toNat)
    {r : Option U32 × FreeBm} (hr : (findFreeBitsRange (freshBm words) count).Returns r) :
    SearchCorrect words count r := by
  rcases findFreeBitsRange_case (freshBm words) count with ⟨hrange, hret⟩ |
    ⟨-, -, hbusy, bm, -, htouched, hret⟩ | ⟨-, hle, f, hrun, bm, hacc, hret⟩ |
    ⟨-, hle, f, i, hrun, hshort, hend, bm, hacc, hret⟩ | ⟨-, -, f, i, -, -, -, hdiv⟩
  · rw [hr.unique hret]
    refine searchCorrect_none hret (fun s hs ↦ ?_) (by simp)
    have := hs.1
    omega
  · rw [hr.unique hret]
    refine searchCorrect_none hret (fun s hs ↦ ?_) fun i hi ↦
      (htouched i hi).resolve_right (by simp)
    have hlt := hs.1
    exact FirstFit.not_fits_of_busy (Nat.le_refl s) (by omega) (hbusy s (by omega)) hs
  · rw [hr.unique hret]
    refine searchCorrect_some hpos hrun hacc hret (Nat.le_of_not_lt fun hlong ↦ htail ?_)
    exact shortTail_of_run hle hrun (by omega) hlong
  · rw [hr.unique hret]
    -- the run is stopped by a busy frame of the address space, or it would be a short tail
    have hstop : f.toNat + i.toNat + 1 < 1048576 := by
      refine Nat.lt_of_not_le fun hreach ↦ htail (shortTail_of_run hle hrun hreach (by omega))
    refine searchCorrect_none hret (fun s hs ↦ ?_) fun w hw ↦ ?_
    · refine hrun.not_fits hshort (by omega) (t := s) ?_
      rwa [Nat.sub_add_cancel hpos]
    · rcases hacc.touched w hw with h | h | ⟨c, -, hc, rfl⟩
      · exact h
      · exact absurd h (by simp)
      · omega
  · exact absurd hr (hdiv r)

/-- On a short tail the search returns, and is not correct. -/
theorem not_searchCorrect_of_shortTail (htail : ShortTail words count) (hpos : 1 ≤ count.toNat) :
    ∃ r, (findFreeBitsRange (freshBm words) count).Returns r ∧ ¬ SearchCorrect words count r := by
  obtain ⟨hle, g, hg, hlong, hbelow, habove⟩ := htail
  rw [toNat_numFrames] at hle hg hlong habove
  have hnofit : ∀ s, ¬ FirstFit.Fits (freshBm words).busy 1048576 count.toNat s := by
    intro s hs
    have hend := hs.1
    exact FirstFit.not_fits_of_busy (Nat.le_refl s) (by omega) (hbelow s (by omega)) hs
  -- a run starts at the first frame of the tail
  have hfirst : ∀ {f i}, FirstRun (freshBm words) f i (count.toNat - 1) → f = g := by
    intro f i hrun
    rcases Nat.lt_trichotomy f g with h | h | h
    · have := hbelow f h
      rw [hrun.first] at this
      exact absurd this (by simp)
    · exact h
    · have := hrun.below g (Nat.zero_le g) h
      rw [habove g (Nat.le_refl g) hg] at this
      exact absurd this (by simp)
  rcases findFreeBitsRange_case (freshBm words) count with ⟨hrange, -⟩ | ⟨-, -, hbusy, -⟩ |
    ⟨-, -, f, hrun, bm, -, hret⟩ | ⟨-, -, f, i, hrun, hshort, -, bm, hacc, hret⟩ |
    ⟨-, -, f, i, hrun, hshort, hend, -⟩
  · omega
  · have := hbusy g hg
    rw [habove g (Nat.le_refl g) hg] at this
    exact absurd this (by simp)
  · refine ⟨_, hret, fun hcorrect ↦ ?_⟩
    obtain ⟨s, hs⟩ := hcorrect.isSome_iff.1 rfl
    exact hnofit s hs
  · refine ⟨_, hret, fun hcorrect ↦ ?_⟩
    have hf := hfirst hrun
    -- the frame that stopped the run lies behind the array
    have hreach : 1048576 ≤ f.toNat + 1 + i.toNat := by
      refine Nat.le_of_not_lt fun hlt ↦ ?_
      have := hrun.stopped hshort
      rw [habove _ (by omega) hlt] at this
      exact absurd this (by simp)
    have hmem := hacc.mem_touched (f.toNat + 1 + i.toNat) (by omega) (by omega)
    have := hcorrect.inBounds _ hmem
    simp at this
    omega
  · have hf := hfirst hrun
    have := hrun.stopped hshort
    rw [habove _ (by omega) (by omega)] at this
    exact absurd this (by simp)

/-- **The search is correct exactly outside short tails.** -/
theorem findFreeBitsRange_correct_iff (words : ℕ → U32) (count : U32) (hpos : 1 ≤ count.toNat) :
    (∀ r, (findFreeBitsRange (freshBm words) count).Returns r → SearchCorrect words count r) ↔
      ¬ ShortTail words count := by
  constructor
  · intro h htail
    obtain ⟨r, hr, hnot⟩ := not_searchCorrect_of_shortTail htail hpos
    exact hnot (h r hr)
  · intro htail r hr
    exact searchCorrect_of_not_shortTail htail hpos hr

/-- A bitmap whose only free frame is the last one, with free-looking memory behind it. -/
def lastFrameFree (i : ℕ) : U32 :=
  if i < 32767 then 0xFFFFFFFF else if i = 32767 then 0x7FFFFFFF else 0

theorem busy_lastFrameFree {c : ℕ} (hc : c < 1048575) :
    (freshBm lastFrameFree).busy c = true := by
  have hfull : ∀ k : Fin 32, (0xFFFFFFFF : U32).getLsbD k = true := by decide
  have htop : ∀ k : Fin 31, (0x7FFFFFFF : U32).getLsbD k = true := by decide
  rcases Nat.lt_or_ge (c / 32) 32767 with h | h
  · have hmod : c % 32 < 32 := Nat.mod_lt c (by omega)
    simpa [FreeBm.busy, PackedBits.get, lastFrameFree, h] using hfull ⟨c % 32, hmod⟩
  · have hdiv : c / 32 = 32767 := by omega
    have hmod : c % 32 < 31 := by omega
    simpa [FreeBm.busy, PackedBits.get, lastFrameFree, hdiv] using htop ⟨c % 32, hmod⟩

theorem shortTail_lastFrameFree : ShortTail lastFrameFree 2 := by
  refine ⟨by decide, 1048575, by decide, by decide, fun c hc ↦ busy_lastFrameFree hc,
    fun c hc hlt ↦ ?_⟩
  obtain rfl : c = 1048575 := by
    simp at hlt
    omega
  decide

/-- With only the last frame free, a request for two frames goes wrong. -/
theorem findFreeBitsRange_incorrect :
    ¬ ∀ r, (findFreeBitsRange (freshBm lastFrameFree) 2).Returns r →
      SearchCorrect lastFrameFree 2 r := by
  intro h
  obtain ⟨r, hr, hnot⟩ := not_searchCorrect_of_shortTail shortTail_lastFrameFree (by decide)
  exact hnot (h r hr)

/-- With every frame free, the iff says that the search is correct. -/
theorem findFreeBitsRange_correct_iff_allFree :
    1 ≤ (2 : U32).toNat ∧
      ((∀ r, (findFreeBitsRange (freshBm fun _ ↦ 0) 2).Returns r →
        SearchCorrect (fun _ ↦ 0) 2 r) ↔ ¬ ShortTail (fun _ ↦ 0) 2) :=
  ⟨by decide, findFreeBitsRange_correct_iff (fun _ ↦ 0) 2 (by decide)⟩

end Ganoid
