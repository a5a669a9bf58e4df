import Ganoid.Arch.Sysinfo
import Ganoid.Mm.PageRun
import Mathlib.Data.Finset.Card

/-!
# From the boot loader's tables to the pages handed out

`kernel_main` reads the boot loader's memory map and then initializes the page allocator from the
RAM map; everything else takes pages from there on. This module puts the three together.

Two facts about runs carry it. No page gets lost: at any time a frame is free exactly when the
initialization freed it and no live block has it (`Accounted`). And no free frame stays out of
reach: a caller who takes page after page gets to it, since every page taken leaves fewer free
frames below it (`exists_run_taking`). So the frames that some run gives to a caller are those that
the initialization freed, but for frame 0, for which the caller gets `NULL`; and whether all of them
are RAM is a question about the memory map alone.
-/

open Fuelled

namespace Ganoid

open Sysinfo

/-! ### No page gets lost -/

/-- The frames are accounted for: a frame is free when the bitmap `bm₀` of the initialization has it
free and no live block has it, and the live blocks were free there. -/
structure Accounted (bm₀ : FreeBm) (s : PageState) : Prop where
  held : Held s.bm s.live
  free_iff : ∀ b < numFrames.toNat,
    s.bm.busy b = false ↔ bm₀.busy b = false ∧ ∀ B ∈ s.live, b ∉ B
  freed : ∀ B ∈ s.live, ∀ b ∈ B, b < numFrames.toNat → bm₀.busy b = false

theorem accounted_start (bm : FreeBm) : Accounted bm ⟨bm, []⟩ where
  held := held_nil bm
  free_iff b _ := by simp
  freed _ hB := absurd hB List.not_mem_nil

/-- The live blocks after a search: those before and, if it succeeded, the block found. -/
theorem mem_hold_iff {live : List (Finset ℕ)} {found : Option U32} {count : U32} {b : ℕ} :
    (∀ B ∈ hold live found count, b ∉ B) ↔ b ∉ block found count ∧ ∀ B ∈ live, b ∉ B := by
  cases found with
  | none => exact (and_iff_right (Finset.notMem_empty b)).symm
  | some f => exact List.forall_mem_cons

/-- The block of a search that succeeded joins the account. -/
theorem Accounted.allocates {bm₀ : FreeBm} {s s' : PageState} {count : U32} {found : Option U32}
    (h : Accounted bm₀ s) (ha : Allocates s count found s') (hheld : Held s'.bm s'.live) :
    Accounted bm₀ s' := by
  obtain ⟨hlive, hframes⟩ := ha
  have hblock : ∀ b ∈ block found count, b < numFrames.toNat → bm₀.busy b = false :=
    fun b hin hb ↦ ((h.free_iff b hb).1 ((hframes b hb).1 hin).1).1
  refine ⟨hheld, fun b hb ↦ ?_, fun B hB b hbB hb ↦ ?_⟩
  · rw [hlive, mem_hold_iff]
    by_cases hin : b ∈ block found count
    · rw [((hframes b hb).1 hin).2]
      tauto
    · rw [(hframes b hb).2 hin, h.free_iff b hb]
      tauto
  · rw [hlive] at hB
    cases found with
    | none => exact h.freed B hB b hbB hb
    | some f =>
      rcases List.mem_cons.1 hB with rfl | hB
      · exact hblock b hbB hb
      · exact h.freed B hB b hbB hb

/-- A page that is freed leaves the account of its block, and no other block has it. -/
theorem Accounted.erase {bm₀ bm bm' : FreeBm} {before after : List (Finset ℕ)} {B : Finset ℕ}
    {p : ℕ} (h : Accounted bm₀ ⟨bm, before ++ B :: after⟩) (hp : p ∈ B)
    (hbusy : ∀ b < numFrames.toNat, bm'.busy b = if b = p then false else bm.busy b)
    (hheld : Held bm' (before ++ B.erase p :: after)) :
    Accounted bm₀ ⟨bm', before ++ B.erase p :: after⟩ := by
  have hB : B ∈ before ++ B :: after := List.mem_append_right _ List.mem_cons_self
  have hsub : ∀ C ∈ before ++ B.erase p :: after, ∃ D ∈ before ++ B :: after, C ⊆ D :=
    fun C hC ↦ by
      rcases List.mem_append.1 hC with hC | hC
      · exact ⟨C, List.mem_append_left _ hC, subset_rfl⟩
      · rcases List.mem_cons.1 hC with rfl | hC
        · exact ⟨B, hB, Finset.erase_subset p B⟩
        · exact ⟨C, List.mem_append_right _ (List.mem_cons_of_mem _ hC), subset_rfl⟩
  refine ⟨hheld, fun b hb ↦ ?_, fun C hC b hbC hb ↦ ?_⟩
  · rw [hbusy b hb]
    rcases eq_or_ne b p with rfl | hne
    · rw [if_pos rfl]
      refine iff_of_true rfl ⟨h.freed B hB b hp hb, fun C hC hbC ↦ ?_⟩
      -- a block that still had the page would have shared it with this one before
      obtain ⟨hdisj, ⟨hafter, -⟩, hcross⟩ := (List.pairwise_append.1 h.held.disjoint).imp_right
        (And.imp_left List.pairwise_cons.1)
      rcases List.mem_append.1 hC with hC | hC
      · exact hcross C hC B List.mem_cons_self b hb hbC hp
      · rcases List.mem_cons.1 hC with rfl | hC
        · exact Finset.notMem_erase b B hbC
        · exact hafter C hC b hb hp hbC
    · rw [if_neg hne]
      refine (h.free_iff b hb).trans (and_congr_right fun _ ↦ ?_)
      simp only [List.forall_mem_append, List.forall_mem_cons, Finset.mem_erase, ne_eq, hne,
        not_false_eq_true, true_and]
  · obtain ⟨D, hD, hCD⟩ := hsub C hC
    exact h.freed D hD b (hCD hbC) hb

/-- **One call** keeps the frames accounted for. -/
theorem PageStep.accounted {bm₀ : FreeBm} {s s' : PageState} {c : PageCall}
    (hstep : PageStep s c s') (h : Accounted bm₀ s) : Accounted bm₀ s' := by
  have hexact := hstep.exact h.held
  have hheld := hstep.held h.held
  cases hstep with
  | getFreePages henv hsearch hret => exact h.allocates hexact.1 hheld
  | kmalloc henv hsearch hret => exact h.allocates hexact.1 hheld
  | kfree henv =>
    exact ⟨hheld, fun b hb ↦ by rw [hexact b hb]; exact h.free_iff b hb, h.freed⟩
  | freeNull henv =>
    refine ⟨hheld, fun b hb ↦ ?_, h.freed⟩
    rw [(hexact b hb).2 fun hne ↦ hne.1 rfl]
    exact h.free_iff b hb
  | freePage henv hptr hmem =>
    refine h.erase hmem (fun b hb ↦ ?_) hheld
    split
    · rename_i heq
      exact ((hexact b hb).1 ⟨hptr, heq⟩).2
    · rename_i hne
      exact (hexact b hb).2 fun h ↦ hne h.2

theorem accounted_run {bm : FreeBm} {r : List (PageCall × PageState)}
    (hrun : Along PageStep ⟨bm, []⟩ r) : Accounted bm (finish ⟨bm, []⟩ r) :=
  hrun.finish_of_invariant (Accounted bm) (fun _ _ _ h hstep ↦ hstep.accounted h)
    (accounted_start bm)

/-- What a caller gets was free, and is not frame 0. -/
theorem PageStep.given_free {s s' : PageState} {c : PageCall} (hstep : PageStep s c s')
    (hheld : Held s.bm s.live) {b : ℕ} (hb : b ∈ c.given) :
    b ≠ 0 ∧ (b < numFrames.toNat → s.bm.busy b = false) := by
  have hexact := hstep.exact hheld
  have hblock : ∀ {bm bm₁ : FreeBm} {count a : U32} {found : Option U32},
      (findFreeBitsRange bm count).Returns (found, bm₁) → a = found.elim 0 pagenoToAddr →
      b ∈ blockAt a count → b ≠ 0 ∧ b ∈ block found count := by
    rintro bm bm₁ count a (_ | f) hsearch rfl hmem
    · exact absurd hmem (Finset.notMem_empty b)
    · obtain ⟨hne, hin⟩ := (mem_blockAt_iff (firstRun_of_search hsearch).2.2.lt).1 hmem
      have hlo := (mem_block_some.1 hin).1
      exact ⟨by bv_omega, hin⟩
  cases hstep with
  | getFreePages henv hsearch hret =>
    obtain ⟨hne, hin⟩ := hblock hsearch hexact.2 hb
    exact ⟨hne, fun hlt ↦ ((hexact.1.2 b hlt).1 hin).1⟩
  | kmalloc henv hsearch hret =>
    obtain ⟨hne, hin⟩ := hblock hsearch hexact.2 hb
    exact ⟨hne, fun hlt ↦ ((hexact.1.2 b hlt).1 hin).1⟩
  | kfree henv => exact absurd hb (Finset.notMem_empty b)
  | freeNull henv => exact absurd hb (Finset.notMem_empty b)
  | freePage henv hptr hmem => exact absurd hb (Finset.notMem_empty b)

/-- **What callers ever get** is what the initialization freed, and not frame 0. -/
theorem given_freed {bm : FreeBm} {r : List (PageCall × PageState)}
    (hrun : Along PageStep ⟨bm, []⟩ r) :
    ∀ x ∈ r, ∀ b ∈ x.1.given, b ≠ 0 ∧ (b < numFrames.toNat → bm.busy b = false) := by
  have h := hrun.invariant (Accounted bm) (fun _ _ _ h hstep ↦ hstep.accounted h)
    (accounted_start bm)
  suffices hsteps : Along (fun _ c _ ↦ ∀ b ∈ PageCall.given c,
      b ≠ 0 ∧ (b < numFrames.toNat → bm.busy b = false)) ⟨bm, []⟩ r from along_label_iff.1 hsteps
  refine h.mono fun s c s' ⟨hstep, hs, _⟩ b hb ↦ ?_
  obtain ⟨hne, hfree⟩ := hstep.given_free hs.held hb
  exact ⟨hne, fun hlt ↦ ((hs.free_iff b hlt).1 (hfree hlt)).1⟩

/-! ### No free frame stays out of reach -/

/-- The search for one page finds the first frame that is free. -/
theorem getFreePages_one {bm : FreeBm} {b : ℕ} (hb : b < 1048576) (hfree : bm.busy b = false) :
    ∃ f bm₁ bm', f.toNat ≤ b ∧ bm.busy f.toNat = false ∧
      (findFreeBitsRange bm 1).Returns (some f, bm₁) ∧
      (getFreePages bm 1).Returns (pagenoToAddr f, bm') := by
  rcases findFreeBitsRange_case bm 1 with ⟨hrange, -⟩ | ⟨-, -, hbusy, -⟩ |
    ⟨hpos, -, f, hrun, bm₁, -, hret⟩ | ⟨-, -, -, i, -, hshort, -⟩ | ⟨-, -, -, i, -, hshort, -⟩
  · exact absurd hrange (by decide)
  · rw [hbusy b hb] at hfree
    exact absurd hfree (by decide)
  · have hlt := hrun.lt
    have hle : f.toNat ≤ b := by
      by_contra hgt
      rw [hrun.below b (Nat.zero_le b) (by omega)] at hfree
      exact absurd hfree (by decide)
    obtain ⟨bm', hret', -⟩ := getFreePages_of_some hpos (by simp; omega) hret
    exact ⟨f, bm₁, bm', hle, hrun.first, hret, hret'⟩
  · exact absurd hshort (Nat.not_lt_zero i.toNat)
  · exact absurd hshort (Nat.not_lt_zero i.toNat)

/-- The free frames up to `b`. -/
def freeUpTo (bm : FreeBm) (b : ℕ) : Finset ℕ :=
  (Finset.range (b + 1)).filter fun c ↦ bm.busy c = false

/-- Taking page after page gets to every free frame but frame 0. -/
theorem exists_run_taking (n : ℕ) : ∀ {s : PageState} {b : ℕ}, Held s.bm s.live → b ≠ 0 →
    b < numFrames.toNat → s.bm.busy b = false → (freeUpTo s.bm b).card = n →
    ∃ r, Along PageStep s r ∧ ∃ x ∈ r, b ∈ x.1.given := by
  induction n using Nat.strong_induction_on with
  | h n ih =>
    rintro ⟨bm, live⟩ b hheld hzero hb hfree hcard
    obtain ⟨f, bm₁, bm', hle, hffree, hsearch, hret⟩ := getFreePages_one hb hfree
    have hstep : PageStep ⟨bm, live⟩ (.getFreePages 1 (some f) (pagenoToAddr f))
        ⟨bm', hold live (some f) 1⟩ := .getFreePages (fun _ _ ↦ rfl) hsearch hret
    obtain ⟨⟨-, hframes⟩, -⟩ := hstep.exact hheld
    have hblock : ∀ c, c ∈ block (some f) 1 ↔ c = f.toNat := fun c ↦ by
      rw [mem_block_some]
      show f.toNat ≤ c ∧ c < f.toNat + 1 ↔ _
      omega
    rcases eq_or_ne b f.toNat with heq | hne
    · refine ⟨[(_, _)], ⟨hstep, trivial⟩, _, List.mem_cons_self, ?_⟩
      exact (mem_blockAt_iff (Nat.lt_of_le_of_lt hle hb)).2
        ⟨fun h ↦ hzero (heq.trans (congrArg BitVec.toNat h)), (hblock b).2 heq⟩
    · -- the page taken was the first free one, so there are fewer up to `b` now
      have hsame : bm'.busy b = false := by
        rw [show bm'.busy b = bm.busy b from (hframes b hb).2 fun h ↦ hne ((hblock b).1 h), hfree]
      have hless : freeUpTo bm' b ⊂ freeUpTo bm b := by
        refine Finset.ssubset_iff_of_subset (fun c hc ↦ ?_) |>.2 ⟨f.toNat, ?_, fun hf ↦ ?_⟩
        · obtain ⟨hcb, hcfree⟩ := Finset.mem_filter.1 hc
          have hcn : c < numFrames.toNat := by
            have := Finset.mem_range.1 hcb
            omega
          refine Finset.mem_filter.2 ⟨hcb, ?_⟩
          by_cases hcf : c ∈ block (some f) 1
          · exact ((hframes c hcn).1 hcf).1
          · rw [← (hframes c hcn).2 hcf]
            exact hcfree
        · exact Finset.mem_filter.2 ⟨Finset.mem_range.2 (by omega), hffree⟩
        · have hbusy := ((hframes f.toNat (by omega)).1 ((hblock _).2 rfl)).2
          exact absurd ((Finset.mem_filter.1 hf).2.symm.trans hbusy) (by decide)
      obtain ⟨r, hr, x, hx, hgiven⟩ := ih _ (hcard ▸ Finset.card_lt_card hless) (hstep.held hheld)
        hzero hb hsame rfl
      exact ⟨(_, _) :: r, ⟨hstep, hr⟩, x, List.mem_cons_of_mem _ hx, hgiven⟩

/-! ### The memory map -/

/-- The ranges of a memory map that is kept do not reach past 4 GiB. -/
theorem stop_le_of_kept {st : Sysinfo} {e : MmapEntry} (hkept : Sysinfo.Kept st e)
    (hlen : e.len.toNat % 2 ^ 32 ≠ 0) :
    1 ≤ (ramMapOf e).len.toNat ∧ (ramMapOf e).saddr.toNat + (ramMapOf e).len.toNat ≤ 2 ^ 32 := by
  show 1 ≤ (low e.len).toNat ∧ (low e.addr).toNat + (low e.len).toNat ≤ 2 ^ 32
  rw [toNat_low, toNat_low]
  refine ⟨Nat.pos_of_ne_zero hlen, ?_⟩
  rcases hkept with ⟨hend, hshort⟩ | hmiss
  · omega
  · split at hmiss
    · -- the last address of the range is an available one
      have hlast := hmiss (e.addr.toNat % 2 ^ 32 + e.len.toNat % 2 ^ 32 - 1)
        (mem_truncated_iff.2 ⟨by omega, by omega⟩)
      have := hlast.1
      omega
    · have := hmiss.1
      omega

/-- The frames that callers get are usable, in every run from the bitmap, and frame 0 is usable if
it is free there. -/
def HandsOutUsable (bm : FreeBm) (ramMap : List RamMap) (areaStart areaEnd : U32) : Prop :=
  (∀ r, Along PageStep ⟨bm, []⟩ r → ∀ x ∈ r, ∀ b ∈ x.1.given,
    b < numFrames.toNat → UsableFrame ramMap areaStart areaEnd b) ∧
  (bm.busy 0 = false → UsableFrame ramMap areaStart areaEnd 0)

/-- Runs hand out the free frames, and no others. -/
theorem handsOutUsable_iff {bm : FreeBm} {ramMap : List RamMap} {areaStart areaEnd : U32} :
    HandsOutUsable bm ramMap areaStart areaEnd ↔
      ∀ b < numFrames.toNat, bm.busy b = false → UsableFrame ramMap areaStart areaEnd b := by
  constructor
  · rintro ⟨h, hzero⟩ b hb hfree
    rcases eq_or_ne b 0 with rfl | hne
    · exact hzero hfree
    · obtain ⟨r, hrun, x, hx, hgiven⟩ :=
        @exists_run_taking _ ⟨bm, []⟩ b (held_nil bm) hne hb hfree rfl
      exact h r hrun x hx b hgiven hb
  · intro h
    exact ⟨fun r hrun x hx b hgiven hb ↦ h b hb ((given_freed hrun x hx b hgiven).2 hb),
      h 0 (by decide)⟩

/-- The frames that the initialization freed are usable exactly when every range is safe. -/
theorem freed_usable_iff {bm : FreeBm} {ramMap : List RamMap} {areaStart areaEnd : U32}
    (hmap : ∀ s ∈ ramMap, 1 ≤ s.len.toNat ∧ s.saddr.toNat + s.len.toNat ≤ 2 ^ 32)
    (harea : areaStart < areaEnd)
    (hfree : ∀ b < 1048576, bm.busy b = false ↔ ∃ s ∈ ramMap, ClearedBy areaStart areaEnd s b) :
    (∀ b < numFrames.toNat, bm.busy b = false → UsableFrame ramMap areaStart areaEnd b) ↔
      ∀ s ∈ ramMap, SafeEntry ramMap areaStart areaEnd s := by
  have hentry : ∀ s ∈ ramMap, (∀ b, ClearedBy areaStart areaEnd s b →
      UsableFrame ramMap areaStart areaEnd b) ↔ SafeEntry ramMap areaStart areaEnd s :=
    fun s hs ↦ clearedBy_usable_iff hs (hmap s hs).1 (hmap s hs).2 harea
  constructor
  · intro h s hs
    refine (hentry s hs).1 fun b hb ↦ ?_
    have hlt := clearedBy_lt hb
    exact h b hlt ((hfree b hlt).2 ⟨s, hs, hb⟩)
  · intro h b hb hbusy
    obtain ⟨s, hs, hcleared⟩ := (hfree b hb).1 hbusy
    exact (hentry s hs).2 (h s hs) b hcleared

end Ganoid
