import Ganoid.Mm.PageSearch

/-!
# What the initialization frees

`init_page_allocator` sets every bit and then clears, range by range, the frames of the RAM map. It
always returns, touches only words of the array, and leaves free exactly the frames that some range
clears (`initPageAllocator_returns`).

A free frame should be RAM with all of its bytes and hold nothing of the kernel
(`UsableFrame`). Every range is rounded out to whole frames, and the kernel is cut out of a range
only where the range reaches past it on both sides, so this needs each range to be safe
(`SafeEntry`): what the rounding adds must be RAM for some other range, and a range that is freed
whole must keep off the kernel. `initPageAllocator_usable_iff` says that this is the exact
condition.
-/

open Fuelled

namespace Ganoid

theorem toNat_getPageno (a : U32) : (getPageno a).toNat = a.toNat / 4096 := by
  rw [getPageno, BitVec.toNat_udiv, toNat_pageSize]

theorem toNat_getPageno_lt (a : U32) : (getPageno a).toNat < 1048576 := by
  rw [toNat_getPageno]
  omega

/-! ### Setting all bits -/

/-- The bitmap while and after the first loop sets its words. -/
structure BusyBelow (bm : FreeBm) (x : ℕ) (bm' : FreeBm) : Prop where
  /-- The frames of the first `x` words are busy and the others unchanged. -/
  busy_eq : ∀ b, bm'.busy b = if b < 32 * x then true else bm.busy b
  /-- Only words of the array are accessed. -/
  touched : ∀ i ∈ bm'.touched, i < 32768 ∨ i ∈ bm.touched

theorem busy_store_ones (bm : FreeBm) (i b : ℕ) :
    (bm.store i (~~~0)).busy b = if b / 32 = i then true else bm.busy b := by
  have hones : ∀ k : Fin 32, (~~~0 : U32).getLsbD k = true := by decide
  rw [FreeBm.busy, FreeBm.busy, PackedBits.get, PackedBits.get, FreeBm.store]
  show (Function.update bm.words i (~~~0) (b / 32)).getLsbD (b % 32) = _
  split
  · rename_i h
    rw [h, Function.update_self]
    exact hones ⟨b % 32, Nat.mod_lt b (by omega)⟩
  · rename_i h
    rw [Function.update_of_ne h]

theorem setAllBusy_returns (bm : FreeBm) :
    ∃ bm', (setAllBusy bm).Returns bm' ∧ BusyBelow bm 32768 bm' := by
  refine exists_returns_of_variant
    (fun s : FreeBm × U32 ↦ s.2.toNat ≤ 32768 ∧ BusyBelow bm s.2.toNat s.1)
    (fun bm' ↦ BusyBelow bm 32768 bm') (fun s ↦ 32768 - s.2.toNat) ?_
    ⟨Nat.zero_le _, fun b ↦ (if_neg (Nat.not_lt_zero b)).symm, fun i hi ↦ Or.inr hi⟩
  rintro ⟨cur, x⟩ ⟨hx, hcur⟩
  dsimp only at hx hcur ⊢
  rcases Nat.lt_or_ge x.toNat 32768 with hlt | hge
  · have hnext : (x + 1).toNat = x.toNat + 1 := by bv_omega
    rw [if_pos (show x < uintCnt from hlt)]
    refine Or.inr ⟨_, returns_pure _, ?_, ?_⟩
    · dsimp only
      rw [hnext]
      refine ⟨hlt, fun b ↦ ?_, fun i hi ↦ ?_⟩
      · rw [busy_store_ones, hcur.busy_eq]
        grind
      · rcases List.mem_cons.1 hi with rfl | hi
        · exact Or.inl hlt
        · exact hcur.touched i hi
    · dsimp only
      omega
  · have hx' : x.toNat = 32768 := by omega
    rw [if_neg (show ¬ x < uintCnt from Nat.not_lt.2 hge)]
    exact Or.inl ⟨_, returns_pure _, hx' ▸ hcur⟩

/-! ### Clearing the ranges -/

/-- The frame is one of those that the initialization clears for the range `s`. -/
def ClearedBy (areaStart areaEnd : U32) (s : RamMap) (b : ℕ) : Prop :=
  let nextBlockAddr := s.saddr + s.len
  if s.saddr ≤ areaStart ∧ areaEnd < nextBlockAddr then
    (s.saddr ≠ areaStart ∧
      (getPageno s.saddr).toNat ≤ b ∧ b ≤ (getPageno (areaStart - 1)).toNat) ∨
    ((getPageno (areaEnd + pageSize)).toNat ≤ b ∧ b ≤ (getPageno (nextBlockAddr - 1)).toNat)
  else (getPageno s.saddr).toNat ≤ b ∧ b ≤ (getPageno (nextBlockAddr - 1)).toNat

/-- `bm'` is `bm` with the frames of `C` cleared, reached through words of the array. -/
structure Cleared (bm : FreeBm) (C : ℕ → Prop) (bm' : FreeBm) : Prop where
  busy_iff : ∀ b, bm'.busy b = false ↔ C b ∨ bm.busy b = false
  touched : ∀ i ∈ bm'.touched, i < 32768 ∨ i ∈ bm.touched

theorem Cleared.trans {bm bm₁ bm₂ : FreeBm} {C D : ℕ → Prop} (h : Cleared bm C bm₁)
    (h' : Cleared bm₁ D bm₂) : Cleared bm (fun b ↦ C b ∨ D b) bm₂ where
  busy_iff b := by
    rw [h'.busy_iff, h.busy_iff]
    tauto
  touched i hi := (h'.touched i hi).elim Or.inl (h.touched i)

/-- Clearing the frames from one page to another. -/
theorem fpClearbitRange_cleared (bm : FreeBm) (a a' : U32) :
    ∃ bm', (fpClearbitRange bm (getPageno a) (getPageno a')).Returns bm' ∧
      Cleared bm (fun b ↦ (getPageno a).toNat ≤ b ∧ b ≤ (getPageno a').toNat) bm' := by
  have hlast := toNat_getPageno_lt a'
  obtain ⟨bm', hret, hmark⟩ := @fpClearbitRange_returns bm (getPageno a) (getPageno a') (by omega)
  refine ⟨bm', hret, fun b ↦ ?_, fun i hi ↦ ?_⟩
  · rw [hmark.busy_eq]
    grind
  · rcases (hmark.mem_touched_iff i).1 hi with ⟨c, -, hc, rfl⟩ | hi
    · exact Or.inl (by omega)
    · exact Or.inr hi

theorem initEntry_returns (areaStart areaEnd : U32) (bm : FreeBm) (s : RamMap) :
    ∃ bm', (initEntry areaStart areaEnd bm s).Returns bm' ∧
      Cleared bm (ClearedBy areaStart areaEnd s) bm' := by
  by_cases hin : s.saddr ≤ areaStart ∧ areaEnd < s.saddr + s.len
  · -- a range that reaches past the kernel does not end with it, so the second test always passes
    have hend : s.saddr + s.len ≠ areaEnd := fun h ↦ by
      rw [h] at hin
      exact absurd hin.2 (BitVec.lt_irrefl _)
    obtain ⟨bm₁, hret₁, hbelow⟩ : ∃ bm₁,
        (if s.saddr ≠ areaStart then
          fpClearbitRange bm (getPageno s.saddr) (getPageno (areaStart - 1))
        else pure bm).Returns bm₁ ∧
        Cleared bm (fun b ↦ s.saddr ≠ areaStart ∧ (getPageno s.saddr).toNat ≤ b ∧
          b ≤ (getPageno (areaStart - 1)).toNat) bm₁ := by
      by_cases hstart : s.saddr = areaStart
      · refine ⟨bm, ?_, fun b ↦ ?_, fun i hi ↦ Or.inr hi⟩
        · rw [if_neg (not_not_intro hstart)]
          exact returns_pure bm
        · tauto
      · obtain ⟨bm₁, hret, hclear⟩ := fpClearbitRange_cleared bm s.saddr (areaStart - 1)
        refine ⟨bm₁, ?_, fun b ↦ ?_, hclear.touched⟩
        · rwa [if_pos hstart]
        · rw [hclear.busy_iff]
          tauto
    obtain ⟨bm₂, hret₂, habove⟩ :=
      fpClearbitRange_cleared bm₁ (areaEnd + pageSize) (s.saddr + s.len - 1)
    refine ⟨bm₂, ?_, ?_⟩
    · rw [initEntry, if_pos hin]
      refine hret₁.bind ?_
      rwa [if_pos hend]
    · have h := hbelow.trans habove
      refine ⟨fun b ↦ ?_, h.touched⟩
      rw [h.busy_iff, ClearedBy, if_pos hin]
  · obtain ⟨bm', hret, hclear⟩ := fpClearbitRange_cleared bm s.saddr (s.saddr + s.len - 1)
    refine ⟨bm', ?_, fun b ↦ ?_, hclear.touched⟩
    · rwa [initEntry, if_neg hin]
    · rw [hclear.busy_iff, ClearedBy, if_neg hin]

theorem clearedBy_lt {areaStart areaEnd : U32} {s : RamMap} {b : ℕ}
    (h : ClearedBy areaStart areaEnd s b) : b < 1048576 := by
  have hbelow := toNat_getPageno_lt (areaStart - 1)
  have hlast := toNat_getPageno_lt (s.saddr + s.len - 1)
  rw [ClearedBy] at h
  split at h
  · rcases h with ⟨-, -, h⟩ | ⟨-, h⟩ <;> omega
  · omega

/-- **The initialization** returns, and frees the frames that some range clears and no others. -/
theorem initPageAllocator_returns (bm : FreeBm) (ramMap : List RamMap) (areaStart areaEnd : U32) :
    ∃ bm', (initPageAllocator bm ramMap areaStart areaEnd).Returns bm' ∧
      (∀ b < 1048576, bm'.busy b = false ↔ ∃ s ∈ ramMap, ClearedBy areaStart areaEnd s b) ∧
      ∀ i ∈ bm'.touched, i < 32768 ∨ i ∈ bm.touched := by
  obtain ⟨bm₀, hret₀, hset⟩ := setAllBusy_returns bm
  obtain ⟨bm', hret, hclear⟩ := exists_returns_foldlM
    (fun done bm' ↦ Cleared bm₀ (fun b ↦ ∃ s ∈ done, ClearedBy areaStart areaEnd s b) bm') ramMap
    (fun done s _ cur _ hcur ↦ by
      obtain ⟨next, hret, hnext⟩ := initEntry_returns areaStart areaEnd cur s
      have h := hcur.trans hnext
      refine ⟨next, hret, fun b ↦ ?_, h.touched⟩
      rw [h.busy_iff]
      simp [or_and_right, exists_or])
    ⟨fun b ↦ by simp, fun i hi ↦ Or.inr hi⟩
  refine ⟨bm', hret₀.bind hret, fun b hb ↦ ?_, fun i hi ↦ ?_⟩
  · rw [hclear.busy_iff, hset.busy_eq, if_pos (by omega)]
    simp
  · exact (hclear.touched i hi).elim Or.inl (hset.touched i)

/-! ### Usable frames -/

/-- The addresses of a frame. -/
def frame (b : ℕ) : Set ℕ :=
  {a | 4096 * b ≤ a ∧ a < 4096 * b + 4096}

/-- The addresses that the RAM map reports. -/
def reportedRam (ramMap : List RamMap) : Set ℕ :=
  {a | ∃ s ∈ ramMap, s.Has a}

/-- An address that can be handed out: it is RAM, and not part of the kernel image. -/
def Usable (ramMap : List RamMap) (areaStart areaEnd : U32) (a : ℕ) : Prop :=
  a ∈ reportedRam ramMap ∧ ¬ (areaStart.toNat ≤ a ∧ a < areaEnd.toNat)

/-- Every byte of the frame is usable. -/
def UsableFrame (ramMap : List RamMap) (areaStart areaEnd : U32) (b : ℕ) : Prop :=
  ∀ a ∈ frame b, Usable ramMap areaStart areaEnd a

/-- The first address behind a range, without wrap-around. -/
def RamMap.stop (s : RamMap) : ℕ :=
  s.saddr.toNat + s.len.toNat

/-- What lies between the start of the range and the start of its first frame is RAM too. -/
def HeadInRam (ramMap : List RamMap) (s : RamMap) : Prop :=
  ∀ a, 4096 * (s.saddr.toNat / 4096) ≤ a → a < s.saddr.toNat → a ∈ reportedRam ramMap

/-- What lies between the end of the range and the end of its last frame is RAM too. -/
def TailInRam (ramMap : List RamMap) (s : RamMap) : Prop :=
  ∀ a, s.stop ≤ a → a < 4096 * ((s.stop - 1) / 4096 + 1) → a ∈ reportedRam ramMap

/-- The kernel image lies in the range, which reaches past its end, but not up to 4 GiB. -/
def AroundKernel (areaStart areaEnd : U32) (s : RamMap) : Prop :=
  s.saddr.toNat ≤ areaStart.toNat ∧ areaEnd.toNat < s.stop ∧ s.stop < 2 ^ 32

instance (areaStart areaEnd : U32) (s : RamMap) : Decidable (AroundKernel areaStart areaEnd s) :=
  inferInstanceAs (Decidable (_ ∧ _ ∧ _))

/-- The initialization clears only usable frames for the range.

For a range around the kernel, the kernel must begin a frame where the range has RAM below it, and
must not end in the last frame of the address space; what rounding adds must be RAM, as far as
rounding adds anything. Any other range is freed whole, with what rounding adds to it, and must keep
off the kernel. -/
def SafeEntry (ramMap : List RamMap) (areaStart areaEnd : U32) (s : RamMap) : Prop :=
  if AroundKernel areaStart areaEnd s then
    (s.saddr.toNat < areaStart.toNat → 4096 ∣ areaStart.toNat ∧ HeadInRam ramMap s) ∧
    areaEnd.toNat + 4096 < 2 ^ 32 ∧
    (areaEnd.toNat / 4096 < (s.stop - 1) / 4096 → TailInRam ramMap s)
  else
    HeadInRam ramMap s ∧ TailInRam ramMap s ∧
    (4096 * ((s.stop - 1) / 4096 + 1) ≤ areaStart.toNat ∨
      areaEnd.toNat ≤ 4096 * (s.saddr.toNat / 4096))

/-- Frames in a row are usable when the addresses from the first to the last are. -/
theorem usableFrame_row_iff {ramMap : List RamMap} {areaStart areaEnd : U32} {lo hi : ℕ} :
    (∀ b, lo ≤ b ∧ b ≤ hi → UsableFrame ramMap areaStart areaEnd b) ↔
      ∀ a, 4096 * lo ≤ a → a < 4096 * (hi + 1) → Usable ramMap areaStart areaEnd a := by
  constructor
  · intro h a hlo hhi
    exact h (a / 4096) ⟨by omega, by omega⟩ a ⟨by omega, by omega⟩
  · rintro h b ⟨hlo, hhi⟩ a ⟨ha, ha'⟩
    exact h a (by omega) (by omega)

theorem mem_reportedRam {ramMap : List RamMap} {s : RamMap} (hs : s ∈ ramMap) {a : ℕ}
    (hlo : s.saddr.toNat ≤ a) (hhi : a < s.stop) : a ∈ reportedRam ramMap :=
  ⟨s, hs, hlo, hhi⟩

/-- A range that is freed whole. -/
theorem usable_whole_iff {ramMap : List RamMap} {areaStart areaEnd : U32} {s : RamMap}
    (hs : s ∈ ramMap) (hlen : 1 ≤ s.len.toNat) (harea : areaStart.toNat < areaEnd.toNat) :
    (∀ a, 4096 * (s.saddr.toNat / 4096) ≤ a → a < 4096 * ((s.stop - 1) / 4096 + 1) →
        Usable ramMap areaStart areaEnd a) ↔
      HeadInRam ramMap s ∧ TailInRam ramMap s ∧
      (4096 * ((s.stop - 1) / 4096 + 1) ≤ areaStart.toNat ∨
        areaEnd.toNat ≤ 4096 * (s.saddr.toNat / 4096)) := by
  have hstop : s.stop = s.saddr.toNat + s.len.toNat := rfl
  constructor
  · intro h
    refine ⟨fun a hlo hhi ↦ (h a hlo (by omega)).1, fun a hlo hhi ↦ (h a (by omega) hhi).1, ?_⟩
    by_contra hkernel
    -- the first address that both have is not usable
    have := (h (max areaStart.toNat (4096 * (s.saddr.toNat / 4096))) (by omega) (by omega)).2
    omega
  · rintro ⟨hhead, htail, hkernel⟩ a hlo hhi
    refine ⟨?_, by omega⟩
    rcases Nat.lt_or_ge a s.saddr.toNat with hlt | hge
    · exact hhead a hlo hlt
    · rcases Nat.lt_or_ge a s.stop with hlt | hge'
      · exact mem_reportedRam hs hge hlt
      · exact htail a hge' hhi

/-- The frames below the kernel, of a range around it. -/
theorem usable_below_iff {ramMap : List RamMap} {areaStart areaEnd : U32} {s : RamMap}
    (hs : s ∈ ramMap) (harea : areaStart.toNat < areaEnd.toNat)
    (haround : AroundKernel areaStart areaEnd s) (hlt : s.saddr.toNat < areaStart.toNat) :
    (∀ a, 4096 * (s.saddr.toNat / 4096) ≤ a → a < 4096 * ((areaStart.toNat - 1) / 4096 + 1) →
        Usable ramMap areaStart areaEnd a) ↔
      4096 ∣ areaStart.toNat ∧ HeadInRam ramMap s := by
  obtain ⟨-, hend, -⟩ := haround
  constructor
  · intro h
    refine ⟨?_, fun a hlo hhi ↦ (h a hlo (by omega)).1⟩
    by_contra hdvd
    have := (h areaStart.toNat (by omega) (by omega)).2
    omega
  · rintro ⟨hdvd, hhead⟩ a hlo hhi
    refine ⟨?_, by omega⟩
    rcases Nat.lt_or_ge a s.saddr.toNat with hlt' | hge
    · exact hhead a hlo hlt'
    · exact mem_reportedRam hs hge (by omega)

/-- The frames above the kernel, of a range around it. -/
theorem usable_above_iff {ramMap : List RamMap} {areaStart areaEnd : U32} {s : RamMap}
    (hs : s ∈ ramMap) (haround : AroundKernel areaStart areaEnd s)
    (harea : areaStart.toNat < areaEnd.toNat) :
    (∀ a, 4096 * ((areaEnd.toNat + 4096) / 4096) ≤ a → a < 4096 * ((s.stop - 1) / 4096 + 1) →
        Usable ramMap areaStart areaEnd a) ↔
      (areaEnd.toNat / 4096 < (s.stop - 1) / 4096 → TailInRam ramMap s) := by
  obtain ⟨hstart, hend, -⟩ := haround
  constructor
  · intro h hlt a hlo hhi
    exact (h a (by omega) hhi).1
  · intro htail a hlo hhi
    refine ⟨?_, by omega⟩
    rcases Nat.lt_or_ge a s.stop with hlt | hge
    · exact mem_reportedRam hs (by omega) hlt
    · exact htail (by omega) a hge hhi

/-- The first range of frames that is cleared around the kernel, which is empty where the range
begins with the kernel. -/
theorem below_safe_iff {ramMap : List RamMap} {areaStart areaEnd : U32} {s : RamMap}
    (hs : s ∈ ramMap) (harea : areaStart.toNat < areaEnd.toNat)
    (haround : AroundKernel areaStart areaEnd s) :
    (∀ b, s.saddr ≠ areaStart ∧ s.saddr.toNat / 4096 ≤ b ∧
        b ≤ (getPageno (areaStart - 1)).toNat → UsableFrame ramMap areaStart areaEnd b) ↔
      (s.saddr.toNat < areaStart.toNat → 4096 ∣ areaStart.toNat ∧ HeadInRam ramMap s) := by
  rcases Nat.lt_or_ge s.saddr.toNat areaStart.toNat with hlt | hge
  · have hne : s.saddr ≠ areaStart := fun h ↦ absurd (congrArg BitVec.toNat h) (Nat.ne_of_lt hlt)
    have hlast : (getPageno (areaStart - 1)).toNat = (areaStart.toNat - 1) / 4096 := by
      rw [toNat_getPageno]
      bv_omega
    rw [← usable_below_iff hs harea haround hlt, ← usableFrame_row_iff, hlast]
    exact ⟨fun h _ b hb ↦ h b ⟨hne, hb⟩, fun h b hb ↦ h hlt b hb.2⟩
  · have heq : s.saddr = areaStart := BitVec.eq_of_toNat_eq (Nat.le_antisymm haround.1 hge)
    exact ⟨fun _ hlt ↦ absurd hlt (Nat.not_lt.2 hge), fun _ b hb ↦ absurd heq hb.1⟩

/-- The second range of frames that is cleared around the kernel. Where the kernel ends in the last
frame, its first page number wraps around and the range is all of memory. -/
theorem above_safe_iff {ramMap : List RamMap} {areaStart areaEnd : U32} {s : RamMap}
    (hs : s ∈ ramMap) (harea : areaStart.toNat < areaEnd.toNat)
    (haround : AroundKernel areaStart areaEnd s) :
    (∀ b, (getPageno (areaEnd + pageSize)).toNat ≤ b ∧ b ≤ (s.stop - 1) / 4096 →
        UsableFrame ramMap areaStart areaEnd b) ↔
      areaEnd.toNat + 4096 < 2 ^ 32 ∧
        (areaEnd.toNat / 4096 < (s.stop - 1) / 4096 → TailInRam ramMap s) := by
  have hsize : pageSize.toNat = 4096 := rfl
  rcases Nat.lt_or_ge (areaEnd.toNat + 4096) (2 ^ 32) with hlt | hge
  · have hfirst : (getPageno (areaEnd + pageSize)).toNat = (areaEnd.toNat + 4096) / 4096 := by
      rw [toNat_getPageno]
      bv_omega
    rw [hfirst, usableFrame_row_iff, usable_above_iff hs haround harea]
    exact ⟨fun h ↦ ⟨hlt, h⟩, And.right⟩
  · have hfirst : (getPageno (areaEnd + pageSize)).toNat = 0 := by
      rw [toNat_getPageno]
      bv_omega
    obtain ⟨-, hend, htop⟩ := haround
    refine ⟨fun h ↦ ?_, fun h ↦ absurd h.1 (Nat.not_lt.2 hge)⟩
    have hframe := h (areaStart.toNat / 4096) ⟨by omega, by omega⟩
    have := (hframe areaStart.toNat ⟨by omega, by omega⟩).2
    omega

/-- One range is cleared without harm exactly when it is safe. -/
theorem clearedBy_usable_iff {ramMap : List RamMap} {areaStart areaEnd : U32} {s : RamMap}
    (hs : s ∈ ramMap) (hlen : 1 ≤ s.len.toNat) (hstop : s.stop ≤ 2 ^ 32)
    (harea : areaStart < areaEnd) :
    (∀ b, ClearedBy areaStart areaEnd s b → UsableFrame ramMap areaStart areaEnd b) ↔
      SafeEntry ramMap areaStart areaEnd s := by
  have harea' : areaStart.toNat < areaEnd.toNat := harea
  have hstop_eq : s.stop = s.saddr.toNat + s.len.toNat := rfl
  have hlast : (getPageno (s.saddr + s.len - 1)).toNat = (s.stop - 1) / 4096 := by
    rw [toNat_getPageno]
    bv_omega
  have hfirst : (getPageno s.saddr).toNat = s.saddr.toNat / 4096 := toNat_getPageno _
  by_cases haround : AroundKernel areaStart areaEnd s
  · have hin : s.saddr ≤ areaStart ∧ areaEnd < s.saddr + s.len := by
      obtain ⟨hlo, hhi, htop⟩ := haround
      exact ⟨hlo, by bv_omega⟩
    simp only [ClearedBy, if_pos hin]
    rw [SafeEntry, if_pos haround, hlast, hfirst]
    refine Iff.trans ?_
      (and_congr (below_safe_iff hs harea' haround) (above_safe_iff hs harea' haround))
    exact ⟨fun h ↦ ⟨fun b hb ↦ h b (Or.inl hb), fun b hb ↦ h b (Or.inr hb)⟩,
      fun h b hb ↦ hb.elim (h.1 b) (h.2 b)⟩
  · have hin : ¬ (s.saddr ≤ areaStart ∧ areaEnd < s.saddr + s.len) := fun ⟨hlo, hhi⟩ ↦ by
      refine haround ⟨hlo, ?_, ?_⟩ <;> bv_omega
    rw [SafeEntry, if_neg haround, ← usable_whole_iff hs hlen harea', ← usableFrame_row_iff]
    simp only [ClearedBy, if_neg hin, hlast, hfirst]

/-- **After the initialization every free frame is usable exactly when every range is safe.** -/
theorem initPageAllocator_usable_iff (bm : FreeBm) (ramMap : List RamMap) (areaStart areaEnd : U32)
    (hmap : ∀ s ∈ ramMap, 1 ≤ s.len.toNat ∧ s.saddr.toNat + s.len.toNat ≤ 2 ^ 32)
    (harea : areaStart < areaEnd) :
    ∃ bm', (initPageAllocator bm ramMap areaStart areaEnd).Returns bm' ∧
      ((∀ b < numFrames.toNat, bm'.busy b = false → UsableFrame ramMap areaStart areaEnd b) ↔
        ∀ s ∈ ramMap, SafeEntry ramMap areaStart areaEnd s) := by
  obtain ⟨bm', hret, hfree, -⟩ := initPageAllocator_returns bm ramMap areaStart areaEnd
  refine ⟨bm', hret, fun h s hs ↦ ?_, fun h b hb hbusy ↦ ?_⟩
  · rw [← clearedBy_usable_iff hs (hmap s hs).1 (hmap s hs).2 harea]
    intro b hb
    have hlt := clearedBy_lt hb
    exact h b hlt ((hfree b hlt).2 ⟨s, hs, hb⟩)
  · obtain ⟨s, hs, hcleared⟩ := (hfree b hb).1 hbusy
    exact (clearedBy_usable_iff hs (hmap s hs).1 (hmap s hs).2 harea).2 (h s hs) b hcleared

/-- The map of a machine whose low memory ends in the middle of a frame. -/
def biosMap : List RamMap :=
  [⟨0, 0x9FC00⟩, ⟨0x100000, 0x7EE0000⟩]

/-- The initialization frees the frame in which low memory ends. -/
theorem initPageAllocator_unusable :
    ¬ ∀ (bm bm' : FreeBm) (ramMap : List RamMap) (areaStart areaEnd : U32),
      (∀ s ∈ ramMap, 1 ≤ s.len.toNat ∧ s.saddr.toNat + s.len.toNat ≤ 2 ^ 32) →
      areaStart < areaEnd → (initPageAllocator bm ramMap areaStart areaEnd).Returns bm' →
      ∀ b < numFrames.toNat, bm'.busy b = false → UsableFrame ramMap areaStart areaEnd b := by
  intro h
  obtain ⟨bm', hret, hfree, -⟩ :=
    initPageAllocator_returns ⟨fun _ ↦ 0, []⟩ biosMap 0x100000 0x140000
  have hlow : ClearedBy 0x100000 0x140000 ⟨0, 0x9FC00⟩ 0x9F := by
    rw [ClearedBy]
    decide
  have hbusy : bm'.busy 0x9F = false := (hfree 0x9F (by decide)).2 ⟨_, by decide, hlow⟩
  have hframe := h _ bm' biosMap 0x100000 0x140000 (by decide) (by decide) hret 0x9F (by decide)
    hbusy
  obtain ⟨⟨s, hs, hlo, hhi⟩, -⟩ := hframe 0x9FC00 ⟨by decide, by decide⟩
  rcases List.mem_cons.1 hs with rfl | hs
  · exact absurd hhi (by decide)
  · obtain rfl := List.mem_singleton.1 hs
    exact absurd hlo (by decide)

/-- A map in whole frames, with the kernel at the start of its second range. -/
theorem initPageAllocator_usable_iff_wholeFrames :
    ∃ bm', (initPageAllocator ⟨fun _ ↦ 0, []⟩ [⟨0, 0x9F000⟩, ⟨0x100000, 0x7EE0000⟩]
        0x100000 0x140000).Returns bm' ∧
      ((∀ b < numFrames.toNat, bm'.busy b = false →
          UsableFrame [⟨0, 0x9F000⟩, ⟨0x100000, 0x7EE0000⟩] 0x100000 0x140000 b) ↔
        ∀ s ∈ [⟨0, 0x9F000⟩, ⟨0x100000, 0x7EE0000⟩],
          SafeEntry [⟨0, 0x9F000⟩, ⟨0x100000, 0x7EE0000⟩] 0x100000 0x140000 s) :=
  initPageAllocator_usable_iff _ _ _ _ (by decide) (by decide)

end Ganoid
