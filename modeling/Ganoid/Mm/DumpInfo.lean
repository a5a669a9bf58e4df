import Ganoid.Library.RunLength
import Ganoid.Mm.PageSearch
import Mathlib.Data.List.Forall2

/-!
# The listing of free and busy memory

`dump_free_info` of `mm/page.c`, which lists the ranges of frames in the same state, when the
allocator is built with its messages. Its loop closes a range where the state changes and at the last
frame; but a range ends before the frame at which it is closed, so the last frame is in no range. The
listing is that of all frames but the last (`dumpFreeInfo_returns`), and never that of all of them.
-/

open Fuelled RunLength

namespace Ganoid

/-- A line of the listing: the addresses it prints, the label, and the size. -/
structure FreeInfo where
  startAddr : U32
  endAddr : U32
  busy : Bool
  size : U32

/-- The locals of `dump_free_info`, the bitmap with its log, and the lines printed. -/
structure DumpInfo where
  bm : FreeBm
  lines : List FreeInfo
  start : U32
  initValue : Bool

/-- The body of the loop of `dump_free_info`. -/
def dumpFrame (s : DumpInfo) (bit : U32) : DumpInfo :=
  let (b, bm) := fpGetbit s.bm bit
  if b ≠ s.initValue ∨ bit = lastBitNo then
    let line : FreeInfo :=
      { startAddr := pagenoToAddr s.start
        endAddr := pagenoToAddr bit - 1
        busy := s.initValue
        size := pagenoToAddr bit - pagenoToAddr s.start }
    let (initValue, bm) := fpGetbit bm bit
    { bm := bm, lines := s.lines ++ [line], start := bit, initValue := initValue }
  else { s with bm := bm }

/-- `dump_free_info`. -/
def dumpFreeInfo (bm : FreeBm) : Fuelled DumpInfo :=
  let (initValue, bm) := fpGetbit bm 0
  loop (fun t : DumpInfo × U32 ↦
    if t.2 ≤ lastBitNo then pure (.inl (dumpFrame t.1 t.2, t.2 + 1)) else pure (.inr t.1))
    ({ bm := bm, lines := [], start := 0, initValue := initValue }, 1)

/-! ### The lines -/

/-- The line is about the frames of the run. -/
structure ListsRun (r : Run Bool) (line : FreeInfo) : Prop where
  start_eq : line.startAddr.toNat = 4096 * r.lo
  end_eq : line.endAddr.toNat + 1 = 4096 * r.hi
  busy_eq : line.busy = r.val
  size_eq : line.size.toNat = 4096 * (r.hi - r.lo)

/-- The lines are, in order, those of the runs of equal state among the first `n` frames. -/
def Lists (bm : FreeBm) (n : ℕ) (lines : List FreeInfo) : Prop :=
  ∃ rs, Runs bm.busy n 0 n rs ∧ List.Forall₂ ListsRun rs lines

/-- The state of the loop at a frame: the ranges before `start` have been listed, and the frames
from `start` on are in the state noted. -/
structure Dumping (bm : FreeBm) (bit : ℕ) (s : DumpInfo) (rs : List (Run Bool)) : Prop where
  words_eq : s.bm.words = bm.words
  runs : Runs bm.busy 1048575 0 s.start.toNat rs
  lines : List.Forall₂ ListsRun rs s.lines
  start_lt : s.start.toNat < bit
  same : ∀ c, s.start.toNat ≤ c → c < bit → bm.busy c = s.initValue
  at_end : bit = 1048576 → s.start.toNat = 1048575

/-- A line about the frames between two frame numbers. -/
theorem listsRun_of_lt {lo hi : U32} (hlt : lo.toNat < hi.toNat) (hhi : hi.toNat ≤ 1048575)
    (v : Bool) :
    ListsRun ⟨lo.toNat, hi.toNat, v⟩
      { startAddr := pagenoToAddr lo
        endAddr := pagenoToAddr hi - 1
        busy := v
        size := pagenoToAddr hi - pagenoToAddr lo } := by
  have hmul : ∀ b : U32, b.toNat ≤ 1048575 → (pagenoToAddr b).toNat = 4096 * b.toNat := by
    intro b hb
    rw [pagenoToAddr, pageSize]
    bv_omega
  have hlo := hmul lo (by omega)
  have hhi' := hmul hi hhi
  exact ⟨hlo, by dsimp only; bv_omega, rfl, by dsimp only; bv_omega⟩

/-- **One pass** of the loop. -/
theorem Dumping.step {bm : FreeBm} {s : DumpInfo} {bit : U32} {rs : List (Run Bool)}
    (h : Dumping bm bit.toNat s rs) (hle : bit.toNat ≤ 1048575) :
    ∃ rs', Dumping bm (bit.toNat + 1) (dumpFrame s bit) rs' := by
  have hbusy : s.bm.busy bit.toNat = bm.busy bit.toNat := busy_eq_of_words_eq h.words_eq _
  have htouch : ((s.bm.touch (bit.toNat / 32)).busy bit.toNat) = s.bm.busy bit.toNat := rfl
  have hlast : bit = lastBitNo ↔ bit.toNat = 1048575 := BitVec.toNat_inj.symm
  have hstart := h.start_lt
  rw [dumpFrame, fpGetbit_eq]
  dsimp only
  rw [fpGetbit_eq, htouch, hbusy]
  split
  · rename_i hclose
    refine ⟨rs ++ [⟨s.start.toNat, bit.toNat, s.initValue⟩], h.words_eq, ?_, ?_, ?_, ?_, ?_⟩
    · refine h.runs.concat hstart h.same ?_
      rcases hclose with hne | hend
      · exact Or.inr hne
      · exact Or.inl (hlast.1 hend)
    · exact List.rel_append h.lines (.cons (listsRun_of_lt hstart hle s.initValue) .nil)
    · exact Nat.lt_succ_self _
    · intro c hlo hhi
      obtain rfl : c = bit.toNat := Nat.le_antisymm (Nat.le_of_lt_succ hhi) hlo
      rfl
    · exact fun hend ↦ Nat.succ.inj hend
  · rename_i hopen
    obtain ⟨hsame, hne⟩ := not_or.1 hopen
    refine ⟨rs, h.words_eq, h.runs, h.lines, Nat.lt_succ_of_lt hstart, ?_, ?_⟩
    · intro c hlo hhi
      rcases Nat.lt_succ_iff_lt_or_eq.1 hhi with hlt | rfl
      · exact h.same c hlo hlt
      · exact not_not.1 hsame
    · exact fun hend ↦ absurd (hlast.2 (Nat.succ.inj hend)) hne

/-- **What is listed**: the frames before the last one. -/
theorem dumpFreeInfo_returns (bm : FreeBm) :
    ∃ s, (dumpFreeInfo bm).Returns s ∧ Lists bm 1048575 s.lines := by
  rw [dumpFreeInfo, fpGetbit_eq]
  have hfirst : Dumping bm 1
      { bm := bm.touch 0, lines := [], start := 0, initValue := bm.busy 0 } [] :=
    { words_eq := rfl
      runs := rfl
      lines := .nil
      start_lt := Nat.one_pos
      same := fun c _ hc ↦ by rw [Nat.lt_one_iff.1 hc]
      at_end := fun hend ↦ absurd hend (by decide) }
  obtain ⟨s, hret, rs, hdump⟩ := @exists_returns_upTo _ 32 dumpFrame
    (fun bit t ↦ ∃ rs, Dumping bm bit t rs) 1 lastBitNo (by decide) (by decide)
    (fun bit t _ hle ⟨_, h⟩ ↦ h.step hle) _ ⟨[], hfirst⟩
  have hruns := hdump.runs
  rw [hdump.at_end rfl] at hruns
  exact ⟨s, hret, rs, hruns, hdump.lines⟩

/-- A line says which run it is about. -/
theorem leftUnique_listsRun : Relator.LeftUnique ListsRun := by
  intro r r' line h h'
  have hlo := h.start_eq.symm.trans h'.start_eq
  have hhi := h.end_eq.symm.trans h'.end_eq
  exact Run.ext (by omega) (by omega) (h.busy_eq.symm.trans h'.busy_eq)

/-- A listing is that of one number of frames. -/
theorem Lists.unique {bm : FreeBm} {n n' : ℕ} {lines : List FreeInfo} (h : Lists bm n lines)
    (h' : Lists bm n' lines) : n = n' := by
  obtain ⟨rs, hruns, hlines⟩ := h
  obtain ⟨rs', hruns', hlines'⟩ := h'
  obtain rfl : rs = rs' := leftUnique_listsRun.forall₂ hlines hlines'
  exact hruns.end_unique hruns'

/-- **The listing is of the frames before the last one, never of all frames.** -/
theorem dumpFreeInfo_omits_last (bm : FreeBm) :
    (∃ s, (dumpFreeInfo bm).Returns s ∧ Lists bm lastBitNo.toNat s.lines) ∧
      ∀ s, (dumpFreeInfo bm).Returns s → ¬ Lists bm numFrames.toNat s.lines := by
  obtain ⟨s, hret, hlists⟩ := dumpFreeInfo_returns bm
  refine ⟨⟨s, hret, hlists⟩, fun s' hret' hall ↦ ?_⟩
  rw [hret'.unique hret] at hall
  exact absurd (hlists.unique hall) (by decide)

/-- Frames in runs of four, busy and free in turn: the last one is not listed. -/
theorem dumpFreeInfo_not_lists_runs :
    ¬ ∃ s, (dumpFreeInfo ⟨fun _ ↦ 0x0F0F0F0F, []⟩).Returns s ∧
      Lists ⟨fun _ ↦ 0x0F0F0F0F, []⟩ numFrames.toNat s.lines := by
  rintro ⟨s, hret, hall⟩
  obtain ⟨s', hret', hlists⟩ := dumpFreeInfo_returns ⟨fun _ ↦ 0x0F0F0F0F, []⟩
  rw [hret.unique hret'] at hall
  exact absurd (hlists.unique hall) (by decide)

end Ganoid
