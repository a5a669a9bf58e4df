import Ganoid.Libc.Strcat
import Ganoid.Library.I386Tables

/-!
# Turning on paging

`init_paging` (`arch/i386/kernel/paging.c`): one page directory with one entry in use, and one page
table with seventeen, for the first 64 kilobytes of the second megabyte and for the video memory.

The directory entry is the one of the kernel's own addresses, while the page table has the numbers
of the frames in it. What is mapped at all is therefore mapped into the first four megabytes, and it
stays where it was exactly if the kernel lies there as well (`initPaging_keeps_iff`).
-/

open Fuelled I386

namespace Ganoid

/-- The addresses of the static variables. The tables are aligned, and they are two. -/
structure PagingLayout where
  pageTable : U32
  pageDirectory : U32
  dummyVariable : U32
  pageTable_aligned : frameOf pageTable = pageTable
  pageDirectory_aligned : frameOf pageDirectory = pageDirectory
  ne : pageTable ≠ pageDirectory

/-- The entries of `init_paging`, written to tables that were cleared. -/
def writeEntries (layout : PagingLayout) (m : Mem) : Mem :=
  let pageDirectoryIndex := (layout.dummyVariable &&& 0xFFC00000) >>> 22
  let m := m.store32 (Mem.word layout.pageDirectory pageDirectoryIndex.toNat)
    (layout.pageTable &&& 0xFFFFF000 ||| 0x1B)
  let m := (List.range' 0x100 0x10).foldl (fun m i ↦
    m.store32 (Mem.word layout.pageTable i) (BitVec.ofNat 32 i <<< 12 ||| 0x013)) m
  m.store32 (Mem.word layout.pageTable 184) 0x000B801B

/-- `init_paging`: memory when paging is turned on, and what `cr3` is then. -/
def initPaging (layout : PagingLayout) (m : Mem) : Fuelled (Mem × U32) := do
  let (m, _) ← memset m layout.pageDirectory 0 4096
  let (m, _) ← memset m layout.pageTable 0 4096
  pure (writeEntries layout m, layout.pageDirectory)

/-- Memory when paging is turned on. -/
def pagingMem (layout : PagingLayout) (m : Mem) : Mem :=
  writeEntries layout ((m.fill layout.pageDirectory 4096 0).fill layout.pageTable 4096 0)

theorem initPaging_returns (layout : PagingLayout) (m : Mem) :
    (initPaging layout m).Returns (pagingMem layout m, layout.pageDirectory) :=
  (memset_returns m layout.pageDirectory 0 4096).bind
    ((memset_returns _ layout.pageTable 0 4096).bind (returns_pure _))

/-- The entries that `init_paging` makes in the page table. -/
def InPageTable (page : ℕ) : Prop :=
  0x100 ≤ page ∧ page < 0x110 ∨ page = 0xB8

instance (page : ℕ) : Decidable (InPageTable page) :=
  inferInstanceAs (Decidable (_ ∨ _))

/-- The page table, for each of its entries. -/
def pageTableEntry (page : ℕ) : U32 :=
  if page = 0xB8 then 0x000B801B
  else if 0x100 ≤ page ∧ page < 0x110 then BitVec.ofNat 32 page <<< 12 ||| 0x013
  else 0

/-- An entry that is in use is the one of the frame with its number. -/
theorem pageTableEntry_spec {page : ℕ} (hpage : page < 2 ^ 10) :
    presentBit (pageTableEntry page) = decide (InPageTable page) ∧
      (InPageTable page → frameOf (pageTableEntry page) = BitVec.ofNat 32 (4096 * page)) := by
  have hall : ∀ i : Fin 16, presentBit (BitVec.ofNat 32 (0x100 + i) <<< 12 ||| 0x013) = true ∧
      frameOf (BitVec.ofNat 32 (0x100 + i) <<< 12 ||| 0x013) =
        BitVec.ofNat 32 (4096 * (0x100 + i)) := by decide
  rcases Decidable.em (page = 0xB8) with hvideo | hvideo
  · subst hvideo
    decide
  rcases Decidable.em (0x100 ≤ page ∧ page < 0x110) with hkernel | hkernel
  · obtain ⟨i, rfl⟩ : ∃ i : Fin 16, page = 0x100 + i := ⟨⟨page - 0x100, by omega⟩, by simp; omega⟩
    obtain ⟨hpresent, hframe⟩ := hall i
    rw [pageTableEntry, if_neg hvideo, if_pos hkernel, hpresent, hframe]
    exact ⟨(decide_eq_true (Or.inl hkernel)).symm, fun _ ↦ rfl⟩
  · have hnot : ¬ InPageTable page := fun h ↦ h.elim hkernel hvideo
    rw [pageTableEntry, if_neg hvideo, if_neg hkernel]
    exact ⟨(decide_eq_false hnot).symm, fun h ↦ absurd h hnot⟩

/-- The number of the directory entry that `init_paging` makes. -/
theorem toNat_pageDirectoryIndex (a : U32) :
    ((a &&& 0xFFC00000) >>> 22).toNat = a.toNat / 2 ^ 22 := by
  have hshift : (a &&& 0xFFC00000) >>> 22 = a >>> 22 := by
    have hmask : ∀ i : Fin 32, (0xFFC00000 : U32).getLsbD i = decide (22 ≤ (i : ℕ)) := by decide
    refine BitVec.eq_of_getLsbD_eq fun i hi ↦ ?_
    simp only [BitVec.getLsbD_ushiftRight, BitVec.getLsbD_and]
    rcases Nat.lt_or_ge (22 + i) 32 with h | h
    · rw [hmask ⟨22 + i, h⟩]
      simp
    · rw [BitVec.getLsbD_of_ge a _ h, Bool.false_and]
  rw [hshift, BitVec.toNat_ushiftRight, Nat.shiftRight_eq_div_pow]

/-- The directory entry leads to the page table. -/
theorem directoryEntry_spec {pageTable : U32} (haligned : frameOf pageTable = pageTable) :
    presentBit (pageTable &&& 0xFFFFF000 ||| 0x1B) = true ∧
      frameOf (pageTable &&& 0xFFFFF000 ||| 0x1B) = pageTable := by
  constructor
  · rw [presentBit, BitVec.getLsbD_or]
    exact Bool.or_true _
  · have hmask : ∀ i : Fin 32, ((0xFFFFF000 : U32).getLsbD i = true →
        (0x1B : U32).getLsbD i = false) := by decide
    refine BitVec.eq_of_getLsbD_eq fun i hi ↦ ?_
    have h := hmask ⟨i, hi⟩
    have hbit := congrArg (fun a ↦ a.getLsbD i) haligned
    simp only [frameOf, BitVec.getLsbD_and, BitVec.getLsbD_or] at hbit ⊢
    grind

/-- **The two tables after `init_paging`.** -/
theorem holdsTable_pagingMem (layout : PagingLayout) (m : Mem) :
    HoldsTable (pagingMem layout m) layout.pageDirectory
        (Function.update (fun _ ↦ 0) (layout.dummyVariable.toNat / 2 ^ 22)
          (layout.pageTable &&& 0xFFFFF000 ||| 0x1B)) ∧
      HoldsTable (pagingMem layout m) layout.pageTable pageTableEntry := by
  have hd := layout.pageDirectory_aligned
  have ht := layout.pageTable_aligned
  have hindex : layout.dummyVariable.toNat / 2 ^ 22 < 2 ^ 10 := by
    have hlt := layout.dummyVariable.isLt
    omega
  have hkernel : ∀ j ∈ List.range' 0x100 0x10, j < 2 ^ 10 := by decide
  have hapart : ∀ q, Mem.InRegion layout.pageDirectory 4096 q →
      ¬ Mem.InRegion layout.pageTable 4096 q := fun q hq hq' ↦
    layout.ne (((inRegion_frame_iff ht).1 hq').symm.trans ((inRegion_frame_iff hd).1 hq))
  dsimp only [pagingMem, writeEntries]
  rw [toNat_pageDirectoryIndex]
  constructor
  · have hcleared : HoldsTable ((m.fill layout.pageDirectory 4096 0).fill layout.pageTable 4096 0)
        layout.pageDirectory fun _ ↦ 0 :=
      (holdsTable_fill m layout.pageDirectory).congr fun q hq ↦
        Mem.fill_of_not_inRegion (hapart q hq)
    exact ((hcleared.store32 hindex _).foldl_store32_of_ne hd ht layout.ne hkernel _).store32_of_ne
      hd ht layout.ne (by decide) _
  · have hcleared := holdsTable_fill (m.fill layout.pageDirectory 4096 0) layout.pageTable
    have hentries := ((hcleared.store32_of_ne ht hd layout.ne.symm hindex
      (layout.pageTable &&& 0xFFFFF000 ||| 0x1B)).foldl_store32 hkernel fun i ↦
        BitVec.ofNat 32 i <<< 12 ||| 0x013).store32 (j := 184) (by decide) 0x000B801B
    intro k hk
    rw [hentries k hk, Function.update_apply, pageTableEntry]
    exact if_congr Iff.rfl rfl (if_congr List.mem_range'_1 rfl rfl)

/-- The page walk over the two tables, wherever they are. -/
theorem translate_of_pagingTables (layout : PagingLayout) {m : Mem}
    (hdirectory : HoldsTable m layout.pageDirectory
      (Function.update (fun _ ↦ 0) (layout.dummyVariable.toNat / 2 ^ 22)
        (layout.pageTable &&& 0xFFFFF000 ||| 0x1B)))
    (htable : HoldsTable m layout.pageTable pageTableEntry) (linear : U32) :
    translate m layout.pageDirectory linear =
      if linear.toNat / 2 ^ 22 = layout.dummyVariable.toNat / 2 ^ 22 ∧
        InPageTable (linear.toNat / 2 ^ 12 % 2 ^ 10) then
        some (BitVec.ofNat 32 (linear.toNat % 2 ^ 22))
      else none := by
  obtain ⟨hpresent, hframe⟩ := directoryEntry_spec layout.pageTable_aligned
  rw [← layout.pageDirectory_aligned] at hdirectory
  rcases Decidable.em (linear.toNat / 2 ^ 22 = layout.dummyVariable.toNat / 2 ^ 22) with heq | hne
  · have hpage : linear.toNat / 2 ^ 12 % 2 ^ 10 < 2 ^ 10 := Nat.mod_lt _ (by decide)
    obtain ⟨hused, hwhere⟩ := pageTableEntry_spec hpage
    rw [translate_of_holdsTable hdirectory (t := pageTableEntry), heq, Function.update_self,
      hpresent, hused]
    · have hsplit : 4096 * (linear.toNat / 2 ^ 12 % 2 ^ 10) + linear.toNat % 2 ^ 12 =
          linear.toNat % 2 ^ 22 := by omega
      by_cases hmapped : InPageTable (linear.toNat / 2 ^ 12 % 2 ^ 10)
      · rw [if_pos ⟨rfl, decide_eq_true hmapped⟩, if_pos ⟨rfl, hmapped⟩, hwhere hmapped,
          ← BitVec.ofNat_add, hsplit]
      · rw [if_neg fun h ↦ hmapped (of_decide_eq_true h.2), if_neg fun h ↦ hmapped h.2]
    · rwa [heq, Function.update_self, hframe]
  · have hentry : presentBit 0 = false := by decide
    rw [translate_of_holdsTable hdirectory fun k _ ↦ rfl, Function.update_of_ne hne,
      hentry, if_neg fun h ↦ absurd h.1 Bool.false_ne_true, if_neg fun h ↦ hne h.1]

/-- **Where paging takes an address**: into the first four megabytes, if its directory entry is the
one of the kernel and its page is one of the seventeen, and else to a page fault. -/
theorem translate_pagingMem (layout : PagingLayout) (m : Mem) (linear : U32) :
    translate (pagingMem layout m) layout.pageDirectory linear =
      if linear.toNat / 2 ^ 22 = layout.dummyVariable.toNat / 2 ^ 22 ∧
        InPageTable (linear.toNat / 2 ^ 12 % 2 ^ 10) then
        some (BitVec.ofNat 32 (linear.toNat % 2 ^ 22))
      else none :=
  let ⟨hdirectory, htable⟩ := holdsTable_pagingMem layout m
  translate_of_pagingTables layout hdirectory htable linear

/-- The physical addresses that can be reached at all. -/
def Reachable (a : ℕ) : Prop :=
  0x100000 ≤ a ∧ a < 0x110000 ∨ 0xB8000 ≤ a ∧ a < 0xB9000

instance (a : ℕ) : Decidable (Reachable a) :=
  inferInstanceAs (Decidable (_ ∨ _))

/-- **An address survives that paging is turned on** exactly if the kernel lies in the first four
megabytes and the address in the first 64 kilobytes of the second megabyte or in the page of the
video memory. No address leads anywhere else. -/
theorem initPaging_keeps_iff (layout : PagingLayout) (m : Mem) :
    ∃ m' cr3, (initPaging layout m).Returns (m', cr3) ∧ ∀ linear,
      (translate m' cr3 linear = some linear ↔
        layout.dummyVariable.toNat < 2 ^ 22 ∧ Reachable linear.toNat) ∧
      ∀ physical, translate m' cr3 linear = some physical → Reachable physical.toNat := by
  refine ⟨_, _, initPaging_returns layout m, fun linear ↦ ?_⟩
  have hsame : BitVec.ofNat 32 (linear.toNat % 2 ^ 22) = linear ↔ linear.toNat < 2 ^ 22 := by
    rw [← BitVec.toNat_inj, BitVec.toNat_ofNat]
    omega
  have hreach : InPageTable (linear.toNat / 2 ^ 12 % 2 ^ 10) ↔
      Reachable (linear.toNat % 2 ^ 22) := by
    rw [InPageTable, Reachable]
    omega
  rw [translate_pagingMem]
  constructor
  · rw [Option.ite_none_right_eq_some, Option.some_inj, hsame, hreach, Reachable, Reachable]
    omega
  · intro physical hphysical
    obtain ⟨⟨-, hpage⟩, hwhere⟩ := Option.ite_none_right_eq_some.1 hphysical
    obtain rfl := Option.some.inj hwhere
    rw [hreach] at hpage
    rwa [BitVec.toNat_ofNat, Nat.mod_mod_of_dvd' (by decide)]

/-- The kernel linked to the second megabyte, with its tables behind the code. -/
def linkedLayout : PagingLayout where
  pageTable := 0x10A000
  pageDirectory := 0x10B000
  dummyVariable := 0x10C000
  pageTable_aligned := rfl
  pageDirectory_aligned := rfl
  ne := by decide

/-- The kernel linked to the last gigabyte. -/
def highLayout : PagingLayout where
  pageTable := 0xC010A000
  pageDirectory := 0xC010B000
  dummyVariable := 0xC010C000
  pageTable_aligned := rfl
  pageDirectory_aligned := rfl
  ne := by decide

/-- In memory that held ones before, a kernel in the second megabyte keeps its 64 kilobytes and the
video memory, and nothing from behind them on; one in the last gigabyte does not even keep its own
code. -/
theorem initPaging_keeps_iff_linked :
    (∃ m' cr3, (initPaging linkedLayout fun _ ↦ 0xFF).Returns (m', cr3) ∧
      translate m' cr3 0x10FFFF = some 0x10FFFF ∧ translate m' cr3 0xB8000 = some 0xB8000 ∧
      translate m' cr3 0x110000 ≠ some 0x110000) ∧
    ∃ m' cr3, (initPaging highLayout fun _ ↦ 0xFF).Returns (m', cr3) ∧
      translate m' cr3 0xC0100000 ≠ some 0xC0100000 := by
  obtain ⟨m, cr3, hret, hkeeps⟩ := initPaging_keeps_iff linkedLayout fun _ ↦ 0xFF
  obtain ⟨m', cr3', hret', hkeeps'⟩ := initPaging_keeps_iff highLayout fun _ ↦ 0xFF
  refine ⟨⟨m, cr3, hret, (hkeeps _).1.2 (by decide), (hkeeps _).1.2 (by decide), fun h ↦ ?_⟩,
    m', cr3', hret', fun h ↦ ?_⟩
  · exact absurd ((hkeeps _).1.1 h) (by decide)
  · exact absurd ((hkeeps' _).1.1 h) (by decide)

end Ganoid
