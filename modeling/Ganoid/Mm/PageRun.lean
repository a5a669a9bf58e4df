import Ganoid.Library.Along
import Ganoid.Mm.PageInit
import Mathlib.Order.Interval.Finset.Nat

/-!
# Runs of the page allocator

A run of the allocator is a sequence of calls, by whoever holds its pages, each of which returns.
The state keeps the bitmap and the blocks that are live: handed out by a search that succeeded, less
the pages freed since. A block of several pages is freed a page at a time, so what is live of it is
any set of frames. The address that a call returns is that of the block found (`Exact`); for a block
that starts with frame 0 it is `NULL`, so that block is live and its caller has nothing of it
(`PageCall.given`).

The memory behind the array is not the allocator's. A search can read it and a block can reach into
it (`Ganoid.Mm.PageFit`), and anything may happen to it between two calls; `SameArray` says that
this is all that happens.

The invariant is that live frames are busy. With it, a search finds only frames that are not live,
so the blocks stay disjoint (`Held`).
-/

open Fuelled

namespace Ganoid

/-- The bitmap, and what is live of the blocks handed out, latest first. -/
structure PageState where
  bm : FreeBm
  live : List (Finset ℕ)

/-- A call, and for one that allocates, what its search found and the address returned. -/
inductive PageCall
  | getFreePages (count : U32) (found : Option U32) (a : U32)
  | kmalloc (size : U32) (found : Option U32) (a : U32)
  | kfree (ptr : U32)
  | freePage (ptr : U32)

/-- The frames of the block that a search found. -/
def block (found : Option U32) (count : U32) : Finset ℕ :=
  match found with
  | none => ∅
  | some f => Finset.Ico f.toNat (f.toNat + count.toNat)

theorem mem_block_some {f count : U32} {b : ℕ} :
    b ∈ block (some f) count ↔ f.toNat ≤ b ∧ b < f.toNat + count.toNat :=
  Finset.mem_Ico

/-- The frames of the block at an address that is returned. There is none at `NULL`. -/
def blockAt (a count : U32) : Finset ℕ :=
  if a = 0 then ∅ else Finset.Ico (getPageno a).toNat ((getPageno a).toNat + count.toNat)

/-- The frames that the caller gets. -/
def PageCall.given : PageCall → Finset ℕ
  | .getFreePages count _ a => blockAt a count
  | .kmalloc size _ a => blockAt a (kmallocPageCnt size)
  | _ => ∅

theorem toNat_pagenoToAddr {f : U32} (hf : f.toNat < 1048576) :
    (pagenoToAddr f).toNat = 4096 * f.toNat := by
  rw [pagenoToAddr, BitVec.toNat_mul, toNat_pageSize]
  omega

/-- The caller gets the block that the search found, but for one that starts with frame 0. -/
theorem mem_blockAt_iff {f count : U32} (hf : f.toNat < 1048576) {b : ℕ} :
    b ∈ blockAt (pagenoToAddr f) count ↔ f ≠ 0 ∧ b ∈ block (some f) count := by
  have haddr := toNat_pagenoToAddr hf
  have hzero : pagenoToAddr f = 0 ↔ f = 0 := by bv_omega
  rw [blockAt]
  split
  · rename_i h
    exact iff_of_false (Finset.notMem_empty b) fun hne ↦ hne.1 (hzero.1 h)
  · rename_i h
    have hpage : (getPageno (pagenoToAddr f)).toNat = f.toNat := by
      rw [toNat_getPageno, haddr]
      omega
    rw [hpage, Finset.mem_Ico, mem_block_some]
    exact (and_iff_right (mt hzero.2 h)).symm

/-- The live blocks after an allocation. -/
def hold (live : List (Finset ℕ)) (found : Option U32) (count : U32) : List (Finset ℕ) :=
  match found with
  | none => live
  | some _ => block found count :: live

/-- The two bitmaps agree in the array, though not in the memory behind it. -/
def SameArray (bm bm' : FreeBm) : Prop :=
  ∀ i < uintCnt.toNat, bm'.words i = bm.words i

theorem SameArray.busy_eq {bm bm' : FreeBm} (h : SameArray bm bm') {b : ℕ} (hb : b < 1048576) :
    bm'.busy b = bm.busy b := by
  have hword := h (b / 32) (show b / 32 < 32768 by omega)
  rw [FreeBm.busy, FreeBm.busy, PackedBits.get, PackedBits.get, hword]

/-- One call, from a state in which the memory behind the array may have changed. -/
inductive PageStep : PageState → PageCall → PageState → Prop
  | getFreePages {bm bm₀ bm₁ bm' : FreeBm} {live : List (Finset ℕ)} {count a : U32}
      {found : Option U32} (henv : SameArray bm bm₀)
      (hsearch : (findFreeBitsRange bm₀ count).Returns (found, bm₁))
      (hret : (getFreePages bm₀ count).Returns (a, bm')) :
      PageStep ⟨bm, live⟩ (.getFreePages count found a) ⟨bm', hold live found count⟩
  | kmalloc {bm bm₀ bm₁ bm' : FreeBm} {live : List (Finset ℕ)} {size a : U32}
      {found : Option U32} (henv : SameArray bm bm₀)
      (hsearch : (findFreeBitsRange bm₀ (kmallocPageCnt size)).Returns (found, bm₁))
      (hret : (kmalloc bm₀ size).Returns (a, bm')) :
      PageStep ⟨bm, live⟩ (.kmalloc size found a) ⟨bm', hold live found (kmallocPageCnt size)⟩
  | kfree {bm bm₀ : FreeBm} {live : List (Finset ℕ)} {ptr : U32} (henv : SameArray bm bm₀) :
      PageStep ⟨bm, live⟩ (.kfree ptr) ⟨kfree bm₀ ptr, live⟩
  | freeNull {bm bm₀ : FreeBm} {live : List (Finset ℕ)} (henv : SameArray bm bm₀) :
      PageStep ⟨bm, live⟩ (.freePage 0) ⟨freePage bm₀ 0, live⟩
  /-- A page that is freed is one that its caller holds. -/
  | freePage {bm bm₀ : FreeBm} {before after : List (Finset ℕ)} {B : Finset ℕ} {ptr : U32}
      (henv : SameArray bm bm₀) (hptr : ptr ≠ 0) (hheld : (getPageno ptr).toNat ∈ B) :
      PageStep ⟨bm, before ++ B :: after⟩ (.freePage ptr)
        ⟨freePage bm₀ ptr, before ++ B.erase (getPageno ptr).toNat :: after⟩

/-! ### What one call does -/

/-- An allocation turns the frames of its block from free to busy and changes no other. -/
def Allocates (s : PageState) (count : U32) (found : Option U32) (s' : PageState) : Prop :=
  s'.live = hold s.live found count ∧
    ∀ b < numFrames.toNat,
      (b ∈ block found count → s.bm.busy b = false ∧ s'.bm.busy b = true) ∧
      (b ∉ block found count → s'.bm.busy b = s.bm.busy b)

/-- What a call is meant to do to the frames, and the address that it is meant to return. -/
def Exact (s : PageState) (c : PageCall) (s' : PageState) : Prop :=
  match c with
  | .getFreePages count found a => Allocates s count found s' ∧ a = found.elim 0 pagenoToAddr
  | .kmalloc size found a =>
    Allocates s (kmallocPageCnt size) found s' ∧ a = found.elim 0 pagenoToAddr
  | .kfree _ => ∀ b < numFrames.toNat, s'.bm.busy b = s.bm.busy b
  | .freePage ptr =>
    ∀ b < numFrames.toNat,
      (ptr ≠ 0 ∧ b = (getPageno ptr).toNat → s.bm.busy b = true ∧ s'.bm.busy b = false) ∧
      (¬ (ptr ≠ 0 ∧ b = (getPageno ptr).toNat) → s'.bm.busy b = s.bm.busy b)

/-- No frame belongs to two live blocks. -/
def DisjointBlocks (live : List (Finset ℕ)) : Prop :=
  live.Pairwise fun B B' ↦ ∀ b < numFrames.toNat, b ∈ B → b ∉ B'

/-- Every live frame is busy, and no frame is live twice. -/
structure Held (bm : FreeBm) (live : List (Finset ℕ)) : Prop where
  busy : ∀ B ∈ live, ∀ b ∈ B, b < numFrames.toNat → bm.busy b = true
  disjoint : DisjointBlocks live

theorem held_nil (bm : FreeBm) : Held bm [] where
  busy _ hB := absurd hB List.not_mem_nil
  disjoint := List.Pairwise.nil

/-- The search and the marking of one call, on the frames, and the address. -/
theorem allocates_of_returns {bm bm₀ bm₁ bm' : FreeBm} {live : List (Finset ℕ)} {count a : U32}
    {found : Option U32} (henv : SameArray bm bm₀)
    (hsearch : (findFreeBitsRange bm₀ count).Returns (found, bm₁))
    (hret : (getFreePages bm₀ count).Returns (a, bm')) :
    Allocates ⟨bm, live⟩ count found ⟨bm', hold live found count⟩ ∧
      a = found.elim 0 pagenoToAddr := by
  rcases getFreePages_case hret with ⟨_, hnone, hwords⟩ |
    ⟨f, bm₂, _, hpos, hle, hrun, hsome, hacc, hmark⟩
  · obtain rfl : found = none := congrArg Prod.fst (hsearch.unique hnone)
    refine ⟨⟨rfl, fun b hb ↦ ⟨fun hmem ↦ absurd hmem (Finset.notMem_empty b), fun _ ↦ ?_⟩⟩, rfl⟩
    show bm'.busy b = bm.busy b
    rw [busy_eq_of_words_eq hwords, henv.busy_eq hb]
  · obtain rfl : found = some f := congrArg Prod.fst (hsearch.unique hsome)
    refine ⟨⟨rfl, fun b hb ↦ ?_⟩, rfl⟩
    have hsame : bm₀.busy b = bm.busy b := henv.busy_eq hb
    rw [mem_block_some]
    refine ⟨fun hin ↦ ⟨?_, ?_⟩, fun hout ↦ ?_⟩
    · show bm.busy b = false
      rw [← hsame, show b = f.toNat + (b - f.toNat) by omega]
      exact hrun.busy_eq_false (by omega)
    · show bm'.busy b = true
      rw [hmark.busy_eq, if_pos hin]
    · show bm'.busy b = bm.busy b
      rw [hmark.busy_eq, if_neg hout, busy_eq_of_words_eq hacc.words_eq, hsame]

/-- A block joins the live ones if its frames are busy from now on and none of them is live. -/
theorem Held.cons {bm bm' : FreeBm} {live : List (Finset ℕ)} {B : Finset ℕ} (h : Held bm live)
    (hkeep : ∀ b < numFrames.toNat, bm.busy b = true → bm'.busy b = true)
    (hbusy : ∀ b ∈ B, b < numFrames.toNat → bm'.busy b = true)
    (hnew : ∀ C ∈ live, ∀ b < numFrames.toNat, b ∈ B → b ∉ C) : Held bm' (B :: live) where
  busy C hC b hbC hb := by
    rcases List.mem_cons.1 hC with rfl | hC
    · exact hbusy b hbC hb
    · exact hkeep b hb (h.busy C hC b hbC hb)
  disjoint := List.pairwise_cons.2 ⟨hnew, h.disjoint⟩

/-- An allocation keeps the invariant: the frames it takes were free, so they were not live. -/
theorem Held.hold {s s' : PageState} {count : U32} {found : Option U32} (h : Held s.bm s.live)
    (ha : Allocates s count found s') : Held s'.bm s'.live := by
  obtain ⟨hlive, hframes⟩ := ha
  have hkeep : ∀ b < numFrames.toNat, s.bm.busy b = true → s'.bm.busy b = true := fun b hb hs ↦ by
    have hout : b ∉ block found count := fun hin ↦ by
      have := ((hframes b hb).1 hin).1
      rw [hs] at this
      exact absurd this (by decide)
    rw [(hframes b hb).2 hout, hs]
  rw [hlive]
  cases found with
  | none => exact ⟨fun B hB b hbB hb ↦ hkeep b hb (h.busy B hB b hbB hb), h.disjoint⟩
  | some f =>
    refine h.cons hkeep (fun b hin hb ↦ ((hframes b hb).1 hin).2) fun C hC b hb hin hbC ↦ ?_
    have hfree := ((hframes b hb).1 hin).1
    rw [h.busy C hC b hbC hb] at hfree
    exact absurd hfree (by decide)

/-- Memory behind the array does not matter to the invariant. -/
theorem Held.of_sameArray {bm bm₀ : FreeBm} {live : List (Finset ℕ)} (h : Held bm live)
    (henv : SameArray bm bm₀) : Held bm₀ live where
  busy B hB b hbB hb := by rw [henv.busy_eq hb, h.busy B hB b hbB hb]
  disjoint := h.disjoint

/-- Freeing a page of one block takes its frame from that block, and no other block has it. -/
theorem Held.erase {bm : FreeBm} {before after : List (Finset ℕ)} {B : Finset ℕ} {p : U32}
    (h : Held bm (before ++ B :: after)) (hheld : p.toNat ∈ B) :
    Held (fpClearbit bm p) (before ++ B.erase p.toNat :: after) := by
  obtain ⟨hbusy, hdisj⟩ := h
  rw [DisjointBlocks, List.pairwise_append, List.pairwise_cons] at hdisj
  obtain ⟨hbefore, ⟨hB, hafter⟩, hcross⟩ := hdisj
  refine ⟨fun C hC b hbC hb ↦ ?_, ?_⟩
  · -- no block still has the frame, for the others did not have it before
    have hne : b ≠ p.toNat := by
      rintro rfl
      rcases List.mem_append.1 hC with hC | hC
      · exact hcross C hC B List.mem_cons_self _ hb hbC hheld
      · rcases List.mem_cons.1 hC with rfl | hC
        · exact Finset.notMem_erase _ _ hbC
        · exact hB C hC _ hb hheld hbC
    rw [busy_fpClearbit, if_neg hne]
    rcases List.mem_append.1 hC with hC | hC
    · exact hbusy C (List.mem_append_left _ hC) b hbC hb
    · rcases List.mem_cons.1 hC with rfl | hC
      · exact hbusy B (by simp) b (Finset.mem_of_mem_erase hbC) hb
      · exact hbusy C (by simp [hC]) b hbC hb
  · rw [DisjointBlocks, List.pairwise_append, List.pairwise_cons]
    refine ⟨hbefore, ⟨fun C hC b hb hbB ↦ hB C hC b hb (Finset.mem_of_mem_erase hbB), hafter⟩,
      fun C hC D hD b hb hbC hbD ↦ ?_⟩
    rcases List.mem_cons.1 hD with rfl | hD
    · exact hcross C hC B List.mem_cons_self b hb hbC (Finset.mem_of_mem_erase hbD)
    · exact hcross C hC D (List.mem_cons_of_mem _ hD) b hb hbC hbD

/-- **One call** does what it is meant to do, from a state in which live frames are busy. -/
theorem PageStep.exact {s s' : PageState} {c : PageCall} (h : PageStep s c s')
    (hheld : Held s.bm s.live) : Exact s c s' := by
  cases h with
  | getFreePages henv hsearch hret => exact allocates_of_returns henv hsearch hret
  | kmalloc henv hsearch hret => exact allocates_of_returns henv hsearch hret
  | kfree henv => exact fun b hb ↦ henv.busy_eq hb
  | freeNull henv =>
    exact fun b hb ↦ ⟨fun ⟨hne, _⟩ ↦ absurd rfl hne, fun _ ↦ henv.busy_eq hb⟩
  | freePage henv hptr hmem =>
    rename_i bm bm₀ before after B ptr
    have hfree : Ganoid.freePage bm₀ ptr = fpClearbit bm₀ (getPageno ptr) := if_pos hptr
    refine fun b hb ↦ ⟨?_, fun hne ↦ ?_⟩
    · rintro ⟨-, rfl⟩
      refine ⟨hheld.busy B (by simp) _ hmem hb, ?_⟩
      show (Ganoid.freePage bm₀ ptr).busy _ = false
      rw [hfree, busy_fpClearbit, if_pos rfl]
    · show (Ganoid.freePage bm₀ ptr).busy b = bm.busy b
      rw [hfree, busy_fpClearbit, if_neg fun heq ↦ hne ⟨hptr, heq⟩, henv.busy_eq hb]

/-- **One call** keeps the invariant. -/
theorem PageStep.held {s s' : PageState} {c : PageCall} (h : PageStep s c s')
    (hheld : Held s.bm s.live) : Held s'.bm s'.live := by
  have hexact := h.exact hheld
  cases h with
  | getFreePages henv hsearch hret => exact hheld.hold hexact.1
  | kmalloc henv hsearch hret => exact hheld.hold hexact.1
  | kfree henv => exact hheld.of_sameArray henv
  | freeNull henv => exact hheld.of_sameArray henv
  | freePage henv hptr hmem =>
    rename_i bm bm₀ before after B ptr
    show Held (Ganoid.freePage bm₀ ptr) _
    rw [Ganoid.freePage, if_pos hptr]
    exact (hheld.of_sameArray henv).erase hmem

/-! ### Runs -/

/-- The pages that `kmalloc` asks for hold what it was asked for. -/
theorem kmallocPageCnt_covers (size : U32) :
    size.toNat ≤ pageSize.toNat * (kmallocPageCnt size).toNat := by
  have hsize : pageSize.toNat = 4096 := rfl
  have hcnt : (kmallocPageCnt size).toNat = size.toNat / 4096 + 1 := by
    rw [kmallocPageCnt, BitVec.toNat_add, BitVec.toNat_udiv, hsize]
    have := size.isLt
    show (size.toNat / 4096 + 1) % 2 ^ 32 = _
    omega
  rw [hcnt, hsize]
  omega

/-- **No frame is handed out twice**: in every run from a bitmap, such as the initialization leaves,
every call does exactly what it is meant to do, and the live blocks are disjoint before and after
it. -/
theorem pageRun_exact (bm : FreeBm) (r : List (PageCall × PageState))
    (hrun : Along PageStep ⟨bm, []⟩ r) :
    Along (fun s c s' ↦ Exact s c s' ∧ DisjointBlocks s.live ∧ DisjointBlocks s'.live)
      ⟨bm, []⟩ r ∧
    ∀ size : U32, size.toNat ≤ pageSize.toNat * (kmallocPageCnt size).toNat := by
  refine ⟨?_, kmallocPageCnt_covers⟩
  have h := hrun.invariant (fun s ↦ Held s.bm s.live) (fun _ _ _ hs hstep ↦ hstep.held hs)
    (held_nil bm)
  exact h.mono fun s c s' ⟨hstep, hs, hs'⟩ ↦ ⟨hstep.exact hs, hs.disjoint, hs'.disjoint⟩

/-! ### A run -/

/-- The frames that are free. -/
def FreeFrames (bm : FreeBm) (S : Finset ℕ) : Prop :=
  ∀ b < numFrames.toNat, bm.busy b = false ↔ b ∈ S

namespace FreeFrames

variable {bm : FreeBm} {S : Finset ℕ} {count f : U32}

/-- The search finds the first free frame. -/
theorem search (h : FreeFrames bm S) (hpos : 1 ≤ count.toNat)
    (hle : f.toNat + count.toNat ≤ 1048576) (hfirst : ∀ b ∈ S, f.toNat ≤ b)
    (hsub : block (some f) count ⊆ S) :
    ∃ bm₁, (findFreeBitsRange bm count).Returns (some f, bm₁) ∧ FreeFrames bm₁ S := by
  have hbusy : ∀ b < f.toNat, bm.busy b = true := fun b hb ↦ by
    rw [← Bool.not_eq_false, h b (show b < 1048576 by omega)]
    exact fun hmem ↦ absurd (hfirst b hmem) (Nat.not_le_of_lt hb)
  obtain ⟨bm₁, hret⟩ := search_of_free hpos hle hbusy fun b hlo hhi ↦
    (h b (show b < 1048576 by omega)).2 (hsub (mem_block_some.2 ⟨hlo, hhi⟩))
  refine ⟨bm₁, hret, fun b hb ↦ ?_⟩
  rw [busy_eq_of_words_eq (words_eq_of_search hret)]
  exact h b hb

/-- The marking takes the block. -/
theorem mark (h : FreeFrames bm S) (hpos : 1 ≤ count.toNat)
    (hle : f.toNat + count.toNat ≤ 1048576) :
    ∃ bm', (fpSetbitRange bm f (f + count - 1)).Returns bm' ∧
      FreeFrames bm' (S \ block (some f) count) := by
  have hlast : (f + count - 1).toNat = f.toNat + count.toNat - 1 := by bv_omega
  obtain ⟨bm', hret, hmarked⟩ := @fpSetbitRange_returns bm f (f + count - 1) (by omega)
  rw [hlast, Nat.sub_add_cancel (by omega)] at hmarked
  refine ⟨bm', hret, fun b hb ↦ ?_⟩
  rw [hmarked.busy_eq, Finset.mem_sdiff, mem_block_some]
  split
  · rename_i hin
    exact iff_of_false Bool.noConfusion fun hmem ↦ hmem.2 hin
  · rename_i hout
    exact (h b hb).trans (and_iff_left hout).symm

/-- The two together are a call. -/
theorem getFreePages (h : FreeFrames bm S) (live : List (Finset ℕ)) (hpos : 1 ≤ count.toNat)
    (hle : f.toNat + count.toNat ≤ 1048576) (hfirst : ∀ b ∈ S, f.toNat ≤ b)
    (hsub : block (some f) count ⊆ S) :
    ∃ bm', PageStep ⟨bm, live⟩ (.getFreePages count (some f) (pagenoToAddr f))
        ⟨bm', hold live (some f) count⟩ ∧ FreeFrames bm' (S \ block (some f) count) := by
  obtain ⟨bm₁, hsearch, h₁⟩ := h.search hpos hle hfirst hsub
  obtain ⟨bm', hmark, h'⟩ := h₁.mark hpos hle
  exact ⟨bm', .getFreePages (fun _ _ ↦ rfl) hsearch (hsearch.bind (hmark.bind (returns_pure _))),
    h'⟩

theorem freePage (h : FreeFrames bm S) {ptr : U32} (hptr : ptr ≠ 0) :
    FreeFrames (Ganoid.freePage bm ptr) (insert (getPageno ptr).toNat S) := by
  intro b hb
  rw [Ganoid.freePage, if_pos hptr, busy_fpClearbit, Finset.mem_insert]
  split
  · rename_i heq
    exact iff_of_true rfl (Or.inl heq)
  · rename_i hne
    exact (h b hb).trans (or_iff_right hne).symm

end FreeFrames

/-- The initialization for four pages at 1 MiB. -/
theorem init_fourPages : ∃ bm, (initPageAllocator ⟨fun _ ↦ 0, []⟩ [⟨0x100000, 0x4000⟩] 0x200000
    0x201000).Returns bm ∧ FreeFrames bm (Finset.Ico 0x100 0x104) := by
  obtain ⟨bm, hinit, hfree, -⟩ :=
    initPageAllocator_returns ⟨fun _ ↦ 0, []⟩ [⟨0x100000, 0x4000⟩] 0x200000 0x201000
  refine ⟨bm, hinit, fun b hb ↦ ?_⟩
  have hcleared : ClearedBy 0x200000 0x201000 ⟨0x100000, 0x4000⟩ b ↔ 0x100 ≤ b ∧ b ≤ 0x103 := by
    rw [ClearedBy]
    exact Iff.rfl
  simp only [hfree b hb, List.mem_singleton, exists_eq_left, hcleared, Finset.mem_Ico]
  omega

/-- On such a machine, a block of two pages and one behind it, of which the first gives its second
page back, which the next call is given. -/
theorem pageRun_exact_reuse : ∃ bm r,
    (initPageAllocator ⟨fun _ ↦ 0, []⟩ [⟨0x100000, 0x4000⟩] 0x200000 0x201000).Returns bm ∧
      r.map Prod.fst = [PageCall.getFreePages 2 (some 0x100) 0x100000,
        .getFreePages 1 (some 0x102) 0x102000, .freePage 0x101000,
        .getFreePages 1 (some 0x101) 0x101000] ∧
      (finish ⟨bm, []⟩ r).live = [{0x101}, {0x102}, {0x100}] ∧
      Along PageStep ⟨bm, []⟩ r ∧
      Along (fun s c s' ↦ Exact s c s' ∧ DisjointBlocks s.live ∧ DisjointBlocks s'.live)
        ⟨bm, []⟩ r ∧
      ∀ size : U32, size.toNat ≤ pageSize.toNat * (kmallocPageCnt size).toNat := by
  obtain ⟨bm, hinit, h⟩ := init_fourPages
  obtain ⟨bm₁, hstep₁, h₁⟩ := @FreeFrames.getFreePages _ _ 2 0x100 h [] (by decide) (by decide)
    (by decide) (by decide)
  obtain ⟨bm₂, hstep₂, h₂⟩ := @FreeFrames.getFreePages _ _ 1 0x102 h₁ _ (by decide) (by decide)
    (by decide) (by decide)
  have h₃ := @FreeFrames.freePage _ _ h₂ 0x101000 (by decide)
  have hstep₃ : PageStep ⟨bm₂, [Finset.Ico 0x102 0x103, Finset.Ico 0x100 0x102]⟩
      (.freePage 0x101000) ⟨Ganoid.freePage bm₂ 0x101000,
        [Finset.Ico 0x102 0x103, (Finset.Ico 0x100 0x102).erase 0x101]⟩ :=
    @PageStep.freePage bm₂ bm₂ [Finset.Ico 0x102 0x103] [] _ 0x101000 (fun _ _ ↦ rfl) (by decide)
      (by decide)
  obtain ⟨bm₄, hstep₄, -⟩ := @FreeFrames.getFreePages _ _ 1 0x101 h₃
    [Finset.Ico 0x102 0x103, (Finset.Ico 0x100 0x102).erase 0x101] (by decide) (by decide)
    (by decide) (by decide)
  have hrun : Along PageStep ⟨bm, []⟩ [(_, _), (_, _), (_, _), (_, _)] :=
    ⟨hstep₁, hstep₂, hstep₃, hstep₄, trivial⟩
  have hlive : [block (some 0x101) 1, Finset.Ico 0x102 0x103, (Finset.Ico 0x100 0x102).erase 0x101]
      = [{0x101}, {0x102}, {0x100}] := by decide
  refine ⟨bm, _, hinit, ?_, ?_, hrun, pageRun_exact bm _ hrun⟩
  · rfl
  · exact hlive

end Ganoid
