import Ganoid.Library.Along
import Ganoid.Mm.BootmemSearch
import Mathlib.Data.List.Perm.Subperm
import Mathlib.Order.Interval.Finset.Nat

/-!
# Runs of the boot memory allocator

A run is a sequence of calls of `bm_malloc` and `bm_free`, each of which returns. The state keeps the
allocator and the blocks that are live, which are known to their holders only by the address returned
and the size asked for; everything else about a block is computed from these two (`LiveBlock.frames`,
`LiveBlock.account`).

`Consistent` says how the bitmap and the accounts relate to the live blocks, and every call keeps it.
What makes a free find the right account is that the blocks are disjoint: a frame of a block lies in
the account of that block and in no other, and not in an empty node, which has frame 0 only.
-/

open Fuelled

namespace Ganoid.Bootmem

/-! ### Sizes -/

theorem toNat_frombit {f : U32} (hf : f.toNat < 1048576) : (frombit f).toNat = 4096 * f.toNat := by
  rw [frombit, BitVec.toNat_mul, toNat_pageSize]
  omega

theorem getbit_frombit {f : U32} (hf : f.toNat < 1048576) : getbit (frombit f) = f := by
  apply BitVec.eq_of_toNat_eq
  rw [toNat_getbit, toNat_frombit hf]
  omega

/-- A size that can be rounded up is rounded up to whole frames. -/
theorem toNat_bmBits {size : U32} (hpos : 1 ≤ size.toNat) (hle : size.toNat ≤ 0xFFFFF000) :
    (bmBits size).toNat = (size.toNat - 1) / 4096 + 1 := by
  have hsub : (size - 1).toNat = size.toNat - 1 := by bv_omega
  rw [bmBits, roundToPageSize, BitVec.toNat_udiv, BitVec.toNat_add, BitVec.toNat_mul,
    BitVec.toNat_udiv, hsub, toNat_pageSize]
  omega

/-! ### Accounts -/

/-- A node found has the bit, and stands somewhere in the table. -/
theorem searchBitInAcnt_eq_some {acnt : List BmAccount} {bit : U32} {j : ℕ}
    (h : searchBitInAcnt acnt bit = some j) :
    ∃ pre node post, acnt = pre ++ node :: post ∧ pre.length = j ∧ node.has bit := by
  induction acnt generalizing j with
  | nil => exact absurd h (by simp [searchBitInAcnt])
  | cons s nodes ih =>
    rw [searchBitInAcnt] at h
    by_cases hs : s.has bit
    · rw [if_pos hs] at h
      obtain rfl := Option.some.inj h
      exact ⟨[], s, nodes, rfl, rfl, hs⟩
    · rw [if_neg hs] at h
      obtain ⟨j, hj, rfl⟩ := Option.map_eq_some_iff.1 h
      obtain ⟨pre, node, post, rfl, rfl, hnode⟩ := ih hj
      exact ⟨s :: pre, node, post, rfl, rfl, hnode⟩

theorem set_append_cons {α : Type} (pre : List α) (a b : α) (post : List α) :
    (pre ++ a :: post).set pre.length b = pre ++ b :: post := by
  rw [List.set_append_right _ _ (Nat.le_refl _), Nat.sub_self, List.set_cons_zero]

theorem getD_append_cons {α : Type} (pre : List α) (a d : α) (post : List α) :
    (pre ++ a :: post).getD pre.length d = a := by
  rw [List.getD_eq_getElem?_getD, List.getElem?_append_right (Nat.le_refl _), Nat.sub_self]
  rfl

/-! ### What one call does -/

/-- What a call of `bm_malloc` that returned has done. -/
inductive MallocCase (m : BootMem) (size : U32) : U32 × BootMem → Prop
  | null : MallocCase m size (0, m)
  /-- A run of free frames is marked and entered into an empty node. -/
  | block (pre post : List BmAccount) (node : BmAccount) (f : U32) (m₁ : BootMem)
      (hacnt : m.acnt = pre ++ node :: post) (hnode : node.startBit = 0)
      (hpos : 1 ≤ (bmBits size).toNat)
      (hrun : RunFrom m m.startBit.toNat f.toNat ((bmBits size).toNat - 1)
        ((bmBits size).toNat - 1))
      (hmark : Marked m f.toNat (f.toNat + (bmBits size).toNat) true m₁) :
      MallocCase m size (frombit f, { m₁ with
        acnt := pre ++ ⟨f, f + bmBits size - 1⟩ :: post, acntI := m.acntI + 1 })

theorem bmMalloc_case {m : BootMem} {size : U32} {r : U32 × BootMem}
    (h : (bmMalloc m size).Returns r) : MallocCase m size r := by
  have hend := toNat_endBit_lt m
  have hlt := toNat_bmBits_lt size
  rw [bmMalloc] at h
  cases hnode : searchFreeAcntNode m.acnt with
  | none =>
    rw [hnode] at h
    obtain rfl := returns_pure_iff.1 h
    exact .null
  | some j =>
    rw [hnode] at h
    obtain ⟨pre, node, post, hacnt, rfl, hhas⟩ := searchBitInAcnt_eq_some hnode
    obtain ⟨found, hsearch, h⟩ := returns_bind_iff.1 h
    cases findFreeBitsRange_case m hlt with
    | fails _ hret =>
      obtain rfl := hsearch.unique hret
      obtain rfl := returns_pure_iff.1 h
      exact .null
    | diverges _ hdiv => exact absurd hsearch (hdiv _)
    | found _ hpos f hrun hret =>
      obtain rfl := hsearch.unique hret
      have hin := run_le_endBit hrun
      have hlast : (f + bmBits size - 1).toNat = f.toNat + (bmBits size).toNat - 1 := by bv_omega
      obtain ⟨m₁, hmret, hmark⟩ :=
        @bmSetbitRange_returns m f (f + bmBits size - 1) (by omega) (by omega)
      rw [hlast, Nat.sub_add_cancel (by omega)] at hmark
      obtain ⟨m₂, hmret', h⟩ := returns_bind_iff.1 h
      obtain rfl := hmret'.unique hmret
      obtain rfl := returns_pure_iff.1 h
      have hset : m₂.acnt.set pre.length ⟨f, f + bmBits size - 1⟩ =
          pre ++ ⟨f, f + bmBits size - 1⟩ :: post := by
        obtain ⟨_, rfl⟩ := hmark.rest
        dsimp only
        rw [hacnt, set_append_cons]
      have hcount : m₂.acntI = m.acntI := by
        obtain ⟨_, rfl⟩ := hmark.rest
        rfl
      rw [hset, hcount]
      have hzero : node.startBit = 0 := by
        have hle : node.startBit ≤ 0 := hhas.2
        bv_omega
      exact .block pre post node f m₂ hacnt hzero hpos hrun hmark

/-- What a call of `bm_free` that returned has done with an address that is not `NULL`. -/
theorem bmFree_case {m m' : BootMem} {ptr : U32} (hptr : ptr ≠ 0)
    (h : (bmFree m ptr).Returns m') :
    ∃ pre node post m₁, m.acnt = pre ++ node :: post ∧ node.has (getbit ptr) ∧
      (bmClearbitRange m node.startBit node.endBit).Returns m₁ ∧
      m' = { m₁ with acnt := m₁.acnt.set pre.length ⟨0, 0⟩, acntI := m₁.acntI - 1 } := by
  rw [bmFree, if_pos hptr] at h
  cases hnode : searchBitInAcnt m.acnt (getbit ptr) with
  | none =>
    rw [hnode] at h
    exact absurd h not_returns_never
  | some j =>
    rw [hnode] at h
    obtain ⟨pre, node, post, hacnt, rfl, hhas⟩ := searchBitInAcnt_eq_some hnode
    obtain ⟨m₁, hclear, h⟩ := returns_bind_iff.1 h
    rw [hacnt, getD_append_cons] at hclear
    exact ⟨pre, node, post, m₁, hacnt, hhas, hclear, (returns_pure_iff.1 h).symm⟩

/-! ### Live blocks -/

/-- A block in the hands of its holder: the address `bm_malloc` returned for a size. -/
structure LiveBlock where
  ptr : U32
  size : U32

namespace LiveBlock

/-- The frames of the block. -/
def frames (B : LiveBlock) : Finset ℕ :=
  Finset.Ico (getbit B.ptr).toNat ((getbit B.ptr).toNat + (bmBits B.size).toNat)

/-- The account of the block. -/
def account (B : LiveBlock) : BmAccount :=
  ⟨getbit B.ptr, getbit B.ptr + bmBits B.size - 1⟩

end LiveBlock

/-- The allocator and the live blocks, latest first. -/
structure BootState where
  m : BootMem
  live : List LiveBlock

/-- A call, and what a call of `bm_malloc` returned. -/
inductive BootCall
  | malloc (size ptr : U32)
  | free (ptr : U32)

/-- The blocks that are live after a call of `bm_malloc`. -/
def holdBlock (live : List LiveBlock) (size ptr : U32) : List LiveBlock :=
  if ptr = 0 then live else ⟨ptr, size⟩ :: live

/-- One call. What is freed is `NULL` or a live block. -/
inductive BootStep : BootState → BootCall → BootState → Prop
  | malloc {m m' : BootMem} {live : List LiveBlock} {size ptr : U32} (hpos : 1 ≤ size.toNat)
      (hle : size.toNat ≤ 0xFFFFF000) (hret : (bmMalloc m size).Returns (ptr, m')) :
      BootStep ⟨m, live⟩ (.malloc size ptr) ⟨m', holdBlock live size ptr⟩
  | freeNull {m m' : BootMem} {live : List LiveBlock} (hret : (bmFree m 0).Returns m') :
      BootStep ⟨m, live⟩ (.free 0) ⟨m', live⟩
  | free {m m' : BootMem} {before after : List LiveBlock} {B : LiveBlock}
      (hret : (bmFree m B.ptr).Returns m') :
      BootStep ⟨m, before ++ B :: after⟩ (.free B.ptr) ⟨m', before ++ after⟩

/-- An initialised allocator: every account is empty, and the window does not contain frame 0. -/
structure Initialised (m : BootMem) : Prop where
  acnt : ∀ node ∈ m.acnt, node = ⟨0, 0⟩
  acntI : m.acntI = 0
  window : 1 ≤ m.startBit.toNat

/-- The nodes that are not empty. -/
def usedNodes (acnt : List BmAccount) : List BmAccount :=
  acnt.filter fun node ↦ node ≠ ⟨0, 0⟩

/-- How the allocator stands to the live blocks, having been initialised as `m₀`. -/
structure Consistent (m₀ : BootMem) (s : BootState) : Prop where
  /-- The accounts that are not empty are those of the live blocks. -/
  accounts : (usedNodes s.m.acnt).Perm (s.live.map LiveBlock.account)
  /-- No frame belongs to two live blocks. -/
  disjoint : s.live.Pairwise fun B B' ↦ Disjoint B.frames B'.frames
  /-- Every live block lies in the window. -/
  inWindow : ∀ B ∈ s.live, ∀ b ∈ B.frames, m₀.startBit.toNat ≤ b ∧ b ≤ m₀.endBit.toNat
  /-- Every live block has room for what it was asked for. -/
  covers : ∀ B ∈ s.live, B.size.toNat ≤ 4096 * B.frames.card
  /-- The busy frames are those busy at first and those of live blocks. -/
  busy_iff : ∀ b, s.m.busy b = true ↔ m₀.busy b = true ∨ ∃ B ∈ s.live, b ∈ B.frames
  count : s.m.acntI.toNat = s.live.length

/-- The invariant: what else is needed to take blocks back. -/
structure Invariant (m₀ : BootMem) (s : BootState) : Prop extends Consistent m₀ s where
  heapStart : s.m.bmHeapStart = m₀.bmHeapStart
  heapEnd : s.m.bmHeapEnd = m₀.bmHeapEnd
  length : s.m.acnt.length = m₀.acnt.length
  startBit : ∀ node ∈ s.m.acnt, node.startBit = 0 → node = ⟨0, 0⟩
  fresh : ∀ B ∈ s.live, ∀ b ∈ B.frames, m₀.busy b = false
  pos : ∀ B ∈ s.live, 1 ≤ (bmBits B.size).toNat

theorem usedNodes_append_empty (pre post : List BmAccount) :
    usedNodes (pre ++ ⟨0, 0⟩ :: post) = usedNodes pre ++ usedNodes post := by
  rw [usedNodes, List.filter_append, List.filter_cons_of_neg (by simp)]
  rfl

theorem usedNodes_append_cons {node : BmAccount} (hnode : node ≠ ⟨0, 0⟩)
    (pre post : List BmAccount) :
    usedNodes (pre ++ node :: post) = usedNodes pre ++ node :: usedNodes post := by
  rw [usedNodes, List.filter_append, List.filter_cons_of_pos (by simpa using hnode)]
  rfl

/-- Filling an empty node adds it to the nodes that are not empty, and emptying it takes it from
them. -/
theorem usedNodes_perm_cons_iff {node : BmAccount} (hnode : node ≠ ⟨0, 0⟩)
    {pre post l : List BmAccount} : (usedNodes (pre ++ node :: post)).Perm (node :: l) ↔
      (usedNodes (pre ++ ⟨0, 0⟩ :: post)).Perm l := by
  rw [usedNodes_append_cons hnode, usedNodes_append_empty, List.perm_middle.congr_left,
    List.perm_cons]

theorem mem_frames {B : LiveBlock} {b : ℕ} : b ∈ B.frames ↔
    (getbit B.ptr).toNat ≤ b ∧ b < (getbit B.ptr).toNat + (bmBits B.size).toNat :=
  Finset.mem_Ico

/-- The first frame of a block that has one. -/
theorem getbit_mem_frames {B : LiveBlock} (hpos : 1 ≤ (bmBits B.size).toNat) :
    (getbit B.ptr).toNat ∈ B.frames :=
  mem_frames.2 ⟨Nat.le_refl _, by omega⟩

/-- The last frame of the account of a block. -/
theorem toNat_account_endBit {B : LiveBlock} (hpos : 1 ≤ (bmBits B.size).toNat) :
    B.account.endBit.toNat + 1 = (getbit B.ptr).toNat + (bmBits B.size).toNat := by
  have hlt := toNat_bmBits_lt B.size
  have hbit := toNat_getbit B.ptr
  show (getbit B.ptr + bmBits B.size - 1).toNat + 1 = _
  bv_omega

/-- A block that does not start at frame 0 has an account that is not empty. -/
theorem account_ne_empty {B : LiveBlock} (h : 1 ≤ (getbit B.ptr).toNat) : B.account ≠ ⟨0, 0⟩ :=
  fun heq ↦ by
    have hzero : getbit B.ptr = 0 := congrArg BmAccount.startBit heq
    rw [hzero] at h
    exact absurd h (by decide)

theorem invariant_init {m₀ : BootMem} (h : Initialised m₀) : Invariant m₀ ⟨m₀, []⟩ where
  accounts := by
    have hnil : usedNodes m₀.acnt = [] :=
      List.filter_eq_nil_iff.2 fun node hnode ↦ by simpa using h.acnt node hnode
    dsimp only
    rw [hnil]
    rfl
  disjoint := List.Pairwise.nil
  inWindow _ hB := absurd hB List.not_mem_nil
  covers _ hB := absurd hB List.not_mem_nil
  busy_iff b := ⟨Or.inl, fun hb ↦ hb.resolve_right fun ⟨_, hB, _⟩ ↦ List.not_mem_nil hB⟩
  count := congrArg BitVec.toNat h.acntI
  heapStart := rfl
  heapEnd := rfl
  length := rfl
  startBit node hnode _ := h.acnt node hnode
  fresh _ hB := absurd hB List.not_mem_nil
  pos _ hB := absurd hB List.not_mem_nil

/-- There are no more blocks than frames, for each has a first frame of its own. -/
theorem length_le_of_disjoint {live : List LiveBlock} (hpos : ∀ B ∈ live, 1 ≤ (bmBits B.size).toNat)
    (hdisj : live.Pairwise fun B B' ↦ Disjoint B.frames B'.frames) : live.length ≤ 1048576 := by
  have hnodup : (live.map fun B ↦ (getbit B.ptr).toNat).Nodup := by
    rw [List.Nodup, List.pairwise_map]
    refine hdisj.imp_of_mem fun {B B'} hB hB' hBB' heq ↦ ?_
    refine Finset.disjoint_left.1 hBB' (getbit_mem_frames (hpos B hB)) ?_
    rw [heq]
    exact getbit_mem_frames (hpos B' hB')
  have hsub : (live.map fun B ↦ (getbit B.ptr).toNat) ⊆ List.range 1048576 := fun b hb ↦ by
    obtain ⟨B, -, rfl⟩ := List.mem_map.1 hb
    rw [List.mem_range, toNat_getbit]
    omega
  have hle := (List.subperm_of_subset hnodup hsub).length_le
  rwa [List.length_map, List.length_range] at hle

namespace Invariant

variable {m₀ m m' : BootMem} {live : List LiveBlock} {s s' : BootState} {c : BootCall}

theorem startBit_eq (h : Invariant m₀ ⟨m, live⟩) : m.startBit = m₀.startBit := by
  rw [BootMem.startBit, BootMem.startBit, ← h.heapStart]

theorem endBit_eq (h : Invariant m₀ ⟨m, live⟩) : m.endBit = m₀.endBit := by
  rw [BootMem.endBit, BootMem.endBit, ← h.heapEnd]

/-- A block of free frames shares none with a live block. -/
theorem disjoint_of_free (h : Invariant m₀ ⟨m, live⟩) {B : LiveBlock}
    (hfree : ∀ b ∈ B.frames, m.busy b = false) : ∀ B' ∈ live, Disjoint B.frames B'.frames :=
  fun B' hB' ↦ Finset.disjoint_left.2 fun b hb hb' ↦ by
    have hbusy := (h.busy_iff b).2 (Or.inr ⟨B', hB', hb'⟩)
    rw [hfree b hb] at hbusy
    exact absurd hbusy (by simp)

/-- A block of free frames of the window is marked and entered into an empty node. -/
theorem hold (h : Invariant m₀ ⟨m, live⟩) (hwin : 1 ≤ m₀.startBit.toNat) {B : LiveBlock}
    {m₁ : BootMem} {pre post : List BmAccount} {node : BmAccount}
    (hacnt : m.acnt = pre ++ node :: post) (hnode : node.startBit = 0)
    (hpos : 1 ≤ (bmBits B.size).toNat) (hcovers : B.size.toNat ≤ 4096 * B.frames.card)
    (hin : ∀ b ∈ B.frames, m₀.startBit.toNat ≤ b ∧ b ≤ m₀.endBit.toNat)
    (hfree : ∀ b ∈ B.frames, m.busy b = false)
    (hmark : Marked m (getbit B.ptr).toNat ((getbit B.ptr).toNat + (bmBits B.size).toNat) true m₁) :
    Invariant m₀ ⟨{ m₁ with acnt := pre ++ B.account :: post, acntI := m.acntI + 1 },
      B :: live⟩ := by
  have hfirst : 1 ≤ (getbit B.ptr).toNat := Nat.le_trans hwin (hin _ (getbit_mem_frames hpos)).1
  have hempty : node = ⟨0, 0⟩ := h.startBit node (by rw [hacnt]; simp) hnode
  have hpos' : ∀ B' ∈ B :: live, 1 ≤ (bmBits B'.size).toNat :=
    List.forall_mem_cons.2 ⟨hpos, h.pos⟩
  have hdisj : List.Pairwise (fun B B' : LiveBlock ↦ Disjoint B.frames B'.frames) (B :: live) :=
    List.pairwise_cons.2 ⟨h.disjoint_of_free hfree, h.disjoint⟩
  have hlen := length_le_of_disjoint hpos' hdisj
  have haccounts := h.accounts
  have hcount : m.acntI.toNat = live.length := h.count
  have hlength : m.acnt.length = m₀.acnt.length := h.length
  obtain ⟨freeBitmap, rfl⟩ := hmark.rest
  refine ⟨⟨?_, hdisj, List.forall_mem_cons.2 ⟨hin, h.inWindow⟩,
    List.forall_mem_cons.2 ⟨hcovers, h.covers⟩, fun b ↦ ?_, ?_⟩, h.heapStart, h.heapEnd, ?_,
    fun node' hnode' hzero ↦ ?_, List.forall_mem_cons.2 ⟨fun b hb ↦ ?_, h.fresh⟩, hpos'⟩
  · dsimp only at haccounts
    rw [hacnt, hempty] at haccounts
    exact (usedNodes_perm_cons_iff (account_ne_empty hfirst)).2 haccounts
  · have hbusy := hmark.busy_eq b
    show BootMem.busy { m with freeBitmap := freeBitmap } b = true ↔ _
    rw [hbusy, List.exists_mem_cons_iff]
    by_cases hb : b ∈ B.frames
    · rw [if_pos (mem_frames.1 hb)]
      exact iff_of_true rfl (Or.inr (Or.inl hb))
    · rw [if_neg (hb ∘ mem_frames.2)]
      simpa only [hb, false_or] using h.busy_iff b
  · show (m.acntI + 1).toNat = _
    rw [List.length_cons] at hlen ⊢
    bv_omega
  · rw [← hlength, hacnt, List.length_append, List.length_append]
    rfl
  · rcases List.mem_append.1 hnode' with hpre | hpost
    · exact h.startBit node' (by rw [hacnt]; simp [hpre]) hzero
    · rcases List.mem_cons.1 hpost with rfl | hpost
      · have hzero' : (getbit B.ptr).toNat = 0 := congrArg BitVec.toNat hzero
        omega
      · exact h.startBit node' (by rw [hacnt]; simp [hpost]) hzero
  · refine Bool.eq_false_iff.2 fun hbusy ↦ ?_
    have hold := (h.busy_iff b).2 (Or.inl hbusy)
    rw [hfree b hb] at hold
    exact absurd hold (by simp)

/-- **An allocation** keeps the invariant, for the frames it takes were free. -/
theorem malloc (h : Invariant m₀ ⟨m, live⟩) (hwin : 1 ≤ m₀.startBit.toNat) {size ptr : U32}
    (hsize : 1 ≤ size.toNat) (hle : size.toNat ≤ 0xFFFFF000) (hcase : MallocCase m size (ptr, m')) :
    Invariant m₀ ⟨m', holdBlock live size ptr⟩ ∧ (ptr = 0 → m' = m) := by
  cases hcase with
  | null => exact ⟨h, fun _ ↦ rfl⟩
  | block pre post node f m₁ hacnt hnode hpos hrun hmark =>
    have hin := run_le_endBit hrun
    have hlo := hrun.lo_le
    have hend := toNat_endBit_lt m
    rw [h.startBit_eq] at hlo
    have hf : f.toNat < 1048576 := by omega
    have hptr : frombit f ≠ 0 := by
      have hval := toNat_frombit hf
      bv_omega
    have hget : getbit (frombit f) = f := getbit_frombit hf
    have hframes : ∀ b ∈ LiveBlock.frames ⟨frombit f, size⟩,
        f.toNat ≤ b ∧ b < f.toNat + (bmBits size).toNat := fun b hb ↦ by
      rwa [mem_frames, hget] at hb
    have haccount : LiveBlock.account ⟨frombit f, size⟩ = ⟨f, f + bmBits size - 1⟩ := by
      rw [LiveBlock.account, hget]
    rw [holdBlock, if_neg hptr, ← haccount]
    refine ⟨h.hold hwin hacnt hnode hpos ?_ (fun b hb ↦ ?_) (fun b hb ↦ ?_) ?_,
      fun heq ↦ absurd heq hptr⟩
    · rw [LiveBlock.frames, Nat.card_Ico, toNat_bmBits hsize hle]
      dsimp only
      omega
    · obtain ⟨hle', hlt⟩ := hframes b hb
      rw [h.endBit_eq] at hin
      omega
    · obtain ⟨hle', hlt⟩ := hframes b hb
      have hshut := hrun.busy_eq_false (k := b - f.toNat) (by omega)
      rwa [show f.toNat + (b - f.toNat) = b by omega, shut_eq_busy (by omega)] at hshut
    · rwa [hget]

/-- The node in which a free looks up a live block is the account of that block. -/
theorem node_eq_account (h : Invariant m₀ ⟨m, live⟩) (hwin : 1 ≤ m₀.startBit.toNat) {B : LiveBlock}
    (hB : B ∈ live) {node : BmAccount} (hnode : node ∈ m.acnt) (hhas : node.has (getbit B.ptr)) :
    node = B.account := by
  have hfirst := getbit_mem_frames (h.pos B hB)
  have hlo := (h.inWindow B hB _ hfirst).1
  have hused : node ∈ usedNodes m.acnt := by
    refine List.mem_filter.2 ⟨hnode, decide_eq_true fun hempty ↦ ?_⟩
    rw [hempty] at hhas
    have hend : getbit B.ptr ≤ 0 := hhas.1
    bv_omega
  obtain ⟨B', hB', rfl⟩ := List.mem_map.1 (h.accounts.subset hused)
  have hsum := toNat_account_endBit (h.pos B' hB')
  have hle : (getbit B.ptr).toNat ≤ B'.account.endBit.toNat := hhas.1
  have hshared : (getbit B.ptr).toNat ∈ B'.frames := mem_frames.2 ⟨hhas.2, by omega⟩
  have hsymm : Std.Symm fun B B' : LiveBlock ↦ Disjoint B.frames B'.frames :=
    ⟨fun _ _ hd ↦ hd.symm⟩
  by_contra hne
  have hdisj := h.disjoint.forall hB' hB fun heq ↦ hne (congrArg LiveBlock.account heq)
  exact Finset.disjoint_left.1 hdisj hshared hfirst

/-- The frames of a live block are cleared and its account is emptied. -/
theorem drop {before after : List LiveBlock} {B : LiveBlock} {m₁ : BootMem}
    {pre post : List BmAccount} (h : Invariant m₀ ⟨m, before ++ B :: after⟩)
    (hfirst : 1 ≤ (getbit B.ptr).toNat) (hacnt : m.acnt = pre ++ B.account :: post)
    (hmark : Marked m (getbit B.ptr).toNat ((getbit B.ptr).toNat + (bmBits B.size).toNat) false
      m₁) :
    Invariant m₀ ⟨{ m₁ with acnt := m₁.acnt.set pre.length ⟨0, 0⟩, acntI := m₁.acntI - 1 },
      before ++ after⟩ := by
  have hB : B ∈ before ++ B :: after := List.mem_append_right _ List.mem_cons_self
  have hrest : ∀ B' ∈ before ++ after, B' ∈ before ++ B :: after := fun B' hB' ↦
    List.perm_middle.symm.subset (List.mem_cons_of_mem B hB')
  obtain ⟨hother, hdisj⟩ := List.pairwise_cons.1
    ((List.pairwise_middle fun hd ↦ hd.symm).1 h.disjoint)
  have haccounts := h.accounts.trans (List.perm_middle.map _)
  have hcount : m.acntI.toNat = _ := h.count
  obtain ⟨freeBitmap, rfl⟩ := hmark.rest
  refine ⟨⟨?_, hdisj, fun B' hB' ↦ h.inWindow B' (hrest B' hB'),
    fun B' hB' ↦ h.covers B' (hrest B' hB'), fun b ↦ ?_, ?_⟩, h.heapStart, h.heapEnd, ?_,
    fun node' hnode' hzero ↦ ?_, fun B' hB' ↦ h.fresh B' (hrest B' hB'),
    fun B' hB' ↦ h.pos B' (hrest B' hB')⟩
  · dsimp only at haccounts ⊢
    rw [hacnt, List.map_cons] at haccounts
    rw [hacnt, set_append_cons]
    exact (usedNodes_perm_cons_iff (account_ne_empty hfirst)).1 haccounts
  · have hbusy := hmark.busy_eq b
    show BootMem.busy { m with freeBitmap := freeBitmap } b = true ↔ _
    rw [hbusy]
    by_cases hb : b ∈ B.frames
    · rw [if_pos (mem_frames.1 hb)]
      refine iff_of_false (by simp) ?_
      rintro (hb₀ | ⟨B', hB', hb'⟩)
      · rw [h.fresh B hB b hb] at hb₀
        exact absurd hb₀ (by simp)
      · exact Finset.disjoint_left.1 (hother B' hB') hb hb'
    · have hmiddle : (∃ B' ∈ before ++ B :: after, b ∈ B'.frames) ↔
          ∃ B' ∈ before ++ after, b ∈ B'.frames := by
        simp only [List.perm_middle.mem_iff, List.exists_mem_cons_iff, hb, false_or]
      rw [if_neg (hb ∘ mem_frames.2), ← hmiddle]
      exact h.busy_iff b
  · show (m.acntI - 1).toNat = _
    rw [List.perm_middle.length_eq, List.length_cons] at hcount
    dsimp only
    bv_omega
  · rw [← h.length]
    exact List.length_set
  · dsimp only at hnode'
    rcases List.mem_or_eq_of_mem_set hnode' with hmem | rfl
    · exact h.startBit node' hmem hzero
    · rfl

/-- **A release** of a live block keeps the invariant. -/
theorem free {before after : List LiveBlock} {B : LiveBlock}
    (h : Invariant m₀ ⟨m, before ++ B :: after⟩) (hwin : 1 ≤ m₀.startBit.toNat)
    (hret : (bmFree m B.ptr).Returns m') : Invariant m₀ ⟨m', before ++ after⟩ := by
  have hB : B ∈ before ++ B :: after := List.mem_append_right _ List.mem_cons_self
  have hpos := h.pos B hB
  have hfirst := Nat.le_trans hwin (h.inWindow B hB _ (getbit_mem_frames hpos)).1
  have hptr : B.ptr ≠ 0 := fun hzero ↦ by
    rw [hzero] at hfirst
    exact absurd hfirst (by decide)
  obtain ⟨pre, node, post, m₁, hacnt, hhas, hclear, rfl⟩ := bmFree_case hptr hret
  obtain rfl := h.node_eq_account hwin hB (by rw [hacnt]; simp) hhas
  refine h.drop hfirst hacnt ?_
  -- the account names the frames of the block, so these are cleared
  have hsum := toNat_account_endBit hpos
  have hbit := toNat_getbit B.ptr
  have hlt := toNat_bmBits_lt B.size
  obtain ⟨m₂, hclear', hmark⟩ := @bmClearbitRange_returns m B.account.startBit B.account.endBit
    (show (getbit B.ptr).toNat ≤ _ by omega) (by omega)
  obtain rfl := hclear.unique hclear'
  rwa [hsum] at hmark

/-- One call keeps the invariant, and an allocation that fails changes nothing. -/
theorem step (h : Invariant m₀ s) (hwin : 1 ≤ m₀.startBit.toNat) (hstep : BootStep s c s') :
    Invariant m₀ s' ∧ ∀ size, c = .malloc size 0 → s' = s := by
  cases hstep with
  | malloc hpos hle hret =>
    obtain ⟨hinv, hnull⟩ := h.malloc hwin hpos hle (bmMalloc_case hret)
    refine ⟨hinv, ?_⟩
    rintro _ ⟨⟩
    rw [hnull rfl]
    rfl
  | freeNull hret =>
    obtain rfl := returns_pure_iff.1 hret
    exact ⟨h, by simp⟩
  | free hret => exact ⟨h.free hwin hret, by simp⟩

/-- An allocator with no live block is the one that was initialised. -/
theorem eq_init (h : Invariant m₀ s) (hinit : Initialised m₀) (hlive : s.live = []) :
    s.m = m₀ := by
  obtain ⟨m, live⟩ := s
  obtain rfl : live = [] := hlive
  have hbitmap : m.freeBitmap = m₀.freeBitmap := by
    refine PackedBits.eq_of_get_eq (by decide) fun b ↦ ?_
    have hbusy := h.busy_iff b
    simp only [List.not_mem_nil, false_and, exists_false, or_false] at hbusy
    exact Bool.eq_iff_iff.2 hbusy
  have hempty : ∀ node ∈ m.acnt, node = ⟨0, 0⟩ := by
    have hnil := h.accounts.eq_nil
    simpa [usedNodes] using List.filter_eq_nil_iff.1 hnil
  have hacnt : m.acnt = m₀.acnt := by
    rw [List.eq_replicate_of_mem hempty, List.eq_replicate_of_mem hinit.acnt, h.length]
  have hcount : m.acntI = m₀.acntI := by
    rw [hinit.acntI]
    exact BitVec.eq_of_toNat_eq h.count
  have hstart := h.heapStart
  have hend := h.heapEnd
  cases m
  cases m₀
  dsimp only at *
  subst hbitmap hacnt hcount hstart hend
  rfl

end Invariant

/-! ### Runs -/

/-- **The boot memory allocator over whole runs**: in every state, the accounts that are not empty
are those of the live blocks, which are disjoint and lie in the window, and the frames that are busy
are those of live blocks and those that were busy at first; an allocation that fails changes
nothing; and once every block is freed the allocator is the one that was initialised. -/
theorem bootRun_consistent (m₀ : BootMem) (hinit : Initialised m₀) (r : List (BootCall × BootState))
    (hrun : Along BootStep ⟨m₀, []⟩ r) :
    Along (fun s c s' ↦ Consistent m₀ s ∧ Consistent m₀ s' ∧
      (∀ size, c = .malloc size 0 → s' = s) ∧ (s'.live = [] → s'.m = m₀)) ⟨m₀, []⟩ r := by
  have hinv := hrun.invariant (Invariant m₀) (fun _ _ _ h hstep ↦ (h.step hinit.window hstep).1)
    (invariant_init hinit)
  exact hinv.mono fun s c s' ⟨hstep, h, h'⟩ ↦
    ⟨h.toConsistent, h'.toConsistent, (h.step hinit.window hstep).2, h'.eq_init hinit⟩

/-- A heap of two free frames and three accounts. -/
def twoFrameHeap : BootMem where
  bmHeapStart := 0x200000
  bmHeapEnd := 0x201FFF
  freeBitmap _ := 0
  acnt := [⟨0, 0⟩, ⟨0, 0⟩, ⟨0, 0⟩]
  acntI := 0

/-- Two blocks are allocated, a third is not to be had, and the first is freed and allocated again;
then both are freed, the second one first, and the heap is as it was. -/
theorem bootRun_consistent_twoFrames : ∃ m₁ m₂ m₃ m₄ m₅, Initialised twoFrameHeap ∧
    Along BootStep ⟨twoFrameHeap, []⟩ [(.malloc 4096 0x200000, ⟨m₁, [⟨0x200000, 4096⟩]⟩),
      (.malloc 1 0x201000, ⟨m₂, [⟨0x201000, 1⟩, ⟨0x200000, 4096⟩]⟩),
      (.malloc 1 0, ⟨m₂, [⟨0x201000, 1⟩, ⟨0x200000, 4096⟩]⟩),
      (.free 0x200000, ⟨m₃, [⟨0x201000, 1⟩]⟩),
      (.malloc 2 0x200000, ⟨m₄, [⟨0x200000, 2⟩, ⟨0x201000, 1⟩]⟩),
      (.free 0x201000, ⟨m₅, [⟨0x200000, 2⟩]⟩), (.free 0x200000, ⟨twoFrameHeap, []⟩)] := by
  have hinit : Initialised twoFrameHeap := ⟨by decide, rfl, by decide⟩
  have hrun : ∃ m₁ m₂ m₃ m₄ m₅ m₆, Along BootStep ⟨twoFrameHeap, []⟩
      [(.malloc 4096 0x200000, ⟨m₁, [⟨0x200000, 4096⟩]⟩),
        (.malloc 1 0x201000, ⟨m₂, [⟨0x201000, 1⟩, ⟨0x200000, 4096⟩]⟩),
        (.malloc 1 0, ⟨m₂, [⟨0x201000, 1⟩, ⟨0x200000, 4096⟩]⟩),
        (.free 0x200000, ⟨m₃, [⟨0x201000, 1⟩]⟩),
        (.malloc 2 0x200000, ⟨m₄, [⟨0x200000, 2⟩, ⟨0x201000, 1⟩]⟩),
        (.free 0x201000, ⟨m₅, [⟨0x200000, 2⟩]⟩), (.free 0x200000, ⟨m₆, []⟩)] :=
    ⟨_, _, _, _, _, _, .malloc (by decide) (by decide) ⟨8, rfl⟩,
      .malloc (by decide) (by decide) ⟨8, rfl⟩, .malloc (by decide) (by decide) ⟨8, rfl⟩,
      @BootStep.free _ _ [_] [] ⟨0x200000, 4096⟩ ⟨8, rfl⟩,
      .malloc (by decide) (by decide) ⟨8, rfl⟩, @BootStep.free _ _ [_] [] ⟨0x201000, 1⟩ ⟨8, rfl⟩,
      @BootStep.free _ _ [] [] ⟨0x200000, 2⟩ ⟨8, rfl⟩, trivial⟩
  obtain ⟨m₁, m₂, m₃, m₄, m₅, m₆, hrun⟩ := hrun
  obtain ⟨-, -, -, -, -, -, hlast, -⟩ := bootRun_consistent twoFrameHeap hinit _ hrun
  obtain rfl : m₆ = twoFrameHeap := hlast.2.2.2 rfl
  exact ⟨m₁, m₂, m₃, m₄, m₅, hinit, hrun⟩

end Ganoid.Bootmem
