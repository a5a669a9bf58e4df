import Ganoid.Library.Fuelled
import Ganoid.Library.TracedMemory
import Ganoid.Types

/-!
# `memcpy`

`memcpy` of `lib/libc/string.c`, on a memory that logs what it accesses. It copies forwards, byte by
byte, so it is specified for blocks that do not overlap.
-/

open Fuelled

namespace Ganoid

/-- One pass through the loop of `memcpy`, from the memory, `i`, `d` and `s`. -/
def memcpyPass (n : U32) (v : TracedMem × U32 × U32 × U32) :
    Fuelled ((TracedMem × U32 × U32 × U32) ⊕ TracedMem) :=
  let (t, i, d, s) := v
  if i < n then
    let (c, t) := t.load8 s
    let t := t.store8 d c
    pure (.inl (t, i + 1, d + 1, s + 1))
  else pure (.inr t)

/-- `memcpy`: the memory, and the value returned. -/
def memcpy (t : TracedMem) (dest src n : U32) : Fuelled (TracedMem × U32) := do
  let t ← loop (memcpyPass n) (t, 0, dest, src)
  pure (t, dest)

/-- The first `i` bytes have been copied. -/
structure Copying (P : U32 → Prop) (t : TracedMem) (dest src n : U32)
    (v : TracedMem × U32 × U32 × U32) : Prop where
  le : v.2.1.toNat ≤ n.toNat
  dest_eq : v.2.2.1 = dest + v.2.1
  src_eq : v.2.2.2 = src + v.2.1
  within : v.1.Within P
  mem_eq : v.1.mem = t.mem.copyFrom dest t.mem src v.2.1.toNat

section Memcpy

variable {P : U32 → Prop} {t : TracedMem} {dest src n : U32}
  (hapart : Mem.Apart src n.toNat dest n.toNat) (hsrc : ∀ a, Mem.InRegion src n.toNat a → P a)
  (hdest : ∀ a, Mem.InRegion dest n.toNat a → P a)

include hapart hsrc hdest

/-- One more byte. -/
theorem Copying.pass {cur : TracedMem} {i d s : U32} (h : Copying P t dest src n (cur, i, d, s))
    (hi : i < n) :
    Copying P t dest src n ((cur.load8 s).2.store8 d (cur.load8 s).1, i + 1, d + 1, s + 1) := by
  have hlt := n.isLt
  have hi' : i.toNat < n.toNat := hi
  have hnext : (i + 1).toNat = i.toNat + 1 := by bv_omega
  have hd : d = dest + i := h.dest_eq
  have hs : s = src + i := h.src_eq
  have hmem : cur.mem = t.mem.copyFrom dest t.mem src i.toNat := h.mem_eq
  have hin : ∀ p : U32, Mem.InRegion p n.toNat (p + i) := fun p ↦ by
    rw [Mem.InRegion, Mem.add_sub_self_left]
    exact hi'
  -- the byte to be copied has not been written to
  have hbyte : cur.mem (src + i) = t.mem (src + i) := by
    rw [hmem]
    exact Mem.copyFrom_of_not_inRegion fun h ↦
      hapart _ (hin src) (Mem.InRegion.mono h (Nat.le_of_lt hi'))
  refine ⟨by dsimp only; omega, ?_, ?_, ?_, ?_⟩
  · rw [hd]
    exact BitVec.add_assoc _ _ _
  · rw [hs]
    exact BitVec.add_assoc _ _ _
  · exact (h.within.load8 (hs ▸ hsrc _ (hin src))).store8 (hd ▸ hdest _ (hin dest)) _
  · show Function.update cur.mem d (cur.mem s) = _
    have hcopy := @Mem.copyFrom_concat dest src i.toNat t.mem t.mem i.isLt
    rw [BitVec.ofNat_toNat, BitVec.setWidth_eq] at hcopy
    rw [hnext, ← hcopy, hd, hs, hbyte, hmem]

/-- **The block is copied**, and nothing outside the two blocks is accessed. -/
theorem memcpy_returns (h : t.Within P) :
    ∃ t', (memcpy t dest src n).Returns (t', dest) ∧ t'.Within P ∧
      t'.mem = t.mem.copyFrom dest t.mem src n.toNat := by
  suffices hloop : ∃ t', (loop (memcpyPass n) (t, 0, dest, src)).Returns t' ∧ t'.Within P ∧
      t'.mem = t.mem.copyFrom dest t.mem src n.toNat by
    obtain ⟨t', hret, hpost⟩ := hloop
    exact ⟨t', hret.bind (returns_pure _), hpost⟩
  refine exists_returns_of_variant (Copying P t dest src n) _ (fun v ↦ n.toNat - v.2.1.toNat) ?_
    ⟨Nat.zero_le _, (BitVec.add_zero dest).symm, (BitVec.add_zero src).symm, h,
      (Mem.copyFrom_zero _ _ _ _).symm⟩
  rintro ⟨cur, i, d, s⟩ hcur
  simp only [memcpyPass]
  by_cases hi : i < n
  · have hi' : i.toNat < n.toNat := hi
    have hnext : (i + 1).toNat = i.toNat + 1 := by bv_omega
    rw [if_pos hi]
    exact Or.inr ⟨_, returns_pure _, hcur.pass hapart hsrc hdest hi, by dsimp only; omega⟩
  · have hge : n.toNat ≤ i.toNat := BitVec.not_lt.1 hi
    have hend : i.toNat = n.toNat := Nat.le_antisymm hcur.le hge
    rw [if_neg hi]
    exact Or.inl ⟨cur, returns_pure _, hcur.within, hend ▸ hcur.mem_eq⟩

end Memcpy

end Ganoid
