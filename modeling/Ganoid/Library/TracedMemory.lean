import Ganoid.Library.ByteStrings

/-!
# A memory with a log

A memory together with the addresses of all bytes that have been read or written. A program over it
is said to touch nothing else than some set of addresses if its log stays `Within` that set; an
access does if the bytes accessed lie in it, and what an access does to the memory is what it does
without the log.
-/

/-- A memory and the addresses of the bytes accessed, latest first. -/
structure TracedMem where
  mem : Mem
  touched : List (BitVec 32)

namespace TracedMem

/-- An access to the `k` bytes from `p` on. -/
def touch (t : TracedMem) (p : BitVec 32) (k : ℕ) : TracedMem :=
  { t with touched := (List.range k).map (fun i ↦ p + BitVec.ofNat 32 i) ++ t.touched }

/-- Read a byte. -/
def load8 (t : TracedMem) (p : BitVec 32) : BitVec 8 × TracedMem :=
  (t.mem p, t.touch p 1)

/-- Write a byte. -/
def store8 (t : TracedMem) (p : BitVec 32) (c : BitVec 8) : TracedMem :=
  { t.touch p 1 with mem := Function.update t.mem p c }

/-- Read a word. -/
def load32 (t : TracedMem) (p : BitVec 32) : BitVec 32 × TracedMem :=
  (t.mem.load32 p, t.touch p 4)

/-- Write a word. -/
def store32 (t : TracedMem) (p v : BitVec 32) : TracedMem :=
  { t.touch p 4 with mem := t.mem.store32 p v }

/-- Only bytes of the set have been accessed. -/
def Within (P : BitVec 32 → Prop) (t : TracedMem) : Prop :=
  ∀ a ∈ t.touched, P a

variable {P : BitVec 32 → Prop} {t : TracedMem} {p : BitVec 32} {k : ℕ}

@[simp] theorem mem_touch (t : TracedMem) (p : BitVec 32) (k : ℕ) : (t.touch p k).mem = t.mem := rfl

theorem Within.touch (h : t.Within P) (hk : k ≤ 2 ^ 32) (hP : ∀ a, Mem.InRegion p k a → P a) :
    (t.touch p k).Within P := by
  intro a ha
  rcases List.mem_append.1 ha with hnew | hold
  · obtain ⟨i, hi, rfl⟩ := List.mem_map.1 hnew
    rw [List.mem_range] at hi
    exact hP _ (Mem.inRegion_add hi (by omega))
  · exact h a hold

theorem Within.load8 (h : t.Within P) (hP : P p) : (t.load8 p).2.Within P := by
  refine h.touch (by omega) fun a ha ↦ ?_
  obtain rfl : a = p := by
    rw [Mem.InRegion] at ha
    bv_omega
  exact hP

theorem Within.store8 (h : t.Within P) (hP : P p) (c : BitVec 8) : (t.store8 p c).Within P :=
  h.load8 hP

theorem Within.load32 (h : t.Within P) (hP : ∀ a, Mem.InRegion p 4 a → P a) :
    (t.load32 p).2.Within P :=
  h.touch (by omega) hP

theorem Within.store32 (h : t.Within P) (hP : ∀ a, Mem.InRegion p 4 a → P a) (v : BitVec 32) :
    (t.store32 p v).Within P :=
  h.load32 hP

end TracedMem
