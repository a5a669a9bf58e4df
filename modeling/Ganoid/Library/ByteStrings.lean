import Ganoid.Library.ByteMemory
import Mathlib.Data.List.GetD
import Mathlib.Logic.Function.Basic

/-!
# Bytes in a row

Blocks and strings in a byte-addressed memory. A loop that copies a block goes through it from the
front or from the back, and after its first byte a smaller block is left, which the loop must not
have written to: these are `Mem.copyFrom_succ` and `Mem.copyFrom_succ_last`, each with the condition
under which the direction is right, and `Mem.fill_succ` for a loop that writes the same byte.

`BytesAt m p bs` says that the bytes `bs` stand at `p`, and `StringAt m p s` that they are those of
a string, with a NUL behind them and none among them. A string fits the memory, since it would meet
itself otherwise (`StringAt.length_lt`).
-/

namespace Mem

variable {m m' : Mem} {p d s q : BitVec 32} {n : ℕ}

theorem copyFrom_zero (m : Mem) (d : BitVec 32) (src : Mem) (s : BitVec 32) :
    m.copyFrom d src s 0 = m :=
  funext fun _ ↦ if_neg (Nat.not_lt_zero _)

/-- A copy changes only the block it writes. -/
theorem copyFrom_of_not_inRegion {dst src : Mem} (h : ¬ InRegion d n q) :
    dst.copyFrom d src s n q = dst q :=
  if_neg h

theorem copyFrom_add {dst src : Mem} {k : BitVec 32} (h : k.toNat < n) :
    dst.copyFrom d src s n (d + k) = src (s + k) := by
  rw [copyFrom, add_sub_self_left, if_pos h]

/-- Offsets count on from the next address. -/
theorem toNat_sub_succ (h : q ≠ p) : (q - (p + 1)).toNat + 1 = (q - p).toNat := by
  have hne : q.toNat ≠ p.toNat := fun heq ↦ h (BitVec.eq_of_toNat_eq heq)
  bv_omega

/-- The regions have no address in common. -/
def Apart (p : BitVec 32) (k : ℕ) (q : BitVec 32) (n : ℕ) : Prop :=
  ∀ r, InRegion p k r → ¬ InRegion q n r

theorem inRegion_self (p : BitVec 32) (h : 0 < n) : InRegion p n p := by
  rw [InRegion, BitVec.sub_self]
  exact h

theorem inRegion_add {k : ℕ} (hk : k < n) (hfit : k < 2 ^ 32) :
    InRegion p n (p + BitVec.ofNat 32 k) := by
  rw [InRegion, add_sub_self_left, BitVec.toNat_ofNat, Nat.mod_eq_of_lt hfit]
  exact hk

theorem eq_add_iff {k : ℕ} (hfit : k < 2 ^ 32) : q = p + BitVec.ofNat 32 k ↔ (q - p).toNat = k := by
  bv_omega

/-- A region within a region, by offsets from the first. -/
theorem inRegion_add_iff {k : ℕ} (hfit : k + n ≤ 2 ^ 32) :
    InRegion (p + BitVec.ofNat 32 k) n q ↔ k ≤ (q - p).toNat ∧ (q - p).toNat < k + n := by
  rw [InRegion]
  bv_omega

theorem InRegion.mono {k : ℕ} (h : InRegion p k q) (hle : k ≤ n) : InRegion p n q :=
  Nat.lt_of_lt_of_le h hle

theorem inRegion_succ_iff : InRegion p (n + 1) q ↔ q = p ∨ (q ≠ p ∧ InRegion (p + 1) n q) := by
  by_cases h : q = p
  · subst h
    simp [InRegion]
  · have hsucc := toNat_sub_succ h
    simp only [h, ne_eq, not_false_eq_true, true_and, false_or]
    rw [InRegion, InRegion]
    omega

theorem InRegion.of_succ (h : InRegion (p + 1) n q) : InRegion p (n + 1) q := by
  by_cases hq : q = p
  · exact inRegion_succ_iff.2 (Or.inl hq)
  · exact inRegion_succ_iff.2 (Or.inr ⟨hq, h⟩)

namespace Apart

variable {k : ℕ}

/-- What is left of two blocks behind their first bytes. -/
theorem tail (h : Apart p (k + 1) q (n + 1)) : Apart (p + 1) k (q + 1) n :=
  fun r hp hq ↦ h r hp.of_succ hq.of_succ

theorem mono {k' n' : ℕ} (h : Apart p k q n) (hk : k' ≤ k) (hn : n' ≤ n) : Apart p k' q n' :=
  fun r hp hq ↦ h r (hp.mono hk) (hq.mono hn)

end Apart

/-- **Forwards.** The first byte is copied, and then the others, which are still as they were. -/
theorem copyFrom_succ (hfit : n < 2 ^ 32) (h : ¬ InRegion (s + 1) n d) :
    Mem.copyFrom (Function.update m d (m s)) (d + 1) (Function.update m d (m s)) (s + 1) n =
      m.copyFrom d m s (n + 1) := by
  funext q
  by_cases hq : q = d
  · subst hq
    have hlast : (q - (q + 1)).toNat = 2 ^ 32 - 1 := by bv_omega
    rw [copyFrom, copyFrom, if_neg (by omega), Function.update_self, BitVec.sub_self,
      BitVec.toNat_zero, if_pos (Nat.succ_pos n)]
    exact congrArg m (BitVec.add_zero s).symm
  · have hsucc := toNat_sub_succ hq
    have hsrc : s + 1 + (q - (d + 1)) = s + (q - d) := by bv_omega
    by_cases hin : (q - (d + 1)).toNat < n
    · have hne : s + 1 + (q - (d + 1)) ≠ d := fun heq ↦ h <| by
        rw [← heq, InRegion, add_sub_self_left]
        exact hin
      rw [copyFrom, copyFrom, if_pos hin, if_pos (by omega), Function.update_of_ne hne, hsrc]
    · rw [copyFrom, copyFrom, if_neg hin, if_neg (by omega), Function.update_of_ne hq]

/-- **Backwards.** The last byte is copied, and then the others, which are still as they were. -/
theorem copyFrom_succ_last (hfit : n < 2 ^ 32) (h : ¬ InRegion s n (d + BitVec.ofNat 32 n)) :
    Mem.copyFrom (Function.update m (d + BitVec.ofNat 32 n) (m (s + BitVec.ofNat 32 n))) d
        (Function.update m (d + BitVec.ofNat 32 n) (m (s + BitVec.ofNat 32 n))) s n =
      m.copyFrom d m s (n + 1) := by
  have hlast : (BitVec.ofNat 32 n).toNat = n := Nat.mod_eq_of_lt hfit
  funext q
  by_cases hq : q = d + BitVec.ofNat 32 n
  · subst hq
    rw [copyFrom, copyFrom, add_sub_self_left, hlast, if_neg (Nat.lt_irrefl n),
      if_pos (Nat.lt_succ_self n), Function.update_self]
  · have hoff : (q - d).toNat ≠ n := fun heq ↦ hq <| by
      rw [← heq, BitVec.ofNat_toNat, BitVec.setWidth_eq, BitVec.add_comm, BitVec.sub_add_cancel]
    by_cases hin : (q - d).toNat < n
    · have hne : s + (q - d) ≠ d + BitVec.ofNat 32 n := fun heq ↦ h <| by
        rw [← heq, InRegion, add_sub_self_left]
        exact hin
      rw [copyFrom, copyFrom, if_pos hin, if_pos (by omega), Function.update_of_ne hne]
    · rw [copyFrom, copyFrom, if_neg hin, if_neg (by omega), Function.update_of_ne hq]

/-- A copy is extended by the byte behind it. -/
theorem copyFrom_concat {dst src : Mem} (hfit : n < 2 ^ 32) :
    Function.update (dst.copyFrom d src s n) (d + BitVec.ofNat 32 n) (src (s + BitVec.ofNat 32 n)) =
      dst.copyFrom d src s (n + 1) := by
  have hlast : (BitVec.ofNat 32 n).toNat = n := Nat.mod_eq_of_lt hfit
  funext q
  by_cases hq : q = d + BitVec.ofNat 32 n
  · rw [hq, Function.update_self, copyFrom_add (hlast.symm ▸ Nat.lt_succ_self n)]
  · have hoff : (q - d).toNat ≠ n := fun heq ↦ hq ((eq_add_iff hfit).2 heq)
    rw [Function.update_of_ne hq, copyFrom, copyFrom]
    exact if_congr (by omega) rfl rfl

/-- The byte `c`, written to the `n` bytes from `p` on. -/
def fill (m : Mem) (p : BitVec 32) (n : ℕ) (c : BitVec 8) : Mem := fun q ↦
  if (q - p).toNat < n then c else m q

theorem fill_zero (m : Mem) (p : BitVec 32) (c : BitVec 8) : m.fill p 0 c = m :=
  funext fun _ ↦ if_neg (Nat.not_lt_zero _)

theorem fill_of_inRegion {c : BitVec 8} (h : InRegion p n q) : m.fill p n c q = c :=
  if_pos h

theorem fill_of_not_inRegion {c : BitVec 8} (h : ¬ InRegion p n q) : m.fill p n c q = m q :=
  if_neg h

/-- The first byte is written, and then the others. -/
theorem fill_succ (c : BitVec 8) :
    Mem.fill (Function.update m p c) (p + 1) n c = m.fill p (n + 1) c := by
  funext q
  by_cases hq : q = p
  · subst hq
    rw [fill, fill, Function.update_self, ite_self, BitVec.sub_self, BitVec.toNat_zero,
      if_pos (Nat.succ_pos n)]
  · have hsucc := toNat_sub_succ hq
    rw [fill, fill, Function.update_of_ne hq, ← hsucc]
    exact if_congr Nat.succ_lt_succ_iff.symm rfl rfl

/-! ### Bytes at an address -/

/-- The bytes `bs` stand at `p`. -/
def BytesAt (m : Mem) : BitVec 32 → List (BitVec 8) → Prop
  | _, [] => True
  | p, b :: bs => m p = b ∧ BytesAt m (p + 1) bs

@[simp] theorem bytesAt_nil (m : Mem) (p : BitVec 32) : BytesAt m p [] := trivial

@[simp]
theorem bytesAt_cons_iff {b : BitVec 8} {bs : List (BitVec 8)} :
    BytesAt m p (b :: bs) ↔ m p = b ∧ BytesAt m (p + 1) bs :=
  Iff.rfl

theorem add_ofNat_succ (p : BitVec 32) (n : ℕ) :
    p + BitVec.ofNat 32 (n + 1) = p + 1 + BitVec.ofNat 32 n := by
  rw [Nat.add_comm, BitVec.ofNat_add, BitVec.add_assoc]
  rfl

/-- The bytes in a row, one by one. -/
theorem bytesAt_iff {bs : List (BitVec 8)} :
    BytesAt m p bs ↔ ∀ i b, bs[i]? = some b → m (p + BitVec.ofNat 32 i) = b := by
  induction bs generalizing p with
  | nil => simp
  | cons c bs ih =>
    rw [bytesAt_cons_iff, ih]
    constructor
    · rintro ⟨hc, hbs⟩ i b hb
      cases i with
      | zero =>
        rw [List.getElem?_cons_zero, Option.some.injEq] at hb
        rw [← hb, ← hc, BitVec.add_zero]
      | succ i =>
        rw [add_ofNat_succ]
        exact hbs i b (by rwa [List.getElem?_cons_succ] at hb)
    · intro h
      have h0 := h 0 c rfl
      rw [BitVec.add_zero] at h0
      exact ⟨h0, fun i b hb ↦ add_ofNat_succ p i ▸ h (i + 1) b (by rwa [List.getElem?_cons_succ])⟩

theorem bytesAt_append_iff {bs cs : List (BitVec 8)} :
    BytesAt m p (bs ++ cs) ↔ BytesAt m p bs ∧ BytesAt m (p + BitVec.ofNat 32 bs.length) cs := by
  induction bs generalizing p with
  | nil => simp
  | cons b bs ih =>
    rw [List.cons_append, bytesAt_cons_iff, bytesAt_cons_iff, ih, and_assoc, List.length_cons,
      add_ofNat_succ]

/-- A change outside the bytes leaves them where they are. -/
theorem BytesAt.of_agree {bs : List (BitVec 8)} (h : BytesAt m p bs) (hfit : bs.length ≤ 2 ^ 32)
    (hagree : ∀ q, InRegion p bs.length q → m' q = m q) : BytesAt m' p bs := by
  rw [bytesAt_iff] at h ⊢
  intro i b hb
  have hi := (List.getElem?_eq_some_iff.1 hb).1
  rw [← h i b hb]
  refine hagree _ ?_
  rw [InRegion, add_sub_self_left, BitVec.toNat_ofNat]
  omega

/-- Copied bytes stand where they are copied to. -/
theorem BytesAt.copyFrom {dst src : Mem} {bs : List (BitVec 8)} (h : BytesAt src s bs)
    (hfit : bs.length ≤ 2 ^ 32) (hle : bs.length ≤ n) : BytesAt (dst.copyFrom d src s n) d bs := by
  rw [bytesAt_iff] at h ⊢
  intro i b hb
  have hi := (List.getElem?_eq_some_iff.1 hb).1
  have hoff : (BitVec.ofNat 32 i).toNat = i := Nat.mod_eq_of_lt (by omega)
  rw [copyFrom_add (by omega), h i b hb]

/-- **Copying the first byte** of a block that has no address in common with its destination: the
other bytes are still there, and copying them completes the copy. -/
theorem BytesAt.copy_first {c : BitVec 8} {bs : List (BitVec 8)} (h : BytesAt m s (c :: bs))
    (hfit : bs.length < 2 ^ 32) (hapart : Apart s (bs.length + 1) d (bs.length + 1)) :
    Function.update m d c s = c ∧ BytesAt (Function.update m d c) (s + 1) bs ∧
      Apart (s + 1) bs.length (d + 1) bs.length ∧
      Mem.copyFrom (Function.update m d c) (d + 1) (Function.update m d c) (s + 1) bs.length =
        m.copyFrom d m s (bs.length + 1) := by
  obtain ⟨hc, hbs⟩ := h
  have hne : s ≠ d := fun heq ↦
    hapart s (inRegion_self s (Nat.succ_pos _)) (heq ▸ inRegion_self s (Nat.succ_pos _))
  have hdest : ¬ InRegion (s + 1) bs.length d := fun hin ↦
    hapart d hin.of_succ (inRegion_self d (Nat.succ_pos _))
  refine ⟨by rw [Function.update_of_ne hne, hc], ?_, hapart.tail, hc ▸ copyFrom_succ hfit hdest⟩
  exact hbs.of_agree (Nat.le_of_lt hfit) fun q hq ↦
    Function.update_of_ne (fun heq : q = d ↦ hdest (heq ▸ hq)) _ _

/-! ### Strings -/

/-- The characters of a string stand at `p`, and a NUL behind them. -/
def StringAt (m : Mem) (p : BitVec 32) (s : List (BitVec 8)) : Prop :=
  BytesAt m p (s ++ [0]) ∧ ∀ c ∈ s, c ≠ 0

theorem stringAt_nil_iff : StringAt m p [] ↔ m p = 0 := by
  simp [StringAt]

theorem stringAt_cons_iff {c : BitVec 8} {s : List (BitVec 8)} :
    StringAt m p (c :: s) ↔ m p = c ∧ c ≠ 0 ∧ StringAt m (p + 1) s := by
  rw [StringAt, StringAt, List.cons_append, bytesAt_cons_iff, List.forall_mem_cons]
  exact ⟨fun ⟨⟨hc, hs⟩, hne, hall⟩ ↦ ⟨hc, hne, hs, hall⟩,
    fun ⟨hc, hne, hs, hall⟩ ↦ ⟨⟨hc, hs⟩, hne, hall⟩⟩

namespace StringAt

variable {s : List (BitVec 8)}

theorem bytesAt (h : StringAt m p s) : BytesAt m p s :=
  (bytesAt_append_iff.1 h.1).1

theorem bytesAt_take (h : StringAt m p s) (n : ℕ) : BytesAt m p (s.take n) := by
  have hbytes := h.bytesAt
  rw [← List.take_append_drop n s] at hbytes
  exact (bytesAt_append_iff.1 hbytes).1

/-- The NUL. -/
theorem nul (h : StringAt m p s) : m (p + BitVec.ofNat 32 s.length) = 0 :=
  (bytesAt_append_iff.1 h.1).2.1

/-- The character at an offset, where the NUL is one. -/
theorem apply_add (h : StringAt m p s) {k : ℕ} (hk : k ≤ s.length) :
    m (p + BitVec.ofNat 32 k) = s.getD k 0 := by
  refine bytesAt_iff.1 h.1 k _ ?_
  rcases Nat.lt_or_eq_of_le hk with hlt | rfl
  · rw [List.getElem?_append_left hlt, List.getD_eq_getElem s 0 hlt, List.getElem?_eq_getElem hlt]
  · rw [List.getElem?_concat_length, List.getD_eq_default s 0 (Nat.le_refl _)]

/-- **Appending.** A string that is left as it was is extended by the string that stands where its
NUL was. -/
theorem append {added : List (BitVec 8)} (h : StringAt m p s) (hfit : s.length ≤ 2 ^ 32)
    (hagree : ∀ q, InRegion p s.length q → m' q = m q)
    (hadded : StringAt m' (p + BitVec.ofNat 32 s.length) added) : StringAt m' p (s ++ added) := by
  refine ⟨?_, fun c hc ↦ (List.mem_append.1 hc).elim (h.2 c) (hadded.2 c)⟩
  rw [List.append_assoc, bytesAt_append_iff]
  exact ⟨h.bytesAt.of_agree hfit hagree, hadded.1⟩

/-- A string fits the memory with its NUL: the NUL is not one of its characters. -/
theorem length_lt (h : StringAt m p s) : s.length < 2 ^ 32 := by
  by_contra hge
  have hlt : s.length - 2 ^ 32 < s.length := by omega
  have hsame : BitVec.ofNat 32 (s.length - 2 ^ 32) = BitVec.ofNat 32 s.length := by
    apply BitVec.eq_of_toNat_eq
    rw [BitVec.toNat_ofNat, BitVec.toNat_ofNat]
    omega
  have hchar := h.apply_add (Nat.le_of_lt hlt)
  rw [hsame, h.nul, List.getD_eq_getElem s 0 hlt] at hchar
  exact h.2 _ (List.getElem_mem hlt) hchar.symm

/-- The characters are not NULs. -/
theorem ne_zero (h : StringAt m p s) (hq : InRegion p s.length q) : m q ≠ 0 := by
  have hchar := h.apply_add (Nat.le_of_lt hq)
  have hq' : p + BitVec.ofNat 32 (q - p).toNat = q := by
    rw [BitVec.ofNat_toNat, BitVec.setWidth_eq, BitVec.add_comm, BitVec.sub_add_cancel]
  rw [hq', List.getD_eq_getElem s 0 hq] at hchar
  exact hchar ▸ h.2 _ (List.getElem_mem hq)

/-- There is one string at an address. -/
theorem unique {s' : List (BitVec 8)} (h : StringAt m p s) (h' : StringAt m p s') : s = s' := by
  induction s generalizing p s' with
  | nil =>
    cases s' with
    | nil => rfl
    | cons c s' =>
      obtain ⟨hc, hne, -⟩ := stringAt_cons_iff.1 h'
      exact absurd (hc.symm.trans (stringAt_nil_iff.1 h)) hne
  | cons c s ih =>
    obtain ⟨hc, hne, hs⟩ := stringAt_cons_iff.1 h
    cases s' with
    | nil => exact absurd (hc.symm.trans (stringAt_nil_iff.1 h')) hne
    | cons c' s' =>
      obtain ⟨hc', -, hs'⟩ := stringAt_cons_iff.1 h'
      rw [ih hs hs', ← hc, hc']

end StringAt

/-- From an address on there is a string, unless there is no NUL in all of memory. -/
theorem exists_stringAt (m : Mem) (p : BitVec 32) : (∃ s, StringAt m p s) ∨ ∀ q, m q ≠ 0 := by
  rcases em (∃ q, m q = 0) with ⟨q, hq⟩ | hnone
  · refine Or.inl ?_
    -- by induction on the distance to some NUL, before which there may be another
    induction hk : (q - p).toNat generalizing p with
    | zero =>
      obtain rfl : q = p := by bv_omega
      exact ⟨[], stringAt_nil_iff.2 hq⟩
    | succ k ih =>
      obtain ⟨s, hs⟩ := ih (p + 1) (by bv_omega)
      rcases eq_or_ne (m p) 0 with hzero | hne
      · exact ⟨[], stringAt_nil_iff.2 hzero⟩
      · exact ⟨m p :: s, stringAt_cons_iff.2 ⟨rfl, hne, hs⟩⟩
  · exact Or.inr fun q hq ↦ hnone ⟨q, hq⟩

end Mem
