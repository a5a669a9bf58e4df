import Ganoid.Libc.Str
import Ganoid.Library.Lexicographic
import Mathlib.Algebra.Order.Group.Int

/-!
# What the comparing functions order

`memcmp`, `strcmp` and `strncmp` return the difference of the first bytes that differ, and a `char`
is signed. Each of them therefore orders by signed bytes: blocks as they are (`memcmp_hasSign`),
strings with the NUL for their last character (`strncmp_hasSign`), and `strcmp` in addition stops
where its first string ends, so that it finds a string equal to all that begin with it
(`strcmp_hasSign`).

The order that is expected is that of the bytes as `unsigned char`. The two agree exactly where the
first bytes that differ are both below 0x80 or neither is (`compareLex_signed_iff`).
-/

open Fuelled
open Std (LawfulEqCmp LawfulEqOrd OrientedOrd TransCmp TransOrd)

namespace Ganoid

open Str Lexicographic

/-! ### The two orders of bytes -/

/-- Bytes as `unsigned char`. -/
def unsignedOrder (c d : U8) : Ordering := compare c.toNat d.toNat

/-- Bytes as `char`. -/
def signedOrder (c d : U8) : Ordering := compare c.toInt d.toInt

instance : TransCmp unsignedOrder where
  eq_swap := OrientedOrd.eq_swap (α := ℕ)
  isLE_trans := TransOrd.isLE_trans (α := ℕ)

instance : LawfulEqCmp unsignedOrder where
  eq_of_compare h := BitVec.eq_of_toNat_eq (LawfulEqOrd.eq_of_compare h)

instance : TransCmp signedOrder where
  eq_swap := OrientedOrd.eq_swap (α := ℤ)
  isLE_trans := TransOrd.isLE_trans (α := ℤ)

instance : LawfulEqCmp signedOrder where
  eq_of_compare h := BitVec.eq_of_toInt_eq (LawfulEqOrd.eq_of_compare h)

theorem compareLex_signed_eq_iff {x y : List U8} : x.compareLex signedOrder y = .eq ↔ x = y :=
  LawfulEqCmp.compare_eq_iff_eq

theorem compareLex_signed_swap (x y : List U8) :
    x.compareLex signedOrder y = (y.compareLex signedOrder x).swap :=
  Std.OrientedCmp.eq_swap

/-- Different bytes are in the same order exactly when both are below 0x80 or neither is. -/
theorem signedOrder_eq_iff {c d : U8} (h : c ≠ d) :
    signedOrder c d = unsignedOrder c d ↔ c.msb = d.msb := by
  have hne : c.toNat ≠ d.toNat := fun heq ↦ h (BitVec.eq_of_toNat_eq heq)
  rw [signedOrder, unsignedOrder]
  rcases Nat.lt_or_gt_of_ne hne with hlt | hgt
  · rw [compare_lt_iff_lt.2 hlt, compare_lt_iff_lt]
    simp only [BitVec.toInt_eq_msb_cond, BitVec.msb_eq_decide, decide_eq_true_eq, decide_eq_decide]
    split <;> split <;> omega
  · rw [compare_gt_iff_gt.2 hgt, compare_gt_iff_gt]
    simp only [BitVec.toInt_eq_msb_cond, BitVec.msb_eq_decide, decide_eq_true_eq, decide_eq_decide]
    split <;> split <;> omega

/-- The first bytes in which two blocks differ are both below 0x80, or neither is. -/
def SameHalf (x y : List U8) : Prop := AtFirstDifference (fun c d ↦ c.msb = d.msb) x y

theorem compareLex_signed_iff (x y : List U8) :
    x.compareLex signedOrder y = x.compareLex unsignedOrder y ↔ SameHalf x y := by
  rw [compareLex_eq_iff, SameHalf]
  exact atFirstDifference_congr fun c d hne ↦ signedOrder_eq_iff hne

/-- The sign of the value returned. -/
def HasSign (x : Fuelled U32) (o : Ordering) : Prop :=
  ∃ r, x.Returns r ∧ compare r.toInt 0 = o

theorem HasSign.unique {x : Fuelled U32} {o o' : Ordering} (h : HasSign x o) (h' : HasSign x o') :
    o = o' := by
  obtain ⟨r, hret, rfl⟩ := h
  obtain ⟨r', hret', rfl⟩ := h'
  rw [hret.unique hret']

theorem hasSign_eq {x : Fuelled U32} (h : x.Returns 0) : HasSign x .eq :=
  ⟨0, h, rfl⟩

/-! ### The loops -/

theorem toInt_charAt_sub (m : Mem) (p q : U32) :
    (charAt m p - charAt m q).toInt = (m p).toInt - (m q).toInt := by
  have hp := BitVec.toInt_lt (x := m p)
  have hq := BitVec.toInt_lt (x := m q)
  have hp' := BitVec.le_toInt (m p)
  have hq' := BitVec.le_toInt (m q)
  rw [charAt, charAt, BitVec.toInt_sub, BitVec.toInt_signExtend_of_le (by decide),
    BitVec.toInt_signExtend_of_le (by decide)]
  exact Int.bmod_eq_of_le (by omega) (by omega)

/-- The difference is 0 for equal bytes only. -/
theorem charAt_sub_eq_zero_iff {m : Mem} {p q : U32} :
    charAt m p - charAt m q = 0 ↔ m p = m q := by
  constructor
  · intro h
    have hint := toInt_charAt_sub m p q
    rw [h] at hint
    exact BitVec.eq_of_toInt_eq (Int.sub_eq_zero.1 hint.symm)
  · intro h
    rw [charAt, charAt, h]
    exact BitVec.sub_self _

/-- Different bytes decide, by their order as `char`. -/
theorem hasSign_charAt_sub {m : Mem} {p q : U32} {x : Fuelled U32}
    (h : x.Returns (charAt m p - charAt m q)) : HasSign x (signedOrder (m p) (m q)) := by
  refine ⟨_, h, ?_⟩
  rw [toInt_charAt_sub, signedOrder]
  rcases Int.lt_trichotomy (m p).toInt (m q).toInt with hlt | heq | hgt
  · rw [compare_lt_iff_lt.2 hlt, compare_lt_iff_lt]
    omega
  · rw [compare_eq_iff_eq.2 heq, compare_eq_iff_eq]
    omega
  · rw [compare_gt_iff_gt.2 hgt, compare_gt_iff_gt]
    omega

/-- What returns the difference of the first bytes of two blocks, where they differ, orders the
blocks. -/
theorem hasSign_of_ne {m : Mem} {p q : U32} {f : Fuelled U32} {c d : U8} {x y : List U8}
    (hc : m p = c) (hd : m q = d) (hcd : c ≠ d)
    (h : charAt m p - charAt m q ≠ 0 → f.Returns (charAt m p - charAt m q)) :
    HasSign f ((c :: x).compareLex signedOrder (d :: y)) := by
  rw [compareLex_cons_of_ne hcd, ← hc, ← hd]
  exact hasSign_charAt_sub (h (mt charAt_sub_eq_zero_iff.1 (by rwa [hc, hd])))

theorem hasSign_loop_of_again {σ : Type} {body : σ → Fuelled (σ ⊕ U32)} {s s' : σ} {o : Ordering}
    (h : (body s).Returns (.inl s')) (hs : HasSign (loop body s') o) : HasSign (loop body s) o := by
  obtain ⟨r, hret, hsign⟩ := hs
  exact ⟨r, returns_loop_of_again h hret, hsign⟩

/-- What `strcmp` makes of two strings: it finds one equal to all that begin with it, and orders the
others by signed bytes with the NULs. -/
def strcmpOrder (a b : List U8) : Ordering :=
  if a <+: b then .eq else (a ++ [0]).compareLex signedOrder (b ++ [0])

namespace Str

/-- `memcmp` orders blocks by signed bytes. -/
theorem compareBlocks_hasSign {m : Mem} {n i a1 a2 : U32} {x y : List U8}
    (hx : Mem.BytesAt m a1 x) (hy : Mem.BytesAt m a2 y) (hlen : x.length = y.length)
    (hi : i.toNat + x.length = n.toNat) :
    HasSign (compareBlocks m n (i, a1, a2)) (x.compareLex signedOrder y) := by
  induction x generalizing i a1 a2 y with
  | nil =>
    obtain rfl := List.length_eq_zero_iff.1 hlen.symm
    have hend : ¬ i < n := by
      rw [BitVec.lt_def, ← hi]
      exact Nat.lt_irrefl _
    refine hasSign_eq (returns_loop_of_leave ?_)
    simp only [if_neg hend]
    exact returns_pure _
  | cons c x ih =>
    cases y with
    | nil => exact absurd hlen (by simp)
    | cons d y =>
      obtain ⟨hc, hx⟩ := hx
      obtain ⟨hd, hy⟩ := hy
      rw [List.length_cons] at hi
      have hless : i < n := by
        rw [BitVec.lt_def]
        omega
      by_cases hcd : c = d
      · subst hcd
        have hsame := charAt_sub_eq_zero_iff.2 (hc.trans hd.symm)
        rw [compareLex_cons_self]
        refine hasSign_loop_of_again ?_
          (ih hx hy (Nat.succ.inj hlen) (show (i + 1).toNat + x.length = n.toNat by bv_omega))
        simp only [if_pos hless, hsame, ne_eq, not_true_eq_false, if_false]
        exact returns_pure _
      · refine hasSign_of_ne hc hd hcd fun hne ↦ returns_loop_of_leave ?_
        simp only [if_pos hless, if_pos hne]
        exact returns_pure _

theorem compareStrings_hasSign {m : Mem} {s1 s2 : U32} {a b : List U8}
    (ha : Mem.StringAt m s1 a) (hb : Mem.StringAt m s2 b) :
    HasSign (compareStrings m (s1, s2)) (strcmpOrder a b) := by
  rw [strcmpOrder]
  induction a generalizing s1 s2 b with
  | nil =>
    rw [if_pos List.nil_prefix]
    refine hasSign_eq (returns_loop_of_leave ?_)
    simp only [if_neg (not_not_intro (Mem.stringAt_nil_iff.1 ha))]
    exact returns_pure _
  | cons c a ih =>
    obtain ⟨hc, hnul, ha⟩ := Mem.stringAt_cons_iff.1 ha
    have hleave : ∀ {d : U8} {t : List U8}, m s2 = d → c ≠ d →
        HasSign (compareStrings m (s1, s2)) ((c :: (a ++ [0])).compareLex signedOrder (d :: t)) :=
      fun hd hcd ↦ by
        refine hasSign_of_ne hc hd hcd fun hne ↦ returns_loop_of_leave ?_
        simp only [hc, if_pos hnul, if_pos hne]
        exact returns_pure _
    cases b with
    | nil =>
      rw [if_neg (by simp)]
      exact hleave (Mem.stringAt_nil_iff.1 hb) hnul
    | cons d b =>
      obtain ⟨hd, -, hb'⟩ := Mem.stringAt_cons_iff.1 hb
      by_cases hcd : c = d
      · subst hcd
        have hsame := charAt_sub_eq_zero_iff.2 (hc.trans hd.symm)
        simp only [List.cons_prefix_cons, true_and, List.cons_append, compareLex_cons_self]
        refine hasSign_loop_of_again ?_ (ih ha hb')
        simp only [hc, if_pos hnul, hsame, ne_eq, not_true_eq_false, if_false]
        exact returns_pure _
      · rw [if_neg fun h ↦ hcd (List.cons_prefix_cons.1 h).1]
        exact hleave hd hcd

/-- `strncmp` orders by signed bytes what it reads of the strings with their NULs. -/
theorem comparePrefixes_hasSign {m : Mem} {n i s1 s2 : U32} {a b : List U8}
    (ha : Mem.StringAt m s1 a) (hb : Mem.StringAt m s2 b) {k : ℕ} (hk : i.toNat + k = n.toNat) :
    HasSign (comparePrefixes m n (i, s1, s2))
      (((a ++ [0]).take k).compareLex signedOrder ((b ++ [0]).take k)) := by
  induction k generalizing i s1 s2 a b with
  | zero =>
    have hend : ¬ i < n := by
      rw [BitVec.lt_def]
      omega
    refine hasSign_eq (returns_loop_of_leave ?_)
    simp only [if_neg hend]
    exact returns_pure _
  | succ k ih =>
    have hless : i < n := by
      rw [BitVec.lt_def]
      omega
    have hleave : ∀ {c d : U8} {x y : List U8}, m s1 = c → m s2 = d → c ≠ d →
        HasSign (comparePrefixes m n (i, s1, s2)) ((c :: x).compareLex signedOrder (d :: y)) :=
      fun hc hd hcd ↦ by
        refine hasSign_of_ne hc hd hcd fun hne ↦ returns_loop_of_leave ?_
        simp only [if_pos hless, if_pos hne]
        exact returns_pure _
    cases a with
    | nil =>
      have hc := Mem.stringAt_nil_iff.1 ha
      cases b with
      | nil =>
        have hsame := charAt_sub_eq_zero_iff.2 (hc.trans (Mem.stringAt_nil_iff.1 hb).symm)
        rw [compareLex_signed_eq_iff.2 rfl]
        refine hasSign_eq (returns_loop_of_leave ?_)
        simp only [if_pos hless, hsame, hc, ne_eq, not_true_eq_false, if_false, if_true]
        exact returns_pure _
      | cons d b =>
        obtain ⟨hd, hnul, -⟩ := Mem.stringAt_cons_iff.1 hb
        exact hleave hc hd hnul.symm
    | cons c a =>
      obtain ⟨hc, hnul, ha'⟩ := Mem.stringAt_cons_iff.1 ha
      cases b with
      | nil => exact hleave hc (Mem.stringAt_nil_iff.1 hb) hnul
      | cons d b =>
        obtain ⟨hd, -, hb'⟩ := Mem.stringAt_cons_iff.1 hb
        by_cases hcd : c = d
        · subst hcd
          have hsame := charAt_sub_eq_zero_iff.2 (hc.trans hd.symm)
          rw [List.cons_append, List.cons_append, List.take_succ_cons, List.take_succ_cons,
            compareLex_cons_self]
          refine hasSign_loop_of_again ?_ (ih ha' hb' (show (i + 1).toNat + k = _ by bv_omega))
          simp only [if_pos hless, hsame, hc, if_neg hnul, ne_eq, not_true_eq_false, if_false]
          exact returns_pure _
        · exact hleave hc hd hcd

/-- The loop of `strncmp` returns, and reads no byte behind the first `n`. -/
theorem comparePrefixes_congr {m m' : Mem} {n i s1 s2 s1' s2' : U32} {k : ℕ}
    (hk : n.toNat - i.toNat = k)
    (h1 : ∀ j < k, m' (s1' + BitVec.ofNat 32 j) = m (s1 + BitVec.ofNat 32 j))
    (h2 : ∀ j < k, m' (s2' + BitVec.ofNat 32 j) = m (s2 + BitVec.ofNat 32 j)) :
    ∃ r, (comparePrefixes m n (i, s1, s2)).Returns r ∧
      (comparePrefixes m' n (i, s1', s2')).Returns r := by
  induction k generalizing i s1 s2 s1' s2' with
  | zero =>
    have hend : ¬ i < n := by
      rw [BitVec.lt_def]
      omega
    refine ⟨0, returns_loop_of_leave ?_, returns_loop_of_leave ?_⟩ <;>
    · simp only [if_neg hend]
      exact returns_pure _
  | succ k ih =>
    have hless : i < n := by
      rw [BitVec.lt_def]
      omega
    have hc := h1 0 (Nat.succ_pos k)
    have hd := h2 0 (Nat.succ_pos k)
    rw [BitVec.add_zero, BitVec.add_zero] at hc hd
    have hdiff : charAt m' s1' - charAt m' s2' = charAt m s1 - charAt m s2 := by
      rw [charAt, charAt, hc, hd]
      rfl
    by_cases hne : charAt m s1 - charAt m s2 ≠ 0
    · refine ⟨charAt m s1 - charAt m s2, returns_loop_of_leave ?_, returns_loop_of_leave ?_⟩
      · simp only [if_pos hless, if_pos hne]
        exact returns_pure _
      · simp only [if_pos hless, hdiff, if_pos hne]
        exact returns_pure _
    · by_cases hnul : m s1 = 0
      · refine ⟨0, returns_loop_of_leave ?_, returns_loop_of_leave ?_⟩
        · simp only [if_pos hless, if_neg hne, if_pos hnul]
          exact returns_pure _
        · simp only [if_pos hless, hdiff, if_neg hne, hc, if_pos hnul]
          exact returns_pure _
      · have hnext : ∀ {p p' : U32}, (∀ j < k + 1, m' (p' + BitVec.ofNat 32 j) =
            m (p + BitVec.ofNat 32 j)) → ∀ j < k, m' (p' + 1 + BitVec.ofNat 32 j) =
            m (p + 1 + BitVec.ofNat 32 j) := fun h j hj ↦ by
          rw [← Mem.add_ofNat_succ, ← Mem.add_ofNat_succ]
          exact h (j + 1) (Nat.succ_lt_succ hj)
        obtain ⟨r, hret, hret'⟩ := @ih (i + 1) (s1 + 1) (s2 + 1) (s1' + 1) (s2' + 1)
          (by bv_omega) (hnext h1) (hnext h2)
        refine ⟨r, returns_loop_of_again ?_ hret, returns_loop_of_again ?_ hret'⟩
        · simp only [if_pos hless, if_neg hne, if_neg hnul]
          exact returns_pure _
        · simp only [if_pos hless, hdiff, if_neg hne, hc, if_neg hnul]
          exact returns_pure _

end Str

/-! ### The functions -/

section Strings

variable {m : Mem} {p q t : U32} {a b c : List U8}

theorem hasSign_iff {x : Fuelled U32} {o o' : Ordering} (h : HasSign x o) :
    HasSign x o' ↔ o = o' :=
  ⟨h.unique, fun heq ↦ heq ▸ h⟩

/-- **`memcmp`** orders blocks by signed bytes. -/
theorem memcmp_hasSign {x y : List U8} {n : U32} (hx : Mem.BytesAt m p x) (hy : Mem.BytesAt m q y)
    (hxlen : x.length = n.toNat) (hylen : y.length = n.toNat) :
    HasSign (memcmp m p q n) (x.compareLex signedOrder y) :=
  compareBlocks_hasSign hx hy (hxlen.trans hylen.symm) (by rw [hxlen]; exact Nat.zero_add _)

/-- **`strcmp`** orders strings by `strcmpOrder`. -/
theorem strcmp_hasSign (ha : Mem.StringAt m p a) (hb : Mem.StringAt m q b) :
    HasSign (strcmp m p q) (strcmpOrder a b) :=
  compareStrings_hasSign ha hb

/-- **`strncmp`** orders by signed bytes what it reads of the strings with their NULs. -/
theorem strncmp_hasSign (ha : Mem.StringAt m p a) (hb : Mem.StringAt m q b) (n : U32) :
    HasSign (strncmp m p q n)
      (((a ++ [0]).take n.toNat).compareLex signedOrder ((b ++ [0]).take n.toNat)) :=
  comparePrefixes_hasSign ha hb (Nat.zero_add _)

/-- The order that is expected of strings and blocks: lexicographic, by bytes as `unsigned char`. -/
def byteOrder (a b : List U8) : Ordering := a.compareLex unsignedOrder b

theorem byteOrder_concat (ha : ∀ c ∈ a, c ≠ 0) (hb : ∀ c ∈ b, c ≠ 0) :
    (a ++ [0]).compareLex unsignedOrder (b ++ [0]) = byteOrder a b := by
  have hnul : ∀ c : U8, c ≠ 0 → unsignedOrder 0 c = .lt := fun c hc ↦ by
    have hpos : c.toNat ≠ 0 := fun h ↦ hc (BitVec.eq_of_toNat_eq h)
    exact compare_lt_iff_lt.2 (Nat.pos_of_ne_zero hpos)
  exact compareLex_concat (fun c hc ↦ hnul c (ha c hc)) fun c hc ↦ hnul c (hb c hc)

theorem concat_compareLex_eq_iff :
    (a ++ [0]).compareLex signedOrder (b ++ [0]) = .eq ↔ a = b := by
  rw [compareLex_signed_eq_iff]
  exact ⟨List.append_cancel_right, fun h ↦ h ▸ rfl⟩

theorem strcmpOrder_eq_iff : strcmpOrder a b = .eq ↔ a <+: b := by
  rw [strcmpOrder]
  split
  · exact iff_of_true rfl ‹_›
  · refine iff_of_false (fun h ↦ ?_) ‹_›
    have heq := concat_compareLex_eq_iff.1 h
    exact absurd (heq ▸ List.prefix_rfl) ‹¬ a <+: b›

theorem strcmpOrder_of_not_isPrefix (h : ¬ a <+: b) :
    strcmpOrder a b = (a ++ [0]).compareLex signedOrder (b ++ [0]) :=
  if_neg h

/-- **`strcmp` is right** about two strings when the first is not a proper prefix of the second, and
the bytes in which they first differ are both below 0x80 or neither is. -/
theorem strcmpOrder_eq_byteOrder_iff (ha : ∀ c ∈ a, c ≠ 0) (hb : ∀ c ∈ b, c ≠ 0) :
    strcmpOrder a b = byteOrder a b ↔ (a <+: b → a = b) ∧ SameHalf (a ++ [0]) (b ++ [0]) := by
  rw [← compareLex_signed_iff, byteOrder_concat ha hb]
  by_cases hprefix : a <+: b
  · rw [strcmpOrder_eq_iff.2 hprefix, forall_prop_of_true hprefix, eq_comm]
    have hbyte : byteOrder a b = .eq ↔ a = b := by
      rw [byteOrder]
      exact LawfulEqCmp.compare_eq_iff_eq
    rw [hbyte]
    refine ⟨fun heq ↦ ⟨heq, ?_⟩, And.left⟩
    rw [concat_compareLex_eq_iff.2 heq, hbyte.2 heq]
  · rw [strcmpOrder_of_not_isPrefix hprefix]
    exact (and_iff_right fun h ↦ absurd h hprefix).symm

/-- **`strcmp` is antisymmetric** on two strings neither of which is a proper prefix of the
other. -/
theorem strcmpOrder_swap_iff : strcmpOrder b a = (strcmpOrder a b).swap ↔ (a <+: b ↔ b <+: a) := by
  by_cases hab : a <+: b
  · rw [strcmpOrder_eq_iff.2 hab]
    exact strcmpOrder_eq_iff.trans (iff_true_left hab).symm
  · by_cases hba : b <+: a
    · rw [strcmpOrder_eq_iff.2 hba, eq_comm, Ordering.swap_eq_eq, strcmpOrder_eq_iff]
      exact (iff_true_right hba).symm
    · rw [strcmpOrder_of_not_isPrefix hab, strcmpOrder_of_not_isPrefix hba]
      exact iff_of_true (compareLex_signed_swap _ _) (iff_of_false hab hba)

/-- **`strcmp` is transitive** in its sign. -/
theorem strcmpOrder_trans (ha : ∀ c ∈ a, c ≠ 0) {o : Ordering} (hab : strcmpOrder a b = o)
    (hbc : strcmpOrder b c = o) : strcmpOrder a c = o := by
  by_cases heq : o = .eq
  · subst heq
    exact strcmpOrder_eq_iff.2 ((strcmpOrder_eq_iff.1 hab).trans (strcmpOrder_eq_iff.1 hbc))
  · have hab' : ¬ a <+: b := fun h ↦ heq (hab ▸ strcmpOrder_eq_iff.2 h)
    have hbc' : ¬ b <+: c := fun h ↦ heq (hbc ▸ strcmpOrder_eq_iff.2 h)
    rw [strcmpOrder_of_not_isPrefix hab'] at hab
    rw [strcmpOrder_of_not_isPrefix hbc'] at hbc
    -- a string that begins with `a` would be on the same side of `b` as `a` is
    have hac' : ¬ a <+: c := fun h ↦ by
      rw [compareLex_of_isPrefix (fun hz ↦ ha 0 hz rfl) h hab', compareLex_signed_swap, hab] at hbc
      cases o with
      | lt => exact absurd hbc (by decide)
      | eq => exact heq rfl
      | gt => exact absurd hbc (by decide)
    rw [strcmpOrder_of_not_isPrefix hac']
    cases o with
    | lt => exact Std.TransCmp.lt_trans hab hbc
    | eq => exact absurd rfl heq
    | gt => exact Std.TransCmp.gt_trans hab hbc

/-! ### The laws -/

/-- The sign of a comparison changes when its arguments do places. -/
def AntisymmetricAt (f : U32 → U32 → Fuelled U32) (p q : U32) : Prop :=
  ∃ o, HasSign (f p q) o ∧ HasSign (f q p) o.swap

/-- Two comparisons in a row with the same sign give it to the comparison of the ends. -/
def TransitiveAt (f : U32 → U32 → Fuelled U32) (p q t : U32) : Prop :=
  ∀ o, HasSign (f p q) o → HasSign (f q t) o → HasSign (f p t) o

/-- A function that orders lists by signed bytes is antisymmetric. -/
theorem antisymmetricAt_of_hasSign {f : U32 → U32 → Fuelled U32} {x y : List U8}
    (hpq : HasSign (f p q) (x.compareLex signedOrder y))
    (hqp : HasSign (f q p) (y.compareLex signedOrder x)) : AntisymmetricAt f p q := by
  refine ⟨_, hpq, ?_⟩
  rw [← compareLex_signed_swap]
  exact hqp

/-- And it is transitive. -/
theorem transitiveAt_of_hasSign {f : U32 → U32 → Fuelled U32} {x y z : List U8}
    (hpq : HasSign (f p q) (x.compareLex signedOrder y))
    (hqt : HasSign (f q t) (y.compareLex signedOrder z))
    (hpt : HasSign (f p t) (x.compareLex signedOrder z)) : TransitiveAt f p q t := by
  intro o ho ho'
  rw [hasSign_iff hpq] at ho
  rw [hasSign_iff hqt] at ho'
  rw [hasSign_iff hpt]
  cases o with
  | lt => exact TransCmp.lt_trans ho ho'
  | eq => exact TransCmp.eq_trans ho ho'
  | gt => exact TransCmp.gt_trans ho ho'

/-- What `strcmp` does about the strings `a` at `p` and `b` at `q`, and a third one. -/
structure StrcmpOrders (m : Mem) (p q t : U32) (a b : List U8) : Prop where
  sign : HasSign (strcmp m p q) (byteOrder a b) ↔
    (a <+: b → a = b) ∧ SameHalf (a ++ [0]) (b ++ [0])
  antisymm : AntisymmetricAt (strcmp m) p q ↔ (a <+: b ↔ b <+: a)
  trans : TransitiveAt (strcmp m) p q t

/-- What `strncmp` does about them. -/
structure StrncmpOrders (m : Mem) (p q t : U32) (a b : List U8) (n : U32) : Prop where
  sign : a.length < n.toNat → b.length < n.toNat →
    (HasSign (strncmp m p q n) (byteOrder a b) ↔ SameHalf (a ++ [0]) (b ++ [0]))
  reads : ∀ m' p' q', (∀ k, k < n → m' (p' + k) = m (p + k)) →
    (∀ k, k < n → m' (q' + k) = m (q + k)) →
      ∀ r, (strncmp m' p' q' n).Returns r ↔ (strncmp m p q n).Returns r
  antisymm : AntisymmetricAt (fun s1 s2 ↦ strncmp m s1 s2 n) p q
  trans : TransitiveAt (fun s1 s2 ↦ strncmp m s1 s2 n) p q t

/-- What `memcmp` does about the blocks `x` at `p` and `y` at `q`, and a third one. -/
structure MemcmpOrders (m : Mem) (p q t : U32) (x y : List U8) (n : U32) : Prop where
  sign : HasSign (memcmp m p q n) (byteOrder x y) ↔ SameHalf x y
  antisymm : AntisymmetricAt (fun s1 s2 ↦ memcmp m s1 s2 n) p q
  trans : TransitiveAt (fun s1 s2 ↦ memcmp m s1 s2 n) p q t

theorem strcmpOrders (ha : Mem.StringAt m p a) (hb : Mem.StringAt m q b) (hc : Mem.StringAt m t c) :
    StrcmpOrders m p q t a b where
  sign := (hasSign_iff (strcmp_hasSign ha hb)).trans (strcmpOrder_eq_byteOrder_iff ha.2 hb.2)
  antisymm := by
    rw [← strcmpOrder_swap_iff, ← hasSign_iff (strcmp_hasSign hb ha)]
    constructor
    · rintro ⟨o, ho, ho'⟩
      rwa [(hasSign_iff (strcmp_hasSign ha hb)).1 ho]
    · exact fun h ↦ ⟨_, strcmp_hasSign ha hb, h⟩
  trans := fun o ho ho' ↦ (hasSign_iff (strcmp_hasSign ha hc)).2 <|
    strcmpOrder_trans ha.2 ((hasSign_iff (strcmp_hasSign ha hb)).1 ho)
      ((hasSign_iff (strcmp_hasSign hb hc)).1 ho')

theorem strncmpOrders (ha : Mem.StringAt m p a) (hb : Mem.StringAt m q b)
    (hc : Mem.StringAt m t c) (n : U32) : StrncmpOrders m p q t a b n where
  sign hlt hlt' := by
    have h := strncmp_hasSign ha hb n
    rw [List.take_of_length_le (by rw [List.length_append]; exact hlt),
      List.take_of_length_le (by rw [List.length_append]; exact hlt')] at h
    rw [hasSign_iff h, ← byteOrder_concat ha.2 hb.2, compareLex_signed_iff]
  reads m' p' q' hp hq r := by
    have hread : ∀ {s s' : U32}, (∀ k, k < n → m' (s' + k) = m (s + k)) →
        ∀ j < n.toNat, m' (s' + BitVec.ofNat 32 j) = m (s + BitVec.ofNat 32 j) := fun h j hj ↦ by
      refine h _ ?_
      rw [BitVec.lt_def, BitVec.toNat_ofNat, Nat.mod_eq_of_lt (Nat.lt_trans hj n.isLt)]
      exact hj
    obtain ⟨r', hret, hret'⟩ := comparePrefixes_congr (i := 0) (n := n) rfl (hread hp) (hread hq)
    exact ⟨fun h ↦ h.unique hret' ▸ hret, fun h ↦ h.unique hret ▸ hret'⟩
  antisymm := antisymmetricAt_of_hasSign (strncmp_hasSign ha hb n) (strncmp_hasSign hb ha n)
  trans := transitiveAt_of_hasSign (strncmp_hasSign ha hb n) (strncmp_hasSign hb hc n)
    (strncmp_hasSign ha hc n)

theorem memcmpOrders {x y z : List U8} {n : U32} (hx : Mem.BytesAt m p x) (hy : Mem.BytesAt m q y)
    (hz : Mem.BytesAt m t z) (hxlen : x.length = n.toNat) (hylen : y.length = n.toNat)
    (hzlen : z.length = n.toNat) : MemcmpOrders m p q t x y n where
  sign := (hasSign_iff (memcmp_hasSign hx hy hxlen hylen)).trans (compareLex_signed_iff x y)
  antisymm := antisymmetricAt_of_hasSign (memcmp_hasSign hx hy hxlen hylen)
    (memcmp_hasSign hy hx hylen hxlen)
  trans := transitiveAt_of_hasSign (memcmp_hasSign hx hy hxlen hylen)
    (memcmp_hasSign hy hz hylen hzlen) (memcmp_hasSign hx hz hxlen hzlen)

/-- **The comparing functions against the order of unsigned bytes.** -/
theorem comparisons_order (ha : Mem.StringAt m p a) (hb : Mem.StringAt m q b)
    (hc : Mem.StringAt m t c) :
    StrcmpOrders m p q t a b ∧ (∀ n, StrncmpOrders m p q t a b n) ∧
      ∀ n x y z, Mem.BytesAt m p x → Mem.BytesAt m q y → Mem.BytesAt m t z →
        x.length = n.toNat → y.length = n.toNat → z.length = n.toNat →
          MemcmpOrders m p q t x y n :=
  ⟨strcmpOrders ha hb hc, strncmpOrders ha hb hc,
    fun _ _ _ _ hx hy hz hxlen hylen hzlen ↦ memcmpOrders hx hy hz hxlen hylen hzlen⟩

end Strings

/-- A memory that holds the string of one letter at 0x1000, and the empty one everywhere behind. -/
def oneLetter : Mem := fun q ↦ if q = 0x1000 then 0x61 else 0

theorem comparisons_order_letter : HasSign (strcmp oneLetter 0x1000 0x2000) .gt ∧
    HasSign (strncmp oneLetter 0x1000 0x2000 2) .gt ∧
    HasSign (memcmp oneLetter 0x1000 0x2000 1) .gt := by
  have hletter : Mem.StringAt oneLetter 0x1000 [0x61] := ⟨⟨rfl, rfl, trivial⟩, by decide⟩
  have hnil : ∀ {q : U32}, oneLetter q = 0 → Mem.StringAt oneLetter q [] := Mem.stringAt_nil_iff.2
  obtain ⟨hstrcmp, hstrncmp, hmemcmp⟩ :=
    comparisons_order hletter (hnil (q := 0x2000) rfl) (hnil (q := 0x3000) rfl)
  have hhalf : ∀ x : List U8, SameHalf (0x61 :: x) [0] := fun x ↦
    (atFirstDifference_cons_iff_of_ne (by decide)).2 rfl
  refine ⟨hstrcmp.sign.2 ⟨by decide, hhalf _⟩, (hstrncmp 2).sign (by decide) (by decide) |>.2
    (hhalf _), ?_⟩
  exact (hmemcmp 1 [0x61] [0] [0] ⟨rfl, trivial⟩ ⟨rfl, trivial⟩ ⟨rfl, trivial⟩ rfl rfl rfl).sign.2
    (hhalf _)

/-- The empty string is a proper prefix, and `strcmp` finds it equal. -/
theorem not_strcmp_hasSign_prefix : Mem.StringAt oneLetter 0x2000 [] ∧
    Mem.StringAt oneLetter 0x1000 [0x61] ∧ (strcmp oneLetter 0x2000 0x1000).Returns 0 ∧
    ¬ HasSign (strcmp oneLetter 0x2000 0x1000) (byteOrder [] [0x61]) := by
  have hret : (strcmp oneLetter 0x2000 0x1000).Returns 0 := ⟨1, rfl⟩
  refine ⟨Mem.stringAt_nil_iff.2 rfl, ⟨⟨rfl, rfl, trivial⟩, by decide⟩, hret, fun h ↦ ?_⟩
  exact absurd ((hasSign_eq hret).unique h) (by decide)

end Ganoid
