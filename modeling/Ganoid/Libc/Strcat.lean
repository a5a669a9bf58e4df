import Ganoid.Libc.Copying

/-!
# The functions that trust the NUL

`strcpy` and `strcat` of `lib/libc/string.c`, which have no counter, and `memset`. For each of them
it is said exactly when it returns, of any memory at all.

`strcpy` overwrites the NUL it is looking for where the destination is one of the places behind the
first character of the source. From then on it copies what it has written, and it never sees a NUL
again. Where the functions return, the result is right, even where it wraps around the end of memory.
-/

open Fuelled

namespace Ganoid

namespace Str

/-- The loop of `strcpy`, from the memory, `dest` and `src`. -/
def copyString : Mem × U32 × U32 → Fuelled Mem :=
  loop fun (m, dest, src) ↦
    let m := Function.update m dest (m src)
    if m src = 0 then pure (.inr m) else pure (.inl (m, dest + 1, src + 1))

/-- The loop of `memset`, from the memory, `i` and `p`. -/
def fillCounted (c : U8) (n : U32) : Mem × U32 × U32 → Fuelled Mem :=
  loop fun (m, i, p) ↦
    if i < n then pure (.inl (Function.update m p c, i + 1, p + 1)) else pure (.inr m)

end Str

open Str

/-- `memset`: the memory, and the value returned. -/
def memset (m : Mem) (s c n : U32) : Fuelled (Mem × U32) := do
  let m ← fillCounted (c.setWidth 8) n (m, 0, s)
  pure (m, s)

/-- `strcpy`: the memory, and the value returned. -/
def strcpy (m : Mem) (dest src : U32) : Fuelled (Mem × U32) := do
  let m ← copyString (m, dest, src)
  pure (m, dest)

/-- `strcat`: the memory, and the value returned. -/
def strcat (m : Mem) (dest src : U32) : Fuelled (Mem × U32) := do
  let d ← findNul m dest
  let (m, _) ← strcpy m d src
  pure (m, dest)

/-! ### `memset` -/

/-- **`memset`** writes the low byte of `c` to the `n` bytes from `s` on. -/
theorem memset_returns (m : Mem) (s c n : U32) :
    (memset m s c n).Returns (m.fill s n.toNat (c.setWidth 8), s) := by
  have hloop : ∀ (k : ℕ) (m : Mem) (i p : U32), i.toNat + k = n.toNat →
      (fillCounted (c.setWidth 8) n (m, i, p)).Returns (m.fill p k (c.setWidth 8)) := by
    intro k
    induction k with
    | zero =>
      intro m i p hi
      refine returns_loop_of_leave ?_
      dsimp only
      rw [if_neg (by rw [BitVec.lt_def]; omega), Mem.fill_zero]
      exact returns_pure _
    | succ k ih =>
      intro m i p hi
      have hlt : i < n := by
        rw [BitVec.lt_def]
        omega
      refine returns_loop_of_again ?_ (Mem.fill_succ (c.setWidth 8) ▸
        ih (Function.update m p (c.setWidth 8)) (i + 1) (p + 1) (by bv_omega))
      dsimp only
      rw [if_pos hlt]
      exact returns_pure _
  exact (hloop n.toNat m 0 s (Nat.zero_add _)).bind (returns_pure _)

/-! ### `strcpy` -/

namespace Str

/-- **The copy of a string** whose destination is not among the characters that are yet to be read,
nor the NUL. -/
theorem copyString_returns {m : Mem} {dest src : U32} {s : List U8} (hs : Mem.StringAt m src s)
    (hdest : ¬ Mem.InRegion (src + 1) s.length dest) :
    (copyString (m, dest, src)).Returns (m.copyFrom dest m src (s.length + 1)) := by
  induction s generalizing m dest src with
  | nil =>
    have hzero : Function.update m dest (m src) src = 0 := by
      rw [Function.update_apply, ite_eq_right_iff.2 fun _ ↦ rfl]
      exact Mem.stringAt_nil_iff.1 hs
    rw [List.length_nil, ← Mem.copyFrom_succ (by decide) (Nat.not_lt_zero _), Mem.copyFrom_zero]
    refine returns_loop_of_leave ?_
    dsimp only
    rw [if_pos hzero]
    exact returns_pure _
  | cons c s ih =>
    have hlen := hs.length_lt
    obtain ⟨hc, hne, hrest⟩ := Mem.stringAt_cons_iff.1 hs
    rw [List.length_cons] at hdest hlen ⊢
    have hsame : Function.update m dest (m src) src = c := by
      rw [Function.update_apply, hc, ite_self]
    have hkept : Mem.StringAt (Function.update m dest (m src)) (src + 1) s := by
      refine ⟨hrest.1.of_agree (by simp; omega) fun q hq ↦ Function.update_of_ne ?_ _ _, hrest.2⟩
      rintro rfl
      exact hdest (by simpa using hq)
    have hnext : ¬ Mem.InRegion (src + 1 + 1) s.length (dest + 1) := by
      rw [Mem.InRegion] at hdest ⊢
      bv_omega
    refine returns_loop_of_again ?_ (Mem.copyFrom_succ (by omega) hdest ▸ ih hkept hnext)
    dsimp only
    rw [hsame, if_neg hne]
    exact returns_pure _

/-- **The copy that runs after itself.** All bytes from the one to be read up to the one to be
written are characters. -/
theorem not_copyString_returns {m : Mem} {dest src : U32} (hne : dest ≠ src)
    (hchars : ∀ q, Mem.InRegion src (dest - src).toNat q → m q ≠ 0) (r : Mem) :
    ¬ (copyString (m, dest, src)).Returns r := by
  let Inv (v : Mem × U32 × U32) : Prop :=
    v.2.1 ≠ v.2.2 ∧ ∀ q, Mem.InRegion v.2.2 (v.2.1 - v.2.2).toNat q → v.1 q ≠ 0
  refine not_returns_of_invariant Inv (fun v hv ↦ ?_) (show Inv _ from ⟨hne, hchars⟩) r
  obtain ⟨m, dest, src⟩ := v
  obtain ⟨hne, hchars⟩ : dest ≠ src ∧ ∀ q, Mem.InRegion src (dest - src).toNat q → m q ≠ 0 := hv
  have hchar : m src ≠ 0 := hchars src (Mem.inRegion_self src (by bv_omega))
  refine ⟨(Function.update m dest (m src), dest + 1, src + 1), ?_, by bv_omega, fun q hq ↦ ?_⟩
  · dsimp only
    rw [Function.update_of_ne hne.symm, if_neg hchar]
    exact returns_pure _
  · dsimp only at hq ⊢
    rcases eq_or_ne q dest with rfl | hq'
    · rwa [Function.update_self]
    · rw [Function.update_of_ne hq']
      refine hchars q ?_
      rw [Mem.InRegion] at hq ⊢
      bv_omega

/-- Nor does it see a NUL where there is none in all of memory. -/
theorem not_copyString_returns_of_ne_zero {m : Mem} (h : ∀ q, m q ≠ 0) (dest src : U32) (r : Mem) :
    ¬ (copyString (m, dest, src)).Returns r := by
  refine not_returns_of_invariant (fun v ↦ ∀ q, v.1 q ≠ 0) (fun v hv ↦ ?_)
    (show ∀ q, m q ≠ 0 from h) r
  obtain ⟨m, dest, src⟩ := v
  have hstill : ∀ q, Function.update m dest (m src) q ≠ 0 := fun q ↦ by
    rw [Function.update_apply]
    split
    · exact hv src
    · exact hv q
  refine ⟨(Function.update m dest (m src), dest + 1, src + 1), ?_, hstill⟩
  dsimp only
  rw [if_neg (hstill src)]
  exact returns_pure _

/-- **When the loop of `strcpy` ends**, and with what. -/
theorem copyString_returns_iff (m : Mem) (dest src : U32) (r : Mem) :
    (copyString (m, dest, src)).Returns r ↔ ∃ s, Mem.StringAt m src s ∧
      ¬ Mem.InRegion (src + 1) s.length dest ∧ r = m.copyFrom dest m src (s.length + 1) := by
  refine ⟨fun hret ↦ ?_, fun ⟨s, hs, hdest, hr⟩ ↦ hr ▸ copyString_returns hs hdest⟩
  rcases Mem.exists_stringAt m src with ⟨s, hs⟩ | hnone
  · have hlen := hs.length_lt
    rcases em (Mem.InRegion (src + 1) s.length dest) with hin | hout
    · rw [Mem.InRegion] at hin
      refine absurd hret (not_copyString_returns (by bv_omega) (fun q hq ↦ hs.ne_zero ?_) r)
      rw [Mem.InRegion] at hq ⊢
      bv_omega
    · exact ⟨s, hs, hout, hret.unique (copyString_returns hs hout)⟩
  · exact absurd hret (not_copyString_returns_of_ne_zero hnone dest src r)

/-- The first loop of `strcat` ends at the NUL, if there is one. -/
theorem findNul_returns_iff (m : Mem) (dest r : U32) : (findNul m dest).Returns r ↔
    ∃ d, Mem.StringAt m dest d ∧ r = dest + BitVec.ofNat 32 d.length := by
  refine ⟨fun hret ↦ ?_, fun ⟨d, hd, hr⟩ ↦ hr ▸ findNul_returns hd⟩
  rcases Mem.exists_stringAt m dest with ⟨d, hd⟩ | hnone
  · exact ⟨d, hd, hret.unique (findNul_returns hd)⟩
  · refine absurd hret (not_returns_of_invariant (fun _ ↦ True) (fun p _ ↦ ⟨p + 1, ?_, trivial⟩)
      trivial r)
    rw [if_pos (hnone p)]
    exact returns_pure _

end Str

/-- What is behind some characters is replaced by a copy of a string. -/
theorem appended_copyFrom {m : Mem} {dest src : U32} {d s : List U8} (hd : Mem.BytesAt m dest d)
    (hchars : ∀ c ∈ d, c ≠ 0) (hs : Mem.StringAt m src s)
    (hroom : d.length + s.length + 1 ≤ 2 ^ 32) :
    Appended m (m.copyFrom (dest + BitVec.ofNat 32 d.length) m src (s.length + 1)) dest d s := by
  have hframe : ∀ q, (q - dest).toNat < d.length ∨ d.length + (s.length + 1) ≤ (q - dest).toNat →
      m.copyFrom (dest + BitVec.ofNat 32 d.length) m src (s.length + 1) q = m q := fun q hq ↦ by
    refine Mem.copyFrom_of_not_inRegion ?_
    rw [Mem.inRegion_add_iff (by omega)]
    omega
  have hadded : Mem.BytesAt (m.copyFrom (dest + BitVec.ofNat 32 d.length) m src (s.length + 1))
      (dest + BitVec.ofNat 32 d.length) (s ++ [0]) := hs.1.copyFrom (by simp; omega) (by simp)
  have hkept := hd.of_agree (by omega) fun q hq ↦ hframe q (Or.inl hq)
  refine ⟨⟨?_, fun c hc ↦ (List.mem_append.1 hc).elim (hchars c) (hs.2 c)⟩, fun q hq ↦ ?_⟩
  · rw [List.append_assoc, Mem.bytesAt_append_iff]
    exact ⟨hkept, hadded⟩
  · rw [Mem.InRegion] at hq
    exact hframe q (Or.inr (by omega))

/-- **`strcpy`** returns exactly if there is a string and the destination is not behind its first
character, up to its NUL. Then the destination holds the string, and nothing else has changed. -/
theorem strcpy_returns_iff (m : Mem) (dest src : U32) :
    ((∃ r, (strcpy m dest src).Returns r) ↔
      ∃ s, Mem.StringAt m src s ∧ ¬ Mem.InRegion (src + 1) s.length dest) ∧
    ∀ m' p, (strcpy m dest src).Returns (m', p) → p = dest ∧
      ∃ s, Mem.StringAt m src s ∧ Appended m m' dest [] s := by
  constructor
  · constructor
    · rintro ⟨r, hret⟩
      obtain ⟨m', hloop, -⟩ := returns_bind_iff.1 hret
      obtain ⟨s, hs, hout, -⟩ := (copyString_returns_iff m dest src m').1 hloop
      exact ⟨s, hs, hout⟩
    · rintro ⟨s, hs, hout⟩
      exact ⟨_, (copyString_returns hs hout).bind (returns_pure _)⟩
  · intro m' p hret
    obtain ⟨m₁, hloop, hpure⟩ := returns_bind_iff.1 hret
    obtain ⟨rfl, rfl⟩ := Prod.mk.inj (returns_pure_iff.1 hpure)
    obtain ⟨s, hs, -, rfl⟩ := (copyString_returns_iff m dest src m₁).1 hloop
    have hlen := hs.length_lt
    have happended := @appended_copyFrom m dest src [] s trivial nofun hs (by simp; omega)
    rw [List.length_nil, BitVec.add_zero] at happended
    exact ⟨rfl, s, hs, happended⟩

/-! ### `strcat` -/

/-- Two strings that do not overlap, or share a NUL, fit into memory one behind the other. -/
theorem length_add_length_lt {m : Mem} {dest src : U32} {d s : List U8}
    (hd : Mem.StringAt m dest d) (hs : Mem.StringAt m src s)
    (hout : ¬ Mem.InRegion (src + 1) s.length (dest + BitVec.ofNat 32 d.length)) :
    d.length + s.length < 2 ^ 32 := by
  have hdlen := hd.length_lt
  have hslen := hs.length_lt
  have hp : ¬ Mem.InRegion src s.length (dest + BitVec.ofNat 32 d.length) := fun h ↦
    hs.ne_zero h hd.nul
  have hq : ¬ Mem.InRegion dest d.length (src + BitVec.ofNat 32 s.length) := fun h ↦
    hd.ne_zero h hs.nul
  rw [Mem.InRegion] at *
  bv_omega

theorem strcat_returns {m : Mem} {dest src : U32} {d s : List U8} (hd : Mem.StringAt m dest d)
    (hs : Mem.StringAt m src s)
    (hout : ¬ Mem.InRegion (src + 1) s.length (dest + BitVec.ofNat 32 d.length)) :
    (strcat m dest src).Returns
      (m.copyFrom (dest + BitVec.ofNat 32 d.length) m src (s.length + 1), dest) := by
  have hcopy : (strcpy m (dest + BitVec.ofNat 32 d.length) src).Returns
      (m.copyFrom (dest + BitVec.ofNat 32 d.length) m src (s.length + 1),
        dest + BitVec.ofNat 32 d.length) :=
    (copyString_returns hs hout).bind (returns_pure _)
  exact (findNul_returns hd).bind (hcopy.bind (returns_pure _))

/-- What there is where `strcat` returns. -/
theorem exists_of_strcat_returns {m : Mem} {dest src : U32} {r : Mem × U32}
    (hret : (strcat m dest src).Returns r) : ∃ d s, Mem.StringAt m dest d ∧ Mem.StringAt m src s ∧
      ¬ Mem.InRegion (src + 1) s.length (dest + BitVec.ofNat 32 d.length) := by
  obtain ⟨q, hfind, hrest⟩ := returns_bind_iff.1 hret
  obtain ⟨d, hd, rfl⟩ := (findNul_returns_iff m dest q).1 hfind
  obtain ⟨v, hcopy, -⟩ := returns_bind_iff.1 hrest
  obtain ⟨m', hloop, -⟩ := returns_bind_iff.1 hcopy
  obtain ⟨s, hs, hout, -⟩ := (copyString_returns_iff m _ src m').1 hloop
  exact ⟨d, s, hd, hs, hout⟩

/-- **`strcat`** returns exactly if there are two strings and the NUL of the first is not among the
characters of the second behind the first one, nor its NUL. Then they stand one behind the other,
and nothing else has changed. -/
theorem strcat_returns_iff (m : Mem) (dest src : U32) :
    ((∃ r, (strcat m dest src).Returns r) ↔
      ∃ d s, Mem.StringAt m dest d ∧ Mem.StringAt m src s ∧
        ¬ Mem.InRegion (src + 1) s.length (dest + BitVec.ofNat 32 d.length)) ∧
    ∀ m' p, (strcat m dest src).Returns (m', p) → p = dest ∧
      ∃ d s, Mem.StringAt m dest d ∧ Mem.StringAt m src s ∧ Appended m m' dest d s := by
  refine ⟨⟨fun ⟨r, hret⟩ ↦ exists_of_strcat_returns hret, fun ⟨d, s, hd, hs, hout⟩ ↦
    ⟨_, strcat_returns hd hs hout⟩⟩, fun m' p hret ↦ ?_⟩
  obtain ⟨d, s, hd, hs, hout⟩ := exists_of_strcat_returns hret
  obtain ⟨rfl, rfl⟩ := Prod.mk.inj (hret.unique (strcat_returns hd hs hout))
  have hroom := length_add_length_lt hd hs hout
  exact ⟨rfl, d, s, hd, hs, appended_copyFrom hd.bytesAt hd.2 hs (by omega)⟩

end Ganoid
