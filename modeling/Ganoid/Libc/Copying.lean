import Ganoid.Libc.Str

/-!
# What the copying functions leave

`memmove`, `strncpy` and `strncat` against what their names promise. Each result is the memory
before the call with a block of it copied (`Mem.copyFrom`) and, for the last two, a block of it
cleared (`Mem.fill`).

* `memmove` copies only where the blocks overlap with the destination behind the source; everywhere
  else it returns without having copied anything.
* `strncpy` clears from the NUL on that it has copied, so that the last byte is left; and where the
  source has not ended its counter has wrapped around, so that all of memory is cleared.
* `strncat` tests the source behind the last character it has copied, so that it writes the NUL
  where it has already copied one, and not where it has left characters out.

For each of them the condition is exact under which the call does what is promised.
-/

open Fuelled

namespace Ganoid

open Str

/-! ### `memmove` -/

/-- The bytes from `dest` on are those that were at `src`, and nothing else has changed. -/
structure Moved (m m' : Mem) (dest src n : U32) : Prop where
  copied : ∀ k, k < n → m' (dest + k) = m (src + k)
  frame : ∀ q, ¬ Mem.InRegion dest n.toNat q → m' q = m q

namespace Str

/-- The loop of `memmove` copies from the last byte down. The bytes it has yet to read are not among
those it has written where the destination is not before the source. -/
theorem moveBackwards_returns {m : Mem} {dest src : U32} {i : ℕ}
    (hfit : (dest - src).toNat + i < 2 ^ 32) :
    (moveBackwards src (m, dest + BitVec.ofNat 32 i, src + BitVec.ofNat 32 i)).Returns
      (m.copyFrom dest m src (i + 1)) := by
  have hsource : ¬ Mem.InRegion src i (dest + BitVec.ofNat 32 i) := by
    rw [Mem.InRegion]
    bv_omega
  rw [← Mem.copyFrom_succ_last (by omega) hsource]
  induction i generalizing m with
  | zero =>
    refine returns_loop_of_leave ?_
    dsimp only
    rw [if_pos (BitVec.add_zero src), Mem.copyFrom_zero]
    exact returns_pure _
  | succ i ih =>
    have hne : src + BitVec.ofNat 32 (i + 1) ≠ src := by bv_omega
    have hprev : ∀ p : U32, p + BitVec.ofNat 32 (i + 1) - 1 = p + BitVec.ofNat 32 i := fun p ↦ by
      rw [BitVec.ofNat_add, ← BitVec.add_assoc]
      exact BitVec.add_sub_cancel _ _
    have hsource' : ¬ Mem.InRegion src i (dest + BitVec.ofNat 32 i) := by
      rw [Mem.InRegion]
      bv_omega
    refine returns_loop_of_again ?_ (Mem.copyFrom_succ_last (by omega) hsource' ▸
      ih (by omega) hsource')
    dsimp only
    rw [if_neg hne, hprev, hprev]
    exact returns_pure _

end Str

/-- **`memmove`** of overlapping blocks, the destination behind the source, copies. -/
theorem memmove_returns_of_overlap {m : Mem} {dest src n : U32}
    (hfit : dest.toNat + n.toNat ≤ 2 ^ 32) (hoverlap : src < dest ∧ dest < src + n) :
    (memmove m dest src n).Returns (m.copyFrom dest m src n.toNat, dest) := by
  obtain ⟨hlt, hend⟩ := hoverlap
  have hpos : 0 < n.toNat := by
    refine Nat.pos_of_ne_zero fun hzero ↦ ?_
    obtain rfl : n = 0 := BitVec.eq_of_toNat_eq hzero
    rw [show src + (0 : U32) = src from BitVec.add_zero src] at hend
    exact absurd hlt (BitVec.not_lt.2 (BitVec.le_of_lt hend))
  obtain ⟨i, hi⟩ : ∃ i, n.toNat = i + 1 := ⟨n.toNat - 1, by omega⟩
  have hlast : ∀ p : U32, p + n - 1 = p + BitVec.ofNat 32 i := fun p ↦ by bv_omega
  have hloop := @moveBackwards_returns m dest src i (by bv_omega)
  rw [memmove, if_pos ⟨hlt, hend⟩, hlast, hlast, hi]
  exact hloop.bind (returns_pure _)

/-- **`memmove`** of any other blocks does nothing. -/
theorem memmove_returns_of_not_overlap {m : Mem} {dest src n : U32}
    (h : ¬ (src < dest ∧ dest < src + n)) : (memmove m dest src n).Returns (m, dest) := by
  rw [memmove, if_neg h]
  exact (returns_pure m).bind (returns_pure _)

/-- **`memmove` moves a block** exactly where the destination begins inside the source, or where the
bytes are already the same. -/
theorem memmove_moved_iff (m : Mem) {dest src n : U32} (hdest : dest.toNat + n.toNat ≤ 2 ^ 32)
    (hsrc : src.toNat + n.toNat ≤ 2 ^ 32) :
    (∃ m', (memmove m dest src n).Returns (m', dest) ∧ Moved m m' dest src n) ↔
      (src.toNat < dest.toNat ∧ dest.toNat < src.toNat + n.toNat) ∨
        ∀ k, k < n → m (dest + k) = m (src + k) := by
  have hguard : (src < dest ∧ dest < src + n) ↔
      (src.toNat < dest.toNat ∧ dest.toNat < src.toNat + n.toNat) := by
    rw [BitVec.lt_def, BitVec.lt_def]
    bv_omega
  rw [← hguard]
  by_cases hoverlap : src < dest ∧ dest < src + n
  · refine iff_of_true ⟨_, memmove_returns_of_overlap hdest hoverlap, ?_, ?_⟩ (Or.inl hoverlap)
    · exact fun k hk ↦ Mem.copyFrom_add hk
    · exact fun q hq ↦ Mem.copyFrom_of_not_inRegion hq
  · rw [(memmove_returns_of_not_overlap hoverlap).exists_and_iff, or_iff_right hoverlap]
    exact ⟨Moved.copied, fun hsame ↦ ⟨hsame, fun _ _ ↦ rfl⟩⟩

/-- A memory that holds a letter at `p`, and NULs everywhere else. -/
def letterAt (p : U32) : Mem := fun q ↦ if q = p then 0x61 else 0

/-- Two bytes that are moved up by one. -/
theorem memmove_moved_iff_up :
    ∃ m', (memmove (letterAt 0x1000) 0x1001 0x1000 2).Returns (m', 0x1001) ∧
      Moved (letterAt 0x1000) m' 0x1001 0x1000 2 :=
  (memmove_moved_iff _ (by decide) (by decide)).2 (Or.inl (by decide))

/-- A byte is not moved to another place. -/
theorem not_memmove_moved_apart :
    ¬ ∃ m', (memmove (letterAt 0x1000) 0x2000 0x1000 1).Returns (m', 0x2000) ∧
      Moved (letterAt 0x1000) m' 0x2000 0x1000 1 := by
  rintro ⟨m', hret, hmoved⟩
  have hsame : (memmove (letterAt 0x1000) 0x2000 0x1000 1).Returns (letterAt 0x1000, 0x2000) :=
    memmove_returns_of_not_overlap (by decide)
  obtain rfl : letterAt 0x1000 = m' := congrArg Prod.fst (hsame.unique hret)
  exact absurd (hmoved.copied 0 (by decide)) (by decide)

/-! ### `strncpy` -/

/-- The `n` bytes from `dest` on are those of the string, with NULs behind them if it is shorter,
and nothing else has changed. -/
structure Padded (m m' : Mem) (dest n : U32) (s : List U8) : Prop where
  copied : ∀ k < n.toNat, m' (dest + BitVec.ofNat 32 k) = s.getD k 0
  frame : ∀ q, ¬ Mem.InRegion dest n.toNat q → m' q = m q

namespace Str

/-- The first loop of `strncpy` copies characters that are not NULs and has its counter go down by
their number. -/
theorem copyCounted_bytes {m : Mem} {dest src n : U32} {bs : List U8}
    (hbytes : Mem.BytesAt m src bs) (hnul : ∀ c ∈ bs, c ≠ 0) (hle : bs.length ≤ n.toNat)
    (hapart : Mem.Apart src bs.length dest bs.length) (r : Mem × U32 × U32)
    (h : (copyCounted (m.copyFrom dest m src bs.length, dest + BitVec.ofNat 32 bs.length,
      src + BitVec.ofNat 32 bs.length, n - BitVec.ofNat 32 bs.length)).Returns r) :
    (copyCounted (m, dest, src, n)).Returns r := by
  induction bs generalizing m dest src n with
  | nil =>
    rwa [List.length_nil, Mem.copyFrom_zero, BitVec.add_zero, BitVec.add_zero, BitVec.sub_zero] at h
  | cons c bs ih =>
    obtain ⟨hne, hnul⟩ := List.forall_mem_cons.1 hnul
    rw [List.length_cons] at hle hapart h
    obtain ⟨hsame, hrest, hapart', hcopy⟩ := hbytes.copy_first (by omega) hapart
    have hpos : n ≠ 0 := fun h0 ↦ by
      rw [h0] at hle
      exact Nat.not_succ_le_zero _ hle
    have hcount : n - BitVec.ofNat 32 (bs.length + 1) = n - 1 - BitVec.ofNat 32 bs.length := by
      bv_omega
    rw [← hcopy, Mem.add_ofNat_succ, Mem.add_ofNat_succ, hcount] at h
    refine returns_loop_of_again ?_ (ih hrest hnul (by bv_omega) hapart' h)
    simp only [if_pos hpos, hbytes.1, hsame, if_neg hne]
    exact returns_pure _

/-- The second loop of `strncpy` clears as many bytes as its counter says. -/
theorem clearCounted_returns (m : Mem) (dest n : U32) :
    (clearCounted (m, dest, n)).Returns (m.fill dest n.toNat 0) := by
  induction hn : n.toNat generalizing m dest n with
  | zero =>
    have hzero : n = 0 := BitVec.eq_of_toNat_eq hn
    refine returns_loop_of_leave ?_
    dsimp only
    rw [if_neg (not_not_intro hzero), Mem.fill_zero]
    exact returns_pure _
  | succ k ih =>
    have hne : n ≠ 0 := fun h ↦ by
      rw [h] at hn
      exact absurd hn (by simp)
    refine returns_loop_of_again ?_
      (Mem.fill_succ 0 ▸ ih (Function.update m dest 0) (dest + 1) (n - 1) (by bv_omega))
    dsimp only
    rw [if_pos hne]
    exact returns_pure _

/-- Where the string ends before the counter does, its NUL is copied as well. -/
theorem copyCounted_returns_of_lt {m : Mem} {dest src n : U32} {s : List U8}
    (hs : Mem.StringAt m src s) (hlt : s.length < n.toNat)
    (hapart : Mem.Apart src (s.length + 1) dest n.toNat) :
    (copyCounted (m, dest, src, n)).Returns (m.copyFrom dest m src (s.length + 1),
      dest + BitVec.ofNat 32 s.length, n - BitVec.ofNat 32 s.length - 1) := by
  have hlen := hs.length_lt
  have hcount : n - BitVec.ofNat 32 s.length ≠ 0 := by bv_omega
  have hsrc : ¬ Mem.InRegion dest n.toNat (src + BitVec.ofNat 32 s.length) :=
    hapart _ (Mem.inRegion_add (Nat.lt_succ_self _) hlen)
  have hbefore : m.copyFrom dest m src s.length (src + BitVec.ofNat 32 s.length) =
      m (src + BitVec.ofNat 32 s.length) :=
    Mem.copyFrom_of_not_inRegion fun h ↦ hsrc (h.mono (Nat.le_of_lt hlt))
  have hnul : m.copyFrom dest m src (s.length + 1) (src + BitVec.ofNat 32 s.length) = 0 := by
    rw [Mem.copyFrom_of_not_inRegion fun h ↦ hsrc (h.mono hlt), hs.nul]
  refine copyCounted_bytes hs.bytesAt hs.2 (Nat.le_of_lt hlt)
    (hapart.mono (Nat.le_succ _) (Nat.le_of_lt hlt)) _ (returns_loop_of_leave ?_)
  simp only [if_pos hcount, hbefore, Mem.copyFrom_concat hlen, hnul, if_true]
  exact returns_pure _

/-- Where it does not, the counter wraps around. -/
theorem copyCounted_returns_of_le {m : Mem} {dest src n : U32} {s : List U8}
    (hs : Mem.StringAt m src s) (hle : n.toNat ≤ s.length)
    (hapart : Mem.Apart src (s.length + 1) dest n.toNat) :
    (copyCounted (m, dest, src, n)).Returns (m.copyFrom dest m src n.toNat, dest + n, -1) := by
  have hlen : (s.take n.toNat).length = n.toNat := List.length_take_of_le hle
  refine copyCounted_bytes (hs.bytesAt_take n.toNat)
    (fun c hc ↦ hs.2 c (List.mem_of_mem_take hc)) (by omega) (hapart.mono (by omega) (by omega)) _
    (returns_loop_of_leave ?_)
  rw [hlen, BitVec.ofNat_toNat, BitVec.setWidth_eq, BitVec.sub_self]
  exact returns_pure _

end Str

/-- **`strncpy` of a string that is shorter than the counter** copies it with its NUL, and clears
from that NUL on as many bytes as there are left. -/
theorem strncpy_returns_of_lt {m : Mem} {dest src n : U32} {s : List U8} (hs : Mem.StringAt m src s)
    (hlt : s.length < n.toNat) (hapart : Mem.Apart src (s.length + 1) dest n.toNat) :
    (strncpy m dest src n).Returns
      ((m.copyFrom dest m src (s.length + 1)).fill (dest + BitVec.ofNat 32 s.length)
        (n.toNat - (s.length + 1)) 0, dest) := by
  have hcount : (n - BitVec.ofNat 32 s.length - 1).toNat = n.toNat - (s.length + 1) := by bv_omega
  rw [← hcount]
  exact (copyCounted_returns_of_lt hs hlt hapart).bind
    ((clearCounted_returns _ _ _).bind (returns_pure _))

/-- **`strncpy` of a string that is not** clears all of memory but one byte, once it has copied. -/
theorem strncpy_returns_of_le {m : Mem} {dest src n : U32} {s : List U8} (hs : Mem.StringAt m src s)
    (hle : n.toNat ≤ s.length) (hapart : Mem.Apart src (s.length + 1) dest n.toNat) :
    (strncpy m dest src n).Returns
      ((m.copyFrom dest m src n.toNat).fill (dest + n) (2 ^ 32 - 1) 0, dest) :=
  (copyCounted_returns_of_le hs hle hapart).bind
    ((clearCounted_returns _ _ _).bind (returns_pure _))

/-- The bytes cleared begin with the NUL that was copied, so the last byte is not among them. -/
theorem padded_iff_of_lt {m : Mem} {dest src n : U32} {s : List U8} (hs : Mem.StringAt m src s)
    (hlt : s.length < n.toNat) :
    Padded m ((m.copyFrom dest m src (s.length + 1)).fill (dest + BitVec.ofNat 32 s.length)
      (n.toNat - (s.length + 1)) 0) dest n s ↔
      s.length + 1 = n.toNat ∨ m (dest + BitVec.ofNat 32 (n.toNat - 1)) = 0 := by
  have hoff : ∀ k < n.toNat, (dest + BitVec.ofNat 32 k - dest).toNat = k := fun k hk ↦ by
    rw [Mem.add_sub_self_left]
    exact Nat.mod_eq_of_lt (Nat.lt_trans hk n.isLt)
  have hcleared : ∀ q, Mem.InRegion (dest + BitVec.ofNat 32 s.length) (n.toNat - (s.length + 1)) q ↔
      s.length ≤ (q - dest).toNat ∧ (q - dest).toNat + 1 < n.toNat := fun q ↦ by
    rw [Mem.inRegion_add_iff (by omega)]
    omega
  have hcopied : ∀ k < n.toNat, k + 1 < n.toNat ∨ k ≤ s.length →
      (m.copyFrom dest m src (s.length + 1)).fill (dest + BitVec.ofNat 32 s.length)
        (n.toNat - (s.length + 1)) 0 (dest + BitVec.ofNat 32 k) = s.getD k 0 := by
    intro k hk hkept
    by_cases hin : s.length ≤ k ∧ k + 1 < n.toNat
    · rw [Mem.fill_of_inRegion ((hcleared _).2 (by rwa [hoff k hk])),
        List.getD_eq_default s 0 hin.1]
    · have hle : k ≤ s.length := by omega
      have hmod : (BitVec.ofNat 32 k : U32).toNat < s.length + 1 := by
        rw [BitVec.toNat_ofNat]
        omega
      rw [Mem.fill_of_not_inRegion (by rwa [hcleared, hoff k hk]), Mem.copyFrom_add hmod,
        hs.apply_add hle]
  have hlast : s.length + 1 < n.toNat →
      (m.copyFrom dest m src (s.length + 1)).fill (dest + BitVec.ofNat 32 s.length)
        (n.toNat - (s.length + 1)) 0 (dest + BitVec.ofNat 32 (n.toNat - 1)) =
      m (dest + BitVec.ofNat 32 (n.toNat - 1)) := fun hmore ↦ by
    have hoff' := hoff (n.toNat - 1) (by omega)
    rw [Mem.fill_of_not_inRegion (by rw [hcleared, hoff']; omega),
      Mem.copyFrom_of_not_inRegion (by rw [Mem.InRegion, hoff']; omega)]
  constructor
  · intro h
    rcases Nat.lt_or_eq_of_le hlt with hmore | heq
    · have hpad := h.copied (n.toNat - 1) (by omega)
      rw [hlast hmore, List.getD_eq_default s 0 (by omega)] at hpad
      exact Or.inr hpad
    · exact Or.inl heq
  · refine fun h ↦ ⟨fun k hk ↦ ?_, fun q hq ↦ ?_⟩
    · by_cases hkept : k + 1 < n.toNat ∨ k ≤ s.length
      · exact hcopied k hk hkept
      · have hmore : s.length + 1 < n.toNat := by omega
        obtain rfl : k = n.toNat - 1 := by omega
        rw [hlast hmore, h.resolve_left (by omega), List.getD_eq_default s 0 (by omega)]
    · rw [Mem.InRegion] at hq
      rw [Mem.fill_of_not_inRegion (by rw [hcleared]; omega),
        Mem.copyFrom_of_not_inRegion (by rw [Mem.InRegion]; omega)]

/-- Where all of memory but one byte is cleared, nothing is left of the string if it has a
character. -/
theorem padded_iff_of_le {m : Mem} {dest src n : U32} {s : List U8} (hs : Mem.StringAt m src s)
    (hle : n.toNat ≤ s.length) (hapart : Mem.Apart src (s.length + 1) dest n.toNat) :
    Padded m ((m.copyFrom dest m src n.toNat).fill (dest + n) (2 ^ 32 - 1) 0) dest n s ↔
      n = 0 ∧ ∀ q, q ≠ dest - 1 → m q = 0 := by
  have hcleared : ∀ q, Mem.InRegion (dest + n) (2 ^ 32 - 1) q ↔ q ≠ dest + n - 1 := fun q ↦ by
    rw [Mem.InRegion]
    bv_omega
  have hcleared₀ : n = 0 → ∀ q, Mem.InRegion (dest + n) (2 ^ 32 - 1) q ↔ q ≠ dest - 1 :=
    fun hzero q ↦ by
      rw [hcleared, hzero, show dest + (0 : U32) = dest from BitVec.add_zero dest]
  constructor
  · intro h
    rcases Nat.eq_zero_or_pos n.toNat with hzero | hpos
    · have hn : n = 0 := BitVec.eq_of_toNat_eq hzero
      refine ⟨hn, fun q hq ↦ ?_⟩
      rw [← h.frame q (by rw [hzero]; exact Nat.not_lt_zero _)]
      exact Mem.fill_of_inRegion ((hcleared₀ hn q).2 hq)
    · -- the first character of the source is outside the destination, and it is cleared
      have hout : ¬ Mem.InRegion dest n.toNat src :=
        hapart src (Mem.inRegion_self src (Nat.succ_pos _))
      have hfirst : src ≠ dest + n - 1 := fun heq ↦ hout <| by
        rw [heq, Mem.InRegion]
        bv_omega
      have hchar := hs.apply_add (Nat.zero_le _)
      rw [BitVec.add_zero, ← h.frame src hout, Mem.fill_of_inRegion ((hcleared src).2 hfirst)]
        at hchar
      cases s with
      | nil => exact absurd hle (Nat.not_le.2 hpos)
      | cons c s => exact absurd hchar.symm (hs.2 c List.mem_cons_self)
  · rintro ⟨hn, hblank⟩
    have hzero : n.toNat = 0 := congrArg BitVec.toNat hn
    rw [hzero, Mem.copyFrom_zero]
    refine ⟨fun k hk ↦ absurd (hzero ▸ hk) (Nat.not_lt_zero k), fun q _ ↦ ?_⟩
    by_cases hq : q = dest - 1
    · exact Mem.fill_of_not_inRegion fun h ↦ (hcleared₀ hn q).1 h hq
    · rw [hblank q hq]
      exact Mem.fill_of_inRegion ((hcleared₀ hn q).2 hq)

/-- **`strncpy` fills exactly the `n` bytes** where the string ends at the last of them, where it
ends before and the last of them was a NUL already, and nowhere else unless there is nothing to fill
and the memory is blank. -/
theorem strncpy_padded_iff {m : Mem} {dest src n : U32} {s : List U8} (hs : Mem.StringAt m src s)
    (hapart : Mem.Apart src (s.length + 1) dest n.toNat) :
    (∃ m', (strncpy m dest src n).Returns (m', dest) ∧ Padded m m' dest n s) ↔
      s.length + 1 = n.toNat ∨ (s.length + 1 < n.toNat ∧ m (dest + n - 1) = 0) ∨
        (n = 0 ∧ ∀ q, q ≠ dest - 1 → m q = 0) := by
  rcases Nat.lt_or_ge s.length n.toNat with hlt | hle
  · have hzero : n ≠ 0 := fun h ↦ by
      rw [h] at hlt
      exact Nat.not_lt_zero _ hlt
    have hlast : dest + BitVec.ofNat 32 (n.toNat - 1) = dest + n - 1 := by bv_omega
    rw [(strncpy_returns_of_lt hs hlt hapart).exists_and_iff, padded_iff_of_lt hs hlt, hlast,
      or_iff_left fun h : n = 0 ∧ _ ↦ hzero h.1]
    rcases Nat.lt_or_eq_of_le hlt with hmore | heq
    · rw [and_iff_right hmore]
    · exact iff_of_true (Or.inl heq) (Or.inl heq)
  · rw [(strncpy_returns_of_le hs hle hapart).exists_and_iff, padded_iff_of_le hs hle hapart,
      or_iff_right (by omega), or_iff_right fun h ↦ absurd h.1 (by omega)]

/-- A string of one letter, with its NUL, into two bytes. -/
theorem strncpy_padded_iff_fitting :
    ∃ m', (strncpy (letterAt 0x1000) 0x2000 0x1000 2).Returns (m', 0x2000) ∧
      Padded (letterAt 0x1000) m' 0x2000 2 [0x61] := by
  refine (strncpy_padded_iff (s := [0x61]) ⟨⟨rfl, rfl, trivial⟩, by decide⟩ fun r h h' ↦ ?_).2
    (Or.inl rfl)
  rw [Mem.InRegion] at h h'
  have hlen : ([0x61] : List U8).length = 1 := rfl
  bv_omega

/-- The empty string does not clear the second of two bytes. -/
theorem not_strncpy_padded_short :
    ¬ ∃ m', (strncpy (letterAt 0x2001) 0x2000 0x1000 2).Returns (m', 0x2000) ∧
      Padded (letterAt 0x2001) m' 0x2000 2 [] := by
  have hs : Mem.StringAt (letterAt 0x2001) 0x1000 [] := Mem.stringAt_nil_iff.2 rfl
  have hapart : Mem.Apart 0x1000 1 0x2000 2 := fun r h h' ↦ by
    rw [Mem.InRegion] at h h'
    bv_omega
  rw [(strncpy_returns_of_lt (n := 2) hs (by decide) hapart).exists_and_iff,
    padded_iff_of_lt hs (by decide)]
  decide

/-! ### `strncat` -/

/-- The string at `dest` has been extended, and nothing behind its NUL has changed. -/
structure Appended (m m' : Mem) (dest : U32) (d added : List U8) : Prop where
  string : Mem.StringAt m' dest (d ++ added)
  frame : ∀ q, ¬ Mem.InRegion dest (d.length + added.length + 1) q → m' q = m q

namespace Str

theorem findNul_returns {m : Mem} {dest : U32} {d : List U8} (h : Mem.StringAt m dest d) :
    (findNul m dest).Returns (dest + BitVec.ofNat 32 d.length) := by
  induction d generalizing dest with
  | nil =>
    refine returns_loop_of_leave ?_
    rw [if_neg (not_not_intro (Mem.stringAt_nil_iff.1 h)), List.length_nil, BitVec.add_zero]
    exact returns_pure _
  | cons c d ih =>
    obtain ⟨hc, hne, hd⟩ := Mem.stringAt_cons_iff.1 h
    rw [List.length_cons, Mem.add_ofNat_succ]
    refine returns_loop_of_again ?_ (ih hd)
    rw [if_pos (hc ▸ hne)]
    exact returns_pure _

/-- The second loop of `strncat` copies characters that are not NULs and has its counter go up by
their number. -/
theorem appendCounted_bytes {m : Mem} {n i dest src : U32} {bs : List U8}
    (hbytes : Mem.BytesAt m src bs) (hnul : ∀ c ∈ bs, c ≠ 0)
    (hle : i.toNat + bs.length ≤ n.toNat) (hapart : Mem.Apart src bs.length dest bs.length)
    (r : Mem × U32 × U32)
    (h : (appendCounted n (m.copyFrom dest m src bs.length, i + BitVec.ofNat 32 bs.length,
      dest + BitVec.ofNat 32 bs.length, src + BitVec.ofNat 32 bs.length)).Returns r) :
    (appendCounted n (m, i, dest, src)).Returns r := by
  induction bs generalizing m i dest src with
  | nil =>
    rwa [List.length_nil, Mem.copyFrom_zero, BitVec.add_zero, BitVec.add_zero, BitVec.add_zero] at h
  | cons c bs ih =>
    obtain ⟨hne, hnul⟩ := List.forall_mem_cons.1 hnul
    rw [List.length_cons] at hle hapart h
    obtain ⟨hsame, hrest, hapart', hcopy⟩ := hbytes.copy_first (by omega) hapart
    have hless : i < n := by bv_omega
    rw [← hcopy, Mem.add_ofNat_succ, Mem.add_ofNat_succ, Mem.add_ofNat_succ] at h
    refine returns_loop_of_again ?_ (ih hrest hnul (by bv_omega) hapart' h)
    simp only [if_pos hless, hbytes.1, hsame, if_neg hne]
    exact returns_pure _

/-- Where the source ends before the counter does, its NUL is copied as well. -/
theorem appendCounted_returns_of_lt {m : Mem} {n p src : U32} {s : List U8}
    (hs : Mem.StringAt m src s) (hlt : s.length < n.toNat)
    (hapart : Mem.Apart src (s.length + 1) p (s.length + 1)) :
    (appendCounted n (m, 0, p, src)).Returns (m.copyFrom p m src (s.length + 1),
      p + BitVec.ofNat 32 s.length, src + BitVec.ofNat 32 s.length) := by
  have hlen := hs.length_lt
  have hless : (0 : U32) + BitVec.ofNat 32 s.length < n := by
    rw [BitVec.lt_def]
    bv_omega
  have hsrc : ¬ Mem.InRegion p (s.length + 1) (src + BitVec.ofNat 32 s.length) :=
    hapart _ (Mem.inRegion_add (Nat.lt_succ_self _) hlen)
  have hbefore : m.copyFrom p m src s.length (src + BitVec.ofNat 32 s.length) =
      m (src + BitVec.ofNat 32 s.length) :=
    Mem.copyFrom_of_not_inRegion fun h ↦ hsrc (h.mono (Nat.le_succ _))
  have hnul : m.copyFrom p m src (s.length + 1) (src + BitVec.ofNat 32 s.length) = 0 := by
    rw [Mem.copyFrom_of_not_inRegion hsrc, hs.nul]
  refine appendCounted_bytes hs.bytesAt hs.2 ?_ (hapart.mono (Nat.le_succ _) (Nat.le_succ _)) _
    (returns_loop_of_leave ?_)
  · exact (Nat.zero_add s.length).symm ▸ Nat.le_of_lt hlt
  · simp only [if_pos hless, hbefore, Mem.copyFrom_concat hlen, hnul, if_true]
    exact returns_pure _

/-- Where it does not, `n` characters are. -/
theorem appendCounted_returns_of_le {m : Mem} {n p src : U32} {s : List U8}
    (hs : Mem.StringAt m src s) (hle : n.toNat ≤ s.length)
    (hapart : Mem.Apart src n.toNat p n.toNat) :
    (appendCounted n (m, 0, p, src)).Returns (m.copyFrom p m src n.toNat,
      p + BitVec.ofNat 32 n.toNat, src + BitVec.ofNat 32 n.toNat) := by
  have hlen : (s.take n.toNat).length = n.toNat := List.length_take_of_le hle
  have hless : ¬ (0 : U32) + BitVec.ofNat 32 n.toNat < n := by
    rw [BitVec.lt_def]
    bv_omega
  refine appendCounted_bytes (hs.bytesAt_take n.toNat)
    (fun c hc ↦ hs.2 c (List.mem_of_mem_take hc)) ?_ (hlen.symm ▸ hapart) _
    (returns_loop_of_leave ?_)
  · exact Nat.le_of_eq ((Nat.zero_add _).trans hlen)
  · rw [hlen]
    simp only [if_neg hless]
    exact returns_pure _

end Str

/-- **`strncat`** copies the source with its NUL if it is no longer than `n`, and otherwise `n`
characters of it. -/
theorem strncat_returns {m : Mem} {dest src n : U32} {d s : List U8} (hd : Mem.StringAt m dest d)
    (hs : Mem.StringAt m src s) (hroom : d.length + n.toNat + 1 ≤ 2 ^ 32)
    (hapart : Mem.Apart src (s.length + 1) dest (d.length + n.toNat + 1)) :
    (strncat m dest src n).Returns (m.copyFrom (dest + BitVec.ofNat 32 d.length) m src
      (if s.length ≤ n.toNat then s.length + 1 else n.toNat), dest) := by
  have hlen := hs.length_lt
  have hfind : (findNul m dest).Returns (dest + BitVec.ofNat 32 d.length) := findNul_returns hd
  obtain ⟨p, hp⟩ : ∃ p, p = dest + BitVec.ofNat 32 d.length := ⟨_, rfl⟩
  rw [← hp] at hfind ⊢
  have hapart' : Mem.Apart src (s.length + 1) p (n.toNat + 1) := fun q hq hq' ↦ by
    rw [hp, Mem.inRegion_add_iff (by omega)] at hq'
    exact hapart q hq (by rw [Mem.InRegion]; omega)
  -- the test of the character behind the last one copied
  have hfinish : ∀ k ≤ s.length, k ≤ n.toNat → ∀ j ≤ n.toNat + 1,
      (appendCounted n (m, 0, p, src)).Returns
        (m.copyFrom p m src j, p + BitVec.ofNat 32 k, src + BitVec.ofNat 32 k) →
      (strncat m dest src n).Returns (if s.getD k 0 = 0 then
        Function.update (m.copyFrom p m src j) (p + BitVec.ofNat 32 k) 0
        else m.copyFrom p m src j, dest) := fun k hk hkn j hj h ↦ by
    have hout := hapart' _ (Mem.inRegion_add (Nat.lt_succ_of_le hk) (by omega))
    have hsame : m.copyFrom p m src j (src + BitVec.ofNat 32 k) = m (src + BitVec.ofNat 32 k) :=
      Mem.copyFrom_of_not_inRegion fun h ↦ hout (h.mono hj)
    rw [← hs.apply_add hk, ← hsame]
    exact hfind.bind (h.bind (returns_pure _))
  rcases Nat.lt_or_ge s.length n.toNat with hlt | hge
  · -- the NUL is written over the one that has been copied
    have hnul : m.copyFrom p m src (s.length + 1) (p + BitVec.ofNat 32 s.length) = 0 := by
      rw [Mem.copyFrom_add (by rw [BitVec.toNat_ofNat]; omega), hs.nul]
    have h := hfinish s.length (Nat.le_refl _) (Nat.le_of_lt hlt) (s.length + 1) (by omega)
      (appendCounted_returns_of_lt hs hlt (hapart'.mono (Nat.le_refl _) (by omega)))
    rw [if_pos (Nat.le_of_lt hlt)]
    rwa [if_pos (List.getD_eq_default s 0 (Nat.le_refl _)),
      Function.update_eq_self_iff.2 hnul.symm] at h
  · have h := hfinish n.toNat hge (Nat.le_refl _) n.toNat (Nat.le_succ _)
      (appendCounted_returns_of_le hs hge (hapart'.mono (by omega) (Nat.le_succ _)))
    rcases Nat.lt_or_eq_of_le hge with hmore | heq
    · have hchar : s.getD n.toNat 0 ≠ 0 := by
        rw [List.getD_eq_getElem s 0 hmore]
        exact hs.2 _ (List.getElem_mem _)
      rw [if_neg (Nat.not_le.2 hmore)]
      rwa [if_neg hchar] at h
    · -- it completes the copy of the string
      rw [if_pos (Nat.le_of_eq heq.symm)]
      rwa [if_pos (List.getD_eq_default s 0 (Nat.le_of_eq heq.symm)), ← hs.nul, heq,
        Mem.copyFrom_concat hlen] at h

/-- **`strncat` appends at most `n` characters and a NUL** exactly when the source is no longer than
that, or a NUL already stands behind the last character. -/
theorem strncat_appended_iff {m : Mem} {dest src n : U32} {d s : List U8}
    (hd : Mem.StringAt m dest d) (hs : Mem.StringAt m src s)
    (hroom : d.length + n.toNat + 1 ≤ 2 ^ 32)
    (hapart : Mem.Apart src (s.length + 1) dest (d.length + n.toNat + 1)) :
    (∃ m', (strncat m dest src n).Returns (m', dest) ∧ Appended m m' dest d (s.take n.toNat)) ↔
      s.length ≤ n.toNat ∨ m (dest + BitVec.ofNat 32 (d.length + n.toNat)) = 0 := by
  rw [(strncat_returns hd hs hroom hapart).exists_and_iff]
  obtain ⟨p, hp⟩ : ∃ p, p = dest + BitVec.ofNat 32 d.length := ⟨_, rfl⟩
  have hlen := hs.length_lt
  have hframe : ∀ j ≤ n.toNat + 1, ∀ q,
      (q - dest).toNat < d.length ∨ d.length + j ≤ (q - dest).toNat →
      m.copyFrom p m src j q = m q := fun j hj q hq ↦ by
    refine Mem.copyFrom_of_not_inRegion ?_
    rw [hp, Mem.inRegion_add_iff (by omega)]
    omega
  have hnul : dest + BitVec.ofNat 32 (d.length + n.toNat) = p + BitVec.ofNat 32 n.toNat := by
    rw [hp, BitVec.ofNat_add, BitVec.add_assoc]
  rw [← hp, hnul]
  by_cases hle : s.length ≤ n.toNat
  · rw [if_pos hle, List.take_of_length_le hle]
    have hadded : Mem.BytesAt (m.copyFrom p m src (s.length + 1)) p (s ++ [0]) :=
      hs.1.copyFrom (by simp; omega) (by simp)
    refine iff_of_true ⟨hd.append (by omega) ?_ (hp ▸ ⟨hadded, hs.2⟩), fun q hq ↦ ?_⟩ (Or.inl hle)
    · exact fun q hq ↦ hframe _ (by omega) q (Or.inl hq)
    · rw [Mem.InRegion] at hq
      exact hframe _ (by omega) q (Or.inr (by omega))
  · have hk : (s.take n.toNat).length = n.toNat := List.length_take_of_le (by omega)
    have hlast : m.copyFrom p m src n.toNat (p + BitVec.ofNat 32 n.toNat) =
        m (p + BitVec.ofNat 32 n.toNat) := by
      refine hframe _ (Nat.le_succ _) _ (Or.inr (Nat.le_of_eq ?_))
      rw [← hnul, Mem.add_sub_self_left]
      exact (Nat.mod_eq_of_lt (by omega)).symm
    rw [if_neg hle, or_iff_right hle]
    constructor
    · intro happended
      have hend := happended.string.nul
      rwa [List.length_append, hk, hnul, hlast] at hend
    · intro hend
      have hadded : Mem.BytesAt (m.copyFrom p m src n.toNat) p (s.take n.toNat) :=
        (hs.bytesAt_take n.toNat).copyFrom (by omega) (Nat.le_of_eq hk)
      refine ⟨hd.append (by omega) ?_ (hp ▸ ⟨Mem.bytesAt_append_iff.2 ⟨hadded, ?_, trivial⟩,
        fun c hc ↦ hs.2 c (List.mem_of_mem_take hc)⟩), fun q hq ↦ ?_⟩
      · exact fun q hq ↦ hframe _ (Nat.le_succ _) q (Or.inl hq)
      · rw [hk, hlast, hend]
      · rw [hk, Mem.InRegion] at hq
        exact hframe _ (Nat.le_succ _) q (Or.inr (by omega))

/-- A letter is appended to the empty string. -/
theorem strncat_appended_iff_letter :
    ∃ m', (strncat (letterAt 0x1000) 0x2000 0x1000 1).Returns (m', 0x2000) ∧
      Appended (letterAt 0x1000) m' 0x2000 [] [0x61] := by
  refine (strncat_appended_iff (n := 1) (s := [0x61]) (Mem.stringAt_nil_iff.2 rfl)
    ⟨⟨rfl, rfl, trivial⟩, by decide⟩ (by decide) fun r h h' ↦ ?_).2 (Or.inl (by decide))
  have hlen : ([0x61] : List U8).length = 1 := rfl
  have hnil : ([] : List U8).length = 0 := rfl
  rw [Mem.InRegion] at h h'
  bv_omega

/-- A memory that holds the string of two letters at 0x1000, and the empty one at 0x2000 with a
letter one byte behind its NUL. -/
def lettersBehind : Mem := fun q ↦
  if q = 0x1000 then 0x61 else if q = 0x1001 then 0x62 else if q = 0x2001 then 0x63 else 0

/-- One letter of the two is appended, and the NUL is not written. -/
theorem not_strncat_appended_cut :
    ¬ ∃ m', (strncat lettersBehind 0x2000 0x1000 1).Returns (m', 0x2000) ∧
      Appended lettersBehind m' 0x2000 [] [0x61] := by
  have hd : Mem.StringAt lettersBehind 0x2000 [] := Mem.stringAt_nil_iff.2 rfl
  have hs : Mem.StringAt lettersBehind 0x1000 [0x61, 0x62] :=
    ⟨⟨rfl, rfl, rfl, trivial⟩, by decide⟩
  have hapart : Mem.Apart 0x1000 3 0x2000 2 := fun r h h' ↦ by
    rw [Mem.InRegion] at h h'
    bv_omega
  rw [(strncat_returns (n := 1) hd hs (by decide) hapart).exists_and_iff]
  exact fun happended ↦ absurd happended.string.nul (by decide)

end Ganoid
