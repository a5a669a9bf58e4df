import Ganoid.Library.Bisect
import Ganoid.Library.Fuelled
import Ganoid.Types
import Mathlib.Data.Int.Order.Basic

/-!
# The key maps

The two tables of `arch/i386/kernel/kbd-handler.c` that give a scan code its key, and
`binary_search_key`, which looks a scan code up in one of them. A scan code is an `int` that the
search only compares, so it is an integer here; the value of a key is a bit pattern.

The search bisects, and ends at a pair of neighbours of which it looks at both. On a sorted array it
finds exactly the entry there is and reads nothing outside the array (`binarySearchKey_returns`), so
on the two tables it is the plain lookup `keymapLookup`.
-/

open Fuelled

namespace Ganoid

/-- `struct keymap`. -/
structure Keymap where
  scanCode : ℤ
  value : U32
deriving DecidableEq

/-- A character constant. -/
def char (c : Char) : U32 := BitVec.ofNat 32 c.toNat

/-- `basic_keymap`. The keys that print nothing have `0x100` added to their scan codes. -/
def basicKeymap : List Keymap :=
  [⟨0x01, 0x101⟩, ⟨0x03, 0x103⟩, ⟨0x04, 0x104⟩, ⟨0x05, 0x105⟩, ⟨0x06, 0x106⟩, ⟨0x07, 0x107⟩,
    ⟨0x09, 0x109⟩, ⟨0x0A, 0x10A⟩, ⟨0x0B, 0x10B⟩, ⟨0x0C, 0x10C⟩, ⟨0x0D, 0x09⟩, ⟨0x0E, 0x60⟩,
    ⟨0x11, 0x111⟩, ⟨0x12, 0x112⟩, ⟨0x15, char 'Q'⟩, ⟨0x16, char '1'⟩, ⟨0x1A, char 'Z'⟩,
    ⟨0x1B, char 'S'⟩, ⟨0x1C, char 'A'⟩, ⟨0x1D, char 'W'⟩, ⟨0x1E, char '2'⟩, ⟨0x21, char 'C'⟩,
    ⟨0x22, char 'X'⟩, ⟨0x23, char 'D'⟩, ⟨0x24, char 'E'⟩, ⟨0x25, char '4'⟩, ⟨0x26, char '3'⟩,
    ⟨0x29, char ' '⟩, ⟨0x2A, char 'V'⟩, ⟨0x2B, char 'F'⟩, ⟨0x2C, char 'T'⟩, ⟨0x2D, char 'R'⟩,
    ⟨0x2E, char '5'⟩, ⟨0x31, char 'N'⟩, ⟨0x32, char 'B'⟩, ⟨0x33, char 'H'⟩, ⟨0x34, char 'G'⟩,
    ⟨0x35, char 'Y'⟩, ⟨0x36, char '6'⟩, ⟨0x3A, char 'M'⟩, ⟨0x3B, char 'J'⟩, ⟨0x3C, char 'U'⟩,
    ⟨0x3D, char '7'⟩, ⟨0x3E, char '8'⟩, ⟨0x41, char ','⟩, ⟨0x42, char 'K'⟩, ⟨0x43, char 'I'⟩,
    ⟨0x44, char 'O'⟩, ⟨0x45, char '0'⟩, ⟨0x46, char '9'⟩, ⟨0x49, char '.'⟩, ⟨0x4A, char '/'⟩,
    ⟨0x4B, char 'L'⟩, ⟨0x4C, char ';'⟩, ⟨0x4D, char 'P'⟩, ⟨0x4E, char '-'⟩, ⟨0x52, 0x27⟩,
    ⟨0x54, char '['⟩, ⟨0x55, char '='⟩, ⟨0x58, 0x158⟩, ⟨0x59, 0x159⟩, ⟨0x5A, 0x0A⟩,
    ⟨0x5B, char ']'⟩, ⟨0x5D, 0x5C⟩, ⟨0x66, 0x08⟩, ⟨0x69, 0x169⟩, ⟨0x6B, 0x16B⟩, ⟨0x6C, 0x16C⟩,
    ⟨0x70, 0x170⟩, ⟨0x71, 0x171⟩, ⟨0x72, 0x172⟩, ⟨0x73, 0x173⟩, ⟨0x74, 0x174⟩, ⟨0x75, 0x175⟩,
    ⟨0x76, 0x176⟩, ⟨0x77, 0x177⟩, ⟨0x78, 0x178⟩, ⟨0x79, 0x179⟩, ⟨0x7A, 0x17A⟩, ⟨0x7B, 0x17B⟩,
    ⟨0x7C, 0x17C⟩, ⟨0x7D, 0x17D⟩, ⟨0x83, 0x183⟩]

/-- `extended_keymap`. All of its keys have `0x200` added to their scan codes. -/
def extendedKeymap : List Keymap :=
  [⟨0x10, 0x210⟩, ⟨0x11, 0x211⟩, ⟨0x14, 0x214⟩, ⟨0x15, 0x215⟩, ⟨0x18, 0x218⟩, ⟨0x1F, 0x21F⟩,
    ⟨0x20, 0x220⟩, ⟨0x21, 0x221⟩, ⟨0x23, 0x223⟩, ⟨0x27, 0x227⟩, ⟨0x28, 0x228⟩, ⟨0x2B, 0x22B⟩,
    ⟨0x2F, 0x22F⟩, ⟨0x30, 0x230⟩, ⟨0x32, 0x232⟩, ⟨0x34, 0x234⟩, ⟨0x37, 0x237⟩, ⟨0x38, 0x238⟩,
    ⟨0x3A, 0x23A⟩, ⟨0x3B, 0x23B⟩, ⟨0x3F, 0x23F⟩, ⟨0x40, 0x240⟩, ⟨0x48, 0x248⟩, ⟨0x4A, 0x24A⟩,
    ⟨0x4D, 0x24D⟩, ⟨0x50, 0x250⟩, ⟨0x5A, 0x25A⟩, ⟨0x5E, 0x25E⟩, ⟨0x69, 0x269⟩, ⟨0x6B, 0x26B⟩,
    ⟨0x6C, 0x26C⟩, ⟨0x70, 0x270⟩, ⟨0x71, 0x271⟩, ⟨0x72, 0x272⟩, ⟨0x74, 0x274⟩, ⟨0x75, 0x275⟩,
    ⟨0x7A, 0x27A⟩, ⟨0x7D, 0x27D⟩]

/-! ### The search -/

/-- The locals of `binary_search_key` that its loop changes, and a log of the indices read. -/
structure KeySearch where
  minIndex : ℕ
  maxIndex : ℕ
  reads : List ℕ

/-- One pass through the loop of `binary_search_key`. -/
def searchKeyPass (scanCode : ℤ) (map : ℕ → Keymap) (s : KeySearch) :
    Fuelled (KeySearch ⊕ (Option U32 × List ℕ)) :=
  let medianIndex := (s.minIndex + s.maxIndex) / 2
  let reads := medianIndex :: s.reads
  if medianIndex = s.minIndex then
    if (map medianIndex).scanCode = scanCode then
      pure (.inr (some (map medianIndex).value, reads))
    else if (map (medianIndex + 1)).scanCode = scanCode then
      pure (.inr (some (map (medianIndex + 1)).value, (medianIndex + 1) :: reads))
    else pure (.inr (none, (medianIndex + 1) :: reads))
  else if (map medianIndex).scanCode < scanCode then
    pure (.inl { s with minIndex := medianIndex, reads := reads })
  else pure (.inl { s with maxIndex := medianIndex, reads := reads })

/-- `binary_search_key`, with `some value` for the return value 0 and `none` for -1, and the indices
read. -/
def binarySearchKey (scanCode : ℤ) (map : ℕ → Keymap) (keymapLength : ℕ) :
    Fuelled (Option U32 × List ℕ) :=
  let maxIndex := keymapLength - 1
  if scanCode < (map 0).scanCode then pure (none, [0])
  else if (map maxIndex).scanCode < scanCode then pure (none, [maxIndex, 0])
  else loop (searchKeyPass scanCode map) ⟨0, maxIndex, [maxIndex, 0]⟩

/-- The scan codes of the array. -/
abbrev scanCodes (map : ℕ → Keymap) (i : ℕ) : ℤ := (map i).scanCode

/-- What the search should answer: the value of the entry with the scan code, and only reads of the
array. -/
structure KeyFound (scanCode : ℤ) (map : ℕ → Keymap) (n : ℕ) (r : Option U32 × List ℕ) :
    Prop where
  some_iff : ∀ v, r.1 = some v ↔ ∃ i, i < n ∧ (map i).scanCode = scanCode ∧ (map i).value = v
  reads_lt : ∀ i ∈ r.2, i < n

/-- An entry with the scan code is the answer. -/
theorem keyFound_of_eq {scanCode : ℤ} {map : ℕ → Keymap} {n i : ℕ} {reads : List ℕ}
    (hs : Bisect.Sorted (scanCodes map) n) (hi : i < n) (heq : (map i).scanCode = scanCode)
    (hreads : ∀ j ∈ reads, j < n) : KeyFound scanCode map n (some (map i).value, reads) where
  some_iff v := by
    constructor
    · intro h
      exact ⟨i, hi, heq, Option.some.inj h⟩
    · rintro ⟨j, hj, hjeq, rfl⟩
      rw [hs.index_unique hi hj (heq.trans hjeq.symm)]
  reads_lt := hreads

/-- Where no entry has the scan code, the answer is that there is none. -/
theorem keyFound_none {scanCode : ℤ} {map : ℕ → Keymap} {n : ℕ} {reads : List ℕ}
    (hne : ∀ i, i < n → (map i).scanCode ≠ scanCode) (hreads : ∀ j ∈ reads, j < n) :
    KeyFound scanCode map n (none, reads) where
  some_iff v := ⟨fun h ↦ absurd h (by simp), fun ⟨i, hi, heq, _⟩ ↦ absurd heq (hne i hi)⟩
  reads_lt := hreads

/-- The invariant of the loop: every hit lies in the window, a window of one index is a hit, and only
the array has been read. -/
structure Searching (scanCode : ℤ) (map : ℕ → Keymap) (n : ℕ) (s : KeySearch) : Prop where
  window : Bisect.Window (scanCodes map) n scanCode s.minIndex s.maxIndex
  hit_of_eq : s.minIndex = s.maxIndex → (map s.minIndex).scanCode = scanCode
  reads_lt : ∀ i ∈ s.reads, i < n

/-- One more index of the array has been read. -/
theorem forall_lt_cons {n j : ℕ} {reads : List ℕ} (hj : j < n) (h : ∀ i ∈ reads, i < n) :
    ∀ i ∈ j :: reads, i < n := by
  rintro i (- | ⟨_, hi⟩)
  · exact hj
  · exact h i hi

/-- One pass answers, or makes the window smaller. -/
theorem searchKeyPass_returns {scanCode : ℤ} {map : ℕ → Keymap} {n : ℕ} {s : KeySearch}
    (hs : Bisect.Sorted (scanCodes map) n) (h : Searching scanCode map n s) :
    (∃ r, (searchKeyPass scanCode map s).Returns (.inr r) ∧ KeyFound scanCode map n r) ∨
      ∃ s', (searchKeyPass scanCode map s).Returns (.inl s') ∧ Searching scanCode map n s' ∧
        s'.maxIndex - s'.minIndex < s.maxIndex - s.minIndex := by
  obtain ⟨lo, hi, reads⟩ := s
  obtain ⟨hwin, hone, hreads⟩ := h
  dsimp only at hwin hone hreads
  have hle := hwin.le
  have hlt := hwin.lt
  simp only [searchKeyPass]
  generalize hmid : (lo + hi) / 2 = mid
  have hreads' : ∀ j ∈ mid :: reads, j < n := forall_lt_cons (by omega) hreads
  by_cases hpair : mid = lo
  · -- the window has at most two indices
    rw [if_pos hpair]
    left
    by_cases hhit : (map mid).scanCode = scanCode
    · rw [if_pos hhit]
      exact ⟨_, returns_pure _, keyFound_of_eq hs (by omega) hhit hreads'⟩
    · rw [if_neg hhit]
      have hne : lo ≠ hi := fun heq ↦ hhit (by rw [hpair]; exact hone heq)
      have hreads'' := forall_lt_cons (show mid + 1 < n by omega) hreads'
      by_cases hnext : (map (mid + 1)).scanCode = scanCode
      · rw [if_pos hnext]
        exact ⟨_, returns_pure _, keyFound_of_eq hs (by omega) hnext hreads''⟩
      · rw [if_neg hnext]
        rw [hpair] at hhit hnext
        exact ⟨_, returns_pure _,
          keyFound_none (fun i hi' ↦ hwin.not_mem (by omega) hhit hnext hi') hreads''⟩
  · rw [if_neg hpair]
    right
    have hmid_lo : lo < mid := by omega
    have hmid_hi : mid < hi := by omega
    by_cases hless : (map mid).scanCode < scanCode
    · rw [if_pos hless]
      refine ⟨_, returns_pure _,
        ⟨hwin.upper hs (Nat.le_of_lt hmid_hi) hless, fun heq ↦ ?_, hreads'⟩, ?_⟩
      · exact absurd heq (Nat.ne_of_lt hmid_hi)
      · dsimp only
        omega
    · rw [if_neg hless]
      refine ⟨_, returns_pure _, ⟨hwin.lower hs (Nat.le_of_lt hmid_lo) (Nat.le_of_lt hmid_hi)
        (le_of_not_gt hless), fun heq ↦ ?_, hreads'⟩, ?_⟩
      · exact absurd heq (Nat.ne_of_lt hmid_lo)
      · dsimp only
        omega

/-- **The search is a lookup**: on a sorted array it ends, finds the entry there is, and reads only
the array. -/
theorem binarySearchKey_returns (scanCode : ℤ) {map : ℕ → Keymap} {n : ℕ} (hn : 1 ≤ n)
    (hs : Bisect.Sorted (scanCodes map) n) :
    ∃ r, (binarySearchKey scanCode map n).Returns r ∧ KeyFound scanCode map n r := by
  have hfirst : ∀ j ∈ [0], j < n := forall_lt_cons (by omega) (by simp)
  have hboth : ∀ j ∈ [n - 1, 0], j < n := forall_lt_cons (by omega) hfirst
  rw [binarySearchKey]
  by_cases hlow : scanCode < (map 0).scanCode
  · rw [if_pos hlow]
    refine ⟨_, returns_pure _, keyFound_none (fun i hi ↦ ?_) hfirst⟩
    have hle : (map 0).scanCode ≤ (map i).scanCode := hs.le (Nat.zero_le i) hi
    omega
  · rw [if_neg hlow]
    by_cases hhigh : (map (n - 1)).scanCode < scanCode
    · rw [if_pos hhigh]
      refine ⟨_, returns_pure _, keyFound_none (fun i hi ↦ ?_) hboth⟩
      have hle : (map i).scanCode ≤ (map (n - 1)).scanCode :=
        hs.le (Nat.le_sub_one_of_lt hi) (Nat.sub_one_lt_of_lt hn)
      omega
    · rw [if_neg hhigh]
      refine exists_returns_of_variant (Searching scanCode map n) (KeyFound scanCode map n)
        (fun s ↦ s.maxIndex - s.minIndex) (fun s h ↦ searchKeyPass_returns hs h)
        ⟨Bisect.Window.whole hn, fun heq ↦ ?_, hboth⟩
      -- an array of one entry, between whose scan code and itself the searched one lies
      dsimp only at heq ⊢
      rw [← heq] at hhigh
      omega

/-! ### The two tables -/

/-- An array that holds a list. -/
def arrayOf (l : List Keymap) (i : ℕ) : Keymap := l.getD i ⟨0, 0⟩

theorem arrayOf_eq_getElem {l : List Keymap} {i : ℕ} (hi : i < l.length) : arrayOf l i = l[i] := by
  rw [arrayOf, List.getD_eq_getElem?_getD, List.getElem?_eq_getElem hi, Option.getD_some]

/-- The value that a table gives a scan code. -/
def keymapLookup (l : List Keymap) (scanCode : ℤ) : Option U32 :=
  (l.find? fun e ↦ e.scanCode = scanCode).map Keymap.value

/-- The table is not empty and is sorted, as the search needs. -/
def SortedKeymap (l : List Keymap) : Prop :=
  l ≠ [] ∧ l.Pairwise fun e e' ↦ e.scanCode < e'.scanCode

instance (l : List Keymap) : Decidable (SortedKeymap l) :=
  inferInstanceAs (Decidable (_ ∧ _))

theorem SortedKeymap.sorted {l : List Keymap} (h : SortedKeymap l) :
    Bisect.Sorted (scanCodes (arrayOf l)) l.length := by
  intro i j hij hj
  have hi : i < l.length := Nat.lt_trans hij hj
  have hlt := List.pairwise_iff_getElem.1 h.2 i j hi hj hij
  rw [scanCodes, scanCodes, arrayOf_eq_getElem hi, arrayOf_eq_getElem hj]
  exact hlt

/-- In a sorted table the lookup gives the value of the entry that has the scan code. -/
theorem keymapLookup_eq_some_iff {l : List Keymap} (h : SortedKeymap l) {scanCode : ℤ} {v : U32} :
    keymapLookup l scanCode = some v ↔ ⟨scanCode, v⟩ ∈ l := by
  rw [keymapLookup, Option.map_eq_some_iff]
  constructor
  · rintro ⟨e, he, rfl⟩
    have hcode : e.scanCode = scanCode := by simpa using List.find?_some he
    rw [← hcode]
    exact List.mem_of_find?_eq_some he
  · intro hmem
    cases hfind : l.find? fun e ↦ e.scanCode = scanCode with
    | none => exact absurd (List.find?_eq_none.1 hfind _ hmem) (by simp)
    | some e =>
      -- two entries with the scan code are the same, for the table is strictly increasing
      refine ⟨e, rfl, ?_⟩
      have hcode : e.scanCode = scanCode := by simpa using List.find?_some hfind
      obtain ⟨i, hi, hei⟩ := List.mem_iff_getElem.1 (List.mem_of_find?_eq_some hfind)
      obtain ⟨j, hj, hej⟩ := List.mem_iff_getElem.1 hmem
      have hij : i = j := h.sorted.index_unique hi hj (by
        rw [scanCodes, scanCodes, arrayOf_eq_getElem hi, arrayOf_eq_getElem hj, hei, hej, hcode])
      subst hij
      rw [← hei, hej]

/-- On a sorted table the search is the plain lookup. -/
theorem binarySearchKey_arrayOf {l : List Keymap} (h : SortedKeymap l) (scanCode : ℤ) :
    ∃ reads, (binarySearchKey scanCode (arrayOf l) l.length).Returns
      (keymapLookup l scanCode, reads) := by
  obtain ⟨⟨found, reads⟩, hret, hfound, -⟩ :=
    binarySearchKey_returns scanCode (List.length_pos_iff.2 h.1) h.sorted
  refine ⟨reads, ?_⟩
  have heq : found = keymapLookup l scanCode := by
    refine Option.ext fun v ↦ ?_
    rw [keymapLookup_eq_some_iff h, hfound, List.mem_iff_getElem]
    constructor
    · rintro ⟨i, hi, hcode, hv⟩
      rw [arrayOf_eq_getElem hi] at hcode hv
      exact ⟨i, hi, by rw [← hcode, ← hv]⟩
    · rintro ⟨i, hi, hei⟩
      refine ⟨i, hi, ?_, ?_⟩
      · rw [arrayOf_eq_getElem hi, hei]
      · rw [arrayOf_eq_getElem hi, hei]
  rw [← heq]
  exact hret

theorem sortedKeymap_basicKeymap : SortedKeymap basicKeymap := by decide

theorem sortedKeymap_extendedKeymap : SortedKeymap extendedKeymap := by decide

end Ganoid
