import Ganoid.Arch.Keymap
import Ganoid.Library.Signed

/-!
# The key search in machine integers

`binary_search_key` as the code computes it: its indices are `int`s, so that the sum of the bounds
could overflow and half of it be negative, and its result goes through the pointer `value`. The
search of `Ganoid.Arch.Keymap` has natural numbers for the indices and no pointer. On an array that
lies in the address space the two make the same passes (`searchPass_simulates`), and what is known of
the one is known of the other.
-/

open Fuelled

namespace Ganoid

namespace KeyInt

/-- The locals of `binary_search_key` that its loop changes, and a log of the indices read. A
negative index is one far behind the end of any array. -/
structure Locals where
  minIndex : U32
  maxIndex : U32
  reads : List ℕ

/-- What the loop leaves: `found`, `median_index` and the log. -/
structure Left where
  found : Bool
  medianIndex : U32
  reads : List ℕ

/-- One pass through the loop of `binary_search_key`. -/
def searchPass (scanCode : ℤ) (map : ℕ → Keymap) (s : Locals) : Fuelled (Locals ⊕ Left) :=
  let medianIndex := (s.minIndex + s.maxIndex).sdiv 2
  let reads := medianIndex.toNat :: s.reads
  if medianIndex = s.minIndex then
    if (map medianIndex.toNat).scanCode = scanCode then pure (.inr ⟨true, medianIndex, reads⟩)
    else
      let reads := (medianIndex + 1).toNat :: reads
      if (map (medianIndex + 1).toNat).scanCode = scanCode then
        let medianIndex := medianIndex + 1
        pure (.inr ⟨true, medianIndex, reads⟩)
      else pure (.inr ⟨false, medianIndex, reads⟩)
  else if (map medianIndex.toNat).scanCode < scanCode then
    pure (.inl { s with minIndex := medianIndex, reads := reads })
  else pure (.inl { s with maxIndex := medianIndex, reads := reads })

/-- The value returned, what is in `*value` afterwards, and the indices read. -/
structure Result where
  ret : U32
  value : U32
  reads : List ℕ

/-- `binary_search_key`. -/
def binarySearchKey (scanCode : ℤ) (map : ℕ → Keymap) (keymapLength value : U32) :
    Fuelled Result :=
  let maxIndex := keymapLength - 1
  if scanCode < (map 0).scanCode then pure ⟨-1, value, [0]⟩
  else if (map maxIndex.toNat).scanCode < scanCode then pure ⟨-1, value, [maxIndex.toNat, 0]⟩
  else do
    let left ← loop (searchPass scanCode map) ⟨0, maxIndex, [maxIndex.toNat, 0]⟩
    if left.found then
      pure ⟨0, (map left.medianIndex.toNat).value, left.medianIndex.toNat :: left.reads⟩
    else pure ⟨-1, value, left.reads⟩

/-! ### The simulation -/

/-- The locals are those of the search in natural numbers, and are small enough to be added. -/
structure SameLocals (s : KeySearch) (t : Locals) : Prop where
  min_eq : t.minIndex.toNat = s.minIndex
  max_eq : t.maxIndex.toNat = s.maxIndex
  reads_eq : t.reads = s.reads
  min_lt : s.minIndex < 2 ^ 30
  max_lt : s.maxIndex < 2 ^ 30

/-- The loops leave the same answer. -/
def SameAnswer (map : ℕ → Keymap) (r : Option U32 × List ℕ) (left : Left) : Prop :=
  left.reads = r.2 ∧
    if left.found then r.1 = some (map left.medianIndex.toNat).value ∧ left.medianIndex.toNat ∈ r.2
    else r.1 = none

theorem SameLocals.toNat_median {s : KeySearch} {t : Locals} (h : SameLocals s t) :
    ((t.minIndex + t.maxIndex).sdiv 2).toNat = (s.minIndex + s.maxIndex) / 2 := by
  have hmin := h.min_eq
  have hmax := h.max_eq
  have hminlt := h.min_lt
  have hmaxlt := h.max_lt
  have hsum : (t.minIndex + t.maxIndex).toNat = s.minIndex + s.maxIndex := by bv_omega
  rw [Signed.toNat_sdiv (by omega) (by decide), hsum]
  rfl

/-- **One pass** of the one loop is one pass of the other. -/
theorem searchPass_simulates (scanCode : ℤ) (map : ℕ → Keymap) (s : KeySearch) (t : Locals)
    (x : KeySearch ⊕ (Option U32 × List ℕ)) (h : SameLocals s t)
    (hx : (searchKeyPass scanCode map s).Returns x) :
    ∃ y, (searchPass scanCode map t).Returns y ∧ Sum.LiftRel SameLocals (SameAnswer map) x y := by
  have hmedian := h.toNat_median
  have hminlt := h.min_lt
  have hmaxlt := h.max_lt
  simp only [searchKeyPass] at hx
  simp only [searchPass]
  generalize (t.minIndex + t.maxIndex).sdiv 2 = median at hmedian ⊢
  rw [← hmedian] at hx
  have hnext : (median + 1).toNat = median.toNat + 1 := by bv_omega
  have hpair : median = t.minIndex ↔ median.toNat = s.minIndex := by
    rw [← h.min_eq]
    exact BitVec.toNat_inj.symm
  rw [hnext, h.reads_eq]
  by_cases hp : median.toNat = s.minIndex
  · rw [if_pos hp] at hx
    rw [if_pos (hpair.2 hp)]
    by_cases hhit : (map median.toNat).scanCode = scanCode
    · rw [if_pos hhit] at hx ⊢
      obtain rfl := returns_pure_iff.1 hx
      exact ⟨_, returns_pure _, .inr ⟨rfl, rfl, List.mem_cons_self⟩⟩
    · rw [if_neg hhit] at hx ⊢
      by_cases hnexthit : (map (median.toNat + 1)).scanCode = scanCode
      · rw [if_pos hnexthit] at hx ⊢
        obtain rfl := returns_pure_iff.1 hx
        refine ⟨_, returns_pure _, .inr ⟨rfl, ?_⟩⟩
        rw [if_pos rfl, hnext]
        exact ⟨rfl, List.mem_cons_self⟩
      · rw [if_neg hnexthit] at hx ⊢
        obtain rfl := returns_pure_iff.1 hx
        exact ⟨_, returns_pure _, .inr ⟨rfl, rfl⟩⟩
  · rw [if_neg hp] at hx
    rw [if_neg fun heq ↦ hp (hpair.1 heq)]
    by_cases hless : (map median.toNat).scanCode < scanCode
    · rw [if_pos hless] at hx ⊢
      obtain rfl := returns_pure_iff.1 hx
      exact ⟨_, returns_pure _, .inl ⟨rfl, h.max_eq, rfl, by dsimp only; omega, h.max_lt⟩⟩
    · rw [if_neg hless] at hx ⊢
      obtain rfl := returns_pure_iff.1 hx
      exact ⟨_, returns_pure _, .inl ⟨h.min_eq, rfl, rfl, h.min_lt, by dsimp only; omega⟩⟩

/-- The answer is passed on as the source does: a value through the pointer, or nothing. -/
structure SameResult (value : U32) (r : Option U32 × List ℕ) (r' : Result) : Prop where
  ret_eq : r'.ret = if r.1.isSome then 0 else -1
  value_eq : r'.value = r.1.getD value
  reads_subset : ∀ i ∈ r'.reads, i ∈ r.2

/-- **The whole search** returns what the search in natural numbers returns. -/
theorem binarySearchKey_simulates (scanCode : ℤ) (map : ℕ → Keymap) {n : ℕ} (hn : 1 ≤ n)
    (hlt : n ≤ 2 ^ 30) (value : U32) {r : Option U32 × List ℕ}
    (h : (Ganoid.binarySearchKey scanCode map n).Returns r) :
    ∃ r', (binarySearchKey scanCode map (BitVec.ofNat 32 n) value).Returns r' ∧
      SameResult value r r' := by
  have hlen : (BitVec.ofNat 32 n).toNat = n := Nat.mod_eq_of_lt (by omega)
  have hmax : (BitVec.ofNat 32 n - 1).toNat = n - 1 := by bv_omega
  rw [Ganoid.binarySearchKey] at h
  rw [binarySearchKey, hmax]
  by_cases hlow : scanCode < (map 0).scanCode
  · rw [if_pos hlow] at h ⊢
    obtain rfl := returns_pure_iff.1 h
    exact ⟨_, returns_pure _, rfl, rfl, fun i hi ↦ hi⟩
  · rw [if_neg hlow] at h ⊢
    by_cases hhigh : (map (n - 1)).scanCode < scanCode
    · rw [if_pos hhigh] at h ⊢
      obtain rfl := returns_pure_iff.1 h
      exact ⟨_, returns_pure _, rfl, rfl, fun i hi ↦ hi⟩
    · rw [if_neg hhigh] at h ⊢
      have hstart : SameLocals ⟨0, n - 1, [n - 1, 0]⟩ ⟨0, BitVec.ofNat 32 n - 1, [n - 1, 0]⟩ :=
        ⟨rfl, hmax, rfl, Nat.two_pow_pos 30, by dsimp only; omega⟩
      obtain ⟨left, hleft, hreads, hanswer⟩ :=
        Returns.simulate SameLocals (SameAnswer map) (searchPass_simulates scanCode map) hstart h
      by_cases hfound : left.found
      · rw [if_pos hfound] at hanswer
        refine ⟨_, hleft.bind (by rw [if_pos hfound]; exact returns_pure _), ?_⟩
        refine ⟨by rw [hanswer.1]; rfl, by rw [hanswer.1]; rfl, fun i hi ↦ ?_⟩
        rcases List.mem_cons.1 hi with rfl | hi
        · exact hanswer.2
        · exact hreads ▸ hi
      · rw [if_neg hfound] at hanswer
        refine ⟨_, hleft.bind (by rw [if_neg hfound]; exact returns_pure _), ?_⟩
        exact ⟨by rw [hanswer]; rfl, by rw [hanswer]; rfl, fun i hi ↦ hreads ▸ hi⟩

/-! ### The lookup -/

/-- An array of `struct keymap` that can be searched. -/
structure KeymapArray where
  entries : List Keymap
  /-- There is an entry, and the scan codes are strictly increasing. -/
  sorted : SortedKeymap entries
  /-- The entries, of 8 bytes each, lie in the address space. -/
  fits : 8 * entries.length ≤ 2 ^ 32

/-- The first table of the keyboard handler is one. -/
example : KeymapArray := ⟨basicKeymap, sortedKeymap_basicKeymap, by decide⟩

/-- What the search of an array should do. -/
structure LooksUp (a : KeymapArray) (scanCode : ℤ) (value : U32) (r : Result) : Prop where
  /-- It reads nothing outside the array. -/
  reads_lt : ∀ i ∈ r.reads, i < a.entries.length
  /-- It returns 0 and stores the value of the entry with the scan code. -/
  hit : ∀ e ∈ a.entries, e.scanCode = scanCode → r.ret = 0 ∧ r.value = e.value
  /-- Where there is none it returns -1 and stores nothing. -/
  miss : (∀ e ∈ a.entries, e.scanCode ≠ scanCode) → r.ret = -1 ∧ r.value = value

/-- **`binary_search_key` is a lookup that terminates**, on every sorted array and for every scan
code. -/
theorem binarySearchKey_looksUp (a : KeymapArray) (scanCode : ℤ) (value : U32) :
    ∃ r, (binarySearchKey scanCode (arrayOf a.entries) (BitVec.ofNat 32 a.entries.length)
      value).Returns r ∧ LooksUp a scanCode value r := by
  have hlen : 1 ≤ a.entries.length := List.length_pos_iff.2 a.sorted.1
  have hfits := a.fits
  obtain ⟨⟨found, reads⟩, hret, hsome, hreads⟩ :=
    binarySearchKey_returns scanCode hlen a.sorted.sorted
  obtain ⟨r, hr, hresult⟩ := binarySearchKey_simulates scanCode _ hlen (by omega) value hret
  refine ⟨r, hr, fun i hi ↦ hreads i (hresult.reads_subset i hi), fun e he hcode ↦ ?_,
    fun hnone ↦ ?_⟩
  · obtain ⟨i, hi, rfl⟩ := List.mem_iff_getElem.1 he
    have hfound : found = some a.entries[i].value := by
      refine (hsome _).2 ⟨i, hi, ?_, ?_⟩
      · rw [arrayOf_eq_getElem hi, hcode]
      · rw [arrayOf_eq_getElem hi]
    rw [hresult.ret_eq, hresult.value_eq, hfound]
    exact ⟨rfl, rfl⟩
  · have hfound : found = none := by
      refine Option.eq_none_iff_forall_ne_some.2 fun v hv ↦ ?_
      obtain ⟨i, hi, hcode, -⟩ := (hsome v).1 hv
      rw [arrayOf_eq_getElem hi] at hcode
      exact hnone _ (List.getElem_mem hi) hcode
    rw [hresult.ret_eq, hresult.value_eq, hfound]
    exact ⟨rfl, rfl⟩

end KeyInt

end Ganoid
