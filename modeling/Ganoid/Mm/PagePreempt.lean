import Ganoid.Mm.PageRun

/-!
# The page allocator under preemption

`get_free_pages` searches the bitmap and then marks what it found, and enters no critical section in
between, so the timer interrupt can switch tasks there. Here every task takes the two steps
separately, and the steps of different tasks interleave in any order. A task that has searched and
not yet marked keeps its block in `PreemptState.pending`. What is live is what callers have got, and
so nothing of a block that starts with frame 0, whose address is `NULL`.

The block of a search is free when it is found. So a frame of it can be live when it is marked only
if another task has marked it in between, and an interleaving is safe exactly when every marking is
undisturbed (`preemptRun_disjoint_iff`). This depends on nothing but the order of the calls and the
blocks in them. One order in which it is so whatever the blocks are is that no task marks a block
while another one is between its two steps (`preemptRun_disjoint_of_exclusive`).
-/

open Fuelled

namespace Ganoid

variable {Task : Type} [DecidableEq Task]

/-- `get_free_pages` behind a search that succeeded. -/
def markPages (bm : FreeBm) (startBit count : U32) : Fuelled (U32 × FreeBm) := do
  let bm ← fpSetbitRange bm startBit (startBit + count - 1)
  pure (pagenoToAddr startBit, bm)

theorem getFreePages_eq (bm : FreeBm) (count : U32) : getFreePages bm count = (do
    let (r, bm) ← findFreeBitsRange bm count
    match r with
    | none => pure (0, bm)
    | some startBit => markPages bm startBit count) := rfl

/-- The allocator's state, and the start and count of the block each task has found but not yet
marked. -/
structure PreemptState (Task : Type) where
  pages : PageState
  pending : Task → Option (U32 × U32)

/-- A step of some task. -/
inductive PreemptCall (Task : Type)
  /-- The call of `find_free_bits_range` in `get_free_pages(count)`. -/
  | search (t : Task) (count : U32) (found : Option U32)
  /-- The call of `fp_setbit_range` that follows, and the address returned. -/
  | mark (t : Task) (startBit count a : U32)
  | freePage (ptr : U32)

/-- One step. A task whose search fails is done with its call. -/
inductive PreemptStep : PreemptState Task → PreemptCall Task → PreemptState Task → Prop
  | search {bm bm₀ bm' : FreeBm} {live : List (Finset ℕ)} {pending : Task → Option (U32 × U32)}
      {t : Task} {count : U32} {found : Option U32} (hidle : pending t = none)
      (henv : SameArray bm bm₀) (hsearch : (findFreeBitsRange bm₀ count).Returns (found, bm')) :
      PreemptStep ⟨⟨bm, live⟩, pending⟩ (.search t count found)
        ⟨⟨bm', live⟩, Function.update pending t (found.map fun f ↦ (f, count))⟩
  | mark {bm bm₀ bm' : FreeBm} {live : List (Finset ℕ)} {pending : Task → Option (U32 × U32)}
      {t : Task} {f count a : U32} (hpending : pending t = some (f, count))
      (henv : SameArray bm bm₀) (hmark : (markPages bm₀ f count).Returns (a, bm')) :
      PreemptStep ⟨⟨bm, live⟩, pending⟩ (.mark t f count a)
        ⟨⟨bm', blockAt a count :: live⟩, Function.update pending t none⟩
  | freePage {s s' : PageState} {pending : Task → Option (U32 × U32)} {ptr : U32}
      (hstep : PageStep s (.freePage ptr) s') :
      PreemptStep ⟨s, pending⟩ (.freePage ptr) ⟨s', pending⟩

/-! ### What happens between a search and its marking -/

/-- The frames handed out since the last search of a task, and not freed since. The calls are given
latest first. -/
def handedOutSince (t : Task) : List (PreemptCall Task) → Finset ℕ
  | [] => ∅
  | .search t' _ _ :: past => if t' = t then ∅ else handedOutSince t past
  | .mark _ _ count a :: past => blockAt a count ∪ handedOutSince t past
  | .freePage ptr :: past =>
    if ptr = 0 then handedOutSince t past
    else (handedOutSince t past).erase (getPageno ptr).toNat

/-- Where the call marks a block that its caller gets, no frame of it has been handed out since the
search. -/
def Undisturbed (past : List (PreemptCall Task)) : PreemptCall Task → Prop
  | .mark t _ count a => ∀ b ∈ blockAt a count, b < numFrames.toNat → b ∉ handedOutSince t past
  | _ => True

/-- No task has marked a block since the last search of `t`. -/
def NoneMarkedSince (t : Task) : List (PreemptCall Task) → Prop
  | [] => True
  | .search t' _ _ :: past => t' = t ∨ NoneMarkedSince t past
  | .mark _ _ _ _ :: _ => False
  | .freePage _ :: past => NoneMarkedSince t past

/-- A task that marks a block has searched for it after every other marking. -/
def Exclusive (past : List (PreemptCall Task)) : PreemptCall Task → Prop
  | .mark t _ _ _ => NoneMarkedSince t past
  | _ => True

theorem handedOutSince_eq_empty {t : Task} {past : List (PreemptCall Task)}
    (h : NoneMarkedSince t past) : handedOutSince t past = ∅ := by
  induction past with
  | nil => rfl
  | cons c past ih =>
    cases c with
    | search t' count found =>
      rw [handedOutSince]
      split
      · rfl
      · rename_i hne
        exact ih (h.resolve_left hne)
    | mark t' f count a => exact False.elim h
    | freePage ptr =>
      rw [handedOutSince, ih h, Finset.erase_empty, ite_self]

theorem Exclusive.undisturbed {past : List (PreemptCall Task)} {c : PreemptCall Task}
    (h : Exclusive past c) : Undisturbed past c := by
  cases c with
  | search t count found => trivial
  | mark t f count a =>
    intro b _ _
    rw [handedOutSince_eq_empty h]
    exact Finset.notMem_empty b
  | freePage ptr => trivial

/-! ### One step -/

/-- The blocks pending are ones that searches have found, and what has been handed out since is
live. -/
structure Tracked (past : List (PreemptCall Task)) (s : PreemptState Task) : Prop where
  found : ∀ t f count, s.pending t = some (f, count) →
    1 ≤ count.toNat ∧ count.toNat ≤ 1048576 ∧ f.toNat < 1048576
  live : ∀ t, ∀ b ∈ handedOutSince t past, ∃ B ∈ s.pages.live, b ∈ B

/-- The live blocks are held, and what is live of a block that is pending has been handed out since
its search. -/
structure Sound (past : List (PreemptCall Task)) (s : PreemptState Task) : Prop where
  held : Held s.pages.bm s.pages.live
  handedOut : ∀ t f count, s.pending t = some (f, count) → ∀ b ∈ block (some f) count,
    b < numFrames.toNat → ∀ B ∈ s.pages.live, b ∈ B → b ∈ handedOutSince t past

/-- What the marking step does to the frames, and the address it returns. -/
theorem markPages_case {bm bm₀ bm' : FreeBm} {f count a : U32} (hpos : 1 ≤ count.toNat)
    (hle : count.toNat ≤ 1048576) (hf : f.toNat < 1048576) (henv : SameArray bm bm₀)
    (hmark : (markPages bm₀ f count).Returns (a, bm')) :
    a = pagenoToAddr f ∧ ∀ b < numFrames.toNat,
      bm'.busy b = if b ∈ block (some f) count then true else bm.busy b := by
  have hlast : (f + count - 1).toNat = f.toNat + count.toNat - 1 := by bv_omega
  obtain ⟨bm₁, hret, hmarked⟩ := @fpSetbitRange_returns bm₀ f (f + count - 1) (by omega)
  have hwhole : (markPages bm₀ f count).Returns (pagenoToAddr f, bm₁) := hret.bind (returns_pure _)
  obtain ⟨rfl, rfl⟩ := Prod.mk.inj (hmark.unique hwhole)
  refine ⟨rfl, fun b hb ↦ ?_⟩
  rw [hlast, Nat.sub_add_cancel (by omega)] at hmarked
  rw [hmarked.busy_eq, henv.busy_eq hb]
  simp only [mem_block_some]

/-- What a freed page leaves live of the blocks. -/
theorem live_of_freePage {s s' : PageState} {ptr : U32} (h : PageStep s (.freePage ptr) s')
    {b : ℕ} : (∀ B ∈ s.live, b ∈ B → (ptr ≠ 0 → b ≠ (getPageno ptr).toNat) →
        ∃ B' ∈ s'.live, b ∈ B') ∧
      ∀ B' ∈ s'.live, b ∈ B' → ∃ B ∈ s.live, b ∈ B := by
  cases h with
  | freeNull henv => exact ⟨fun B hB hb _ ↦ ⟨B, hB, hb⟩, fun B hB hb ↦ ⟨B, hB, hb⟩⟩
  | freePage henv hptr hheld =>
    rename_i bm bm₀ before after B
    constructor
    · intro C hC hb hne
      have hmem := Finset.mem_erase.2 ⟨hne hptr, hb⟩
      rcases List.mem_append.1 hC with hC | hC
      · exact ⟨C, List.mem_append_left _ hC, hb⟩
      · rcases List.mem_cons.1 hC with rfl | hC
        · exact ⟨_, List.mem_append_right _ List.mem_cons_self, hmem⟩
        · exact ⟨C, List.mem_append_right _ (List.mem_cons_of_mem _ hC), hb⟩
    · intro C hC hb
      rcases List.mem_append.1 hC with hC | hC
      · exact ⟨C, List.mem_append_left _ hC, hb⟩
      · rcases List.mem_cons.1 hC with rfl | hC
        · exact ⟨B, List.mem_append_right _ List.mem_cons_self, Finset.mem_of_mem_erase hb⟩
        · exact ⟨C, List.mem_append_right _ (List.mem_cons_of_mem _ hC), hb⟩

/-- No live block still has the page that is freed, if it was in one only. -/
theorem ne_of_live_of_freePage {s s' : PageState} {ptr : U32} (h : PageStep s (.freePage ptr) s')
    (hheld : Held s.bm s.live) (hptr : ptr ≠ 0) {b : ℕ} (hb : b < numFrames.toNat)
    {B : Finset ℕ} (hB : B ∈ s'.live) (hbB : b ∈ B) : b ≠ (getPageno ptr).toNat := by
  have hfree := ((h.exact hheld) b hb).1
  rintro rfl
  have hbusy := (h.held hheld).busy B hB _ hbB hb
  exact absurd ((hfree ⟨hptr, rfl⟩).2.symm.trans hbusy) Bool.false_ne_true

theorem PreemptStep.tracked {s s' : PreemptState Task} {c : PreemptCall Task}
    {past : List (PreemptCall Task)} (h : PreemptStep s c s') (hs : Tracked past s) :
    Tracked (c :: past) s' := by
  cases h with
  | search hidle henv hsearch =>
    rename_i bm bm₀ bm' live pending t count found
    refine ⟨fun t' g n ht' ↦ ?_, fun t' b hb ↦ ?_⟩
    · change Function.update pending t _ t' = _ at ht'
      rcases eq_or_ne t' t with rfl | hne
      · rw [Function.update_self] at ht'
        obtain ⟨f, rfl, heq⟩ := Option.map_eq_some_iff.1 ht'
        obtain ⟨rfl, rfl⟩ := Prod.mk.inj heq
        obtain ⟨hpos, hle, hrun⟩ := firstRun_of_search hsearch
        exact ⟨hpos, hle, hrun.lt⟩
      · rw [Function.update_of_ne hne] at ht'
        exact hs.found t' g n ht'
    · rw [handedOutSince] at hb
      split at hb
      · exact absurd hb (Finset.notMem_empty b)
      · exact hs.live t' b hb
  | mark hpending henv hmark =>
    rename_i bm bm₀ bm' live pending t f count a
    refine ⟨fun t' g n ht' ↦ ?_, fun t' b hb ↦ ?_⟩
    · change Function.update pending t none t' = _ at ht'
      rcases eq_or_ne t' t with rfl | hne
      · rw [Function.update_self] at ht'
        exact absurd ht' (Option.some_ne_none _).symm
      · rw [Function.update_of_ne hne] at ht'
        exact hs.found t' g n ht'
    · rw [handedOutSince] at hb
      rcases Finset.mem_union.1 hb with hb | hb
      · exact ⟨_, List.mem_cons_self, hb⟩
      · obtain ⟨B, hB, hbB⟩ := hs.live t' b hb
        exact ⟨B, List.mem_cons_of_mem _ hB, hbB⟩
  | freePage hstep =>
    refine ⟨hs.found, fun t' b hb ↦ ?_⟩
    rw [handedOutSince] at hb
    split at hb
    · rename_i hptr
      obtain ⟨B, hB, hbB⟩ := hs.live t' b hb
      exact (live_of_freePage hstep).1 B hB hbB fun hne ↦ absurd hptr hne
    · obtain ⟨hne, hb⟩ := Finset.mem_erase.1 hb
      obtain ⟨B, hB, hbB⟩ := hs.live t' b hb
      exact (live_of_freePage hstep).1 B hB hbB fun _ ↦ hne

/-- **Undisturbed steps** keep the live blocks held. -/
theorem PreemptStep.sound {s s' : PreemptState Task} {c : PreemptCall Task}
    {past : List (PreemptCall Task)} (h : PreemptStep s c s') (htracked : Tracked past s)
    (hfree : Undisturbed past c) (hs : Sound past s) : Sound (c :: past) s' := by
  cases h with
  | search hidle henv hsearch =>
    rename_i bm bm₀ bm' live pending t count found
    have hbusy : ∀ b < numFrames.toNat, bm'.busy b = bm.busy b := fun b hb ↦ by
      rw [busy_eq_of_words_eq (words_eq_of_search hsearch), henv.busy_eq hb]
    have hheld : Held bm' live :=
      ⟨fun B hB b hbB hb ↦ (hbusy b hb).trans (hs.held.busy B hB b hbB hb), hs.held.disjoint⟩
    refine ⟨hheld, fun t' g n ht' b hin hb B hB hbB ↦ ?_⟩
    change Function.update pending t _ t' = _ at ht'
    rw [handedOutSince]
    rcases eq_or_ne t' t with rfl | hne
    · -- the block just found is free, and so not live
      rw [Function.update_self] at ht'
      obtain ⟨f, rfl, heq⟩ := Option.map_eq_some_iff.1 ht'
      obtain ⟨rfl, rfl⟩ := Prod.mk.inj heq
      obtain ⟨hpos, hle, hrun⟩ := firstRun_of_search hsearch
      obtain ⟨hlo, hhi⟩ := mem_block_some.1 hin
      have hfree : bm₀.busy b = false := by
        rw [show b = f.toNat + (b - f.toNat) by omega]
        exact hrun.busy_eq_false (by omega)
      rw [henv.busy_eq hb, hs.held.busy B hB b hbB hb] at hfree
      exact absurd hfree.symm Bool.false_ne_true
    · rw [Function.update_of_ne hne] at ht'
      rw [if_neg hne.symm]
      exact hs.handedOut t' g n ht' b hin hb B hB hbB
  | mark hpending henv hmark =>
    rename_i bm bm₀ bm' live pending t f count a
    obtain ⟨hpos, hle, hf⟩ := htracked.found t f count hpending
    obtain ⟨rfl, hbusy⟩ := markPages_case hpos hle hf henv hmark
    have hblock : ∀ b ∈ blockAt (pagenoToAddr f) count, b ∈ block (some f) count :=
      fun b hb ↦ ((mem_blockAt_iff hf).1 hb).2
    have hheld : Held bm' (blockAt (pagenoToAddr f) count :: live) := by
      refine hs.held.cons (fun b hb hbm ↦ ?_) (fun b hin hb ↦ ?_) fun C hC b hb hin hbC ↦ ?_
      · rw [hbusy b hb, hbm, ite_self]
      · rw [hbusy b hb, if_pos (hblock b hin)]
      · exact hfree b hin hb (hs.handedOut t f count hpending b (hblock b hin) hb C hC hbC)
    refine ⟨hheld, fun t' g n ht' b hin hb B hB hbB ↦ ?_⟩
    change Function.update pending t none t' = _ at ht'
    rw [handedOutSince, Finset.mem_union]
    rcases eq_or_ne t' t with rfl | hne
    · rw [Function.update_self] at ht'
      exact absurd ht' (Option.some_ne_none _).symm
    · rw [Function.update_of_ne hne] at ht'
      rcases List.mem_cons.1 hB with rfl | hB
      · exact Or.inl hbB
      · exact Or.inr (hs.handedOut t' g n ht' b hin hb B hB hbB)
  | freePage hstep =>
    refine ⟨hstep.held hs.held, fun t' g n ht' b hin hb B hB hbB ↦ ?_⟩
    obtain ⟨C, hC, hbC⟩ := (live_of_freePage hstep).2 B hB hbB
    have hmem := hs.handedOut t' g n ht' b hin hb C hC hbC
    rw [handedOutSince]
    split
    · exact hmem
    · rename_i hptr
      exact Finset.mem_erase.2 ⟨ne_of_live_of_freePage hstep hs.held hptr hb hB hbB, hmem⟩

/-- A marking that is disturbed gives its caller a live frame. -/
theorem PreemptStep.undisturbed {s s' : PreemptState Task} {c : PreemptCall Task}
    {past : List (PreemptCall Task)} (h : PreemptStep s c s') (hs : Tracked past s)
    (hdisj : DisjointBlocks s'.pages.live) : Undisturbed past c := by
  cases h with
  | search hidle henv hsearch => trivial
  | mark hpending henv hmark =>
    intro b hin hb hmem
    obtain ⟨B, hB, hbB⟩ := hs.live _ b hmem
    exact (List.pairwise_cons.1 hdisj).1 B hB b hb hin hbB
  | freePage hstep => trivial

/-! ### Runs -/

theorem disjoint_of_undisturbed {s : PreemptState Task} {past : List (PreemptCall Task)}
    {r : List (PreemptCall Task × PreemptState Task)} (htracked : Tracked past s)
    (hs : Sound past s) (hrun : Along PreemptStep s r)
    (hfree : AlongHistory Undisturbed past (r.map Prod.fst)) :
    Along (fun _ _ s' ↦ DisjointBlocks s'.pages.live) s r := by
  induction r generalizing s past with
  | nil => trivial
  | cons step r ih =>
    obtain ⟨c, s'⟩ := step
    have hs' := hrun.1.sound htracked hfree.1 hs
    exact ⟨hs'.held.disjoint, ih (hrun.1.tracked htracked) hs' hrun.2 hfree.2⟩

theorem undisturbed_of_disjoint {s : PreemptState Task} {past : List (PreemptCall Task)}
    {r : List (PreemptCall Task × PreemptState Task)} (htracked : Tracked past s)
    (hrun : Along PreemptStep s r) (hdisj : Along (fun _ _ s' ↦ DisjointBlocks s'.pages.live) s r) :
    AlongHistory Undisturbed past (r.map Prod.fst) := by
  induction r generalizing s past with
  | nil => trivial
  | cons step r ih =>
    obtain ⟨c, s'⟩ := step
    exact ⟨hrun.1.undisturbed htracked hdisj.1, ih (hrun.1.tracked htracked) hrun.2 hdisj.2⟩

/-- At the start nothing is pending and nothing is live. -/
theorem tracked_start (bm : FreeBm) :
    Tracked ([] : List (PreemptCall Task)) ⟨⟨bm, []⟩, fun _ ↦ none⟩ where
  found _ _ _ h := absurd h (Option.some_ne_none _).symm
  live _ _ h := absurd h (Finset.notMem_empty _)

theorem sound_start (bm : FreeBm) :
    Sound ([] : List (PreemptCall Task)) ⟨⟨bm, []⟩, fun _ ↦ none⟩ where
  held := held_nil bm
  handedOut _ _ _ h := absurd h (Option.some_ne_none _).symm

/-- Tasks that keep each other out from a search to its marking, as a critical section would, are
never given the same frame. -/
theorem preemptRun_disjoint_of_exclusive {bm : FreeBm}
    {r : List (PreemptCall Task × PreemptState Task)}
    (hrun : Along PreemptStep ⟨⟨bm, []⟩, fun _ ↦ none⟩ r)
    (hexclusive : AlongHistory Exclusive [] (r.map Prod.fst)) :
    Along (fun _ _ s' ↦ DisjointBlocks s'.pages.live) ⟨⟨bm, []⟩, fun _ ↦ none⟩ r :=
  disjoint_of_undisturbed (tracked_start bm) (sound_start bm) hrun
    (hexclusive.mono fun _ _ h ↦ h.undisturbed)

/-! ### Two tasks that ask for a page -/

theorem FreeFrames.markPages {bm : FreeBm} {S : Finset ℕ} {f count : U32} (h : FreeFrames bm S)
    (hpos : 1 ≤ count.toNat) (hle : f.toNat + count.toNat ≤ 1048576) :
    ∃ bm', (Ganoid.markPages bm f count).Returns (pagenoToAddr f, bm') ∧
      FreeFrames bm' (S \ block (some f) count) := by
  obtain ⟨bm', hret, h'⟩ := h.mark hpos hle
  exact ⟨bm', hret.bind (returns_pure _), h'⟩

end Ganoid
