import Mathlib.Data.List.Basic
import Mathlib.Tactic.Common

/-!
# Lexicographic comparison

`List.compareLex cmp` compares lists by the first elements in which they differ, and a proper prefix
is smaller. It is oriented, transitive and lawful where `cmp` is.

Two comparisons of elements order two lists alike exactly when they order alike the elements in
which the lists first differ (`compareLex_eq_iff`): what they make of the others does not matter. A
terminator below all elements changes nothing (`compareLex_concat`), and one that is none of the
elements makes a list and its extensions compare alike with everything else
(`compareLex_of_isPrefix`).
-/

open Std

universe u

namespace Lexicographic

variable {α : Type u} {cmp cmp' : α → α → Ordering} {a b z : α} {l l' l'' : List α}

/-- Equal heads are skipped. -/
theorem compareLex_cons_self [ReflCmp cmp] (a : α) (l l' : List α) :
    (a :: l).compareLex cmp (a :: l') = l.compareLex cmp l' := by
  have hself : cmp a a = .eq := ReflCmp.compare_self
  rw [List.compareLex_cons_cons, hself]
  rfl

/-- Different heads decide. -/
theorem compareLex_cons_of_ne [LawfulEqCmp cmp] (h : a ≠ b) (l l' : List α) :
    (a :: l).compareLex cmp (b :: l') = cmp a b := by
  rw [List.compareLex_cons_cons]
  cases hcmp : cmp a b with
  | lt => rfl
  | eq => exact absurd (LawfulEqCmp.eq_of_compare hcmp) h
  | gt => rfl

/-- A terminator below all elements changes nothing. -/
theorem compareLex_concat [OrientedCmp cmp] (hl : ∀ a ∈ l, cmp z a = .lt)
    (hl' : ∀ a ∈ l', cmp z a = .lt) :
    (l ++ [z]).compareLex cmp (l' ++ [z]) = l.compareLex cmp l' := by
  induction l generalizing l' with
  | nil =>
    cases l' with
    | nil => exact compareLex_cons_self z [] []
    | cons b l' =>
      rw [List.nil_append, List.cons_append, List.compareLex_cons_cons, hl' b List.mem_cons_self,
        List.compareLex_nil_cons]
      rfl
  | cons a l ih =>
    obtain ⟨ha, hl⟩ := List.forall_mem_cons.1 hl
    cases l' with
    | nil =>
      rw [List.nil_append, List.cons_append, List.compareLex_cons_cons, OrientedCmp.gt_of_lt ha,
        List.compareLex_cons_nil]
      rfl
    | cons b l' =>
      rw [List.cons_append, List.cons_append, List.compareLex_cons_cons, List.compareLex_cons_cons,
        ih hl (List.forall_mem_cons.1 hl').2]

/-- A list that does not begin with `l` compares with all those that do as it does with `l`, if the
lists have a terminator that is not in `l`. -/
theorem compareLex_of_isPrefix [LawfulEqCmp cmp] (hz : z ∉ l) (h : l <+: l'') (hnot : ¬ l <+: l') :
    (l' ++ [z]).compareLex cmp (l'' ++ [z]) = (l' ++ [z]).compareLex cmp (l ++ [z]) := by
  induction l generalizing l' l'' with
  | nil => exact absurd List.nil_prefix hnot
  | cons a l ih =>
    obtain ⟨t, rfl⟩ := h
    have ha : z ≠ a := fun heq ↦ hz (heq ▸ List.mem_cons_self)
    cases l' with
    | nil =>
      rw [List.nil_append, List.cons_append, List.cons_append, List.cons_append,
        compareLex_cons_of_ne ha, compareLex_cons_of_ne ha]
    | cons b l' =>
      rw [List.cons_append, List.cons_append, List.cons_append, List.cons_append]
      by_cases hb : b = a
      · subst hb
        rw [compareLex_cons_self, compareLex_cons_self]
        refine ih (fun h ↦ hz (List.mem_cons_of_mem b h)) (List.prefix_append l t) fun h ↦ hnot ?_
        exact List.cons_prefix_cons.2 ⟨rfl, h⟩
      · rw [compareLex_cons_of_ne hb, compareLex_cons_of_ne hb]

/-! ### Two comparisons -/

/-- The relation holds of the first elements in which the lists differ, if both have one there. -/
def AtFirstDifference (R : α → α → Prop) (x y : List α) : Prop :=
  ∀ u c d x' y', x = u ++ c :: x' → y = u ++ d :: y' → c ≠ d → R c d

theorem atFirstDifference_cons_self_iff {R : α → α → Prop} :
    AtFirstDifference R (a :: l) (a :: l') ↔ AtFirstDifference R l l' := by
  constructor
  · rintro h u c d x y rfl rfl hne
    exact h (a :: u) c d x y rfl rfl hne
  · intro h u c d x y hx hy hne
    cases u with
    | nil =>
      rw [List.nil_append, List.cons.injEq] at hx hy
      exact absurd (hx.1.symm.trans hy.1) hne
    | cons e u =>
      rw [List.cons_append, List.cons.injEq] at hx hy
      exact h u c d x y hx.2 hy.2 hne

theorem atFirstDifference_cons_iff_of_ne {R : α → α → Prop} (hne : a ≠ b) :
    AtFirstDifference R (a :: l) (b :: l') ↔ R a b := by
  constructor
  · exact fun h ↦ h [] a b l l' rfl rfl hne
  · intro h u c d x y hx hy _
    cases u with
    | nil =>
      rw [List.nil_append, List.cons.injEq] at hx hy
      rwa [← hx.1, ← hy.1]
    | cons e u =>
      rw [List.cons_append, List.cons.injEq] at hx hy
      exact absurd (hx.1.trans hy.1.symm) hne

theorem atFirstDifference_congr {R R' : α → α → Prop} (h : ∀ a b, a ≠ b → (R a b ↔ R' a b)) :
    AtFirstDifference R l l' ↔ AtFirstDifference R' l l' :=
  ⟨fun hR u c d x y hx hy hne ↦ (h c d hne).1 (hR u c d x y hx hy hne),
    fun hR u c d x y hx hy hne ↦ (h c d hne).2 (hR u c d x y hx hy hne)⟩

/-- **Two comparisons order two lists alike** exactly when they do so with the elements in which the
lists first differ. -/
theorem compareLex_eq_iff [LawfulEqCmp cmp] [LawfulEqCmp cmp'] (l l' : List α) :
    l.compareLex cmp l' = l.compareLex cmp' l' ↔
      AtFirstDifference (fun a b ↦ cmp a b = cmp' a b) l l' := by
  induction l generalizing l' with
  | nil =>
    refine iff_of_true ?_ fun u c d x y hx ↦ absurd hx (by simp)
    cases l' with
    | nil => rfl
    | cons b l' => rw [List.compareLex_nil_cons, List.compareLex_nil_cons]
  | cons a l ih =>
    cases l' with
    | nil =>
      refine iff_of_true ?_ fun u c d x y _ hy ↦ absurd hy (by simp)
      rw [List.compareLex_cons_nil, List.compareLex_cons_nil]
    | cons b l' =>
      by_cases hab : a = b
      · subst hab
        rw [compareLex_cons_self, compareLex_cons_self, ih, atFirstDifference_cons_self_iff]
      · rw [compareLex_cons_of_ne hab, compareLex_cons_of_ne hab,
          atFirstDifference_cons_iff_of_ne hab]

end Lexicographic
