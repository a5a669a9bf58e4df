import Mathlib.Data.List.Basic
import Mathlib.Tactic.Common

/-!
# Linked lists

A list in linked form is a function from each node to the node behind it, if there is one, and a
first node. `Visits next p l` says that following the links from `p` visits the nodes of `l` in
order and then ends, and `Backlinked prev q l` that the links of the other kind lead back the same
way, from the first node of `l` to `q`. Neither says where in memory a node lives or what else links
to it, so a write to a link is an update of the function, and a list survives every write that
spares its nodes.

A list that visits in a circle goes on, behind its last node, with its first one:
`Visits.next_or_head` says that this is the successor modulo the length.
-/

universe u

variable {α : Type u} {next next' prev prev' : α → Option α} {p q : Option α} {l : List α} {a b : α}

/-- Following the links from `p` visits the nodes of the list, in order, and then ends. -/
def Visits (next : α → Option α) : Option α → List α → Prop
  | p, [] => p = none
  | p, a :: l => p = some a ∧ Visits next (next a) l

/-- The back links lead from each node of the list to the one before it, and to `q` from the
first. -/
def Backlinked (prev : α → Option α) : Option α → List α → Prop
  | _, [] => True
  | q, a :: l => prev a = q ∧ Backlinked prev (some a) l

namespace Visits

theorem head_eq (h : Visits next p l) : p = l.head? := by
  cases l with
  | nil => exact h
  | cons a l => exact h.1

/-- The link of a node is the node behind it. -/
theorem next_eq (h : Visits next p l) {i : ℕ} (hi : l[i]? = some a) : next a = l[i + 1]? := by
  induction l generalizing p i with
  | nil => simp at hi
  | cons b l ih =>
    cases i with
    | zero =>
      obtain rfl : b = a := by simpa using hi
      rw [h.2.head_eq, List.head?_eq_getElem?]
      rfl
    | succ i => exact ih h.2 hi

/-- Linking a last node to the last node of a list extends the list. -/
theorem snoc (h : Visits next p (l ++ [a])) (hagree : ∀ c ∈ l, next' c = next c)
    (ha : next' a = some b) (hb : next' b = none) : Visits next' p (l ++ [a] ++ [b]) := by
  induction l generalizing p with
  | nil => exact ⟨h.1, ha, hb⟩
  | cons c l ih =>
    refine ⟨h.1, ?_⟩
    rw [hagree c List.mem_cons_self]
    exact ih h.2 fun d hd ↦ hagree d (List.mem_cons_of_mem c hd)

/-- The node behind a node, or the first one behind the last. -/
theorem next_or_head (h : Visits next p l) {i : ℕ} (hi : l[i]? = some a) :
    (next a).or p = l[(i + 1) % l.length]? := by
  obtain ⟨hlt, -⟩ := List.getElem?_eq_some_iff.1 hi
  rw [h.next_eq hi]
  rcases Nat.lt_or_ge (i + 1) l.length with hlt' | hge
  · rw [Nat.mod_eq_of_lt hlt', List.getElem?_eq_getElem hlt']
    rfl
  · obtain hlen : i + 1 = l.length := by omega
    rw [hlen, Nat.mod_self, List.getElem?_eq_none (Nat.le_refl _), h.head_eq,
      List.head?_eq_getElem?]
    rfl

end Visits

namespace Backlinked

/-- Back links that no node of the list has do not matter. -/
theorem congr (h : Backlinked prev q l) (hagree : ∀ a ∈ l, prev' a = prev a) :
    Backlinked prev' q l := by
  induction l generalizing q with
  | nil => trivial
  | cons b l ih =>
    refine ⟨?_, ih h.2 fun a ha ↦ hagree a (List.mem_cons_of_mem b ha)⟩
    rw [hagree b List.mem_cons_self, h.1]

/-- Linking a node back to the last node of a list extends the list. -/
theorem snoc (h : Backlinked prev q (l ++ [a])) (hb : prev b = some a) :
    Backlinked prev q (l ++ [a] ++ [b]) := by
  induction l generalizing q with
  | nil => exact ⟨h.1, hb, trivial⟩
  | cons c l ih => exact ⟨h.1, ih h.2⟩

theorem prev_eq (h : Backlinked prev q l) {i : ℕ} (hi : l[i]? = some a) :
    prev a = if i = 0 then q else l[i - 1]? := by
  induction l generalizing q i with
  | nil => simp at hi
  | cons b l ih =>
    cases i with
    | zero =>
      obtain rfl : b = a := by simpa using hi
      exact h.1
    | succ i =>
      rw [ih h.2 hi]
      cases i <;> rfl

/-- On a list, the two kinds of links are inverse to each other. -/
theorem prev_eq_some_iff (h : Backlinked prev none l) (hv : Visits next p l) (ha : a ∈ l)
    (hb : b ∈ l) : next a = some b ↔ prev b = some a := by
  obtain ⟨i, hi⟩ := List.getElem?_of_mem ha
  obtain ⟨j, hj⟩ := List.getElem?_of_mem hb
  constructor
  · intro hnext
    rw [hv.next_eq hi] at hnext
    rw [h.prev_eq hnext, if_neg (Nat.succ_ne_zero i)]
    exact hi
  · intro hprev
    rw [h.prev_eq hj] at hprev
    cases j with
    | zero => exact absurd hprev (Option.some_ne_none a).symm
    | succ j =>
      rw [if_neg (Nat.succ_ne_zero j)] at hprev
      rw [hv.next_eq hprev]
      exact hj

end Backlinked
