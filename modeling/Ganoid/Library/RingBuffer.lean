import Mathlib.Data.List.DropRight
import Mathlib.Logic.Function.Basic
import Mathlib.Tactic.Common

/-!
# Circular buffers

A circular buffer keeps a queue in the cells from its tail up to its head, going round at its
capacity. The head is the cell to be written next, so a full buffer is one short of its capacity and
the two positions are equal exactly when the queue is empty.

`Holds buf cap tail head q` says that the buffer holds the queue `q`, oldest first. A client knows
it through its operations: `Holds.push` writes at the head, `Holds.pop` reads at the tail, and
`Holds.eq_nil_iff` is the emptiness test. A buffer that takes an element also when it is full lets
go of its oldest one (`arrive`); there the writer moves the tail as well (`Holds.arrive`).
-/

namespace RingBuffer

universe u

variable {α : Type u} {buf : ℕ → α} {cap tail head : ℕ} {q : List α} {a : α}

/-- The cells from the tail up to the head hold the queue. -/
structure Holds (buf : ℕ → α) (cap tail head : ℕ) (q : List α) : Prop where
  tail_lt : tail < cap
  length_lt : q.length < cap
  head_eq : head = (tail + q.length) % cap
  cell : ∀ i b, q[i]? = some b → buf ((tail + i) % cap) = b

theorem holds_nil (buf : ℕ → α) (h : tail < cap) : Holds buf cap tail tail [] where
  tail_lt := h
  length_lt := Nat.lt_of_le_of_lt (Nat.zero_le tail) h
  head_eq := (Nat.mod_eq_of_lt h).symm
  cell _ _ hb := absurd hb (by simp)

/-- Fewer steps than the capacity never lead round to the same cell. -/
theorem add_mod_ne {k n : ℕ} (htail : tail < cap) (hk : k < n) (hn : n < cap) :
    (tail + k) % cap ≠ (tail + n) % cap := by
  have hcap : 0 < cap := by omega
  rcases Nat.lt_or_ge (tail + n) cap with h | h
  · rw [Nat.mod_eq_of_lt h, Nat.mod_eq_of_lt (by omega)]
    omega
  · rw [Nat.mod_eq_sub_mod h, Nat.mod_eq_of_lt (show tail + n - cap < cap by omega)]
    rcases Nat.lt_or_ge (tail + k) cap with h' | h'
    · rw [Nat.mod_eq_of_lt h']
      omega
    · rw [Nat.mod_eq_sub_mod h', Nat.mod_eq_of_lt (show tail + k - cap < cap by omega)]
      omega

namespace Holds

theorem head_lt (h : Holds buf cap tail head q) : head < cap := by
  rw [h.head_eq]
  exact Nat.mod_lt _ (Nat.lt_of_le_of_lt (Nat.zero_le tail) h.tail_lt)

/-- The positions meet exactly when the queue is empty. -/
theorem eq_nil_iff (h : Holds buf cap tail head q) : tail = head ↔ q = [] := by
  constructor
  · intro heq
    by_contra hne
    have hlen : 0 < q.length := List.length_pos_iff.2 hne
    refine add_mod_ne h.tail_lt hlen h.length_lt ?_
    rw [Nat.add_zero, Nat.mod_eq_of_lt h.tail_lt, ← h.head_eq]
    exact heq
  · rintro rfl
    rw [h.head_eq]
    exact (Nat.mod_eq_of_lt h.tail_lt).symm

/-- **Push.** A write at the head joins the end of the queue, while there is room. -/
theorem push (h : Holds buf cap tail head q) (hroom : q.length + 1 < cap) (a : α) :
    Holds (Function.update buf head a) cap tail ((head + 1) % cap) (q ++ [a]) where
  tail_lt := h.tail_lt
  length_lt := by rw [List.length_append]; exact hroom
  head_eq := by
    rw [h.head_eq, Nat.mod_add_mod, List.length_append, List.length_singleton, Nat.add_assoc]
  cell i b hb := by
    rcases Nat.lt_trichotomy i q.length with hi | rfl | hi
    · rw [List.getElem?_append_left hi] at hb
      have hne : (tail + i) % cap ≠ head := by
        rw [h.head_eq]
        exact add_mod_ne h.tail_lt hi h.length_lt
      rw [Function.update_of_ne hne]
      exact h.cell i b hb
    · rw [List.getElem?_concat_length] at hb
      rw [← h.head_eq, Function.update_self]
      exact Option.some.inj hb
    · rw [List.getElem?_eq_none (by simp; omega)] at hb
      exact absurd hb (by simp)

/-- The oldest element is at the tail. -/
theorem front (h : Holds buf cap tail head (a :: q)) : buf tail = a := by
  have hcell := h.cell 0 a rfl
  rwa [Nat.add_zero, Nat.mod_eq_of_lt h.tail_lt] at hcell

/-- **Pop.** Moving the tail on takes the oldest element out. -/
theorem pop (h : Holds buf cap tail head (a :: q)) : Holds buf cap ((tail + 1) % cap) head q where
  tail_lt := Nat.mod_lt _ (Nat.lt_of_le_of_lt (Nat.zero_le tail) h.tail_lt)
  length_lt := Nat.lt_of_succ_lt h.length_lt
  head_eq := by
    rw [h.head_eq, Nat.mod_add_mod, List.length_cons, Nat.add_assoc, Nat.add_comm 1]
  cell i b hb := by
    rw [Nat.mod_add_mod, Nat.add_assoc, Nat.add_comm 1]
    exact h.cell (i + 1) b hb

/-- The head is right behind the tail exactly when the buffer is full. -/
theorem full_iff (h : Holds buf cap tail head q) :
    (head + 1) % cap = tail ↔ q.length + 1 = cap := by
  rw [h.head_eq, Nat.mod_add_mod, Nat.add_assoc]
  constructor
  · intro heq
    by_contra hne
    have hlt := h.length_lt
    refine add_mod_ne h.tail_lt (Nat.succ_pos q.length) (show q.length + 1 < cap by omega) ?_
    rw [Nat.add_zero, Nat.mod_eq_of_lt h.tail_lt, heq]
  · intro heq
    rw [heq, Nat.add_mod_right, Nat.mod_eq_of_lt h.tail_lt]

end Holds

/-! ### Dropping the oldest -/

/-- The queue after an arrival, of which a buffer of the given capacity keeps the newest part. -/
def arrive (cap : ℕ) (q : List α) (a : α) : List α :=
  (q ++ [a]).rtake (cap - 1)

theorem arrive_suffix (cap : ℕ) (q : List α) (a : α) : arrive cap q a <:+ q ++ [a] :=
  List.drop_suffix _ _

theorem length_arrive_le (cap : ℕ) (q : List α) (a : α) : (arrive cap q a).length ≤ cap - 1 := by
  rw [arrive, List.rtake, List.length_drop]
  omega

/-- While there is room, nothing is dropped. -/
theorem arrive_of_room (h : q.length + 1 < cap) (a : α) : arrive cap q a = q ++ [a] := by
  have hlen : (q ++ [a]).length ≤ cap - 1 := by
    rw [List.length_append, List.length_singleton]
    omega
  rw [arrive, List.rtake, Nat.sub_eq_zero_of_le hlen, List.drop_zero]

/-- A full buffer drops exactly its oldest element. -/
theorem arrive_of_full (h : q.length + 1 = cap - 1) (b a : α) :
    arrive cap (b :: q) a = q ++ [a] := by
  have hlen : (b :: q ++ [a]).length - (cap - 1) = 1 := by
    rw [List.length_append, List.length_singleton, List.length_cons]
    omega
  rw [arrive, List.rtake, hlen, List.cons_append, List.drop_succ_cons, List.drop_zero]

/-- **Arrival.** A write at the head, and a move of the tail where the new head has caught up with
it. -/
theorem Holds.arrive (h : Holds buf cap tail head q) (hcap : 1 < cap) (a : α) :
    Holds (Function.update buf head a) cap (if (head + 1) % cap = tail then (tail + 1) % cap else tail)
      ((head + 1) % cap) (arrive cap q a) := by
  by_cases hfull : q.length + 1 = cap
  · rw [if_pos (h.full_iff.2 hfull)]
    cases q with
    | nil =>
      rw [List.length_nil] at hfull
      omega
    | cons b q =>
      rw [List.length_cons] at hfull
      rw [arrive_of_full (by omega)]
      exact h.pop.push (by omega) a
  · have hlt := h.length_lt
    rw [if_neg (mt h.full_iff.1 hfull), arrive_of_room (by omega)]
    exact h.push (by omega) a

end RingBuffer
