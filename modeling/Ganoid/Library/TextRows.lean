import Mathlib.Data.Nat.Notation
import Mathlib.Tactic.Common

/-!
# Texts laid out in rows

A text is laid out in rows of at most `w` symbols. A row ends where it is full, at a separator of the
text, which is then left out, or at the end of the text: `Layout sep w text rows last` says that
`rows` and then `last` are such rows of `text`. What the rows hold is the text without its separators
(`Layout.flatMap_chunk`).

A printer that goes on to a new row adds a row to the ones finished (`Broken.concat`), and the last
row completes the layout (`Broken.layout`). Rows printed with separators between them are read back
by splitting at the separators (`splitOn_rows`).
-/

namespace TextRows

universe u

variable {α : Type u}

/-- A row, and whether a separator ended it. -/
structure Row (α : Type u) where
  chunk : List α
  separated : Bool

/-- The part of the text that the row stands for. -/
def Row.source (sep : α) (r : Row α) : List α :=
  r.chunk ++ if r.separated then [sep] else []

/-- The row is short enough and holds no separator. -/
structure Row.Fits (sep : α) (w : ℕ) (r : Row α) : Prop where
  length_le : r.chunk.length ≤ w
  not_mem : sep ∉ r.chunk

/-- The finished rows of a text that is laid out up to `rest`. -/
structure Broken (sep : α) (w : ℕ) (text rest : List α) (rows : List (Row α)) : Prop where
  source_eq : rows.flatMap (Row.source sep) ++ rest = text
  fits : ∀ r ∈ rows, r.Fits sep w
  ends : ∀ r ∈ rows, r.separated = true ∨ r.chunk.length = w

/-- The layout of a text: the rows before the last one end at a separator or are full. -/
structure Layout (sep : α) (w : ℕ) (text : List α) (rows : List (Row α)) (last : Row α) : Prop where
  source_eq : rows.flatMap (Row.source sep) ++ last.source sep = text
  fits : ∀ r ∈ rows, r.Fits sep w
  last_fits : last.Fits sep w
  ends : ∀ r ∈ rows, r.separated = true ∨ r.chunk.length = w

variable {sep : α} {w : ℕ} {text rest : List α} {rows : List (Row α)}

theorem broken_nil (sep : α) (w : ℕ) (text : List α) : Broken sep w text text [] where
  source_eq := rfl
  fits := by simp
  ends := by simp

/-- **One row more.** -/
theorem Broken.concat {r : Row α} (h : Broken sep w text (r.source sep ++ rest) rows)
    (hfits : r.Fits sep w) (hend : r.separated = true ∨ r.chunk.length = w) :
    Broken sep w text rest (rows ++ [r]) where
  source_eq := by
    rw [← h.source_eq, List.flatMap_append, List.flatMap_singleton, List.append_assoc]
  fits := by
    rw [List.forall_mem_append, List.forall_mem_singleton]
    exact ⟨h.fits, hfits⟩
  ends := by
    rw [List.forall_mem_append, List.forall_mem_singleton]
    exact ⟨h.ends, hend⟩

/-- The last row. -/
theorem Broken.layout {last : Row α} (h : Broken sep w text (last.source sep) rows)
    (hfits : last.Fits sep w) : Layout sep w text rows last :=
  ⟨h.source_eq, h.fits, hfits, h.ends⟩

variable [DecidableEq α]

theorem Row.Fits.filter_source {r : Row α} (h : r.Fits sep w) :
    (r.source sep).filter (fun c ↦ c ≠ sep) = r.chunk := by
  have hchunk : r.chunk.filter (fun c ↦ c ≠ sep) = r.chunk :=
    List.filter_eq_self.2 fun c hc ↦ decide_eq_true fun heq ↦ h.not_mem (heq ▸ hc)
  rw [Row.source, List.filter_append, hchunk]
  split <;> simp

/-- **Nothing is lost**: the rows hold the text without its separators. -/
theorem Layout.flatMap_chunk {last : Row α} (h : Layout sep w text rows last) :
    rows.flatMap Row.chunk ++ last.chunk = text.filter fun c ↦ c ≠ sep := by
  have hrows : ∀ rs : List (Row α), (∀ r ∈ rs, r.Fits sep w) →
      (rs.flatMap (Row.source sep)).filter (fun c ↦ c ≠ sep) = rs.flatMap Row.chunk := by
    intro rs hfits
    induction rs with
    | nil => rfl
    | cons r rs ih =>
      rw [List.forall_mem_cons] at hfits
      rw [List.flatMap_cons, List.filter_append, hfits.1.filter_source, ih hfits.2,
        List.flatMap_cons]
  rw [← h.source_eq, List.filter_append, hrows rows h.fits, h.last_fits.filter_source]

/-- **Rows are read back** by splitting at the separators between them. -/
theorem splitOn_rows {ls : List (List α)} {last : List α} (h : ∀ l ∈ ls, sep ∉ l)
    (hlast : sep ∉ last) :
    (ls.flatMap (fun l ↦ l ++ [sep]) ++ last).splitOn sep = ls ++ [last] := by
  induction ls with
  | nil => exact List.splitOn_eq_singleton hlast
  | cons l ls ih =>
    rw [List.forall_mem_cons] at h
    rw [List.flatMap_cons, List.append_assoc, List.append_assoc, List.singleton_append,
      List.splitOn_append_cons_self_of_not_mem h.1, ih h.2, List.cons_append]

end TextRows
