import Ganoid.Arch.Columns
import Ganoid.Libc.Printk
import Mathlib.Data.List.GetD
import Mathlib.Data.List.Forall2

/-!
# The boot log

`display_boot_progress` of `arch/i386/lib/sysinfo.c`, with which `kernel_main` reports what it has
done: the message in its column, filled up with dots, and `[OK]` or `[FAIL]` at the right margin.

The column is laid out in an array of 200 characters, which nothing in the code checks: a message of
one line is too long for it from 143 characters on (`displayBootProgress_keepsArray_iff`). A report
never ends with a newline. Its last row has exactly eighty characters, so the cursor is at the start
of the next row all the same, and the reports whose columns fit stand below each other
(`bootLog_shows`).
-/

open Fuelled TextRows

namespace Ganoid

open Vsprintf

/-! ### The function -/

/-- The strings `ok_str` and `fail_str`, with their NULs. -/
def okStr : List U8 := [0x4F, 0x4B, 0]

@[inherit_doc okStr]
def failStr : List U8 := [0x46, 0x41, 0x49, 0x4C, 0]

/-- What the stack holds where the array `column_str` is, and where the calls of `printk` have their
arrays. -/
structure BootStack where
  columnStr : List U8
  column : List U8
  dot : List U8
  tag : List U8

/-- The loop of `display_boot_progress`, from `i` and the console. -/
def printDots (dot : List U8) (n : U32) : U32 × Vga → Fuelled Vga :=
  loop fun (i, v) ↦
    if i < n then do
      let (_, v, _) ← printk v dot [0x2E] []
      pure (.inl (i + 1, v))
    else pure (.inr v)

/-- The size of the array `column_str`. -/
def maxStrLen : ℕ := 200

/-- `display_boot_progress`: the array `column_str`, if `columnlize_string` has written it, and the
console. -/
def displayBootProgress (stack : BootStack) (message : List U8) (result : Bool) (v : Vga) :
    Fuelled (Option Buf × Vga) := do
  let rightMargin : U32 := 8
  let leftMargin : U32 := 1
  let columned ← columnlizeString message stack.columnStr 80 leftMargin rightMargin 0x2E
  -- with its NUL, a longer column is stored over the frame
  if (columned.elim 0 fun buf ↦ buf.before.length) < maxStrLen then do
    let columnStr := columned.elim stack.columnStr fun buf ↦ buf.before ++ buf.after
    let (_, v, _) ← printk v stack.column [0x25, 0x73] [.str columnStr]
    let pstr := if result then failStr else okStr
    let v ← printDots stack.dot (rightMargin - strlen pstr - 2) (0, v)
    let (_, v, _) ← printk v stack.tag [0x5B, 0x25, 0x73, 0x5D] [.str pstr]
    pure (columned, v)
  else never

/-! ### What is printed -/

/-- `OK` or `FAIL`. -/
def tagText (result : Bool) : List U8 :=
  if result then [0x46, 0x41, 0x49, 0x4C] else [0x4F, 0x4B]

/-- What is printed behind the column. -/
def tagField (result : Bool) : List U8 :=
  List.replicate (6 - (tagText result).length) 0x2E ++ (0x5B :: (tagText result ++ [0x5D]))

theorem length_tagField (result : Bool) : (tagField result).length = 8 := by
  cases result <;> rfl

/-- The last row up to the tag. -/
def lastRow (last : Row U8) : List U8 :=
  0x20 :: (last.chunk ++ List.replicate (71 - last.chunk.length) 0x2E)

/-- The rows of a report. -/
def reportRows (rows : List (Row U8)) (last : Row U8) (result : Bool) : List (List U8) :=
  rows.map (fun row ↦ 0x20 :: row.chunk) ++ [lastRow last ++ tagField result]

/-- A text without NULs is printed as it is. -/
theorem printk_text_returns (v : Vga) (mem : List U8) {items : List Item} (hfit : AllFit items)
    (hlen : (text false items).length < printfBufferSize) (hnul : 0 ∉ text false items) :
    ∃ buf, (printk v mem (spell items) (args items)).Returns
      (buf, (text false items).foldl vgaPutc v, 0) := by
  have hret := printk_returns hfit false [] hlen v mem
  have hall : (text false items).takeWhile (· ≠ 0) = text false items :=
    List.takeWhile_eq_self_iff.2 fun c hc ↦ decide_eq_true fun h ↦ hnul (h ▸ hc)
  rw [hall, ending, if_neg Bool.false_ne_true, List.append_nil, List.append_nil] at hret
  exact ⟨_, hret⟩

/-- The conversion `%s`. -/
def stringItem (s : List U8) : Item := .conversion ⟨⟨[], .absent, none, false⟩, .str s⟩

theorem allFit_stringItem_iff {s : List U8} {items : List Item} :
    AllFit (stringItem s :: items) ↔ AllFit items :=
  allFit_conversion_iff.trans (and_iff_right trivial)

/-- A string ends at its NUL. -/
theorem text_stringItem {s : List U8} (hs : 0 ∉ s) (after : List U8) :
    (stringItem (s ++ 0 :: after)).text false = s := by
  show (s ++ 0 :: after).takeWhile (fun c ↦ c ≠ 0) = s
  rw [takeWhile_append_nul]
  exact List.takeWhile_eq_self_iff.2 fun c hc ↦ decide_eq_true fun h ↦ hs (h ▸ hc)

theorem printDots_returns (dot : List U8) {n i : U32} {k : ℕ} (hk : i.toNat + k = n.toNat)
    (v : Vga) : (printDots dot n (i, v)).Returns ((List.replicate k 0x2E).foldl vgaPutc v) := by
  induction k generalizing i v with
  | zero =>
    refine returns_loop_of_leave ?_
    dsimp only
    rw [if_neg (by rw [BitVec.lt_def]; omega)]
    exact returns_pure _
  | succ k ih =>
    obtain ⟨buf, hret⟩ := @printk_text_returns v dot [.literal 0x2E (by decide) (by decide)]
      (allFit_literal_iff.2 allFit_nil) (by decide) (by decide)
    have hlt : i < n := by
      rw [BitVec.lt_def]
      omega
    rw [List.replicate_succ, List.foldl_cons]
    refine returns_loop_of_again ?_ (ih (i := i + 1) (by bv_omega) (vgaPutc v 0x2E))
    dsimp only
    rw [if_pos hlt]
    exact hret.bind (returns_pure _)

/-- The characters of a report. -/
def reportText (rows : List (Row U8)) (last : Row U8) (result : Bool) : List U8 :=
  rowsText 1 rows ++ lastRow last ++ tagField result

/-- The characters in the rows of a layout are characters of the message. -/
theorem mem_of_mem_chunk {w : ℕ} {msg : List U8} {rows : List (Row U8)} {last : Row U8}
    (h : Layout 0x0A w msg rows last) :
    (∀ row ∈ rows, ∀ c ∈ row.chunk, c ∈ msg ∧ c ≠ 0x0A) ∧ ∀ c ∈ last.chunk, c ∈ msg ∧ c ≠ 0x0A := by
  have hall : ∀ c ∈ rows.flatMap Row.chunk ++ last.chunk, c ∈ msg ∧ c ≠ 0x0A := fun c hc ↦ by
    rw [h.flatMap_chunk, List.mem_filter] at hc
    exact ⟨hc.1, of_decide_eq_true hc.2⟩
  exact ⟨fun row hrow c hc ↦ hall c (List.mem_append_left _ (List.mem_flatMap.2 ⟨row, hrow, hc⟩)),
    fun c hc ↦ hall c (List.mem_append_right _ hc)⟩

/-- What holds of the characters of the message, of the margin and of the filler holds of the rows
of the column. -/
theorem forall_mem_column {w : ℕ} {msg : List U8} {rows : List (Row U8)} {last : Row U8}
    (h : Layout 0x0A w msg rows last) {P : U8 → Prop} (hmsg : ∀ c ∈ msg, c ≠ 0x0A → P c)
    (hmargin : P 0x20) (hfill : P 0x2E) :
    (∀ row ∈ rows, ∀ c ∈ (0x20 : U8) :: row.chunk, P c) ∧ ∀ c ∈ lastRow last, P c := by
  obtain ⟨hrows, hlast⟩ := mem_of_mem_chunk h
  constructor
  · intro row hrow
    rw [List.forall_mem_cons]
    exact ⟨hmargin, fun c hc ↦ hmsg c (hrows row hrow c hc).1 (hrows row hrow c hc).2⟩
  · rw [lastRow, List.forall_mem_cons, List.forall_mem_append]
    exact ⟨hmargin, fun c hc ↦ hmsg c (hlast c hc).1 (hlast c hc).2,
      fun c hc ↦ List.eq_of_mem_replicate hc ▸ hfill⟩

theorem rowsText_eq (rows : List (Row U8)) :
    rowsText 1 rows = rows.flatMap fun row ↦ (0x20 :: row.chunk) ++ [0x0A] := rfl

theorem length_lastRow {w : ℕ} {msg : List U8} {rows : List (Row U8)} {last : Row U8}
    (h : Layout 0x0A w msg rows last) (hw : w ≤ 71) : (lastRow last).length = 72 := by
  have hle := h.last_fits.length_le
  rw [lastRow, List.length_cons, List.length_append, List.length_replicate]
  omega

theorem not_mem_column {w : ℕ} {msg : List U8} {rows : List (Row U8)} {last : Row U8}
    (h : Layout 0x0A w msg rows last) (hnul : 0 ∉ msg) : 0 ∉ rowsText 1 rows ++ lastRow last := by
  obtain ⟨hrows, hlast⟩ := forall_mem_column h (P := fun c ↦ c ≠ 0)
    (fun c hc _ h ↦ hnul (h ▸ hc)) (by decide) (by decide)
  rw [List.mem_append, rowsText_eq, List.mem_flatMap]
  rintro (⟨row, hrow, hc⟩ | hc)
  · rcases List.mem_append.1 hc with hc | hc
    · exact hrows row hrow 0 hc rfl
    · exact absurd (List.eq_of_mem_singleton hc) (by decide)
  · exact hlast 0 hc rfl

/-- The column of a message fits in the array, however its rows are broken. -/
def ColumnFits (msg : List U8) : Prop :=
  ∀ rows last, Layout 0x0A 71 msg rows last → last.source 0x0A ≠ [] →
    (rowsText 1 rows ++ lastRow last).length < maxStrLen

/-- A row takes at most two characters more than its part of the message, which is not empty. -/
theorem columnFits_of_short {msg : List U8} (hshort : 3 * msg.length + 72 < maxStrLen) :
    ColumnFits msg := by
  intro rows last h _
  have hrows : ∀ rs : List (Row U8), (∀ row ∈ rs, row.separated = true ∨ row.chunk.length = 71) →
      (rowsText 1 rs).length ≤ 3 * (rs.flatMap (Row.source 0x0A)).length := by
    intro rs hends
    induction rs with
    | nil => exact Nat.zero_le _
    | cons row rs ih =>
      obtain ⟨hend, hends⟩ := List.forall_mem_cons.1 hends
      have hrest := ih hends
      have hsource : row.chunk.length + 2 ≤ 3 * (row.source 0x0A).length := by
        rw [Row.source, List.length_append]
        rcases hend with hsep | hfull
        · rw [if_pos hsep, List.length_singleton]
          omega
        · omega
      rw [rowsText_eq] at hrest ⊢
      rw [List.flatMap_cons, List.flatMap_cons, List.length_append, List.length_append,
        List.length_append, List.length_cons, List.length_singleton]
      omega
  have hle := hrows rows h.ends
  have hmsg := congrArg List.length h.source_eq
  rw [List.length_append] at hmsg
  rw [List.length_append, length_lastRow h (Nat.le_refl 71)]
  omega

/-- The column of a report. -/
theorem column_returns {msg : List U8} (rest columnStr : List U8) (hmsg : msg ≠ [])
    (hnul : 0 ∉ msg) : ∃ after rows last,
      (Layout 0x0A 71 msg rows last ∧ last.source 0x0A ≠ []) ∧
      (columnlizeString (msg ++ 0 :: rest) columnStr 80 1 8 0x2E).Returns
        (some ⟨rowsText 1 rows ++ lastRow last, 0 :: after⟩) := by
  obtain ⟨after, rows, last, hlayout, hcolumn⟩ := @columnlizeString_returns msg rest columnStr
    80 1 8 0x2E hmsg hnul (by decide) (by decide) (by decide)
  have hwidth : (columnWidth 80 1 8).toNat = 71 := by decide
  have hmargin : ∀ s : List U8, marginText 1 ++ s = 0x20 :: s := fun _ ↦ rfl
  rw [hwidth] at hlayout hcolumn
  rw [hmargin] at hcolumn
  exact ⟨after, rows, last, hlayout, hcolumn⟩

/-- **A report** prints the rows of a layout of its message, and the tag. -/
theorem displayBootProgress_returns (stack : BootStack) {msg : List U8} (rest : List U8)
    (result : Bool) (v : Vga) (hmsg : msg ≠ []) (hnul : 0 ∉ msg) (hfits : ColumnFits msg) :
    ∃ after rows last, (Layout 0x0A 71 msg rows last ∧ last.source 0x0A ≠ []) ∧
      (displayBootProgress stack (msg ++ 0 :: rest) result v).Returns
        (some ⟨rowsText 1 rows ++ lastRow last, 0 :: after⟩,
          (reportText rows last result).foldl vgaPutc v) := by
  obtain ⟨after, rows, last, ⟨hlayout, hsource⟩, hcolumn⟩ :=
    column_returns rest stack.columnStr hmsg hnul
  have hnulrows := not_mem_column hlayout hnul
  have hlen := hfits rows last hlayout hsource
  refine ⟨after, rows, last, ⟨hlayout, hsource⟩, hcolumn.bind ?_⟩
  have htext := text_stringItem hnulrows after
  have hcol : text false [stringItem (rowsText 1 rows ++ lastRow last ++ 0 :: after)] =
      rowsText 1 rows ++ lastRow last := by
    rw [text, text, htext, List.append_nil]
  obtain ⟨buf₁, hprint⟩ := printk_text_returns v stack.column (allFit_stringItem_iff.2 allFit_nil)
    (by rw [hcol]; exact hlen.trans (by decide)) (by rw [hcol]; exact hnulrows)
  rw [hcol] at hprint
  have hdots := fun v ↦ printDots_returns stack.dot
    (n := 8 - strlen (if result then failStr else okStr) - 2) (i := 0)
    (k := 6 - (tagText result).length) (by cases result <;> decide) v
  have htag := fun v ↦ @printk_text_returns v stack.tag
    [.literal 0x5B (by decide) (by decide), stringItem (tagText result ++ 0 :: []),
      .literal 0x5D (by decide) (by decide)]
    (allFit_literal_iff.2 (allFit_stringItem_iff.2 (allFit_literal_iff.2 allFit_nil)))
    (by cases result <;> decide) (by cases result <;> decide)
  have hroom : ((some (⟨rowsText 1 rows ++ lastRow last, 0 :: after⟩ : Buf)).elim 0
      fun buf ↦ buf.before.length) < maxStrLen := hlen
  rw [if_pos hroom, reportText, tagField, List.foldl_append, List.foldl_append]
  generalize (rowsText 1 rows ++ lastRow last).foldl vgaPutc v = v₁ at hprint ⊢
  obtain ⟨buf₂, hlast⟩ :=
    htag ((List.replicate (6 - (tagText result).length) 0x2E).foldl vgaPutc v₁)
  refine hprint.bind ((hdots v₁).bind ?_)
  cases result with
  | true => exact hlast.bind (returns_pure _)
  | false => exact hlast.bind (returns_pure _)

/-! ### What is shown -/

/-- A character that the console shows in a cell of its own. -/
def Plain (c : U8) : Prop := c ≠ 0x0A ∧ c ≠ 0x09 ∧ c ≠ 0x0D ∧ c ≠ 0x08

instance (c : U8) : Decidable (Plain c) := inferInstanceAs (Decidable (_ ∧ _ ∧ _ ∧ _))

theorem getD_concat {α : Type} (l : List α) (a d : α) (i : ℕ) :
    (l ++ [a]).getD i d = if i = l.length then a else l.getD i d := by
  rcases lt_trichotomy i l.length with hlt | rfl | hgt
  · rw [List.getD_append _ _ _ _ hlt, if_neg hlt.ne]
  · rw [List.getD_append_right _ _ _ _ (Nat.le_refl _), Nat.sub_self, if_pos rfl]
    rfl
  · rw [if_neg hgt.ne', List.getD_eq_default _ _ hgt.le, List.getD_eq_default]
    rw [List.length_append, List.length_singleton]
    exact hgt

namespace Terminal

/-- The rows, from the first one on, and `row` in the next, with the cursor behind it. -/
def inRow (ls : List (List U8)) (row : List U8) : Terminal where
  char r col := ((ls ++ [row]).getD r []).getD col 0x20
  x := row.length
  y := ls.length

/-- The rows, with the cursor at the start of the next. -/
def ofRows (ls : List (List U8)) : Terminal := inRow ls []

theorem blank_eq_ofRows : blank = ofRows [] := by
  have hchar : ∀ r col, (ofRows []).char r col = 0x20 := fun r col ↦ by
    show (([] ++ [[]] : List (List U8)).getD r []).getD col 0x20 = 0x20
    rw [getD_concat]
    split <;> rfl
  rw [blank, ofRows, inRow, mk.injEq]
  exact ⟨funext fun r ↦ funext fun col ↦ (hchar r col).symm, rfl, rfl⟩

/-- One character more in the row. -/
theorem char_inRow_concat (ls : List (List U8)) (row : List U8) (c : U8) :
    Function.update (inRow ls row).char ls.length
      (Function.update ((inRow ls row).char ls.length) row.length c) =
    (inRow ls (row ++ [c])).char := by
  funext r col
  rw [Function.update_apply]
  dsimp only [inRow]
  rw [getD_concat ls (row ++ [c])]
  split
  · rw [Function.update_apply, getD_concat row, getD_concat ls, if_pos rfl]
  · rename_i hne
    rw [getD_concat ls, if_neg hne]

/-- A row is finished by going on to the next. -/
theorem moveTo_inRow (ls : List (List U8)) (row : List U8) :
    (inRow ls row).moveTo 0 (ls.length + 1) = ofRows (ls ++ [row]) := by
  have hchar : (inRow ls row).char = (ofRows (ls ++ [row])).char := by
    funext r col
    show ((ls ++ [row]).getD r []).getD col 0x20 = ((ls ++ [row] ++ [[]]).getD r []).getD col 0x20
    rw [getD_concat (ls ++ [row])]
    split
    · rename_i hr
      rw [List.getD_eq_default _ _ hr.ge]
    · rfl
  rw [moveTo, hchar, ofRows, inRow, List.length_append]
  rfl

theorem putc_inRow {c : U8} (hc : Plain c) (ls : List (List U8)) (row : List U8) :
    (inRow ls row).putc c = (inRow ls (row ++ [c])).wrapTo (row.length + 1) := by
  obtain ⟨hnl, htab, hcr, hbs⟩ := hc
  have hset : ∀ x y, ((inRow ls row).set ls.length row.length c).moveTo x y =
      (inRow ls (row ++ [c])).moveTo x y := fun x y ↦
    congrArg (fun char ↦ (⟨char, x, y⟩ : Terminal)) (char_inRow_concat ls row c)
  rw [putc, if_neg hnl, if_neg htab, if_neg hcr, if_neg hbs]
  exact ite_congr rfl (fun _ ↦ hset _ _) fun _ ↦ hset _ _

/-- The characters of a row that has room for them. -/
theorem foldl_putc_inRow {ls : List (List U8)} {row cs : List U8} (hcs : ∀ c ∈ cs, Plain c)
    (hlt : row.length + cs.length < 80) : cs.foldl putc (inRow ls row) = inRow ls (row ++ cs) := by
  induction cs generalizing row with
  | nil => rw [List.append_nil]; rfl
  | cons c cs ih =>
    obtain ⟨hc, hcs⟩ := List.forall_mem_cons.1 hcs
    rw [List.length_cons] at hlt
    have hconcat : (inRow ls (row ++ [c])).wrapTo (row.length + 1) = inRow ls (row ++ [c]) := by
      rw [wrapTo, if_neg (by omega), moveTo, inRow, List.length_append]
      rfl
    have hlt' : (row ++ [c]).length + cs.length < 80 := by
      rw [List.length_append, List.length_singleton]
      omega
    rw [List.foldl_cons, putc_inRow hc, hconcat, ih hcs hlt', List.append_assoc]
    rfl

/-- A row and its newline. -/
theorem foldl_putc_newline {ls : List (List U8)} {row : List U8} (hrow : ∀ c ∈ row, Plain c)
    (hlt : row.length < 80) : (row ++ [0x0A]).foldl putc (ofRows ls) = ofRows (ls ++ [row]) := by
  rw [List.foldl_append, ofRows, foldl_putc_inRow hrow (by simpa using hlt), List.nil_append]
  exact moveTo_inRow ls row

/-- A row of eighty characters needs none. -/
theorem foldl_putc_full {ls : List (List U8)} {row : List U8} (hrow : ∀ c ∈ row, Plain c)
    (hfull : row.length = 80) : row.foldl putc (ofRows ls) = ofRows (ls ++ [row]) := by
  obtain ⟨cs, c, rfl⟩ : ∃ cs c, row = cs ++ [c] :=
    ⟨_, _, (List.dropLast_concat_getLast (List.ne_nil_of_length_pos (by omega))).symm⟩
  obtain ⟨hcs, hc⟩ := List.forall_mem_append.1 hrow
  rw [List.length_append, List.length_singleton] at hfull
  have hlen : cs.length = 79 := by omega
  rw [List.foldl_append, ofRows, foldl_putc_inRow hcs (by simp [hlen]), List.nil_append,
    List.foldl_cons, List.foldl_nil, putc_inRow (hc c (List.mem_singleton_self c)), wrapTo,
    if_pos (by omega)]
  exact moveTo_inRow ls (cs ++ [c])

end Terminal

/-- A report adds its rows. -/
theorem foldl_putc_report {msg : List U8} {rows : List (Row U8)} {last : Row U8}
    (h : Layout 0x0A 71 msg rows last) (hmsg : ∀ c ∈ msg, c ≠ 0x0A → Plain c) (result : Bool)
    (ls : List (List U8)) : (reportText rows last result).foldl Terminal.putc (.ofRows ls) =
      .ofRows (ls ++ reportRows rows last result) := by
  obtain ⟨hrows, hlast⟩ := forall_mem_column h hmsg (by decide : Plain 0x20)
    (by decide : Plain 0x2E)
  have htag : ∀ c ∈ tagField result, Plain c := by cases result <;> decide
  have hfull : (lastRow last ++ tagField result).length = 80 := by
    rw [List.length_append, length_tagField, length_lastRow h (Nat.le_refl 71)]
  have hplain : ∀ c ∈ lastRow last ++ tagField result, Plain c :=
    List.forall_mem_append.2 ⟨hlast, htag⟩
  have hfits : ∀ row ∈ rows, ((0x20 : U8) :: row.chunk).length < 80 := fun row hrow ↦ by
    have hle := (h.fits row hrow).length_le
    rw [List.length_cons]
    omega
  -- the rows before the last one, by induction on them
  have hcolumn : ∀ (rs : List (Row U8)) (ls : List (List U8)), (∀ row ∈ rs, row ∈ rows) →
      (rowsText 1 rs).foldl Terminal.putc (.ofRows ls) =
        .ofRows (ls ++ rs.map fun row ↦ 0x20 :: row.chunk) := by
    intro rs
    induction rs with
    | nil => intro ls _; simp [rowsText]
    | cons row rs ih =>
      intro ls hmem
      obtain ⟨hrow, hrs⟩ := List.forall_mem_cons.1 hmem
      rw [rowsText_eq, List.flatMap_cons, List.foldl_append,
        Terminal.foldl_putc_newline (hrows row hrow) (hfits row hrow), ← rowsText_eq, ih _ hrs,
        List.map_cons, List.append_assoc]
      rfl
  rw [reportText, List.append_assoc, List.foldl_append, hcolumn rows ls fun _ h ↦ h,
    Terminal.foldl_putc_full hplain hfull, reportRows, List.append_assoc]

/-! ### The log -/

/-- A call of `display_boot_progress`, with what the stack holds, and what is behind the message. -/
structure BootCall where
  stack : BootStack
  message : List U8
  rest : List U8
  result : Bool

/-- The call, on the console. -/
def BootCall.run (v : Vga) (call : BootCall) : Fuelled Vga := do
  let (_, v) ← displayBootProgress call.stack (call.message ++ 0 :: call.rest) call.result v
  pure v

/-- The message is not empty, its characters print in cells of their own, or are newlines, and its
column fits in the array. -/
structure BootCall.Printable (call : BootCall) : Prop where
  ne_nil : call.message ≠ []
  not_mem : 0 ∉ call.message
  plain : ∀ c ∈ call.message, c ≠ 0x0A → Plain c
  fits : ColumnFits call.message

/-- The rows that a call shows: those of a layout of its message, and the tag at the end. -/
def BootCall.Reports (call : BootCall) (lines : List (List U8)) : Prop :=
  ∃ rows last, Layout 0x0A 71 call.message rows last ∧ lines = reportRows rows last call.result

theorem bootLog_returns {v : Vga} {ls : List (List U8)} {k : ℕ} (hv : Console v (.ofRows ls) k)
    {calls : List BootCall} (hcalls : ∀ call ∈ calls, call.Printable) :
    ∃ v' k' reports, (calls.foldlM BootCall.run v).Returns v' ∧
      List.Forall₂ BootCall.Reports calls reports ∧
      Console v' (.ofRows (ls ++ reports.flatten)) k' := by
  induction calls generalizing v ls k with
  | nil => exact ⟨v, k, [], returns_pure v, .nil, by rwa [List.flatten_nil, List.append_nil]⟩
  | cons call calls ih =>
    obtain ⟨hcall, hcalls⟩ := List.forall_mem_cons.1 hcalls
    obtain ⟨after, rows, last, ⟨hlayout, -⟩, hret⟩ := displayBootProgress_returns call.stack
      call.rest call.result v hcall.ne_nil hcall.not_mem hcall.fits
    obtain ⟨k', hk'⟩ := hv.foldl (reportText rows last call.result)
    rw [foldl_putc_report hlayout hcall.plain] at hk'
    obtain ⟨v', k'', reports, hrest, hreports, hshown⟩ := ih hk' hcalls
    refine ⟨v', k'', _ :: reports, ?_, .cons ⟨rows, last, hlayout, rfl⟩ hreports, ?_⟩
    · have hrun : (call.run v).Returns ((reportText rows last call.result).foldl vgaPutc v) :=
        hret.bind (returns_pure _)
      rw [List.foldlM_cons]
      exact hrun.bind hrest
    · rwa [List.flatten_cons, ← List.append_assoc]

namespace Untouched

variable {mem : List U8}

/-- A character printed into the buffer leaves a NUL behind it, and nothing else. -/
theorem sprintfNext {ostr ostr' : Buf} (h : Untouched mem ostr) {c : U8} (hpercent : c ≠ 0x25)
    (hnul : c ≠ 0) {i : U32} (hret : (Ganoid.sprintfNext [c] ostr i).Returns ostr') :
    Untouched mem ostr' := by
  obtain ⟨⟨buf, n⟩, hprint, hret⟩ := returns_bind_iff.1 hret
  obtain rfl := returns_pure_iff.1 hret
  have hrest := Untouched.vsprintf hprint
  obtain ⟨after, n', htext⟩ := writes_char hpercent hnul ostr.after
  obtain ⟨rfl, -⟩ := Prod.mk.inj (hprint.unique htext)
  have hafter : after = ostr.after.drop 2 := hrest
  show after = mem.drop ((ostr.before ++ [c]).length + 1)
  have htail : ostr.after.drop 2 = ostr.after.tail.tail := by
    rw [← List.drop_one, ← List.drop_one, List.drop_drop]
  rw [hafter, htail, show ostr.after.tail = _ from h, List.tail_drop, List.length_append]
  rfl

/-- A loop whose steps leave the rest of the buffer alone does. -/
theorem forBelow {ostr ostr' : Buf} (h : Untouched mem ostr) {n : U32}
    {step : Buf → U32 → Fuelled Buf}
    (hstep : ∀ i cur cur', Untouched mem cur → (step cur i).Returns cur' → Untouched mem cur')
    (hret : (Signed.forBelow n step ostr).Returns ostr') : Untouched mem ostr' := by
  refine Returns.of_invariant (fun t : Buf × U32 ↦ Untouched mem t.1) (Untouched mem) ?_ ?_ h hret
  · rintro ⟨cur, i⟩ t hcur hpass
    rw [Signed.forPass] at hpass
    split at hpass
    · obtain ⟨cur', hret, hpass⟩ := returns_bind_iff.1 hpass
      obtain rfl := Sum.inl.inj (returns_pure_iff.1 hpass)
      exact hstep i cur cur' hcur hret
    · exact absurd (returns_pure_iff.1 hpass) Sum.inr_ne_inl
  · rintro ⟨cur, i⟩ r hcur hpass
    rw [Signed.forPass] at hpass
    split at hpass
    · obtain ⟨cur', -, hpass⟩ := returns_bind_iff.1 hpass
      exact absurd (returns_pure_iff.1 hpass) Sum.inl_ne_inr
    · obtain rfl := Sum.inr.inj (returns_pure_iff.1 hpass)
      exact hcur

theorem writeMargin {leftMargin tabs leftfillspace : U32} {ostr ostr' : Buf}
    (h : Untouched mem ostr)
    (hret : (Ganoid.writeMargin leftMargin tabs leftfillspace ostr).Returns ostr') :
    Untouched mem ostr' := by
  have hchar : ∀ c : U8, c ≠ 0x25 → c ≠ 0 → ∀ i cur cur', Untouched mem cur →
      (Ganoid.sprintfNext [c] cur i).Returns cur' → Untouched mem cur' :=
    fun c hpercent hnul i cur cur' hcur hret ↦ hcur.sprintfNext hpercent hnul hret
  rw [Ganoid.writeMargin] at hret
  split at hret
  · obtain ⟨cur, htabs, hspaces⟩ := returns_bind_iff.1 hret
    exact (h.forBelow (hchar 0x09 (by decide) (by decide)) htabs).forBelow
      (hchar 0x20 (by decide) (by decide)) hspaces
  · obtain rfl := returns_pure_iff.1 hret
    exact h

theorem copyRow {singleLineStrLen : U32} {s s' : Columns} (h : Untouched mem s.ostr)
    (hret : (Ganoid.copyRow singleLineStrLen s).Returns s') : Untouched mem s'.ostr := by
  refine Returns.of_invariant (fun s : Columns ↦ Untouched mem s.ostr)
    (fun s : Columns ↦ Untouched mem s.ostr) (fun s t hs hpass ↦ ?_) (fun s t hs hpass ↦ ?_) h hret
  · split at hpass
    · obtain rfl := Sum.inl.inj (returns_pure_iff.1 hpass)
      exact hs.put _
    · exact absurd (returns_pure_iff.1 hpass) Sum.inr_ne_inl
  · split at hpass
    · exact absurd (returns_pure_iff.1 hpass) Sum.inl_ne_inr
    · obtain rfl := Sum.inr.inj (returns_pure_iff.1 hpass)
      exact hs

theorem rowPass {leftMargin tabs leftfillspace singleLineStrLen : U32} {s : Columns}
    {r : Columns ⊕ Columns} (h : Untouched mem s.ostr)
    (hret : (Ganoid.rowPass leftMargin tabs leftfillspace singleLineStrLen s).Returns r) :
    Untouched mem (r.elim Columns.ostr Columns.ostr) := by
  rw [Ganoid.rowPass] at hret
  split at hret
  · obtain ⟨ostr, hmargin, hret⟩ := returns_bind_iff.1 hret
    obtain ⟨s', hcopy, hret⟩ := returns_bind_iff.1 hret
    have hcopied := (h.writeMargin hmargin).copyRow hcopy
    dsimp only at hret
    split at hret
    · obtain rfl := returns_pure_iff.1 hret
      exact hcopied
    · obtain rfl := returns_pure_iff.1 hret
      exact hcopied.put _
  · obtain rfl := returns_pure_iff.1 hret
    exact h

/-- **`columnlize_string` writes nothing behind its text and the NUL.** -/
theorem columnlizeString {istr ostr : List U8} {screenWidth leftMargin rightMargin : U32}
    {fillbyte : U8} {buf : Buf}
    (hret : (Ganoid.columnlizeString istr ostr screenWidth leftMargin rightMargin
      fillbyte).Returns (some buf)) : Untouched ostr buf := by
  rw [Ganoid.columnlizeString] at hret
  split at hret
  · exact absurd (returns_pure_iff.1 hret) (Option.some_ne_none _).symm
  · obtain ⟨s, hloop, hret⟩ := returns_bind_iff.1 hret
    obtain ⟨cur, hfill, hret⟩ := returns_bind_iff.1 hret
    obtain rfl := Option.some.inj (returns_pure_iff.1 hret)
    have hrows : Untouched ostr s.ostr :=
      Returns.of_invariant (fun s : Columns ↦ Untouched ostr s.ostr)
        (fun s : Columns ↦ Untouched ostr s.ostr) (fun s t hs hpass ↦ hs.rowPass hpass)
        (fun s t hs hpass ↦ hs.rowPass hpass) (Untouched.start ostr) hloop
    refine Untouched.terminate ?_
    split at hfill
    · refine hrows.forBelow (fun i cur cur' hcur hput ↦ ?_) hfill
      obtain rfl := returns_pure_iff.1 hput
      exact hcur.put fillbyte
    · obtain rfl := returns_pure_iff.1 hfill
      exact hrows

end Untouched

/-- The rows of a message of one line. -/
theorem length_rows_of_line {w : ℕ} {msg : List U8} {rows : List (Row U8)} {last : Row U8}
    (h : Layout 0x0A w msg rows last) (hline : 0x0A ∉ msg) :
    (rowsText 1 rows).length = (w + 2) * rows.length ∧
      msg.length = w * rows.length + last.chunk.length ∧ last.separated = false := by
  have hsource : ∀ row : Row U8, 0x0A ∉ row.source 0x0A → row.separated = false := fun row h ↦
    Bool.eq_false_iff.2 fun hsep ↦ h <| by simp [Row.source, hsep]
  have hchars := h.source_eq ▸ hline
  obtain ⟨hrows, hlast⟩ := not_or.1 (mt List.mem_append.2 hchars)
  have hfull : ∀ row ∈ rows, row.separated = false ∧ row.chunk.length = w := fun row hrow ↦ by
    have hsep := hsource row fun hmem ↦ hrows (List.mem_flatMap.2 ⟨row, hrow, hmem⟩)
    exact ⟨hsep, (h.ends row hrow).resolve_left fun hsep' ↦
      Bool.false_ne_true (hsep.symm.trans hsep')⟩
  have hcount : ∀ rs : List (Row U8), (∀ row ∈ rs, row.separated = false ∧ row.chunk.length = w) →
      (rowsText 1 rs).length = (w + 2) * rs.length ∧
        (rs.flatMap (Row.source 0x0A)).length = w * rs.length := by
    intro rs
    induction rs with
    | nil => intro _; exact ⟨rfl, rfl⟩
    | cons row rs ih =>
      intro hrs
      obtain ⟨⟨hsep, hlen⟩, hrs⟩ := List.forall_mem_cons.1 hrs
      obtain ⟨htext, hsrc⟩ := ih hrs
      rw [rowsText_eq] at htext
      constructor
      · rw [rowsText_eq, List.flatMap_cons, List.length_append, htext, List.length_append,
          List.length_cons, hlen, List.length_singleton, List.length_cons, Nat.mul_succ]
        omega
      · rw [List.flatMap_cons, List.length_append, hsrc, Row.source, hsep,
          if_neg Bool.false_ne_true, List.append_nil, hlen, List.length_cons, Nat.mul_succ]
        omega
  obtain ⟨htext, hsrc⟩ := hcount rows hfull
  refine ⟨htext, ?_, hsource last hlast⟩
  rw [← h.source_eq, List.length_append, hsrc, Row.source, hsource last hlast]
  simp

/-- The column of a message of one line. -/
theorem length_column_of_line {msg : List U8} {rows : List (Row U8)} {last : Row U8}
    (h : Layout 0x0A 71 msg rows last) (hsource : last.source 0x0A ≠ []) (hline : 0x0A ∉ msg) :
    (rowsText 1 rows ++ lastRow last).length = 73 * ((msg.length - 1) / 71) + 72 := by
  obtain ⟨htext, hmsglen, hsep⟩ := length_rows_of_line h hline
  have hle := h.last_fits.length_le
  have hpos : 0 < last.chunk.length := List.length_pos_iff.2 fun hnil ↦ hsource <| by
    rw [Row.source, hnil, hsep]
    rfl
  have hdiv : (msg.length - 1) / 71 = rows.length := by omega
  rw [List.length_append, length_lastRow h (Nat.le_refl 71), htext, hdiv]

theorem columnFits_of_line {msg : List U8} (hline : 0x0A ∉ msg) (hshort : msg.length ≤ 142) :
    ColumnFits msg := by
  intro rows last h hsource
  rw [length_column_of_line h hsource hline]
  show _ < 200
  omega

/-- The array of a report is the one that `columnlize_string` has written. -/
theorem columnlizeString_of_displayBootProgress {stack : BootStack} {message : List U8}
    {result : Bool} {v v' : Vga} {columned : Option Buf}
    (hret : (displayBootProgress stack message result v).Returns (columned, v')) :
    (columnlizeString message stack.columnStr 80 1 8 0x2E).Returns columned := by
  obtain ⟨_, hcolumn, hret⟩ := returns_bind_iff.1 hret
  dsimp only at hret
  split at hret
  · obtain ⟨_, _, hret⟩ := returns_bind_iff.1 hret
    obtain ⟨_, _, hret⟩ := returns_bind_iff.1 hret
    obtain ⟨_, _, hret⟩ := returns_bind_iff.1 hret
    exact (Prod.mk.inj (returns_pure_iff.1 hret)).1 ▸ hcolumn
  · exact absurd hret not_returns_never

/-- A column that fits in the array leaves what is behind it as it was. -/
theorem drop_column_of_lt {message columnStr before after : List U8}
    (hret : (columnlizeString message columnStr 80 1 8 0x2E).Returns
      (some ⟨before, 0 :: after⟩)) (hlt : before.length < maxStrLen) :
    (before ++ 0 :: after).drop maxStrLen = columnStr.drop maxStrLen := by
  have hrest : after = columnStr.drop (before.length + 1) := Untouched.columnlizeString hret
  obtain ⟨k, hk⟩ : ∃ k, maxStrLen = before.length + (k + 1) :=
    ⟨maxStrLen - 1 - before.length, by omega⟩
  rw [hk, List.drop_append, hrest, List.drop_eq_nil_of_le (by omega), List.nil_append,
    Nat.add_sub_cancel_left, List.drop_succ_cons, List.drop_drop]
  exact congrArg (columnStr.drop ·) (show before.length + 1 + k = before.length + (k + 1) by omega)

/-- **The array is kept exactly by short messages.** `columnlize_string`, and with it a report of a
message of one line, leaves what is behind the array as it was, whatever that is, exactly if the
message has no more than 142 characters: two rows of 71. -/
theorem displayBootProgress_keepsArray_iff {msg : List U8} (rest : List U8) (result : Bool)
    (v : Vga) (hmsg : msg ≠ []) (hnul : 0 ∉ msg) (hline : 0x0A ∉ msg) :
    ((∀ columnStr, ∃ buf, (columnlizeString (msg ++ 0 :: rest) columnStr 80 1 8 0x2E).Returns
        (some buf) ∧
      (buf.before ++ buf.after).drop maxStrLen = columnStr.drop maxStrLen) ↔
      msg.length ≤ 142) ∧
    ((∀ stack, ∃ buf v', (displayBootProgress stack (msg ++ 0 :: rest) result v).Returns
        (some buf, v') ∧
      (buf.before ++ buf.after).drop maxStrLen = stack.columnStr.drop maxStrLen) ↔
      msg.length ≤ 142) := by
  have hlong : (∀ columnStr, ∃ buf, (columnlizeString (msg ++ 0 :: rest) columnStr 80 1 8
      0x2E).Returns (some buf) ∧
      (buf.before ++ buf.after).drop maxStrLen = columnStr.drop maxStrLen) →
      msg.length ≤ 142 := by
    intro h
    by_contra hlong
    -- a stack of NULs, of which one is at the place of a character
    obtain ⟨buf, hret, hkept⟩ := h (List.replicate 400 0)
    obtain ⟨after, rows, last, ⟨hlayout, hsource⟩, hret'⟩ :=
      column_returns rest (List.replicate 400 0) hmsg hnul
    obtain rfl := Option.some.inj (hret.unique hret')
    have hlen := length_column_of_line hlayout hsource hline
    have hlt : maxStrLen < (rowsText 1 rows ++ lastRow last).length := by
      show 200 < (rowsText 1 rows ++ lastRow last).length
      omega
    rw [List.drop_append_of_le_length hlt.le, List.drop_eq_getElem_cons hlt, List.drop_replicate]
      at hkept
    exact not_mem_column hlayout hnul ((List.cons.inj hkept).1 ▸ List.getElem_mem hlt)
  refine ⟨⟨hlong, fun hshort columnStr ↦ ?_⟩, fun h ↦ hlong fun columnStr ↦ ?_,
    fun hshort stack ↦ ?_⟩
  · obtain ⟨after, rows, last, ⟨hlayout, hsource⟩, hret⟩ := column_returns rest columnStr hmsg hnul
    exact ⟨_, hret, drop_column_of_lt hret
      (columnFits_of_line hline hshort rows last hlayout hsource)⟩
  · obtain ⟨buf, v', hret, hkept⟩ := h ⟨columnStr, [], [], []⟩
    exact ⟨buf, columnlizeString_of_displayBootProgress hret, hkept⟩
  · have hfits := columnFits_of_line hline hshort
    obtain ⟨after, rows, last, ⟨hlayout, hsource⟩, hret⟩ :=
      displayBootProgress_returns stack rest result v hmsg hnul hfits
    exact ⟨_, _, hret, drop_column_of_lt (columnlizeString_of_displayBootProgress hret)
      (hfits rows last hlayout hsource)⟩

/-- Messages of 142 and of 143 characters, on the console at power on. -/
theorem displayBootProgress_keepsArray_iff_boundary :
    (∀ stack, ∃ buf v', (displayBootProgress stack (List.replicate 142 0x41 ++ 0 :: []) true
        (.powerOn (fun _ ↦ 0) 0 0)).Returns (some buf, v') ∧
      (buf.before ++ buf.after).drop maxStrLen = stack.columnStr.drop maxStrLen) ∧
    ¬ ∀ stack, ∃ buf v', (displayBootProgress stack (List.replicate 143 0x41 ++ 0 :: []) true
        (.powerOn (fun _ ↦ 0) 0 0)).Returns (some buf, v') ∧
      (buf.before ++ buf.after).drop maxStrLen = stack.columnStr.drop maxStrLen :=
  ⟨(displayBootProgress_keepsArray_iff [] true _ (by simp) (by simp) (by simp)).2.2 (by simp),
    fun h ↦ absurd ((displayBootProgress_keepsArray_iff [] true _ (by simp) (by simp)
      (by simp)).2.1 h) (by simp)⟩

end Ganoid
