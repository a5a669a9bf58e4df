import Ganoid.Libc.Format

/-!
# The formats that `vsprintf` returns from

`get_conv_specifier` knows nine specifiers and `realize_string` writes seven of them: at `%o` and
`%X` it stops the machine. A format is here a list of *pieces*, items and conversions with one of
these two.

`vsprintf` consumes a format of items whose integers fit and reads nothing behind its NUL
(`finishes_items`), and it gets no further than the first piece that is not written
(`not_vsprintf_returns`, `allFit_of_vsprintf_returns`).
-/

open Fuelled

namespace Ganoid

namespace Vsprintf

/-- An item, or a conversion whose specifier, `X` or `o`, is read and not written. -/
inductive Piece
  | item (i : Item)
  | unwritten (d : Directive) (upper : Bool) (val : U32)

namespace Piece

/-- The specifier of a conversion that is not written. -/
def specifier (upper : Bool) : U8 := if upper then 0x58 else 0x6F

def spell : Piece → List U8
  | item i => i.spell
  | unwritten d upper _ => d.spell (specifier upper)

def args : Piece → List Arg
  | item i => i.args
  | unwritten d _ val => d.width.args ++ [.int val]

/-- Whether `realize_string` writes a piece: its specifier is one of the seven, and its text fits in
`str` if it is of an integer. -/
def IsWritten : Piece → Prop
  | item (.literal _ _ _) => True
  | item (.conversion c) => c.Fits
  | unwritten _ _ _ => False

end Piece

/-- The format. -/
def spellPieces (pieces : List Piece) : List U8 := pieces.flatMap Piece.spell

/-- The arguments. -/
def pieceArgs (pieces : List Piece) : List Arg := pieces.flatMap Piece.args

/-- `vsprintf` returns, having consumed the format up to its NUL, and what is behind the NUL makes
no difference. -/
def Finishes (fmt : List U8) (vl : List Arg) : Prop :=
  ∀ buf, ∃ r, ∀ behind, (vsprintf buf (fmt ++ 0 :: behind) vl).Returns r ∧
    EndsAt (.start buf (fmt ++ 0 :: behind) vl) (0 :: behind)

/-! ### Formats of items -/

theorem spellPieces_items (items : List Item) : spellPieces (items.map .item) = spell items := by
  rw [spellPieces, List.flatMap_map]
  rfl

theorem pieceArgs_items (items : List Item) : pieceArgs (items.map .item) = args items := by
  rw [pieceArgs, List.flatMap_map]
  rfl

theorem spellPieces_append (items : List Item) (p : Piece) (rest : List Piece) (behind : List U8) :
    spellPieces (items.map .item ++ p :: rest) ++ behind =
      spell items ++ (p.spell ++ (spellPieces rest ++ behind)) := by
  rw [← spellPieces_items]
  simp [spellPieces]

theorem pieceArgs_append (items : List Item) (p : Piece) (rest : List Piece) (vl : List Arg) :
    pieceArgs (items.map .item ++ p :: rest) ++ vl =
      args items ++ (p.args ++ (pieceArgs rest ++ vl)) := by
  rw [← pieceArgs_items]
  simp [pieceArgs]

theorem forall_isWritten_iff (items : List Item) :
    (∀ p ∈ items.map Piece.item, p.IsWritten) ↔ AllFit items := by
  rw [List.forall_mem_map]
  constructor
  · exact fun h c hc ↦ h _ hc
  · intro h i hi
    cases i with
    | literal c hpercent hnul => trivial
    | conversion c => exact h c hi

/-- **A format of items is finished** if they fit. -/
theorem finishes_items {items : List Item} (hfit : AllFit items) (vl : List Arg) :
    Finishes (spell items) (args items ++ vl) := by
  intro buf
  obtain ⟨s', h, -⟩ := exists_wrote_start hfit buf
  have hend : ∀ behind, uptonext s'.buf (0 :: behind) = (false, s'.buf.terminate, 0 :: behind) :=
    fun behind ↦ by rw [uptonext, if_pos rfl]
  refine ⟨(s'.buf.terminate, strlen s'.buf.terminate.after), fun behind ↦ ?_⟩
  have hgoes := h.goes (0 :: behind) vl
  have hleave : (readCall { s' with fmt := 0 :: behind, vl := vl }).Returns
      (.inr s'.buf.terminate) := by
    rw [readCall, hend]
    exact returns_pure _
  have hpass := pass_returns_iff.2 (Or.inl ⟨_, hleave, rfl⟩)
  exact ⟨(hgoes.returns_iff.2 (returns_loop_of_leave hpass)).bind (returns_pure _),
    hgoes.endsAt (.here (hend behind))⟩

/-! ### Specifiers that are not written -/

/-- `realize_string` does not return from `%X` and `%o`. -/
theorem not_realize_returns {c : State} {upper : Bool}
    (h : c.convSpecifier = getConvSpecifier [Piece.specifier upper]) (w : Buf × List Arg) :
    ¬ c.realize.Returns w := by
  have hne : c.convSpecifier ≠ 0x73 ∧ c.convSpecifier ∉ intSpecifiers ∧
      c.convSpecifier ≠ 0x63 := by
    rw [h]
    cases upper <;> decide
  obtain ⟨hs, hint, hc⟩ := hne
  rw [State.realize, realizeString, if_neg hs, if_neg hint, if_neg hc]
  intro hret
  obtain ⟨a, hnever, -⟩ := returns_bind_iff.1 hret
  exact not_returns_never hnever

/-- The loop does not return from a conversion that is not written. -/
theorem not_loop_returns (s : State) (d : Directive) (upper : Bool) (fmt : List U8)
    (vl : List Arg) (buf : Buf) : ¬ (loop pass { s with
      fmt := d.spell (Piece.specifier upper) ++ fmt, vl := d.width.args ++ vl }).Returns buf := by
  have hmem : Piece.specifier upper ∈ acceptedChars := by
    cases upper <;> decide
  obtain ⟨precision, lengthModifier, hcall⟩ := readCall_directive s d hmem fmt vl
  have hpass : ∀ r, ¬ (pass { s with
      fmt := d.spell (Piece.specifier upper) ++ fmt, vl := d.width.args ++ vl }).Returns r := by
    intro r hret
    rcases pass_returns_iff.1 hret with ⟨buf', hleave, -⟩ | ⟨c, hcall', w, hrealize, -⟩
    · exact absurd (hleave.unique hcall) (by simp)
    · obtain rfl := Sum.inl.inj (hcall'.unique hcall)
      exact not_realize_returns rfl w hrealize
  intro hret
  rcases returns_loop_iff.1 hret with hleave | ⟨t, hagain, -⟩
  · exact hpass _ hleave
  · exact hpass _ hagain

/-- A format is one of items, or it has a first piece that is none. -/
theorem items_or_unwritten (pieces : List Piece) :
    (∃ items : List Item, pieces = items.map .item) ∨
      ∃ (items : List Item) (d : Directive) (upper : Bool) (val : U32) (rest : List Piece),
        pieces = items.map .item ++ .unwritten d upper val :: rest := by
  induction pieces with
  | nil => exact Or.inl ⟨[], rfl⟩
  | cons p pieces ih =>
    cases p with
    | unwritten d upper val => exact Or.inr ⟨[], d, upper, val, pieces, rfl⟩
    | item i =>
      rcases ih with ⟨items, rfl⟩ | ⟨items, d, upper, val, rest, rfl⟩
      · exact Or.inl ⟨i :: items, rfl⟩
      · exact Or.inr ⟨i :: items, d, upper, val, rest, rfl⟩

/-- **`vsprintf` does not return** from a format with a conversion that is not written. -/
theorem not_vsprintf_returns (items : List Item) (d : Directive) (upper : Bool)
    (buf fmt : List U8) (vl : List Arg) (r : Buf × U32) :
    ¬ (vsprintf buf (spell items ++ (d.spell (Piece.specifier upper) ++ fmt))
      (args items ++ (d.width.args ++ vl))).Returns r := by
  intro hret
  obtain ⟨s', h, -⟩ := exists_wrote_start (allFit_of_vsprintf_returns hret) buf
  have hgoes := h.goes (d.spell (Piece.specifier upper) ++ fmt) (d.width.args ++ vl)
  obtain ⟨buf', hloop, -⟩ := returns_bind_iff.1 hret
  exact not_loop_returns s' d upper fmt vl buf' (hgoes.returns_iff.1 hloop)

end Vsprintf

open Vsprintf

/-- **`vsprintf` finishes a format** of accepted conversions if and only if none of them is `%o` or
`%X`, and every integer fits. -/
theorem vsprintf_finishes_iff (pieces : List Piece) (vl : List Arg) :
    Finishes (spellPieces pieces) (pieceArgs pieces ++ vl) ↔ ∀ p ∈ pieces, p.IsWritten := by
  rcases items_or_unwritten pieces with ⟨items, rfl⟩ | ⟨items, d, upper, val, rest, rfl⟩
  · rw [spellPieces_items, pieceArgs_items, forall_isWritten_iff]
    refine ⟨fun h ↦ ?_, fun hfit ↦ finishes_items hfit vl⟩
    obtain ⟨r, hr⟩ := h []
    exact allFit_of_vsprintf_returns (hr []).1
  · refine iff_of_false (fun h ↦ ?_) fun h ↦ h _ (List.mem_append_right _ List.mem_cons_self)
    obtain ⟨r, hr⟩ := h []
    have hret := (hr []).1
    rw [spellPieces_append, pieceArgs_append, Piece.args, List.append_assoc] at hret
    exact not_vsprintf_returns items d upper [] _ _ r hret

/-- From `%o` it does not return. -/
theorem not_finishes_octal : ¬ Finishes [0x25, 0x6F] [.int 8] := by
  intro h
  obtain ⟨r, hr⟩ := h []
  exact not_vsprintf_returns [] ⟨[], .absent, none, false⟩ false [] [0] [.int 8] r (hr []).1

end Ganoid
