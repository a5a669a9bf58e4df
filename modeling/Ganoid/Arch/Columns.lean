import Ganoid.Library.Signed
import Ganoid.Library.TextRows
import Ganoid.Libc.Format

/-!
# Messages in a column

`columnlize_string` of `arch/i386/lib/sysinfo.c`, which lays a message out in rows between two
margins. The message is read through a pointer that is what is left of it, and the output buffer is
split at the pointer `ostr`, as in `vsprintf`. The left margin is written by `sprintf`, which stores a
NUL behind every character; the next character is stored over it.

The rows are a layout of the message (`columnlizeString_returns`), and the output is these rows with
newlines between them, the last one filled up (`columnlizeString_columns`).
-/

open Fuelled Signed TextRows

namespace Ganoid

open Vsprintf

/-- `KTAB_WIDTH`. -/
def ktabWidth : U32 := 4

/-- `sprintf (ostr++, fmt)`. -/
def sprintfNext (fmt : List U8) (ostr : Buf) (_ : U32) : Fuelled Buf := do
  let (buf, _) ← vsprintf ostr.after fmt []
  let stored := buf.before ++ buf.after
  pure ⟨ostr.before ++ stored.take 1, stored.drop 1⟩

/-- The variables that the loop of `columnlize_string` changes. -/
structure Columns where
  istr : List U8
  ostr : Buf
  r : U32

/-- The left margin of a row. -/
def writeMargin (leftMargin tabs leftfillspace : U32) (ostr : Buf) : Fuelled Buf :=
  if leftMargin ≠ 0 then do
    let ostr ← forBelow tabs (sprintfNext [0x09]) ostr
    forBelow leftfillspace (sprintfNext [0x20]) ostr
  else pure ostr

/-- The inner loop, which copies the characters of a row. -/
def copyRow (singleLineStrLen : U32) : Columns → Fuelled Columns :=
  loop fun s ↦
    if s.r.slt singleLineStrLen ∧ deref s.istr ≠ 0 ∧ deref s.istr ≠ 0x0A then
      pure (.inl ⟨s.istr.tail, s.ostr.put (deref s.istr), s.r + 1⟩)
    else pure (.inr s)

/-- `if (*istr == '\n') istr++`. -/
def skipNewline (istr : List U8) : List U8 :=
  if deref istr = 0x0A then istr.tail else istr

/-- One pass through the loop of `columnlize_string`. -/
def rowPass (leftMargin tabs leftfillspace singleLineStrLen : U32) (s : Columns) :
    Fuelled (Columns ⊕ Columns) :=
  if deref s.istr ≠ 0 then do
    let ostr ← writeMargin leftMargin tabs leftfillspace s.ostr
    let s ← copyRow singleLineStrLen { s with ostr := ostr, r := 0 }
    let s := { s with istr := skipNewline s.istr }
    if deref s.istr = 0 then pure (.inr s)
    else pure (.inl { s with ostr := s.ostr.put 0x0A })
  else pure (.inr s)

/-- `columnlize_string`: the buffer, whose memory was `ostr`, or `none` where it returns `NULL`. -/
def columnlizeString (istr ostr : List U8) (screenWidth leftMargin rightMargin : U32)
    (fillbyte : U8) : Fuelled (Option Buf) :=
  let tabs := leftMargin.sdiv ktabWidth
  let leftfillspace := leftMargin.srem ktabWidth
  let singleLineStrLen := screenWidth - (leftMargin + rightMargin)
  if singleLineStrLen.slt 1 then pure none
  else do
    let s ← loop (rowPass leftMargin tabs leftfillspace singleLineStrLen) ⟨istr, ⟨[], ostr⟩, 0⟩
    let ostr ← (
      if s.r.slt singleLineStrLen then
        forBelow (singleLineStrLen - s.r) (fun ostr _ ↦ pure (ostr.put fillbyte)) s.ostr
      else pure s.ostr)
    pure (some ostr.terminate)

/-! ### Margins and fillers -/

/-- A loop that stores the same character in every pass. -/
theorem forBelow_stores {n : U32} {step : Buf → U32 → Fuelled Buf} {c : U8}
    (hstep : ∀ ostr i, ∃ after, (step ostr i).Returns ⟨ostr.before ++ [c], after⟩) (ostr : Buf) :
    ∃ after, (forBelow n step ostr).Returns
      ⟨ostr.before ++ List.replicate n.toInt.toNat c, after⟩ := by
  obtain ⟨cur, hret, hcur⟩ := @exists_returns_forBelow 32 Buf n step
    (fun k cur ↦ cur.before = ostr.before ++ List.replicate k c)
    (fun i cur _ hcur ↦ by
      obtain ⟨after, hret⟩ := hstep cur i
      refine ⟨_, hret, ?_⟩
      rw [hcur, List.append_assoc, ← List.replicate_succ'])
    ostr (List.append_nil _).symm
  exact ⟨cur.after, hcur ▸ hret⟩

/-- A format of one character. -/
theorem writes_char {c : U8} (hpercent : c ≠ 0x25) (hnul : c ≠ 0) : Writes [c] [] [c] :=
  @writes_text [.literal c hpercent hnul] (allFit_literal_iff.2 allFit_nil)

theorem sprintfNext_returns {c : U8} (hpercent : c ≠ 0x25) (hnul : c ≠ 0) (ostr : Buf) (i : U32) :
    ∃ after, (sprintfNext [c] ostr i).Returns ⟨ostr.before ++ [c], after⟩ := by
  obtain ⟨after, n, hret⟩ := writes_char hpercent hnul ostr.after
  exact ⟨0 :: after, hret.bind (returns_pure _)⟩

/-- The left margin: tabs, and then spaces. -/
def marginText (leftMargin : U32) : List U8 :=
  List.replicate (leftMargin.toNat / 4) 0x09 ++ List.replicate (leftMargin.toNat % 4) 0x20

theorem writeMargin_returns {leftMargin : U32} (hleft : 2 * leftMargin.toNat < 2 ^ 32)
    (ostr : Buf) :
    ∃ after, (writeMargin leftMargin (leftMargin.sdiv ktabWidth) (leftMargin.srem ktabWidth)
      ostr).Returns ⟨ostr.before ++ marginText leftMargin, after⟩ := by
  have htabs : (leftMargin.sdiv ktabWidth).toNat = leftMargin.toNat / 4 :=
    toNat_sdiv hleft (by decide)
  have hspaces : (leftMargin.srem ktabWidth).toNat = leftMargin.toNat % 4 :=
    toNat_srem hleft (by decide)
  rw [writeMargin]
  split
  · obtain ⟨after, hret⟩ := forBelow_stores (n := leftMargin.sdiv ktabWidth)
      (sprintfNext_returns (c := 0x09) (by decide) (by decide)) ostr
    obtain ⟨after', hret'⟩ := forBelow_stores (n := leftMargin.srem ktabWidth)
      (sprintfNext_returns (c := 0x20) (by decide) (by decide))
      ⟨ostr.before ++ List.replicate (leftMargin.sdiv ktabWidth).toInt.toNat 0x09, after⟩
    refine ⟨after', ?_⟩
    rw [toNat_toInt (by omega), htabs] at hret hret'
    rw [toNat_toInt (by omega), hspaces] at hret'
    rw [marginText, ← List.append_assoc]
    exact hret.bind hret'
  · rename_i hzero
    rw [not_not.1 hzero]
    exact ⟨ostr.after, (List.append_nil ostr.before).symm ▸ returns_pure ostr⟩

/-! ### One row -/

/-- The first character of a string behind which its NUL stands. -/
theorem deref_append_nul_eq_zero_iff {m rest : List U8} (h : 0 ∉ m) :
    deref (m ++ 0 :: rest) = 0 ↔ m = [] := by
  cases m with
  | nil => simp [deref]
  | cons c m => simpa [deref] using Ne.symm (List.ne_of_not_mem_cons h)

/-- What the inner loop copies of a message: a chunk without newlines that is full, or ends at a
newline or with the message. -/
structure CopiedRow (w : ℕ) (m : List U8) (chunk m' : List U8) : Prop where
  split : m = chunk ++ m'
  length_le : chunk.length ≤ w
  not_mem : 0x0A ∉ chunk
  stop : chunk.length = w ∨ m' = [] ∨ ∃ m'', m' = 0x0A :: m''

/-- The state of the inner loop: what is copied so far is a chunk that is short enough and has no
newline. -/
structure CopyingRow (w : ℕ) (m rest before : List U8) (s : Columns) (chunk m' : List U8) :
    Prop where
  split : m = chunk ++ m'
  istr_eq : s.istr = m' ++ 0 :: rest
  before_eq : s.ostr.before = before ++ chunk
  r_eq : s.r.toNat = chunk.length
  length_le : chunk.length ≤ w
  not_mem : 0x0A ∉ chunk

namespace CopyingRow

variable {w : ℕ} {m rest before chunk m' : List U8} {s : Columns}

/-- **One character more.** -/
theorem next {c : U8} (h : CopyingRow w m rest before s chunk (c :: m')) (hlt : chunk.length < w)
    (hw : w < 2 ^ 32) (hnl : c ≠ 0x0A) :
    CopyingRow w m rest before ⟨s.istr.tail, s.ostr.put (deref s.istr), s.r + 1⟩ (chunk ++ [c])
      m' where
  split := by rw [h.split, List.append_assoc, List.singleton_append]
  istr_eq := congrArg List.tail h.istr_eq
  before_eq := by
    rw [h.istr_eq, Buf.put, h.before_eq, List.append_assoc]
    rfl
  r_eq := by
    have hr := h.r_eq
    rw [List.length_append, List.length_singleton]
    bv_omega
  length_le := by
    rw [List.length_append, List.length_singleton]
    exact hlt
  not_mem := by
    rw [List.mem_append, List.mem_singleton]
    exact not_or.2 ⟨h.not_mem, Ne.symm hnl⟩

/-- Where the loop ends. -/
theorem copiedRow (h : CopyingRow w m rest before s chunk m')
    (hstop : ¬ (chunk.length < w ∧ m' ≠ [] ∧ deref s.istr ≠ 0x0A)) : CopiedRow w m chunk m' := by
  refine ⟨h.split, h.length_le, h.not_mem, ?_⟩
  rcases Nat.lt_or_ge chunk.length w with hlt | hge
  · refine Or.inr ?_
    cases m' with
    | nil => exact Or.inl rfl
    | cons c m' =>
      have hc : deref s.istr = 0x0A :=
        not_not.1 fun hnl ↦ hstop ⟨hlt, List.cons_ne_nil c m', hnl⟩
      rw [h.istr_eq] at hc
      exact Or.inr ⟨m', congrArg (· :: m') hc⟩
  · exact Or.inl (Nat.le_antisymm h.length_le hge)

end CopyingRow

theorem copyRow_returns {len : U32} (hlen : 2 * len.toNat < 2 ^ 32) {m : List U8} (hnul : 0 ∉ m)
    (rest : List U8) (ostr : Buf) :
    ∃ chunk m' after, CopiedRow len.toNat m chunk m' ∧
      (copyRow len ⟨m ++ 0 :: rest, ostr, 0⟩).Returns
        ⟨m' ++ 0 :: rest, ⟨ostr.before ++ chunk, after⟩, BitVec.ofNat 32 chunk.length⟩ := by
  suffices hloop : ∃ s, (copyRow len ⟨m ++ 0 :: rest, ostr, 0⟩).Returns s ∧
      ∃ chunk m', CopyingRow len.toNat m rest ostr.before s chunk m' ∧
        CopiedRow len.toNat m chunk m' by
    obtain ⟨⟨istr, cur, r⟩, hret, chunk, m', hcopying, hcopied⟩ := hloop
    have hr : r = BitVec.ofNat 32 chunk.length := by
      rw [← hcopying.r_eq, BitVec.ofNat_toNat, BitVec.setWidth_eq]
    have hbuf : cur = ⟨ostr.before ++ chunk, cur.after⟩ := by
      rw [← hcopying.before_eq]
    exact ⟨chunk, m', cur.after, hcopied, hbuf ▸ hr ▸ hcopying.istr_eq ▸ hret⟩
  refine exists_returns_of_variant
    (fun s ↦ ∃ chunk m', CopyingRow len.toNat m rest ostr.before s chunk m') _
    (fun s ↦ s.istr.length) ?_
    ⟨[], m, rfl, rfl, (List.append_nil _).symm, rfl, Nat.zero_le _, List.not_mem_nil⟩
  rintro s ⟨chunk, m', h⟩
  have hr := h.r_eq
  have hle := h.length_le
  have hslt : s.r.slt len = true ↔ chunk.length < len.toNat := by
    rw [slt_iff (by omega) hlen, hr]
  have hzero : deref s.istr = 0 ↔ m' = [] := by
    rw [h.istr_eq]
    exact deref_append_nul_eq_zero_iff fun hmem ↦ hnul (h.split ▸ List.mem_append_right chunk hmem)
  have hcond : (s.r.slt len ∧ deref s.istr ≠ 0 ∧ deref s.istr ≠ 0x0A) ↔
      (chunk.length < len.toNat ∧ m' ≠ [] ∧ deref s.istr ≠ 0x0A) :=
    and_congr hslt (and_congr_left fun _ ↦ not_congr hzero)
  split
  · rename_i hgo
    obtain ⟨hlt, hne, hnl⟩ := hcond.1 hgo
    obtain ⟨c, m'', rfl⟩ := List.exists_cons_of_ne_nil hne
    have hc : deref s.istr = c := congrArg deref h.istr_eq
    refine Or.inr ⟨_, returns_pure _, ⟨chunk ++ [c], m'', h.next hlt (by omega) (hc ▸ hnl)⟩, ?_⟩
    rw [h.istr_eq]
    exact Nat.lt_succ_self _
  · rename_i hstop
    exact Or.inl ⟨s, returns_pure _, chunk, m', h, h.copiedRow (mt hcond.2 hstop)⟩

/-- The row that a copied chunk makes with the newline that is then skipped, and what is left. -/
structure ReadRow (w : ℕ) (m rest m' : List U8) (row : Row U8) (m'' : List U8) : Prop where
  split : m = row.source 0x0A ++ m''
  fits : row.Fits 0x0A w
  lt : m''.length < m.length
  ends : m'' ≠ [] → row.separated = true ∨ row.chunk.length = w
  skip : skipNewline (m' ++ 0 :: rest) = m'' ++ 0 :: rest

theorem CopiedRow.exists_readRow {w : ℕ} {m chunk m' : List U8} (h : CopiedRow w m chunk m')
    (hw : 1 ≤ w) (hm : m ≠ []) (rest : List U8) :
    ∃ row m'', row.chunk = chunk ∧ ReadRow w m rest m' row m'' := by
  have hlength := congrArg List.length h.split
  rw [List.length_append] at hlength
  by_cases hnl : ∃ m'', m' = 0x0A :: m''
  · obtain ⟨m'', rfl⟩ := hnl
    refine ⟨⟨chunk, true⟩, m'', rfl, ?_, ⟨h.length_le, h.not_mem⟩, ?_, fun _ ↦ Or.inl rfl, rfl⟩
    · rw [h.split, Row.source, if_pos rfl, List.append_assoc]
      rfl
    · rw [List.length_cons] at hlength
      omega
  · refine ⟨⟨chunk, false⟩, m', rfl, ?_, ⟨h.length_le, h.not_mem⟩, ?_, fun hne ↦ ?_, ?_⟩
    · rw [h.split, Row.source, if_neg Bool.false_ne_true, List.append_nil]
    · have hpos : 0 < m.length := List.length_pos_iff.2 hm
      rcases h.stop with hfull | hend | hnl'
      · omega
      · rw [hend, List.length_nil]
        exact hpos
      · exact absurd hnl' hnl
    · exact Or.inr (h.stop.resolve_right (not_or.2 ⟨hne, hnl⟩))
    · refine if_neg fun hc ↦ hnl ?_
      cases m' with
      | nil => exact absurd (show (0 : U8) = 0x0A from hc) (by decide)
      | cons c m' => exact ⟨m', congrArg (· :: m') hc⟩

/-! ### The rows -/

section Rows

variable {leftMargin len : U32} (hleft : 2 * leftMargin.toNat < 2 ^ 32)
  (hlen : 2 * len.toNat < 2 ^ 32) (hpos : 1 ≤ len.toNat)

/-- The loop of `columnlize_string` for these margins. -/
abbrev rowsPass (leftMargin len : U32) : Columns → Fuelled (Columns ⊕ Columns) :=
  rowPass leftMargin (leftMargin.sdiv ktabWidth) (leftMargin.srem ktabWidth) len

include hleft hlen hpos

/-- **One pass** writes a row, and a newline if something of the message is left. -/
theorem rowPass_returns {m : List U8} (hnul : 0 ∉ m) (hm : m ≠ []) (rest : List U8) (ostr : Buf)
    (r : U32) :
    ∃ row m'' m' after, ReadRow len.toNat m rest m' row m'' ∧
      (rowsPass leftMargin len ⟨m ++ 0 :: rest, ostr, r⟩).Returns
        (if m'' = [] then
          .inr ⟨0 :: rest, ⟨ostr.before ++ (marginText leftMargin ++ row.chunk), after⟩,
            BitVec.ofNat 32 row.chunk.length⟩
        else
          .inl ⟨m'' ++ 0 :: rest,
            ⟨ostr.before ++ (marginText leftMargin ++ row.chunk) ++ [0x0A], after⟩,
            BitVec.ofNat 32 row.chunk.length⟩) := by
  obtain ⟨after₁, hmargin⟩ := writeMargin_returns hleft ostr
  obtain ⟨chunk, m', after₂, hcopied, hcopy⟩ := copyRow_returns hlen hnul rest
    ⟨ostr.before ++ marginText leftMargin, after₁⟩
  obtain ⟨row, m'', rfl, hread⟩ := hcopied.exists_readRow hpos hm rest
  have hgo : deref (m ++ 0 :: rest) ≠ 0 := fun h ↦ hm ((deref_append_nul_eq_zero_iff hnul).1 h)
  have hzero : deref (m'' ++ 0 :: rest) = 0 ↔ m'' = [] :=
    deref_append_nul_eq_zero_iff fun h ↦ hnul (hread.split ▸ List.mem_append_right _ h)
  rw [List.append_assoc] at hcopy
  by_cases hend : m'' = []
  · refine ⟨row, m'', m', after₂, hread, ?_⟩
    rw [rowsPass, rowPass, if_pos hgo, if_pos hend]
    refine hmargin.bind (hcopy.bind ?_)
    dsimp only
    rw [hread.skip, if_pos (hzero.2 hend), hend]
    exact returns_pure _
  · refine ⟨row, m'', m', after₂.tail, hread, ?_⟩
    rw [rowsPass, rowPass, if_pos hgo, if_neg hend]
    refine hmargin.bind (hcopy.bind ?_)
    dsimp only
    rw [hread.skip, if_neg fun h ↦ hend (hzero.1 h)]
    exact returns_pure _

/-- The rows written so far, each with its newline. -/
def rowsText (leftMargin : U32) (rows : List (Row U8)) : List U8 :=
  rows.flatMap fun row ↦ marginText leftMargin ++ row.chunk ++ [0x0A]

/-- **The loop** writes the rows of a layout of the message. The last one is not empty. -/
theorem rows_returns {msg : List U8} (hmsg : msg ≠ []) (hnul : 0 ∉ msg) (rest ostr : List U8) :
    ∃ s, (loop (rowsPass leftMargin len) ⟨msg ++ 0 :: rest, ⟨[], ostr⟩, 0⟩).Returns s ∧
      ∃ rows last, (Layout 0x0A len.toNat msg rows last ∧ last.source 0x0A ≠ []) ∧
        s.ostr.before = rowsText leftMargin rows ++ (marginText leftMargin ++ last.chunk) ∧
        s.r = BitVec.ofNat 32 last.chunk.length := by
  refine exists_returns_of_variant
    (fun s : Columns ↦ ∃ rows m, s.istr = m ++ 0 :: rest ∧ m ≠ [] ∧
      Broken 0x0A len.toNat msg m rows ∧ s.ostr.before = rowsText leftMargin rows) _
    (fun s ↦ s.istr.length) ?_ ⟨[], msg, rfl, hmsg, broken_nil _ _ _, rfl⟩
  rintro ⟨istr, cur, r⟩ ⟨rows, m, rfl, hm, hbroken, hbefore⟩
  have hnulm : 0 ∉ m := fun h ↦ hnul (hbroken.source_eq ▸ List.mem_append_right _ h)
  obtain ⟨row, m'', m', after, hread, hret⟩ :=
    rowPass_returns hleft hlen hpos hnulm hm rest cur r
  dsimp only at hbefore
  rw [hread.split] at hbroken
  by_cases hend : m'' = []
  · rw [if_pos hend, hbefore] at hret
    rw [hend, List.append_nil] at hbroken
    have hsource : row.source 0x0A ≠ [] := fun h ↦ hm (by rw [hread.split, h, hend]; rfl)
    exact Or.inl ⟨_, hret, rows, row, ⟨hbroken.layout hread.fits, hsource⟩, rfl, rfl⟩
  · rw [if_neg hend, hbefore] at hret
    refine Or.inr ⟨_, hret, ⟨rows ++ [row], m'', rfl, hend,
      hbroken.concat hread.fits (hread.ends hend), ?_⟩, ?_⟩
    · rw [rowsText, rowsText, List.flatMap_append, List.flatMap_singleton, List.append_assoc]
    · have hlt := hread.lt
      simp only [List.length_append]
      omega

end Rows

/-! ### The whole output -/

/-- `screen_width - (left_margin + right_margin)`, without wrap-around. -/
def columnWidth (screenWidth leftMargin rightMargin : U32) : ℤ :=
  screenWidth.toInt - (leftMargin.toInt + rightMargin.toInt)

/-- The word that holds the width. -/
theorem toNat_columnWidth {screenWidth leftMargin rightMargin : U32} (hleft : 0 ≤ leftMargin.toInt)
    (hright : 0 ≤ rightMargin.toInt) (hwidth : 1 ≤ columnWidth screenWidth leftMargin rightMargin) :
    (screenWidth - (leftMargin + rightMargin)).toNat =
        (columnWidth screenWidth leftMargin rightMargin).toNat ∧
      2 * (screenWidth - (leftMargin + rightMargin)).toNat < 2 ^ 32 := by
  rw [columnWidth] at hwidth ⊢
  have hl := two_mul_toNat_lt hleft
  have hr := two_mul_toNat_lt hright
  have hs : 2 * screenWidth.toNat < 2 ^ 32 := two_mul_toNat_lt (by omega)
  rw [BitVec.toInt_eq_toNat_of_lt hl, BitVec.toInt_eq_toNat_of_lt hr,
    BitVec.toInt_eq_toNat_of_lt hs] at hwidth ⊢
  bv_omega

/-- The last row is filled up to the width. -/
theorem fill_returns {len r : U32} (hlen : 2 * len.toNat < 2 ^ 32) (hr : r.toNat ≤ len.toNat)
    (fillbyte : U8) (ostr : Buf) :
    ∃ after, (if r.slt len then
        forBelow (len - r) (fun ostr _ ↦ pure (ostr.put fillbyte)) ostr
      else pure ostr : Fuelled Buf).Returns
      ⟨ostr.before ++ List.replicate (len.toNat - r.toNat) fillbyte, after⟩ := by
  have hslt : r.slt len = true ↔ r.toNat < len.toNat := slt_iff (by omega) hlen
  split
  · have hput : ∀ (ostr : Buf) (_ : U32), ∃ after,
        (pure (ostr.put fillbyte) : Fuelled Buf).Returns ⟨ostr.before ++ [fillbyte], after⟩ :=
      fun ostr _ ↦ ⟨ostr.after.tail, returns_pure _⟩
    obtain ⟨after, hret⟩ := forBelow_stores (n := len - r) hput ostr
    have hcount : (len - r).toNat = len.toNat - r.toNat := BitVec.toNat_sub_of_le hr
    rw [toNat_toInt (by omega), hcount] at hret
    exact ⟨after, hret⟩
  · rename_i hfull
    rw [hslt] at hfull
    rw [Nat.sub_eq_zero_of_le (Nat.le_of_not_lt hfull)]
    exact ⟨ostr.after, (List.append_nil ostr.before).symm ▸ returns_pure ostr⟩

/-- The rows as they are printed, the last one filled up. -/
def printedRows (leftMargin : U32) (w : ℕ) (fillbyte : U8) (rows : List (Row U8)) (last : Row U8) :
    List (List U8) :=
  rows.map (fun row ↦ marginText leftMargin ++ row.chunk) ++
    [marginText leftMargin ++ (last.chunk ++ List.replicate (w - last.chunk.length) fillbyte)]

/-- What is printed splits into the rows. -/
theorem splitOn_rowsText {leftMargin : U32} {w : ℕ} {fillbyte : U8} {msg : List U8}
    {rows : List (Row U8)} {last : Row U8} (hfill : fillbyte ≠ 0x0A)
    (h : Layout 0x0A w msg rows last) :
    (rowsText leftMargin rows ++ (marginText leftMargin ++
      (last.chunk ++ List.replicate (w - last.chunk.length) fillbyte))).splitOn 0x0A =
      printedRows leftMargin w fillbyte rows last := by
  have hmargin : 0x0A ∉ marginText leftMargin := fun hmem ↦ by
    rcases List.mem_append.1 hmem with hmem | hmem
    · exact absurd (List.eq_of_mem_replicate hmem) (by decide)
    · exact absurd (List.eq_of_mem_replicate hmem) (by decide)
  have hpad : 0x0A ∉ List.replicate (w - last.chunk.length) fillbyte := fun hmem ↦
    hfill (List.eq_of_mem_replicate hmem).symm
  have hrows : ∀ l ∈ rows.map (fun row ↦ marginText leftMargin ++ row.chunk), 0x0A ∉ l := by
    rw [List.forall_mem_map]
    intro row hrow
    rw [List.mem_append]
    exact not_or.2 ⟨hmargin, (h.fits row hrow).not_mem⟩
  have hlast : 0x0A ∉ marginText leftMargin ++
      (last.chunk ++ List.replicate (w - last.chunk.length) fillbyte) := by
    rw [List.mem_append, List.mem_append]
    exact not_or.2 ⟨hmargin, not_or.2 ⟨h.last_fits.not_mem, hpad⟩⟩
  have hsplit := splitOn_rows hrows hlast
  rw [List.flatMap_map] at hsplit
  exact hsplit

/-- The call returns, with the rows of a layout of the message. -/
theorem columnlizeString_returns {msg : List U8} (rest ostr : List U8)
    {screenWidth leftMargin rightMargin : U32} (fillbyte : U8) (hmsg : msg ≠ []) (hnul : 0 ∉ msg)
    (hleft : 0 ≤ leftMargin.toInt) (hright : 0 ≤ rightMargin.toInt)
    (hwidth : 1 ≤ columnWidth screenWidth leftMargin rightMargin) :
    ∃ after rows last,
      (Layout 0x0A (columnWidth screenWidth leftMargin rightMargin).toNat msg rows last ∧
        last.source 0x0A ≠ []) ∧
      (columnlizeString (msg ++ 0 :: rest) ostr screenWidth leftMargin rightMargin fillbyte).Returns
        (some ⟨rowsText leftMargin rows ++ (marginText leftMargin ++ (last.chunk ++ List.replicate
          ((columnWidth screenWidth leftMargin rightMargin).toNat - last.chunk.length) fillbyte)),
          0 :: after⟩) := by
  obtain ⟨hw, hlen⟩ := toNat_columnWidth hleft hright hwidth
  have hpos : 1 ≤ (screenWidth - (leftMargin + rightMargin)).toNat := by omega
  obtain ⟨s, hloop, rows, last, ⟨hlayout, hsource⟩, hbefore, hr⟩ := rows_returns
    (two_mul_toNat_lt hleft) hlen hpos hmsg hnul rest ostr
  have hle := hlayout.last_fits.length_le
  have hr' : s.r.toNat = last.chunk.length := by
    rw [hr, BitVec.toNat_ofNat, Nat.mod_eq_of_lt (by omega)]
  obtain ⟨after, hfill⟩ := fill_returns hlen (hr' ▸ hle) fillbyte s.ostr
  have hslt : ¬ (screenWidth - (leftMargin + rightMargin)).slt 1 := by
    rw [slt_iff hlen (by decide)]
    exact Nat.not_lt.2 hpos
  rw [hr', hbefore, hw, List.append_assoc, List.append_assoc] at hfill
  rw [hw] at hlayout
  refine ⟨after.tail, rows, last, ⟨hlayout, hsource⟩, ?_⟩
  rw [columnlizeString, if_neg hslt]
  exact hloop.bind (hfill.bind (returns_pure _))

/-- **The message in its column.** The call returns; its output splits at the newlines into rows of
the left margin and a chunk of the message, the last one filled up to the width; and the chunks are
a layout of the message, of which they lose only the newlines. -/
theorem columnlizeString_columns (msg rest ostr : List U8)
    (screenWidth leftMargin rightMargin : U32) (fillbyte : U8) (hmsg : msg ≠ []) (hnul : 0 ∉ msg)
    (hfill : fillbyte ≠ 0x0A) (hleft : 0 ≤ leftMargin.toInt) (hright : 0 ≤ rightMargin.toInt)
    (hwidth : 1 ≤ columnWidth screenWidth leftMargin rightMargin) :
    ∃ out after,
      (columnlizeString (msg ++ 0 :: rest) ostr screenWidth leftMargin rightMargin fillbyte).Returns
        (some ⟨out, 0 :: after⟩) ∧
      ∃ rows last,
        Layout 0x0A (columnWidth screenWidth leftMargin rightMargin).toNat msg rows last ∧
        rows.flatMap Row.chunk ++ last.chunk = msg.filter (fun c ↦ c ≠ 0x0A) ∧
        out.splitOn 0x0A = printedRows leftMargin
          (columnWidth screenWidth leftMargin rightMargin).toNat fillbyte rows last := by
  obtain ⟨after, rows, last, ⟨hlayout, -⟩, hret⟩ :=
    columnlizeString_returns rest ostr fillbyte hmsg hnul hleft hright hwidth
  exact ⟨_, after, hret, rows, last, hlayout, hlayout.flatMap_chunk,
    splitOn_rowsText hfill hlayout⟩

/-- `The boot` over a newline and `log`, in five columns between margins of five and two. -/
def wrapped : List U8 := [0x54, 0x68, 0x65, 0x20, 0x62, 0x6F, 0x6F, 0x74, 0x0A, 0x6C, 0x6F, 0x67]

theorem columnlizeString_columns_wrapped :
    ∃ out after,
      (columnlizeString (wrapped ++ 0 :: [0x21]) [] 12 5 2 0x2E).Returns (some ⟨out, 0 :: after⟩) ∧
      ∃ rows last, Layout 0x0A (columnWidth 12 5 2).toNat wrapped rows last ∧
        rows.flatMap Row.chunk ++ last.chunk = wrapped.filter (fun c ↦ c ≠ 0x0A) ∧
        out.splitOn 0x0A = printedRows 5 (columnWidth 12 5 2).toNat 0x2E rows last :=
  columnlizeString_columns wrapped [0x21] [] 12 5 2 0x2E (by decide) (by decide) (by decide)
    (by decide) (by decide) (by decide)

end Ganoid
