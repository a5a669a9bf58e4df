import Ganoid.Libc.Directive

/-!
# Formats and their texts

A format whose conversions are complete, with the arguments that match it, is a list of items. An
item is a character or a conversion, a conversion carries the values it is to write, and an item
*spells* its part of the format and *takes* its part of the arguments.

The text of a list of items is a function of the items and of whether the flag `-` is set when the
first of them is reached (`text`). It is by this one bit that a conversion knows anything of those
before it. `vsprintf` writes that text if every integer has a field that fits in the array it is
written to first (`exists_wrote`), and otherwise it does not return (`fits_of_loop_returns`).
-/

open Fuelled

namespace Ganoid.Vsprintf

/-! ### Formats -/

/-- The conversions of an integer. -/
inductive IntSpec
  | d
  | i
  | u
  | x
  | p

namespace IntSpec

def char : IntSpec → U8
  | d => 0x64
  | i => 0x69
  | u => 0x75
  | x => 0x78
  | p => 0x70

/-- What is written before the digits and the sign. -/
def lead : IntSpec → List U8
  | p => [0x30, 0x78]
  | _ => []

/-- The base of the digits. -/
def base : IntSpec → U32
  | d => 10
  | i => 10
  | u => 10
  | x => 16
  | p => 16

/-- The argument `unsignedvalue` of `itoa`. -/
def unsignedvalue : IntSpec → U32
  | d => 0
  | i => 0
  | _ => 1

end IntSpec

/-- A specifier and the value it converts. -/
inductive Operand
  | int (spec : IntSpec) (val : U32)
  | char (val : U32)
  | str (s : List U8)

namespace Operand

def spell : Operand → U8
  | int spec _ => spec.char
  | char _ => 0x63
  | str _ => 0x73

def arg : Operand → Arg
  | int _ val => .int val
  | char val => .int val
  | str s => .str s

/-- The text of a value in a field. -/
def text (fieldwidth : U32) : Operand → List U8
  | int spec val => spec.lead ++ itoaText val spec.base spec.unsignedvalue fieldwidth
  | char val => [val.setWidth 8]
  | str s => s.takeWhile fun c ↦ c ≠ 0

end Operand

/-- A complete conversion, with what it converts. -/
structure Conversion extends Directive where
  operand : Operand

namespace Conversion

def spell (c : Conversion) : List U8 := c.toDirective.spell c.operand.spell

def args (c : Conversion) : List Arg := c.width.args ++ [c.operand.arg]

/-- The text of the conversion. -/
def text (left : Bool) (c : Conversion) : List U8 := c.operand.text (c.fieldwidth left 0)

/-- Whether the field of a conversion is short enough for `str`, if it is of an integer. -/
def Fits (c : Conversion) : Prop :=
  match c.operand with
  | .int spec val =>
    spec.lead.length + (if IsNegative val spec.base spec.unsignedvalue then 1 else 0) +
      (c.width.value 0).toInt.natAbs < strSize
  | _ => True

instance (c : Conversion) : Decidable c.Fits :=
  match c with
  | ⟨_, .int _ _⟩ => inferInstanceAs (Decidable (_ < _))
  | ⟨_, .char _⟩ => inferInstanceAs (Decidable True)
  | ⟨_, .str _⟩ => inferInstanceAs (Decidable True)

end Conversion

/-- One item of a format. -/
inductive Item
  | literal (c : U8) (hpercent : c ≠ 0x25) (hnul : c ≠ 0)
  | conversion (c : Conversion)

namespace Item

def spell : Item → List U8
  | literal c _ _ => [c]
  | conversion c => c.spell

def args : Item → List Arg
  | literal _ _ _ => []
  | conversion c => c.args

def hasLeft : Item → Bool
  | literal _ _ _ => false
  | conversion c => c.hasLeft

def text (left : Bool) : Item → List U8
  | literal c _ _ => [c]
  | conversion c => c.text left

end Item

/-- The format. -/
def spell (items : List Item) : List U8 := items.flatMap Item.spell

/-- The arguments. -/
def args (items : List Item) : List Arg := items.flatMap Item.args

/-- Whether some conversion has the flag `-`. -/
def hasLeft (items : List Item) : Bool := items.any Item.hasLeft

/-- The text, where `left` says whether the flag `-` was there before. -/
def text : Bool → List Item → List U8
  | _, [] => []
  | left, i :: items => i.text left ++ text (left || i.hasLeft) items

/-- The text of two formats, one after the other. -/
theorem text_append (left : Bool) (items items' : List Item) :
    text left (items ++ items') = text left items ++ text (left || hasLeft items) items' := by
  induction items generalizing left with
  | nil => simp [text, hasLeft]
  | cons i items ih =>
    rw [List.cons_append, text, text, ih, List.append_assoc, hasLeft, hasLeft, List.any_cons,
      Bool.or_assoc]

/-! ### Writing a conversion -/

theorem spell_mem_acceptedChars (o : Operand) : o.spell ∈ acceptedChars := by
  have hint : ∀ spec : IntSpec, spec.char ∈ acceptedChars := fun spec ↦ by
    cases spec <;> decide
  cases o with
  | int spec val => exact hint spec
  | char val => exact show (0x63 : U8) ∈ acceptedChars by decide
  | str s => exact show (0x73 : U8) ∈ acceptedChars by decide

theorem before_copyString (buf : Buf) (s : List U8) :
    (copyString buf s).before = buf.before ++ s.takeWhile fun c ↦ c ≠ 0 := by
  induction s generalizing buf with
  | nil => exact (List.append_nil _).symm
  | cons c s ih =>
    rw [copyString]
    by_cases hc : c = 0
    · rw [if_pos hc, List.takeWhile_cons_of_neg (by simpa using hc), List.append_nil]
    · rw [if_neg hc, ih, List.takeWhile_cons_of_pos (by simpa using hc), Buf.put, List.append_assoc,
        List.singleton_append]

/-- A character that `itoa` writes is not a NUL. -/
theorem ne_zero_of_mem_itoaText {value base unsignedvalue fieldwidth : U32} {c : U8}
    (hpos : 1 ≤ base.toNat) (hle : base.toNat ≤ 16)
    (hc : c ∈ itoaText value base unsignedvalue fieldwidth) : c ≠ 0 := by
  have hdigit : ∀ d : Fin 16, digitChar d ≠ 0 := by decide
  have hdigits : ∀ c ∈ (itoaDigits value base unsignedvalue).map digitChar, c ≠ 0 := fun c hc ↦ by
    obtain ⟨d, hd, rfl⟩ := List.mem_map.1 hc
    have hlt : d < base.toNat := Positional.lt_of_mem_numeral hpos hd
    exact hdigit ⟨d, by omega⟩
  rw [itoaText, List.mem_append] at hc
  rcases hc with hc | hc
  · split at hc
    · rw [List.mem_singleton.1 hc]
      decide
    · exact absurd hc List.not_mem_nil
  · rw [pad] at hc
    split at hc <;> rcases List.mem_append.1 hc with hc | hc
    · rw [List.eq_of_mem_replicate hc]
      decide
    · exact hdigits c hc
    · exact hdigits c hc
    · rw [List.eq_of_mem_replicate hc]
      decide

namespace IntSpec

theorem itoa_returns (spec : IntSpec) (val fieldwidth : U32) :
    (itoa val spec.base spec.unsignedvalue fieldwidth).Returns
      (itoaText val spec.base spec.unsignedvalue fieldwidth) := by
  cases spec with
  | d => exact itoa_ten_returns val 0 fieldwidth
  | i => exact itoa_ten_returns val 0 fieldwidth
  | u => exact itoa_ten_returns val 1 fieldwidth
  | x => exact itoa_sixteen_returns val 1 fieldwidth
  | p => exact itoa_sixteen_returns val 1 fieldwidth

theorem base_le (spec : IntSpec) : 1 ≤ spec.base.toNat ∧ spec.base.toNat ≤ 16 := by
  cases spec <;> decide

/-- The string that is copied for an integer has no NUL in it. -/
theorem takeWhile_text (spec : IntSpec) (val fieldwidth : U32) :
    ((Operand.int spec val).text fieldwidth).takeWhile (fun c ↦ c ≠ 0) =
      (Operand.int spec val).text fieldwidth := by
  refine List.takeWhile_eq_self_iff.2 fun c hc ↦ ?_
  rw [decide_eq_true_iff]
  rcases List.mem_append.1 hc with hc | hc
  · have hlead : ∀ spec : IntSpec, ∀ c ∈ spec.lead, c ≠ 0 := fun spec ↦ by
      cases spec <;> decide
    exact hlead spec c hc
  · exact ne_zero_of_mem_itoaText spec.base_le.1 spec.base_le.2 hc

end IntSpec

/-! ### Fields that fit -/

theorem natAbs_toInt_neg (w : U32) : (-w).toInt.natAbs = w.toInt.natAbs := by
  rw [BitVec.toInt_eq_toNat_cond, BitVec.toInt_eq_toNat_cond, BitVec.toNat_neg]
  split <;> split <;> omega

theorem length_pad (w : U32) (ds : List ℕ) : (pad w ds).length = max w.toInt.natAbs ds.length := by
  rw [pad, padding]
  split <;> simp <;> omega

/-- The text of an integer fits in `str`, with its NUL. -/
def Operand.FitsIn (fieldwidth : U32) : Operand → Prop
  | int spec val => ((int spec val).text fieldwidth).length < strSize
  | _ => True

theorem IntSpec.length_itoaDigits_le (spec : IntSpec) (val : U32) :
    (itoaDigits val spec.base spec.unsignedvalue).length ≤ 10 := by
  have hbase : 10 ≤ spec.base.toNat := by cases spec <;> decide
  rw [itoaDigits, Positional.length_numeral]
  refine Nat.log_lt_of_lt_pow' (by decide) ?_
  calc (magnitude val spec.base spec.unsignedvalue).toNat
      < 2 ^ 32 := (magnitude val spec.base spec.unsignedvalue).isLt
    _ ≤ 10 ^ 10 := by decide
    _ ≤ spec.base.toNat ^ 10 := Nat.pow_le_pow_left hbase 10

namespace Conversion

theorem natAbs_fieldwidth (c : Conversion) (left : Bool) (fieldwidth : U32) :
    (c.fieldwidth left fieldwidth).toInt.natAbs = (c.width.value fieldwidth).toInt.natAbs := by
  rw [Directive.fieldwidth]
  split
  · exact natAbs_toInt_neg _
  · rfl

/-- The text of a conversion fits as long as its field does, because no number has more than ten
digits. -/
theorem fitsIn_iff (c : Conversion) (left : Bool) :
    c.operand.FitsIn (c.fieldwidth left 0) ↔ c.Fits := by
  rw [Fits]
  rcases c.operand with ⟨spec, val⟩ | val | t
  · have hdigits := spec.length_itoaDigits_le val
    have hlead : spec.lead.length ≤ 2 := by cases spec <;> decide
    rw [Operand.FitsIn, Operand.text, itoaText, strSize]
    simp only [List.length_append, length_pad, c.natAbs_fieldwidth]
    split <;> simp <;> omega
  · exact Iff.rfl
  · exact Iff.rfl

end Conversion

theorem IntSpec.getConvSpecifier_mem (spec : IntSpec) (fmt : List U8) :
    getConvSpecifier (spec.char :: fmt) ≠ 0x73 ∧
      getConvSpecifier (spec.char :: fmt) ∈ intSpecifiers := by
  show getConvSpecifier [spec.char] ≠ 0x73 ∧ getConvSpecifier [spec.char] ∈ intSpecifiers
  cases spec <;> decide

/-- The string in `str` is the text of the integer. -/
theorem IntSpec.itoaStr_returns (spec : IntSpec) (fmt : List U8) (fieldwidth val : U32) :
    (itoaStr (getConvSpecifier (spec.char :: fmt)) fieldwidth val).Returns
      ((Operand.int spec val).text fieldwidth) := by
  have hitoa := spec.itoa_returns val fieldwidth
  cases spec with
  | p => exact hitoa.bind (returns_pure _)
  | d => exact hitoa
  | i => exact hitoa
  | u => exact hitoa
  | x => exact hitoa

/-- **`realize_string`** writes the text of its value, if it fits, and consumes it. -/
theorem realizeString_returns (buf : Buf) {o : Operand} {fieldwidth : U32}
    (hfits : o.FitsIn fieldwidth) : ∃ after,
    ∀ (flags precision lengthModifier : U32) (fmt : List U8) (vl : List Arg),
      (realizeString buf flags fieldwidth precision lengthModifier
        (getConvSpecifier (o.spell :: fmt)) (o.arg :: vl)).Returns
        (⟨buf.before ++ o.text fieldwidth, 0 :: after⟩, vl) := by
  have hend : ∀ (cur : Buf) (t : List U8), cur.before = buf.before ++ t →
      ∃ after, cur.terminate = ⟨buf.before ++ t, 0 :: after⟩ := fun cur t h ↦
    ⟨cur.after.tail, by rw [← h]; rfl⟩
  cases o with
  | int spec val =>
    obtain ⟨after, hafter⟩ := hend (copyString buf ((Operand.int spec val).text fieldwidth)) _
      (by rw [before_copyString, spec.takeWhile_text])
    refine ⟨after, fun flags precision lengthModifier fmt vl ↦ hafter ▸ ?_⟩
    refine Returns.bind (a := (buf, (Operand.int spec val).text fieldwidth, vl)) ?_
      (returns_pure _)
    obtain ⟨hs, hint⟩ := spec.getConvSpecifier_mem fmt
    rw [Operand.spell, if_neg hs, if_pos hint]
    refine (returns_pure (val, vl)).bind ((spec.itoaStr_returns fmt fieldwidth val).bind ?_)
    rw [if_pos (show ((Operand.int spec val).text fieldwidth).length < strSize from hfits)]
    exact returns_pure _
  | char val =>
    refine ⟨buf.after.tail.tail, fun flags precision lengthModifier fmt vl ↦
      Returns.bind (a := (buf.put (val.setWidth 8), [], vl)) ?_ (returns_pure _)⟩
    exact (returns_pure (val, vl)).bind (returns_pure _)
  | str ch =>
    obtain ⟨after, hafter⟩ := hend (copyString buf ch) _ (before_copyString buf ch)
    refine ⟨after, fun flags precision lengthModifier fmt vl ↦ hafter ▸
      Returns.bind (a := (copyString buf ch, [], vl)) ?_ (returns_pure _)⟩
    exact (returns_pure (ch, vl)).bind (returns_pure _)

/-- **It does not return** from an integer that does not fit. -/
theorem fitsIn_of_realizeString_returns {buf : Buf} {o : Operand}
    {flags fieldwidth precision lengthModifier : U32} {fmt : List U8} {vl : List Arg}
    {w : Buf × List Arg} (h : (realizeString buf flags fieldwidth precision lengthModifier
      (getConvSpecifier (o.spell :: fmt)) (o.arg :: vl)).Returns w) : o.FitsIn fieldwidth := by
  cases o with
  | char val => trivial
  | str ch => trivial
  | int spec val =>
    obtain ⟨hs, hint⟩ := spec.getConvSpecifier_mem fmt
    obtain ⟨_, h, -⟩ := returns_bind_iff.1 h
    rw [Operand.spell, if_neg hs, if_pos hint] at h
    obtain ⟨_, harg, h⟩ := returns_bind_iff.1 h
    obtain rfl := returns_pure_iff.1 harg
    obtain ⟨str, hstr, h⟩ := returns_bind_iff.1 h
    obtain rfl := hstr.unique (spec.itoaStr_returns fmt fieldwidth val)
    split at h
    · assumption
    · exact absurd h not_returns_never

/-! ### The loop -/

/-- **A conversion** is read, and the call of `realize_string` consumes its value. -/
theorem readCall_conversion (s : State) (c : Conversion) (fmt : List U8) (vl : List Arg) :
    ∃ precision lengthModifier,
    (readCall { s with fmt := c.spell ++ fmt, vl := c.args ++ vl }).Returns
      (.inl ⟨s.buf, fmt, c.operand.arg :: vl, setFlags s.flags c.flags,
        c.fieldwidth (isLeft s.flags) s.fieldwidth, precision, lengthModifier,
        getConvSpecifier [c.operand.spell]⟩) := by
  obtain ⟨precision, lengthModifier, h⟩ := readCall_directive s c.toDirective
    (spell_mem_acceptedChars c.operand) fmt (c.operand.arg :: vl)
  have hargs : c.args ++ vl = c.width.args ++ (c.operand.arg :: vl) := by
    simp [Conversion.args]
  refine ⟨precision, lengthModifier, ?_⟩
  rw [hargs]
  exact h

/-- A field that is not longer than the digits adds nothing to them. -/
theorem pad_of_le {fieldwidth : U32} {ds : List ℕ} (h : fieldwidth.toInt.natAbs ≤ ds.length) :
    pad fieldwidth ds = ds.map digitChar := by
  have hnone : padding fieldwidth ds = 0 := Nat.sub_eq_zero_of_le h
  rw [pad, hnone]
  split <;> simp

/-- The width that the loop starts with makes no difference: a field of one character or none is
full. -/
theorem Operand.text_of_narrow (o : Operand) {fieldwidth : U32}
    (h : fieldwidth.toInt.natAbs ≤ 1) : o.text fieldwidth = o.text 0 := by
  cases o with
  | int spec val =>
    have hlength : 1 ≤ (itoaDigits val spec.base spec.unsignedvalue).length := by
      rw [itoaDigits, Positional.length_numeral]
      exact Nat.le_add_left 1 _
    have hzero : (0 : U32).toInt.natAbs ≤ 1 := by decide
    rw [text, text, itoaText, itoaText, pad_of_le (Nat.le_trans h hlength),
      pad_of_le (Nat.le_trans hzero hlength)]
  | char val => rfl
  | str s => rfl

/-- The width that a conversion finds matters only where it gives none of its own. -/
theorem Conversion.text_fieldwidth (c : Conversion) (left : Bool) {fieldwidth : U32}
    (h : fieldwidth = 0 ∨ fieldwidth = -1) :
    c.operand.text (c.fieldwidth left fieldwidth) = c.text left := by
  rcases h with rfl | rfl
  · rfl
  · rw [text, Directive.fieldwidth, Directive.fieldwidth]
    cases c.width with
    | digits first rest => rfl
    | star val => rfl
    | absent =>
      cases left || c.hasLeft with
      | true => exact c.operand.text_of_narrow (show (-(-1) : U32).toInt.natAbs ≤ 1 by decide)
      | false => exact c.operand.text_of_narrow (show (-1 : U32).toInt.natAbs ≤ 1 by decide)

theorem Conversion.fitsIn_fieldwidth_iff (c : Conversion) (left : Bool) {fieldwidth : U32}
    (h : fieldwidth = 0 ∨ fieldwidth = -1) :
    c.operand.FitsIn (c.fieldwidth left fieldwidth) ↔ c.Fits := by
  have htext := c.text_fieldwidth left h
  rw [← c.fitsIn_iff left]
  rw [text] at htext
  rcases hop : c.operand with ⟨spec, val⟩ | val | t
  · rw [hop] at htext
    rw [Operand.FitsIn, Operand.FitsIn, htext]
  · exact Iff.rfl
  · exact Iff.rfl

/-- It is written if it fits, and leaves the flags it has set. -/
theorem pass_conversion {s : State} {c : Conversion} (hfits : c.Fits)
    (hwidth : s.fieldwidth = 0 ∨ s.fieldwidth = -1) : ∃ after,
    ∀ (fmt : List U8) (vl : List Arg),
      (pass { s with fmt := c.spell ++ fmt, vl := c.args ++ vl }).Returns
        (.inl ⟨⟨s.buf.before ++ c.text (isLeft s.flags), 0 :: after⟩, fmt, vl,
          setFlags s.flags c.flags, 0, 0, 0, 0⟩) := by
  obtain ⟨after, hrealize⟩ := realizeString_returns s.buf
    ((c.fitsIn_fieldwidth_iff (isLeft s.flags) hwidth).2 hfits)
  rw [c.text_fieldwidth _ hwidth] at hrealize
  refine ⟨after, fun fmt vl ↦ ?_⟩
  obtain ⟨precision, lengthModifier, hcall⟩ := readCall_conversion s c fmt vl
  exact pass_of_readCall hcall
    (hrealize (setFlags s.flags c.flags) precision lengthModifier [] vl)

theorem fits_of_pass_returns {s : State} {c : Conversion}
    (hwidth : s.fieldwidth = 0 ∨ s.fieldwidth = -1) {fmt : List U8} {vl : List Arg}
    {r : State ⊕ Buf}
    (h : (pass { s with fmt := c.spell ++ fmt, vl := c.args ++ vl }).Returns r) : c.Fits := by
  obtain ⟨precision, lengthModifier, hcall⟩ := readCall_conversion s c fmt vl
  rcases pass_returns_iff.1 h with ⟨buf, hleave, -⟩ | ⟨c', hcall', w, hrealize, -⟩
  · exact absurd (hleave.unique hcall) Sum.inr_ne_inl
  · obtain rfl := Sum.inl.inj (hcall'.unique hcall)
    exact (c.fitsIn_fieldwidth_iff _ hwidth).1 (fitsIn_of_realizeString_returns hrealize)

/-- The integers of a format all fit. -/
def AllFit (items : List Item) : Prop := ∀ c, Item.conversion c ∈ items → c.Fits

theorem allFit_nil : AllFit [] := fun _ h ↦ absurd h List.not_mem_nil

theorem allFit_literal_iff {c : U8} {hpercent : c ≠ 0x25} {hnul : c ≠ 0} {items : List Item} :
    AllFit (.literal c hpercent hnul :: items) ↔ AllFit items := by
  simp [AllFit]

theorem allFit_conversion_iff {c : Conversion} {items : List Item} :
    AllFit (.conversion c :: items) ↔ c.Fits ∧ AllFit items := by
  simp [AllFit]

theorem allFit_append_iff {items items' : List Item} :
    AllFit (items ++ items') ↔ AllFit items ∧ AllFit items' := by
  simp only [AllFit, List.mem_append, or_imp, forall_and]

/-- The items that a format begins with are written: the loop goes on to what is behind them, with
their text in the buffer and their flags set. -/
structure Wrote (s s' : State) (items : List Item) : Prop where
  goes : ∀ (fmt : List U8) (vl : List Arg),
    Goes { s with fmt := spell items ++ fmt, vl := args items ++ vl }
      { s' with fmt := fmt, vl := vl }
  before : s'.buf.before = s.buf.before ++ text (isLeft s.flags) items
  isLeft : isLeft s'.flags = (isLeft s.flags || hasLeft items)
  narrow : s'.fieldwidth = 0 ∨ s'.fieldwidth = -1

/-- **The loop of `vsprintf` writes the text** that the items have after the flags it starts
with, if they fit. -/
theorem exists_wrote {items : List Item} (hfit : AllFit items) (s : State)
    (hwidth : s.fieldwidth = 0 ∨ s.fieldwidth = -1) : ∃ s', Wrote s s' items := by
  induction items generalizing s with
  | nil =>
    exact ⟨s, fun _ _ ↦ .refl _, (List.append_nil _).symm, (Bool.or_false _).symm, hwidth⟩
  | cons i items ih =>
    cases i with
    | literal c hpercent hnul =>
      obtain ⟨s', h⟩ := ih (allFit_literal_iff.1 hfit) { s with buf := s.buf.put c } hwidth
      refine ⟨s', fun fmt vl ↦ .literal (s := { s with vl := args items ++ vl }) hpercent hnul
        (h.goes fmt vl), ?_, h.isLeft, h.narrow⟩
      rw [h.before, text, Item.hasLeft, Bool.or_false, Item.text, ← List.append_assoc]
      rfl
    | conversion c =>
      obtain ⟨hc, hrest⟩ := allFit_conversion_iff.1 hfit
      obtain ⟨after, hpass⟩ := pass_conversion hc hwidth
      obtain ⟨s', h⟩ := ih hrest ⟨⟨s.buf.before ++ c.text (Vsprintf.isLeft s.flags), 0 :: after⟩,
        [], [], setFlags s.flags c.flags, 0, 0, 0, 0⟩ (Or.inl rfl)
      have hset : Vsprintf.isLeft (setFlags s.flags c.flags) =
          (Vsprintf.isLeft s.flags || c.hasLeft) := isLeft_setFlags s.flags c.flags
      refine ⟨s', fun fmt vl ↦ ?_, ?_, ?_, h.narrow⟩
      · have hrest := hpass (spell items ++ fmt) (args items ++ vl)
        rw [← List.append_assoc, ← List.append_assoc] at hrest
        exact .pass hrest (h.goes fmt vl)
      · rw [h.before, hset, List.append_assoc]
        rfl
      · rw [h.isLeft, hset, Bool.or_assoc]
        rfl

/-- **The loop does not return** from items of which one does not fit. -/
theorem fits_of_loop_returns {items : List Item} {s : State}
    (hwidth : s.fieldwidth = 0 ∨ s.fieldwidth = -1) {fmt : List U8} {vl : List Arg} {buf : Buf}
    (h : (loop pass { s with fmt := spell items ++ fmt, vl := args items ++ vl }).Returns buf) :
    AllFit items := by
  induction items generalizing s with
  | nil => exact allFit_nil
  | cons i items ih =>
    cases i with
    | literal c hpercent hnul =>
      have hgoes : Goes { s with fmt := c :: (spell items ++ fmt), vl := args items ++ vl }
          { s with buf := s.buf.put c, fmt := spell items ++ fmt, vl := args items ++ vl } :=
        .literal (s := { s with vl := args items ++ vl }) hpercent hnul (.refl _)
      exact allFit_literal_iff.2 (ih (s := { s with buf := s.buf.put c }) hwidth
        (hgoes.returns_iff.1 h))
    | conversion c =>
      have hspell : spell (.conversion c :: items) ++ fmt = c.spell ++ (spell items ++ fmt) :=
        List.append_assoc ..
      have hargs : args (.conversion c :: items) ++ vl = c.args ++ (args items ++ vl) :=
        List.append_assoc ..
      rw [hspell, hargs] at h
      rcases returns_loop_iff.1 h with hleave | ⟨t, hagain, hrest⟩
      · exact absurd hleave fun hleave ↦ by
          obtain ⟨after, hpass⟩ := pass_conversion (fits_of_pass_returns hwidth hleave) hwidth
          exact Sum.inr_ne_inl (hleave.unique (hpass _ _))
      · have hc := fits_of_pass_returns hwidth hagain
        obtain ⟨after, hpass⟩ := pass_conversion hc hwidth
        obtain rfl := Sum.inl.inj (hagain.unique (hpass _ _))
        exact allFit_conversion_iff.2 ⟨hc, ih (s := ⟨⟨_, 0 :: after⟩, [], [],
          setFlags s.flags c.flags, 0, 0, 0, 0⟩) (Or.inl rfl) hrest⟩

/-- What a format may have behind its items: nothing, or a `%` that nothing follows. -/
def ending (percent : Bool) : List U8 := if percent then [0x25] else []

/-- At either ending the loop is left without a call. -/
theorem readCall_ending (s : State) (percent : Bool) :
    (readCall { s with fmt := ending percent }).Returns (.inr s.buf.terminate) := by
  cases percent with
  | true => exact returns_pure _
  | false => exact returns_pure _

theorem loop_pass_ending (s : State) (percent : Bool) :
    (loop pass { s with fmt := ending percent }).Returns s.buf.terminate :=
  returns_loop_of_leave (pass_returns_iff.2 (Or.inl ⟨_, readCall_ending s percent, rfl⟩))

/-! ### Whole formats -/

/-- `vsprintf` writes the text `t`, whatever the buffer held. -/
def Writes (fmt : List U8) (vl : List Arg) (t : List U8) : Prop :=
  ∀ buf, ∃ after n, (vsprintf buf fmt vl).Returns (⟨t, 0 :: after⟩, n)

theorem Writes.unique {fmt : List U8} {vl : List Arg} {t t' : List U8} (h : Writes fmt vl t)
    (h' : Writes fmt vl t') : t = t' := by
  obtain ⟨after, n, hret⟩ := h []
  obtain ⟨after', n', hret'⟩ := h' []
  exact congrArg (fun r ↦ r.1.before) (hret.unique hret')

/-- The variables that `vsprintf` starts with. -/
def State.start (buf fmt : List U8) (vl : List Arg) : State := ⟨⟨[], buf⟩, fmt, vl, 0, -1, 0, -1, 0⟩

/-- The items of a format are written from the start. -/
theorem exists_wrote_start {items : List Item} (hfit : AllFit items) (buf : List U8) : ∃ s',
    Wrote (.start buf [] []) s' items ∧ s'.buf.before = text false items := by
  obtain ⟨s', h⟩ := exists_wrote hfit (.start buf [] []) (Or.inr rfl)
  refine ⟨s', h, ?_⟩
  have hleft : isLeft (State.start buf [] []).flags = false := by
    show isLeft 0 = false
    decide
  rw [h.before, hleft]
  exact List.nil_append _

/-- **`vsprintf` writes the text of its format** and returns 0, if the integers fit. -/
theorem vsprintf_ending {items : List Item} (hfit : AllFit items) (percent : Bool)
    (buf : List U8) (vl : List Arg) :
    ∃ after, (vsprintf buf (spell items ++ ending percent) (args items ++ vl)).Returns
      (⟨text false items, 0 :: after⟩, 0) := by
  obtain ⟨s', h, hbefore⟩ := exists_wrote_start hfit buf
  have hloop := (h.goes (ending percent) vl).returns_iff.2
    (loop_pass_ending { s' with vl := vl } percent)
  rw [Buf.terminate, hbefore] at hloop
  exact ⟨s'.buf.after.tail, hloop.bind (returns_pure _)⟩

/-- It returns from no others. -/
theorem allFit_of_vsprintf_returns {items : List Item} {buf fmt : List U8} {vl : List Arg}
    {r : Buf × U32} (h : (vsprintf buf (spell items ++ fmt) (args items ++ vl)).Returns r) :
    AllFit items := by
  obtain ⟨buf', hloop, -⟩ := returns_bind_iff.1 h
  exact fits_of_loop_returns (s := .start buf [] []) (Or.inr rfl) hloop

theorem writes_text {items : List Item} (hfit : AllFit items) :
    Writes (spell items) (args items) (text false items) := by
  intro buf
  obtain ⟨after, hret⟩ := vsprintf_ending hfit false buf []
  rw [ending, if_neg Bool.false_ne_true, List.append_nil, List.append_nil] at hret
  exact ⟨after, 0, hret⟩

theorem allFit_of_writes {items : List Item} {t : List U8}
    (h : Writes (spell items) (args items) t) : AllFit items := by
  obtain ⟨after, n, hret⟩ := h []
  rw [← List.append_nil (spell items), ← List.append_nil (args items)] at hret
  exact allFit_of_vsprintf_returns hret

end Ganoid.Vsprintf
