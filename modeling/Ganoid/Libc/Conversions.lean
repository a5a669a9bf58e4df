import Ganoid.Libc.Format

/-!
# What one conversion does to the next

Of all that `vsprintf` keeps from one conversion to the next, a later one can be affected by a
single bit: `flags` is never set back, so once a conversion has had the flag `-`, every later one is
written as if it had it too, and the width it gives is negated.

The text of a format is then that of its two halves unless the first has the flag and a width of the
second is really changed by it, as long as `vsprintf` returns from them at all
(`conversions_independent_iff`). A negated width shows wherever the field has room to spare, since
zeros are put before a number and dots behind it (`pad_neg_iff`).
-/

namespace Ganoid.Vsprintf

/-! ### Negated widths -/

/-- A word that is not its own negation is positive, or its negation is. -/
theorem pos_toInt_iff {w : U32} (h : -w ≠ w) : 0 < (-w).toInt ↔ ¬ 0 < w.toInt := by
  have hne : w.toNat ≠ 0 ∧ w.toNat ≠ 2 ^ 31 := by
    constructor <;> intro heq <;> apply h <;> bv_omega
  rw [BitVec.toInt_eq_toNat_cond, BitVec.toInt_eq_toNat_cond, BitVec.toNat_neg]
  split <;> split <;> omega

theorem digitChar_ne_dot (d : ℕ) : digitChar d ≠ 0x2E := by
  have hall : (0 :: carray).all (fun c ↦ c != 0x2E) = true := rfl
  have hmem : digitChar d ∈ 0 :: carray := by
    rw [digitChar, List.getD_eq_getElem?_getD]
    rcases hd : carray[d]? with - | c
    · exact List.mem_cons_self
    · exact List.mem_cons_of_mem _ (List.mem_of_getElem? hd)
  exact bne_iff_ne.1 (List.all_eq_true.1 hall _ hmem)

/-- In a field with room to spare there are dots just where the width is not positive. -/
theorem dot_mem_pad_iff {w : U32} {ds : List ℕ} (hroom : ds.length < w.toInt.natAbs) :
    0x2E ∈ pad w ds ↔ ¬ 0 < w.toInt := by
  have hdigits : (0x2E : U8) ∉ ds.map digitChar := fun hmem ↦ by
    obtain ⟨d, -, hd⟩ := List.mem_map.1 hmem
    exact digitChar_ne_dot d hd
  have hne : padding w ds ≠ 0 := Nat.sub_ne_zero_of_lt hroom
  rw [pad]
  split
  · next hpos =>
    have hzeros : (0x2E : U8) ∉ List.replicate (padding w ds) 0x30 := fun hmem ↦
      absurd (List.eq_of_mem_replicate hmem) (by decide)
    exact iff_of_false (fun hmem ↦ (List.mem_append.1 hmem).elim hzeros hdigits)
      (not_not_intro hpos)
  · next hpos =>
    exact iff_of_true (List.mem_append_right _ (List.mem_replicate.2 ⟨hne, rfl⟩)) hpos

/-- **A negated width shows**, unless it is the same width or the digits fill the field. -/
theorem pad_neg_iff (w : U32) (ds : List ℕ) :
    pad (-w) ds = pad w ds ↔ -w = w ∨ w.toInt.natAbs ≤ ds.length := by
  constructor
  · intro h
    by_contra hnot
    obtain ⟨hne, hroom⟩ := not_or.1 hnot
    have hdots := dot_mem_pad_iff (Nat.lt_of_not_le hroom)
    have hdots' := @dot_mem_pad_iff (-w) ds (by rw [natAbs_toInt_neg]; exact Nat.lt_of_not_le hroom)
    rw [h, hdots, pos_toInt_iff hne, not_not] at hdots'
    exact not_iff_self hdots'
  · rintro (h | h)
    · rw [h]
    · rw [pad_of_le h, pad_of_le (by rwa [natAbs_toInt_neg])]

/-! ### Formats that do not show it -/

/-- Whether a value has the same text in a field and in that of the negated width. -/
def Operand.Symmetric (w : U32) : Operand → Prop
  | int spec val =>
    -w = w ∨ w.toInt.natAbs ≤ (itoaDigits val spec.base spec.unsignedvalue).length
  | _ => True

/-- Whether the conversions before the first one with the flag `-` convert to the same text with
their widths negated. -/
def Symmetric : List Item → Prop
  | [] => True
  | .literal _ _ _ :: items => Symmetric items
  | .conversion c :: items =>
    c.hasLeft = true ∨ c.operand.Symmetric (c.width.value 0) ∧ Symmetric items

theorem Operand.text_neg_iff (o : Operand) (w : U32) : o.text (-w) = o.text w ↔ o.Symmetric w := by
  cases o with
  | int spec val =>
    rw [text, text, itoaText, itoaText, List.append_cancel_left_eq, List.append_cancel_left_eq]
    exact pad_neg_iff w _
  | char val => exact iff_of_true rfl trivial
  | str s => exact iff_of_true rfl trivial

theorem Operand.length_text_neg (o : Operand) (w : U32) :
    (o.text (-w)).length = (o.text w).length := by
  cases o with
  | int spec val => simp [text, itoaText, length_pad, natAbs_toInt_neg]
  | char val => rfl
  | str s => rfl

/-- **What the flag `-` of an earlier format does to a text.** -/
theorem text_true_eq_iff (items : List Item) :
    text true items = text false items ↔ Symmetric items := by
  induction items with
  | nil => exact iff_of_true rfl trivial
  | cons i items ih =>
    cases i with
    | literal c hpercent hnul =>
      rw [text, text, Item.text, Item.text, List.append_cancel_left_eq]
      exact ih
    | conversion c =>
      rw [text, text, Item.text, Item.text, Item.hasLeft, Bool.true_or, Bool.false_or, Symmetric]
      cases hleft : c.hasLeft with
      | true =>
        have hsame : c.text true = c.text false := by
          rw [Conversion.text, Conversion.text, Directive.fieldwidth, Directive.fieldwidth, hleft]
          rfl
        rw [hsame]
        exact iff_of_true rfl (Or.inl rfl)
      | false =>
        have htrue : c.text true = c.operand.text (-c.width.value 0) := rfl
        have hfalse : c.text false = c.operand.text (c.width.value 0) := by
          rw [Conversion.text, Directive.fieldwidth, hleft]
          rfl
        rw [htrue, hfalse, ← ih, ← c.operand.text_neg_iff]
        refine ⟨fun h ↦ Or.inr (List.append_inj h (c.operand.length_text_neg _)), ?_⟩
        rintro (h | ⟨hconv, hitems⟩)
        · exact absurd h Bool.false_ne_true
        · rw [hconv, hitems]

/-- Two formats are written one after the other as they are written alone. -/
def Independent (items items' : List Item) : Prop :=
  ∃ t t', Writes (spell items) (args items) t ∧ Writes (spell items') (args items') t' ∧
    Writes (spell items ++ spell items') (args items ++ args items') (t ++ t')

/-- The second of two formats is written as if the flags of the first were its own. -/
theorem independent_iff (items items' : List Item) :
    Independent items items' ↔
      (AllFit items ∧ AllFit items') ∧ text (hasLeft items) items' = text false items' := by
  have hwrites := fun hfit hfit' ↦ @writes_text (items ++ items') (allFit_append_iff.2 ⟨hfit, hfit'⟩)
  rw [spell, args, List.flatMap_append, List.flatMap_append, text_append, Bool.false_or] at hwrites
  constructor
  · rintro ⟨t, t', ht, ht', happend⟩
    have hfit := allFit_of_writes ht
    have hfit' := allFit_of_writes ht'
    rw [ht.unique (writes_text hfit), ht'.unique (writes_text hfit')] at happend
    exact ⟨⟨hfit, hfit'⟩, List.append_cancel_left ((hwrites hfit hfit').unique happend)⟩
  · rintro ⟨⟨hfit, hfit'⟩, h⟩
    have happend := hwrites hfit hfit'
    rw [h] at happend
    exact ⟨_, _, writes_text hfit, writes_text hfit', happend⟩

/-- **Conversions are independent** only as far as their integers fit, and the flag `-` of the first
format changes nothing in the second. -/
theorem conversions_independent_iff (items items' : List Item) :
    Independent items items' ↔
      (AllFit items ∧ AllFit items') ∧ (hasLeft items = false ∨ Symmetric items') := by
  rw [independent_iff]
  refine and_congr_right fun _ ↦ ?_
  cases hasLeft items with
  | true =>
    rw [text_true_eq_iff]
    exact ⟨Or.inr, fun h ↦ h.resolve_left Bool.true_eq_false_eq_False⟩
  | false => exact iff_of_true rfl (Or.inl rfl)

/-- `%-d` of 5. -/
def leftFive : Item := .conversion ⟨⟨[.left], .absent, none, false⟩, .int .d 5⟩

/-- `%5d` of 7. -/
def wideSeven : Item := .conversion ⟨⟨[], .digits 4 [], none, false⟩, .int .d 7⟩

/-- Behind `%-d`, `%5d` writes `7....` instead of `00007`. -/
theorem not_independent_leftFive_wideSeven :
    spell [leftFive] = [0x25, 0x2D, 0x64] ∧ spell [wideSeven] = [0x25, 0x35, 0x64] ∧
      ¬ Independent [leftFive] [wideSeven] := by
  refine ⟨by decide, by decide, fun h ↦ ?_⟩
  have htext := ((independent_iff _ _).1 h).2
  exact absurd htext (by decide)

end Ganoid.Vsprintf
