import Ganoid.Libc.Conversions

/-!
# The array that an integer is written to

`realize_string` has `itoa` write to an array of 100 bytes, and the width that it hands over is
whatever the format or an argument says. The bytes that a call stores in the array are `scratch`,
from its start to the NUL that `itoa` ends them with.

They are the `0x` of `%p`, a sign, and the digits in their field. No number has more than ten
digits, so that all of it is in the array as long as the field is (`Conversion.Fits`).
-/

open Fuelled

namespace Ganoid

namespace Vsprintf

/-- No call that the loop makes from `s` stores a byte behind the end of `str`. -/
def WithinStr (s : State) : Prop :=
  ∀ c str, Calls s c → (scratch c).Returns str → str.length ≤ strSize

/-- `vsprintf` stores no byte behind the end of `str`, whatever the buffer held. -/
def WithinScratch (fmt : List U8) (vl : List Arg) : Prop :=
  ∀ buf, WithinStr (.start buf fmt vl)

/-! ### What is stored -/

/-- What is stored for an integer. -/
theorem scratch_int_returns {c : State} {spec : IntSpec} {val : U32} {vl : List Arg}
    (hspec : c.convSpecifier = getConvSpecifier [spec.char]) (hvl : c.vl = .int val :: vl) :
    (scratch c).Returns ((Operand.int spec val).text c.fieldwidth ++ [0]) := by
  rw [scratch, hspec, hvl, if_pos (spec.getConvSpecifier_mem []).2]
  exact (returns_pure (val, vl)).bind ((spec.itoaStr_returns [] _ _).bind (returns_pure _))

/-- What is stored for a conversion is in `str` if and only if its field fits. -/
theorem exists_scratch_returns {c : Conversion} {fieldwidth : U32} (buf : Buf)
    (fmt : List U8) (vl : List Arg) (flags precision lengthModifier : U32)
    (hfits : c.operand.FitsIn fieldwidth ↔ c.Fits) : ∃ str,
    (scratch ⟨buf, fmt, c.operand.arg :: vl, flags, fieldwidth, precision, lengthModifier,
      getConvSpecifier [c.operand.spell]⟩).Returns str ∧ (str.length ≤ strSize ↔ c.Fits) := by
  have hnone : ∀ x : U8, getConvSpecifier [x] ∉ intSpecifiers → ∀ arg,
      (scratch ⟨buf, fmt, arg :: vl, flags, fieldwidth, precision, lengthModifier,
        getConvSpecifier [x]⟩).Returns [] := fun x hx arg ↦ by
    rw [scratch, if_neg hx]
    exact returns_pure _
  rw [← hfits]
  rcases c.operand with ⟨spec, val⟩ | val | t
  · refine ⟨_, scratch_int_returns rfl rfl, ?_⟩
    rw [List.length_append, List.length_singleton]
    exact Iff.rfl
  · exact ⟨[], hnone 0x63 (by decide) _, iff_of_true (Nat.zero_le _) trivial⟩
  · exact ⟨[], hnone 0x73 (by decide) _, iff_of_true (Nat.zero_le _) trivial⟩

/-! ### The calls -/

theorem withinStr_of_leave {s : State} {buf : Buf} (h : (readCall s).Returns (.inr buf)) :
    WithinStr s :=
  fun _ _ hc _ ↦ absurd hc (not_calls_of_leave h)

/-- A loop that makes a call, and goes on from `s'` if that fits. -/
theorem withinStr_iff_of_call {s c s' : State} {str : List U8} {fits : Prop}
    (hcall : (readCall s).Returns (.inl c)) (hpass : fits → (pass s).Returns (.inl s'))
    (hstr : (scratch c).Returns str) (hfits : str.length ≤ strSize ↔ fits) :
    WithinStr s ↔ fits ∧ WithinStr s' := by
  constructor
  · intro h
    have hle := hfits.1 (h c str (.here hcall) hstr)
    exact ⟨hle, fun c' str' hc ↦ h c' str' (.later (hpass hle) hc)⟩
  · rintro ⟨hle, h⟩ c' str' hc hstr'
    rcases (calls_iff hcall (hpass hle)).1 hc with rfl | hc
    · rw [hstr'.unique hstr]
      exact hfits.2 hle
    · exact h c' str' hc hstr'

theorem withinStr_literal_iff (s : State) {c : U8} (hpercent : c ≠ 0x25) (hnul : c ≠ 0)
    (fmt : List U8) :
    WithinStr { s with fmt := c :: fmt } ↔ WithinStr { s with buf := s.buf.put c, fmt := fmt } :=
  forall₂_congr fun _ _ ↦ imp_congr_left (calls_literal_iff s hpercent hnul fmt)

/-- **What the calls for the items of a format store** is in `str` if and only if their fields
fit. -/
theorem withinStr_items_iff (items : List Item) (percent : Bool) (vl : List Arg) (s : State)
    (hwidth : s.fieldwidth = 0 ∨ s.fieldwidth = -1) :
    WithinStr { s with fmt := spell items ++ ending percent, vl := args items ++ vl } ↔
      ∀ c, Item.conversion c ∈ items → c.Fits := by
  induction items generalizing s with
  | nil =>
    exact iff_of_true (withinStr_of_leave (readCall_ending { s with vl := vl } percent))
      fun c hc ↦ absurd hc List.not_mem_nil
  | cons i items ih =>
    cases i with
    | literal c hpercent hnul =>
      refine (withinStr_literal_iff { s with vl := args items ++ vl } hpercent hnul
        (spell items ++ ending percent)).trans ((ih { s with buf := s.buf.put c } hwidth).trans ?_)
      simp
    | conversion c =>
      obtain ⟨precision, lengthModifier, hcall⟩ :=
        readCall_conversion s c (spell items ++ ending percent) (args items ++ vl)
      obtain ⟨after, hpass⟩ : ∃ after, c.Fits →
          (pass { s with fmt := c.spell ++ (spell items ++ ending percent),
                         vl := c.args ++ (args items ++ vl) }).Returns
            (.inl ⟨⟨s.buf.before ++ c.text (isLeft s.flags), 0 :: after⟩,
              spell items ++ ending percent, args items ++ vl, setFlags s.flags c.flags,
              0, 0, 0, 0⟩) := by
        rcases em c.Fits with hc | hc
        · obtain ⟨after, hpass⟩ := pass_conversion hc hwidth
          exact ⟨after, fun _ ↦ hpass _ _⟩
        · exact ⟨[], fun h ↦ absurd h hc⟩
      rw [← List.append_assoc, ← List.append_assoc] at hcall hpass
      obtain ⟨str, hstr, hfits⟩ := exists_scratch_returns (c := c) s.buf
        (spell items ++ ending percent) (args items ++ vl) (setFlags s.flags c.flags) precision
        lengthModifier (c.fitsIn_fieldwidth_iff (isLeft s.flags) hwidth)
      have hrest := fun buf ↦ ih ⟨buf, [], [], setFlags s.flags c.flags, 0, 0, 0, 0⟩ (Or.inl rfl)
      simp only [List.mem_cons, Item.conversion.injEq, forall_eq_or_imp]
      exact (withinStr_iff_of_call hcall hpass hstr hfits).trans (and_congr_right fun _ ↦ hrest _)

end Vsprintf

open Vsprintf

/-- **`vsprintf` keeps within `str`** if and only if no integer has a field of 100 characters or
more, with the `0x` or the sign that is written before it. -/
theorem vsprintf_withinScratch_iff (items : List Item) (percent : Bool) (vl : List Arg) :
    WithinScratch (spell items ++ ending percent) (args items ++ vl) ↔
      ∀ c, Item.conversion c ∈ items → c.Fits := by
  have hitems := fun buf ↦ withinStr_items_iff items percent vl (.start buf [] []) (Or.inr rfl)
  exact ⟨fun h ↦ (hitems []).1 (h []), fun h buf ↦ (hitems buf).2 h⟩

/-- A width of 100 given as an argument, with the number 5. -/
def starHundred : Item := .conversion ⟨⟨[], .star 100, none, false⟩, .int .d 5⟩

/-- Of the 101 bytes for it the NUL is stored behind the end. -/
theorem not_withinScratch_starHundred : ¬ WithinScratch [0x25, 0x2A, 0x64] [.int 100, .int 5] := by
  intro h
  have hfits := (withinStr_items_iff [starHundred] false [] (.start [] [] []) (Or.inr rfl)).1 (h [])
  exact absurd (hfits _ List.mem_cons_self) (by decide)

end Ganoid
