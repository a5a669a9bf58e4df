import Ganoid.Arch.Vga
import Ganoid.Libc.Conversions

/-!
# What `vsprintf` returns

`sprintf` and `printk` print through `vsprintf` and return what it does. It returns the length of
the string at its pointer `buf`, which the functions that write have moved to the NUL behind the
text; so it returns 0 (`vsprintf_ending`), and that is the length of the text only where nothing is
written.
-/

open Fuelled

namespace Ganoid

open Vsprintf

/-- `sprintf`. -/
def sprintf (buf fmt : List U8) (vl : List Arg) : Fuelled (Buf × U32) := vsprintf buf fmt vl

/-- `PRINTF_BUFFER_SIZE`. -/
def printfBufferSize : ℕ := 1000

/-- `printk`: the memory from its array on, which held `pbuf`, the console, and the value
returned. -/
def printk (v : Vga) (pbuf fmt : List U8) (vl : List Arg) : Fuelled (Buf × Vga × U32) := do
  let (pbuf, retval) ← vsprintf pbuf fmt vl
  -- with its NUL, a longer text is stored over the frame
  if pbuf.before.length < printfBufferSize then
    pure (pbuf, vgaPuts v (pbuf.before ++ pbuf.after), retval)
  else never

/-- The buffer holds a string up to the pointer, and `n` is its length. -/
def IsLength (buf : Buf) (n : U32) : Prop :=
  (0 ∉ buf.before ∧ buf.after.head? = some 0) ∧ n.toNat = buf.before.length

/-- A function that prints returns the length of what it has written, whatever the buffer held. -/
def ReturnsLength (print : List U8 → Fuelled (Buf × U32)) : Prop :=
  ∀ buf, ∃ buf' n, (print buf).Returns (buf', n) ∧ IsLength buf' n

/-- `printk` as a function that prints. -/
def printkOn (v : Vga) (fmt : List U8) (vl : List Arg) (pbuf : List U8) : Fuelled (Buf × U32) := do
  let (pbuf, _, retval) ← printk v pbuf fmt vl
  pure (pbuf, retval)

namespace Vsprintf

/-! ### Items without a text -/

/-- Nothing is written for an item: it is a conversion of an empty string. -/
def Item.Blank : Item → Prop
  | .literal _ _ _ => False
  | .conversion c =>
    match c.operand with
    | .str s => deref s = 0
    | _ => False

theorem Item.text_eq_nil_iff (i : Item) (left : Bool) : i.text left = [] ↔ i.Blank := by
  cases i with
  | literal c hpercent hnul => exact iff_of_false (List.cons_ne_nil c []) id
  | conversion c =>
    rw [Item.text, Conversion.text, Item.Blank]
    cases c.operand with
    | int spec val =>
      refine iff_of_false (fun hnil ↦ ?_) id
      have hpad := List.length_eq_zero_iff.2
        (List.append_eq_nil_iff.1 (List.append_eq_nil_iff.1 hnil).2).2
      rw [length_pad, itoaDigits, Positional.length_numeral] at hpad
      omega
    | char val => exact iff_of_false (List.cons_ne_nil _ []) id
    | str s =>
      rw [Operand.text]
      cases s with
      | nil => exact iff_of_true rfl rfl
      | cons c s => simp [List.takeWhile_cons]

theorem text_eq_nil_iff (items : List Item) (left : Bool) :
    text left items = [] ↔ ∀ i ∈ items, i.Blank := by
  induction items generalizing left with
  | nil => exact iff_of_true rfl fun i hi ↦ absurd hi List.not_mem_nil
  | cons i items ih =>
    rw [text, List.append_eq_nil_iff, i.text_eq_nil_iff, ih, List.forall_mem_cons]

theorem allFit_of_blank {items : List Item} (h : ∀ i ∈ items, i.Blank) : AllFit items := by
  intro c hc
  have hblank := h _ hc
  rw [Item.Blank] at hblank
  rw [Conversion.Fits]
  generalize c.operand = operand at hblank
  cases operand with
  | int spec val => exact False.elim hblank
  | char val => trivial
  | str s => trivial

/-! ### The value returned -/

/-- What returns from no more than one text, and 0, returns the length of the text where there is
none. -/
theorem returnsLength_iff {print : List U8 → Fuelled (Buf × U32)} {t : List U8}
    (hprint : ∀ buf r, (print buf).Returns r → r.1.before = t ∧ r.2 = 0)
    (hnil : t = [] → ∀ buf, ∃ after, (print buf).Returns (⟨t, 0 :: after⟩, 0)) :
    ReturnsLength print ↔ t = [] := by
  constructor
  · intro hlength
    obtain ⟨buf', n, hret, -, hn⟩ := hlength []
    obtain ⟨rfl, rfl⟩ := hprint [] _ hret
    exact List.eq_nil_of_length_eq_zero hn.symm
  · rintro rfl buf
    obtain ⟨after, hret⟩ := hnil rfl buf
    exact ⟨_, _, hret, ⟨List.not_mem_nil, rfl⟩, rfl⟩

/-- `vsprintf` returns from no more than the text, and 0. -/
theorem of_vsprintf_returns {items : List Item} {percent : Bool} {buf : List U8} {vl : List Arg}
    {r : Buf × U32}
    (h : (vsprintf buf (spell items ++ ending percent) (args items ++ vl)).Returns r) :
    r.1.before = text false items ∧ r.2 = 0 := by
  obtain ⟨after, hret⟩ := vsprintf_ending (allFit_of_vsprintf_returns h) percent buf vl
  obtain rfl := h.unique hret
  exact ⟨rfl, rfl⟩

end Vsprintf

/-- What `printk` returns is what `vsprintf` does. -/
theorem vsprintf_returns_of_printkOn {v : Vga} {pbuf fmt : List U8} {vl : List Arg}
    {r : Buf × U32} (h : (printkOn v fmt vl pbuf).Returns r) : (vsprintf pbuf fmt vl).Returns r := by
  obtain ⟨_, hprint, hret⟩ := returns_bind_iff.1 h
  obtain ⟨_, hwrite, hprint⟩ := returns_bind_iff.1 hprint
  dsimp only at hprint
  split at hprint
  · obtain rfl := returns_pure_iff.1 hprint
    obtain rfl := returns_pure_iff.1 hret
    exact hwrite
  · exact absurd hprint not_returns_never

/-- **`vsprintf`, `sprintf` and `printk` return the length of what they write** if and only if they
write nothing: the format has no character to copy and converts only empty strings. -/
theorem print_returnsLength_iff (items : List Item) (percent : Bool) (vl : List Arg) :
    ((ReturnsLength fun buf ↦ vsprintf buf (spell items ++ ending percent) (args items ++ vl)) ↔
      ∀ i ∈ items, i.Blank) ∧
    ((ReturnsLength fun buf ↦ sprintf buf (spell items ++ ending percent) (args items ++ vl)) ↔
      ∀ i ∈ items, i.Blank) ∧
    ∀ v, ReturnsLength (printkOn v (spell items ++ ending percent) (args items ++ vl)) ↔
      ∀ i ∈ items, i.Blank := by
  have hnil : text false items = [] → ∀ buf, ∃ after,
      (vsprintf buf (spell items ++ ending percent) (args items ++ vl)).Returns
        (⟨text false items, 0 :: after⟩, 0) := fun h buf ↦
    vsprintf_ending (allFit_of_blank ((text_eq_nil_iff items false).1 h)) percent buf vl
  rw [← text_eq_nil_iff items false]
  refine ⟨returnsLength_iff (fun _ _ h ↦ of_vsprintf_returns h) hnil,
    returnsLength_iff (fun _ _ h ↦ of_vsprintf_returns h) hnil, fun v ↦
    returnsLength_iff (fun _ _ h ↦ of_vsprintf_returns (vsprintf_returns_of_printkOn h)) ?_⟩
  intro htext buf
  obtain ⟨after, hret⟩ := hnil htext buf
  have hprintk : (printk v buf (spell items ++ ending percent) (args items ++ vl)).Returns
      (⟨text false items, 0 :: after⟩, vgaPuts v (text false items ++ 0 :: after), 0) := by
    refine hret.bind ?_
    dsimp only
    rw [if_pos (by rw [htext]; decide)]
    exact returns_pure _
  exact ⟨after, hprintk.bind (returns_pure _)⟩

/-- One character is written for the format `a`, and 0 is returned. -/
theorem not_returnsLength_letter : ¬ ReturnsLength fun buf ↦ vsprintf buf [0x61] [] := by
  intro h
  obtain ⟨buf', n, hret, -, hn⟩ := h []
  obtain ⟨hbefore, hzero⟩ :=
    @of_vsprintf_returns [.literal 0x61 (by decide) (by decide)] false [] [] _ hret
  dsimp only at hbefore hzero hn
  rw [hbefore, hzero] at hn
  exact absurd hn (by decide)

end Ganoid
