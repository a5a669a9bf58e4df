import Ganoid.Arch.Console
import Ganoid.Library.Mealy

/-!
# The attributes on the screen and the hardware cursor

Two properties of every state that a sequence of characters leads to, and when they fail.

Each of the three functions that write cells puts the attribute into them in its own way.
`vga_clearscreen` gets it right. `vga_scroll_up` casts the shifted attribute to eight bits, so that
the row it blanks has attribute 0; and `vga_putc` combines the attribute with a `char`, whose sign
bits cover it from `0x80` on. The screen is therefore in one attribute exactly as long as nothing
scrolls and no such character is printed (`uniformAttributes_iff`).

The hardware cursor follows the cursor while that is on the screen, and it is not sent below the
screen, except by a carriage return in the last row, which lacks the test that the other cases have
(`cursorOnScreen_iff`).

Both are read off one description of what `vga_putc` does (`printed_vgaPutc`).
-/

namespace Ganoid

/-! ### The cases of a character -/

/-- The characters that only move the cursor. -/
def IsControl (c : U8) : Prop := c = 0x0A ∨ c = 0x09 ∨ c = 0x0D ∨ c = 0x08

instance (c : U8) : Decidable (IsControl c) :=
  inferInstanceAs (Decidable (_ ∨ _))

/-- A tab that takes the cursor below the screen. -/
def TabLeaves (v : Vga) (c : U8) : Prop :=
  c = 0x09 ∧ v.cursorY = maxY - 1 ∧ maxX ≤ v.cursorX + kTabWidth

/-- A carriage return that takes the cursor below the screen. -/
def ReturnLeaves (v : Vga) (c : U8) : Prop :=
  c = 0x0D ∧ v.cursorY = maxY - 1

/-- The cell that a character is printed in. -/
def Vga.location (v : Vga) : ℕ := 80 * v.cursorY.toNat + v.cursorX.toNat

/-- What the `switch` of `vga_putc` can do on a character, from a cursor on the screen. -/
inductive Printed (v : Vga) (c : U8) (vval : U16) : Vga → Prop
  /-- The cursor moves on the screen. -/
  | moved (x y : U8) (hx : x.toNat < 80) (hy : y.toNat < 25) (hc : IsControl c)
    (htab : ¬ TabLeaves v c) (hret : ¬ ReturnLeaves v c) : Printed v c vval (moveCursor v x y)
  /-- A backspace in the first column does nothing. -/
  | stayed (hc : c = 0x08) : Printed v c vval v
  /-- A newline in the last row puts the scroll off and the cursor with it. -/
  | newlineLeft (hc : c = 0x0A) : Printed v c vval (v.setCursor 0 maxY)
  /-- A carriage return there puts off only the scroll. -/
  | returnLeft (h : ReturnLeaves v c) : Printed v c vval (moveCursor v 0 maxY)
  /-- A tab there scrolls at once. -/
  | tabLeft (h : TabLeaves v c) : Printed v c vval (vgaScrollUp (v.setCursor 0 maxY))
  /-- A character is printed. -/
  | stored (x y : U8) (hx : x.toNat < 80) (hy : y.toNat < 25) (hc : ¬ IsControl c) :
    Printed v c vval (moveCursor (v.store v.location vval) x y)
  /-- A character is printed in the last cell. -/
  | storedLast (hc : ¬ IsControl c) :
    Printed v c vval ((v.store v.location vval).setCursor 0 maxY)

/-- The row below a row of the screen, which is on the screen unless that is the last one. -/
theorem cursorY_succ {v : Vga} (hy : v.cursorY.toNat < 25) :
    (v.cursorY + 1).toNat = v.cursorY.toNat + 1 ∧
      (v.cursorY + 1 = maxY ↔ v.cursorY = maxY - 1) := by
  have hnext : (v.cursorY + 1).toNat = v.cursorY.toNat + 1 := by bv_omega
  refine ⟨hnext, ?_⟩
  rw [← BitVec.toNat_inj, hnext, ← BitVec.toNat_inj]
  show v.cursorY.toNat + 1 = 25 ↔ v.cursorY.toNat = 24
  omega

section Cases

variable {v : Vga} {c : U8} {vval : U16}

theorem printed_putNewline (hy : v.cursorY.toNat < 25) (hc : c = 0x0A) :
    Printed v c vval (putNewline v) := by
  obtain ⟨hnext, -⟩ := cursorY_succ hy
  show Printed v c vval (if v.cursorY + 1 ≠ maxY then moveCursor v 0 (v.cursorY + 1) else
    v.setCursor 0 (v.cursorY + 1))
  by_cases hrow : v.cursorY + 1 = maxY
  · rw [if_neg (not_not_intro hrow), hrow]
    exact .newlineLeft hc
  · have hrow' : (v.cursorY + 1).toNat ≠ 25 := fun heq ↦ hrow (BitVec.eq_of_toNat_eq heq)
    rw [if_pos hrow]
    exact .moved 0 (v.cursorY + 1) (by decide) (by omega) (Or.inl hc)
      (fun h ↦ absurd (hc.symm.trans h.1) (by decide))
      fun h ↦ absurd (hc.symm.trans h.1) (by decide)

theorem printed_putReturn (hy : v.cursorY.toNat < 25) (hc : c = 0x0D) :
    Printed v c vval (putReturn v) := by
  obtain ⟨hnext, hlast⟩ := cursorY_succ hy
  show Printed v c vval (moveCursor v 0 (v.cursorY + 1))
  by_cases hrow : v.cursorY + 1 = maxY
  · rw [hrow]
    exact .returnLeft ⟨hc, hlast.1 hrow⟩
  · have hrow' : (v.cursorY + 1).toNat ≠ 25 := fun heq ↦ hrow (BitVec.eq_of_toNat_eq heq)
    exact .moved 0 (v.cursorY + 1) (by decide) (by omega) (Or.inr (Or.inr (Or.inl hc)))
      (fun h ↦ absurd (hc.symm.trans h.1) (by decide)) fun h ↦ hrow (hlast.2 h.2)

theorem printed_putTab (hx : v.cursorX.toNat < 80) (hy : v.cursorY.toNat < 25) (hc : c = 0x09) :
    Printed v c vval (putTab v) := by
  obtain ⟨hnext, hlast⟩ := cursorY_succ hy
  have hx' : (v.cursorX + kTabWidth).toNat = v.cursorX.toNat + 4 := by
    rw [kTabWidth]
    bv_omega
  have hret : ¬ ReturnLeaves v c := fun h ↦ absurd (hc.symm.trans h.1) (by decide)
  rw [putTab]
  generalize hw : (if 80 ≤ (v.setCursor (v.cursorX + kTabWidth) v.cursorY).cursorX then _
    else _ : Vga) = w
  by_cases hwrap : 80 ≤ v.cursorX + kTabWidth
  · obtain rfl : v.setCursor 0 (v.cursorY + 1) = w := (if_pos hwrap).symm.trans hw
    by_cases hrow : v.cursorY + 1 = maxY
    · have hoff : maxY ≤ (v.setCursor 0 (v.cursorY + 1)).cursorY := hrow ▸ BitVec.le_refl maxY
      rw [if_pos hoff, hrow]
      exact .tabLeft ⟨hc, hlast.1 hrow, hwrap⟩
    · have hrow' : (v.cursorY + 1).toNat ≠ 25 := fun heq ↦ hrow (BitVec.eq_of_toNat_eq heq)
      have hon : ¬ maxY ≤ v.cursorY + 1 := fun hle ↦ by
        have hle' : 25 ≤ (v.cursorY + 1).toNat := hle
        omega
      rw [if_neg (show ¬ maxY ≤ (v.setCursor 0 (v.cursorY + 1)).cursorY from hon)]
      exact .moved 0 (v.cursorY + 1) (by decide) (by omega) (Or.inr (Or.inl hc))
        (fun h ↦ hrow (hlast.2 h.2.1)) hret
  · obtain rfl : v.setCursor (v.cursorX + kTabWidth) v.cursorY = w := (if_neg hwrap).symm.trans hw
    have hwrap' : ¬ 80 ≤ (v.cursorX + kTabWidth).toNat := hwrap
    have hon : ¬ maxY ≤ v.cursorY := fun hle ↦ by
      have hle' : 25 ≤ v.cursorY.toNat := hle
      omega
    rw [if_neg (show ¬ maxY ≤ (v.setCursor (v.cursorX + kTabWidth) v.cursorY).cursorY from hon)]
    exact .moved (v.cursorX + kTabWidth) v.cursorY (by omega) hy (Or.inr (Or.inl hc))
      (fun h ↦ hwrap h.2.2) hret

theorem printed_putBackspace (hx : v.cursorX.toNat < 80) (hy : v.cursorY.toNat < 25)
    (hc : c = 0x08) : Printed v c vval (putBackspace v) := by
  rw [putBackspace]
  by_cases hpos : 0 < v.cursorX
  · have hpos' : 0 < v.cursorX.toNat := hpos
    have hx' : (v.cursorX - 1).toNat = v.cursorX.toNat - 1 := by bv_omega
    rw [if_pos hpos]
    exact .moved (v.cursorX - 1) v.cursorY (by omega) hy (Or.inr (Or.inr (Or.inr hc)))
      (fun h ↦ absurd (hc.symm.trans h.1) (by decide))
      fun h ↦ absurd (hc.symm.trans h.1) (by decide)
  · rw [if_neg hpos]
    exact .stayed hc

theorem printed_putChar (hx : v.cursorX.toNat < 80) (hy : v.cursorY.toNat < 25)
    (hc : ¬ IsControl c) : Printed v c vval (putChar v vval) := by
  obtain ⟨hnext, -⟩ := cursorY_succ hy
  have hx' : (v.cursorX + 1).toNat = v.cursorX.toNat + 1 := by bv_omega
  rw [putChar, toNat_locationOffset]
  generalize hs : v.store (80 * v.cursorY.toNat + v.cursorX.toNat) vval = s
  have hsx : s.cursorX = v.cursorX := hs ▸ rfl
  have hsy : s.cursorY = v.cursorY := hs ▸ rfl
  generalize hw : (if (s.setCursor (s.cursorX + 1) s.cursorY).cursorX = maxX then _
    else _ : Vga) = w
  by_cases hwrap : s.cursorX + 1 = maxX
  · obtain rfl : s.setCursor 0 (s.cursorY + 1) = w := (if_pos hwrap).symm.trans hw
    by_cases hrow : s.cursorY + 1 = maxY
    · have hoff : ¬ (s.setCursor 0 (s.cursorY + 1)).cursorY ≠ maxY := not_not_intro hrow
      rw [if_neg hoff, hrow, ← hs]
      exact .storedLast hc
    · have hrow' : (s.cursorY + 1).toNat ≠ 25 := fun heq ↦ hrow (BitVec.eq_of_toNat_eq heq)
      have hon : (s.setCursor 0 (s.cursorY + 1)).cursorY ≠ maxY := hrow
      rw [if_pos hon, ← hs]
      exact .stored 0 (v.cursorY + 1) (by decide) (by rw [hsy] at hrow'; omega) hc
  · obtain rfl : s.setCursor (s.cursorX + 1) s.cursorY = w := (if_neg hwrap).symm.trans hw
    have hwrap' : (s.cursorX + 1).toNat ≠ 80 := fun heq ↦ hwrap (BitVec.eq_of_toNat_eq heq)
    have hon : s.cursorY ≠ maxY := fun heq ↦ by
      have heq' : v.cursorY.toNat = 25 := hsy ▸ congrArg BitVec.toNat heq
      omega
    rw [if_pos (show (s.setCursor (s.cursorX + 1) s.cursorY).cursorY ≠ maxY from hon), ← hs]
    exact .stored (v.cursorX + 1) v.cursorY (by rw [hsx] at hwrap'; omega) hy hc

/-- **The cases of `vga_putc`** behind its first test. -/
theorem printed_putcSwitch (hx : v.cursorX.toNat < 80) (hy : v.cursorY.toNat < 25) :
    Printed v c vval (putcSwitch v c vval) := by
  rw [putcSwitch]
  by_cases hnl : c = 0x0A
  · rw [if_pos hnl]
    exact printed_putNewline hy hnl
  · rw [if_neg hnl]
    by_cases htab : c = 0x09
    · rw [if_pos htab]
      exact printed_putTab hx hy htab
    · rw [if_neg htab]
      by_cases hret : c = 0x0D
      · rw [if_pos hret]
        exact printed_putReturn hy hret
      · rw [if_neg hret]
        by_cases hback : c = 0x08
        · rw [if_pos hback]
          exact printed_putBackspace hx hy hback
        · rw [if_neg hback]
          refine printed_putChar hx hy ?_
          rintro (h | h | h | h)
          · exact hnl h
          · exact htab h
          · exact hret h
          · exact hback h

end Cases

/-- **What `vga_putc` does**: a scroll if one has been put off, and then one of the cases. -/
theorem printed_vgaPutc {v : Vga} {t : Terminal} {k : ℕ} (h : Console v t k) (c : U8) :
    v.cursorY = maxY ∧
        Printed (vgaScrollUp v) c ((vattr.setWidth 16 <<< 8) ||| c.signExtend 16) (vgaPutc v c) ∨
      v.cursorY.toNat < 25 ∧
        Printed v c ((vattr.setWidth 16 <<< 8) ||| c.signExtend 16) (vgaPutc v c) := by
  rw [vgaPutc]
  split
  · rename_i hbelow
    exact Or.inl ⟨hbelow, printed_putcSwitch (show (0 : U8).toNat < 80 by decide)
      (show (24 : U8).toNat < 25 by decide)⟩
  · rename_i hon
    have hne : v.cursorY.toNat ≠ 25 := fun heq ↦ hon (BitVec.eq_of_toNat_eq heq)
    have hy : v.cursorY.toNat < 25 := Nat.lt_of_le_of_ne h.y_le hne
    exact Or.inr ⟨hy, printed_putcSwitch h.x_lt hy⟩

theorem cursorY_ne_maxY {v : Vga} (hy : v.cursorY.toNat < 25) : v.cursorY ≠ maxY := fun heq ↦
  Nat.ne_of_lt hy (congrArg BitVec.toNat heq)

/-! ### Attributes -/

/-- The attribute byte of a cell. -/
def attrByte (cell : U16) : U8 := (cell >>> 8).setWidth 8

/-- Every cell of the screen is bright white on black. -/
def UniformAttributes (v : Vga) : Prop :=
  ∀ o, o < 80 * 25 → attrByte (v.cells o) = 0x0F

/-- The character makes `vga_putc` scroll: a scroll has been put off, or it is a tab that leaves the
screen. -/
def Scrolls (v : Vga) (c : U8) : Prop :=
  v.cursorY = maxY ∨ TabLeaves v c

/-- The character neither scrolls nor is one whose sign bits reach the attribute. -/
def KeepsAttributes (v : Vga) (c : U8) : Prop :=
  ¬ Scrolls v c ∧ c < 0x80

/-- The cell that `vga_putc` makes of a character has the right attribute unless the character is
negative. -/
theorem attrByte_vval_iff (c : U8) :
    attrByte ((vattr.setWidth 16 <<< 8) ||| c.signExtend 16) = 0x0F ↔ c < 0x80 := by
  revert c
  decide

/-- The row that a scroll blanks loses its attribute. -/
theorem attrByte_vgaScrollUp (v : Vga) {o : ℕ} (hlo : 80 * 24 ≤ o) (hhi : o < 80 * 25) :
    attrByte ((vgaScrollUp v).cells o) = 0 := by
  rw [cells_vgaScrollUp v hhi, if_neg (Nat.not_lt_of_le hlo)]
  decide

theorem not_uniformAttributes_of_eq_zero {v : Vga} (o : ℕ) (ho : o < 80 * 25)
    (hzero : attrByte (v.cells o) = 0) : ¬ UniformAttributes v := fun h ↦ by
  have hattr := h o ho
  rw [hzero] at hattr
  exact absurd hattr (by decide)

theorem IsControl.lt {c : U8} (h : IsControl c) : c < 0x80 := by
  rcases h with rfl | rfl | rfl | rfl <;> decide

theorem TabLeaves.isControl {v : Vga} {c : U8} (h : TabLeaves v c) : IsControl c :=
  Or.inr (Or.inl h.1)

/-- The attributes stay right where one cell is written exactly when that cell's is. -/
theorem uniformAttributes_store_iff {v w : Vga} (hv : UniformAttributes v) {o : ℕ} {val : U16}
    (ho : o < 80 * 25) (hw : w.cells = (v.store o val).cells) :
    UniformAttributes w ↔ attrByte val = 0x0F := by
  have hcells : ∀ i, w.cells i = if i = o then val else v.cells i := fun i ↦ by
    rw [hw]
    exact Function.update_apply v.cells o val i
  constructor
  · intro h
    have hattr := h o ho
    rwa [hcells, if_pos rfl] at hattr
  · intro h i hi
    rw [hcells]
    split
    · exact h
    · exact hv i hi

namespace Printed

variable {v w : Vga} {c : U8} {vval : U16}

/-- On a screen whose attributes are right, a character keeps them unless it scrolls or its cell is
wrong. -/
theorem keepsAttributes_iff
    (h : Printed v c ((vattr.setWidth 16 <<< 8) ||| c.signExtend 16) w)
    (hx : v.cursorX.toNat < 80) (hy : v.cursorY.toNat < 25) (hv : UniformAttributes v) :
    UniformAttributes w ↔ ¬ TabLeaves v c ∧ c < 0x80 := by
  have hlocation : v.location < 80 * 25 := by
    rw [Vga.location]
    omega
  have hother : c ≠ 0x09 → IsControl c → (UniformAttributes v ↔ ¬ TabLeaves v c ∧ c < 0x80) :=
    fun hne hc ↦ iff_of_true hv ⟨fun htab ↦ hne htab.1, hc.lt⟩
  have hprinted : ¬ IsControl c → ∀ u : Vga,
      u.cells = (v.store v.location ((vattr.setWidth 16 <<< 8) ||| c.signExtend 16)).cells →
      (UniformAttributes u ↔ ¬ TabLeaves v c ∧ c < 0x80) := fun hc u hu ↦ by
    rw [uniformAttributes_store_iff hv hlocation hu, attrByte_vval_iff]
    exact (and_iff_right fun htab ↦ hc htab.isControl).symm
  cases h with
  | moved x y _ _ hc htab _ => exact iff_of_true hv ⟨htab, hc.lt⟩
  | stayed hc => exact hother (by rw [hc]; decide) (Or.inr (Or.inr (Or.inr hc)))
  | newlineLeft hc => exact hother (by rw [hc]; decide) (Or.inl hc)
  | returnLeft hret => exact hother (by rw [hret.1]; decide) (Or.inr (Or.inr (Or.inl hret.1)))
  | tabLeft htab =>
    refine iff_of_false ?_ fun hkeep ↦ hkeep.1 htab
    exact not_uniformAttributes_of_eq_zero (80 * 24) (by omega)
      (attrByte_vgaScrollUp _ (Nat.le_refl _) (by omega))
  | stored x y _ _ hc => exact hprinted hc _ rfl
  | storedLast hc => exact hprinted hc _ rfl

/-- One character does not repair a row that has just been blanked. -/
theorem not_uniformAttributes (h : Printed v c vval w)
    (hrow : ∀ o, 80 * 24 ≤ o → o < 80 * 25 → attrByte (v.cells o) = 0) : ¬ UniformAttributes w := by
  have hsame : ∀ u : Vga, u.cells = v.cells → ¬ UniformAttributes u := fun u hu ↦
    not_uniformAttributes_of_eq_zero (80 * 24) (by omega) (hu ▸ hrow _ (by omega) (by omega))
  have hprinted : ∀ u : Vga, u.cells = (v.store v.location vval).cells → ¬ UniformAttributes u :=
    fun u hu ↦ by
    -- one of the first two cells of the row is not the one printed in
    obtain ⟨o, hlo, hhi, hne⟩ : ∃ o, 80 * 24 ≤ o ∧ o < 80 * 25 ∧ o ≠ v.location := by
      rcases eq_or_ne v.location (80 * 24) with heq | hne
      · exact ⟨80 * 24 + 1, by omega, by omega, by omega⟩
      · exact ⟨80 * 24, by omega, by omega, hne.symm⟩
    refine not_uniformAttributes_of_eq_zero o hhi ?_
    rw [hu, Vga.store]
    dsimp only
    rw [Function.update_of_ne hne]
    exact hrow o hlo hhi
  cases h with
  | moved x y _ _ _ _ _ => exact hsame _ rfl
  | stayed _ => exact hsame _ rfl
  | newlineLeft _ => exact hsame _ rfl
  | returnLeft _ => exact hsame _ rfl
  | tabLeft _ =>
    exact not_uniformAttributes_of_eq_zero (80 * 24) (by omega)
      (attrByte_vgaScrollUp _ (Nat.le_refl _) (by omega))
  | stored x y _ _ _ => exact hprinted _ rfl
  | storedLast _ => exact hprinted _ rfl

end Printed

/-- **One call of `vga_putc`** keeps the attributes right exactly when it neither scrolls nor prints
a negative character. -/
theorem uniformAttributes_vgaPutc_iff {v : Vga} {t : Terminal} {k : ℕ} (h : Console v t k)
    (hv : UniformAttributes v) (c : U8) :
    UniformAttributes (vgaPutc v c) ↔ KeepsAttributes v c := by
  rcases printed_vgaPutc h c with ⟨hbelow, hprinted⟩ | ⟨hy, hprinted⟩
  · refine iff_of_false (hprinted.not_uniformAttributes fun o hlo hhi ↦ ?_)
      fun hkeep ↦ hkeep.1 (Or.inl hbelow)
    exact attrByte_vgaScrollUp v hlo hhi
  · rw [KeepsAttributes, Scrolls, or_iff_right (cursorY_ne_maxY hy)]
    exact hprinted.keepsAttributes_iff h.x_lt hy hv

/-- A cleared screen is in one attribute. -/
theorem uniformAttributes_vgaClearscreen (v : Vga) : UniformAttributes (vgaClearscreen v) := by
  intro o ho
  have hfilled := filled_fold v 0 (screenWidth * screenHeight)
    ((vattr.setWidth 16 <<< 8) ||| (0x20 : U8).setWidth 16) (by decide)
  simp only [Nat.zero_add] at hfilled
  rw [vgaClearscreen, cells_moveCursor, cells_setCursor, hfilled.cells, if_pos ⟨Nat.zero_le o, ho⟩]
  decide

/-- The console after any characters still shows some terminal. -/
theorem exists_console_vgaPutc (v : Vga) (c : U8) (h : ∃ t k, Console v t k) :
    ∃ t k, Console (vgaPutc v c) t k := by
  obtain ⟨t, k, hconsole⟩ := h
  exact ⟨_, hconsole.vgaPutc c⟩

open Mealy in
/-- **The screen is in one attribute exactly as long as nothing scrolls and no negative character is
printed.** -/
theorem uniformAttributes_iff (cells : ℕ → U16) (x y : U8) (chars : List U8) :
    (∀ pre, pre <+: chars →
      UniformAttributes (pre.foldl vgaPutc (vgaClearscreen (.powerOn cells x y)))) ↔
        Each vgaPutc KeepsAttributes (vgaClearscreen (.powerOn cells x y)) chars :=
  forall_prefix_iff_each (fun v ↦ ∃ t k, Console v t k) UniformAttributes exists_console_vgaPutc
    (fun _ c ⟨_, _, h⟩ hv ↦ uniformAttributes_vgaPutc_iff h hv c)
    ⟨_, _, console_vgaClearscreen cells x y⟩ (uniformAttributes_vgaClearscreen _) chars

/-- A negative character is printed on white, and 26 newlines scroll a row of black on black in. -/
theorem not_uniformAttributes_newlines :
    ¬ UniformAttributes ([0x80].foldl vgaPutc (vgaClearscreen (.powerOn (fun _ ↦ 0) 0 0))) ∧
      ¬ UniformAttributes ((List.replicate 26 0x0A).foldl vgaPutc
        (vgaClearscreen (.powerOn (fun _ ↦ 0) 0 0))) := by
  constructor
  · intro h
    exact absurd ((uniformAttributes_vgaPutc_iff (console_vgaClearscreen (fun _ ↦ 0) 0 0)
      (uniformAttributes_vgaClearscreen _) 0x80).1 h).2 (by decide)
  · exact not_uniformAttributes_of_eq_zero (80 * 24) (by omega) (by decide +kernel)

/-! ### The hardware cursor -/

/-- The registers of the CRT controller that hold the position of the cursor, and the index of the
register that the data port writes to. -/
structure Crtc where
  index : U8
  cursorHigh : U8
  cursorLow : U8

/-- The controller after a byte sent to a port. -/
def Crtc.write (crtc : Crtc) (port : U16) (value : U8) : Crtc :=
  if port = crtctrlAddrReg then { crtc with index := value }
  else if port = crtctrlAddrReg + 1 ∧ crtc.index = crtctrlCursorhighIndex then
    { crtc with cursorHigh := value }
  else if port = crtctrlAddrReg + 1 ∧ crtc.index = crtctrlCursorlowIndex then
    { crtc with cursorLow := value }
  else crtc

/-- The controller behind the bytes sent, latest first. -/
def crtcAfter : List (U16 × U8) → Crtc
  | [] => ⟨0, 0, 0⟩
  | (port, value) :: ports => (crtcAfter ports).write port value

/-- The positions of the cursor that the bytes make up, latest first. The low byte of a position is
sent last. -/
def sentPositions : List (U16 × U8) → List ℕ
  | [] => []
  | (port, value) :: ports =>
    if port = crtctrlAddrReg + 1 ∧ (crtcAfter ports).index = crtctrlCursorlowIndex then
      ((crtcAfter ports).cursorHigh ++ value).toNat :: sentPositions ports
    else sentPositions ports

/-- The high byte of an offset, as `move_cursor` computes it. -/
theorem toNat_highByte (offset : U16) :
    (((offset &&& 0xFF00) >>> 8).setWidth 8 : U8).toNat = offset.toNat / 256 := by
  have hlt := offset.isLt
  rw [BitVec.toNat_setWidth, BitVec.toNat_ushiftRight, BitVec.toNat_and]
  show (offset.toNat &&& 65280) >>> 8 % 2 ^ 8 = _
  rw [Nat.shiftRight_and_distrib]
  show (offset.toNat >>> 8 &&& 2 ^ 8 - 1) % 2 ^ 8 = _
  rw [Nat.and_two_pow_sub_one_eq_mod, Nat.shiftRight_eq_div_pow]
  omega

/-- And the low byte. -/
theorem toNat_lowByte (offset : U16) :
    ((offset &&& 0xFF).setWidth 8 : U8).toNat = offset.toNat % 256 := by
  rw [BitVec.toNat_setWidth, BitVec.toNat_and]
  show (offset.toNat &&& 2 ^ 8 - 1) % 2 ^ 8 = _
  rw [Nat.and_two_pow_sub_one_eq_mod]
  omega

/-- A high and a low byte sent one after the other make up one position. -/
theorem sentPositions_twoBytes (ports : List (U16 × U8)) (hi lo : U8) :
    sentPositions ((crtctrlAddrReg + 1, lo) :: (crtctrlAddrReg, crtctrlCursorlowIndex) ::
      (crtctrlAddrReg + 1, hi) :: (crtctrlAddrReg, crtctrlCursorhighIndex) :: ports) =
        (hi ++ lo).toNat :: sentPositions ports := by
  simp [sentPositions, crtcAfter, Crtc.write, crtctrlAddrReg, crtctrlCursorlowIndex,
    crtctrlCursorhighIndex]

/-- **What `move_cursor` sends** is the offset of the cell. -/
theorem sentPositions_moveCursor (v : Vga) (x y : U8) :
    sentPositions (moveCursor v x y).ports = (80 * y.toNat + x.toNat) :: sentPositions v.ports := by
  let offset : U16 := y.setWidth 16 * 80 + x.setWidth 16
  have hoffset : offset.toNat = 80 * y.toNat + x.toNat := by
    have hx := x.isLt
    have hy := y.isLt
    simp only [offset]
    bv_omega
  have hbytes : (((offset &&& 0xFF00) >>> 8).setWidth 8 ++ (offset &&& 0xFF).setWidth 8 :
      BitVec (8 + 8)).toNat = offset.toNat := by
    rw [BitVec.toNat_append, ← Nat.shiftLeft_add_eq_or_of_lt (BitVec.isLt _), Nat.shiftLeft_eq,
      toNat_highByte, toNat_lowByte]
    omega
  rw [← hoffset, ← hbytes]
  exact sentPositions_twoBytes v.ports _ _

@[simp] theorem ports_setCursor (v : Vga) (x y : U8) : (v.setCursor x y).ports = v.ports := rfl

@[simp] theorem cursorX_setCursor (v : Vga) (x y : U8) : (v.setCursor x y).cursorX = x := rfl

@[simp] theorem cursorY_setCursor (v : Vga) (x y : U8) : (v.setCursor x y).cursorY = y := rfl

/-- A loop that writes cells sends nothing. -/
theorem ports_fold_store {n : ℕ} (offset : ℕ → ℕ) (val : ℕ → Vga → U16) (v : Vga) :
    (n.fold (fun i _ v ↦ v.store (offset i) (val i v)) v).ports = v.ports := by
  refine Updates.fold_invariant (fun _ w ↦ Vga.ports w = v.ports) rfl ?_
  exact fun _ _ _ hw ↦ hw

theorem ports_copyRowUp (rows : ℕ) (v : Vga) : (copyRowUp rows v).ports = v.ports :=
  ports_fold_store _ _ v

/-- A scroll sends the first column of the last row. -/
theorem sentPositions_vgaScrollUp (v : Vga) :
    sentPositions (vgaScrollUp v).ports = 80 * 24 :: sentPositions v.ports := by
  have hrows : ((screenHeight - 1).fold (fun rows _ v ↦ copyRowUp rows v) v).ports = v.ports :=
    Updates.fold_invariant (fun _ w ↦ Vga.ports w = v.ports) rfl
      fun rows _ w hw ↦ (ports_copyRowUp rows w).trans hw
  rw [vgaScrollUp, sentPositions_moveCursor, cursorX_setCursor, cursorY_setCursor, ports_setCursor,
    ports_fold_store, hrows]
  rfl

/-- No position below the screen has been sent. -/
def SentOnScreen (v : Vga) : Prop :=
  ∀ pos ∈ sentPositions v.ports, pos < 80 * 25

/-- While the cursor is on the screen, the hardware cursor is where it is. -/
def LastSent (v : Vga) : Prop :=
  v.cursorY < maxY → (sentPositions v.ports).head? = some v.location

/-- What the hardware cursor should do. -/
structure CursorOnScreen (v : Vga) : Prop where
  sent : SentOnScreen v
  last : LastSent v

/-- The character is a carriage return that `vga_putc` carries out in the last row, perhaps after a
scroll that has been put off. -/
def ReturnsBelow (v : Vga) (c : U8) : Prop :=
  c = 0x0D ∧ maxY - 1 ≤ v.cursorY

theorem sentOnScreen_moveCursor_iff {v : Vga} (hv : SentOnScreen v) (x y : U8) :
    SentOnScreen (moveCursor v x y) ↔ 80 * y.toNat + x.toNat < 80 * 25 := by
  rw [SentOnScreen, sentPositions_moveCursor, List.forall_mem_cons]
  exact and_iff_left hv

theorem lastSent_moveCursor (v : Vga) (x y : U8) : LastSent (moveCursor v x y) := fun _ ↦ by
  rw [sentPositions_moveCursor]
  rfl

theorem lastSent_below (v : Vga) : LastSent (v.setCursor 0 maxY) := fun h ↦
  absurd h (show ¬ maxY < maxY by decide)

theorem sentOnScreen_vgaScrollUp {v : Vga} (hv : SentOnScreen v) : SentOnScreen (vgaScrollUp v) := by
  rw [SentOnScreen, sentPositions_vgaScrollUp, List.forall_mem_cons]
  exact ⟨by omega, hv⟩

theorem lastSent_vgaScrollUp (v : Vga) : LastSent (vgaScrollUp v) := fun _ ↦ by
  rw [sentPositions_vgaScrollUp]
  rfl

namespace Printed

variable {v w : Vga} {c : U8} {vval : U16}

/-- The hardware cursor follows in every case. -/
theorem lastSent (h : Printed v c vval w) (hv : LastSent v) : LastSent w := by
  cases h with
  | moved x y _ _ _ _ _ => exact lastSent_moveCursor v x y
  | stayed _ => exact hv
  | newlineLeft _ => exact lastSent_below v
  | returnLeft _ => exact lastSent_moveCursor v 0 maxY
  | tabLeft _ => exact lastSent_vgaScrollUp _
  | stored x y _ _ _ => exact lastSent_moveCursor _ x y
  | storedLast _ => exact lastSent_below _

/-- It is sent below the screen by a carriage return in the last row and by nothing else. -/
theorem sentOnScreen_iff (h : Printed v c vval w) (hv : SentOnScreen v) :
    SentOnScreen w ↔ ¬ ReturnLeaves v c := by
  have hother : c ≠ 0x0D → ∀ u : Vga, SentOnScreen u → (SentOnScreen u ↔ ¬ ReturnLeaves v c) :=
    fun hne u hu ↦ iff_of_true hu fun hret ↦ hne hret.1
  have hchar : ¬ IsControl c → c ≠ 0x0D := fun hc heq ↦ hc (Or.inr (Or.inr (Or.inl heq)))
  cases h with
  | moved x y hx hy _ _ hret =>
    exact iff_of_true ((sentOnScreen_moveCursor_iff hv x y).2 (by omega)) hret
  | stayed hc => exact hother (by rw [hc]; decide) _ hv
  | newlineLeft hc => exact hother (by rw [hc]; decide) _ hv
  | returnLeft hret =>
    refine iff_of_false (fun hw ↦ ?_) fun hnot ↦ hnot hret
    exact absurd ((sentOnScreen_moveCursor_iff hv 0 maxY).1 hw) (by decide)
  | tabLeft htab => exact hother (by rw [htab.1]; decide) _ (sentOnScreen_vgaScrollUp hv)
  | stored x y hx hy hc =>
    have hstored : SentOnScreen (v.store v.location vval) := hv
    exact hother (hchar hc) _ ((sentOnScreen_moveCursor_iff hstored x y).2 (by omega))
  | storedLast hc => exact hother (hchar hc) _ hv

end Printed

/-- **One call of `vga_putc`** and the hardware cursor. -/
theorem sentOnScreen_vgaPutc_iff {v : Vga} {t : Terminal} {k : ℕ} (h : Console v t k)
    (hv : SentOnScreen v) (c : U8) : SentOnScreen (vgaPutc v c) ↔ ¬ ReturnsBelow v c := by
  rcases printed_vgaPutc h c with ⟨hbelow, hprinted⟩ | ⟨hy, hprinted⟩
  · rw [hprinted.sentOnScreen_iff (sentOnScreen_vgaScrollUp hv), ReturnLeaves, ReturnsBelow, hbelow]
    exact not_congr (and_congr_right fun _ ↦ iff_of_true rfl (by decide))
  · rw [hprinted.sentOnScreen_iff hv, ReturnLeaves, ReturnsBelow]
    refine not_congr (and_congr_right fun _ ↦ ?_)
    rw [← BitVec.toNat_inj, BitVec.le_def]
    show v.cursorY.toNat = 24 ↔ 24 ≤ v.cursorY.toNat
    omega

theorem lastSent_vgaPutc {v : Vga} {t : Terminal} {k : ℕ} (h : Console v t k) (hv : LastSent v)
    (c : U8) : LastSent (vgaPutc v c) := by
  rcases printed_vgaPutc h c with ⟨-, hprinted⟩ | ⟨-, hprinted⟩
  · exact hprinted.lastSent (lastSent_vgaScrollUp v)
  · exact hprinted.lastSent hv

/-- Clearing the screen sends the first cell. -/
theorem sentPositions_vgaClearscreen (cells : ℕ → U16) (x y : U8) :
    sentPositions (vgaClearscreen (.powerOn cells x y)).ports = [0] := by
  rw [vgaClearscreen, sentPositions_moveCursor, cursorX_setCursor, cursorY_setCursor,
    ports_setCursor, ports_fold_store]
  rfl

open Mealy in
/-- **The hardware cursor follows the cursor and stays on the screen exactly as long as no carriage
return arrives in the last row or below it.** -/
theorem cursorOnScreen_iff (cells : ℕ → U16) (x y : U8) (chars : List U8) :
    (∀ pre, pre <+: chars →
      CursorOnScreen (pre.foldl vgaPutc (vgaClearscreen (.powerOn cells x y)))) ↔
        Each vgaPutc (fun v c ↦ ¬ ReturnsBelow v c) (vgaClearscreen (.powerOn cells x y)) chars := by
  have hports := sentPositions_vgaClearscreen cells x y
  have hlast : LastSent (vgaClearscreen (.powerOn cells x y)) := fun _ ↦ by
    rw [hports]
    rfl
  refine forall_prefix_iff_each (fun v ↦ (∃ t k, Console v t k) ∧ LastSent v) CursorOnScreen
    ?_ ?_ ⟨⟨_, _, console_vgaClearscreen cells x y⟩, hlast⟩ ⟨?_, hlast⟩ chars
  · rintro v c ⟨⟨t, k, h⟩, hv⟩
    exact ⟨⟨_, h.vgaPutc c⟩, lastSent_vgaPutc h hv c⟩
  · rintro v c ⟨⟨t, k, h⟩, hv⟩ hgood
    rw [← sentOnScreen_vgaPutc_iff h hgood.sent c]
    exact ⟨CursorOnScreen.sent, fun hsent ↦ ⟨hsent, lastSent_vgaPutc h hv c⟩⟩
  · rw [SentOnScreen, hports]
    simp

/-- The last of 25 carriage returns sends the first cell below the screen. -/
theorem not_cursorOnScreen_returns :
    ¬ CursorOnScreen ((List.replicate 25 0x0D).foldl vgaPutc
      (vgaClearscreen (.powerOn (fun _ ↦ 0) 0 0))) :=
  fun h ↦ absurd (h.sent (80 * 25) (by decide +kernel)) (Nat.lt_irrefl _)

end Ganoid
