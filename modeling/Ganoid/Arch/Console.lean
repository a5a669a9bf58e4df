import Ganoid.Arch.Vga
import Ganoid.Library.Updates
import Mathlib.Tactic.Common

/-!
# The console as a window on an unbounded terminal

What the console is for, and that it does it. The abstract terminal has rows without end: it applies
the same rule for the cursor to each character and never scrolls. The console shows 25 of its rows,
from a row `k` on that every scroll increases by one (`Shows`).

Scrolling is put off: a newline, a carriage return or a wrap at the last row leaves the cursor below
the screen, and the next character scrolls first. A scroll also moves the cursor to the first column,
which changes nothing, for below the screen it is there already (`Shows.col0`).
-/

namespace Ganoid

/-- The unbounded terminal. -/
structure Terminal where
  /-- The character at a row and a column. -/
  char : ℕ → ℕ → U8
  x : ℕ
  y : ℕ

namespace Terminal

/-- All blank, with the cursor at the first row and column. -/
def blank : Terminal where
  char _ _ := 0x20
  x := 0
  y := 0

/-- Write at one place. -/
def set (t : Terminal) (row col : ℕ) (c : U8) : Terminal :=
  { t with char := Function.update t.char row (Function.update (t.char row) col c) }

/-- Move the cursor. -/
def moveTo (t : Terminal) (x y : ℕ) : Terminal :=
  { t with x := x, y := y }

/-- Move the cursor to a column of its row, or to the next row if there is no such column. -/
def wrapTo (t : Terminal) (x : ℕ) : Terminal :=
  if 80 ≤ x then t.moveTo 0 (t.y + 1) else t.moveTo x t.y

/-- One character. -/
def putc (t : Terminal) (c : U8) : Terminal :=
  if c = 0x0A then t.moveTo 0 (t.y + 1)
  else if c = 0x09 then t.wrapTo (t.x + 4)
  else if c = 0x0D then t.moveTo 0 (t.y + 1)
  else if c = 0x08 then t.moveTo (t.x - 1) t.y
  else (t.set t.y t.x c).wrapTo (t.x + 1)

end Terminal

/-- The character byte of a cell. -/
def charByte (cell : U16) : U8 := cell.setWidth 8

/-- The console shows the rows of the terminal from row `k` on. -/
structure Shows (v : Vga) (t : Terminal) (k : ℕ) : Prop where
  x_lt : v.cursorX.toNat < 80
  y_le : v.cursorY.toNat ≤ 25
  writes_lt : ∀ o ∈ v.writes, o < 80 * 25
  char_eq : ∀ row col, row < 25 → col < 80 →
    charByte (v.cells (80 * row + col)) = t.char (row + k) col
  x_eq : t.x = v.cursorX.toNat
  y_eq : t.y = v.cursorY.toNat + k
  blank_below : ∀ row col, k + 25 ≤ row → t.char row col = 0x20

/-- The invariant of the console: below the screen, the cursor is in the first column. -/
structure Console (v : Vga) (t : Terminal) (k : ℕ) : Prop extends Shows v t k where
  col0 : v.cursorY.toNat = 25 → v.cursorX.toNat = 0

/-! ### What stays where -/

section Frame

variable (v : Vga) (x y : U8)

@[simp] theorem cells_moveCursor : (moveCursor v x y).cells = v.cells := rfl

@[simp] theorem writes_moveCursor : (moveCursor v x y).writes = v.writes := rfl

@[simp] theorem cursorX_moveCursor : (moveCursor v x y).cursorX = x := rfl

@[simp] theorem cursorY_moveCursor : (moveCursor v x y).cursorY = y := rfl

@[simp] theorem cells_setCursor : (v.setCursor x y).cells = v.cells := rfl

@[simp] theorem writes_setCursor : (v.setCursor x y).writes = v.writes := rfl

end Frame

/-- Only the cells, the log of writes and the cursor matter. -/
theorem Console.congr {v v' : Vga} {t : Terminal} {k : ℕ} (h : Console v t k)
    (hcells : v'.cells = v.cells) (hwrites : v'.writes = v.writes)
    (hx : v'.cursorX = v.cursorX) (hy : v'.cursorY = v.cursorY) : Console v' t k where
  x_lt := hx ▸ h.x_lt
  y_le := hy ▸ h.y_le
  writes_lt := hwrites ▸ h.writes_lt
  char_eq := hcells ▸ h.char_eq
  x_eq := hx ▸ h.x_eq
  y_eq := hy ▸ h.y_eq
  blank_below := h.blank_below
  col0 := hx ▸ hy ▸ h.col0

/-- Sending the cursor to the controller changes nothing else. -/
theorem Console.moveCursor {v : Vga} {t : Terminal} {k : ℕ} (h : Console v t k) :
    Console (moveCursor v v.cursorX v.cursorY) t k :=
  h.congr rfl rfl rfl rfl

/-- A move of both cursors to corresponding places. -/
theorem Console.setCursor {v : Vga} {t : Terminal} {k : ℕ} (h : Console v t k) {x y : U8}
    {tx ty : ℕ} (hx : x.toNat < 80) (hy : y.toNat ≤ 25) (htx : tx = x.toNat)
    (hty : ty = y.toNat + k) (hcol0 : y.toNat = 25 → x.toNat = 0) :
    Console (v.setCursor x y) (t.moveTo tx ty) k where
  x_lt := hx
  y_le := hy
  writes_lt := h.writes_lt
  char_eq := h.char_eq
  x_eq := htx
  y_eq := hty
  blank_below := h.blank_below
  col0 := hcol0

/-! ### Scrolling -/

/-- The cells below `m` have taken the values of those a row further down. -/
structure Copied (v : Vga) (m : ℕ) (v' : Vga) : Prop where
  cells : ∀ o, v'.cells o = if o < m then v.cells (o + 80) else v.cells o
  writes_lt : (∀ o ∈ v.writes, o < 80 * 25) → ∀ o ∈ v'.writes, o < 80 * 25

/-- Copying one more cell. -/
theorem Copied.store {v v' : Vga} {m : ℕ} (h : Copied v m v') (hm : m < 80 * 25) :
    Copied v (m + 1) (v'.store m (v'.cells (m + 80))) where
  cells o := by
    rw [Vga.store]
    dsimp only
    rcases Nat.lt_trichotomy o m with hlt | rfl | hgt
    · rw [Function.update_of_ne (Nat.ne_of_lt hlt), h.cells, if_pos hlt, if_pos (by omega)]
    · rw [Function.update_self, h.cells, if_neg (by omega), if_pos (by omega)]
    · rw [Function.update_of_ne (Nat.ne_of_gt hgt), h.cells, if_neg (by omega), if_neg (by omega)]
  writes_lt hv o ho := by
    rcases List.mem_cons.1 ho with rfl | ho
    · exact hm
    · exact h.writes_lt hv o ho

theorem copied_copyRowUp {v v' : Vga} {row : ℕ} (hrow : row < 24) (h : Copied v (80 * row) v') :
    Copied v (80 * (row + 1)) (copyRowUp row v') := by
  refine Updates.fold_invariant (fun col w ↦ Copied v (80 * row + col) w) h fun col hcol w hw ↦ ?_
  have hcol' : col < 80 := hcol
  have hnext := hw.store (by omega)
  rw [show 80 * row + col + 80 = screenWidth * (row + 1) + col by
    rw [screenWidth]; omega] at hnext
  exact hnext

theorem copied_rows (v : Vga) :
    Copied v (80 * 24) ((screenHeight - 1).fold (fun rows _ v ↦ copyRowUp rows v) v) := by
  refine Updates.fold_invariant (fun row w ↦ Copied v (80 * row) w)
    ⟨fun o ↦ rfl, fun hv ↦ hv⟩ fun row hrow w hw ↦ copied_copyRowUp hrow hw

/-- The cells from `lo` up to `m` have been overwritten with one value. -/
structure Filled (v : Vga) (lo m : ℕ) (val : U16) (v' : Vga) : Prop where
  cells : ∀ o, v'.cells o = if lo ≤ o ∧ o < m then val else v.cells o
  writes_lt : (∀ o ∈ v.writes, o < 80 * 25) → ∀ o ∈ v'.writes, o < 80 * 25

theorem filled_fold (v : Vga) (lo n : ℕ) (val : U16) (h : lo + n ≤ 80 * 25) :
    Filled v lo (lo + n) val (n.fold (fun i _ v ↦ v.store (lo + i) val) v) := by
  refine Updates.fold_invariant (fun i w ↦ Filled v lo (lo + i) val w)
    ⟨fun o ↦ by rw [if_neg (by omega)], fun hv ↦ hv⟩ fun i hi w hw ↦ ⟨fun o ↦ ?_, fun hv o ho ↦ ?_⟩
  · rw [Vga.store]
    dsimp only
    rcases eq_or_ne o (lo + i) with rfl | hne
    · rw [Function.update_self, if_pos (by omega)]
    · rw [Function.update_of_ne hne, hw.cells]
      by_cases hin : lo ≤ o ∧ o < lo + i
      · rw [if_pos hin, if_pos (by omega)]
      · rw [if_neg hin, if_neg (by omega)]
  · rcases List.mem_cons.1 ho with rfl | ho
    · omega
    · exact hw.writes_lt hv o ho

/-- The value of a cell after a scroll: that of the cell below it, and in the last row the blank that
`vga_scroll_up` writes. -/
theorem cells_vgaScrollUp (v : Vga) {o : ℕ} (ho : o < 80 * 25) :
    (vgaScrollUp v).cells o = if o < 80 * 24 then v.cells (o + 80) else 0x20 := by
  have hfilled := filled_fold ((screenHeight - 1).fold (fun rows _ v ↦ copyRowUp rows v) v)
    (screenWidth * (screenHeight - 1)) screenWidth
    (((vattr.setWidth 32 <<< 8).setWidth 8).setWidth 16 ||| 0x20) (by decide)
  rw [vgaScrollUp]
  rw [cells_moveCursor, cells_setCursor, hfilled.cells, (copied_rows v).cells]
  by_cases hlast : o < 80 * 24
  · have hout : ¬ (screenWidth * (screenHeight - 1) ≤ o ∧
        o < screenWidth * (screenHeight - 1) + screenWidth) := by
      rw [screenWidth, screenHeight]
      omega
    rw [if_neg hout, if_pos hlast, if_pos hlast]
  · have hin : screenWidth * (screenHeight - 1) ≤ o ∧
        o < screenWidth * (screenHeight - 1) + screenWidth := by
      rw [screenWidth, screenHeight]
      omega
    rw [if_pos hin, if_neg hlast]
    decide

theorem writes_vgaScrollUp {v : Vga} (h : ∀ o ∈ v.writes, o < 80 * 25) :
    ∀ o ∈ (vgaScrollUp v).writes, o < 80 * 25 := by
  have hfilled := filled_fold ((screenHeight - 1).fold (fun rows _ v ↦ copyRowUp rows v) v)
    (screenWidth * (screenHeight - 1)) screenWidth
    (((vattr.setWidth 32 <<< 8).setWidth 8).setWidth 16 ||| 0x20) (by decide)
  rw [vgaScrollUp]
  rw [writes_moveCursor, writes_setCursor]
  exact hfilled.writes_lt ((copied_rows v).writes_lt h)

@[simp] theorem cursorX_vgaScrollUp (v : Vga) : (vgaScrollUp v).cursorX = 0 := rfl

@[simp] theorem cursorY_vgaScrollUp (v : Vga) : (vgaScrollUp v).cursorY = 24 := rfl

/-- **A scroll** from below the screen shows the rows one further down. -/
theorem Console.vgaScrollUp {v : Vga} {t : Terminal} {k : ℕ} (h : Console v t k)
    (hy : v.cursorY.toNat = 25) : Console (vgaScrollUp v) t (k + 1) where
  x_lt := show (0 : U8).toNat < 80 by decide
  y_le := show (24 : U8).toNat ≤ 25 by decide
  writes_lt := writes_vgaScrollUp h.writes_lt
  char_eq row col hrow hcol := by
    rw [cells_vgaScrollUp v (show 80 * row + col < 80 * 25 by omega)]
    by_cases hlast : row < 24
    · rw [if_pos (by omega), show 80 * row + col + 80 = 80 * (row + 1) + col by omega,
        h.char_eq (row + 1) col (by omega) hcol, Nat.add_assoc, Nat.add_comm 1 k]
    · rw [if_neg (by omega), h.blank_below (row + (k + 1)) col (by omega)]
      decide
  x_eq := h.x_eq.trans (h.col0 hy)
  y_eq := by
    rw [h.y_eq, hy, cursorY_vgaScrollUp]
    show 25 + k = 24 + (k + 1)
    omega
  blank_below row col hrow := h.blank_below row col (by omega)
  col0 _ := rfl

/-! ### One character -/

/-- The character byte of what `vga_putc` writes, also of a character that is sign-extended. -/
theorem charByte_vval (c : U8) :
    charByte ((vattr.setWidth 16 <<< 8) ||| c.signExtend 16) = c := by
  apply BitVec.eq_of_getLsbD_eq
  intro i hi
  have hattr : ((vattr.setWidth 16 : U16) <<< 8).getLsbD i = false := by
    rw [BitVec.getLsbD_shiftLeft]
    simp [hi]
  rw [charByte, BitVec.getLsbD_setWidth, BitVec.getLsbD_or, hattr, BitVec.getLsbD_signExtend]
  simp [hi, show i < 16 by omega]

/-- A step down, to the first column of the next row. -/
theorem Console.nextRow {v : Vga} {t : Terminal} {k : ℕ} (h : Console v t k)
    (hy : v.cursorY.toNat < 25) :
    Console (v.setCursor 0 (v.cursorY + 1)) (t.moveTo 0 (t.y + 1)) k := by
  have hy' : (v.cursorY + 1).toNat = v.cursorY.toNat + 1 := by bv_omega
  refine h.setCursor (by decide) (by omega) rfl ?_ fun _ ↦ rfl
  rw [h.y_eq, hy']
  omega

/-- A step to the right, and from there to the next row where the row ends. -/
theorem Console.wrapTo {v w : Vga} {t : Terminal} {k : ℕ} (h : Console v t k)
    (hy : v.cursorY.toNat < 25) {d : U8} (hd : d.toNat ≤ 4)
    (hw : w = v.setCursor (v.cursorX + d) v.cursorY) {p : Prop} [Decidable p]
    (hp : p ↔ 80 ≤ v.cursorX.toNat + d.toNat) :
    Console (if p then w.setCursor 0 (w.cursorY + 1) else w) (t.wrapTo (t.x + d.toNat)) k := by
  have hx := h.x_lt
  have hx' : (v.cursorX + d).toNat = v.cursorX.toNat + d.toNat := by bv_omega
  rw [Terminal.wrapTo, h.x_eq, hw]
  by_cases hwrap : p
  · rw [if_pos hwrap, if_pos (hp.1 hwrap)]
    exact h.nextRow hy
  · rw [if_neg hwrap, if_neg fun hge ↦ hwrap (hp.2 hge)]
    rw [hp] at hwrap
    exact h.setCursor (by omega) h.y_le hx'.symm h.y_eq (fun heq ↦ absurd heq (by omega))

/-- A character written at the cursor. -/
theorem Console.store {v : Vga} {t : Terminal} {k : ℕ} (h : Console v t k)
    (hy : v.cursorY.toNat < 25) {val : U16} {c : U8} (hval : charByte val = c) :
    Console (v.store (80 * v.cursorY.toNat + v.cursorX.toNat) val) (t.set t.y t.x c) k where
  x_lt := h.x_lt
  y_le := h.y_le
  writes_lt o ho := by
    have hx := h.x_lt
    rcases List.mem_cons.1 ho with rfl | ho
    · omega
    · exact h.writes_lt o ho
  char_eq row col hrow hcol := by
    have hx := h.x_lt
    rw [Vga.store, Terminal.set, h.x_eq, h.y_eq]
    dsimp only
    by_cases hrow' : row = v.cursorY.toNat
    · subst hrow'
      rw [Function.update_self]
      by_cases hcol' : col = v.cursorX.toNat
      · subst hcol'
        rw [Function.update_self, Function.update_self, hval]
      · rw [Function.update_of_ne (by omega), Function.update_of_ne hcol']
        exact h.char_eq _ col hrow hcol
    · rw [Function.update_of_ne (by omega), Function.update_of_ne (by omega)]
      exact h.char_eq row col hrow hcol
  x_eq := h.x_eq
  y_eq := h.y_eq
  blank_below row col hrow := by
    rw [Terminal.set]
    dsimp only
    rw [Function.update_of_ne (by rw [h.y_eq]; omega)]
    exact h.blank_below row col hrow
  col0 := h.col0

/-- A move of the cursor that is sent to the controller unless it has left the screen. -/
theorem Console.moveCursor_ite {v : Vga} {t : Terminal} {k : ℕ} (h : Console v t k) :
    Console (if v.cursorY ≠ maxY then Ganoid.moveCursor v v.cursorX v.cursorY else v) t k := by
  split
  · exact h.moveCursor
  · exact h

/-- The offset of the cell at the cursor. -/
theorem toNat_locationOffset (v : Vga) :
    (v.cursorY.setWidth 32 * 80 + v.cursorX.setWidth 32 : U32).toNat =
      80 * v.cursorY.toNat + v.cursorX.toNat := by
  have hx := v.cursorX.isLt
  have hy := v.cursorY.isLt
  bv_omega

/-- A tab. Where it leaves the screen it scrolls at once. -/
theorem Console.putTab {v : Vga} {t : Terminal} {k : ℕ} (h : Console v t k)
    (hy : v.cursorY.toNat < 25) : ∃ k', Console (putTab v) (t.wrapTo (t.x + 4)) k' := by
  have hx := h.x_lt
  have hx' : (v.cursorX + kTabWidth).toNat = v.cursorX.toNat + 4 := by
    rw [kTabWidth]
    bv_omega
  have hwrap := @Console.wrapTo v _ t k h hy kTabWidth (by decide) rfl
    (80 ≤ (v.setCursor (v.cursorX + kTabWidth) v.cursorY).cursorX) _ (by
      show 80 ≤ (v.cursorX + kTabWidth).toNat ↔ _
      rw [hx']
      rfl)
  rw [Ganoid.putTab]
  generalize (if 80 ≤ (v.setCursor (v.cursorX + kTabWidth) v.cursorY).cursorX then _ else _ : Vga) =
    w at hwrap ⊢
  by_cases hbelow : maxY ≤ w.cursorY
  · have hbelow' : 25 ≤ w.cursorY.toNat := hbelow
    rw [if_pos hbelow]
    exact ⟨k + 1, hwrap.vgaScrollUp (Nat.le_antisymm hwrap.y_le hbelow')⟩
  · rw [if_neg hbelow]
    exact ⟨k, hwrap.moveCursor⟩

/-- A backspace, which stays in its row. -/
theorem Console.putBackspace {v : Vga} {t : Terminal} {k : ℕ} (h : Console v t k) :
    Console (putBackspace v) (t.moveTo (t.x - 1) t.y) k := by
  have hx := h.x_lt
  rw [Ganoid.putBackspace, h.x_eq]
  by_cases hpos : 0 < v.cursorX
  · have hpos' : 0 < v.cursorX.toNat := hpos
    have hx' : (v.cursorX - 1).toNat = v.cursorX.toNat - 1 := by bv_omega
    have hcol0 : v.cursorY.toNat = 25 → (v.cursorX - 1).toNat = 0 := fun hy ↦ by
      rw [hx', h.col0 hy]
    rw [if_pos hpos]
    exact (h.setCursor (by omega) h.y_le hx'.symm h.y_eq hcol0).moveCursor
  · have hzero : v.cursorX.toNat = 0 := Nat.eq_zero_of_not_pos hpos
    rw [if_neg hpos]
    exact @Console.setCursor v t k h v.cursorX v.cursorY _ _ hx h.y_le (by omega) h.y_eq h.col0

/-- A character that is written. -/
theorem Console.putChar {v : Vga} {t : Terminal} {k : ℕ} (h : Console v t k)
    (hy : v.cursorY.toNat < 25) {c : U8} {vval : U16} (hval : charByte vval = c) :
    Console (putChar v vval) ((t.set t.y t.x c).wrapTo (t.x + 1)) k := by
  have hx := h.x_lt
  have hx' : (v.cursorX + 1).toNat = v.cursorX.toNat + 1 := by bv_omega
  have hwrap := @Console.wrapTo _ _ _ k (h.store hy hval) hy 1 (by decide) rfl
    (v.cursorX + 1 = maxX) _ (by
      rw [← BitVec.toNat_inj, hx']
      show v.cursorX.toNat + 1 = 80 ↔ 80 ≤ v.cursorX.toNat + 1
      omega)
  rw [Ganoid.putChar, toNat_locationOffset]
  exact hwrap.moveCursor_ite

/-- **One character**, from a cursor on the screen. -/
theorem Console.putcSwitch {v : Vga} {t : Terminal} {k : ℕ} (h : Console v t k)
    (hy : v.cursorY.toNat < 25) {c : U8} {vval : U16} (hval : charByte vval = c) :
    ∃ k', Console (putcSwitch v c vval) (t.putc c) k' := by
  rw [Ganoid.putcSwitch, Terminal.putc]
  split
  · exact ⟨k, (h.nextRow hy).moveCursor_ite⟩
  · split
    · exact h.putTab hy
    · split
      · exact ⟨k, (h.nextRow hy).moveCursor⟩
      · split
        · exact ⟨k, h.putBackspace⟩
        · exact ⟨k, h.putChar hy hval⟩

/-- **One call of `vga_putc`** is one character of the terminal, with a scroll before it where the
last one was put off. -/
theorem Console.vgaPutc {v : Vga} {t : Terminal} {k : ℕ} (h : Console v t k) (c : U8) :
    ∃ k', Console (vgaPutc v c) (t.putc c) k' := by
  have hval := charByte_vval c
  rw [Ganoid.vgaPutc]
  by_cases hbelow : v.cursorY = maxY
  · rw [if_pos hbelow]
    have hy : v.cursorY.toNat = 25 := congrArg BitVec.toNat hbelow
    have hy' : (Ganoid.vgaScrollUp v).cursorY.toNat < 25 := show (24 : U8).toNat < 25 by decide
    exact (h.vgaScrollUp hy).putcSwitch hy' hval
  · rw [if_neg hbelow]
    have hne : v.cursorY.toNat ≠ 25 := fun heq ↦ hbelow (BitVec.eq_of_toNat_eq heq)
    have hle := h.y_le
    exact h.putcSwitch (by omega) hval

/-! ### Runs -/

/-- A call that prints. -/
inductive VgaCall
  | putc (c : U8)
  | puts (s : List U8)

/-- The call on the console. -/
def VgaCall.run (v : Vga) : VgaCall → Vga
  | .putc c => vgaPutc v c
  | .puts s => vgaPuts v s

/-- The characters that a call prints, those of a string up to its null byte. -/
def VgaCall.chars : VgaCall → List U8
  | .putc c => [c]
  | .puts s => s.takeWhile (· ≠ 0)

theorem vgaPuts_eq_foldl (v : Vga) (s : List U8) :
    vgaPuts v s = (s.takeWhile (· ≠ 0)).foldl vgaPutc v := by
  induction s generalizing v with
  | nil => rfl
  | cons c s ih =>
    rw [vgaPuts]
    by_cases hc : c ≠ 0
    · rw [if_pos hc, ih, List.takeWhile_cons_of_pos (by simpa using hc), List.foldl_cons]
    · rw [if_neg hc, List.takeWhile_cons_of_neg (by simpa using hc), List.foldl_nil]

/-- A call prints its characters one by one. -/
theorem VgaCall.run_eq_foldl (v : Vga) (call : VgaCall) : call.run v = call.chars.foldl vgaPutc v := by
  cases call with
  | putc c => rfl
  | puts s => exact vgaPuts_eq_foldl v s

/-- What is printed on the console is printed on the terminal. -/
theorem Console.foldl {v : Vga} {t : Terminal} {k : ℕ} (h : Console v t k) (chars : List U8) :
    ∃ k', Console (chars.foldl Ganoid.vgaPutc v) (chars.foldl Terminal.putc t) k' := by
  induction chars generalizing v t k with
  | nil => exact ⟨k, h⟩
  | cons c chars ih =>
    obtain ⟨k', hk'⟩ := h.vgaPutc c
    exact ih hk'

theorem Console.run {v : Vga} {t : Terminal} {k : ℕ} (h : Console v t k) (calls : List VgaCall) :
    ∃ k', Console (calls.foldl VgaCall.run v)
      ((calls.flatMap VgaCall.chars).foldl Terminal.putc t) k' := by
  induction calls generalizing v t k with
  | nil => exact ⟨k, h⟩
  | cons call calls ih =>
    obtain ⟨k', hk'⟩ := h.foldl call.chars
    rw [List.foldl_cons, call.run_eq_foldl, List.flatMap_cons, List.foldl_append]
    exact ih hk'

/-- The machine before the console is used, with whatever there is in video memory. -/
def Vga.powerOn (cells : ℕ → U16) (x y : U8) : Vga where
  cells := cells
  cursorX := x
  cursorY := y
  writes := []
  ports := []

/-- A cleared screen shows the blank terminal. -/
theorem console_vgaClearscreen (cells : ℕ → U16) (x y : U8) :
    Console (vgaClearscreen (.powerOn cells x y)) .blank 0 := by
  have hfilled := filled_fold (.powerOn cells x y) 0 (screenWidth * screenHeight)
    ((vattr.setWidth 16 <<< 8) ||| (0x20 : U8).setWidth 16) (by decide)
  simp only [Nat.zero_add] at hfilled
  have hcells : ∀ o, o < 80 * 25 → charByte ((vgaClearscreen (.powerOn cells x y)).cells o) =
      0x20 := fun o ho ↦ by
    rw [vgaClearscreen, cells_moveCursor, cells_setCursor, hfilled.cells,
      if_pos ⟨Nat.zero_le o, ho⟩]
    decide
  refine ⟨⟨show (0 : U8).toNat < 80 by decide, show (0 : U8).toNat ≤ 25 by decide, ?_,
    fun row col hrow hcol ↦ hcells _ (by omega), rfl, rfl, fun _ _ _ ↦ rfl⟩, fun _ ↦ rfl⟩
  rw [vgaClearscreen, writes_moveCursor, writes_setCursor]
  exact hfilled.writes_lt fun o ho ↦ absurd ho List.not_mem_nil

/-- **The console is a window on the terminal.** After the screen is cleared, any calls leave it
showing the terminal on which the same characters were printed, from some row `k` on. -/
theorem vga_shows_terminal (cells : ℕ → U16) (x y : U8) (calls : List VgaCall) :
    ∃ k, Shows (calls.foldl VgaCall.run (vgaClearscreen (.powerOn cells x y)))
      ((calls.flatMap VgaCall.chars).foldl Terminal.putc .blank) k := by
  obtain ⟨k, hk⟩ := (console_vgaClearscreen cells x y).run calls
  exact ⟨k, hk.toShows⟩

end Ganoid
