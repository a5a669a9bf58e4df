import Ganoid.Types
import Mathlib.Logic.Function.Basic

/-!
# The text console

The functions of `arch/i386/kernel/vga.c` that print, as the code computes them. Video memory is an
array of 16-bit cells, a character byte below an attribute byte, and nothing in the code stops an
offset from passing the `80 * 25` cells of the screen; `Vga.cells` is therefore a function on all
offsets. The log `Vga.writes` records the offsets written, and `Vga.ports` the bytes sent to the
ports of the CRT controller.

A `char` is signed, so a character from `0x80` on is sign-extended before it is combined with its
attribute.
-/

namespace Ganoid

/-- `SCREEN_WIDTH`, which is `max_x`. -/
def screenWidth : ℕ := 80

/-- `SCREEN_HEIGHT`, which is `max_y`. -/
def screenHeight : ℕ := 25

/-- `max_x` and `max_y` as they are compared with the cursor. -/
def maxX : U8 := 80

@[inherit_doc maxX]
def maxY : U8 := 25

/-- `KTabWidth`. -/
def kTabWidth : U8 := 4

/-- `CRTCTRL_ADDR_REG`. -/
def crtctrlAddrReg : U16 := 0x3D4

/-- `CRTCTRL_CURSORHIGH_INDEX`. -/
def crtctrlCursorhighIndex : U8 := 0x0E

/-- `CRTCTRL_CURSORLOW_INDEX`. -/
def crtctrlCursorlowIndex : U8 := 0x0F

/-- The console: video memory, the cursor, and what has been written where. -/
structure Vga where
  /-- The cell at `vptr + offset`. -/
  cells : ℕ → U16
  cursorX : U8
  cursorY : U8
  /-- The offsets of the cells written, latest first. -/
  writes : List ℕ
  /-- The ports written and the bytes, latest first. -/
  ports : List (U16 × U8)

namespace Vga

/-- A write to the cell at `vptr + offset`. -/
def store (v : Vga) (offset : ℕ) (vval : U16) : Vga :=
  { v with cells := Function.update v.cells offset vval, writes := offset :: v.writes }

/-- `outb`. -/
def outb (v : Vga) (port : U16) (value : U8) : Vga :=
  { v with ports := (port, value) :: v.ports }

/-- An assignment to `cursor_x` and `cursor_y`. -/
def setCursor (v : Vga) (x y : U8) : Vga :=
  { v with cursorX := x, cursorY := y }

end Vga

/-- `WriteRegister`. -/
def writeRegister (v : Vga) (aPortAddressIndex : U16) (aIndex : U8) (aPortAddressData : U16)
    (aValue : U8) : Vga :=
  (v.outb aPortAddressIndex aIndex).outb aPortAddressData aValue

/-- `move_cursor`. -/
def moveCursor (v : Vga) (xPos yPos : U8) : Vga :=
  let vramOffset : U16 := yPos.setWidth 16 * 80 + xPos.setWidth 16
  let v := writeRegister v crtctrlAddrReg crtctrlCursorhighIndex (crtctrlAddrReg + 1)
    (((vramOffset &&& 0xFF00) >>> 8).setWidth 8)
  let v := writeRegister v crtctrlAddrReg crtctrlCursorlowIndex (crtctrlAddrReg + 1)
    ((vramOffset &&& 0xFF).setWidth 8)
  v.setCursor xPos yPos

/-- The local `vattr` of the printing functions. -/
def vattr : U8 :=
  let backcolor : U8 := 0
  let forecolor : U8 := 15
  (backcolor <<< 4) ||| forecolor

/-- `vga_clearscreen`. -/
def vgaClearscreen (v : Vga) : Vga :=
  let vchar : U8 := 0x20
  let vval : U16 := (vattr.setWidth 16 <<< 8) ||| vchar.setWidth 16
  let cnt := screenWidth * screenHeight
  let v := cnt.fold (fun offset _ v ↦ v.store offset vval) v
  let v := v.setCursor 0 0
  moveCursor v v.cursorX v.cursorY

/-- One row of the copying loop of `vga_scroll_up`. -/
def copyRowUp (rows : ℕ) (v : Vga) : Vga :=
  screenWidth.fold (fun col _ v ↦
    v.store (screenWidth * rows + col) (v.cells (screenWidth * (rows + 1) + col))) v

/-- `vga_scroll_up`. The attribute is lost in its cast of `vattr << 8` to eight bits. -/
def vgaScrollUp (v : Vga) : Vga :=
  let vval : U16 := ((vattr.setWidth 32 <<< 8).setWidth 8).setWidth 16 ||| 0x20
  let v := (screenHeight - 1).fold (fun rows _ v ↦ copyRowUp rows v) v
  let v := screenWidth.fold (fun col _ v ↦ v.store (screenWidth * (screenHeight - 1) + col) vval) v
  let v := v.setCursor 0 (maxY - 1)
  moveCursor v v.cursorX v.cursorY

/-- The case of a newline in `vga_putc`. -/
def putNewline (v : Vga) : Vga :=
  let v := v.setCursor 0 (v.cursorY + 1)
  if v.cursorY ≠ maxY then moveCursor v v.cursorX v.cursorY else v

/-- The case of a tab. -/
def putTab (v : Vga) : Vga :=
  let v := v.setCursor (v.cursorX + kTabWidth) v.cursorY
  let v := if 80 ≤ v.cursorX then v.setCursor 0 (v.cursorY + 1) else v
  if maxY ≤ v.cursorY then vgaScrollUp v else moveCursor v v.cursorX v.cursorY

/-- The case of a carriage return. -/
def putReturn (v : Vga) : Vga :=
  let v := v.setCursor 0 (v.cursorY + 1)
  moveCursor v v.cursorX v.cursorY

/-- The case of a backspace. -/
def putBackspace (v : Vga) : Vga :=
  if 0 < v.cursorX then
    let v := v.setCursor (v.cursorX - 1) v.cursorY
    moveCursor v v.cursorX v.cursorY
  else v

/-- The default case. -/
def putChar (v : Vga) (vval : U16) : Vga :=
  let locationOffset : U32 := v.cursorY.setWidth 32 * 80 + v.cursorX.setWidth 32
  let v := v.store locationOffset.toNat vval
  let v := v.setCursor (v.cursorX + 1) v.cursorY
  let v := if v.cursorX = maxX then v.setCursor 0 (v.cursorY + 1) else v
  if v.cursorY ≠ maxY then moveCursor v v.cursorX v.cursorY else v

/-- The `switch` of `vga_putc`. -/
def putcSwitch (v : Vga) (c : U8) (vval : U16) : Vga :=
  if c = 0x0A then putNewline v
  else if c = 0x09 then putTab v
  else if c = 0x0D then putReturn v
  else if c = 0x08 then putBackspace v
  else putChar v vval

/-- `vga_putc`. -/
def vgaPutc (v : Vga) (c : U8) : Vga :=
  let vval : U16 := (vattr.setWidth 16 <<< 8) ||| c.signExtend 16
  let v := if v.cursorY = maxY then vgaScrollUp v else v
  putcSwitch v c vval

/-- `vga_puts`, on the bytes from `s` on, which end with the null byte behind the list. -/
def vgaPuts (v : Vga) : List U8 → Vga
  | [] => v
  | c :: s => if c ≠ 0 then vgaPuts (vgaPutc v c) s else v

end Ganoid
