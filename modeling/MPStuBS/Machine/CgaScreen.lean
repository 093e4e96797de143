import MPStuBS.Lib.Loop
import Mathlib.Data.BitVec

/-!
# Windows on the text screen

`CGA_Screen` of `machine/cgascr.cc`. The screen memory is an array of cells,
indexed by `x + y * 80`; a window is a rectangle of it with a cursor of its own,
which is either kept in the object (`rel_x`, `rel_y`) or is the hardware cursor of
the graphics controller. The controller is reached through an index and a data
port: a write to the first one selects a register, the second one reads and
writes it. Its registers 14 and 15 hold the position of the cursor.

A loop follows at most `fuel` rounds; `none` means that this bound did not
suffice.
-/

set_option autoImplicit false

namespace MPStuBS.Machine

open MPStuBS.Lib.Loop

/-- A `char`. -/
abbrev Char8 := BitVec 8

/-- The control characters that `print` knows, and the blank. -/
def nul : Char8 := 0
def backspace : Char8 := 8
def tabulator : Char8 := 9
def newline : Char8 := 10
def blank : Char8 := 32

/-- The colours of a character. -/
structure Attribute where
  foreground : BitVec 4
  background : BitVec 3
  blink : BitVec 1
  deriving DecidableEq

/-- A character on the screen. -/
structure Cell where
  c : Char8
  a : Attribute
  deriving DecidableEq

/-- The screen memory. -/
abbrev Screen := Int → Cell

/-! ## The controller -/

/-- The graphics controller: the selected register, and the registers. -/
structure Crtc where
  index : BitVec 8
  reg : BitVec 8 → BitVec 8

namespace Crtc

/-- `i_port.outb(val)`. -/
def outIndex (d : Crtc) (val : BitVec 8) : Crtc := { d with index := val }

/-- `d_port.outb(val)`. -/
def outData (d : Crtc) (val : BitVec 8) : Crtc :=
  { d with reg := Function.update d.reg d.index val }

/-- `d_port.inb()`. -/
def inData (d : Crtc) : BitVec 8 := d.reg d.index

end Crtc

/-! ## Windows -/

/-- A rectangle of the screen. -/
structure Window where
  fromCol : Int
  toCol : Int
  fromRow : Int
  toRow : Int
  useCursor : Bool
  cols : 0 ≤ fromCol ∧ fromCol ≤ toCol ∧ toCol ≤ 79
  rows : 0 ≤ fromRow ∧ fromRow ≤ toRow ∧ toRow ≤ 24

/-- What a window works on: the screen, the controller, and the cursor in the object. -/
structure Cga where
  screen : Screen
  crtc : Crtc
  relX : Int
  relY : Int

/-- `CGA_Screen::show`. Negative coordinates count from the opposite edge. -/
def showChar (s : Screen) (x y : Int) (character : Char8) (attrib : Attribute) : Screen :=
  let x := if x < 0 then 80 + x else x
  let y := if y < 0 then 25 + y else y
  if x < 0 ∨ x > 79 ∨ y < 0 ∨ y > 24 then s
  else Function.update s (x + y * 80) ⟨character, attrib⟩

/-- The local variables of `print`, and the screen. -/
structure PrintLocals where
  i : Nat
  remain : Int
  x : Int
  y : Int
  screen : Screen

namespace Window

def width (w : Window) : Int := w.toCol - w.fromCol + 1

def height (w : Window) : Int := w.toRow - w.fromRow + 1

/-- `setpos`: positions outside of the window are ignored. -/
def setpos (w : Window) (m : Cga) (x y : Int) : Cga :=
  if x < 0 ∨ x ≥ w.width ∨ y < 0 ∨ y ≥ w.height then m
  else
    if w.useCursor then
      let totalX := w.fromCol + x
      let totalY := w.fromRow + y
      let data := BitVec.ofInt 16 (totalX + totalY * 80)
      let upper := (m.crtc.outIndex 0xe).outData (((data &&& 0xFF00) >>> 8).setWidth 8)
      { m with crtc := (upper.outIndex 0xf).outData (data.setWidth 8 &&& 0xFF) }
    else { m with relX := x, relY := y }

/-- `getpos`: the position, and the state with another register selected. -/
def getpos (w : Window) (m : Cga) : Cga × Int × Int :=
  if w.useCursor then
    let upper := m.crtc.outIndex 0xe
    let lower := upper.outIndex 0xf
    let data : BitVec 16 :=
      (0xFF00 &&& (upper.inData.setWidth 16 <<< 8)) + (0xFF &&& lower.inData.setWidth 16)
    let totalY : Int := data.toNat / 80
    let totalX : Int := data.toNat - totalY * 80
    ({ m with crtc := lower }, totalX - w.fromCol, totalY - w.fromRow)
  else (m, m.relX, m.relY)

/-- The rows of the window move up by one, and the last line, row `y`, is cleared. -/
def scroll (w : Window) (attrib : Attribute) (y : Int) (s : Screen) : Screen :=
  -- the last row is left out, it has no row below it in the window
  let moved := forLoop w.fromRow w.toRow (fun tmpY s =>
    forLoop w.fromCol (w.toCol + 1) (fun tmpX s =>
      Function.update s (tmpX + tmpY * 80) (s (tmpX + (tmpY + 1) * 80))) s) s
  forLoop 0 w.width (fun c s => showChar s (w.fromCol + c) (w.fromRow + y) blank attrib) moved

/-- Printing the next character `ch`, before the cursor moves. -/
def printNext (w : Window) (attrib : Attribute) (ch : Char8) (l : PrintLocals) : PrintLocals :=
  if ch = tabulator then
    -- C++ takes the sign of the dividend
    let remain := if l.remain = 0 then 4 - l.x.tmod 4 else l.remain
    if remain > 1 then
      { l with
        remain := remain - 1
        screen := showChar l.screen (w.fromCol + l.x) (w.fromRow + l.y) blank attrib }
    -- the last position of a tabulator is passed without a blank
    else { l with remain := 0, i := l.i + 1 }
  else if ch = backspace then
    { l with
      screen := showChar l.screen (w.fromCol + l.x) (w.fromRow + l.y) blank attrib
      -- `printMove` adds one again; at the left edge x is -1 in between
      x := l.x - 1
      i := l.i + 1 }
  else if ch ≠ newline then
    { l with
      screen := showChar l.screen (w.fromCol + l.x) (w.fromRow + l.y) ch attrib
      i := l.i + 1 }
  else { l with i := l.i + 1 }

/-- Moving the cursor after a character. -/
def printMove (w : Window) (attrib : Attribute) (newLine lastLine : Bool) (l : PrintLocals) :
    PrintLocals :=
  if lastLine then { l with screen := w.scroll attrib l.y l.screen, x := 0 }
  else if newLine then { l with y := l.y + 1, x := 0 }
  else { l with x := l.x + 1 }

/-- One round of the loop of `print`. -/
def printRound (w : Window) (string : List Char8) (attrib : Attribute) (l : PrintLocals) :
    Option (Round PrintLocals PrintLocals) :=
  match string[l.i]? with
  | none => some (.done l)
  | some ch =>
      if ch = nul then some (.next { l with i := l.i + 1 })
      else
        let x := if ch = backspace ∧ l.x > 0 then l.x - 1 else l.x
        -- a backspace never breaks a line, also not in a window of one column
        let newLine := ch != backspace && (x == w.width - 1 || ch == newline)
        let lastLine := newLine && l.y == w.height - 1
        some (.next (w.printMove attrib newLine lastLine (w.printNext attrib ch { l with x := x })))

/-- `print`. The cursor is read before and set after the loop. -/
def print (fuel : Nat) (w : Window) (m : Cga) (string : List Char8) (attrib : Attribute) :
    Option Cga :=
  match w.getpos m with
  | (m, x, y) =>
      match loop (w.printRound string attrib) fuel ⟨0, 0, x, y, m.screen⟩ with
      | none => none
      | some l => some (w.setpos { m with screen := l.screen } l.x l.y)

/-- `reset`. -/
def reset (w : Window) (m : Cga) (character : Char8) (attrib : Attribute) : Cga :=
  let cleared := forLoop w.fromCol (w.toCol + 1) (fun x s =>
    forLoop w.fromRow (w.toRow + 1) (fun y s => showChar s x y character attrib) s) m.screen
  -- `rel_x` and `rel_y` are cleared in any case, as `setpos` may move the hardware cursor instead
  { w.setpos { m with screen := cleared } 0 0 with relX := 0, relY := 0 }

end Window

end MPStuBS.Machine
