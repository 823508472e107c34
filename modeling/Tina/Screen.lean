import Tina.Buffer
import Tina.Contract
import Tina.Kernel
import Tina.Transition

/-! `drivers/screen.c` and the terminal it draws on. A step is one access to the cursor, to one
of the two screen arrays or to the terminal; an index outside an array is `undefined`. -/
namespace Tina.Display

open ByteBuffer Atomic Transition

def screenWidth : Int := 80
def screenHeight : Int := 30
def screenSize : Int := 2400

def space : Byte := 0x20
def newline : Byte := 0x0a
def backspace : Byte := 0x08
def enter : Byte := 0x0d

/-- Rows and columns are counted from 1. -/
structure Terminal where
  cell : Int → Int → Byte
  row : Int
  col : Int

/-- A position outside the screen is moved to its edge. -/
def Terminal.move (row col : Int) (t : Terminal) : Terminal :=
  { t with row := max 1 (min row screenHeight), col := max 1 (min col screenWidth) }

def Terminal.put (c : Byte) (t : Terminal) : Terminal :=
  { t with
    cell := fun row col => if row = t.row ∧ col = t.col then c else t.cell row col
    col := t.col + 1 }

def Terminal.clear (t : Terminal) : Terminal := { t with cell := fun _ _ => space }

structure Screen where
  cursorX : Int
  cursorY : Int
  new : Int → Byte
  old : Int → Byte
  terminal : Terminal

/-- The cleared memory before `init_screen`, and a terminal that shows anything. -/
def powerOn (terminal : Terminal) : Screen := ⟨0, 0, fun _ => 0, fun _ => 0, terminal⟩

def vt100MoveCursor (x y : Int) : Program Screen Unit :=
  change fun s => { s with terminal := s.terminal.move y x }

def vt100Clear : Program Screen Unit := change fun s => { s with terminal := s.terminal.clear }

/-- What the terminal shows does not depend on its cursor being visible. -/
def vt100HiddenCursor : Program Screen Unit := pure ()

def portWriteCh (c : Byte) : Program Screen Unit :=
  change fun s => { s with terminal := s.terminal.put c }

def readNew (k : Int) : Program Screen Byte :=
  if 0 ≤ k ∧ k < screenSize then read fun s => s.new k else .undefined

def readOld (k : Int) : Program Screen Byte :=
  if 0 ≤ k ∧ k < screenSize then read fun s => s.old k else .undefined

def writeNew (k : Int) (c : Byte) : Program Screen Unit :=
  if 0 ≤ k ∧ k < screenSize then change fun s => { s with new := Function.update s.new k c }
  else .undefined

def writeOld (k : Int) (c : Byte) : Program Screen Unit :=
  if 0 ≤ k ∧ k < screenSize then change fun s => { s with old := Function.update s.old k c }
  else .undefined

def setX (x : Int) : Program Screen Unit := change fun s => { s with cursorX := x }
def setY (y : Int) : Program Screen Unit := change fun s => { s with cursorY := y }
def getX : Program Screen Int := read Screen.cursorX
def getY : Program Screen Int := read Screen.cursorY

/-- `screen_cursor_y * SCREEN_WIDTH + screen_cursor_x`. -/
def cursorIndex : Program Screen Int := do
  let y ← getY
  let x ← getX
  pure (int32 (y * screenWidth + x))

/-- `for (i = line1; i <= line2; i++)` over the whole width. -/
def eachCell (line1 line2 : Int) (body : Int → Int → Program Screen Unit) : Program Screen Unit :=
  loop line1 (line2 + 1 - line1).toNat fun i => loop 0 screenWidth.toNat fun j => body i j

def screenScroll (line1 line2 : Int) : Program Screen Unit := do
  eachCell line1 line2 fun i j => writeOld (i * screenWidth + j) 0
  eachCell line1 line2 fun i j =>
    if i = line2 then writeNew (i * screenWidth + j) space
    else do
      let c ← readNew ((i + 1) * screenWidth + j)
      writeNew (i * screenWidth + j) c

/-- What `\n` and enter do. -/
def nextLine : Program Screen Unit := do
  setX 0
  let y ← getY
  setY (int32 (y + 1))

/-- An `if` without an `else`. -/
def whenever (c : Prop) [Decidable c] (p : Program Screen Unit) : Program Screen Unit :=
  if c then p else pure ()

/-- What the four tests at the end of `screen_write_ch` do. -/
def keepInside : Program Screen Unit := do
  let x ← getX
  whenever (x < 0) (setX 0)
  let x ← getX
  whenever (screenWidth ≤ x) do
    let y ← getY
    setY (int32 (y + 1))
    setX 0
  let y ← getY
  whenever (y < 0) (setY 0)
  let y ← getY
  whenever (screenHeight ≤ y) do
    screenScroll (screenHeight / 2 + 1) (screenHeight - 1)
    setX 0
    setY (screenHeight - 1)

def writeBack : Program Screen Unit := do
  let x ← getX
  whenever (0 < x) do
    setX (int32 (x - 1))
    let k ← cursorIndex
    writeNew k space

def writeOne (ch : Byte) : Program Screen Unit := do
  let k ← cursorIndex
  writeNew k ch
  let x ← getX
  setX (int32 (x + 1))

def writeKind (ch : Byte) : Program Screen Unit :=
  if ch = newline then nextLine
  else if ch = backspace then writeBack
  else if ch = enter then nextLine
  else writeOne ch

def screenWriteCh (ch : Byte) : Program Screen Unit := do
  writeKind ch
  keepInside

/-- One round of `screen_reflush`. The cell is sent and then recorded. -/
def reflushCell (i j : Int) : Program Screen Unit := do
  let new ← readNew (i * screenWidth + j)
  let old ← readOld (i * screenWidth + j)
  whenever (new ≠ old) do
    vt100MoveCursor (j + 1) (i + 1)
    let c ← readNew (i * screenWidth + j)
    portWriteCh c
    let c ← readNew (i * screenWidth + j)
    writeOld (i * screenWidth + j) c

def screenReflush : Program Screen Unit := do
  eachCell 0 (screenHeight - 1) reflushCell
  let x ← getX
  let y ← getY
  vt100MoveCursor x y

/-- The two lines are not looked at. -/
def screenClear (_line1 _line2 : Int) : Program Screen Unit := do
  eachCell 0 (screenHeight - 1) fun i j => do
    writeNew (i * screenWidth + j) space
    writeOld (i * screenWidth + j) 0
  setX 0
  setY 0
  screenReflush

def initScreen : Program Screen Unit := do
  vt100HiddenCursor
  vt100Clear
  screenClear 0 (screenHeight - 1)

def screenMoveCursor (x y : Int) : Program Screen Unit := do
  setX x
  setY y

def screenWrite : List Byte → Program Screen Unit
  | [] => pure ()
  | c :: buff => do
    screenWriteCh c
    screenWrite buff

def commandClear : Program Screen Unit := screenClear 0 0

/-- The calls that reach the screen. -/
inductive Op where
  | write (buff : List Byte)
  | clear
  | move (x y : Int)
  | reflush

def Op.program : Op → Program Screen Unit
  | .write buff => screenWrite buff
  | .clear => commandClear
  | .move x y => screenMoveCursor x y
  | .reflush => screenReflush

def Step (s : Screen) (op : Op) (t : Screen) : Prop := run op.program s = some ((), t)

/-- A printable character or one of the three that `screen_write_ch` treats on their own. -/
def Typed (c : Byte) : Prop :=
  0x20 ≤ c.toNat ∧ c.toNat < 0x7f ∨ c = newline ∨ c = backspace ∨ c = enter

def InScreen (x y : Int) : Prop := (0 ≤ x ∧ x < screenWidth) ∧ (0 ≤ y ∧ y < screenHeight)

/-- Texts of such characters, and moves inside the screen. -/
def Plain (_ : Screen) : Op → Prop
  | .write buff => ∀ c ∈ buff, Typed c
  | .move x y => InScreen x y
  | _ => True

end Tina.Display
