import Tina.Format
import Tina.Refresh

/-! What goes over the serial line: the strings that `printk` makes of positions, and a terminal that
reads them byte by byte. The screen arrays and the cursor are used as before; the terminal is no part
of the kernel's state. -/
namespace Tina.Display

open ByteBuffer Atomic Transition Printing

def escape : Byte := 0x1b
def bracket : Byte := 0x5b
def semicolon : Byte := 0x3b
def letterH : Byte := 0x48
def letterJ : Byte := 0x4a

/-- What the terminal waits for: a character, or the rest of a control sequence. -/
inductive Mode where
  | ground
  | escaped
  | sequence (text : List Byte)

structure Tty where
  terminal : Terminal
  mode : Mode

/-- A control sequence: its text and the character that ends it. The two numbers of a position stand
before and behind a semicolon. -/
def execute (text : List Byte) (final : Byte) (t : Terminal) : Terminal :=
  if final = letterH then
    t.move (reading 10 (text.takeWhile (· != semicolon)))
      (reading 10 ((text.dropWhile (· != semicolon)).drop 1))
  else if final = letterJ ∧ text = [0x32] then t.clear
  else t

/-- One byte from the line. -/
def Tty.receive (t : Tty) (c : Byte) : Tty :=
  match t.mode with
  | .ground => if c = escape then { t with mode := .escaped }
    else { t with terminal := t.terminal.put c }
  | .escaped => { t with mode := if c = bracket then .sequence [] else .ground }
  | .sequence text =>
    if 0x40 ≤ c.toNat ∧ c.toNat < 0x7f then ⟨execute text c t.terminal, .ground⟩
    else { t with mode := .sequence (text ++ [c]) }

def Tty.interpret (t : Tty) (bytes : List Byte) : Tty := bytes.foldl Tty.receive t

/-- The cursor, the two arrays, and what has been sent. -/
structure Line where
  cursorX : Int
  cursorY : Int
  new : Int → Byte
  old : Int → Byte
  wire : List Byte

/-- The cleared memory, before anything is sent. -/
def idle : Line := ⟨0, 0, fun _ => 0, fun _ => 0, []⟩

def dark : Terminal := ⟨fun _ _ => 0, 1, 1⟩

/-- The kernel's part of the screen. -/
def Line.screen (l : Line) : Screen := ⟨l.cursorX, l.cursorY, l.new, l.old, dark⟩

def Line.update (l : Line) (s : Screen) : Line := ⟨s.cursorX, s.cursorY, s.new, s.old, l.wire⟩

/-- A program that uses the cursor and the arrays. -/
def onScreen {α : Type} : Program Screen α → Program Line α
  | .done a => .done a
  | .undefined => .undefined
  | .step act next => .step (fun l => l.update (act l.screen)) fun l => onScreen (next l.screen)

/-- `port_write`. -/
def portWrite (text : List Byte) : Program Line Unit :=
  change fun l => { l with wire := l.wire ++ text }

/-- `printk`, with what its arrays hold on the stack. -/
def printkLine (stack : Buffer) (fmt : CString) (args : List Arg) : Program Line Unit :=
  match printk stack (fun k => stack (256 + k)) fmt args with
  | none => .undefined
  | some (_, text) => portWrite text

/-- `%c[%d;%dH`. -/
def moveFormat : CString :=
  ⟨[percent, letterC, bracket, percent, letterD, semicolon, percent, letterD, letterH], by decide⟩

/-- `%c[2J`. -/
def clearFormat : CString := ⟨[percent, letterC, bracket, 0x32, letterJ], by decide⟩

/-- `%c[?25l`. -/
def hideFormat : CString := ⟨[percent, letterC, bracket, 0x3f, 0x32, 0x35, 0x6c], by decide⟩

namespace Line

variable (stack : Buffer)

def vt100MoveCursor (x y : Int) : Program Line Unit :=
  printkLine stack moveFormat [.int 27, .int (BitVec.ofInt 32 y), .int (BitVec.ofInt 32 x)]

def vt100Clear : Program Line Unit := printkLine stack clearFormat [.int 27]

def vt100HiddenCursor : Program Line Unit := printkLine stack hideFormat [.int 27]

def portWriteCh (c : Byte) : Program Line Unit := portWrite [c]

def reflushCell (i j : Int) : Program Line Unit := do
  let new ← onScreen (readNew (i * screenWidth + j))
  let old ← onScreen (readOld (i * screenWidth + j))
  if new ≠ old then do
    vt100MoveCursor stack (j + 1) (i + 1)
    let c ← onScreen (readNew (i * screenWidth + j))
    portWriteCh c
    let c ← onScreen (readNew (i * screenWidth + j))
    onScreen (writeOld (i * screenWidth + j) c)
  else pure ()

def screenReflush : Program Line Unit := do
  loop 0 (screenHeight - 1 + 1 - 0).toNat fun i =>
    loop 0 screenWidth.toNat fun j => reflushCell stack i j
  let x ← onScreen getX
  let y ← onScreen getY
  vt100MoveCursor stack x y

def screenClear (_line1 _line2 : Int) : Program Line Unit := do
  onScreen (eachCell 0 (screenHeight - 1) fun i j => do
    writeNew (i * screenWidth + j) space
    writeOld (i * screenWidth + j) 0)
  onScreen (setX 0)
  onScreen (setY 0)
  screenReflush stack

def initScreen : Program Line Unit := do
  vt100HiddenCursor stack
  vt100Clear stack
  screenClear stack 0 (screenHeight - 1)

/-- The calls, down to the bytes. -/
def program : Op → Program Line Unit
  | .write buff => onScreen (screenWrite buff)
  | .clear => screenClear stack 0 0
  | .move x y => onScreen (screenMoveCursor x y)
  | .reflush => screenReflush stack

def Step (l : Line) (op : Op) (m : Line) : Prop := run (program stack op) l = some ((), m)

end Line

/-- The terminal, after what has been sent to it. -/
def Line.tty (first : Terminal) (l : Line) : Tty := Tty.interpret ⟨first, .ground⟩ l.wire

/-- The screen with its terminal, as the calls see it that do not send bytes. -/
def Line.view (first : Terminal) (l : Line) : Screen :=
  ⟨l.cursorX, l.cursorY, l.new, l.old, (l.tty first).terminal⟩

/-! Control sequences. -/

variable {t : Terminal} {text a b : List Byte} {c : Byte} {x y i j k : Int} {n : Nat}

def Digits (text : List Byte) : Prop := ∀ c ∈ text, 0x30 ≤ c.toNat ∧ c.toNat < 0x3a

theorem interpret_append {tty : Tty} : tty.interpret (a ++ b) = (tty.interpret a).interpret b :=
  List.foldl_append

/-- A sequence goes on until it is ended. -/
theorem interpret_sequence (part : ∀ c ∈ text, c.toNat < 0x40) :
    Tty.interpret ⟨t, .sequence a⟩ text = ⟨t, .sequence (a ++ text)⟩ := by
  induction text generalizing a with
  | nil => rw [List.append_nil]; rfl
  | cons c text ih =>
    have here := part c List.mem_cons_self
    have step : Tty.receive ⟨t, .sequence a⟩ c = ⟨t, .sequence (a ++ [c])⟩ := by
      simp only [Tty.receive]
      rw [if_neg (by omega)]
    rw [Tty.interpret, List.foldl_cons, step]
    have rest := ih (a := a ++ [c]) fun d member => part d (List.mem_cons_of_mem c member)
    rwa [List.append_assoc] at rest

/-- A whole sequence. -/
theorem interpret_control {final : Byte} (part : ∀ c ∈ text, c.toNat < 0x40)
    (ends : 0x40 ≤ final.toNat ∧ final.toNat < 0x7f) :
    Tty.interpret ⟨t, .ground⟩ (escape :: bracket :: (text ++ [final])) =
      ⟨execute text final t, .ground⟩ := by
  have opened : Tty.interpret ⟨t, .ground⟩ (escape :: bracket :: (text ++ [final])) =
      Tty.interpret ⟨t, .sequence []⟩ (text ++ [final]) := rfl
  rw [opened, interpret_append, interpret_sequence part, List.nil_append]
  simp only [Tty.interpret, List.foldl_cons, List.foldl_nil, Tty.receive, if_pos ends]

theorem Digits.before (digits : Digits a) :
    (a ++ semicolon :: b).takeWhile (· != semicolon) = a ∧
    (a ++ semicolon :: b).dropWhile (· != semicolon) = semicolon :: b := by
  have other : ∀ c ∈ a, (c != semicolon) = true := by
    intro c member
    have range := digits c member
    rw [bne_iff_ne]
    rintro rfl
    simp [semicolon] at range
  rw [List.takeWhile_append_of_pos other, List.dropWhile_append_of_pos other]
  simp

/-- Two numbers make a position. -/
theorem interpret_position (first : Digits a) (second : Digits b) :
    Tty.interpret ⟨t, .ground⟩ (escape :: bracket :: (a ++ semicolon :: b ++ [letterH])) =
      ⟨t.move (reading 10 a) (reading 10 b), .ground⟩ := by
  rw [interpret_control (fun c member => ?_) (by decide), execute, if_pos rfl, first.before.1,
    first.before.2]
  · rfl
  · rcases List.mem_append.mp member with left | right
    · have := first c left
      omega
    · rcases List.mem_cons.mp right with rfl | right
      · decide
      · have := second c right
        omega

theorem digitChar_decimal {d : Nat} (small : d < 10) :
    0x30 ≤ (digitChar false d).toNat ∧ (digitChar false d).toNat < 0x3a := by
  revert d
  decide

theorem magnitude_decimal : Digits (magnitude 10 false 0 n).reverse := by
  intro c member
  rcases List.mem_append.mp (List.mem_reverse.mp member) with digit | padding
  · obtain ⟨d, low, rfl⟩ := List.mem_map.mp digit
    exact digitChar_decimal (digitsOf_lt (by decide) low)
  · rw [List.eq_of_mem_replicate padding]
    decide

/-- A coordinate that is not negative is printed in digits only. -/
theorem numeral_coordinate (low : 0 ≤ x) (high : x < 2147483648) :
    numeral 10 false false 0 (BitVec.ofInt 32 x) = (magnitude 10 false 0 x.toNat).reverse := by
  have value : (BitVec.ofInt 32 x).toInt = x := by
    rw [BitVec.toInt_ofInt, Int.bmod_eq_of_le (by omega) (by omega)]
  have unsigned : (BitVec.ofInt 32 x).toNat = x.toNat := by
    rw [BitVec.toNat_ofInt, Int.emod_eq_of_lt low (by omega)]
  rw [numeral, value, if_neg (by omega), unsigned]

variable {stack : Buffer} {l : Line} {first : Terminal} {fmt : CString} {args : List Arg}
  {pieces : List {piece : Piece // piece.Writable}}

/-- A text that is short and has no zero byte in it is sent as it is. -/
theorem run_printkLine (pieces : List {piece : Piece // piece.Writable})
    (same : formatOf pieces = fmt)
    (meant : render (pieces.map Subtype.val) args = some text) (short : text.length ≤ 255)
    (noNul : ∀ c ∈ text, c ≠ 0) :
    run (printkLine stack fmt args) l = some ((), { l with wire := l.wire ++ text }) := by
  have whole : text.takeWhile (· != 0) = text :=
    List.takeWhile_eq_self_iff.mpr fun c member => by simpa using noNul c member
  rw [← parse_formatOf, same] at meant
  rw [printkLine, printk_prints meant, List.take_of_length_le short, whole]
  rfl

/-- What `vt100_move_cursor` sends. -/
def position (x y : Int) : List Byte :=
  escape :: bracket :: ((magnitude 10 false 0 y.toNat).reverse ++
    semicolon :: (magnitude 10 false 0 x.toNat).reverse ++ [letterH])

theorem run_vt100MoveCursor (column : 0 ≤ x ∧ x < 2147483648) (row : 0 ≤ y ∧ y < 2147483648) :
    run (Line.vt100MoveCursor stack x y) l =
      some ((), { l with wire := l.wire ++ position x y }) := by
  have short (z : Int) (low : 0 ≤ z) (high : z < 2147483648) :
      (magnitude 10 false 0 z.toNat).length ≤ 11 := by
    have length : (numeral 10 false false 0 (BitVec.ofInt 32 z)).length ≤ 11 :=
      numeral_short (by decide)
    rwa [numeral_coordinate low high, List.length_reverse] at length
  have left := short x column.1 column.2
  have right := short y row.1 row.2
  let number : {piece : Piece // piece.Writable} :=
    ⟨.number 10 false false 0, .inl ⟨rfl, rfl⟩, by decide⟩
  have meant : render ([⟨.character, trivial⟩, ⟨.char bracket, (by decide : bracket ≠ 0)⟩, number,
      ⟨.char semicolon, (by decide : semicolon ≠ 0)⟩, number,
      ⟨.char letterH, (by decide : letterH ≠ 0)⟩].map Subtype.val)
      [.int 27, .int (BitVec.ofInt 32 y), .int (BitVec.ofInt 32 x)] =
      some ([escape] ++ ([bracket] ++ (numeral 10 false false 0 (BitVec.ofInt 32 y) ++
        ([semicolon] ++ (numeral 10 false false 0 (BitVec.ofInt 32 x) ++ ([letterH] ++ [])))))) := rfl
  rw [numeral_coordinate column.1 column.2, numeral_coordinate row.1 row.2] at meant
  refine run_printkLine [⟨.character, trivial⟩,
    ⟨.char bracket, (by decide : bracket ≠ 0)⟩, number,
    ⟨.char semicolon, (by decide : semicolon ≠ 0)⟩, number,
    ⟨.char letterH, (by decide : letterH ≠ 0)⟩] rfl ?_ ?_ ?_
  · rw [meant, position]
    simp only [List.append_nil, List.append_assoc, List.cons_append, List.nil_append]
  · simp only [position, List.length_cons, List.length_append, List.length_reverse,
      List.length_nil]
    omega
  · intro c member
    have plain (z : Int) (here : c ∈ (magnitude 10 false 0 z.toNat).reverse) : c ≠ 0 :=
      (magnitude_plain (by decide) (by decide) (List.mem_reverse.mp here)).2
    simp only [position, List.mem_cons, List.mem_append, List.not_mem_nil, or_false] at member
    rcases member with rfl | rfl | (here | rfl | here) | rfl
    · decide
    · decide
    · exact plain y here
    · decide
    · exact plain x here
    · decide

theorem interpret_move (column : 0 ≤ x) (row : 0 ≤ y) :
    Tty.interpret ⟨t, .ground⟩ (position x y) = ⟨t.move y x, .ground⟩ := by
  rw [position, interpret_position magnitude_decimal magnitude_decimal,
    reading_magnitude (by decide) (by decide), reading_magnitude (by decide) (by decide),
    Int.toNat_of_nonneg row, Int.toNat_of_nonneg column]

theorem run_vt100Clear : run (Line.vt100Clear stack) l =
    some ((), { l with wire := l.wire ++ [escape, bracket, 0x32, letterJ] }) :=
  run_printkLine [⟨.character, trivial⟩, ⟨.char bracket, (by decide : bracket ≠ 0)⟩,
    ⟨.char 0x32, (by decide : (0x32 : Byte) ≠ 0)⟩, ⟨.char letterJ, (by decide : letterJ ≠ 0)⟩]
    rfl rfl (by decide) (by decide)

theorem run_vt100HiddenCursor : run (Line.vt100HiddenCursor stack) l =
    some ((), { l with wire := l.wire ++ [escape, bracket, 0x3f, 0x32, 0x35, 0x6c] }) :=
  run_printkLine [⟨.character, trivial⟩, ⟨.char bracket, (by decide : bracket ≠ 0)⟩,
    ⟨.char 0x3f, (by decide : (0x3f : Byte) ≠ 0)⟩, ⟨.char 0x32, (by decide : (0x32 : Byte) ≠ 0)⟩,
    ⟨.char 0x35, (by decide : (0x35 : Byte) ≠ 0)⟩, ⟨.char 0x6c, (by decide : (0x6c : Byte) ≠ 0)⟩]
    rfl rfl (by decide) (by decide)

theorem interpret_clear :
    Tty.interpret ⟨t, .ground⟩ [escape, bracket, 0x32, letterJ] = ⟨t.clear, .ground⟩ := rfl

theorem interpret_hide :
    Tty.interpret ⟨t, .ground⟩ [escape, bracket, 0x3f, 0x32, 0x35, 0x6c] = ⟨t, .ground⟩ := rfl

theorem interpret_plain (plain : c ≠ escape) :
    Tty.interpret ⟨t, .ground⟩ [c] = ⟨t.put c, .ground⟩ := by
  simp only [Tty.interpret, List.foldl_cons, List.foldl_nil, Tty.receive, if_neg plain]

end Tina.Display
