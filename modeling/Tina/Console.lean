import Tina.Splitting

/-! The line editor of `test_shell`. After every character a zero byte goes behind the one
that follows the text. -/
namespace Tina.Console

open ByteBuffer Splitting

/-- `CMD_LEN`. -/
def cmdLen : Nat := 128

def backspace : Byte := 0x08
def delete : Byte := 0x7f
def newline : Byte := 0x0a
def enter : Byte := 0x0d

/-- `buf` and `i`. -/
structure Editor where
  buf : Buffer
  i : Nat

/-- `char buf[CMD_LEN] = ""`. -/
def blank : Editor := ⟨fun _ => 0, 0⟩

def store (k : Nat) (c : Byte) (buf : Buffer) : Option Buffer :=
  if k < cmdLen then some (Function.update buf k c) else none

/-- What the cases of the `switch` do, and what they pass to `decode`. -/
def receive (ch : Byte) (e : Editor) : Option (Option (List Byte) × Editor) :=
  if ch = 0 then some (none, e)
  else if ch = backspace ∨ ch = delete then
    some (none, if e.i ≠ 0 then { e with i := e.i - 1 } else e)
  else if ch = enter ∨ ch = newline then do
    let buf ← store e.i 0 e.buf
    return (some (cstring buf 0 cmdLen), ⟨buf, 0⟩)
  else do
    let buf ← store e.i ch e.buf
    return (none, ⟨buf, e.i + 1⟩)

/-- One round of the loop. -/
def round (ch : Byte) (e : Editor) : Option (Option (List Byte) × Editor) := do
  let (line, e) ← receive ch e
  let buf ← store (e.i + 1) 0 e.buf
  return (line, { e with buf := buf })

/-- The lines that `decode` gets. -/
def testShell : List Byte → Editor → Option (List (List Byte) × Editor)
  | [], e => some ([], e)
  | ch :: input, e => do
    let (line, e) ← round ch e
    let (lines, e) ← testShell input e
    return (line.toList ++ lines, e)

/-! What the characters mean. -/

abbrev EndsLine (ch : Byte) : Prop := ch = enter ∨ ch = newline

def edit (text : List Byte) (ch : Byte) : List Byte :=
  if ch = 0 then text
  else if ch = backspace ∨ ch = delete then text.dropLast
  else if EndsLine ch then []
  else text ++ [ch]

def current (input : List Byte) : List Byte := input.foldl edit []

/-- The texts of the lines that end, when `text` stands in the first. -/
def linesFrom : List Byte → List Byte → List (List Byte)
  | _, [] => []
  | text, ch :: input =>
    if EndsLine ch then text :: linesFrom [] input else linesFrom (edit text ch) input

def lines (input : List Byte) : List (List Byte) := linesFrom [] input

example : lines [0x61, 0x62, 8, 0, 0x63, 13, 8, 10] = [[0x61, 0x63], []] := by decide

variable {e : Editor} {ch : Byte} {text input : List Byte} {k : Nat} {c : Byte} {buf : Buffer}

/-- The text stands at the beginning of `buf`, and none of its characters is zero. -/
structure Holds (text : List Byte) (e : Editor) : Prop where
  index : e.i = text.length
  bytes : ∀ k < text.length, e.buf k = text.getD k 0
  noNul : ∀ c ∈ text, c ≠ 0

theorem Holds.start : Holds [] blank := ⟨rfl, fun k low => absurd low (Nat.not_lt_zero k), nofun⟩

theorem store_inside (inside : k < cmdLen) : store k c buf = some (Function.update buf k c) :=
  if_pos inside

theorem Holds.string (holds : Holds text e) (short : text.length < cmdLen) :
    cstring (Function.update e.buf e.i 0) 0 cmdLen = text := by
  apply Reads.cstring (reads_of _ holds.noNul _) short
  · intro k low
    rw [Nat.zero_add, Function.update_of_ne (by rw [holds.index]; omega)]
    exact holds.bytes k low
  · rw [Nat.zero_add, holds.index, Function.update_self]

/-- The terminator is behind the text. -/
theorem Holds.terminate (holds : Holds text e) :
    Holds text { e with buf := Function.update e.buf (e.i + 1) 0 } where
  index := holds.index
  bytes k low := by
    refine (Function.update_of_ne ?_ ..).trans (holds.bytes k low)
    rw [holds.index]
    omega
  noNul := holds.noNul

theorem Holds.erase (holds : Holds text e) :
    Holds text.dropLast (if e.i ≠ 0 then { e with i := e.i - 1 } else e) := by
  have noNul : ∀ c ∈ text.dropLast, c ≠ 0 := fun c member =>
    holds.noNul c (List.dropLast_subset _ member)
  have bytes : ∀ k < text.dropLast.length, e.buf k = text.dropLast.getD k 0 := by
    intro k low
    rw [List.length_dropLast] at low
    rw [holds.bytes k (by omega), List.getD_eq_getElem?_getD, List.getD_eq_getElem?_getD,
      List.getElem?_dropLast, if_pos low]
  by_cases some : e.i ≠ 0
  · rw [if_pos some]
    refine ⟨?_, bytes, noNul⟩
    rw [List.length_dropLast, ← holds.index]
  · rw [if_neg some]
    have none : text = [] := List.eq_nil_of_length_eq_zero (by rw [← holds.index]; omega)
    subst none
    exact holds

theorem Holds.append (holds : Holds text e) (some : ch ≠ 0) :
    Holds (text ++ [ch]) ⟨Function.update e.buf e.i ch, e.i + 1⟩ where
  index := by rw [List.length_append, holds.index, List.length_singleton]
  bytes k low := by
    rw [List.length_append, List.length_singleton] at low
    dsimp only
    by_cases last : k = e.i
    · rw [last, Function.update_self, holds.index]
      simp
    · rw [holds.index] at last
      rw [Function.update_of_ne (by rw [holds.index]; exact last), holds.bytes k (by omega),
        List.getD_eq_getElem?_getD, List.getD_eq_getElem?_getD,
        List.getElem?_append_left (by omega)]
  noNul c member := by
    rcases List.mem_append.mp member with old | new
    · exact holds.noNul c old
    · rw [List.mem_singleton.mp new]
      exact some

/-- A line of 126 characters is the longest that can be edited. -/
def longest : Nat := cmdLen - 2

theorem receive_holds (holds : Holds text e) (short : text.length ≤ longest) :
    ∃ u, receive ch e = some (if EndsLine ch then some text else none, u) ∧
      Holds (edit text ch) u := by
  have inside : e.i < cmdLen := by
    rw [holds.index]
    exact Nat.lt_of_le_of_lt short (by decide)
  rw [receive, edit]
  by_cases nothing : ch = 0
  · have more : ¬EndsLine ch := by
      rw [nothing]
      decide
    rw [if_pos nothing, if_pos nothing, if_neg more]
    exact ⟨e, rfl, holds⟩
  by_cases erases : ch = backspace ∨ ch = delete
  · have more : ¬EndsLine ch := by
      rcases erases with rfl | rfl <;> decide
    rw [if_neg nothing, if_neg nothing, if_pos erases, if_pos erases, if_neg more]
    exact ⟨_, rfl, holds.erase⟩
  rw [if_neg nothing, if_neg nothing, if_neg erases, if_neg erases, store_inside inside,
    store_inside inside]
  by_cases ends : EndsLine ch
  · rw [if_pos ends, if_pos ends, if_pos ends]
    refine ⟨⟨Function.update e.buf e.i 0, 0⟩, ?_, rfl,
      fun k low => absurd low (Nat.not_lt_zero k), fun c none => absurd none (by simp)⟩
    simp only [Option.bind_eq_bind, Option.bind_some, Option.pure_def]
    rw [holds.string (Nat.lt_of_le_of_lt short (by decide))]
  · rw [if_neg ends, if_neg ends, if_neg ends]
    exact ⟨_, rfl, holds.append nothing⟩

theorem round_holds (holds : Holds text e) (short : text.length ≤ longest)
    (room : (edit text ch).length ≤ longest) : ∃ e', round ch e =
      some (if EndsLine ch then some text else none, e') ∧ Holds (edit text ch) e' := by
  obtain ⟨u, received, here⟩ := @receive_holds e ch text holds short
  have inside : u.i + 1 < cmdLen := by
    rw [here.index]
    exact Nat.lt_of_le_of_lt (Nat.succ_le_succ room) (by decide)
  refine ⟨_, ?_, here.terminate⟩
  simp only [round, received, store_inside inside, Option.bind_eq_bind, Option.bind_some,
    Option.pure_def]

/-- The character that makes a line too long puts the terminator behind `buf`. -/
theorem round_overruns (holds : Holds text e) (short : text.length ≤ longest)
    (long : longest < (edit text ch).length) : round ch e = none := by
  obtain ⟨u, received, here⟩ := @receive_holds e ch text holds short
  have outside : ¬u.i + 1 < cmdLen := by
    rw [here.index]
    exact Nat.not_lt.mpr (Nat.succ_le_succ long)
  simp only [round, received, Option.bind_eq_bind, Option.bind_some, store, if_neg outside,
    Option.bind_none]

theorem linesFrom_cons : linesFrom text (ch :: input) =
    (if EndsLine ch then some text else none).toList ++ linesFrom (edit text ch) input := by
  rw [linesFrom]
  by_cases ends : EndsLine ch
  · have none : edit text ch = [] := by
      rcases ends with rfl | rfl <;> rfl
    rw [if_pos ends, if_pos ends, none]
    rfl
  · rw [if_neg ends, if_neg ends]
    rfl

/-- No line gets too long while it is edited. -/
def Short (text input : List Byte) : Prop :=
  ∀ part, part <+: input → (part.foldl edit text).length ≤ longest

theorem Short.cons_iff (short : text.length ≤ longest) : Short text (ch :: input) ↔
    (edit text ch).length ≤ longest ∧ Short (edit text ch) input := by
  constructor
  · intro all
    exact ⟨all [ch] (List.prefix_append [ch] input), fun part before =>
      all (ch :: part) (List.prefix_cons_inj ch |>.mpr before)⟩
  · rintro ⟨first, rest⟩ part before
    cases part with
    | nil => exact short
    | cons d part =>
      obtain ⟨rfl, later⟩ := List.cons_prefix_cons.mp before
      exact rest part later

theorem testShell_iff (holds : Holds text e) (short : text.length ≤ longest) :
    (∃ e', testShell input e = some (linesFrom text input, e')) ↔ Short text input := by
  induction input generalizing text e with
  | nil =>
    refine ⟨fun _ part before => ?_, fun _ => ⟨e, rfl⟩⟩
    rw [List.prefix_nil.mp before]
    exact short
  | cons ch input ih =>
    rw [Short.cons_iff short]
    by_cases room : (edit text ch).length ≤ longest
    · obtain ⟨u, first, here⟩ := round_holds holds short room
      rw [← ih here room, and_iff_right room, linesFrom_cons]
      simp only [testShell, first, Option.bind_eq_bind, Option.bind_some, Option.pure_def]
      cases testShell input u with
      | none => simp
      | some r => simp [Prod.ext_iff]
    · have none := round_overruns holds short (Nat.lt_of_not_le room)
      simp only [testShell, none, Option.bind_eq_bind, Option.bind_none, room, false_and,
        iff_false]
      rintro ⟨e', result⟩
      cases result

/-- The stores stay inside `buf` and `decode` gets the edited lines exactly if no line ever has
more than 126 characters. -/
theorem lines_edited_iff (input : List Byte) :
    (∃ e, testShell input blank = some (lines input, e)) ↔
      ∀ part, part <+: input → (current part).length ≤ longest :=
  testShell_iff Holds.start (Nat.zero_le _)

theorem current_letters (n : Nat) (text : List Byte) :
    (List.replicate n 0x61).foldl edit text = text ++ List.replicate n 0x61 := by
  induction n generalizing text with
  | zero => simp
  | succ n ih =>
    have letter : edit text 0x61 = text ++ [0x61] := rfl
    rw [List.replicate_succ, List.foldl_cons, ih, letter, List.append_assoc]
    rfl

/-- A line of 127 letters. -/
theorem line_overruns : ¬∀ input, ∃ e, testShell input blank = some (lines input, e) := by
  intro all
  have short := (lines_edited_iff (List.replicate 127 0x61)).mp (all _) _ (List.prefix_refl _)
  rw [current, current_letters, List.nil_append, List.length_replicate] at short
  exact absurd short (by decide)

end Tina.Console
