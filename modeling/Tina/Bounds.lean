import Tina.Page

/-! Where the screen arrays are accessed when processes move the one cursor and the scheduler
replaces it. A character is stored before the cursor is corrected. -/
namespace Tina.Display

open ByteBuffer Atomic Transition

variable {s t u : Screen} {x y : Int} {ch : Byte}

/-- The cursor addresses a cell, and so does the position before it in its line. -/
def Safe (x y : Int) : Prop :=
  (0 ≤ int32 (y * screenWidth + x) ∧ int32 (y * screenWidth + x) < screenSize) ∧
    (0 < x → 0 < int32 (y * screenWidth + x))

theorem InScreen.safe (inside : InScreen x y) : Safe x y := by
  refine ⟨inside.index, fun positive => ?_⟩
  have above := inside.2.1
  rw [inside.index_eq]
  simp only [screenWidth]
  omega

theorem index_before (positive : 0 < int32 (y * screenWidth + x)) :
    int32 (y * screenWidth + int32 (x - 1)) = int32 (y * screenWidth + x) - 1 := by
  have before : int32 (y * screenWidth + int32 (x - 1)) = int32 (y * screenWidth + x - 1) := by
    rw [Int.add_comm, int32_add, Int.add_comm, Int.add_sub_assoc]
  have once : int32 (y * screenWidth + x - 1) = int32 (int32 (y * screenWidth + x) + -1) := by
    rw [int32_add, Int.sub_eq_add_neg]
  have high : int32 (y * screenWidth + x) < 2147483648 := Int.bmod_lt (by decide)
  rw [before, once, int32_of_lt (by omega) (by omega), Int.sub_eq_add_neg]

theorem clamped_inside (s : Screen) :
    (0 ≤ (clamped s).cursorX ∧ (clamped s).cursorX < screenWidth) ∧ 0 ≤ (clamped s).cursorY := by
  have left : 0 ≤ (clampX s).cursorX := by
    rw [clampX]
    split
    · exact Int.le_refl 0
    · exact Int.not_lt.mp ‹_›
  have right : 0 ≤ (wrapX (clampX s)).cursorX ∧ (wrapX (clampX s)).cursorX < screenWidth := by
    rw [wrapX]
    split
    · exact ⟨Int.le_refl 0, first_column.2.1⟩
    · exact ⟨left, Int.not_le.mp ‹_›⟩
  rw [clamped, clampY]
  split
  · exact ⟨right, Int.le_refl 0⟩
  · exact ⟨right, Int.not_lt.mp ‹_›⟩

theorem keepInside_inside (s : Screen) :
    ∃ t, run keepInside s = some ((), t) ∧ InScreen t.cursorX t.cursorY := by
  obtain ⟨column, above⟩ := clamped_inside s
  rw [run_keepInside]
  split
  next inside => exact ⟨_, rfl, column, above, inside⟩
  next =>
    obtain ⟨t, result, -⟩ := run_screenScroll (clamped s)
    rw [result]
    exact ⟨_, rfl, ⟨Int.le_refl 0, first_column.2.1⟩,
      (by decide : 0 ≤ screenHeight - 1 ∧ screenHeight - 1 < screenHeight)⟩

theorem writeKind_safe (safe : Safe s.cursorX s.cursorY) (ch : Byte) :
    ∃ u, run (writeKind ch) s = some ((), u) := by
  rw [writeKind]
  split
  · exact ⟨_, run_nextLine⟩
  split
  · by_cases right : 0 < s.cursorX
    · have range := safe.1
      have positive := safe.2 right
      refine ⟨_, run_writeBack right ?_⟩
      rw [index_before positive]
      omega
    · exact ⟨_, run_writeBack_none right⟩
  split
  · exact ⟨_, run_nextLine⟩
  · exact ⟨_, run_writeOne safe.1⟩

/-- A character is stored inside the array, and leaves the cursor inside the screen. -/
theorem screenWriteCh_inside (safe : Safe s.cursorX s.cursorY) (ch : Byte) :
    ∃ t, run (screenWriteCh ch) s = some ((), t) ∧ InScreen t.cursorX t.cursorY := by
  obtain ⟨u, first⟩ := writeKind_safe safe ch
  obtain ⟨t, rest, inside⟩ := keepInside_inside u
  exact ⟨t, by rw [screenWriteCh, run_then first, rest], inside⟩

theorem screenWrite_inside (safe : Safe s.cursorX s.cursorY) (buff : List Byte) :
    ∃ t, run (screenWrite buff) s = some ((), t) ∧ Safe t.cursorX t.cursorY ∧
      (buff ≠ [] → InScreen t.cursorX t.cursorY) := by
  induction buff generalizing s with
  | nil => exact ⟨s, rfl, safe, fun some => absurd rfl some⟩
  | cons ch buff ih =>
    obtain ⟨u, first, inside⟩ := screenWriteCh_inside safe ch
    obtain ⟨t, rest, safe', later⟩ := ih inside.safe
    refine ⟨t, by rw [screenWrite, run_then first, rest], safe', fun _ => ?_⟩
    cases buff with
    | nil =>
      cases rest
      exact inside
    | cons ch' buff => exact later (List.cons_ne_nil ch' buff)

theorem run_commandClear (s : Screen) : ∃ t, run commandClear s = some ((), t) ∧
    t.cursorX = 0 ∧ t.cursorY = 0 := by
  have lines : (0 : Int) ≤ screenHeight - 1 + 1 := by decide
  have range : ∀ {i j : Int}, 0 ≤ i → i ≤ screenHeight - 1 → 0 ≤ j → j < screenWidth →
      0 ≤ i * screenWidth + j ∧ i * screenWidth + j < screenSize := fun low high column inside =>
    index_range ⟨low, Int.lt_of_le_sub_one high⟩ ⟨column, inside⟩
  have always : ∀ {P : Screen → Prop} s, P s → True := fun _ _ => trivial
  have erase : Meets (fun _ => True) (fun _ => True)
      (eachCell 0 (screenHeight - 1) fun i j => do
        writeNew (i * screenWidth + j) space
        writeOld (i * screenWidth + j) 0) fun _ _ => True := by
    refine eachCell_keeps lines always fun i j low high column inside => ?_
    rw [writeNew, writeOld, if_pos (range low high column inside),
      if_pos (range low high column inside)]
    exact .bind (m := fun _ _ => True) (.change always always always)
      fun _ => .change always always always
  have start : Meets (fun _ => True) (fun _ => True) (setX 0 >>= fun _ => setY 0)
      fun _ t => t.cursorX = 0 ∧ t.cursorY = 0 :=
    .bind (m := fun _ t => t.cursorX = 0) (.change always always fun _ _ => rfl)
      fun _ => .change always always fun _ here => ⟨here, rfl⟩
  have keep : ∀ {α : Type} {f : Screen → α}, Meets (fun _ => True)
      (fun t : Screen => t.cursorX = 0 ∧ t.cursorY = 0) (read f)
      fun _ t => t.cursorX = 0 ∧ t.cursorY = 0 := .read always fun _ => id
  have draw : Meets (fun _ => True) (fun t : Screen => t.cursorX = 0 ∧ t.cursorY = 0)
      screenReflush fun _ t => t.cursorX = 0 ∧ t.cursorY = 0 := by
    refine .bind (eachCell_keeps lines always fun i j low high column inside => ?_)
      fun _ => keep.bind fun x => keep.bind fun y => .change always always fun _ => id
    simp only [reflushCell, readNew, readOld, writeOld, vt100MoveCursor, portWriteCh,
      if_pos (range low high column inside)]
    refine keep.bind fun new => keep.bind fun old => .ite (fun _ => ?_) fun _ => .pure always fun _ => id
    refine .bind (m := fun _ t => t.cursorX = 0 ∧ t.cursorY = 0) (.change always always fun _ here => here)
      fun _ => keep.bind fun c => ?_
    exact .bind (m := fun _ t => t.cursorX = 0 ∧ t.cursorY = 0)
      (.change always always fun _ here => here) fun _ => keep.bind fun c =>
        .change always always fun _ here => here
  have whole := erase.bind fun _ => start.bind fun _ => draw
  rw [bind_assoc] at whole
  obtain ⟨_, t, result, cursor⟩ := whole.ends (s := s) trivial
  exact ⟨t, result, cursor⟩

/-! The screen among the processes. -/

/-- `saved` are the cursors in the process control blocks. -/
structure Desk where
  screen : Screen
  saved : Nat → Int × Int

/-- The calls that reach the screen, and the two places of the scheduler: the cursor goes to
the block `out` and comes from the block `into`. -/
inductive Event where
  | write (buff : List Byte)
  | move (x y : Int)
  | clear
  | switch (out into : Nat)

def Event.execute : Event → Desk → Option Desk
  | .write buff, d => (run (screenWrite buff) d.screen).map fun r => { d with screen := r.2 }
  | .move x y, d => (run (screenMoveCursor x y) d.screen).map fun r => { d with screen := r.2 }
  | .clear, d => (run commandClear d.screen).map fun r => { d with screen := r.2 }
  | .switch out into, d =>
    let saved := Function.update d.saved out (d.screen.cursorX, d.screen.cursorY)
    some ⟨{ d.screen with cursorX := (saved into).1, cursorY := (saved into).2 }, saved⟩

/-- All accesses of an event are inside the arrays, and every character leaves the cursor inside
the screen. -/
structure Confined (d : Desk) (e : Event) : Prop where
  accesses : e.execute d ≠ none
  cursor : ∀ before ch after, e = .write (before ++ ch :: after) →
    ∃ t, run (screenWrite (before ++ [ch])) d.screen = some ((), t) ∧
      InScreen t.cursorX t.cursorY

/-- The cursor is only moved to where a character can be stored. -/
def Moderate (_ : Desk) : Event → Prop
  | .move x y => Safe x y
  | _ => True

structure Desk.Safe (d : Desk) : Prop where
  cursor : Display.Safe d.screen.cursorX d.screen.cursorY
  saved : ∀ p, Display.Safe (d.saved p).1 (d.saved p).2

variable {d d' : Desk} {e : Event}

theorem Desk.Safe.execute (safe : d.Safe) (moderate : Moderate d e) :
    ∃ d', e.execute d = some d' ∧ d'.Safe := by
  cases e with
  | write buff =>
    obtain ⟨t, result, cursor, -⟩ := screenWrite_inside safe.cursor buff
    exact ⟨{ d with screen := t }, by rw [Event.execute, result]; rfl, cursor, safe.saved⟩
  | move x y => exact ⟨_, rfl, moderate, safe.saved⟩
  | clear =>
    obtain ⟨t, result, x, y⟩ := run_commandClear d.screen
    have corner : Display.Safe 0 0 := by
      apply InScreen.safe
      exact ⟨⟨Int.le_refl 0, first_column.2.1⟩, by decide⟩
    refine ⟨{ d with screen := t }, by rw [Event.execute, result]; rfl, ?_, safe.saved⟩
    rw [x, y]
    exact corner
  | switch out into =>
    have copies : ∀ p, Display.Safe
        (Function.update d.saved out (d.screen.cursorX, d.screen.cursorY) p).1
        (Function.update d.saved out (d.screen.cursorX, d.screen.cursorY) p).2 := by
      intro p
      by_cases same : p = out
      · rw [same, Function.update_self]
        exact safe.cursor
      · rw [Function.update_of_ne same]
        exact safe.saved p
    exact ⟨_, rfl, copies into, copies⟩

theorem Desk.Safe.confined (safe : d.Safe) (moderate : Moderate d e) : Confined d e where
  accesses := by
    obtain ⟨d', result, -⟩ := safe.execute moderate
    rw [result]
    exact nofun
  cursor before ch after _ := by
    obtain ⟨t, result, -, inside⟩ := screenWrite_inside safe.cursor (before ++ [ch])
    exact ⟨t, result, inside (by simp)⟩

/-- In every run of the processes in which the cursor is only moved to where a character can be
stored. -/
theorem accesses_confined (terminal : Terminal) : ∃ first,
    run initScreen (powerOn terminal) = some ((), first) ∧
    ∀ d, Reachable (fun d (e : Event) d' => e.execute d = some d') Moderate ⟨first, fun _ => (0, 0)⟩ d →
      ∀ e, Moderate d e → Confined d e := by
  have zero : ∀ k, (powerOn terminal).old k = 0 := fun _ => rfl
  obtain ⟨_, first, result, blank⟩ := initScreen_meets.ends zero
  have corner : Safe 0 0 := by
    apply InScreen.safe
    exact ⟨⟨Int.le_refl 0, first_column.2.1⟩, by decide⟩
  refine ⟨first, result, fun d reach e moderate => Desk.Safe.confined ?_ moderate⟩
  apply reach.invariant Desk.Safe ⟨blank.inside.cursor.safe, fun _ => corner⟩
  intro d e d' safe moderate step
  obtain ⟨d'', result, safe'⟩ := safe.execute moderate
  cases step.symm.trans result
  exact safe'

/-- A move to where no character can be stored is followed by an access outside the array as
soon as a character comes. -/
theorem move_safe_iff (s : Screen) (x y : Int) : Safe x y ↔ ∀ ch,
    run (screenMoveCursor x y >>= fun _ => screenWriteCh ch) s ≠ none := by
  have moved : run (screenMoveCursor x y) s = some ((), { s with cursorX := x, cursorY := y }) := rfl
  constructor
  · intro safe ch
    obtain ⟨t, result, -⟩ := @screenWriteCh_inside { s with cursorX := x, cursorY := y } safe ch
    rw [run_then moved, result]
    exact nofun
  · intro stores
    have letter := stores 0x41
    have erased := stores backspace
    have kind : writeKind 0x41 = writeOne 0x41 := rfl
    have kind' : writeKind backspace = writeBack := rfl
    rw [run_then moved, screenWriteCh, run_bind, kind] at letter
    rw [run_then moved, screenWriteCh, run_bind, kind'] at erased
    have range : 0 ≤ int32 (y * screenWidth + x) ∧ int32 (y * screenWidth + x) < screenSize := by
      by_contra outside
      apply letter
      simp only [writeOne, cursorIndex, getX, getY, writeNew, run_bind, run_read, run_pure,
        Option.bind_some, if_neg outside, run_undefined, Option.bind_none]
    refine ⟨range, fun positive => ?_⟩
    by_contra first
    -- The cell before the first one.
    have zero : int32 (y * screenWidth + x) = 0 := by omega
    have before : int32 (y * screenWidth + int32 (x - 1)) = -1 := by
      rw [Int.add_comm, int32_add, Int.add_comm, ← Int.add_sub_assoc, Int.sub_eq_add_neg,
        ← int32_add, zero]
      decide
    apply erased
    simp only [writeBack, cursorIndex, getX, getY, setX, whenever, writeNew, run_bind, run_read,
      run_pure, run_change, Option.bind_some, if_pos positive, before, screenSize]
    rfl

theorem accesses_confined_two : ∃ first d d', run initScreen (powerOn dots) = some ((), first) ∧
    Event.execute (.move 79 29) ⟨first, fun _ => (0, 0)⟩ = some d ∧
    Event.execute (.switch 0 1) d = some d' ∧ Confined d' (.write [0x41]) := by
  obtain ⟨first, result, confined⟩ := accesses_confined dots
  obtain ⟨d, moved⟩ : ∃ d, Event.execute (.move 79 29) ⟨first, fun _ => (0, 0)⟩ = some d := ⟨_, rfl⟩
  obtain ⟨d', switched⟩ : ∃ d', Event.execute (.switch 0 1) d = some d' := ⟨_, rfl⟩
  have inside : InScreen 79 29 := ⟨by decide, by decide⟩
  have reach : Reachable (fun d (e : Event) d' => e.execute d = some d') Moderate
      ⟨first, fun _ => (0, 0)⟩ d := .step .start (a := .move 79 29) inside.safe moved
  have always : Moderate d (.switch 0 1) := trivial
  exact ⟨first, d, d', result, moved, switched,
    confined d' (reach.step always switched) (.write [0x41]) trivial⟩

/-- The cursor is moved below the last line, and a character is written. -/
theorem accesses_escape : ¬∀ first, run initScreen (powerOn dots) = some ((), first) →
    ∀ d, Reachable (fun d (e : Event) d' => e.execute d = some d') (fun _ _ => True)
      ⟨first, fun _ => (0, 0)⟩ d → ∀ e, Confined d e := by
  intro confined
  have zero : ∀ k, (powerOn dots).old k = 0 := fun _ => rfl
  obtain ⟨_, t, written, -⟩ := initScreen_meets.ends zero
  have moved : Event.execute (.move 0 30) ⟨t, fun _ => (0, 0)⟩ =
      some ⟨{ t with cursorX := 0, cursorY := 30 }, fun _ => (0, 0)⟩ := rfl
  obtain ⟨u, stored, -⟩ := (confined t written _ (.step .start trivial moved)
    (.write [0x41])).cursor [] 0x41 [] rfl
  have kind : writeKind 0x41 = writeOne 0x41 := rfl
  have outside : ¬(0 ≤ int32 (30 * screenWidth + 0) ∧ int32 (30 * screenWidth + 0) < screenSize) := by
    decide
  simp only [List.nil_append, screenWrite, screenWriteCh, kind, writeOne, cursorIndex, getX, getY,
    writeNew, run_bind, run_read, run_pure, Option.bind_some, if_neg outside, run_undefined,
    Option.bind_none] at stored
  cases stored

end Tina.Display
