import Tina.Refresh

/-! What `screen_write` draws. The lower part of the screen is a window on a page that has no
end. -/
namespace Tina.Display

open ByteBuffer Atomic

variable {s t u : Screen} {i j k x y : Int} {c ch : Byte} {top : Int → Byte}

/-! The program, step by step. -/

def clampX (s : Screen) : Screen := if s.cursorX < 0 then { s with cursorX := 0 } else s

def wrapX (s : Screen) : Screen :=
  if screenWidth ≤ s.cursorX then { s with cursorX := 0, cursorY := int32 (s.cursorY + 1) } else s

def clampY (s : Screen) : Screen := if s.cursorY < 0 then { s with cursorY := 0 } else s

/-- After the first three tests of `screen_write_ch`. -/
def clamped (s : Screen) : Screen := clampY (wrapX (clampX s))

/-- The first line that `screen_write_ch` scrolls. -/
def lowerLine : Int := screenHeight / 2 + 1

theorem run_keepInside : run keepInside s =
    if (clamped s).cursorY < screenHeight then some ((), clamped s)
    else (run (screenScroll lowerLine (screenHeight - 1)) (clamped s)).map fun r =>
      ((), { r.2 with cursorX := 0, cursorY := screenHeight - 1 }) := by
  have first : ∀ {f : Unit → Program Screen Unit},
      run (getX >>= fun x => whenever (x < 0) (setX 0) >>= f) s = run (f ()) (clampX s) := by
    intro f
    simp only [getX, whenever, setX, run_bind, run_read, Option.bind_some, clampX]
    split <;> rfl
  have second : ∀ {u : Screen} {f : Unit → Program Screen Unit},
      run (getX >>= fun x => (whenever (screenWidth ≤ x) do
        let y ← getY
        setY (int32 (y + 1))
        setX 0) >>= f) u = run (f ()) (wrapX u) := by
    intro u f
    simp only [getX, getY, whenever, setX, setY, run_bind, run_read, Option.bind_some, wrapX]
    split <;> rfl
  have third : ∀ {u : Screen} {f : Unit → Program Screen Unit},
      run (getY >>= fun y => whenever (y < 0) (setY 0) >>= f) u = run (f ()) (clampY u) := by
    intro u f
    simp only [getY, whenever, setY, run_bind, run_read, Option.bind_some, clampY]
    split <;> rfl
  rw [keepInside, first, second, third, ← clamped, getY, run_then run_read, whenever]
  by_cases inside : (clamped s).cursorY < screenHeight
  · rw [if_neg (Int.not_le.mpr inside), if_pos inside]
    rfl
  · rw [if_pos (Int.not_lt.mp inside), if_neg inside, ← lowerLine, run_bind]
    cases run (screenScroll lowerLine (screenHeight - 1)) (clamped s) <;> rfl

/-- What scrolling leaves. -/
structure Scrolled (s t : Screen) : Prop where
  cursorX : t.cursorX = s.cursorX
  cursorY : t.cursorY = s.cursorY
  moved : ∀ k, lowerLine * screenWidth ≤ k → k < (screenHeight - 1) * screenWidth →
    t.new k = s.new (k + screenWidth)
  blank : ∀ k, (screenHeight - 1) * screenWidth ≤ k → k < screenSize → t.new k = space
  upper : ∀ k < lowerLine * screenWidth, t.new k = s.new k

/-- Before the cell `n` is filled: those before it have been, the others have not. -/
structure Scrolling (s : Screen) (n : Int) (t : Screen) : Prop where
  cursorX : t.cursorX = s.cursorX
  cursorY : t.cursorY = s.cursorY
  moved : ∀ k < n, lowerLine * screenWidth ≤ k → k < (screenHeight - 1) * screenWidth →
    t.new k = s.new (k + screenWidth)
  blank : ∀ k < n, (screenHeight - 1) * screenWidth ≤ k → t.new k = space
  upper : ∀ k < lowerLine * screenWidth, t.new k = s.new k
  rest : ∀ k, n ≤ k → t.new k = s.new k

theorem Scrolling.start (cursorX : t.cursorX = s.cursorX) (cursorY : t.cursorY = s.cursorY)
    (new : t.new = s.new) : Scrolling s (lowerLine * screenWidth) t where
  cursorX := cursorX
  cursorY := cursorY
  moved k before behind := absurd before (Int.not_lt.mpr behind)
  blank k before behind := by
    simp only [lowerLine, screenWidth, screenHeight] at *
    omega
  upper k _ := by rw [new]
  rest k _ := by rw [new]

/-- The cell `n` is filled. -/
theorem Scrolling.fill (here : Scrolling s k t) (low : lowerLine * screenWidth ≤ k)
    (inner : k < (screenHeight - 1) * screenWidth → c = s.new (k + screenWidth))
    (last : (screenHeight - 1) * screenWidth ≤ k → c = space) :
    Scrolling s (k + 1) { t with new := Function.update t.new k c } where
  cursorX := here.cursorX
  cursorY := here.cursorY
  moved l before behind early := by
    by_cases same : l = k
    · subst same
      exact (Function.update_self ..).trans (inner early)
    · exact (Function.update_of_ne same ..).trans (here.moved l (by omega) behind early)
  blank l before late := by
    by_cases same : l = k
    · subst same
      exact (Function.update_self ..).trans (last late)
    · exact (Function.update_of_ne same ..).trans (here.blank l (by omega) late)
  upper l before :=
    (Function.update_of_ne (by omega) ..).trans (here.upper l before)
  rest l behind := (Function.update_of_ne (by omega) ..).trans (here.rest l (by omega))

/-- Where the cells of a scrolled line lie. -/
theorem scrolled_cell (low : lowerLine ≤ i) (high : i ≤ screenHeight - 1) (column : 0 ≤ j)
    (inside : j < screenWidth) : lowerLine * screenWidth ≤ i * screenWidth + j ∧
      i * screenWidth + j + screenWidth = (i + 1) * screenWidth + j ∧
      (i * screenWidth + j < (screenHeight - 1) * screenWidth ↔ i ≠ screenHeight - 1) ∧
      (0 ≤ i * screenWidth + j ∧ i * screenWidth + j < screenSize) ∧
      (i ≠ screenHeight - 1 →
        0 ≤ (i + 1) * screenWidth + j ∧ (i + 1) * screenWidth + j < screenSize) := by
  simp only [lowerLine, screenWidth, screenHeight, screenSize] at *
  omega

/-- One round of the second loop. -/
theorem scrollCell_meets (low : lowerLine ≤ i) (high : i ≤ screenHeight - 1) (column : 0 ≤ j)
    (inside : j < screenWidth) : Meets (fun _ => True) (Scrolling s (i * screenWidth + j))
      (if i = screenHeight - 1 then writeNew (i * screenWidth + j) space
        else do
          let c ← readNew ((i + 1) * screenWidth + j)
          writeNew (i * screenWidth + j) c)
      fun _ => Scrolling s (i * screenWidth + j + 1) := by
  obtain ⟨start, below, early, range, range'⟩ := scrolled_cell low high column inside
  have fill : ∀ c, (i ≠ screenHeight - 1 → c = s.new ((i + 1) * screenWidth + j)) →
      (i = screenHeight - 1 → c = space) →
      Meets (fun _ => True) (Scrolling s (i * screenWidth + j))
        (writeNew (i * screenWidth + j) c) fun _ => Scrolling s (i * screenWidth + j + 1) := by
    intro c inner last
    rw [writeNew, if_pos range]
    refine .change (fun _ _ => trivial) (fun _ _ => trivial) fun t here => ?_
    refine here.fill start (fun before => ?_) fun late => ?_
    · rw [below]
      exact inner (early.mp before)
    · exact last (by_contra fun other => absurd (early.mpr other) (Int.not_lt.mpr late))
  refine .ite (fun last => fill space (fun other => absurd last other) fun _ => rfl)
    fun inner => ?_
  have fetch : Meets (fun _ => True) (Scrolling s (i * screenWidth + j))
      (readNew ((i + 1) * screenWidth + j)) fun c t => Scrolling s (i * screenWidth + j) t ∧
        c = s.new ((i + 1) * screenWidth + j) := by
    rw [readNew, if_pos (range' inner)]
    refine .read (fun _ _ => trivial) fun t here => ⟨here, here.rest _ ?_⟩
    rw [← below]
    exact Int.le_add_of_nonneg_right (by decide)
  refine fetch.bind fun c => .given (fun _ => And.right) fun same => ?_
  exact (fill c (fun _ => same) (fun last => absurd last inner)).weaken (fun _ => And.left)
    fun _ _ => id

/-- All accesses of `screen_scroll` are inside, and the rows move up by one. -/
theorem run_screenScroll (s : Screen) : ∃ t,
    run (screenScroll lowerLine (screenHeight - 1)) s = some ((), t) ∧ Scrolled s t := by
  have lines : lowerLine ≤ screenHeight - 1 + 1 := by decide
  have erase : Meets (fun _ => True) (Scrolling s (lowerLine * screenWidth))
      (eachCell lowerLine (screenHeight - 1) fun i j => writeOld (i * screenWidth + j) 0)
      fun _ => Scrolling s (lowerLine * screenWidth) := by
    refine eachCell_keeps lines (fun _ _ => trivial) fun i j low high column inside => ?_
    obtain ⟨_, _, _, range, _⟩ := scrolled_cell low high column inside
    rw [writeOld, if_pos range]
    exact .change (fun _ _ => trivial) (fun _ _ => trivial) fun t here =>
      ⟨here.cursorX, here.cursorY, here.moved, here.blank, here.upper, here.rest⟩
  have shift := @eachCell_meets lowerLine (screenHeight - 1) (fun _ => True) (Scrolling s) _ lines
    (fun _ _ _ => trivial) fun i j low high column inside => scrollCell_meets low high column inside
  obtain ⟨_, t, result, done⟩ := (erase.bind fun _ => shift).ends (.start rfl rfl rfl)
  have last : (screenHeight - 1 + 1) * screenWidth = screenSize := by decide
  rw [last] at done
  refine ⟨t, result, done.cursorX, done.cursorY, fun k low high => ?_, fun k low high => ?_,
    done.upper⟩
  · exact done.moved k (Int.lt_trans high (by decide)) low high
  · exact done.blank k high low

theorem run_nextLine : run nextLine s =
    some ((), { s with cursorX := 0, cursorY := int32 (s.cursorY + 1) }) := rfl

theorem run_writeOne (range : 0 ≤ int32 (s.cursorY * screenWidth + s.cursorX) ∧
      int32 (s.cursorY * screenWidth + s.cursorX) < screenSize) : run (writeOne ch) s =
    some ((), { s with
      new := Function.update s.new (int32 (s.cursorY * screenWidth + s.cursorX)) ch
      cursorX := int32 (s.cursorX + 1) }) := by
  simp only [writeOne, cursorIndex, getX, getY, setX, writeNew, run_bind, run_read, run_pure,
    Option.bind_some, if_pos range, run_change]

theorem run_writeBack_none (left : ¬0 < s.cursorX) : run writeBack s = some ((), s) := by
  simp only [writeBack, getX, whenever, run_bind, run_read, Option.bind_some, if_neg left, run_pure]

theorem run_writeBack (right : 0 < s.cursorX) (range :
      0 ≤ int32 (s.cursorY * screenWidth + int32 (s.cursorX - 1)) ∧
      int32 (s.cursorY * screenWidth + int32 (s.cursorX - 1)) < screenSize) :
    run writeBack s = some ((), { s with
      new := Function.update s.new (int32 (s.cursorY * screenWidth + int32 (s.cursorX - 1))) space
      cursorX := int32 (s.cursorX - 1) }) := by
  simp only [writeBack, cursorIndex, getX, getY, setX, whenever, writeNew, run_bind, run_read,
    run_pure, run_change, Option.bind_some, if_pos right, if_pos range]

/-! The page. -/

/-- Rows and columns of characters, and a cursor. There is no last row. -/
structure Page where
  cell : Int → Int → Byte
  x : Int
  y : Int

/-- A character is put into one cell. -/
def put (row col : Int) (c : Byte) (cell : Int → Int → Byte) : Int → Int → Byte :=
  fun i j => if i = row ∧ j = col then c else cell i j

/-- A line is full after its last column. -/
def Page.wrap (p : Page) : Page :=
  if p.x = screenWidth then { p with x := 0, y := p.y + 1 } else p

def Page.write (p : Page) (ch : Byte) : Page :=
  if ch = newline ∨ ch = enter then { p with x := 0, y := p.y + 1 }
  else if ch = backspace then
    if 0 < p.x then { p with cell := put p.y (p.x - 1) space p.cell, x := p.x - 1 } else p
  else Page.wrap { p with cell := put p.y p.x ch p.cell, x := p.x + 1 }

def Page.type (text : List Byte) (p : Page) : Page := text.foldl Page.write p

/-- The rows of the screen, followed by blank ones. -/
def pageOf (s : Screen) : Page where
  cell i j := if i < screenHeight then s.new (i * screenWidth + j) else space
  x := s.cursorX
  y := s.cursorY

/-- By how many rows the cursor of the page is below the last row of the screen. -/
def Page.passed (p : Page) : Int := max 0 (p.y - (screenHeight - 1))

/-- The lower rows of the screen are rows of the page, `n` rows further down. -/
structure Lower (top : Int → Byte) (n : Int) (cell : Int → Int → Byte) (t : Screen) : Prop where
  upper : ∀ k < lowerLine * screenWidth, t.new k = top k
  lower : ∀ i j, lowerLine ≤ i → i < screenHeight → 0 ≤ j → j < screenWidth →
    t.new (i * screenWidth + j) = cell (i + n) j
  below : ∀ i j, screenHeight + n ≤ i → cell i j = space

/-- The screen beside the page. -/
structure Window (top : Int → Byte) (p : Page) (t : Screen) : Prop where
  shows : Lower top p.passed p.cell t
  inside : InScreen t.cursorX t.cursorY
  low : lowerLine ≤ t.cursorY
  x : t.cursorX = p.x
  y : t.cursorY = p.y - p.passed

variable {n : Int} {p : Page} {cell : Int → Int → Byte}

/-- Cells of the screen with the same index are the same. -/
theorem cell_index (column : 0 ≤ j ∧ j < screenWidth) (column' : 0 ≤ x ∧ x < screenWidth) :
    i * screenWidth + j = y * screenWidth + x ↔ i = y ∧ j = x := by
  simp only [screenWidth] at *
  omega

/-- A character is drawn on both. -/
theorem Lower.draw (shows : Lower top n cell t) (low : lowerLine ≤ y) (high : y < screenHeight)
    (column : 0 ≤ x ∧ x < screenWidth) (c : Byte) :
    Lower top n (put (y + n) x c cell)
      { t with new := Function.update t.new (y * screenWidth + x) c, cursorX := k, cursorY := i }
    where
  upper l before := by
    refine (Function.update_of_ne ?_ ..).trans (shows.upper l before)
    simp only [lowerLine, screenWidth, screenHeight] at *
    omega
  lower i j first last left right := by
    have index := @cell_index i j x y ⟨left, right⟩ column
    by_cases same : i = y ∧ j = x
    · rw [put, if_pos ⟨by omega, same.2⟩, index.mpr same]
      exact Function.update_self ..
    · rw [put, if_neg (by omega)]
      refine (Function.update_of_ne ?_ ..).trans (shows.lower i j first last left right)
      exact fun same' => same (index.mp same')
  below i j behind := by
    rw [put, if_neg (by omega)]
    exact shows.below i j behind

theorem Lower.moved (shows : Lower top n cell t) :
    Lower top n cell { t with cursorX := x, cursorY := y } :=
  ⟨shows.upper, shows.lower, shows.below⟩

/-- When the screen scrolls the window is one row further down. -/
theorem Lower.scroll (shows : Lower top n cell s) (scrolled : Scrolled s t) :
    Lower top (n + 1) cell t where
  upper k before := (scrolled.upper k before).trans (shows.upper k before)
  lower i j first last left right := by
    by_cases bottom : i = screenHeight - 1
    · obtain ⟨_, _, early, range, _⟩ := scrolled_cell first (by omega) left right
      rw [shows.below (i + (n + 1)) j (by omega)]
      exact scrolled.blank _ (by omega) range.2
    · obtain ⟨start, below, early, _, _⟩ := scrolled_cell first (by omega) left right
      rw [scrolled.moved _ start (early.mpr bottom), below,
        shows.lower (i + 1) j (by omega) (by omega) left right]
      congr 1
      omega
  below i j behind := shows.below i j (by omega)

/-- Where the tests at the end of `screen_write_ch` find the cursor: at most one column to the
right of the screen, or at the start of the line below it. -/
structure Settling (x y : Int) : Prop where
  left : 0 ≤ x ∧ x ≤ screenWidth
  low : lowerLine ≤ y ∧ y ≤ screenHeight
  full : x = screenWidth → y < screenHeight
  start : y = screenHeight → x = 0

theorem first_column : (0 ≤ (0 : Int) ∧ 0 ≤ screenWidth) ∧ (0 : Int) < screenWidth ∧
    (0 : Int) ≠ screenWidth := by decide

theorem clamped_eq (settling : Settling s.cursorX s.cursorY) : clamped s =
    if s.cursorX = screenWidth then { s with cursorX := 0, cursorY := s.cursorY + 1 } else s := by
  obtain ⟨⟨left, right⟩, ⟨low, high⟩, -, -⟩ := settling
  have width : screenWidth = 80 := rfl
  have height : screenHeight = 30 := rfl
  have lines : lowerLine = 16 := rfl
  have first : clampX s = s := if_neg (Int.not_lt.mpr left)
  rw [clamped, first, wrapX]
  by_cases full : s.cursorX = screenWidth
  · rw [if_pos (Int.le_of_eq full.symm), if_pos full, int32_of_lt (by omega) (by omega), clampY,
      if_neg (by simp only; omega)]
  · rw [if_neg (by omega), if_neg full, clampY, if_neg (by omega)]

/-- The screen beside the page before these tests, with the window still where it was. -/
structure Inked (top : Int → Byte) (n : Int) (p : Page) (t : Screen) : Prop where
  shows : Lower top n p.cell t
  settling : Settling t.cursorX t.cursorY
  x : t.cursorX = p.x
  y : t.cursorY = p.y - n
  last : 0 ≤ n ∧ (n = 0 ∨ screenHeight - 1 ≤ t.cursorY)

/-- The line feed of a full line. -/
theorem Inked.clamped (drawn : Inked top n p s) : Inked top n p.wrap (clamped s) ∧
    (clamped s).cursorX ≠ screenWidth := by
  obtain ⟨shows, settling, x, y, last⟩ := drawn
  have lines : lowerLine = 16 := rfl
  have height : screenHeight = 30 := rfl
  rw [clamped_eq settling, Page.wrap, ← x]
  by_cases full : s.cursorX = screenWidth
  · rw [if_pos full, if_pos full]
    have below := settling.full full
    obtain ⟨low, -⟩ := settling.low
    refine ⟨⟨shows.moved, ⟨first_column.1, ?_, nofun, fun _ => rfl⟩, rfl, ?_, ?_⟩,
      first_column.2.2⟩
    · simp only
      omega
    · simp only
      omega
    · simp only
      omega
  · rw [if_neg full, if_neg full]
    exact ⟨⟨shows, settling, x, y, last⟩, full⟩

/-- The scrolling below the last line. -/
theorem keepInside_window (drawn : Inked top n p s) :
    ∃ t, run keepInside s = some ((), t) ∧ Window top p.wrap t := by
  have height : screenHeight = 30 := rfl
  obtain ⟨⟨shows, settling, x, y, last⟩, room⟩ := drawn.clamped
  have lines : lowerLine = 16 := rfl
  obtain ⟨⟨left, right⟩, ⟨low, high⟩, -, start⟩ := settling
  rw [run_keepInside]
  by_cases inside : (clamped s).cursorY < screenHeight
  · rw [if_pos inside]
    have same : p.wrap.passed = n := by
      simp only [Page.passed]
      omega
    rw [← same] at shows y
    exact ⟨_, rfl, shows, ⟨by omega, by omega⟩, low, x, y⟩
  · rw [if_neg inside]
    obtain ⟨t, result, scrolled⟩ := run_screenScroll (clamped s)
    rw [result]
    have same : p.wrap.passed = n + 1 := by
      simp only [Page.passed]
      omega
    have moved := (shows.scroll scrolled).moved (x := 0) (y := screenHeight - 1)
    rw [← same] at moved
    refine ⟨_, rfl, moved, ⟨?_, ?_⟩, ?_, ?_, ?_⟩
    · exact (by decide : (0 : Int) ≤ 0 ∧ (0 : Int) < screenWidth)
    · exact (by decide : 0 ≤ screenHeight - 1 ∧ screenHeight - 1 < screenHeight)
    · exact (by decide : lowerLine ≤ screenHeight - 1)
    · exact (start (by omega)).symm.trans x
    · rw [same]
      simp only
      omega

theorem InScreen.index_eq (inside : InScreen x y) :
    int32 (y * screenWidth + x) = y * screenWidth + x := by
  obtain ⟨low, high⟩ := index_range inside.2 inside.1
  simp only [screenSize] at high
  exact int32_of_lt (by omega) (by omega)

/-- A cursor inside the lower lines needs no correction. -/
theorem InScreen.settling (inside : InScreen x y) (low : lowerLine ≤ y) : Settling x y := by
  obtain ⟨⟨left, right⟩, above, below⟩ := inside
  refine ⟨⟨left, Int.le_of_lt right⟩, ⟨low, Int.le_of_lt below⟩, fun _ => below, fun bottom => ?_⟩
  rw [bottom] at below
  exact absurd below (Int.lt_irrefl _)

section Window

variable (window : Window top p s)

include window

theorem Window.last : 0 ≤ p.passed ∧ (p.passed = 0 ∨ screenHeight - 1 ≤ s.cursorY) := by
  have y := window.y
  simp only [Page.passed] at *
  omega

theorem Window.row : s.cursorY + p.passed = p.y := by
  have y := window.y
  omega

theorem Window.drawn : Inked top p.passed p s :=
  ⟨window.shows, window.inside.settling window.low, window.x, window.y, window.last⟩

theorem Window.nextLine : ∃ u, run nextLine s = some ((), u) ∧
    Inked top p.passed { p with x := 0, y := p.y + 1 } u := by
  obtain ⟨-, above, below⟩ := window.inside
  have low := window.low
  have last := window.last
  have y := window.y
  have height : screenHeight = 30 := rfl
  refine ⟨{ s with cursorX := 0, cursorY := s.cursorY + 1 }, ?_, window.shows.moved,
    ⟨first_column.1, ?_, nofun, fun _ => rfl⟩, rfl, ?_, ?_⟩
  · rw [run_nextLine, int32_of_lt (by omega) (by omega)]
  · simp only
    omega
  · simp only
    omega
  · simp only
    omega

theorem Window.writeBack : ∃ u, run writeBack s = some ((), u) ∧ Inked top p.passed
    (if 0 < p.x then { p with cell := put p.y (p.x - 1) space p.cell, x := p.x - 1 } else p) u := by
  obtain ⟨⟨left, right⟩, above, below⟩ := window.inside
  by_cases positive : 0 < s.cursorX
  · have inside : InScreen (s.cursorX - 1) s.cursorY := ⟨by omega, above, below⟩
    have column : int32 (s.cursorX - 1) = s.cursorX - 1 := by
      simp only [screenWidth] at right
      exact int32_of_lt (by omega) (by omega)
    have range := inside.index
    have shows := window.shows.draw (k := s.cursorX - 1) (i := s.cursorY) window.low below inside.1
      space
    rw [window.row, window.x] at shows
    rw [run_writeBack positive (by rw [column]; exact range), column, inside.index_eq,
      if_pos (window.x ▸ positive)]
    refine ⟨_, rfl, ?_, inside.settling window.low, ?_, window.y, window.last⟩
    · rw [window.x]
      exact shows
    · rw [window.x]
  · rw [run_writeBack_none positive, if_neg (window.x ▸ positive)]
    exact ⟨s, rfl, window.drawn⟩

theorem Window.writeOne (ch : Byte) : ∃ u, run (writeOne ch) s = some ((), u) ∧
    Inked top p.passed { p with cell := put p.y p.x ch p.cell, x := p.x + 1 } u := by
  have inside := window.inside
  obtain ⟨⟨left, right⟩, above, below⟩ := window.inside
  have width : screenWidth = 80 := rfl
  have shows := window.shows.draw (k := s.cursorX + 1) (i := s.cursorY) window.low below inside.1 ch
  rw [window.row, window.x] at shows
  rw [run_writeOne inside.index, inside.index_eq, int32_of_lt (by omega) (by omega)]
  refine ⟨_, rfl, ?_, ⟨?_, ⟨window.low, Int.le_of_lt below⟩, fun _ => below, fun bottom => ?_⟩, ?_,
    window.y, window.last⟩
  · rw [window.x]
    exact shows
  · simp only
    omega
  · exact absurd bottom (Int.ne_of_lt below)
  · rw [window.x]

/-- One character on both. -/
theorem Window.screenWriteCh (ch : Byte) :
    ∃ t, run (screenWriteCh ch) s = some ((), t) ∧ Window top (p.write ch) t := by
  have finish : ∀ {u : Screen} {q : Page}, run (writeKind ch) s = some ((), u) →
      Inked top p.passed q u →
      ∃ t, run (Display.screenWriteCh ch) s = some ((), t) ∧ Window top q.wrap t := by
    intro u q first drawn
    obtain ⟨t, result, window'⟩ := keepInside_window drawn
    exact ⟨t, by rw [Display.screenWriteCh, run_then first, result], window'⟩
  have unwrapped : ∀ {q : Page}, q.x < screenWidth → q.wrap = q :=
    fun room => if_neg (Int.ne_of_lt room)
  have column := window.inside.1
  rw [window.x] at column
  by_cases feed : ch = newline ∨ ch = enter
  · obtain ⟨u, first, drawn⟩ := window.nextLine
    have kind : writeKind ch = Display.nextLine := by
      rcases feed with rfl | rfl <;> rfl
    have done := finish (kind ▸ first) drawn
    rw [unwrapped first_column.2.1] at done
    rwa [Page.write, if_pos feed]
  · have notLine := not_or.mp feed
    by_cases back : ch = backspace
    · obtain ⟨u, first, drawn⟩ := window.writeBack
      have kind : writeKind ch = Display.writeBack := by
        rw [back]
        rfl
      have done := finish (kind ▸ first) drawn
      rw [Page.write, if_neg feed, if_pos back]
      have room : (if 0 < p.x then { p with cell := put p.y (p.x - 1) space p.cell, x := p.x - 1 }
          else p).x < screenWidth := by
        split
        · exact Int.lt_trans (Int.sub_lt_self p.x (by decide)) column.2
        · exact column.2
      rwa [unwrapped room] at done
    · obtain ⟨u, first, drawn⟩ := window.writeOne ch
      have kind : writeKind ch = Display.writeOne ch := by
        rw [writeKind, if_neg notLine.1, if_neg back, if_neg notLine.2]
      have done := finish (kind ▸ first) drawn
      rwa [Page.write, if_neg feed, if_neg back]

end Window

/-- A text on both. -/
theorem Window.screenWrite (window : Window top p s) (text : List Byte) :
    ∃ t, run (screenWrite text) s = some ((), t) ∧ Window top (p.type text) t := by
  induction text generalizing s p with
  | nil => exact ⟨s, rfl, window⟩
  | cons ch text ih =>
    obtain ⟨u, first, window'⟩ := window.screenWriteCh ch
    obtain ⟨t, rest, done⟩ := ih window'
    exact ⟨t, by rw [Display.screenWrite, run_then first, rest], done⟩

theorem window_pageOf (inside : InScreen s.cursorX s.cursorY) (low : lowerLine ≤ s.cursorY) :
    Window s.new (pageOf s) s := by
  have same : (pageOf s).passed = 0 := by
    have below := inside.2.2
    simp only [Page.passed, pageOf]
    omega
  refine ⟨?_, inside, low, rfl, ?_⟩
  · rw [same]
    refine ⟨fun _ _ => rfl, fun i j first last left right => ?_, fun i j behind => ?_⟩
    · rw [Int.add_zero]
      exact (if_pos last).symm
    · exact if_neg (by omega)
  · rw [same, Int.sub_zero]
    rfl

/-- What is written on the lower part of the screen is written on a page without an end, and
seen through a window that follows its cursor. -/
theorem lower_screen_window (text : List Byte) (inside : InScreen s.cursorX s.cursorY)
    (low : lowerLine ≤ s.cursorY) : ∃ t, run (screenWrite text) s = some ((), t) ∧
      InScreen t.cursorX t.cursorY ∧ lowerLine ≤ t.cursorY ∧
      (∀ k < lowerLine * screenWidth, t.new k = s.new k) ∧
      (∀ i j, lowerLine ≤ i → i < screenHeight → 0 ≤ j → j < screenWidth →
        t.new (i * screenWidth + j) =
          ((pageOf s).type text).cell (i + ((pageOf s).type text).passed) j) ∧
      t.cursorX = ((pageOf s).type text).x ∧
      t.cursorY = ((pageOf s).type text).y - ((pageOf s).type text).passed := by
  obtain ⟨t, result, window⟩ := (window_pageOf inside low).screenWrite text
  exact ⟨t, result, window.inside, window.low, window.shows.upper, window.shows.lower, window.x,
    window.y⟩

/-- A line feed in the last line. -/
theorem lower_screen_window_scroll : ∃ t, run (screenWrite [newline, 0x41])
      { powerOn dots with cursorY := 29 } = some ((), t) ∧
    t.cursorX = 1 ∧ t.cursorY = 29 ∧ t.new (29 * screenWidth + 0) = 0x41 := by
  obtain ⟨t, result, _, _, _, lower, x, y⟩ := lower_screen_window
    (s := { powerOn dots with cursorY := 29 }) [newline, 0x41] ⟨by decide, by decide⟩ (by decide)
  exact ⟨t, result, x, y, lower 29 0 (by decide) (by decide) (by decide) (by decide)⟩

end Tina.Display
