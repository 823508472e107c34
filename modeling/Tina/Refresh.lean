import Tina.Screen

/-! The incremental refresh. The array of old characters is a shadow of the terminal: where it
holds a character at all, the terminal shows that character. -/
namespace Tina.Display

open ByteBuffer Atomic Transition

variable {s t : Screen} {i j k line1 line2 x y : Int} {c ch : Byte} {sent : Option Int}
  {C D : Int → Int → Prop}

/-- The character that the terminal shows for an index of the two arrays. -/
def shown (s : Screen) (k : Int) : Byte :=
  s.terminal.cell (k / screenWidth + 1) (k % screenWidth + 1)

/-- An old character is 0 or what the terminal shows; of the cell that has been sent and not yet
recorded, the terminal already shows the new character. -/
def Shadows (sent : Option Int) (s : Screen) : Prop := ∀ k, 0 ≤ k → k < screenSize →
  s.old k = 0 ∨ s.old k = shown s k ∨ sent = some k ∧ shown s k = s.new k

/-- What holds at any moment. -/
def Moment (s : Screen) : Prop := ∃ sent, Shadows sent s

/-- The terminal shows the new characters, and that is recorded. -/
def Refreshed (s : Screen) : Prop := ∀ k, 0 ≤ k → k < screenSize →
  shown s k = s.new k ∧ s.old k = s.new k

/-- No new character is 0, and the cursor is where `C` says. -/
structure At (C : Int → Int → Prop) (s : Screen) : Prop where
  filled : ∀ k, 0 ≤ k → k < screenSize → s.new k ≠ 0
  shadows : Shadows none s
  cursor : C s.cursorX s.cursorY

theorem At.moment (s : Screen) (here : At C s) : Moment s := ⟨none, here.shadows⟩

theorem At.weaken (here : At C s) (weaker : ∀ x y, C x y → D x y) : At D s :=
  ⟨here.filled, here.shadows, weaker _ _ here.cursor⟩

/-- A walk over the cells of whole lines, in the order of their indices. -/
theorem eachCell_meets {always : Screen → Prop} {I : Int → Screen → Prop}
    {body : Int → Int → Program Screen Unit} (lines : line1 ≤ line2 + 1)
    (safe : ∀ k s, I k s → always s)
    (cell : ∀ i j, line1 ≤ i → i ≤ line2 → 0 ≤ j → j < screenWidth →
      Meets always (I (i * screenWidth + j)) (body i j)
        fun _ => I (i * screenWidth + j + 1)) :
    Meets always (I (line1 * screenWidth)) (eachCell line1 line2 body)
      fun _ => I ((line2 + 1) * screenWidth) := by
  have width : (screenWidth.toNat : Int) = 80 := rfl
  have line : ∀ i, line1 ≤ i → i < line1 + (line2 + 1 - line1).toNat →
      Meets always (I (i * screenWidth))
        (loop 0 screenWidth.toNat fun j => body i j) fun _ => I ((i + 1) * screenWidth) := by
    intro i low high
    have round : ∀ j, 0 ≤ j → j < 0 + (screenWidth.toNat : Int) →
        Meets always (I (i * screenWidth + j)) (body i j)
          fun _ => I (i * screenWidth + (j + 1)) := by
      intro j low' high'
      rw [show i * screenWidth + (j + 1) = i * screenWidth + j + 1 by omega]
      exact cell i j low (by omega) low' (by omega)
    have inner := Meets.loop (I := fun j => I (i * screenWidth + j))
      (fun j => safe _) round
    have start : i * screenWidth + 0 = i * screenWidth := by omega
    have stop : i * screenWidth + (0 + (screenWidth.toNat : Int)) = (i + 1) * screenWidth := by
      simp only [screenWidth]
      omega
    rw [start, stop] at inner
    exact inner
  have outer := Meets.loop (I := fun i => I (i * screenWidth)) (fun i => safe _) line
  have stop : line1 + ((line2 + 1 - line1).toNat : Int) = line2 + 1 := by omega
  rw [stop] at outer
  exact outer

/-- A walk that keeps a property. -/
theorem eachCell_keeps {always property : Screen → Prop}
    {body : Int → Int → Program Screen Unit} (lines : line1 ≤ line2 + 1)
    (safe : ∀ s, property s → always s)
    (cell : ∀ i j, line1 ≤ i → i ≤ line2 → 0 ≤ j → j < screenWidth →
      Meets always property (body i j) fun _ => property) :
    Meets always property (eachCell line1 line2 body) fun _ => property :=
  eachCell_meets (I := fun _ => property) lines (fun _ => safe) cell

theorem setX_meets (next : ∀ a b, C a b → D x b) :
    Meets Moment (At C) (setX x) fun _ => At D :=
  .change At.moment (fun _ here => ⟨none, here.shadows⟩)
    fun _ here => ⟨here.filled, here.shadows, next _ _ here.cursor⟩

theorem setY_meets (next : ∀ a b, C a b → D a y) :
    Meets Moment (At C) (setY y) fun _ => At D :=
  .change At.moment (fun _ here => ⟨none, here.shadows⟩)
    fun _ here => ⟨here.filled, here.shadows, next _ _ here.cursor⟩

theorem getX_meets : Meets Moment (At C) getX fun x => At fun a b => C a b ∧ a = x :=
  .read At.moment fun _ here => ⟨here.filled, here.shadows, here.cursor, rfl⟩

theorem getY_meets : Meets Moment (At C) getY fun y => At fun a b => C a b ∧ b = y :=
  .read At.moment fun _ here => ⟨here.filled, here.shadows, here.cursor, rfl⟩

/-- What is known of the cursor whatever the arrays hold. -/
theorem known {c : Prop} {p : Program Screen Unit} {post : Unit → Screen → Prop}
    (cursor : ∀ a b, C a b → c) (meets : c → Meets Moment (At C) p post) :
    Meets Moment (At C) p post :=
  .given (fun _ here => cursor _ _ here.cursor) meets

theorem pure_meets (weaker : ∀ a b, C a b → D a b) :
    Meets Moment (At C) (pure ()) fun _ => At D :=
  .pure At.moment fun _ here => here.weaken weaker

theorem writeNew_meets (low : 0 ≤ k) (high : k < screenSize) (some : c ≠ 0) :
    Meets Moment (At C) (writeNew k c) fun _ => At C := by
  rw [writeNew, if_pos ⟨low, high⟩]
  have after (s : Screen) (here : At C s) : At C { s with new := Function.update s.new k c } := by
    refine ⟨fun l low high => ?_, fun l low high => ?_, here.cursor⟩
    · by_cases same : l = k
      · subst same
        exact ne_of_eq_of_ne (Function.update_self _ _ _) some
      · exact ne_of_eq_of_ne (Function.update_of_ne same _ _) (here.filled l low high)
    · rcases here.shadows l low high with zero | seen | ⟨other, _⟩
      · exact .inl zero
      · exact .inr (.inl seen)
      · cases other
  exact .change At.moment (fun s here => (after s here).moment) after

theorem writeOld_meets (low : 0 ≤ k) (high : k < screenSize) :
    Meets Moment (At C) (writeOld k 0) fun _ => At C := by
  rw [writeOld, if_pos ⟨low, high⟩]
  have after (s : Screen) (here : At C s) : At C { s with old := Function.update s.old k 0 } := by
    refine ⟨here.filled, fun l low high => ?_, here.cursor⟩
    by_cases same : l = k
    · subst same
      exact .inl (Function.update_self _ _ _)
    · have other : Function.update s.old k 0 l = s.old l := Function.update_of_ne same _ _
      rcases here.shadows l low high with zero | seen | ⟨other, _⟩
      · exact .inl (other.trans zero)
      · exact .inr (.inl (other.trans seen))
      · cases other
  exact .change At.moment (fun s here => (after s here).moment) after

theorem readNew_meets (low : 0 ≤ k) (high : k < screenSize) :
    Meets Moment (At C) (readNew k) fun c s => At C s ∧ c ≠ 0 := by
  rw [readNew, if_pos ⟨low, high⟩]
  exact .read At.moment fun s here => ⟨here, here.filled k low high⟩

/-- The cursor may be one character behind the end of a line, or one line below the screen. -/
def Near (x y : Int) : Prop :=
  (0 ≤ x ∧ x ≤ screenWidth) ∧ (0 ≤ y ∧ y ≤ screenHeight) ∧ (x = screenWidth → y < screenHeight)

theorem index_range (line : 0 ≤ i ∧ i < screenHeight) (column : 0 ≤ j ∧ j < screenWidth) :
    0 ≤ i * screenWidth + j ∧ i * screenWidth + j < screenSize := by
  simp only [screenWidth, screenHeight, screenSize] at *
  omega

theorem screenScroll_meets : Meets Moment (At C)
    (screenScroll (screenHeight / 2 + 1) (screenHeight - 1)) fun _ => At C := by
  have height : screenHeight = 30 := rfl
  refine .bind (eachCell_keeps (by omega) At.moment fun i j low high column inside => ?_)
    fun _ => eachCell_keeps (by omega) At.moment fun i j low high column inside => ?_
  · obtain ⟨first, last⟩ := index_range (i := i) ⟨by omega, by omega⟩ ⟨column, inside⟩
    exact writeOld_meets first last
  · obtain ⟨first, last⟩ := index_range (i := i) ⟨by omega, by omega⟩ ⟨column, inside⟩
    refine .ite (fun _ => writeNew_meets first last (by decide)) fun below => ?_
    obtain ⟨first', last'⟩ := index_range (i := i + 1) ⟨by omega, by omega⟩ ⟨column, inside⟩
    refine .bind (readNew_meets first' last') fun c => .given (fun _ => And.right) fun some => ?_
    exact (writeNew_meets first last some).weaken (fun _ => And.left) fun _ _ => id

theorem nextLine_meets : Meets Moment (At InScreen) nextLine fun _ => At Near := by
  refine .bind (setX_meets (D := fun x y => x = 0 ∧ 0 ≤ y ∧ y < screenHeight)
    fun a b inside => ⟨rfl, inside.2⟩) fun _ => .bind getY_meets fun y => setY_meets ?_
  rintro a b ⟨⟨rfl, low, high⟩, rfl⟩
  simp only [screenHeight, Near, screenWidth] at *
  rw [int32_of_lt (by omega) (by omega)]
  omega

theorem InScreen.near (inside : InScreen x y) : Near x y := by
  simp only [InScreen, Near] at *
  omega

/-- The index of the cursor is computed without overflow. -/
theorem InScreen.index (inside : InScreen x y) :
    0 ≤ int32 (y * screenWidth + x) ∧ int32 (y * screenWidth + x) < screenSize := by
  obtain ⟨low, high⟩ := index_range inside.2 inside.1
  simp only [screenSize] at *
  rw [int32_of_lt (by omega) (by omega)]
  exact ⟨low, high⟩

theorem cursorIndex_meets (inside : ∀ a b, C a b → InScreen a b) :
    Meets Moment (At C) cursorIndex fun k s => At C s ∧ 0 ≤ k ∧ k < screenSize := by
  refine .bind getY_meets fun y => .bind getX_meets fun x =>
    .pure At.moment fun s here => ⟨here.weaken fun _ _ now => now.1.1, ?_⟩
  obtain ⟨⟨now, below⟩, beside⟩ := here.cursor
  rw [← below, ← beside]
  exact (inside _ _ now).index

/-- A character is written where the cursor is. -/
theorem writeHere_meets (inside : ∀ a b, C a b → InScreen a b) (some : c ≠ 0) :
    Meets Moment (At C) (cursorIndex >>= fun k => writeNew k c) fun _ => At C := by
  refine .bind (cursorIndex_meets inside) fun k => .given (fun _ => And.right) fun range => ?_
  exact (writeNew_meets range.1 range.2 some).weaken (fun _ => And.left) fun _ _ => id

theorem writeBack_meets : Meets Moment (At InScreen) writeBack fun _ => At Near := by
  refine .bind getX_meets fun x => .ite (fun positive => ?_) fun _ =>
    pure_meets fun _ _ here => here.1.near
  refine .bind (setX_meets (D := InScreen) ?_) fun _ => ?_
  · rintro a b ⟨inside, rfl⟩
    simp only [InScreen, screenWidth] at *
    rw [int32_of_lt (by omega) (by omega)]
    omega
  · exact (writeHere_meets (fun _ _ => id) (by decide)).weaken (fun _ => id)
      fun _ _ here => here.weaken fun _ _ => InScreen.near

theorem writeOne_meets (some : ch ≠ 0) :
    Meets Moment (At InScreen) (writeOne ch) fun _ => At Near := by
  have written := writeHere_meets (C := InScreen) (fun _ _ => id) some
  have moved : Meets Moment (At InScreen) (getX >>= fun x => setX (int32 (x + 1)))
      fun _ => At Near := by
    refine .bind getX_meets fun x => setX_meets ?_
    rintro a b ⟨inside, rfl⟩
    simp only [InScreen, Near, screenWidth, screenHeight] at *
    rw [int32_of_lt (by omega) (by omega)]
    omega
  have both := written.bind fun _ => moved
  rwa [bind_assoc] at both

theorem keepInside_meets : Meets Moment (At Near) keepInside fun _ => At InScreen := by
  have width : screenWidth = 80 := rfl
  have height : screenHeight = 30 := rfl
  -- a column to the left of the screen does not occur
  refine .bind getX_meets fun x => .bind (m := fun _ => At Near) (.ite (fun left => ?_)
    fun _ => pure_meets fun a b (here : Near a b ∧ a = x) => here.1) fun _ => ?_
  · refine known (c := False) ?_ False.elim
    rintro a b ⟨near, rfl⟩
    simp only [Near] at near
    omega
  refine .bind getX_meets fun x => .bind (m := fun _ => At fun a b =>
    (0 ≤ a ∧ a < screenWidth) ∧ 0 ≤ b ∧ b ≤ screenHeight) (.ite (fun full => ?_) fun room => ?_)
    fun _ => ?_
  · refine .bind getY_meets fun y => .bind (setY_meets (D := fun _ b => 0 ≤ b ∧ b ≤ screenHeight) ?_)
      fun _ => setX_meets fun a b here => ⟨by omega, here⟩
    rintro a b ⟨⟨near, rfl⟩, rfl⟩
    simp only [Near] at near
    rw [int32_of_lt (by omega) (by omega)]
    omega
  · refine pure_meets ?_
    rintro a b ⟨near, rfl⟩
    simp only [Near] at near
    omega
  refine .bind getY_meets fun y => .bind (m := fun _ => At fun a b =>
    (0 ≤ a ∧ a < screenWidth) ∧ 0 ≤ b ∧ b ≤ screenHeight) (.ite (fun above => ?_)
    fun _ => pure_meets fun a b (here : ((0 ≤ a ∧ a < screenWidth) ∧ 0 ≤ b ∧ b ≤ screenHeight) ∧
      b = y) => here.1) fun _ => ?_
  · refine known (c := False) ?_ False.elim
    rintro a b ⟨near, rfl⟩
    omega
  refine .bind getY_meets fun y => .ite (fun below => ?_) fun inside => pure_meets ?_
  · refine .bind screenScroll_meets fun _ => .bind (setX_meets (D := fun a _ => a = 0)
      fun _ _ _ => rfl) fun _ => setY_meets ?_
    rintro a b rfl
    simp only [InScreen]
    omega
  · rintro a b ⟨near, rfl⟩
    simp only [InScreen]
    omega

theorem Typed.ne_zero (typed : Typed c) : c ≠ 0 := by
  rintro rfl
  exact absurd typed (by unfold Typed; decide)

theorem screenWriteCh_meets (typed : Typed ch) :
    Meets Moment (At InScreen) (screenWriteCh ch) fun _ => At InScreen := by
  refine .bind (m := fun _ => At Near) ?_ fun _ => keepInside_meets
  refine .ite (fun _ => nextLine_meets) fun _ => .ite (fun _ => writeBack_meets) fun _ => ?_
  exact .ite (fun _ => nextLine_meets) fun _ => writeOne_meets typed.ne_zero

theorem screenWrite_meets {buff : List Byte} (typed : ∀ c ∈ buff, Typed c) :
    Meets Moment (At InScreen) (screenWrite buff) fun _ => At InScreen := by
  induction buff with
  | nil => exact pure_meets fun _ _ => id
  | cons c buff ih =>
    exact .bind (screenWriteCh_meets (typed c (by simp)))
      fun _ => ih fun d member => typed d (by simp [member])

theorem screenMoveCursor_meets (inside : InScreen x y) :
    Meets Moment (At InScreen) (screenMoveCursor x y) fun _ => At InScreen :=
  .bind (setX_meets (D := fun a _ => a = x) fun _ _ _ => rfl)
    fun _ => setY_meets fun _ _ here => here ▸ inside

/-- The cells before `n` have been compared and sent. -/
structure Drawn (C : Int → Int → Prop) (n : Int) (s : Screen) : Prop where
  here : At C s
  drawn : ∀ k, 0 ≤ k → k < n → shown s k = s.new k ∧ s.old k = s.new k

/-- The cell `n` has been sent, too. -/
structure Sending (C : Int → Int → Prop) (n : Int) (s : Screen) : Prop where
  filled : ∀ k, 0 ≤ k → k < screenSize → s.new k ≠ 0
  shadows : Shadows (some n) s
  cursor : C s.cursorX s.cursorY
  drawn : ∀ k, 0 ≤ k → k < n → shown s k = s.new k ∧ s.old k = s.new k
  seen : shown s n = s.new n

theorem readNew_sees {P : Screen → Prop} (safe : ∀ s, P s → Moment s) (low : 0 ≤ k)
    (high : k < screenSize) : Meets Moment P (readNew k) fun c s => P s ∧ s.new k = c := by
  rw [readNew, if_pos ⟨low, high⟩]
  exact .read safe fun s here => ⟨here, rfl⟩

theorem readOld_sees {P : Screen → Prop} (safe : ∀ s, P s → Moment s) (low : 0 ≤ k)
    (high : k < screenSize) : Meets Moment P (readOld k) fun c s => P s ∧ s.old k = c := by
  rw [readOld, if_pos ⟨low, high⟩]
  exact .read safe fun s here => ⟨here, rfl⟩

/-- A character is put into the cell of an index. -/
theorem shown_put (column : 0 ≤ j ∧ j < screenWidth) (row : s.terminal.row = i + 1)
    (col : s.terminal.col = j + 1) : shown { s with terminal := s.terminal.put c } k =
      if k = i * screenWidth + j then c else shown s k := by
  have same : (k / screenWidth + 1 = i + 1 ∧ k % screenWidth + 1 = j + 1) ↔
      k = i * screenWidth + j := by
    simp only [screenWidth] at *
    omega
  simp only [shown, Terminal.put, row, col, same]

/-- A cell that is sent is exempt from the rule until it has been recorded. -/
theorem Drawn.put (drawn : Drawn C (i * screenWidth + j) s) (column : 0 ≤ j ∧ j < screenWidth)
    (row : s.terminal.row = i + 1) (col : s.terminal.col = j + 1)
    (new : s.new (i * screenWidth + j) = c) :
    Sending C (i * screenWidth + j) { s with terminal := s.terminal.put c } where
  filled := drawn.here.filled
  shadows k low high := by
    rw [shown_put column row col]
    by_cases same : k = i * screenWidth + j
    · rw [if_pos same]
      exact .inr (.inr ⟨congrArg some same.symm, same ▸ new.symm⟩)
    · rw [if_neg same]
      rcases drawn.here.shadows k low high with zero | seen | ⟨other, _⟩
      · exact .inl zero
      · exact .inr (.inl seen)
      · cases other
  cursor := drawn.here.cursor
  drawn k low high := by
    rw [shown_put column row col, if_neg (Int.ne_of_lt high)]
    exact drawn.drawn k low high
  seen := by
    rw [shown_put column row col, if_pos rfl]
    exact new.symm

theorem Sending.moment (s : Screen) (sending : Sending C k s) : Moment s := ⟨_, sending.shadows⟩

/-- The record makes the shadow of the cell exact. -/
theorem Sending.record (sending : Sending C k s) (new : s.new k = c) :
    Drawn C (k + 1) { s with old := Function.update s.old k c } := by
  have other (l : Int) (apart : l ≠ k) : Function.update s.old k c l = s.old l :=
    Function.update_of_ne apart _ _
  have self : Function.update s.old k c k = c := Function.update_self _ _ _
  refine ⟨⟨sending.filled, fun l low high => ?_, sending.cursor⟩, fun l low high => ?_⟩
  · by_cases same : l = k
    · subst same
      exact .inr (.inl (self.trans (new.symm.trans sending.seen.symm)))
    · rcases sending.shadows l low high with zero | seen | ⟨sent, _⟩
      · exact .inl ((other l same).trans zero)
      · exact .inr (.inl ((other l same).trans seen))
      · exact absurd (Option.some.inj sent).symm same
  · by_cases same : l = k
    · subst same
      exact ⟨sending.seen, self.trans new.symm⟩
    · obtain ⟨seen, old⟩ := sending.drawn l low (by omega)
      exact ⟨seen, (other l same).trans old⟩

/-- A cell that is not sent shows the right character already. -/
theorem Drawn.skip (drawn : Drawn C k s) (low : 0 ≤ k) (high : k < screenSize)
    (same : s.new k = s.old k) : Drawn C (k + 1) s := by
  refine ⟨drawn.here, fun l low' high' => ?_⟩
  by_cases last : l = k
  · subst last
    rcases drawn.here.shadows l low high with zero | seen | ⟨other, _⟩
    · exact absurd (same.trans zero) (drawn.here.filled l low high)
    · exact ⟨seen.symm.trans same.symm, same.symm⟩
    · cases other
  · exact drawn.drawn l low' (by omega)

theorem reflushCell_meets (line : 0 ≤ i ∧ i < screenHeight) (column : 0 ≤ j ∧ j < screenWidth) :
    Meets Moment (Drawn C (i * screenWidth + j)) (reflushCell i j)
      fun _ => Drawn C (i * screenWidth + j + 1) := by
  obtain ⟨low, high⟩ := index_range line column
  have safe (s : Screen) (drawn : Drawn C (i * screenWidth + j) s) : Moment s := drawn.here.moment
  refine .bind (readNew_sees safe low high) fun new =>
    .bind (readOld_sees (fun s here => safe s here.1) low high) fun old =>
      .ite (fun _ => ?_) fun same => ?_
  · refine .bind (m := fun _ s => Drawn C (i * screenWidth + j) s ∧
      s.terminal.row = i + 1 ∧ s.terminal.col = j + 1) ?_ fun _ => ?_
    · have moved (s : Screen) (drawn : Drawn C (i * screenWidth + j) s) :
          Drawn C (i * screenWidth + j)
            { s with terminal := s.terminal.move (i + 1) (j + 1) } :=
        ⟨⟨drawn.here.filled, drawn.here.shadows, drawn.here.cursor⟩, drawn.drawn⟩
      refine .change (fun s here => safe s here.1.1) (fun s here => safe _ (moved s here.1.1))
        fun s here => ⟨moved s here.1.1, ?_, ?_⟩
      · simp only [Terminal.move, screenHeight] at *
        omega
      · simp only [Terminal.move, screenWidth] at *
        omega
    · refine .bind (readNew_sees (fun s here => safe s here.1) low high) fun c => ?_
      refine .bind (m := fun _ => Sending C (i * screenWidth + j)) ?_ fun _ => ?_
      · have put (s : Screen) (here : (Drawn C (i * screenWidth + j) s ∧ s.terminal.row = i + 1 ∧
            s.terminal.col = j + 1) ∧ s.new (i * screenWidth + j) = c) :=
          here.1.1.put column here.1.2.1 here.1.2.2 here.2
        exact .change (fun s here => safe s here.1.1) (fun s here => (put s here).moment) put
      · refine .bind (readNew_sees Sending.moment low high) fun c => ?_
        rw [writeOld, if_pos ⟨low, high⟩]
        have record (s : Screen) (here : Sending C (i * screenWidth + j) s ∧
            s.new (i * screenWidth + j) = c) := here.1.record here.2
        exact .change (fun s here => here.1.moment) (fun s here => (record s here).here.moment)
          record
  · refine .pure (fun s here => safe s here.1.1) fun s here => ?_
    refine here.1.1.skip low high ?_
    rw [here.1.2, here.2]
    exact not_not.mp same

theorem screenReflush_meets :
    Meets Moment (At C) screenReflush fun _ s => At C s ∧ Refreshed s := by
  have drawing : Meets Moment _ (eachCell 0 (screenHeight - 1) reflushCell) _ :=
    eachCell_meets (I := Drawn C) (by decide) (fun k s here => here.here.moment)
      fun i j low high low' high' => reflushCell_meets ⟨low, by omega⟩ ⟨low', high'⟩
  have whole : (screenHeight - 1 + 1) * screenWidth = screenSize := rfl
  rw [whole] at drawing
  have safe (s : Screen) (here : Drawn C screenSize s) : Moment s := here.here.moment
  refine .bind (drawing.weaken (fun s here => ⟨here, fun k low high => ?_⟩) fun _ _ => id) fun _ => ?_
  · rw [Int.zero_mul] at high
    omega
  · refine .bind (m := fun _ => Drawn C screenSize) (.read safe fun s => id) fun x => ?_
    refine .bind (m := fun _ => Drawn C screenSize) (.read safe fun s => id) fun y => ?_
    exact .change safe (fun s here => ⟨none, here.here.shadows⟩)
      fun s here => ⟨⟨here.here.filled, here.here.shadows, here.here.cursor⟩, here.drawn⟩

/-- The cells before `n` have been blanked. -/
structure Wiped (n : Int) (s : Screen) : Prop where
  shadows : Shadows none s
  blank : ∀ k, 0 ≤ k → k < n → s.new k = space

theorem wipe_meets (line : 0 ≤ i ∧ i < screenHeight) (column : 0 ≤ j ∧ j < screenWidth) :
    Meets Moment (Wiped (i * screenWidth + j))
      (writeNew (i * screenWidth + j) space >>= fun _ => writeOld (i * screenWidth + j) 0)
      fun _ => Wiped (i * screenWidth + j + 1) := by
  obtain ⟨low, high⟩ := index_range line column
  rw [writeNew, writeOld, if_pos ⟨low, high⟩, if_pos ⟨low, high⟩]
  have new (s : Screen) (wiped : Wiped (i * screenWidth + j) s) : Wiped (i * screenWidth + j + 1)
      { s with new := Function.update s.new (i * screenWidth + j) space } := by
    refine ⟨fun k low high => ?_, fun k low' high' => ?_⟩
    · rcases wiped.shadows k low high with zero | seen | ⟨other, _⟩
      · exact .inl zero
      · exact .inr (.inl seen)
      · cases other
    · by_cases last : k = i * screenWidth + j
      · exact last ▸ Function.update_self _ _ _
      · exact (Function.update_of_ne last _ _).trans (wiped.blank k low' (by omega))
  have old (s : Screen) (wiped : Wiped (i * screenWidth + j + 1) s) : Wiped (i * screenWidth + j + 1)
      { s with old := Function.update s.old (i * screenWidth + j) 0 } := by
    refine ⟨fun k low high => ?_, wiped.blank⟩
    by_cases here : k = i * screenWidth + j
    · exact .inl (here ▸ Function.update_self _ _ _)
    · have other : Function.update s.old (i * screenWidth + j) 0 k = s.old k :=
        Function.update_of_ne here _ _
      rcases wiped.shadows k low high with zero | seen | ⟨sent, _⟩
      · exact .inl (other.trans zero)
      · exact .inr (.inl (other.trans seen))
      · cases sent
  refine .bind (m := fun _ => Wiped (i * screenWidth + j + 1))
    (.change (fun s wiped => ⟨none, wiped.shadows⟩)
      (fun s wiped => ⟨none, (new s wiped).shadows⟩) new) fun _ => ?_
  exact .change (fun s wiped => ⟨none, wiped.shadows⟩)
    (fun s wiped => ⟨none, (old s wiped).shadows⟩) old

/-- The first half of `screen_clear`. -/
theorem wipeAll_meets : Meets Moment (Shadows none)
    (eachCell 0 (screenHeight - 1) fun i j =>
      writeNew (i * screenWidth + j) space >>= fun _ => writeOld (i * screenWidth + j) 0)
    fun _ => Wiped screenSize := by
  have walk : Meets Moment _ (eachCell 0 (screenHeight - 1) fun i j =>
      writeNew (i * screenWidth + j) space >>= fun _ => writeOld (i * screenWidth + j) 0) _ :=
    eachCell_meets (I := Wiped) (by decide) (fun k s wiped => ⟨none, wiped.shadows⟩)
      fun i j low high low' high' => wipe_meets ⟨low, by omega⟩ ⟨low', high'⟩
  have whole : (screenHeight - 1 + 1) * screenWidth = screenSize := rfl
  rw [whole] at walk
  refine walk.weaken (fun s shadows => ⟨shadows, fun k low high => ?_⟩) fun _ _ => id
  rw [Int.zero_mul] at high
  omega

/-- The second half. -/
def home : Program Screen Unit := do
  setX 0
  setY 0
  screenReflush

theorem home_meets : Meets Moment (At C) home
    fun _ s => At (fun a b => a = 0 ∧ b = 0) s ∧ Refreshed s :=
  .bind (setX_meets (D := fun a _ => a = 0) fun _ _ _ => rfl) fun _ =>
    .bind (setY_meets (D := fun a b => a = 0 ∧ b = 0) fun _ _ zero => ⟨zero, rfl⟩) fun _ =>
      screenReflush_meets

/-- A refresh changes nothing but the shadow and the terminal. -/
theorem reflushCell_leaves : Leaves Screen.new (reflushCell i j) := by
  have new : ∀ k, Leaves Screen.new (readNew k) := fun k => .ite .read .undefined
  have old : ∀ k, Leaves Screen.new (readOld k) := fun k => .ite .read .undefined
  have write : ∀ k c, Leaves Screen.new (writeOld k c) :=
    fun k c => .ite (.change fun _ => rfl) .undefined
  refine .bind (new _) fun _ => .bind (old _) fun _ => .ite ?_ .pure
  exact .bind (.change fun _ => rfl) fun _ => .bind (new _) fun _ =>
    .bind (.change fun _ => rfl) fun _ => .bind (new _) fun _ => write _ _

theorem home_leaves : Leaves Screen.new home :=
  .bind (.change fun _ => rfl) fun _ => .bind (.change fun _ => rfl) fun _ =>
    .bind (.loop fun _ => .loop fun _ => reflushCell_leaves) fun _ =>
      .bind .read fun _ => .bind .read fun _ => .change fun _ => rfl

theorem Wiped.at (wiped : Wiped screenSize s) : At (fun _ _ => True) s where
  filled k low high := by
    rw [wiped.blank k low high]
    decide
  shadows := wiped.shadows
  cursor := trivial

/-- A blank screen, shown by the terminal, with the cursor in its corner. -/
structure Blank (s : Screen) : Prop where
  here : At (fun a b => a = 0 ∧ b = 0) s
  refreshed : Refreshed s
  blank : ∀ k, 0 ≤ k → k < screenSize → s.new k = space

theorem Blank.inside (blank : Blank s) : At InScreen s := by
  refine blank.here.weaken ?_
  rintro a b ⟨rfl, rfl⟩
  exact ⟨by decide, by decide⟩

theorem screenClear_meets : Meets Moment (Shadows none) (screenClear line1 line2) fun _ => Blank := by
  have framed := (home_meets (C := fun _ _ => True)).frame (fun new => ∀ k, 0 ≤ k → k < screenSize → new k = space)
    home_leaves
  exact wipeAll_meets.bind fun _ => framed.weaken (fun _ wiped => ⟨wiped.at, wiped.blank⟩)
    fun _ _ done => ⟨done.1.1, done.1.2, done.2⟩

/-- `init_screen`, whatever the terminal showed before. -/
theorem initScreen_meets :
    Meets Moment (fun s => ∀ k, s.old k = 0) initScreen fun _ => Blank := by
  have shadows (s : Screen) (zero : ∀ k, s.old k = 0) : Shadows none s :=
    fun k _ _ => .inl (zero k)
  refine .bind (m := fun _ s => ∀ k, s.old k = 0)
    (.pure (fun s zero => ⟨none, shadows s zero⟩) fun s => id) fun _ => ?_
  refine .bind (m := fun _ s => ∀ k, s.old k = 0) (.change (fun s zero => ⟨none, shadows s zero⟩)
    (fun s zero => ⟨none, shadows _ zero⟩) fun s => id) fun _ => ?_
  exact screenClear_meets.weaken shadows fun _ _ => id

/-- Each call from a state with the cursor inside the screen. -/
theorem op_meets {op : Op} (plain : Plain s op) : Meets Moment (At InScreen) op.program
    fun _ t => At InScreen t ∧ (op = .reflush ∨ op = .clear → Refreshed t) := by
  cases op with
  | write buff => exact (screenWrite_meets plain).weaken (fun _ => id) fun _ _ here =>
      ⟨here, fun refreshing => by rcases refreshing with same | same <;> cases same⟩
  | clear =>
    have cleared : Meets Moment (Shadows none) commandClear fun _ => Blank := screenClear_meets
    exact cleared.weaken (fun _ here => here.shadows) fun _ _ blank =>
      ⟨blank.inside, fun _ => blank.refreshed⟩
  | move x y => exact (screenMoveCursor_meets plain).weaken (fun _ => id) fun _ _ here =>
      ⟨here, fun refreshing => by rcases refreshing with same | same <;> cases same⟩
  | reflush => exact screenReflush_meets.weaken (fun _ => id) fun _ _ here => ⟨here.1, fun _ => here.2⟩

/-- What holds between two calls, and of every call from there. -/
structure Faithful (s : Screen) : Prop where
  shadow : ∀ k, 0 ≤ k → k < screenSize → s.old k = 0 ∨ s.old k = shown s k
  moments : ∀ op, Plain s op → ∀ t ∈ visits op.program s, Moment t
  ends : ∀ op, Plain s op → ∃ t, Step s op t
  refreshed : ∀ op t, Plain s op → Step s op t → op = .reflush ∨ op = .clear → Refreshed t

theorem At.faithful (here : At InScreen s) : Faithful s where
  shadow k low high := by
    rcases here.shadows k low high with zero | seen | ⟨other, _⟩
    · exact .inl zero
    · exact .inr seen
    · cases other
  moments op plain := (op_meets plain).visited here
  ends op plain := by
    obtain ⟨_, t, result, _⟩ := (op_meets plain).ends here
    exact ⟨t, result⟩
  refreshed op t plain step refreshing := by
    obtain ⟨_, t', result, done⟩ := (op_meets plain).ends here
    obtain ⟨_, rfl⟩ := Prod.mk.inj (Option.some.inj (step.symm.trans result))
    exact done.2 refreshing

theorem step_here {op : Op} (here : At InScreen s) (plain : Plain s op) (step : Step s op t) :
    At InScreen t := by
  obtain ⟨_, t', result, done⟩ := (op_meets plain).ends here
  obtain ⟨_, rfl⟩ := Prod.mk.inj (Option.some.inj (step.symm.trans result))
  exact done.1

/-- The incremental refresh is as good as a full one, from whatever the terminal showed. -/
theorem screen_faithful (terminal : Terminal) : ∃ first, run initScreen (powerOn terminal) =
    some ((), first) ∧ (∀ t ∈ visits initScreen (powerOn terminal), Moment t) ∧ Refreshed first ∧
    ∀ s, Reachable Step Plain first s → Faithful s := by
  have zero : ∀ k, (powerOn terminal).old k = 0 := fun _ => rfl
  obtain ⟨_, first, result, blank⟩ := initScreen_meets.ends zero
  refine ⟨first, result, initScreen_meets.visited zero, blank.refreshed, fun s reach => ?_⟩
  have invariant : At InScreen s := reach.invariant (At InScreen) blank.inside
    fun s op t here plain step => step_here here plain step
  exact invariant.faithful

/-- A terminal that shows dots. -/
def dots : Terminal := ⟨fun _ _ => 0x2e, 1, 1⟩

/-- A character is written, and the screen refreshed. -/
theorem screen_faithful_dots : ∃ first s t, run initScreen (powerOn dots) = some ((), first) ∧
    Step first (.write [0x41]) s ∧ Step s .reflush t ∧ Faithful t ∧ Refreshed t := by
  obtain ⟨first, result, _, _, faithful⟩ := screen_faithful dots
  have typed : Plain first (.write [0x41]) := by
    intro c member
    rw [List.mem_singleton.mp member]
    exact .inl (by decide)
  obtain ⟨s, written⟩ := (faithful first .start).ends _ typed
  have reach : Reachable Step Plain first s := .step .start typed written
  have always : Plain s .reflush := trivial
  obtain ⟨t, refreshed⟩ := (faithful s reach).ends .reflush always
  exact ⟨first, s, t, result, written, refreshed, faithful t (.step reach always refreshed),
    (faithful s reach).refreshed _ t always refreshed (.inl rfl)⟩

/-- The first letter in the corner of a blank screen. -/
theorem write_first (blank : Blank s) : Step s (.write [0x41])
    { s with new := Function.update s.new 0 0x41, cursorX := 1 } := by
  obtain ⟨x, y⟩ := blank.here.cursor
  have index : int32 (0 * screenWidth + 0) = 0 := by decide
  have next : int32 (0 + 1) = 1 := by decide
  have range : (0 : Int) ≤ 0 ∧ 0 < screenSize := by decide
  have kind : writeKind 0x41 = writeOne 0x41 := rfl
  have inside : ¬((1 : Int) < 0) ∧ ¬(screenWidth ≤ 1) ∧ ¬((0 : Int) < 0) ∧ ¬(screenHeight ≤ 0) := by
    decide
  simp only [Step, Op.program, screenWrite, screenWriteCh, kind, writeOne, keepInside, cursorIndex,
    getX, getY, setX, whenever, writeNew, run_bind, run_read, run_change, run_pure, Option.bind_some,
    x, y, index, next, if_pos range, inside, if_false]

/-- A cell that differs is sent before it is recorded. -/
theorem reflush_sends (differ : s.new 0 ≠ s.old 0) :
    { s with terminal := (s.terminal.move 1 1).put (s.new 0) } ∈ visits screenReflush s := by
  have range : (0 : Int) ≤ 0 * screenWidth + 0 ∧ 0 * screenWidth + 0 < screenSize := by decide
  have cell : { s with terminal := (s.terminal.move 1 1).put (s.new 0) } ∈
      visits (reflushCell 0 0) s := by
    simp only [reflushCell, readNew, readOld, if_pos range]
    refine visits_bind.mpr (.inr ⟨_, run_read, visits_bind.mpr (.inr ⟨_, run_read, ?_⟩)⟩)
    replace differ : s.new (0 * screenWidth + 0) ≠ s.old (0 * screenWidth + 0) := differ
    simp only [whenever, if_pos differ]
    refine visits_bind.mpr (.inr ⟨_, run_change, visits_bind.mpr (.inr ⟨_, run_read, ?_⟩)⟩)
    refine visits_bind.mpr (.inl ?_)
    rw [portWriteCh, visits_change]
    exact .inr rfl
  exact visits_bind.mpr (.inl (visits_bind.mpr (.inl (visits_bind.mpr (.inl cell)))))

/-- Between the two the terminal shows the letter and the shadow still has the blank. -/
theorem sent_before_recorded : ∃ first s t, run initScreen (powerOn dots) = some ((), first) ∧
    Step first (.write [0x41]) s ∧ t ∈ visits screenReflush s ∧ t.old 0 = space ∧
    shown t 0 = 0x41 := by
  have zero : ∀ k, (powerOn dots).old k = 0 := fun _ => rfl
  obtain ⟨_, first, result, blank⟩ := initScreen_meets.ends zero
  have low : (0 : Int) ≤ 0 ∧ (0 : Int) < screenSize := by decide
  have old : first.old 0 = space :=
    (blank.refreshed 0 low.1 low.2).2.trans (blank.blank 0 low.1 low.2)
  have written := write_first blank
  generalize same : { first with new := Function.update first.new 0 0x41, cursorX := 1 } = s at written
  have new : s.new 0 = 0x41 := by
    rw [← same]
    exact Function.update_self 0 0x41 first.new
  have kept : s.old 0 = space := by
    rw [← same]
    exact old
  have differ : s.new 0 ≠ s.old 0 := by
    rw [new, kept]
    decide
  have seen : shown { s with terminal := (s.terminal.move 1 1).put (s.new 0) } 0 = s.new 0 :=
    (shown_put (s := { s with terminal := s.terminal.move 1 1 }) (i := 0) (j := 0) (by decide)
      rfl rfl).trans (if_pos rfl)
  exact ⟨first, s, _, result, written, reflush_sends differ, kept, seen.trans new⟩

end Tina.Display
