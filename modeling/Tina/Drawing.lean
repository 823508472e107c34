import Tina.Wire

/-! The bytes on the line draw the screen: each call, down to the bytes, does to the terminal that
reads them what the call does in the model with a terminal. -/
namespace Tina.Display

open ByteBuffer Atomic Transition

variable {α β : Type} {first : Terminal} {l m : Line} {s : Screen} {p : Program Screen α}
  {f : α → Program Screen β} {a : α} {c : Byte} {x y i j k : Int} {stack : Buffer}

/-- A program that neither uses nor changes the terminal. -/
def Blind : Program Screen α → Prop
  | .done _ => True
  | .undefined => True
  | .step act next => (∀ s t, act { s with terminal := t } = { act s with terminal := t }) ∧
    (∀ s t, next { s with terminal := t } = next s) ∧ ∀ s, Blind (next s)

theorem Blind.read {see : Screen → α} (same : ∀ s t, see { s with terminal := t } = see s) :
    Blind (Atomic.read see) :=
  ⟨fun _ _ => rfl, fun s t => congrArg Program.done (same s t), fun _ => trivial⟩

theorem Blind.change {act : Screen → Screen}
    (same : ∀ s t, act { s with terminal := t } = { act s with terminal := t }) :
    Blind (Atomic.change act) := ⟨same, fun _ _ => rfl, fun _ => trivial⟩

theorem Blind.pure : Blind (Pure.pure a : Program Screen α) := trivial

theorem Blind.bind (here : Blind p) (rest : ∀ a, Blind (f a)) : Blind (p >>= f) := by
  change Blind (p.bind f)
  induction p with
  | done a => exact rest a
  | undefined => exact trivial
  | step act next ih =>
    obtain ⟨acts, sees, later⟩ := here
    refine ⟨acts, fun s t => ?_, fun s => ih s (later s)⟩
    change (next { s with terminal := t }).bind f = (next s).bind f
    rw [sees]

theorem Blind.ite {c : Prop} [Decidable c] {q : Program Screen α} (yes : Blind p) (no : Blind q) :
    Blind (if c then p else q) := by
  split
  · exact yes
  · exact no

theorem Blind.loop {n : Nat} {start : Int} {body : Int → Program Screen Unit}
    (round : ∀ i, Blind (body i)) : Blind (Atomic.loop start n body) := by
  induction n generalizing start with
  | zero => exact .pure
  | succ n ih => exact .bind (round start) fun _ => ih

theorem view_update : (l.update s).view first = { s with terminal := (l.tty first).terminal } := rfl

/-- On the line, such a program does what it does with any terminal. -/
theorem Blind.run (blind : Blind p) (result : Atomic.run p (l.view first) = some (a, s)) :
    Atomic.run (onScreen p) l = some (a, l.update s) ∧ (l.update s).view first = s := by
  induction p generalizing l with
  | done b =>
    obtain ⟨rfl, rfl⟩ := Prod.mk.inj (Option.some.inj result)
    exact ⟨rfl, rfl⟩
  | undefined => cases result
  | step act next ih =>
    obtain ⟨acts, sees, later⟩ := blind
    have dim : l.screen = { l.view first with terminal := dark } := rfl
    have next' : next l.screen = next (l.view first) := by rw [dim, sees]
    have update' : l.update (act l.screen) = l.update (act (l.view first)) := by
      rw [dim, acts]
      rfl
    have view' : (l.update (act (l.view first))).view first = act (l.view first) := by
      rw [view_update]
      exact (acts (l.view first) (l.tty first).terminal).symm
    rw [run_step] at result
    obtain ⟨ran, seen⟩ := ih (l.view first) (l := l.update (act (l.view first)))
      (later (l.view first)) (by rwa [view'])
    refine ⟨?_, seen⟩
    rw [onScreen, run_step, next', update', ran]
    rfl

/-- From a state that satisfies the precondition, `p` sends whole sequences, and does to the
terminal that reads them and to the rest of the screen what `q` does. -/
def Draws (first : Terminal) (pre : Screen → Prop) (p : Program Line α) (q : Program Screen α)
    (post : α → Screen → Prop) : Prop :=
  ∀ l : Line, (l.tty first).mode = .ground → pre (l.view first) → ∃ a m, run p l = some (a, m) ∧
    run q (l.view first) = some (a, m.view first) ∧ (m.tty first).mode = .ground ∧
    post a (m.view first)

variable {pre : Screen → Prop} {post R : α → Screen → Prop} {always : Screen → Prop}
  {after : β → Screen → Prop} {p' : Program Line α} {f' : α → Program Line β}

theorem Draws.pure (holds : ∀ s, pre s → post a s) :
    Draws first pre (Pure.pure a) (Pure.pure a) post :=
  fun l ground ok => ⟨a, l, rfl, rfl, ground, holds _ ok⟩

theorem Draws.bind (here : Draws first pre p' p R)
    (rest : ∀ a, Draws first (R a) (f' a) (f a) after) :
    Draws first pre (p' >>= f') (p >>= f) after := by
  intro l ground ok
  obtain ⟨a, m, ran, drawn, ground', holds⟩ := here l ground ok
  obtain ⟨b, n, ran', drawn', ground'', holds'⟩ := rest a m ground' holds
  exact ⟨b, n, (run_then ran).trans ran', (run_then drawn).trans drawn', ground'', holds'⟩

theorem Draws.ite {c : Prop} [Decidable c] {q : Program Screen α} {q' : Program Line α}
    (yes : c → Draws first pre p' p post) (no : ¬c → Draws first pre q' q post) :
    Draws first pre (if c then p' else q') (if c then p else q) post := by
  split
  next holds => exact yes holds
  next fails => exact no fails

/-- What does not concern the terminal needs no proof of its own. -/
theorem Draws.blind (blind : Blind p) (meets : Meets always pre p post) :
    Draws first pre (onScreen p) p post := by
  intro l ground ok
  obtain ⟨a, s, result, holds⟩ := meets.ends ok
  obtain ⟨ran, seen⟩ := blind.run result
  exact ⟨a, l.update s, ran, by rw [result, seen], ground, by rwa [seen]⟩

theorem Draws.loop {I : Screen → Prop} {n : Nat} {start : Int} {body : Int → Program Screen Unit}
    {body' : Int → Program Line Unit}
    (round : ∀ i, start ≤ i → i < start + n → Draws first I (body' i) (body i) fun _ => I) :
    Draws first I (Atomic.loop start n body') (Atomic.loop start n body) fun _ => I := by
  induction n generalizing start with
  | zero => exact .pure fun _ => id
  | succ n ih =>
    exact (round start (Int.le_refl _) (by omega)).bind fun _ =>
      ih fun i low high => round i (by omega) (by omega)

/-- A text on the line that the terminal has understood when it is over. -/
theorem Draws.send {p' : Program Line Unit} {q : Program Screen Unit}
    {change : Terminal → Terminal} {text : List Byte} {post : Unit → Screen → Prop}
    (sends : ∀ l, run p' l = some ((), { l with wire := l.wire ++ text }))
    (understood : ∀ t, Tty.interpret ⟨t, .ground⟩ text = ⟨change t, .ground⟩)
    (does : ∀ s, run q s = some ((), { s with terminal := change s.terminal }))
    (holds : ∀ s t, pre s → post () { s with terminal := t }) : Draws first pre p' q post := by
  intro l ground ok
  have tty : ({ l with wire := l.wire ++ text } : Line).tty first =
      ⟨change (l.tty first).terminal, .ground⟩ := by
    have here : l.tty first = ⟨(l.tty first).terminal, .ground⟩ := by rw [← ground]
    rw [← understood, ← here]
    exact interpret_append
  have view : ({ l with wire := l.wire ++ text } : Line).view first =
      { l.view first with terminal := change (l.view first).terminal } := by
    rw [Line.view, tty]
    rfl
  exact ⟨(), _, sends l, by rw [does, view], by rw [tty], by rw [view]; exact holds _ _ ok⟩

/-! The programs that send nothing. -/

theorem getX_blind : Blind getX := .read fun _ _ => rfl
theorem getY_blind : Blind getY := .read fun _ _ => rfl
theorem setX_blind : Blind (setX x) := .change fun _ _ => rfl
theorem setY_blind : Blind (setY y) := .change fun _ _ => rfl

theorem readNew_blind : Blind (readNew k) := .ite (.read fun _ _ => rfl) trivial
theorem readOld_blind : Blind (readOld k) := .ite (.read fun _ _ => rfl) trivial
theorem writeNew_blind : Blind (writeNew k c) := .ite (.change fun _ _ => rfl) trivial
theorem writeOld_blind : Blind (writeOld k c) := .ite (.change fun _ _ => rfl) trivial

theorem cursorIndex_blind : Blind cursorIndex :=
  .bind getY_blind fun _ => .bind getX_blind fun _ => .pure

theorem whenever_blind {c : Prop} [Decidable c] {p : Program Screen Unit} (blind : Blind p) :
    Blind (whenever c p) := .ite blind .pure

theorem eachCell_blind {line1 line2 : Int} {body : Int → Int → Program Screen Unit}
    (cell : ∀ i j, Blind (body i j)) : Blind (eachCell line1 line2 body) :=
  .loop fun i => .loop fun j => cell i j

theorem nextLine_blind : Blind nextLine :=
  .bind setX_blind fun _ => .bind getY_blind fun _ => setY_blind

theorem screenScroll_blind {line1 line2 : Int} : Blind (screenScroll line1 line2) :=
  .bind (eachCell_blind fun _ _ => writeOld_blind) fun _ => eachCell_blind fun _ _ =>
    .ite writeNew_blind (.bind readNew_blind fun _ => writeNew_blind)

theorem keepInside_blind : Blind keepInside :=
  .bind getX_blind fun _ => .bind (whenever_blind setX_blind) fun _ =>
    .bind getX_blind fun _ =>
      .bind (whenever_blind (.bind getY_blind fun _ => .bind setY_blind fun _ => setX_blind))
        fun _ => .bind getY_blind fun _ => .bind (whenever_blind setY_blind) fun _ =>
          .bind getY_blind fun _ => whenever_blind
            (.bind screenScroll_blind fun _ => .bind setX_blind fun _ => setY_blind)

theorem screenWriteCh_blind : Blind (screenWriteCh c) := by
  refine .bind (.ite nextLine_blind (.ite ?_ (.ite nextLine_blind ?_))) fun _ => keepInside_blind
  · exact .bind getX_blind fun _ => whenever_blind
      (.bind setX_blind fun _ => .bind cursorIndex_blind fun _ => writeNew_blind)
  · exact .bind cursorIndex_blind fun _ => .bind writeNew_blind fun _ =>
      .bind getX_blind fun _ => setX_blind

theorem screenWrite_blind {buff : List Byte} : Blind (screenWrite buff) := by
  induction buff with
  | nil => exact .pure
  | cons c buff ih => exact .bind screenWriteCh_blind fun _ => ih

/-! No escape character on the screen. -/

def Unescaped (s : Screen) : Prop := ∀ k, 0 ≤ k → k < screenSize → s.new k ≠ escape

theorem setX_unescaped : Keeps Unescaped (setX x) := .change fun _ holds => holds
theorem setY_unescaped : Keeps Unescaped (setY y) := .change fun _ holds => holds

theorem writeNew_unescaped (plain : c ≠ escape) : Keeps Unescaped (writeNew k c) := by
  refine .ite (fun _ => .change fun s holds l low high => ?_) fun _ => trivial
  by_cases same : l = k
  · subst same
    exact ne_of_eq_of_ne (Function.update_self _ _ _) plain
  · exact ne_of_eq_of_ne (Function.update_of_ne same _ _) (holds l low high)

theorem copyCell_unescaped : Keeps Unescaped (readNew i >>= fun c => writeNew k c) := by
  rw [readNew]
  split
  · rename_i inside
    exact .readBind fun s holds => writeNew_unescaped (holds i inside.1 inside.2)
  · trivial

theorem cursorIndex_unescaped : Keeps Unescaped cursorIndex :=
  .bind .read fun _ => .bind .read fun _ => .pure

theorem nextLine_unescaped : Keeps Unescaped nextLine :=
  .bind setX_unescaped fun _ => .bind .read fun _ => setY_unescaped

theorem screenScroll_unescaped {line1 line2 : Int} : Keeps Unescaped (screenScroll line1 line2) :=
  .bind (.loop fun _ => .loop fun _ => .ite (fun _ => .change fun _ holds => holds)
    fun _ => trivial) fun _ => .loop fun _ => .loop fun _ =>
      .ite (fun _ => writeNew_unescaped (by decide)) fun _ => copyCell_unescaped

theorem keepInside_unescaped : Keeps Unescaped keepInside :=
  .bind .read fun _ => .bind (.ite (fun _ => setX_unescaped) fun _ => .pure) fun _ =>
    .bind .read fun _ => .bind (.ite (fun _ => .bind .read fun _ =>
      .bind setY_unescaped fun _ => setX_unescaped) fun _ => .pure) fun _ =>
        .bind .read fun _ => .bind (.ite (fun _ => setY_unescaped) fun _ => .pure) fun _ =>
          .bind .read fun _ => .ite (fun _ => .bind screenScroll_unescaped fun _ =>
            .bind setX_unescaped fun _ => setY_unescaped) fun _ => .pure

theorem Typed.ne_escape (typed : Typed c) : c ≠ escape := by
  rintro rfl
  exact absurd typed (by unfold Typed; decide)

theorem screenWriteCh_unescaped (typed : Typed c) : Keeps Unescaped (screenWriteCh c) := by
  refine .bind (.ite (fun _ => nextLine_unescaped) fun _ => .ite (fun _ => ?_) fun _ =>
    .ite (fun _ => nextLine_unescaped) fun _ => ?_) fun _ => keepInside_unescaped
  · exact .bind .read fun _ => .ite (fun _ => .bind setX_unescaped fun _ =>
      .bind cursorIndex_unescaped fun _ => writeNew_unescaped (by decide)) fun _ => .pure
  · exact .bind cursorIndex_unescaped fun _ =>
      .bind (writeNew_unescaped typed.ne_escape) fun _ => .bind .read fun _ => setX_unescaped

theorem screenWrite_unescaped {buff : List Byte} (typed : ∀ c ∈ buff, Typed c) :
    Keeps Unescaped (screenWrite buff) := by
  induction buff with
  | nil => exact .pure
  | cons c buff ih =>
    exact .bind (screenWriteCh_unescaped (typed c List.mem_cons_self))
      fun _ => ih fun d member => typed d (List.mem_cons_of_mem c member)

/-! The refresh. -/

/-- What a refresh needs. -/
structure Ready (s : Screen) : Prop where
  plain : Unescaped s
  cursor : InScreen s.cursorX s.cursorY

theorem readNew_plain {P : Screen → Prop} (low : 0 ≤ k) (high : k < screenSize) :
    Meets (fun _ => True) P (readNew k) fun c s => P s ∧ s.new k = c := by
  rw [readNew, if_pos ⟨low, high⟩]
  exact .read (fun _ _ => trivial) fun _ here => ⟨here, rfl⟩

theorem readOld_plain {P : Screen → Prop} (low : 0 ≤ k) (high : k < screenSize) :
    Meets (fun _ => True) P (readOld k) fun _ => P := by
  rw [readOld, if_pos ⟨low, high⟩]
  exact .read (fun _ _ => trivial) fun _ here => here

theorem writeOld_plain (low : 0 ≤ k) (high : k < screenSize) :
    Meets (fun _ => True) Ready (writeOld k c) fun _ => Ready := by
  rw [writeOld, if_pos ⟨low, high⟩]
  exact .change (fun _ _ => trivial) (fun _ _ => trivial) fun _ here => ⟨here.plain, here.cursor⟩

theorem vt100MoveCursor_draws {P : Screen → Prop} (column : 0 ≤ x ∧ x < 2147483648)
    (row : 0 ≤ y ∧ y < 2147483648) (keeps : ∀ s t, P s → P { s with terminal := t }) :
    Draws first P (Line.vt100MoveCursor stack x y) (vt100MoveCursor x y) fun _ => P :=
  .send (fun _ => run_vt100MoveCursor column row) (fun _ => interpret_move column.1 row.1)
    (fun _ => rfl) keeps

theorem portWriteCh_draws {P : Screen → Prop} (plain : c ≠ escape)
    (keeps : ∀ s t, P s → P { s with terminal := t }) :
    Draws first P (Line.portWriteCh c) (portWriteCh c) fun _ => P :=
  .send (fun _ => rfl) (fun _ => interpret_plain plain) (fun _ => rfl) keeps

theorem reflushCell_draws (line : 0 ≤ i ∧ i < screenHeight) (column : 0 ≤ j ∧ j < screenWidth) :
    Draws first Ready (Line.reflushCell stack i j) (reflushCell i j) fun _ => Ready := by
  obtain ⟨low, high⟩ := index_range line column
  have width : screenWidth = 80 := rfl
  have height : screenHeight = 30 := rfl
  refine .bind (.blind readNew_blind (readNew_plain low high)) fun new =>
    .bind (.blind readOld_blind (readOld_plain low high)) fun old => .ite (fun _ => ?_) fun _ => ?_
  · refine .bind (vt100MoveCursor_draws (by omega) (by omega) fun s t here =>
      ⟨⟨here.1.plain, here.1.cursor⟩, here.2⟩) fun _ => ?_
    refine .bind (.blind readNew_blind (readNew_plain low high)) fun c => ?_
    -- the character is one of the screen
    by_cases plain : c = escape
    · intro l _ here
      exact absurd (here.2.trans plain) (here.1.1.plain _ low high)
    · refine .bind (R := fun _ => Ready) ?_ fun _ => ?_
      · intro l ground here
        exact portWriteCh_draws plain (fun s t here => ⟨here.plain, here.cursor⟩) l ground here.1.1
      · refine .bind (.blind readNew_blind (readNew_plain low high)) fun c => ?_
        intro l ground here
        exact Draws.blind writeOld_blind (writeOld_plain low high) l ground here.1
  · exact .pure fun _ here => here.1

theorem screenReflush_draws :
    Draws first Ready (Line.screenReflush stack) screenReflush fun _ => Ready := by
  have width : screenWidth = 80 := rfl
  have height : screenHeight = 30 := rfl
  refine .bind (.loop fun i low high => .loop fun j low' high' => ?_) fun _ => ?_
  · exact reflushCell_draws ⟨low, by omega⟩ ⟨low', by omega⟩
  have getX_plain : Meets (fun _ => True) Ready getX fun x s => Ready s ∧ s.cursorX = x :=
    .read (fun _ _ => trivial) fun _ here => ⟨here, rfl⟩
  refine .bind (.blind getX_blind getX_plain) fun x => ?_
  have getY_plain : Meets (fun _ => True) (fun s => Ready s ∧ s.cursorX = x) getY
      fun y s => Ready s ∧ InScreen x y :=
    .read (fun _ _ => trivial) fun _ here => ⟨here.1, here.2 ▸ here.1.cursor⟩
  refine .bind (.blind getY_blind getY_plain) fun y => ?_
  by_cases inside : InScreen x y
  · intro l ground here
    have range := inside
    simp only [InScreen] at range
    exact vt100MoveCursor_draws (by omega) (by omega)
      (fun s t here => ⟨here.plain, here.cursor⟩) l ground here.1
  · exact fun l _ here => absurd here.2 inside

theorem screenClear_draws {line1 line2 : Int} : Draws first (Shadows none)
    (Line.screenClear stack line1 line2) (screenClear line1 line2) fun _ => Ready := by
  have setX_plain : Meets (fun _ => True) (Wiped screenSize) (setX 0)
      fun _ s => Wiped screenSize s ∧ s.cursorX = 0 :=
    .change (fun _ _ => trivial) (fun _ _ => trivial)
      fun _ wiped => ⟨⟨wiped.shadows, wiped.blank⟩, rfl⟩
  have setY_plain : Meets (fun _ => True) (fun s => Wiped screenSize s ∧ s.cursorX = 0) (setY 0)
      fun _ => Ready := by
    refine .change (fun _ _ => trivial) (fun _ _ => trivial) fun s here => ⟨fun k low high => ?_, ?_⟩
    · exact ne_of_eq_of_ne (here.1.blank k low high) (by decide)
    · change InScreen s.cursorX 0
      rw [here.2]
      exact ⟨⟨Int.le_refl 0, by decide⟩, Int.le_refl 0, by decide⟩
  exact .bind (.blind (eachCell_blind fun _ _ => .bind writeNew_blind fun _ => writeOld_blind)
    wipeAll_meets) fun _ => .bind (.blind setX_blind setX_plain) fun _ =>
      .bind (.blind setY_blind setY_plain) fun _ => screenReflush_draws

theorem initScreen_draws : Draws first (fun s => ∀ k, s.old k = 0) (Line.initScreen stack) initScreen
    fun _ => Ready := by
  have hides : ∀ s, run vt100HiddenCursor s = some ((), { s with terminal := id s.terminal }) :=
    fun _ => rfl
  refine .bind (R := fun _ s => ∀ k, s.old k = 0) (.send (fun _ => run_vt100HiddenCursor)
    (fun _ => interpret_hide) hides fun _ _ zero => zero)
    fun _ => .bind (R := fun _ => Shadows none) (.send (fun _ => run_vt100Clear)
      (fun _ => interpret_clear) (fun _ => rfl) fun _ _ zero k _ _ => .inl (zero k))
      fun _ => screenClear_draws

/-! Whole runs. -/

/-- What holds of the line between two calls. -/
structure Steady (first : Terminal) (l : Line) : Prop where
  ground : (l.tty first).mode = .ground
  here : At InScreen (l.view first)
  plain : Unescaped (l.view first)

theorem Steady.ready (steady : Steady first l) : Ready (l.view first) :=
  ⟨steady.plain, steady.here.cursor⟩

/-- A call down to the bytes is the call of the model with a terminal. -/
theorem op_draws (stack : Buffer) {op : Op} (steady : Steady first l) (plain : Plain s op) :
    ∃ m, Line.Step stack l op m ∧ Step (l.view first) op (m.view first) ∧ Steady first m := by
  obtain ⟨u, t, result, here, -⟩ := (op_meets plain).ends steady.here
  have draws : ∃ m, run (Line.program stack op) l = some ((), m) ∧
      run op.program (l.view first) = some ((), m.view first) ∧ (m.tty first).mode = .ground ∧
      Unescaped (m.view first) := by
    cases op with
    | write buff =>
      obtain ⟨ran, seen⟩ := screenWrite_blind.run result
      rw [← seen] at result
      exact ⟨l.update t, ran, result, steady.ground,
        (screenWrite_unescaped plain).run result steady.plain⟩
    | move x y =>
      have blind : Blind (screenMoveCursor x y) := .bind setX_blind fun _ => setY_blind
      have keeps : Keeps Unescaped (screenMoveCursor x y) :=
        .bind setX_unescaped fun _ => setY_unescaped
      obtain ⟨ran, seen⟩ := blind.run result
      rw [← seen] at result
      exact ⟨l.update t, ran, result, steady.ground, keeps.run result steady.plain⟩
    | clear =>
      have draws : Draws first (Shadows none) (Line.screenClear stack 0 0) (screenClear 0 0)
          fun _ => Ready := screenClear_draws
      obtain ⟨_, m, ran, drawn, ground, ready⟩ := draws l steady.ground steady.here.shadows
      exact ⟨m, ran, drawn, ground, ready.plain⟩
    | reflush =>
      have draws : Draws first Ready (Line.screenReflush stack) screenReflush fun _ => Ready :=
        screenReflush_draws
      obtain ⟨_, m, ran, drawn, ground, ready⟩ := draws l steady.ground steady.ready
      exact ⟨m, ran, drawn, ground, ready.plain⟩
  obtain ⟨m, ran, drawn, ground, unescaped⟩ := draws
  obtain ⟨-, rfl⟩ := Prod.mk.inj (Option.some.inj (result.symm.trans drawn))
  exact ⟨m, ran, drawn, ground, here, unescaped⟩

/-- Whatever the terminal showed before: in every run of the calls, the bytes that have been sent
are whole sequences, they do to the terminal what the calls do in the model with a terminal, and
after every refresh the terminal that has read them shows every cell of the screen. -/
theorem wire_faithful (stack : Buffer) : ∃ l₀, run (Line.initScreen stack) idle = some ((), l₀) ∧
    ∀ first, Refreshed (l₀.view first) ∧
      ∀ l, Reachable (Line.Step stack) (fun l op => Plain l.screen op) l₀ l →
        (l.tty first).mode = .ground ∧ ∀ op, Plain l.screen op →
          ∃ m, Line.Step stack l op m ∧ Step (l.view first) op (m.view first) ∧
            (op = .reflush ∨ op = .clear → Refreshed (m.view first)) := by
  have start : ∀ first, ∃ l₀, run (Line.initScreen stack) idle = some ((), l₀) ∧
      Refreshed (l₀.view first) ∧ Steady first l₀ := by
    intro first
    have draws : Draws first (fun s => ∀ k, s.old k = 0) (Line.initScreen stack) initScreen
        fun _ => Ready := initScreen_draws
    obtain ⟨_, l₀, ran, drawn, ground, ready⟩ := draws idle rfl fun _ => rfl
    obtain ⟨_, t, result, blank⟩ := initScreen_meets.ends (s := idle.view first) fun _ => rfl
    obtain ⟨-, rfl⟩ := Prod.mk.inj (Option.some.inj (result.symm.trans drawn))
    exact ⟨l₀, ran, blank.refreshed, ground, blank.inside, ready.plain⟩
  obtain ⟨l₀, ran, -⟩ := start dark
  refine ⟨l₀, ran, fun first => ?_⟩
  obtain ⟨l₁, ran', refreshed, steady⟩ := start first
  obtain ⟨-, rfl⟩ := Prod.mk.inj (Option.some.inj (ran.symm.trans ran'))
  refine ⟨refreshed, fun l reach => ?_⟩
  have invariant : Steady first l := by
    refine reach.invariant (Steady first) steady fun l op m steady plain step => ?_
    obtain ⟨m', step', -, steady'⟩ := op_draws stack steady plain
    obtain ⟨-, rfl⟩ := Prod.mk.inj (Option.some.inj (step'.symm.trans step))
    exact steady'
  refine ⟨invariant.ground, fun op plain => ?_⟩
  obtain ⟨m, step, drawn, -⟩ := op_draws stack invariant plain
  refine ⟨m, step, drawn, fun refreshing => ?_⟩
  obtain ⟨_, t, result, -, done⟩ := (op_meets plain).ends invariant.here
  obtain ⟨-, rfl⟩ := Prod.mk.inj (Option.some.inj (result.symm.trans drawn))
  exact done refreshing

/-- A letter is written, and the screen refreshed. -/
theorem wire_faithful_letter : ∃ l₀ l m, run (Line.initScreen fun _ => 0) idle = some ((), l₀) ∧
    Line.Step (fun _ => 0) l₀ (.write [0x41]) l ∧ Line.Step (fun _ => 0) l .reflush m ∧
    Refreshed (m.view dark) := by
  obtain ⟨l₀, ran, lines⟩ := wire_faithful fun _ => 0
  obtain ⟨-, runs⟩ := lines dark
  have typed : Plain l₀.screen (.write [0x41]) := by
    intro c member
    rw [List.mem_singleton.mp member]
    exact .inl (by decide)
  obtain ⟨l, written, -⟩ := (runs l₀ .start).2 _ typed
  have always : Plain l.screen .reflush := trivial
  obtain ⟨m, refreshed, -, shows⟩ := (runs l (.step .start typed written)).2 _ always
  exact ⟨l₀, l, m, ran, written, refreshed, shows (.inl rfl)⟩

end Tina.Display
