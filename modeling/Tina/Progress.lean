import Tina.Crowd

/-! Calls come to their end. What a process still has to do gets less with every step it takes, and
where nobody can take one, either all wait for room or all wait for bytes. -/
namespace Tina.Mbox

open ByteBuffer Transition

variable {ι : Type} {s t u : System ι} {items : List Byte} {A : Finset ι} {p q : ι} {op : Op}
  {own : Process} {m : Mailbox} {n : Nat}

/-- The steps to the end of the call, if no semaphore keeps the process waiting. A byte takes
nine. -/
def work (own : Process) : Nat :=
  let left := (own.msgLength - own.i).toNat
  match own.pc with
  | .idle => 0
  | .test => 9 * left + 1
  | .load => 9 * left
  | .reduce => 9 * left - 1
  | .down => 9 * left - 2
  | .disable => 9 * left - 3
  | .transfer => 9 * left - 4
  | .enable => 9 * left - 5
  | .up => 9 * left - 6
  | .next => 9 * left - 7

/-- The bytes that a process still has to transfer in the call it is in. -/
def unmoved (op : Op) (own : Process) : Nat := if own.op = op then (pending own).length else 0

/-- With interrupts disabled a process has its transfer before or behind it. -/
def Masking (s : System ι) : Prop :=
  ∀ p, s.masked = some p → (s.process p).pc = .transfer ∨ (s.process p).pc = .enable

variable [DecidableEq ι]

/-- Nobody who is in a call can go on. -/
def Stuck (s : System ι) : Prop := ∀ p, execute (.step p) s = none

/-- Some steps of processes that are in calls, and no new call. -/
inductive Steps (allowed : System ι → Event ι → Prop) : Nat → System ι → System ι → Prop
  | none {s : System ι} : Steps allowed 0 s s
  | step {n : Nat} {s t u : System ι} {p : ι} : allowed s (.step p) → Step s (.step p) t →
    Steps allowed n t u → Steps allowed (n + 1) s u

theorem advance_work (step : advance p s = some t) (sane : Sane (s.process p)) :
    ∃ own, t.process = Function.update s.process p own ∧ own.op = (s.process p).op ∧
      work own + 1 = work (s.process p) := by
  have some (body : (s.process p).pc.Body) : 0 < ((s.process p).msgLength - (s.process p).i).toNat := by
    have inside := sane.looping body
    omega
  cases pc : (s.process p).pc with
  | idle =>
    simp only [advance, pc] at step
    cases step
  | test =>
    simp only [advance, pc] at step
    obtain rfl := Option.some.inj step
    refine ⟨_, rfl, rfl, ?_⟩
    by_cases more : (s.process p).i < (s.process p).msgLength
    · simp only [if_pos more, work, pc]
    · simp only [if_neg more, work, pc]
      omega
  | load | reduce | disable | enable | up =>
    have left := some (by rw [pc]; trivial)
    simp only [advance, pc] at step
    obtain rfl := Option.some.inj step
    refine ⟨_, rfl, rfl, ?_⟩
    simp only [work, pc]
    omega
  | down =>
    have left := some (by rw [pc]; trivial)
    simp only [advance, pc] at step
    split at step
    · obtain rfl := Option.some.inj step
      refine ⟨_, rfl, rfl, ?_⟩
      simp only [work, pc]
      omega
    · cases step
  | transfer =>
    have left := some (by rw [pc]; trivial)
    simp only [advance, pc] at step
    split at step
    · obtain rfl := Option.some.inj step
      refine ⟨_, rfl, rfl, ?_⟩
      simp only [work, pc]
      omega
    · obtain rfl := Option.some.inj step
      refine ⟨_, rfl, rfl, ?_⟩
      simp only [work, pc]
      omega
  | next =>
    have inside := sane.looping (by rw [pc]; trivial)
    simp only [advance, pc] at step
    obtain rfl := Option.some.inj step
    refine ⟨_, rfl, rfl, ?_⟩
    simp only [work, pc]
    omega

/-- A process that can take no step is in no call or waits for its semaphore. -/
theorem advance_none (stops : advance p s = none) :
    (s.process p).pc = .idle ∨
      (s.process p).pc = .down ∧ s.mailbox.sem (s.process p).op ≤ 0 := by
  cases pc : (s.process p).pc with
  | idle => exact .inl rfl
  | down =>
    simp only [advance, pc] at stops
    split at stops
    · cases stops
    · exact .inr ⟨rfl, Int.not_lt.mp ‹_›⟩
  | test | load | reduce | disable | enable | up | next =>
    simp only [advance, pc] at stops
    cases stops
  | transfer =>
    simp only [advance, pc] at stops
    split at stops <;> cases stops

theorem Masking.stuck (masking : Masking s) (stuck : Stuck s) (p : ι) :
    (s.process p).pc = .idle ∨
      (s.process p).pc = .down ∧ s.mailbox.sem (s.process p).op ≤ 0 := by
  have free : s.masked = none := by
    cases masked : s.masked with
    | none => rfl
    | some q =>
      have stops := stuck q
      rw [execute, if_pos (.inr masked)] at stops
      rcases advance_none stops with idle | ⟨down, -⟩
      · rcases masking q masked with here | here <;> rw [here] at idle <;> cases idle
      · rcases masking q masked with here | here <;> rw [here] at down <;> cases down
  have stops := stuck p
  rw [execute, if_pos (.inl free)] at stops
  exact advance_none stops

theorem Masking.put (masking : Masking s) (own : Process) (active : (s.process p).pc ≠ .transfer)
    (unmasking : (s.process p).pc ≠ .enable) (t : System ι) (same : t.masked = s.masked)
    (process : t.process = Function.update s.process p own) : Masking t := by
  intro q masked
  rw [same] at masked
  have here := masking q masked
  have other : q ≠ p := by
    rintro rfl
    rcases here with here | here
    · exact active here
    · exact unmasking here
  rw [process, Function.update_of_ne other]
  exact here

theorem Masking.advance (masking : Masking s) (free : s.masked = none ∨ s.masked = some p)
    (step : advance p s = some t) : Masking t := by
  cases pc : (s.process p).pc with
  | idle =>
    simp only [Mbox.advance, pc] at step
    cases step
  | test | load | reduce | up | next =>
    simp only [Mbox.advance, pc] at step
    obtain rfl := Option.some.inj step
    exact masking.put _ (by rw [pc]; decide) (by rw [pc]; decide) _ rfl rfl
  | down =>
    simp only [Mbox.advance, pc] at step
    split at step
    · obtain rfl := Option.some.inj step
      exact masking.put _ (by rw [pc]; decide) (by rw [pc]; decide) _ rfl rfl
    · cases step
  | disable =>
    simp only [Mbox.advance, pc] at step
    obtain rfl := Option.some.inj step
    intro q masked
    obtain rfl := Option.some.inj masked
    exact .inl (congrArg Process.pc (put_process.trans (if_pos rfl)))
  | transfer =>
    have only (q : ι) (masked : s.masked = some q) : q = p := by
      rcases free with none | mine
      · rw [none] at masked
        cases masked
      · exact Option.some.inj (masked.symm.trans mine)
    simp only [Mbox.advance, pc] at step
    split at step
    · obtain rfl := Option.some.inj step
      intro q masked
      obtain rfl := only q masked
      exact .inr (congrArg Process.pc (put_process.trans (if_pos rfl)))
    · obtain rfl := Option.some.inj step
      intro q masked
      obtain rfl := only q masked
      exact .inr (congrArg Process.pc (put_process.trans (if_pos rfl)))
  | enable =>
    simp only [Mbox.advance, pc] at step
    obtain rfl := Option.some.inj step
    intro q masked
    cases masked

theorem Masking.step {event : Event ι} (masking : Masking s) (step : Step s event t) :
    Masking t := by
  unfold Step execute at step
  split at step
  · rename_i free
    cases event with
    | mboxSend p msg msgLength | mboxRecv p msg msgLength =>
      simp only [] at step
      split at step
      · rename_i idle
        obtain rfl := Option.some.inj step
        exact masking.put _ (by rw [idle]; decide) (by rw [idle]; decide) _ rfl rfl
      · cases step
    | step p => exact masking.advance free step
  · cases step

omit [DecidableEq ι] in
/-- A semaphore counts, when nobody has claimed or owes a slot. -/
theorem Crowd.settled (crowd : Crowd A s items)
    (waits : ∀ p, (s.process p).pc = .idle ∨ (s.process p).pc = .down) :
    s.mailbox.sem op = free op items := by
  have count := crowd.count op
  have nothing : ∑ p ∈ A, share op (s.process p) = 0 := by
    refine Finset.sum_eq_zero fun p _ => ?_
    rcases waits p with pc | pc <;> rw [share, pc] <;> simp [Pc.claimed, Pc.owed]
  rw [nothing] at count
  omega

omit [DecidableEq ι] in
theorem Crowd.length (crowd : Crowd A s items) :
    (stored s.history).length = (fetched s.history).length + items.length := by
  rw [crowd.contents.flow, List.length_append]

variable [Fintype ι]

def allWork (s : System ι) : Nat := ∑ p, work (s.process p)

/-- The bytes moved one way, and those that the calls still have to move. -/
def due (op : Op) (s : System ι) : Nat :=
  ∑ p, unmoved op (s.process p) + (moved op s.history).length

theorem allWork_step (sane : Sane (s.process p)) (step : Step s (.step p) t) :
    1 + allWork t = allWork s := by
  unfold Step execute at step
  split at step
  · obtain ⟨own, process, -, less⟩ := advance_work step sane
    have sum := sum_put (s := s) (p := p) work own (Finset.mem_univ p)
    rw [allWork, allWork, process]
    omega
  · cases step

theorem due_put (process : t.process = Function.update s.process p own)
    (same : unmoved op own + (moved op t.history).length =
      unmoved op (s.process p) + (moved op s.history).length) : due op t = due op s := by
  have sum := sum_put (s := s) (p := p) (unmoved op) own (Finset.mem_univ p)
  rw [due, due, process]
  omega

theorem due_step (sane : Sane (s.process p)) (step : Step s (.step p) t) : due op t = due op s := by
  unfold Step execute at step
  split at step
  · obtain ⟨own, process, same, -⟩ := advance_work step sane
    -- before the transfer there is one byte more
    have moves (pc : (s.process p).pc = .transfer) (own : Process) (enables : own.pc = .enable)
        (length : own.msgLength = (s.process p).msgLength) (i : own.i = (s.process p).i) :
        (pending own).length + 1 = (pending (s.process p)).length := by
      have inside := sane.looping (by rw [pc]; trivial)
      have index := sane.index (by rw [pc]; decide)
      simp only [pending, enables, pc, length, i, List.length_map, List.length_drop,
        List.length_range]
      omega
    obtain ⟨own', process', history, quiet⟩ | ⟨pc, kind, rfl⟩ | ⟨pc, kind, rfl⟩ :=
      advance_cases step sane.index sane.looping
    · have equal : own = own' := by
        have here := congrFun (process.symm.trans process') p
        rwa [Function.update_self, Function.update_self] at here
      subst equal
      refine due_put process ?_
      rw [unmoved, unmoved, same, quiet.pending, history]
    · have puts : (Mbox.store p s).process =
          Function.update s.process p { s.process p with pc := .enable } := rfl
      refine due_put puts ?_
      have less := moves pc { s.process p with pc := .enable } rfl rfl rfl
      dsimp only at less
      cases op with
      | send =>
        rw [unmoved, unmoved, if_pos kind, if_pos kind, moved, moved]
        simp only [Mbox.store, stored, List.length_append, List.length_singleton]
        omega
      | recv => simp [unmoved, kind, moved, Mbox.store, fetched]
    · have puts : (Mbox.fetch p s).process = Function.update s.process p { s.process p with
          msg := Function.update (s.process p).msg (s.process p).i.toNat
            (s.mailbox.buffer s.mailbox.rp)
          pc := .enable } := rfl
      refine due_put puts ?_
      have less := moves pc { s.process p with
        msg := Function.update (s.process p).msg (s.process p).i.toNat
          (s.mailbox.buffer s.mailbox.rp)
        pc := .enable } rfl rfl rfl
      dsimp only at less
      cases op with
      | send => simp [unmoved, kind, moved, Mbox.fetch, stored]
      | recv =>
        rw [unmoved, unmoved, if_pos kind, if_pos kind, moved, moved]
        simp only [Mbox.fetch, fetched, List.length_append, List.length_singleton]
        omega
  · cases step

/-- Every run without new calls uses up work and moves what is due. -/
theorem Steps.keeps (run : Steps Undisturbed n s t) (crowd : ∃ A items, Crowd A s items)
    (masking : Masking s) : (∃ A items, Crowd A t items) ∧ Masking t ∧
      n + allWork t = allWork s ∧ ∀ op, due op t = due op s := by
  induction run with
  | none => exact ⟨crowd, masking, Nat.zero_add _, fun _ => rfl⟩
  | step allowed step rest ih =>
    obtain ⟨A, items, here⟩ := crowd
    have less := allWork_step (here.sane _) step
    obtain ⟨crowd, masking, sum, same⟩ := ih (here.step allowed step) (masking.step step)
    exact ⟨crowd, masking, by omega, fun op => (same op).trans (due_step (here.sane _) step)⟩

theorem unmoved_down (sane : Sane own) (pc : own.pc = .down) : 0 < unmoved own.op own := by
  have inside := sane.looping (by rw [pc]; trivial)
  have index := sane.index (by rw [pc]; decide)
  rw [unmoved, if_pos rfl]
  simp only [pending, pc, List.length_map, List.length_drop, List.length_range]
  omega

theorem unmoved_idle (pc : own.pc = .idle) : unmoved op own = 0 := by
  rw [unmoved]
  simp [pending, pc]

/-- The bytes in the mailbox that keep a process waiting. -/
def Op.limit : Op → Nat
  | .send => 32
  | .recv => 0

/-- Where the mailbox is full or empty, who waits is at the end that has to. -/
structure Jammed (op : Op) (s : System ι) : Prop where
  same : ∀ p, (s.process p).pc = .idle ∨ (s.process p).op = op ∧ (s.process p).pc = .down
  level : (∃ p, (s.process p).pc ≠ .idle) → (stored s.history).length =
    (fetched s.history).length + op.limit

/-- Senders wait for room in a full mailbox, or receivers for bytes in an empty one; never both. -/
theorem Crowd.jammed (crowd : Crowd A s items) (masking : Masking s) (stuck : Stuck s) :
    ∃ op, Jammed op s := by
  have waits := masking.stuck stuck
  have settled (op : Op) : s.mailbox.sem op = free op items :=
    crowd.settled fun p => (waits p).imp_right And.left
  have length := crowd.length
  have none (p : ι) (active : (s.process p).pc ≠ .idle) :
      (s.process p).pc = .down ∧ free (s.process p).op items = 0 := by
    obtain idle | ⟨down, sem⟩ := waits p
    · exact absurd idle active
    · have positive := crowd.positive (s.process p).op
      rw [settled] at sem positive
      exact ⟨down, Int.le_antisymm sem positive⟩
  by_cases active : ∃ p, (s.process p).pc ≠ .idle
  · obtain ⟨p, active⟩ := active
    obtain ⟨-, full⟩ := none p active
    have same (q : ι) (active : (s.process q).pc ≠ .idle) :
        (s.process q).op = (s.process p).op ∧ (s.process q).pc = .down := by
      obtain ⟨down, full'⟩ := none q active
      refine ⟨?_, down⟩
      cases first : (s.process p).op <;> cases second : (s.process q).op
      · rfl
      · rw [first] at full
        rw [second] at full'
        simp only [free, bufferSize] at full full'
        omega
      · rw [first] at full
        rw [second] at full'
        simp only [free, bufferSize] at full full'
        omega
      · rfl
    refine ⟨(s.process p).op, fun q => ?_, fun _ => ?_⟩
    · by_cases idle : (s.process q).pc = .idle
      · exact .inl idle
      · exact .inr (same q idle)
    · cases first : (s.process p).op <;> rw [first] at full <;>
        simp only [free, bufferSize, Op.limit] at full ⊢ <;> omega
  · refine ⟨.send, fun q => .inl ?_, fun some => absurd some active⟩
    by_contra idle
    exact active ⟨q, idle⟩

omit [DecidableEq ι] in
/-- With as many bytes to send as to receive, nobody is left waiting. -/
theorem Jammed.balanced {op : Op} (jammed : Jammed op s) (sane : ∀ p, Sane (s.process p))
    (balanced : due .send s = due .recv s) (p : ι) : (s.process p).pc = .idle := by
  by_contra active
  have level := jammed.level ⟨p, active⟩
  have mine : 0 < ∑ q, unmoved op (s.process q) := by
    obtain idle | ⟨same, down⟩ := jammed.same p
    · exact absurd idle active
    · have here := unmoved_down (sane p) down
      rw [same] at here
      exact Nat.lt_of_lt_of_le here (Finset.single_le_sum (f := fun q => unmoved op (s.process q))
        (fun q _ => Nat.zero_le _) (Finset.mem_univ p))
  have others : ∑ q, unmoved op.other (s.process q) = 0 := by
    refine Finset.sum_eq_zero fun q _ => ?_
    obtain idle | ⟨same, -⟩ := jammed.same q
    · exact unmoved_idle idle
    · rw [unmoved, if_neg]
      rw [same]
      cases op <;> decide
  cases op with
  | send =>
    simp only [due, moved, Op.other, Op.limit] at balanced others level
    omega
  | recv =>
    simp only [due, moved, Op.other, Op.limit] at balanced others level
    omega

/-- Any number of processes that do not disturb each other's positions, in any order of their steps:
a run without new calls is never longer than the work that is left; where it cannot go on, senders
wait at a full mailbox or receivers at an empty one, never both; and if as many bytes are to be
sent as received, all calls have come to their end and every byte has been fetched. -/
theorem calls_end {i refCount : Int} {name : List Byte}
    (reach : Reachable Step Undisturbed (start i name refCount m) s)
    (run : Steps Undisturbed n s t) : n + allWork t = allWork s ∧
      (Stuck t → (∃ op, Jammed op t) ∧ (due .send s = due .recv s →
        (∀ p, (t.process p).pc = .idle) ∧
          (stored t.history).length = (fetched t.history).length)) := by
  have here : (∃ A items, Crowd A s items) ∧ Masking s := by
    refine reach.invariant (fun s => (∃ A items, Crowd A s items) ∧ Masking s)
      ⟨⟨∅, [], crowd_start⟩, nofun⟩ ?_
    rintro s event t ⟨⟨A, items, crowd⟩, masking⟩ undisturbed step
    exact ⟨crowd.step undisturbed step, masking.step step⟩
  obtain ⟨⟨A, items, crowd⟩, masking, sum, same⟩ := run.keeps here.1 here.2
  refine ⟨sum, fun stuck => ?_⟩
  obtain ⟨op, jammed⟩ := crowd.jammed masking stuck
  refine ⟨⟨op, jammed⟩, fun balanced => ?_⟩
  rw [← same, ← same] at balanced
  have idle := jammed.balanced crowd.sane balanced
  refine ⟨idle, ?_⟩
  have nothing (op : Op) : ∑ q, unmoved op (t.process q) = 0 :=
    Finset.sum_eq_zero fun q _ => unmoved_idle (idle q)
  rw [due, due, nothing, nothing] at balanced
  simpa [moved] using balanced

omit [Fintype ι] in
theorem steps_of {allowed : System ι → Event ι → Prop} [∀ s event, Decidable (allowed s event)]
    (order : List ι) (result : runChecked execute allowed (order.map .step) s = some t) :
    Steps allowed order.length s t := by
  induction order generalizing s with
  | nil =>
    cases result
    exact .none
  | cons p order ih =>
    rw [List.map_cons, runChecked] at result
    split at result
    · obtain ⟨next, first, rest⟩ := Option.bind_eq_some_iff.mp result
      exact .step ‹_› first (ih rest)
    · cases result

def bothCalled : List (Event Bool) := [.mboxSend false (fun _ => 0x41) 2, .mboxRecv true (fun _ => 0) 2]

theorem calls_end_two : ∃ s t : System Bool,
    Reachable Step Undisturbed (start 0 [0x61] 2 zeros) s ∧ Steps Undisturbed 38 s t ∧
      ∀ p, (t.process p).pc = .idle := by
  obtain ⟨s, called, t, ran, stops, balanced⟩ : ∃ s,
      runChecked execute Undisturbed bothCalled (start 0 [0x61] 2 zeros) = some s ∧ ∃ t,
        runChecked execute Undisturbed ((List.replicate 3 true ++ List.replicate 10 false ++
          List.replicate 9 true ++ List.replicate 9 false ++ List.replicate 7 true).map .step) s =
          some t ∧ (execute (.step false) t = none ∧ execute (.step true) t = none) ∧
          due .send s = due .recv s :=
    ⟨_, rfl, _, rfl, ⟨rfl, rfl⟩, rfl⟩
  have reach := runChecked_reachable bothCalled .start called
  have run := steps_of _ ran
  have stuck : Stuck t := by
    intro p
    cases p
    · exact stops.1
    · exact stops.2
  exact ⟨s, t, reach, run, (((calls_end reach run).2 stuck).2 balanced).1⟩

/-! One sender and one receiver. -/

variable {who : Op → ι}

omit [DecidableEq ι] [Fintype ι] in
theorem Flowing.undisturbed (flowing : Flowing who s) : Undisturbed s (.step p) := by
  obtain ⟨items, sound⟩ := flowing.sound
  refine ⟨fun reduces => ?_, fun transfers => ?_⟩
  · rw [Fresh, (sound.known p).loaded reduces]
  · have low := (sound.known p).low (by rw [transfers]; trivial)
    omega

omit [Fintype ι] in
theorem Flowing.steps (distinct : who .send ≠ who .recv) (flowing : Flowing who s)
    (run : Steps (fun _ _ => True) n s t) : Steps Undisturbed n s t ∧ Flowing who t := by
  induction run with
  | none => exact ⟨.none, flowing⟩
  | @step n s t u p _ step rest ih =>
    have only : Only who s (.step p) := trivial
    obtain ⟨run, final⟩ := ih (flowing.step distinct only step)
    exact ⟨.step flowing.undisturbed step run, final⟩

omit [Fintype ι] in
theorem reachable_pair {i refCount : Int} {name : List Byte} (distinct : who .send ≠ who .recv)
    (reach : Reachable Step (Only who) (start i name refCount m) s) :
    Flowing who s ∧ (∃ A items, Crowd A s items) ∧ Masking s := by
  refine reach.invariant (fun s => Flowing who s ∧ (∃ A items, Crowd A s items) ∧ Masking s)
    ⟨flowing_start, ⟨∅, [], crowd_start⟩, nofun⟩ ?_
  rintro s event t ⟨flowing, ⟨A, items, crowd⟩, masking⟩ only step
  have undisturbed : Undisturbed s event := by
    cases event with
    | mboxSend p msg msgLength | mboxRecv p msg msgLength => trivial
    | step p => exact flowing.undisturbed
  exact ⟨flowing.step distinct only step, crowd.step undisturbed step, masking.step step⟩

/-- One process sends and another one receives, in any order of their steps. From every state in
which as many bytes are to be sent as received, every run that goes on as long as it can takes the
same number of steps; then both calls have ended, and the receiver has all that was sent, in
order. -/
theorem pair_delivers {i refCount : Int} {name : List Byte} (distinct : who .send ≠ who .recv)
    (reach : Reachable Step (Only who) (start i name refCount m) s)
    (balanced : due .send s = due .recv s) (run : Steps (fun _ _ => True) n s t)
    (stuck : Stuck t) : n = allWork s ∧ (∀ p, (t.process p).pc = .idle) ∧
      fetched t.history = called t.history := by
  obtain ⟨flowing, crowd, masking⟩ := reachable_pair distinct reach
  obtain ⟨steps, final⟩ := flowing.steps distinct run
  obtain ⟨⟨A, items, crowd⟩, masking, sum, same⟩ := steps.keeps crowd masking
  obtain ⟨op, jammed⟩ := crowd.jammed masking stuck
  rw [← same, ← same] at balanced
  have idle := jammed.balanced crowd.sane balanced
  have nothing (op : Op) : ∑ q, unmoved op (t.process q) = 0 :=
    Finset.sum_eq_zero fun q _ => unmoved_idle (idle q)
  have done : allWork t = 0 := Finset.sum_eq_zero fun q _ => by rw [work, idle q]
  have length : (stored t.history).length = (fetched t.history).length := by
    rw [due, due, nothing, nothing] at balanced
    simpa [moved] using balanced
  have empty : items = [] := List.eq_nil_of_length_eq_zero (by have := crowd.length; omega)
  refine ⟨by omega, idle, ?_⟩
  rw [final.passed, pending, idle, List.append_nil, crowd.contents.flow, empty, List.append_nil]

theorem pair_delivers_two : ∃ s t : System Bool,
    Reachable Step (Only ends) (start 0 [0x61] 2 zeros) s ∧ Steps (fun _ _ => True) 38 s t ∧
      allWork s = 38 ∧ fetched t.history = [0x41, 0x41] := by
  obtain ⟨s, called, t, ran, stops, balanced, message⟩ : ∃ s,
      runAll bothCalled (start 0 [0x61] 2 zeros) = some s ∧ ∃ t,
        runChecked execute (fun _ _ => True) ((List.replicate 3 true ++ List.replicate 10 false ++
          List.replicate 9 true ++ List.replicate 9 false ++ List.replicate 7 true).map .step) s =
          some t ∧ (execute (.step false) t = none ∧ execute (.step true) t = none) ∧
          due .send s = due .recv s ∧ Mbox.called t.history = [0x41, 0x41] :=
    ⟨_, rfl, _, rfl, ⟨rfl, rfl⟩, rfl, rfl⟩
  have reach : Reachable Step (Only ends) (start 0 [0x61] 2 zeros) s :=
    runAll_reachable bothCalled .start (by simp [bothCalled, Only, ends]) called
  have run := steps_of _ ran
  have stuck : Stuck t := by
    intro p
    cases p
    · exact stops.1
    · exact stops.2
  obtain ⟨length, -, whole⟩ := pair_delivers (by decide) reach balanced run stuck
  exact ⟨s, t, reach, run, length.symm, whole.trans message⟩

end Tina.Mbox
