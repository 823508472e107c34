import Tina.Linked
import Tina.Progress
import Tina.Words

/-! Mailboxes over the kernel. The semaphores of a mailbox are those of `sem.c`, with an inner
mutex and a queue, and user code runs between the interrupts and the system calls of whatever
processes there are. To the mailbox it is as if each operation on a semaphore were one step,
unless the links of another mutex lie in it. -/
namespace Tina.Mbox

open ByteBuffer Transition

/-- A PCB, and which of the processes that were put into it. -/
abbrev Who := Slot × Nat

def incarnation (i : Slot) (trace : List Tina.Act) : Nat := trace.count (.spawn i)

/-- The two semaphores of the mailbox among those of the kernel. -/
structure Numbers where
  rsem : Nat
  wsem : Nat
  apart : rsem ≠ wsem

/-- The semaphore that the function waits for. -/
def Numbers.sem (n : Numbers) : Op → Nat
  | .send => n.wsem
  | .recv => n.rsem

/-- What the process is to do to a semaphore at its place in `mailbox.c`. -/
def Numbers.duty (n : Numbers) (own : Process) : Duty :=
  match own.pc with
  | .down => .down (n.sem own.op)
  | .up => .up (n.sem own.op.other)
  | _ => .nothing

def Numbers.Concerns (n : Numbers) : Duty → Prop
  | .nothing => False
  | .up s | .down s => s = n.rsem ∨ s = n.wsem

instance (n : Numbers) : DecidablePred n.Concerns := fun duty => by
  cases duty <;> unfold Numbers.Concerns <;> infer_instance

/-- The system calls of a process: the next one of `mbox_send` or `mbox_recv`, or outside of them
any that leaves the two semaphores alone. -/
def Numbers.Allows (n : Numbers) (own : Process) (call : Call) : Prop :=
  match own.pc with
  | .idle => ¬n.Concerns call.duty
  | .down | .up => call.duty = n.duty own
  | _ => False

instance (n : Numbers) (own : Process) : DecidablePred (n.Allows own) := fun call => by
  unfold Numbers.Allows
  split <;> infer_instance

/-- In a `mailbox_t`, after `boxid`, `ref_count`, `name`, `volume`, `wp`, `rp` and `buffer`. -/
def offRsem : Nat := 4 + 4 + 16 + 4 + 4 + 4 + 32

def sizeofSemaphore : Nat := Layout.offSemLock + Layout.sizeofMutex

def offWsem : Nat := offRsem + sizeofSemaphore
def sizeofMailbox : Nat := offWsem + sizeofSemaphore

/-- A mailbox in its place among the objects of the kernel. -/
structure Site extends Numbers where
  places : Layout.Places
  box : Nat
  rsemAt : places.sem rsem = box + offRsem
  wsemAt : places.sem wsem = box + offWsem

/-- Neither of the two links of the mutex lies in the mailbox. -/
def Site.Clear (site : Site) (l : Mutex) : Prop :=
  ∀ c ∈ [Layout.Cell.prev (.lock l), .next (.lock l)],
    site.places.address c + 4 ≤ site.box ∨ site.box + sizeofMailbox ≤ site.places.address c

instance (site : Site) : DecidablePred site.Clear := fun l => by
  unfold Site.Clear
  infer_instance

/-- The inner mutexes of a mailbox have their links behind it. -/
theorem Site.own_clear (site : Site) (op : Op) : site.Clear (.sem (site.sem op)) := by
  have behind : ∀ a, site.box + offRsem ≤ a → site.box + sizeofMailbox ≤ a + Layout.offSemLock +
      Layout.offPrev := by
    intro a above
    simp only [sizeofMailbox, offWsem, sizeofSemaphore, Layout.offPrev_eq, Layout.sizeofMutex_eq,
      Layout.offSemLock, Layout.sizeofQueue, offRsem] at above ⊢
    omega
  have above : site.box + offRsem ≤ site.places.sem (site.sem op) := by
    cases op with
    | send => exact site.wsemAt ▸ Nat.add_le_add_left (by decide) _
    | recv => exact site.rsemAt.ge
  have first := behind _ above
  simp only [Site.Clear, List.forall_mem_cons, List.not_mem_nil, false_implies, implies_true,
    and_true]
  exact ⟨.inr first, .inr (Nat.le_trans first (Nat.add_le_add_left (by decide) _))⟩

/-- The counts that `user` has for the two semaphores are never looked at. -/
structure Traffic where
  kernel : Kernel
  user : System Who

/-- The running process. -/
def Traffic.self (x : Traffic) : Who :=
  (x.kernel.currentRunning, incarnation x.kernel.currentRunning x.kernel.trace)

/-- The running process takes a step in user code, or the kernel takes one. -/
inductive Deal where
  | user (event : Event Who)
  | kernel (event : Tina.Event)

/-- With interrupts disabled the timer does not come through. -/
def Numbers.Ready (n : Numbers) (x : Traffic) : Tina.Event → Prop
  | .call call => n.Allows (x.user.process x.self) call
  | .timer => x.user.masked = none
  | .resume => True

instance (n : Numbers) (x : Traffic) : DecidablePred (n.Ready x) := fun event => by
  cases event <;> unfold Numbers.Ready <;> infer_instance

/-- The call that a process was in returns. -/
def System.finish (p : Who) (s : System Who) : System Who :=
  let own := s.process p
  match own.pc with
  | .down => s.put p { own with pc := .disable }
  | .up => s.put p { own with pc := .next }
  | _ => s

/-- The process has the processor, is in user code, and it was no interrupt that it came from. -/
def Returned (event : Tina.Event) (i : Slot) (k : Kernel) : Prop :=
  event ≠ .timer ∧ k.currentRunning = i ∧ k.kont i = .user

instance (event : Tina.Event) (i : Slot) : DecidablePred (Returned event i) := fun k => by
  unfold Returned
  infer_instance

/-- The processes of the mailbox after the kernel has gone to `k`. -/
def Traffic.settled (x : Traffic) (event : Tina.Event) (k : Kernel) : System Who :=
  if Returned event x.kernel.currentRunning k then x.user.finish x.self else x.user

def Traffic.execute (n : Numbers) (fuel : Nat) (clk : Word) (deal : Deal) (x : Traffic) :
    Option Traffic :=
  match deal with
  | .user event =>
    if x.kernel.kont x.kernel.currentRunning = .user ∧ event.process = x.self ∧
        n.duty (x.user.process x.self) = .nothing then do
      let user ← Mbox.execute event x.user
      some { x with user := user }
    else none
  | .kernel event =>
    if n.Ready x event then do
      let k ← Tina.execute fuel clk event x.kernel
      some ⟨k, x.settled event k⟩
    else none

def Deal.mutexes (k : Kernel) : Deal → List Mutex
  | .user _ => []
  | .kernel event => event.mutexes k

/-- No link of a mutex that is in use, or that the step puts to use, lies in the mailbox. -/
def Site.Apart (site : Site) (x : Traffic) (deal : Deal) : Prop :=
  x.kernel.LocksIn site.Clear ∧ ∀ l ∈ deal.mutexes x.kernel, site.Clear l

/-- Where one lies there, what is stored for the kernel is stored for the mailbox, and the other
way round. -/
def Traffic.Step (site : Site) (x : Traffic) (deal : Deal) (y : Traffic) : Prop :=
  ∃ fuel clk z, x.execute site.toNumbers fuel clk deal = some z ∧
    (y = z ∨ ¬site.Apart x deal ∧ ∃ k m, y = ⟨k, { z.user with mailbox := m }⟩)

/-- The mailbox with the counts that the kernel has. -/
def System.counting (n : Numbers) (count : Nat → Int) (s : System Who) : System Who :=
  { s with mailbox := { s.mailbox with rsem := count n.rsem, wsem := count n.wsem } }

def Traffic.mailbox (n : Numbers) (x : Traffic) : System Who := x.user.counting n x.kernel.count

variable {n : Numbers} {count : Nat → Int} {s t : System Who} {event : Event Who} {own : Process}
  {p : Who} {op : Op}

theorem counting_sem : (s.counting n count).mailbox.sem op = count (n.sem op) := by
  cases op <;> rfl

theorem counting_setPosition {v : Int} : (s.counting n count).mailbox.setPosition op v =
    (System.counting n count { s with mailbox := s.mailbox.setPosition op v }).mailbox := by
  cases op <;> rfl

theorem counting_position : (s.counting n count).mailbox.position op = s.mailbox.position op := by
  cases op <;> rfl

theorem advance_counting (calm : n.duty (s.process p) = .nothing) (step : advance p s = some t) :
    advance p (s.counting n count) = some (t.counting n count) := by
  have same : (s.counting n count).process = s.process := rfl
  cases pc : (s.process p).pc with
  | idle =>
    simp only [advance, pc] at step
    cases step
  | down | up =>
    simp only [Numbers.duty, pc] at calm
    cases calm
  | test | disable | enable | next =>
    simp only [advance, pc, same] at step ⊢
    obtain rfl := Option.some.inj step
    rfl
  | load =>
    simp only [advance, pc, same, counting_position] at step ⊢
    obtain rfl := Option.some.inj step
    rfl
  | reduce =>
    simp only [advance, pc, same, counting_setPosition] at step ⊢
    obtain rfl := Option.some.inj step
    rfl
  | transfer =>
    simp only [advance, pc, same] at step ⊢
    split at step
    all_goals
      obtain rfl := Option.some.inj step
      rfl

/-- A step that is no operation on a semaphore. -/
theorem execute_counting (calm : n.duty (s.process event.process) = .nothing)
    (step : Mbox.execute event s = some t) :
    Mbox.execute event (s.counting n count) = some (t.counting n count) := by
  simp only [Mbox.execute] at step ⊢
  split at step
  next free =>
    rw [if_pos (show (s.counting n count).masked = none ∨
      (s.counting n count).masked = some event.process from free)]
    cases event with
    | mboxSend p msg msgLength | mboxRecv p msg msgLength =>
      simp only [] at step ⊢
      split at step
      next idle =>
        obtain rfl := Option.some.inj step
        exact if_pos idle
      · cases step
    | step p => exact advance_counting calm step
  · cases step

/-- The operation of the kernel on a semaphore is that of the mailbox. -/
theorem finish_down (pc : (s.process p).pc = .down) (positive : 0 < count (n.sem (s.process p).op)) :
    advance p (s.counting n count) = some ((s.finish p).counting n
      (Function.update count (n.sem (s.process p).op) (count (n.sem (s.process p).op) - 1))) := by
  have same : (s.counting n count).process = s.process := rfl
  simp only [advance, same, pc, counting_sem, if_pos positive, System.finish]
  cases op : (s.process p).op with
  | send =>
    simp only [System.counting, System.put, Mailbox.setSem, Numbers.sem, Function.update_self,
      Function.update_of_ne n.apart]
  | recv =>
    simp only [System.counting, System.put, Mailbox.setSem, Numbers.sem, Function.update_self,
      Function.update_of_ne n.apart.symm]

theorem finish_up (pc : (s.process p).pc = .up) :
    advance p (s.counting n count) = some ((s.finish p).counting n
      (Function.update count (n.sem (s.process p).op.other)
        (count (n.sem (s.process p).op.other) + 1))) := by
  have same : (s.counting n count).process = s.process := rfl
  simp only [advance, same, pc, counting_sem, System.finish]
  cases op : (s.process p).op with
  | send =>
    simp only [System.counting, System.put, Mailbox.setSem, Numbers.sem, Op.other,
      Function.update_self, Function.update_of_ne n.apart.symm]
  | recv =>
    simp only [System.counting, System.put, Mailbox.setSem, Numbers.sem, Op.other,
      Function.update_self, Function.update_of_ne n.apart]

theorem finish_idle (idle : (s.process p).pc = .idle) : s.finish p = s := by
  simp only [System.finish, idle]

/-! The slots of a mailbox are counted by the semaphores or in the hands of somebody. -/

section Slots

variable {ι : Type} [DecidableEq ι] {s t : System ι} {p : ι} {event : Event ι}

def inHand (own : Process) : Int := own.pc.claimed + own.pc.owed

/-- What holds however the processes disturb each other. -/
structure Accounted (A : Finset ι) (s : System ι) : Prop where
  idle : ∀ p ∉ A, (s.process p).pc = .idle
  positive : ∀ op, 0 ≤ s.mailbox.sem op
  total : s.mailbox.sem .send + s.mailbox.sem .recv + ∑ p ∈ A, inHand (s.process p) = bufferSize

/-- A wait or a signal moves a slot between a semaphore and the hands of the process. -/
theorem setSem_total {m : Mailbox} {op : Op} {v : Int} :
    (m.setSem op v).sem .send + (m.setSem op v).sem .recv =
      m.sem .send + m.sem .recv + (v - m.sem op) := by
  cases op <;> simp only [Mailbox.setSem, Mailbox.sem] <;> omega

theorem setSem_positive {m : Mailbox} {op : Op} {v : Int} (positive : ∀ op, 0 ≤ m.sem op)
    (counts : 0 ≤ v) (op' : Op) : 0 ≤ (m.setSem op v).sem op' := by
  by_cases same : op' = op
  · rw [same, setSem_self]
    exact counts
  · rw [other_of_ne same, setSem_other]
    exact positive _

/-- What a step of one process comes to. -/
structure Changes (s t : System ι) (p : ι) (own : Process) : Prop where
  process : t.process = Function.update s.process p own
  masked : t.masked = s.masked ∨ t.masked = none ∨ t.masked = some p
  positive : (∀ op, 0 ≤ s.mailbox.sem op) → ∀ op, 0 ≤ t.mailbox.sem op
  total : t.mailbox.sem .send + t.mailbox.sem .recv + inHand own =
    s.mailbox.sem .send + s.mailbox.sem .recv + inHand (s.process p)

theorem advance_changes (step : advance p s = some t) : ∃ own, Changes s t p own := by
  cases pc : (s.process p).pc with
  | idle =>
    simp only [advance, pc] at step
    cases step
  | test =>
    simp only [advance, pc] at step
    obtain rfl := Option.some.inj step
    refine ⟨_, rfl, .inl rfl, id, ?_⟩
    simp only [inHand, pc]
    split <;> rfl
  | load | next =>
    simp only [advance, pc] at step
    obtain rfl := Option.some.inj step
    refine ⟨_, rfl, .inl rfl, id, ?_⟩
    simp only [inHand, pc]
    rfl
  | reduce =>
    simp only [advance, pc] at step
    obtain rfl := Option.some.inj step
    refine ⟨_, rfl, .inl rfl, fun positive op => setPosition_sem.symm ▸ positive op, ?_⟩
    simp only [inHand, pc, System.put, setPosition_sem]
    rfl
  | down =>
    simp only [advance, pc] at step
    split at step
    next counts =>
      obtain rfl := Option.some.inj step
      refine ⟨_, rfl, .inl rfl, fun positive => setSem_positive positive (by omega), ?_⟩
      simp only [inHand, pc, System.put, setSem_total, Pc.claimed, Pc.owed]
      omega
    · cases step
  | disable =>
    simp only [advance, pc] at step
    obtain rfl := Option.some.inj step
    refine ⟨_, rfl, .inr (.inr rfl), id, ?_⟩
    simp only [inHand, pc]
    rfl
  | transfer =>
    simp only [advance, pc] at step
    split at step
    all_goals
      obtain rfl := Option.some.inj step
      refine ⟨_, rfl, .inl rfl, id, ?_⟩
      simp only [inHand, pc]
      rfl
  | enable =>
    simp only [advance, pc] at step
    obtain rfl := Option.some.inj step
    refine ⟨_, rfl, .inr (.inl rfl), id, ?_⟩
    simp only [inHand, pc]
    rfl
  | up =>
    simp only [advance, pc] at step
    obtain rfl := Option.some.inj step
    refine ⟨_, rfl, .inl rfl, fun positive => ?_, ?_⟩
    · have counts := positive (s.process p).op.other
      exact setSem_positive positive (by omega)
    · simp only [inHand, pc, System.put, setSem_total, Pc.claimed, Pc.owed]
      omega

theorem execute_changes (step : Mbox.execute event s = some t) :
    ∃ own, Changes s t event.process own := by
  unfold Mbox.execute at step
  split at step
  · cases event with
    | mboxSend p msg msgLength | mboxRecv p msg msgLength =>
      simp only [] at step
      split at step
      next idle =>
        obtain rfl := Option.some.inj step
        refine ⟨_, rfl, .inl rfl, id, ?_⟩
        simp only [inHand, Event.process, idle]
        rfl
      · cases step
    | step p => exact advance_changes step
  · cases step

theorem inHand_nonneg (own : Process) : 0 ≤ inHand own := by
  rw [inHand]
  cases own.pc <;> decide

/-- What a process has in hand comes out of the semaphores. -/
theorem Accounted.changes {A : Finset ι} {own : Process} (accounted : Accounted A s)
    (changes : Changes s t p own) : Accounted (insert p A) t where
  idle q outside := by
    obtain ⟨other, outside⟩ := not_or.mp (fun inside => outside (Finset.mem_insert.mpr inside))
    rw [changes.process, Function.update_of_ne other]
    exact accounted.idle q outside
  positive := changes.positive accounted.positive
  total := by
    have sum := sum_put (s := s) inHand own (Finset.mem_insert_self p A)
    have before := accounted.total
    have moved := changes.total
    rw [← Finset.sum_insert_of_eq_zero_if_notMem (a := p)] at before
    · rw [changes.process]
      omega
    · intro outside
      rw [inHand, accounted.idle p outside]
      rfl

theorem Accounted.step {A : Finset ι} (accounted : Accounted A s) (step : Step s event t) :
    ∃ A, Accounted A t := by
  obtain ⟨own, changes⟩ := execute_changes step
  exact ⟨_, accounted.changes changes⟩

omit [DecidableEq ι] in
/-- No semaphore of a mailbox counts further than its slots. -/
theorem Accounted.bounded {A : Finset ι} (accounted : Accounted A s) (op : Op) :
    0 ≤ s.mailbox.sem op ∧ s.mailbox.sem op ≤ bufferSize := by
  have sum := accounted.total
  have hands : 0 ≤ ∑ p ∈ A, inHand (s.process p) := Finset.sum_nonneg fun p _ => inHand_nonneg _
  have sender := accounted.positive .send
  have receiver := accounted.positive .recv
  cases op <;> constructor <;> omega

omit [DecidableEq ι] in
theorem accounted_start {i refCount : Int} {name : List Byte} {m : Mailbox} :
    Accounted ∅ (start i name refCount m : System ι) :=
  ⟨fun _ _ => rfl, start_positive, rfl⟩

end Slots

theorem finish_masked : (s.finish p).masked = s.masked := by
  unfold System.finish
  dsimp only
  split <;> rfl

theorem finish_others {q : Who} (other : q ≠ p) : (s.finish p).process q = s.process q := by
  unfold System.finish
  dsimp only
  split
  · exact Function.update_of_ne other _ _
  · exact Function.update_of_ne other _ _
  · rfl

/-! Where the kernel has a process agrees with where it is in `mailbox.c`. -/

/-- Inside the kernel a process is to do what it called for, and outside of its call that is
something else. -/
def Numbers.Fits (n : Numbers) (own : Process) (kont : Kont) : Prop :=
  match own.pc with
  | .idle => ¬n.Concerns kont.duty
  | .down | .up => kont = .user ∨ kont.duty = n.duty own
  | _ => kont = .user

/-- What holds in every state of a run. -/
structure Consistent (n : Numbers) (x : Traffic) : Prop where
  later : ∀ i m, incarnation i x.kernel.trace < m → (x.user.process (i, m)).pc = .idle
  places : ∀ i, n.Fits (x.user.process (i, incarnation i x.kernel.trace)) (x.kernel.kont i)
  alone : ∀ p, x.user.masked = some p → p = x.self
  masking : Masking x.user
  accounted : ∃ A, Accounted A (x.mailbox n)

variable {x y : Traffic} {kont : Kont} {k k' : Kernel}

theorem fits_user : n.Fits own .user := by
  unfold Numbers.Fits
  split
  · exact fun concerned => concerned
  · exact .inl rfl
  · exact .inl rfl
  · rfl

theorem incarnation_append {i : Slot} {acts trace : List Tina.Act} :
    incarnation i (acts ++ trace) = incarnation i acts + incarnation i trace :=
  List.count_append

theorem incarnation_plain {i : Slot} {acts : List Tina.Act} (plain : ∀ a ∈ acts, a.moves = false) :
    incarnation i acts = 0 :=
  List.count_eq_zero.mpr fun inside => by cases plain _ inside

theorem incarnation_quiet {i : Slot} {trace trace' : List Tina.Act}
    (quiet : ∃ acts, trace' = acts ++ trace ∧ ∀ a ∈ acts, a.moves = false) :
    incarnation i trace' = incarnation i trace := by
  obtain ⟨acts, rfl, plain⟩ := quiet
  rw [incarnation_append, incarnation_plain plain, Nat.zero_add]

theorem incarnation_dispatch {i p : Slot} {trace : List Tina.Act} :
    incarnation i (.dispatch p :: trace) = incarnation i trace :=
  List.count_cons_of_ne (by simp)

theorem incarnation_chosen {i p : Slot} {trace trace' : List Tina.Act} (chosen : ∃ acts,
    trace' = .dispatch p :: (acts ++ trace) ∧ ∀ a ∈ acts, a.moves = false) :
    incarnation i trace' = incarnation i trace := by
  obtain ⟨acts, rfl, plain⟩ := chosen
  rw [incarnation_dispatch]
  exact incarnation_quiet ⟨acts, rfl, plain⟩

/-- Only the running process is disturbed. -/
theorem Traffic.other_ne (x : Traffic) (i : Slot) (other : i ≠ x.kernel.currentRunning) :
    (i, incarnation i x.kernel.trace) ≠ x.self :=
  fun same => other (congrArg Prod.fst same)

theorem Traffic.later_ne (x : Traffic) {i : Slot} {m : Nat} (low : incarnation i x.kernel.trace < m) :
    (i, m) ≠ x.self := by
  intro same
  obtain ⟨rfl, rfl⟩ := Prod.mk.inj same
  exact Nat.lt_irrefl _ low

/-- A step in user code is one of the mailbox. -/
theorem Consistent.user (consistent : Consistent n x)
    (here : x.kernel.kont x.kernel.currentRunning = .user) (mine : event.process = x.self)
    (calm : n.duty (x.user.process x.self) = .nothing) (step : Mbox.execute event x.user = some t) :
    Consistent n { x with user := t } ∧
      Step (x.mailbox n) event (Traffic.mailbox n { x with user := t }) := by
  have above : Step (x.mailbox n) event (t.counting n x.kernel.count) :=
    execute_counting (by rw [mine]; exact calm) step
  obtain ⟨own, changes⟩ := execute_changes step
  rw [mine] at changes
  refine ⟨⟨fun i m low => ?_, fun i => ?_, fun p isMasked => ?_, ?_, ?_⟩, above⟩
  · rw [changes.process, Function.update_of_ne (x.later_ne low)]
    exact consistent.later i m low
  · by_cases running : i = x.kernel.currentRunning
    · subst running
      rw [here]
      exact fits_user
    · rw [changes.process, Function.update_of_ne (x.other_ne i running)]
      exact consistent.places i
  · change t.masked = some p at isMasked
    rcases changes.masked with same | same | same
    · exact consistent.alone p (same.symm.trans isMasked)
    · rw [same] at isMasked
      cases isMasked
    · exact Option.some.inj (isMasked.symm.trans same)
  · exact consistent.masking.step step
  · obtain ⟨A, accounted⟩ := consistent.accounted
    exact accounted.step above

/-- Outside of the part with interrupts disabled, nobody has them disabled. -/
theorem Consistent.unmasked (consistent : Consistent n x)
    (transfer : (x.user.process x.self).pc ≠ .transfer)
    (enable : (x.user.process x.self).pc ≠ .enable) : x.user.masked = none := by
  cases masked : x.user.masked with
  | none => rfl
  | some p =>
    obtain rfl := consistent.alone p masked
    exact (consistent.masking _ masked).elim (fun pc => absurd pc transfer)
      fun pc => absurd pc enable

/-- The kernel has done its part for the running process, and nothing to the others. -/
theorem Consistent.settle (consistent : Consistent n x) (unmasked : x.user.masked = none)
    (others : ∀ i, i ≠ x.kernel.currentRunning → k'.kont i = x.kernel.kont i)
    (same : ∀ i, incarnation i k'.trace = incarnation i x.kernel.trace)
    (process : ∀ q, q ≠ x.self → s.process q = x.user.process q)
    (masked : s.masked = x.user.masked)
    (fits : n.Fits (s.process x.self) (k'.kont x.kernel.currentRunning))
    (accounted : ∃ A, Accounted A (s.counting n k'.count)) : Consistent n ⟨k', s⟩ where
  later i m low := by
    change incarnation i k'.trace < m at low
    rw [same] at low
    rw [process _ (x.later_ne low)]
    exact consistent.later i m low
  places i := by
    change n.Fits (s.process (i, incarnation i k'.trace)) (k'.kont i)
    rw [same]
    by_cases running : i = x.kernel.currentRunning
    · subst running
      exact fits
    · rw [others i running, process _ (x.other_ne i running)]
      exact consistent.places i
  alone p isMasked := by cases (masked.trans unmasked).symm.trans isMasked
  masking p isMasked := by cases (masked.trans unmasked).symm.trans isMasked
  accounted := accounted

/-- What the running process calls for, or still has to do: what it is to do at its place in
`mailbox.c`, or outside of it something else. -/
def Numbers.Means (n : Numbers) (own : Process) (d : Duty) : Prop :=
  own.pc = .idle ∧ ¬n.Concerns d ∨ (own.pc = .down ∨ own.pc = .up) ∧ d = n.duty own

variable {d : Duty} {deal : Deal} {cause : Tina.Event}

theorem Numbers.Fits.means (fits : n.Fits own kont) (inside : kont ≠ .user) :
    n.Means own kont.duty := by
  unfold Numbers.Fits at fits
  split at fits
  next pc => exact .inl ⟨pc, fits⟩
  next pc => exact .inr ⟨.inl pc, fits.resolve_left inside⟩
  next pc => exact .inr ⟨.inr pc, fits.resolve_left inside⟩
  · exact absurd fits inside

theorem Numbers.Means.fits (means : n.Means own kont.duty) : n.Fits own kont := by
  rcases means with ⟨pc, apart⟩ | ⟨pc | pc, calls⟩
  · simp only [Numbers.Fits, pc]
    exact apart
  · simp only [Numbers.Fits, pc]
    exact .inr calls
  · simp only [Numbers.Fits, pc]
    exact .inr calls

/-- At the other places there is something to do. -/
theorem Numbers.Means.idle (means : n.Means own .nothing) : own.pc = .idle := by
  rcases means with ⟨pc, -⟩ | ⟨pc | pc, calls⟩
  · exact pc
  · simp only [Numbers.duty, pc] at calls
    cases calls
  · simp only [Numbers.duty, pc] at calls
    cases calls

theorem Consistent.means (consistent : Consistent n x) (ready : n.Ready x cause)
    (ordinary : cause ≠ .timer)
    (inside : cause = .resume → x.kernel.kont x.kernel.currentRunning ≠ .user) :
    n.Means (x.user.process x.self) (cause.duty x.kernel) := by
  cases cause with
  | timer => exact absurd rfl ordinary
  | call call =>
    change n.Allows _ call at ready
    unfold Numbers.Allows at ready
    split at ready
    next pc => exact .inl ⟨pc, ready⟩
    next pc => exact .inr ⟨.inl pc, ready⟩
    next pc => exact .inr ⟨.inr pc, ready⟩
    · exact ready.elim
  | resume =>
    have fits : n.Fits (x.user.process x.self) _ := consistent.places x.kernel.currentRunning
    exact fits.means (inside rfl)

theorem Consistent.calm (consistent : Consistent n x)
    (means : n.Means (x.user.process x.self) d) : x.user.masked = none := by
  apply consistent.unmasked
  all_goals
    rcases means with ⟨pc, -⟩ | ⟨pc | pc, -⟩
    all_goals
      rw [pc]
      decide

theorem Consistent.bounded (consistent : Consistent n x) (op : Op) :
    0 ≤ x.kernel.count (n.sem op) ∧ x.kernel.count (n.sem op) ≤ bufferSize := by
  obtain ⟨A, accounted⟩ := consistent.accounted
  have counts := accounted.bounded op
  rwa [Traffic.mailbox, counting_sem] at counts

theorem counting_apart (apart : ¬n.Concerns d) :
    s.counting n (d.perform count) = s.counting n count := by
  cases d with
  | nothing => rfl
  | up v | down v =>
    have first : n.rsem ≠ v := fun same => apart (.inl same.symm)
    have second : n.wsem ≠ v := fun same => apart (.inr same.symm)
    simp only [System.counting, Duty.perform, Function.update_of_ne first,
      Function.update_of_ne second]

/-- When the kernel has done what a process called for, the mailbox has taken its step. The counts
are so small that the machine's numbers do not wrap. -/
theorem finish_step (means : n.Means (s.process p) d) (enabled : d.Enabled count)
    (bounded : ∀ op, 0 ≤ count (n.sem op) ∧ count (n.sem op) ≤ bufferSize)
    (unmasked : s.masked = none) :
    (s.finish p).counting n (d.perform count) = s.counting n count ∨
      Step (s.counting n count) (.step p) ((s.finish p).counting n (d.perform count)) := by
  have free : (s.counting n count).masked = none ∨ (s.counting n count).masked = some p :=
    .inl unmasked
  have size : bufferSize = 32 := rfl
  rcases means with ⟨idle, apart⟩ | ⟨pc | pc, rfl⟩
  · rw [finish_idle idle]
    exact .inl (counting_apart apart)
  · have waits : n.duty (s.process p) = .down (n.sem (s.process p).op) := by
      simp only [Numbers.duty, pc]
    have counts := bounded (s.process p).op
    have small : int32 (count (n.sem (s.process p).op) - 1) = count (n.sem (s.process p).op) - 1 :=
      int32_of_lt (by omega) (by omega)
    rw [waits] at enabled ⊢
    rw [Duty.perform, small]
    exact .inr ((if_pos free).trans (finish_down pc enabled))
  · have signals : n.duty (s.process p) = .up (n.sem (s.process p).op.other) := by
      simp only [Numbers.duty, pc]
    have counts := bounded (s.process p).op.other
    have small : int32 (count (n.sem (s.process p).op.other) + 1) =
        count (n.sem (s.process p).op.other) + 1 := int32_of_lt (by omega) (by omega)
    rw [signals, Duty.perform, small]
    exact .inr ((if_pos free).trans (finish_up pc))

theorem Consistent.turn (consistent : Consistent n x)
    (means : n.Means (x.user.process x.self) d) (ordinary : cause ≠ .timer)
    (turn : Turn d { x.kernel with
      kont := Function.update x.kernel.kont x.kernel.currentRunning .user } k') :
    Consistent n ⟨k', x.settled cause k'⟩ ∧
      (Traffic.mailbox n ⟨k', x.settled cause k'⟩ = x.mailbox n ∨
        Step (x.mailbox n) (.step x.self) (Traffic.mailbox n ⟨k', x.settled cause k'⟩)) := by
  have unmasked := consistent.calm means
  obtain ⟨A, accounted⟩ := consistent.accounted
  cases turn with
  | stays enabled unmoved =>
    have count : k'.count = d.perform x.kernel.count := unmoved.count
    have back : k'.kont x.kernel.currentRunning = .user := by
      rw [unmoved.kont]
      exact Function.update_self ..
    have done : x.settled cause k' = x.user.finish x.self :=
      if_pos ⟨ordinary, unmoved.running, back⟩
    have above := finish_step means enabled consistent.bounded unmasked
    rw [← count] at above
    rw [done]
    refine ⟨consistent.settle unmasked (fun i other => ?_) (fun i => ?_)
      (fun q other => finish_others other) finish_masked (back ▸ fits_user) ?_, above⟩
    · rw [unmoved.kont]
      exact Function.update_of_ne other ..
    · exact incarnation_quiet unmoved.quiet
    · rcases above with same | step
      · exact ⟨A, same ▸ accounted⟩
      · exact accounted.step step
  | switches kont same dispatched =>
    have count : k'.count = x.kernel.count := dispatched.count
    have left : k'.kont x.kernel.currentRunning = kont := by
      rw [dispatched.kont]
      exact Function.update_self ..
    -- who has left in the middle of a call has not returned
    have kept : x.settled cause k' = x.user := by
      rw [Traffic.settled]
      split
      next returned =>
        obtain rfl : kont = .user := left.symm.trans returned.2.2
        obtain rfl : .nothing = d := same
        exact finish_idle means.idle
      · rfl
    rw [kept]
    refine ⟨consistent.settle unmasked (fun i other => ?_) (fun i => ?_)
      (fun _ _ => rfl) rfl ?_ ⟨A, count ▸ accounted⟩, .inl ?_⟩
    · rw [dispatched.kont]
      exact (Function.update_of_ne other ..).trans (Function.update_of_ne other ..)
    · exact incarnation_chosen dispatched.chosen
    · rw [left]
      rw [← same] at means
      exact means.fits
    · rw [Traffic.mailbox, Traffic.mailbox, count]

theorem Consistent.dispatched (consistent : Consistent n x) (unmasked : x.user.masked = none)
    (dispatched : Dispatched x.kernel k') : Consistent n ⟨k', x.user⟩ := by
  refine consistent.settle unmasked (fun i _ => congrFun dispatched.kont i)
    (fun i => incarnation_chosen dispatched.chosen) (fun _ _ => rfl) rfl ?_ ?_
  · rw [dispatched.kont]
    exact consistent.places _
  · rw [dispatched.count]
    exact consistent.accounted

/-- Who is spawned has not called anything, and none of those who had the PCB before runs again. -/
theorem Consistent.spawned {i : Slot} {task : TaskInfo} (consistent : Consistent n x)
    (unmasked : x.user.masked = none) : Consistent n ⟨assignt task i x.kernel, x.user⟩ where
  later j m low := by
    have grown : incarnation j (.spawn i :: x.kernel.trace) < m := low
    have older : incarnation j x.kernel.trace ≤ incarnation j (.spawn i :: x.kernel.trace) :=
      List.count_le_count_cons
    exact consistent.later j m (Nat.lt_of_le_of_lt older grown)
  places j := by
    have kont : (assignt task i x.kernel).kont = Function.update x.kernel.kont i .user := rfl
    have trace : (assignt task i x.kernel).trace = .spawn i :: x.kernel.trace := rfl
    change n.Fits (x.user.process (j, incarnation j (assignt task i x.kernel).trace))
      ((assignt task i x.kernel).kont j)
    by_cases same : j = i
    · rw [kont, same, Function.update_self]
      exact fits_user
    · have fresh : Tina.Act.spawn i ≠ .spawn j := fun equal => same (Tina.Act.spawn.inj equal).symm
      rw [kont, Function.update_of_ne same, trace, incarnation, List.count_cons_of_ne fresh]
      exact consistent.places j
  alone p isMasked := by cases unmasked.symm.trans isMasked
  masking := consistent.masking
  accounted := consistent.accounted

theorem Consistent.kernel (consistent : Consistent n x) (ready : n.Ready x cause)
    (step : Tina.Step x.kernel cause k') : Consistent n ⟨k', x.settled cause k'⟩ ∧
      (Traffic.mailbox n ⟨k', x.settled cause k'⟩ = x.mailbox n ∨
        Step (x.mailbox n) (.step x.self) (Traffic.mailbox n ⟨k', x.settled cause k'⟩)) := by
  by_cases timer : cause = .timer
  · subst timer
    have kept : x.settled .timer k' = x.user := if_neg fun returned => returned.1 rfl
    obtain ⟨fuel, clk, result⟩ := step
    have idle := execute_idle result (by simp)
    simp only [Tina.execute, if_pos idle] at result
    have dispatched := scheduler_dispatched result
    rw [kept]
    refine ⟨consistent.dispatched ready dispatched, .inl ?_⟩
    rw [Traffic.mailbox, Traffic.mailbox, dispatched.count]
  have inside : cause = .resume → x.kernel.kont x.kernel.currentRunning ≠ .user := by
    rintro rfl
    obtain ⟨fuel, clk, result⟩ := step
    exact (resume_turn result).1
  have means := consistent.means ready timer inside
  by_cases spawning : ∃ task, cause = .call (.spawn task)
  · obtain ⟨task, rfl⟩ := spawning
    have kept : x.settled (.call (.spawn task)) k' = x.user := by
      rw [Traffic.settled, finish_idle means.idle, ite_self]
    rw [kept]
    obtain ⟨-, rfl | ⟨i, rfl⟩⟩ := spawn_step step
    · exact ⟨consistent, .inl rfl⟩
    · exact ⟨consistent.spawned (consistent.calm means), .inl rfl⟩
  · exact consistent.turn means timer (step_turn (fun task same => spawning ⟨task, same⟩) step)

theorem Consistent.step (consistent : Consistent n x) {fuel : Nat} {clk : Word}
    (result : x.execute n fuel clk deal = some y) :
    Consistent n y ∧ (y.mailbox n = x.mailbox n ∨
      ∃ event, (deal = .user event ∨ event = .step x.self) ∧
        Step (x.mailbox n) event (y.mailbox n)) := by
  cases deal with
  | user event =>
    simp only [Traffic.execute] at result
    split at result
    next ready =>
      obtain ⟨here, mine, calm⟩ := ready
      obtain ⟨t, moved, rest⟩ := Option.bind_eq_some_iff.mp result
      obtain rfl := Option.some.inj rest
      obtain ⟨consistent', above⟩ := consistent.user here mine calm moved
      exact ⟨consistent', .inr ⟨event, .inl rfl, above⟩⟩
    · cases result
  | kernel cause =>
    simp only [Traffic.execute] at result
    split at result
    next ready =>
      obtain ⟨k', done, rest⟩ := Option.bind_eq_some_iff.mp result
      obtain rfl := Option.some.inj rest
      obtain ⟨consistent', idle | above⟩ := consistent.kernel ready ⟨fuel, clk, done⟩
      · exact ⟨consistent', .inl idle⟩
      · exact ⟨consistent', .inr ⟨_, .inr rfl, above⟩⟩
    · cases result

/-! Where the links are. -/

section Places

variable {site : Site}

/-- Its own semaphores apart, what a mailbox shares no word with. -/
def Site.Suits (site : Site) (x : Traffic) (deal : Deal) : Prop :=
  ∀ l ∈ deal.mutexes x.kernel, l = .sem site.rsem ∨ l = .sem site.wsem ∨ site.Clear l

instance (site : Site) (x : Traffic) : DecidablePred (site.Suits x) := fun deal => by
  unfold Site.Suits
  infer_instance

theorem Site.Suits.apart (suits : site.Suits x deal) (locks : x.kernel.LocksIn site.Clear) :
    site.Apart x deal := by
  refine ⟨locks, fun l named => ?_⟩
  rcases suits l named with rfl | rfl | clear
  · exact site.own_clear .recv
  · exact site.own_clear .send
  · exact clear

/-- Links that do not lie in the mailbox do not come to lie there. -/
theorem Site.Apart.execute (apart : site.Apart x deal) {fuel : Nat} {clk : Word}
    (result : x.execute n fuel clk deal = some y) : y.kernel.LocksIn site.Clear := by
  cases deal with
  | user event =>
    simp only [Traffic.execute] at result
    split at result
    · obtain ⟨t, _, rest⟩ := Option.bind_eq_some_iff.mp result
      obtain rfl := Option.some.inj rest
      exact apart.1
    · cases result
  | kernel cause =>
    simp only [Traffic.execute] at result
    split at result
    · obtain ⟨k', done, rest⟩ := Option.bind_eq_some_iff.mp result
      obtain rfl := Option.some.inj rest
      exact step_locksIn apart.1 apart.2 ⟨fuel, clk, done⟩
    · cases result

theorem Site.Apart.step (apart : site.Apart x deal) (step : x.Step site deal y) :
    ∃ fuel clk, x.execute site.toNumbers fuel clk deal = some y := by
  obtain ⟨fuel, clk, z, result, rfl | ⟨shared, -⟩⟩ := step
  · exact ⟨fuel, clk, result⟩
  · exact absurd apart shared

end Places

/-! Whole runs. -/

section Runs

variable {site : Site} {k₀ : Kernel} {i refCount : Int} {name : List Byte} {m : Mailbox}

/-- The semaphores have been initialized, no process is inside the kernel for them, and the
mutexes that are held have their links elsewhere. -/
structure Installed (site : Site) (k : Kernel) : Prop where
  rsem : k.count site.rsem = 0
  wsem : k.count site.wsem = bufferSize
  calm : ∀ i, ¬site.Concerns (k.kont i).duty
  locks : k.LocksIn site.Clear

theorem counting_start (installed : Installed site k₀) :
    (start i name refCount m).counting site.toNumbers k₀.count = start i name refCount m := by
  simp only [System.counting, start, mboxCreate, oneInit, installed.rsem, installed.wsem]

theorem consistent_start (installed : Installed site k₀) :
    Consistent site.toNumbers ⟨k₀, start i name refCount m⟩ where
  later _ _ _ := rfl
  places j := Numbers.Means.fits (.inl ⟨rfl, installed.calm j⟩)
  alone p isMasked := by cases isMasked
  masking p isMasked := by cases isMasked
  accounted := by
    rw [Traffic.mailbox, counting_start installed]
    exact ⟨∅, accounted_start⟩

/-- Restrictions are on who calls what. -/
def Deal.Calls (calls : Event Who → Prop) : Deal → Prop
  | .user event => calls event
  | .kernel _ => True

instance {calls : Event Who → Prop} [DecidablePred calls] : DecidablePred (Deal.Calls calls) :=
  fun deal => by cases deal <;> unfold Deal.Calls <;> infer_instance

/-- And on which mutexes are used. -/
def Site.Lets (site : Site) (calls : Event Who → Prop) (x : Traffic) (deal : Deal) : Prop :=
  deal.Calls calls ∧ site.Suits x deal

instance {calls : Event Who → Prop} [DecidablePred calls] {x : Traffic} :
    DecidablePred (site.Lets calls x) := fun deal => by
  unfold Site.Lets
  infer_instance

theorem Installed.simulates {calls : Event Who → Prop} (goesOn : ∀ p, calls (.step p))
    (installed : Installed site k₀) (reach : Reachable (Traffic.Step site) (site.Lets calls)
      ⟨k₀, start i name refCount m⟩ x) :
    (Consistent site.toNumbers x ∧ x.kernel.LocksIn site.Clear) ∧
      Reachable Step (fun _ event => calls event) (start i name refCount m)
        (x.mailbox site.toNumbers) := by
  have runs : (Consistent site.toNumbers x ∧ x.kernel.LocksIn site.Clear) ∧
      Reachable Step (fun _ event => calls event)
        (Traffic.mailbox site.toNumbers ⟨k₀, start i name refCount m⟩)
        (x.mailbox site.toNumbers) := by
    refine reach.simulated (fun x => Consistent site.toNumbers x ∧ x.kernel.LocksIn site.Clear)
      (Traffic.mailbox site.toNumbers) ⟨consistent_start installed, installed.locks⟩
      fun x deal y ⟨consistent, locks⟩ ok step => ?_
    have apart := ok.2.apart locks
    obtain ⟨fuel, clk, result⟩ := apart.step step
    obtain ⟨consistent', idle | ⟨event, cause, above⟩⟩ := consistent.step result
    · exact ⟨⟨consistent', apart.execute result⟩, .inl idle⟩
    · refine ⟨⟨consistent', apart.execute result⟩, .inr ⟨event, ?_, above⟩⟩
      rcases cause with rfl | rfl
      · exact ok.1
      · exact goesOn _
  rwa [Traffic.mailbox, counting_start installed] at runs

/-- Whatever else the kernel does meanwhile, with timer interrupts, processes that are spawned and
killed, and calls that block, a run of the processes that use a mailbox is one in which each
operation on its semaphores is a single step, and no semaphore counts further than the slots. -/
theorem traffic_refines {calls : Event Who → Prop} (goesOn : ∀ p, calls (.step p))
    (installed : Installed site k₀) (reach : Reachable (Traffic.Step site) (site.Lets calls)
      ⟨k₀, start i name refCount m⟩ x) :
    Reachable Step (fun _ event => calls event) (start i name refCount m)
        (x.mailbox site.toNumbers) ∧
      ∀ op, 0 ≤ x.kernel.count (site.sem op) ∧ x.kernel.count (site.sem op) ≤ bufferSize := by
  obtain ⟨⟨consistent, _⟩, runs⟩ := installed.simulates goesOn reach
  exact ⟨runs, consistent.bounded⟩

/-- A concrete run. -/
theorem traffic_reachable {calls : Event Who → Prop} [DecidablePred calls] {fuel : Nat}
    {clk : Word} {first : Traffic} (deals : List Deal)
    (run : runChecked (Traffic.execute site.toNumbers fuel clk) (site.Lets calls) deals first =
      some x) :
    Reachable (Traffic.Step site) (site.Lets calls) first x := by
  have reach := runChecked_reachable deals .start run
  refine (reach.simulated (fun _ => True) id trivial fun s deal t _ ok step => ?_).2
  exact ⟨trivial, .inr ⟨deal, ok, fuel, clk, t, step, .inl rfl⟩⟩

end Runs

/-- The shell receives, and the process that it has spawned sends. -/
def parties : Op → Who
  | .send => (1, 1)
  | .recv => (0, 1)

/-- Two semaphores a mailbox, in an array of mailboxes. -/
def mboxsAt (s : Nat) : Nat :=
  0x1000 + s / 2 * sizeofMailbox + if s % 2 = 0 then offRsem else offWsem

/-- `mboxs[3]`. -/
def lastBox : Site where
  rsem := 6
  wsem := 7
  apart := by decide
  places := ⟨⟨0x10000, 0x8000⟩, (0x20000 + ·), mboxsAt, (0x30000 + ·), (0x40000 + ·), (0x50000 + ·)⟩
  box := 0x1000 + 3 * sizeofMailbox
  rsemAt := by decide
  wsemAt := by decide

/-- The links of the mutexes of `mboxs[0]` lie there, those of `mboxs[1]` do not. -/
example : ¬lastBox.Clear (.sem 0) ∧ ¬lastBox.Clear (.sem 1) ∧ lastBox.Clear (.sem 2) := by decide

def mailSystem : Kernel :=
  doSemaphoreInit 7 32 (doSemaphoreInit 6 0 (spawn someTask (initPcb someTask)))

theorem mailSystem_installed : Installed lastBox mailSystem where
  rsem := rfl
  wsem := rfl
  calm i := by
    have idle : ∀ i, (mailSystem.kont i).duty = .nothing := by decide
    rw [idle i]
    exact id
  locks := doSemaphoreInit_locksIn (doSemaphoreInit_locksIn (spawn_keeps _ initPcb_locksIn))

/-- The receiver waits in the kernel until the sender has stored a byte. Before that, the sender
uses a semaphore of another mailbox. -/
def oneWaits : List Deal :=
  let receiver := List.replicate 3 (Deal.user (.step (0, 1)))
  let sender := List.replicate 3 (Deal.user (.step (1, 1)))
  .user (.mboxRecv (0, 1) (fun _ => 0) 1) :: receiver ++ .kernel (.call (.down 6)) ::
    .kernel (.call (.up 2)) :: .user (.mboxSend (1, 1) (fun _ => 0x41) 1) :: sender ++
    .kernel (.call (.down 7)) :: sender ++ .kernel (.call (.up 6)) :: .kernel .timer ::
    .kernel .resume :: receiver ++ [.kernel (.call (.up 7))]

instance {who : Op → Who} {s : System Who} : DecidablePred (Only who s) := fun event => by
  cases event <;> unfold Only <;> infer_instance

theorem oneWaits_reachable : ∃ x : Traffic, fetched x.user.history = [0x41] ∧
    Reachable (Traffic.Step lastBox) (lastBox.Lets (Only parties (start 3 [0x61] 2 zeros)))
      ⟨mailSystem, start 3 [0x61] 2 zeros⟩ x := by
  have run : (runChecked (Traffic.execute lastBox.toNumbers 40 300)
      (lastBox.Lets (Only parties (start 3 [0x61] 2 zeros))) oneWaits
        ⟨mailSystem, start 3 [0x61] 2 zeros⟩).any
          fun x => decide (fetched x.user.history = [0x41]) := by decide +kernel
  obtain ⟨x, run, byte⟩ := (Option.any_eq_true _ _).mp run
  exact ⟨x, of_decide_eq_true byte, traffic_reachable oneWaits run⟩

theorem traffic_refines_waits : ∃ x : Traffic,
    fetched (x.mailbox lastBox.toNumbers).history = [0x41] ∧
      Reachable Step (fun _ event => Only parties (start 3 [0x61] 2 zeros) event)
        (start 3 [0x61] 2 zeros) (x.mailbox lastBox.toNumbers) := by
  obtain ⟨x, byte, reach⟩ := oneWaits_reachable
  exact ⟨x, byte, (traffic_refines (fun _ => trivial) mailSystem_installed reach).1⟩

/-- With one sender and one receiver a mailbox is a queue of at most 32 bytes on the kernel too. -/
theorem traffic_fifo {site : Site} {k₀ : Kernel} {i refCount : Int} {name : List Byte} {m : Mailbox}
    {who : Op → Who} (distinct : who .send ≠ who .recv) (installed : Installed site k₀)
    (reach : Reachable (Traffic.Step site) (site.Lets (Only who (start i name refCount m)))
      ⟨k₀, start i name refCount m⟩ x) : Fifo x.user := by
  obtain ⟨-, runs⟩ := installed.simulates (fun _ => trivial) reach
  have flowing : Flowing who (x.mailbox site.toNumbers) := by
    refine runs.invariant (Flowing who) flowing_start fun s event t flowing only step => ?_
    exact flowing.step distinct only step
  have fifo := flowing.fifo
  exact ⟨fifo.order, fifo.bounded, fifo.inside, fifo.kept⟩

theorem traffic_fifo_waits : ∃ x : Traffic, fetched x.user.history = [0x41] ∧ Fifo x.user := by
  obtain ⟨x, byte, reach⟩ := oneWaits_reachable
  exact ⟨x, byte, traffic_fifo (by decide) mailSystem_installed reach⟩

end Tina.Mbox
