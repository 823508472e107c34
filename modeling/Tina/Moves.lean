import Tina.Machine

/-! Where the processes are, after each function of the kernel: only `scheduler` gives the
processor to another one, as the last thing that is done, and nobody but the one who had it
then has to continue elsewhere. The count of a semaphore changes when a process has done what it
called for, and not before. -/
namespace Tina

open LinkedQueue

variable {k k' m : Kernel} {i : Slot} {q : QueueId} {l : Mutex} {s b fuel : Nat} {clk : Word}
  {after : After} {event : Event}

/-- What touches a saved context. -/
def Act.moves : Act → Bool
  | .spawn _ | .dispatch _ => true
  | _ => false

/-- Any process, and the mutexes in `P`. -/
def OnLocks (P : Mutex → Prop) : Item → Prop
  | .pcb _ => True
  | .lock l => P l

/-- No mutex is linked anew. -/
def KeepsLocks (before after : Links Item QueueId) : Prop :=
  ∀ P : Mutex → Prop, before.Within (OnLocks P) → after.Within (OnLocks P)

theorem keeps_push {h : Links Item QueueId} : KeepsLocks h (queuePush q (.pcb i) h) :=
  fun _ within => queuePush_within within trivial

theorem keeps_dequeue {h links : Links Item QueueId} {x : Option Item}
    (taken : queueDequeue q h = (x, links)) : KeepsLocks h links := by
  intro P within
  have rest := (queueDequeue_within (q := q) within).1
  rwa [taken] at rest

theorem keeps_remove {h : Links Item QueueId} {pcb x : Item} :
    KeepsLocks h (queueRemove pcb q x h).2 :=
  fun _ within => queueRemove_within within

/-- `kill` moves the process from the queue it is blocked on to the ready queue. -/
theorem keeps_strike {h : Links Item QueueId} {pcb : Item} {chan : QueueId} :
    KeepsLocks h (queuePush q (.pcb i) (queueRemove pcb chan (.pcb i) h).2) :=
  fun P within => keeps_push P (keeps_remove P within)

/-! The functions of the scheduler make few kinds of edits, and a relation that these respect
holds between what they take and what they return. -/

structure Tolerant (R : Kernel → Kernel → Prop) : Prop where
  refl (k : Kernel) : R k k
  trans {k m k' : Kernel} : R k m → R m k' → R k k'
  links (k : Kernel) (links : Links Item QueueId) (keeps : KeepsLocks k.links links) :
    R k { k with links := links }
  lock (k : Kernel) (lock : Mutex → LockStatus) : R k { k with lock := lock }
  pcb (k : Kernel) (i : Slot) (v : Pcb) (same : v.kernelStackTop = (k.pcb i).kernelStackTop) :
    R k (k.setPcb i v)
  record (k : Kernel) (a : Act) (plain : a.moves = false) : R k (k.record a)

namespace Tolerant

variable {R : Kernel → Kernel → Prop} (tolerant : Tolerant R)

include tolerant

theorem andPcb {v : Pcb} (before : R k m) (same : v.kernelStackTop = (m.pcb i).kernelStackTop) :
    R k (m.setPcb i v) :=
  tolerant.trans before (tolerant.pcb m i v same)

theorem andPush (before : R k m) : R k (m.push q (.pcb i)) :=
  tolerant.trans before (tolerant.links m _ keeps_push)

theorem andRecord {a : Act} (before : R k m) (plain : a.moves = false) : R k (m.record a) :=
  tolerant.trans before (tolerant.record m a plain)

theorem unblockHead (result : unblockHead q k = some k') : R k k' := by
  rw [Tina.unblockHead] at result
  split at result
  next p links taken =>
    obtain rfl := Option.some.inj result
    refine tolerant.andRecord (tolerant.andPush (tolerant.andPcb ?_ rfl)) rfl
    exact tolerant.links k links (keeps_dequeue taken)
  · contradiction

theorem doUnblockOne (result : doUnblockOne q k = some k') : R k k' := by
  rw [Tina.doUnblockOne] at result
  split at result
  · exact Option.some.inj result ▸ tolerant.refl k
  · exact tolerant.unblockHead result

theorem doUnblockAll (result : doUnblockAll fuel q k = some k') : R k k' := by
  induction fuel generalizing k with
  | zero => contradiction
  | succ fuel ih =>
    rw [Tina.doUnblockAll] at result
    split at result
    · exact Option.some.inj result ▸ tolerant.refl k
    · obtain ⟨m, first, rest⟩ := Option.bind_eq_some_iff.mp result
      exact tolerant.trans (tolerant.unblockHead first) (ih rest)

theorem doMutexLockRelease (result : doMutexLockRelease fuel l k = some k') : R k k' := by
  obtain ⟨has, _, rest⟩ := Option.bind_eq_some_iff.mp result
  have keeps : KeepsLocks k.links (if has then
      (queueRemove (.pcb 0) (.holding k.currentRunning) (.lock l) k.links).2 else k.links) := by
    split
    · exact keeps_remove
    · exact fun _ within => within
  refine tolerant.trans (tolerant.andRecord ?_ rfl) (tolerant.doUnblockAll rest)
  exact tolerant.trans (tolerant.links k _ keeps) (tolerant.lock _ _)

theorem drainHolding (result : drainHolding fuel k = some k') : R k k' := by
  induction fuel generalizing k with
  | zero => contradiction
  | succ fuel ih =>
    simp only [Tina.drainHolding] at result
    split at result
    · exact Option.some.inj result ▸ tolerant.refl k
    · split at result
      next l links taken =>
        obtain ⟨m, first, rest⟩ := Option.bind_eq_some_iff.mp result
        refine tolerant.trans (tolerant.links k links (keeps_dequeue taken)) ?_
        exact tolerant.trans (tolerant.doMutexLockRelease first) (ih rest)
      · contradiction

theorem reap (result : reap fuel k = some k') : R k k' := by
  obtain ⟨m, first, result⟩ := Option.bind_eq_some_iff.mp result
  obtain ⟨n, second, result⟩ := Option.bind_eq_some_iff.mp result
  obtain rfl := Option.some.inj result
  refine tolerant.andRecord ?_ rfl
  exact tolerant.trans (tolerant.doUnblockAll first) (tolerant.drainHolding second)

theorem checkSleeping : R k (checkSleeping k) := by
  rw [Tina.checkSleeping]
  split
  · exact tolerant.pcb k _ _ rfl
  · exact tolerant.refl k

theorem kill (id : Int) : R k (kill id k) := by
  rw [Tina.kill]
  split
  · exact tolerant.refl k
  next i found =>
    have condemned : R k ((k.setPcb i { k.pcb i with status := .exited }).record (.kill i)) :=
      tolerant.andRecord (tolerant.pcb k i _ rfl) rfl
    dsimp only
    split
    · exact condemned
    · exact tolerant.trans condemned (tolerant.links _ _ keeps_strike)

theorem leave {request : Request} (result : leave fuel request k = some k') : R k k' := by
  have own : ∀ v : Pcb, v.kernelStackTop = k.current.kernelStackTop →
      R k (k.setPcb k.currentRunning v) := fun v same => tolerant.pcb k _ v same
  cases request with
  | exited => exact tolerant.trans (own _ (by rfl)) (tolerant.reap result)
  | blocked queue =>
    obtain rfl := Option.some.inj result
    refine tolerant.andRecord (tolerant.andPush (own _ ?_)) rfl
    rfl
  | _ =>
    obtain rfl := Option.some.inj result
    refine tolerant.andPush (own _ ?_)
    rfl

/-- The loop only looks for the next one. -/
theorem select (running : ∀ (k : Kernel) (p : Slot), R k { k with currentRunning := p })
    (result : select fuel k = some k') : R k k' := by
  induction fuel generalizing k with
  | zero => contradiction
  | succ fuel ih =>
    simp only [Tina.select] at result
    split at result
    next p links taken =>
      have chosen : R k (Tina.checkSleeping { k with links := links, currentRunning := p }) := by
        refine tolerant.trans (tolerant.links k links (keeps_dequeue taken))
          (tolerant.trans ?_ tolerant.checkSleeping)
        exact running _ p
      have isRunning : (Tina.checkSleeping { k with
          links := links, currentRunning := p }).currentRunning = p := by
        rw [Tina.checkSleeping]
        split <;> rfl
      generalize Tina.checkSleeping { k with links := links, currentRunning := p } = m
        at chosen isRunning result
      split at result
      · exact tolerant.trans (tolerant.andPush chosen) (ih result)
      · obtain rfl := Option.some.inj result
        refine tolerant.andPcb chosen ?_
        rw [Kernel.current, isRunning]
      · obtain ⟨n, first, rest⟩ := Option.bind_eq_some_iff.mp result
        exact tolerant.trans (tolerant.trans chosen (tolerant.reap first)) (ih rest)
      · exact Option.some.inj result ▸ chosen
      · exact tolerant.trans chosen (ih result)
      · exact tolerant.trans chosen (ih result)
    · contradiction

end Tolerant

/-! What is kept. -/

/-- Every process continues where it was to, on the stack that it had. -/
structure InPlace (k m : Kernel) : Prop where
  kont : m.kont = k.kont
  count : m.count = k.count
  tops : ∀ p, (m.pcb p).kernelStackTop = (k.pcb p).kernelStackTop
  quiet : ∃ acts, m.trace = acts ++ k.trace ∧ ∀ a ∈ acts, a.moves = false

/-- And the same process has the processor. -/
structure Unmoved (k m : Kernel) : Prop extends InPlace k m where
  running : m.currentRunning = k.currentRunning

/-- `scheduler` has chosen. -/
structure Dispatched (k k' : Kernel) : Prop where
  kont : k'.kont = k.kont
  count : k'.count = k.count
  tops : ∀ p, (k'.pcb p).kernelStackTop = (k.pcb p).kernelStackTop
  chosen : ∃ acts, k'.trace = .dispatch k'.currentRunning :: (acts ++ k.trace) ∧
    ∀ a ∈ acts, a.moves = false

theorem InPlace.trans (first : InPlace k m) (second : InPlace m k') : InPlace k k' where
  kont := second.kont.trans first.kont
  count := second.count.trans first.count
  tops p := (second.tops p).trans (first.tops p)
  quiet := by
    obtain ⟨before, old, plain⟩ := first.quiet
    obtain ⟨after, new, plain'⟩ := second.quiet
    refine ⟨after ++ before, by rw [new, old, List.append_assoc], fun a member => ?_⟩
    exact (List.mem_append.mp member).elim (plain' a) (plain a)

/-- The other fields of the kernel do not matter. -/
theorem InPlace.data (kont : m.kont = k.kont) (count : m.count = k.count) (pcb : m.pcb = k.pcb)
    (trace : m.trace = k.trace) : InPlace k m :=
  ⟨kont, count, fun p => by rw [pcb], [], trace, nofun⟩

theorem inPlace_tolerant : Tolerant InPlace where
  refl k := .data rfl rfl rfl rfl
  trans := InPlace.trans
  links k links _ := .data rfl rfl rfl rfl
  lock k lock := .data rfl rfl rfl rfl
  pcb k i v same := by
    refine ⟨rfl, rfl, fun p => ?_, [], rfl, nofun⟩
    by_cases here : p = i
    · subst here
      simp [Kernel.setPcb, same]
    · simp [Kernel.setPcb, here]
  record k a plain := by
    refine ⟨rfl, rfl, fun _ => rfl, [a], rfl, fun b only => ?_⟩
    exact List.mem_singleton.mp only ▸ plain

theorem unmoved_tolerant : Tolerant Unmoved where
  refl k := ⟨inPlace_tolerant.refl k, rfl⟩
  trans first second :=
    ⟨first.toInPlace.trans second.toInPlace, second.running.trans first.running⟩
  links k links keeps := ⟨inPlace_tolerant.links k links keeps, rfl⟩
  lock k lock := ⟨inPlace_tolerant.lock k lock, rfl⟩
  pcb k i v same := ⟨inPlace_tolerant.pcb k i v same, rfl⟩
  record k a plain := ⟨inPlace_tolerant.record k a plain, rfl⟩

theorem Unmoved.dispatched (first : Unmoved k m) (second : Dispatched m k') : Dispatched k k' where
  kont := second.kont.trans first.kont
  count := second.count.trans first.count
  tops p := (second.tops p).trans (first.tops p)
  chosen := by
    obtain ⟨before, old, plain⟩ := first.quiet
    obtain ⟨after, new, plain'⟩ := second.chosen
    refine ⟨after ++ before, by rw [new, old, List.append_assoc], fun a member => ?_⟩
    exact (List.mem_append.mp member).elim (plain' a) (plain a)

theorem scheduler_dispatched {request : Request}
    (result : scheduler fuel clk request k = some k') : Dispatched k k' := by
  obtain ⟨m, first, result⟩ := Option.bind_eq_some_iff.mp result
  obtain ⟨n, second, result⟩ := Option.bind_eq_some_iff.mp result
  obtain rfl := Option.some.inj result
  have left : InPlace k (saveCursor m) :=
    (inPlace_tolerant.leave first).trans (inPlace_tolerant.pcb m _ _ rfl)
  have chosen := left.trans (inPlace_tolerant.select (fun _ _ => .data rfl rfl rfl rfl) second)
  obtain ⟨acts, trace, plain⟩ := chosen.quiet
  refine ⟨chosen.kont, chosen.count, fun p => ?_, acts, ?_, plain⟩
  · rw [← chosen.tops p]
    exact (inPlace_tolerant.pcb n n.currentRunning { n.current with status := .running } rfl).tops p
  · rw [← trace]
    rfl

/-! What a call does to the semaphores. -/

/-- What a process still has to do to the count of a semaphore before its call returns. -/
inductive Duty where
  | nothing
  | up (s : Nat)
  | down (s : Nat)
  deriving DecidableEq, Repr

def Duty.perform (count : Nat → Int) : Duty → Nat → Int
  | .nothing => count
  | .up s => Function.update count s (int32 (count s + 1))
  | .down s => Function.update count s (int32 (count s - 1))

def Duty.Enabled (count : Nat → Int) : Duty → Prop
  | .down s => 0 < count s
  | _ => True

def After.duty : After → Duty
  | .up s => .up s
  | .down s => .down s
  | _ => .nothing

def Kont.duty : Kont → Duty
  | .acquire _ after => after.duty
  | .down s => .down s
  | _ => .nothing

def Call.duty : Call → Duty
  | .up s => .up s
  | .down s => .down s
  | _ => .nothing

/-- The duty of the process that has the processor. -/
def Event.duty (k : Kernel) : Event → Duty
  | .call c => c.duty
  | .timer => .nothing
  | .resume => (k.kont k.currentRunning).duty

/-- The process goes on and has done its duty, or somebody has been chosen and it is still to do. -/
inductive Turn (d : Duty) (k k' : Kernel) : Prop where
  | stays (enabled : d.Enabled k.count) (unmoved : Unmoved { k with count := d.perform k.count } k')
  | switches (kont : Kont) (same : kont.duty = d) (dispatched :
      Dispatched { k with kont := Function.update k.kont k.currentRunning kont } k')

variable {d : Duty}

theorem Unmoved.turn (first : Unmoved k m) (turn : Turn d m k') : Turn d k k' := by
  cases turn with
  | stays enabled unmoved =>
    refine .stays (first.count ▸ enabled) (unmoved_tolerant.trans ?_ unmoved)
    exact ⟨⟨first.kont, by simp only [first.count], first.tops, first.quiet⟩, first.running⟩
  | switches kont same dispatched =>
    refine .switches kont same (Unmoved.dispatched ?_ dispatched)
    refine ⟨⟨?_, first.count, first.tops, first.quiet⟩, first.running⟩
    simp only [first.kont, first.running]

theorem Turn.idle (unmoved : Unmoved k k') : Turn .nothing k k' := .stays trivial unmoved

theorem doBlock_turn {kont : Kont} (result : doBlock fuel clk q kont k = some k') :
    Turn kont.duty k k' :=
  .switches kont rfl (scheduler_dispatched result)

theorem semaphoreUp_turn (result : semaphoreUp fuel s k = some k') : Turn (.up s) k k' := by
  obtain ⟨m, first, rest⟩ := Option.bind_eq_some_iff.mp result
  refine .stays trivial (unmoved_tolerant.trans ?_
    (unmoved_tolerant.trans (unmoved_tolerant.doUnblockOne first)
      (unmoved_tolerant.doMutexLockRelease rest)))
  exact unmoved_tolerant.record _ _ rfl

theorem semaphoreDown_turn (result : semaphoreDown fuel clk s k = some k') :
    Turn (.down s) k k' := by
  rw [semaphoreDown] at result
  split at result
  · obtain ⟨m, first, rest⟩ := Option.bind_eq_some_iff.mp result
    exact (unmoved_tolerant.doMutexLockRelease first).turn (doBlock_turn rest)
  next positive =>
    refine .stays (Int.not_le.mp positive) (unmoved_tolerant.trans ?_
      (unmoved_tolerant.doMutexLockRelease result))
    exact unmoved_tolerant.record _ _ rfl

/-- Barriers have no part in it. -/
theorem rebarrier_unmoved (barrier : Nat → Barrier) : Unmoved k { k with barrier := barrier } :=
  ⟨.data rfl rfl rfl rfl, rfl⟩

theorem relink_unmoved (links : Links Item QueueId) : Unmoved k { k with links := links } :=
  ⟨.data rfl rfl rfl rfl, rfl⟩

theorem barrierLeave_unmoved (result : barrierLeave fuel b k = some k') : Unmoved k k' := by
  obtain ⟨m, first, rest⟩ := Option.bind_eq_some_iff.mp result
  obtain rfl := Option.some.inj rest
  exact unmoved_tolerant.andRecord (unmoved_tolerant.doMutexLockRelease first) rfl

theorem barrierArrive_turn (result : barrierArrive fuel clk b k = some k') :
    Turn .nothing k k' := by
  simp only [barrierArrive] at result
  split at result
  · obtain ⟨m, first, rest⟩ := Option.bind_eq_some_iff.mp result
    refine .idle (unmoved_tolerant.trans (unmoved_tolerant.andRecord (rebarrier_unmoved _) rfl)
      (unmoved_tolerant.trans (unmoved_tolerant.doUnblockAll first)
        (unmoved_tolerant.trans (rebarrier_unmoved _) (barrierLeave_unmoved rest))))
  · obtain ⟨m, first, rest⟩ := Option.bind_eq_some_iff.mp result
    refine Unmoved.turn ?_ ((unmoved_tolerant.doMutexLockRelease first).turn (doBlock_turn rest))
    exact unmoved_tolerant.andRecord (rebarrier_unmoved _) rfl

theorem afterAcquire_turn (result : afterAcquire fuel clk after k = some k') :
    Turn after.duty k k' := by
  cases after with
  | user => exact Option.some.inj result ▸ .idle (unmoved_tolerant.refl k)
  | condition l c => exact Option.some.inj result ▸ .idle (unmoved_tolerant.record k _ rfl)
  | up s => exact semaphoreUp_turn result
  | down s => exact semaphoreDown_turn result
  | arrive b => exact barrierArrive_turn result
  | leave b => exact .idle (barrierLeave_unmoved result)

theorem doMutexLockAcquire_turn (result : doMutexLockAcquire fuel clk l after k = some k') :
    Turn after.duty k k' := by
  rw [doMutexLockAcquire] at result
  split at result
  · exact doBlock_turn result
  · refine Unmoved.turn (unmoved_tolerant.andRecord ?_ rfl) (afterAcquire_turn result)
    exact unmoved_tolerant.trans (relink_unmoved _) (unmoved_tolerant.lock _ _)

/-- The running process leaves without a call, or in one that does nothing after it. -/
theorem scheduler_turn {request : Request} (idle : k.kont k.currentRunning = .user)
    (result : scheduler fuel clk request k = some k') : Turn .nothing k k' := by
  refine .switches .user rfl ?_
  rw [← idle, Function.update_eq_self]
  exact scheduler_dispatched result

theorem systemCall_turn {call : Call} (idle : k.kont k.currentRunning = .user)
    (other : ∀ task, call ≠ .spawn task) (result : systemCall fuel clk call k = some k') :
    Turn call.duty k k' := by
  cases call with
  | sleep time => exact scheduler_turn idle result
  | spawn task => exact absurd rfl (other task)
  | kill id => exact Option.some.inj result ▸ .idle (unmoved_tolerant.kill id)
  | wait id =>
    simp only [systemCall, wait] at result
    split at result
    · exact Option.some.inj result ▸ .idle (unmoved_tolerant.refl k)
    · split at result
      · exact Option.some.inj result ▸ .idle (unmoved_tolerant.refl k)
      · exact doBlock_turn result
  | exit => exact scheduler_turn idle result
  | block q => exact doBlock_turn result
  | unblockOne q => exact .idle (unmoved_tolerant.doUnblockOne result)
  | unblockAll q => exact .idle (unmoved_tolerant.doUnblockAll result)
  | acquire l => exact doMutexLockAcquire_turn result
  | release l => exact .idle (unmoved_tolerant.doMutexLockRelease result)
  | condWait l c =>
    obtain ⟨m, first, rest⟩ := Option.bind_eq_some_iff.mp result
    refine Unmoved.turn ?_ ((unmoved_tolerant.doMutexLockRelease first).turn (doBlock_turn rest))
    exact unmoved_tolerant.record k _ rfl
  | signal c => exact .idle (unmoved_tolerant.doUnblockOne result)
  | broadcast c => exact .idle (unmoved_tolerant.doUnblockAll result)
  | up s => exact doMutexLockAcquire_turn result
  | down s => exact doMutexLockAcquire_turn result
  | barrierWait b => exact doMutexLockAcquire_turn result

/-- Who comes back into the kernel finishes his call there. -/
theorem resume_turn (result : resume fuel clk k = some k') : k.kont k.currentRunning ≠ .user ∧
    Turn (k.kont k.currentRunning).duty
      { k with kont := Function.update k.kont k.currentRunning .user } k' := by
  simp only [resume] at result
  split at result
  · contradiction
  all_goals
    rename_i inside
    rw [inside]
    exact ⟨nofun, doMutexLockAcquire_turn result⟩

theorem execute_idle (result : execute fuel clk event k = some k') (ordinary : event ≠ .resume) :
    k.kont k.currentRunning = .user := by
  cases event with
  | resume => exact absurd rfl ordinary
  | call | timer =>
    simp only [execute] at result
    split at result
    · assumption
    · contradiction

/-- What any event but a `spawn` comes to. -/
theorem step_turn (other : ∀ task, event ≠ .call (.spawn task)) (step : Step k event k') :
    Turn (event.duty k) { k with kont := Function.update k.kont k.currentRunning .user } k' := by
  obtain ⟨fuel, clk, result⟩ := step
  cases event with
  | resume => exact (resume_turn result).2
  | call c =>
    have idle := execute_idle result nofun
    simp only [execute, if_pos idle] at result
    rw [← idle, Function.update_eq_self]
    exact systemCall_turn idle (fun task same => other task (by rw [same])) result
  | timer =>
    have idle := execute_idle result nofun
    simp only [execute, if_pos idle] at result
    rw [← idle, Function.update_eq_self]
    exact scheduler_turn idle result

/-- A `spawn` fills a free PCB, if there is one. -/
theorem spawn_step {task : TaskInfo} (step : Step k (.call (.spawn task)) k') :
    k.kont k.currentRunning = .user ∧ (k' = k ∨ ∃ i, k' = assignt task i k) := by
  obtain ⟨fuel, clk, result⟩ := step
  have idle := execute_idle result nofun
  simp only [execute, if_pos idle] at result
  refine ⟨idle, ?_⟩
  obtain rfl := Option.some.inj result
  rw [spawn]
  split
  next i _ => exact .inr ⟨i, rfl⟩
  · exact .inl rfl

theorem Turn.grows (turn : Turn d k k') : ∃ acts, k'.trace = acts ++ k.trace := by
  cases turn with
  | stays _ unmoved =>
    obtain ⟨acts, grown, -⟩ := unmoved.quiet
    exact ⟨acts, grown⟩
  | switches _ _ dispatched =>
    obtain ⟨acts, grown, -⟩ := dispatched.chosen
    exact ⟨_ :: acts, grown⟩

/-- History is never rewritten. -/
theorem step_grows (step : Step k event k') : ∃ acts, k'.trace = acts ++ k.trace := by
  by_cases spawning : ∃ task, event = .call (.spawn task)
  · obtain ⟨task, rfl⟩ := spawning
    obtain ⟨-, rfl | ⟨i, rfl⟩⟩ := spawn_step step
    · exact ⟨[], rfl⟩
    · exact ⟨[_], rfl⟩
  · exact (step_turn (fun task same => spawning ⟨task, same⟩) step).grows

end Tina
