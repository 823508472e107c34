import Mathlib.Data.Fintype.Card
import Tina.Soundness

/-! When `scheduler` finds a process. It has no idle task, and its loop waits for a clock
that only moves after it. -/
namespace Tina

open LinkedQueue Transition

variable {k k' : Kernel} {L : Lists} {off : Set Slot} {p i : Slot} {q : QueueId} {l : Mutex}
  {rest pre : List Item} {fuel : Nat} {clk : Word} {request : Request} {shell : TaskInfo}

/-- Whoever waits there goes on when `p` exits. -/
def LetsGo (k : Kernel) (p : Slot) : QueueId → Prop
  | .waiting i => i = p
  | .block l => holds k.trace p l = true
  | _ => False

/-- Somebody can go on once the running process has left. -/
def CanSwitch (k : Kernel) (request : Request) : Prop :=
  (∃ p, p ≠ k.currentRunning ∧ Selectable k p) ∨
    match request with
    | .ready | .other => True
    | .sleeping time => getTimer k + time ≤ getTimer k
    | .blocked _ => False
    | .exited => ∃ p q, (k.pcb p).status = .blocked ∧ (k.pcb p).chan = some q ∧
        LetsGo k k.currentRunning q

/-- A process blocks on a queue that processes wait on, and for live processes other than
itself. -/
def Suits (k : Kernel) : Request → Prop
  | .blocked q => q.Parking ∧ ∀ i, q = .waiting i → i ≠ k.currentRunning ∧ (k.pcb i).status ≠ .exited
  | _ => True

/-- A queue of processes is no longer than the process table. -/
theorem Coherent.queue_small (c : Coherent k L off) (parking : q = .ready ∨ q.Parking) :
    (L q).length ≤ numMaxTask := by
  have nodup := c.spells.nodup q
  have all : ∀ x ∈ L q, ∃ p, x = .pcb p := by
    intro x member
    cases x with
    | pcb p => exact ⟨p, rfl⟩
    | lock l => exact absurd member (c.no_lock parking)
  have mapped : L q = (slots (L q)).map .pcb := by
    generalize L q = items at all
    induction items with
    | nil => rfl
    | cons x items ih =>
      obtain ⟨p, rfl⟩ := all x (by simp)
      rw [slots_cons_pcb, List.map_cons, ← ih fun y member => all y (by simp [member])]
  rw [mapped] at nodup
  rw [mapped, List.length_map]
  have few := nodup.of_map.length_le_card
  rwa [Fintype.card_fin] at few

theorem doUnblockAll_halts (fuel : Nat) (c : Coherent k L off) (parking : q.Parking)
    (enough : (L q).length < fuel) : ∃ k', doUnblockAll fuel q k = some k' := by
  induction fuel generalizing k L with
  | zero => exact absurd enough (Nat.not_lt_zero _)
  | succ fuel ih =>
    rw [doUnblockAll, queueIsEmpty_spells c.spells]
    cases front : L q with
    | nil => exact ⟨k, by simp⟩
    | cons x rest =>
      obtain ⟨p, rfl⟩ := c.front_process (.inr parking) front
      obtain ⟨links, woken, next⟩ := unblockHead_spec c parking front
      have notReady := parking_ne_ready parking
      rw [front, List.length_cons] at enough
      obtain ⟨k', result⟩ := ih next (by simp [notReady]; omega)
      refine ⟨k', ?_⟩
      simp only [List.isEmpty_cons, Bool.false_eq_true, if_false, woken, Option.bind_eq_bind,
        Option.bind_some]
      exact result

/-- Draining ends: each round takes one mutex off. -/
theorem drainHolding_halts (fuel : Nat) (c : Coherent k L off)
    (enough : (L (.holding k.currentRunning)).length + numMaxTask + 1 < fuel) :
    ∃ k', drainHolding fuel k = some k' := by
  induction fuel generalizing k L with
  | zero => exact absurd enough (Nat.not_lt_zero _)
  | succ fuel ih =>
    rw [drainHolding, queueIsEmpty_spells c.spells]
    cases front : L (.holding k.currentRunning) with
    | nil => exact ⟨k, by simp⟩
    | cons x rest =>
      obtain ⟨l, rfl⟩ := c.front_lock front
      obtain ⟨first, dequeued⟩ := queueDequeue_cons c.spells front
      have pair : queueDequeue (.holding k.currentRunning) k.links =
          (some (.lock l), (queueDequeue (.holding k.currentRunning) k.links).2) := by
        rw [← first]
      rw [front, List.length_cons] at enough
      have nodup := c.spells.nodup (.holding k.currentRunning)
      rw [front, List.nodup_cons] at nodup
      have test : queueHas fuel (.holding k.currentRunning) (.lock l)
          (queueDequeue (.holding k.currentRunning) k.links).2 = some false := by
        rw [queueHas_returns dequeued (by simp; omega)]
        simpa using nodup.1
      have erased : (L (.holding k.currentRunning)).erase (.lock l) = rest := by simp [front]
      have unlocked := c.unlock (p := k.currentRunning) (l := l) (by simp [front])
        (erased.symm ▸ dequeued)
      have few : (Function.update L (.holding k.currentRunning)
          ((L (.holding k.currentRunning)).erase (.lock l)) (.block l)).length ≤ numMaxTask :=
        unlocked.queue_small (.inr trivial)
      obtain ⟨next, released⟩ := doUnblockAll_halts (q := .block l) fuel unlocked trivial
        (by omega)
      have release : doMutexLockRelease fuel l
          (k.relink (queueDequeue (.holding k.currentRunning) k.links).2) = some next := by
        rw [doMutexLockRelease]
        simp only [relink_links, relink_current, test, Option.bind_eq_bind, Option.bind_some,
          Bool.false_eq_true, if_false]
        exact released
      obtain ⟨links, rfl, coherent⟩ := releaseDequeued_spec c front release
      obtain ⟨k', result⟩ := ih coherent (by
        simp only [relink_current, wakeAll_current]
        change (releaseLock L k.currentRunning l (.holding k.currentRunning)).length + _ + _ < _
        rw [releaseLock_holding front]
        omega)
      refine ⟨k', ?_⟩
      simp only [List.isEmpty_cons, Bool.false_eq_true, if_false]
      rw [Kernel.relink] at release
      rw [pair]
      simp only [release, Option.bind_eq_bind, Option.bind_some, result]

theorem reap_halts (fuel : Nat) (c : Coherent k L off)
    (enough : (L (.holding k.currentRunning)).length + numMaxTask + 1 < fuel) :
    ∃ k', reap fuel k = some k' := by
  have few : (L (.waiting k.currentRunning)).length ≤ numMaxTask := c.queue_small (.inr trivial)
  obtain ⟨woken, first⟩ := doUnblockAll_halts (q := .waiting k.currentRunning) fuel c
    trivial (by omega)
  obtain ⟨links, rfl, coherent⟩ := doUnblockAll_spec (q := .waiting k.currentRunning) c trivial first
  obtain ⟨drained, second⟩ := drainHolding_halts fuel coherent (by
    simp only [relink_current, wakeAll_current]
    rw [released_of_ne (by simp) (by simp)]
    exact enough)
  refine ⟨drained.record (.reap drained.currentRunning), ?_⟩
  simp only [reap, first, second, Option.bind_eq_bind, Option.bind_some]

/-- Without `kill` nobody on the ready queue has exited. -/
theorem Coherent.ready_runnable (c : Coherent k L off) (spared : ∀ p, unreaped k.trace p = false)
    (member : Item.pcb p ∈ L .ready) : Runnable (k.pcb p).status := by
  rcases c.ready_status member with runnable | exited
  · exact runnable
  · have place := ((c.procs p .ready).mp member).2
    simp [Kernel.place, exited, spared] at place

theorem Coherent.selectable_member (c : Coherent k L ∅) (selectable : Selectable k p) :
    Item.pcb p ∈ L .ready := by
  refine (c.procs p .ready).mpr ⟨Set.notMem_empty p, ?_⟩
  rcases selectable with status | status | ⟨status, _⟩ <;> simp [Kernel.place, status]

/-- A sleeper goes to the back. -/
theorem select_rotates (s : k.links.Spells L) (front : L .ready = .pcb p :: rest)
    (runnable : Runnable (k.pcb p).status) (early : ¬Selectable k p) :
    select (fuel + 1) k = select fuel ((taken p k).push .ready (.pcb p)) := by
  have asleep : (k.pcb p).status = .sleeping := by
    rcases runnable with status | status | status
    · exact absurd (.inl status) early
    · exact status
    · exact absurd (.inr (.inl status)) early
  exact select_sleeper s front asleep fun due => early (.inr (.inr ⟨asleep, due⟩))

theorem rotated_coherent (c : Coherent k L ∅) (front : L .ready = .pcb p :: rest)
    (runnable : Runnable (k.pcb p).status) :
    Coherent ((taken p k).push .ready (.pcb p))
      (Function.update L .ready (rest ++ [.pcb p])) ∅ := by
  have turned := rotate_coherent (taken_coherent c front) (k := taken p k) runnable
  rwa [Function.update_self, Function.update_idem] at turned

/-- The loop comes round to a process that it takes. -/
theorem select_halts (fuel : Nat) (c : Coherent k L ∅) (spared : ∀ p, unreaped k.trace p = false)
    (queue : L .ready = pre ++ .pcb p :: rest) (selectable : Selectable k p)
    (enough : pre.length < fuel) : ∃ k', select fuel k = some k' := by
  induction pre generalizing k L rest fuel with
  | nil =>
    obtain ⟨fuel, rfl⟩ := Nat.exists_eq_succ_of_ne_zero (Nat.ne_of_gt enough)
    exact ⟨_, select_takes c.spells queue selectable⟩
  | cons x pre ih =>
    obtain ⟨fuel, rfl⟩ := Nat.exists_eq_succ_of_ne_zero (Nat.ne_of_gt (Nat.zero_lt_of_lt enough))
    obtain ⟨i, rfl⟩ := c.front_process (.inl rfl) queue
    by_cases first : Selectable k i
    · exact ⟨_, select_takes c.spells queue first⟩
    · have runnable := c.ready_runnable spared (p := i) (by simp [queue])
      rw [select_rotates c.spells queue runnable first]
      have turned := rotated_coherent c queue runnable
      have queue' : Function.update L .ready (pre ++ .pcb p :: rest ++ [.pcb i]) .ready =
          pre ++ .pcb p :: (rest ++ [.pcb i]) := by simp
      rw [List.length_cons] at enough
      exact ih fuel turned spared queue' selectable (by omega)

/-- Without such a process the loop goes round until the queue is empty or forever. -/
theorem select_stuck (c : Coherent k L ∅) (spared : ∀ p, unreaped k.trace p = false)
    (none : ∀ p, ¬Selectable k p) : select fuel k = Option.none := by
  induction fuel generalizing k L with
  | zero => rfl
  | succ fuel ih =>
    cases front : L .ready with
    | nil => rw [select, queueDequeue_nil c.spells front]
    | cons x rest =>
      obtain ⟨p, rfl⟩ := c.front_process (.inl rfl) front
      have runnable := c.ready_runnable spared (p := p) (by simp [front])
      rw [select_rotates c.spells front runnable (none p)]
      exact ih (rotated_coherent c front runnable) spared none

theorem saveCursor_selectable : Selectable (saveCursor k) p ↔ Selectable k p := by
  by_cases same : p = k.currentRunning
  · subst same
    simp [Selectable, saveCursor, Kernel.setPcb, Kernel.current, getTimer]
  · simp [Selectable, saveCursor, Kernel.setPcb, same, getTimer]

/-- The switch succeeds when, and only when, there is somebody to switch to. -/
theorem switch_halts (fuel : Nat) (clk : Word) (c : Coherent k L ∅) (spared : ∀ p, unreaped k.trace p = false)
    (selectable : Selectable k p) (enough : numMaxTask < fuel) :
    ∃ k', switch fuel clk k = some k' := by
  have saved := saveCursor_coherent c
  have selectable := saveCursor_selectable.mpr selectable
  obtain ⟨pre, rest, queue⟩ := List.append_of_mem (saved.selectable_member selectable)
  have few := saved.queue_small (q := .ready) (.inl rfl)
  rw [queue, List.length_append] at few
  obtain ⟨m, result⟩ := select_halts fuel saved spared queue selectable (by omega)
  exact ⟨enter clk m, by rw [switch, result]; rfl⟩

theorem switch_stuck (c : Coherent k L ∅) (spared : ∀ p, unreaped k.trace p = false)
    (none : ∀ p, ¬Selectable k p) : switch fuel clk k = Option.none := by
  rw [switch, select_stuck (saveCursor_coherent c) spared
    fun p selectable => none p (saveCursor_selectable.mp selectable)]
  rfl

theorem wakeAll_time (ps : List Slot) : (wakeAll q ps k).timeElapsed = k.timeElapsed := by
  induction ps generalizing k with
  | nil => rfl
  | cons p ps ih => exact ih

theorem dropAll_time (ls : List Mutex) : (dropAll p ls L k).timeElapsed = k.timeElapsed := by
  induction ls generalizing L k with
  | nil => rfl
  | cons l ls ih => rw [dropAll, ih, wakeAll_time, unlock, Kernel.record]

theorem reaped_time : (reaped p L k).timeElapsed = k.timeElapsed := by
  rw [reaped, Kernel.record, dropAll_time, wakeAll_time]

/-- Those who wait for `p` or for a mutex that it holds. -/
def Woken (L : Lists) (p i : Slot) : Prop :=
  (∃ l, Item.lock l ∈ L (.holding p) ∧ Item.pcb i ∈ L (.block l)) ∨ Item.pcb i ∈ L (.waiting p)

/-- Waking those who wait for the process leaves the waiters of its mutexes alone. -/
theorem woken_locked : (∃ l ∈ mutexes (L (.holding p)),
      Item.pcb i ∈ released L (.waiting p) (.block l)) ↔
    ∃ l, Item.lock l ∈ L (.holding p) ∧ Item.pcb i ∈ L (.block l) := by
  refine exists_congr fun l => ?_
  rw [mem_mutexes, released_of_ne (by simp) (by simp)]

theorem reaped_woken (woken : Woken L p i) : ((reaped p L k).pcb i).status = .ready := by
  simp only [reaped, Kernel.record, dropAll_pcb, wakeAll_pcb, mem_slots]
  split
  · rfl
  next unlocked => rw [if_pos (woken.resolve_left fun locked => unlocked (woken_locked.mpr locked))]

theorem reaped_asleep (stays : ¬Woken L p i) : (reaped p L k).pcb i = k.pcb i := by
  simp only [reaped, Kernel.record, dropAll_pcb, wakeAll_pcb, mem_slots]
  rw [if_neg fun locked => stays (.inl (woken_locked.mp locked)),
    if_neg fun waits => stays (.inr waits)]

/-- In terms of the process table. -/
theorem Sound.woken (sound : Sound k L) : Woken L k.currentRunning i ↔
    ∃ q, (k.pcb i).status = .blocked ∧ (k.pcb i).chan = some q ∧ LetsGo k k.currentRunning q := by
  have c := sound.coherent
  have inside : ∀ {q}, (k.pcb i).status = .blocked → (k.pcb i).chan = some q →
      Item.pcb i ∈ L q := by
    intro q blocked chan
    have other : i ∉ ({k.currentRunning} : Set Slot) := by
      rintro rfl
      rcases sound.active with status | status | ⟨status, _⟩ <;>
        simp [Kernel.current, blocked] at status
    exact (c.procs i q).mpr ⟨other, by simp [Kernel.place, blocked, chan]⟩
  constructor
  · rintro (⟨l, owned, waits⟩ | waits)
    · obtain ⟨blocked, chan⟩ := c.waiter (q := .block l) trivial waits
      exact ⟨_, blocked, chan, (c.held _ l).mp owned⟩
    · obtain ⟨blocked, chan⟩ := c.waiter (q := .waiting k.currentRunning) trivial waits
      exact ⟨_, blocked, chan, rfl⟩
  · rintro ⟨q, blocked, chan, goes⟩
    have member := inside blocked chan
    cases q with
    | waiting p =>
      obtain rfl : p = k.currentRunning := goes
      exact .inr member
    | block l => exact .inl ⟨l, (c.held _ l).mpr goes, member⟩
    | _ => exact goes.elim

/-- What the others do does not depend on how the running process leaves. -/
theorem selectable_other {m : Kernel} (status : (m.pcb p).status = (k.pcb p).status)
    (sleepEnd : (m.pcb p).sleepEnd = (k.pcb p).sleepEnd) (time : m.timeElapsed = k.timeElapsed) :
    Selectable m p ↔ Selectable k p := by
  rw [Selectable, Selectable, status, sleepEnd, getTimer, getTimer, time]

/-- Either one of the others can go on, or the one that leaves. -/
theorem selectable_split {m : Kernel} {own : Prop}
    (others : ∀ p, p ≠ k.currentRunning → (Selectable m p ↔ Selectable k p))
    (self : Selectable m k.currentRunning ↔ own) :
    (∃ p, Selectable m p) ↔ (∃ p, p ≠ k.currentRunning ∧ Selectable k p) ∨ own := by
  constructor
  · rintro ⟨p, selectable⟩
    by_cases same : p = k.currentRunning
    · exact .inr (self.mp (same ▸ selectable))
    · exact .inl ⟨p, same, (others p same).mp selectable⟩
  · rintro (⟨p, other, selectable⟩ | goes)
    · exact ⟨p, (others p other).mpr selectable⟩
    · exact ⟨_, self.mpr goes⟩

theorem yield_selectable (v : Pcb) : (∃ p, Selectable (yield v k) p) ↔
    (∃ p, p ≠ k.currentRunning ∧ Selectable k p) ∨ v.status = .embryo ∨ v.status = .ready ∨
      v.status = .sleeping ∧ v.sleepEnd ≤ getTimer k := by
  apply selectable_split
  · intro p other
    refine selectable_other (k := k) ?_ ?_ rfl
    · simp [yield, Kernel.setPcb, Kernel.push, other]
    · simp [yield, Kernel.setPcb, Kernel.push, other]
  · simp [Selectable, yield, Kernel.setPcb, Kernel.push, getTimer]

theorem parkOn_selectable : (∃ p, Selectable (parkOn q k) p) ↔
    (∃ p, p ≠ k.currentRunning ∧ Selectable k p) ∨ False := by
  apply selectable_split
  · intro p other
    refine selectable_other (k := k) ?_ ?_ rfl
    · simp [parkOn, Kernel.setPcb, Kernel.push, Kernel.record, other]
    · simp [parkOn, Kernel.setPcb, Kernel.push, Kernel.record, other]
  · simp [Selectable, parkOn, Kernel.setPcb, Kernel.push, Kernel.record]

theorem reaped_selectable (sound : Sound k L) (links : Links Item QueueId) :
    (∃ p, Selectable ((reaped k.currentRunning L (exiting k)).relink links) p) ↔
    (∃ p, p ≠ k.currentRunning ∧ Selectable k p) ∨
      ∃ p q, (k.pcb p).status = .blocked ∧ (k.pcb p).chan = some q ∧
        LetsGo k k.currentRunning q := by
  have time : ((reaped k.currentRunning L (exiting k)).relink links).timeElapsed = k.timeElapsed :=
    reaped_time
  have kept : ∀ p, p ≠ k.currentRunning → ¬Woken L k.currentRunning p →
      (Selectable ((reaped k.currentRunning L (exiting k)).relink links) p ↔ Selectable k p) := by
    intro p other stays
    have same : ((reaped k.currentRunning L (exiting k)).relink links).pcb p = k.pcb p := by
      rw [relink_pcb, reaped_asleep stays]
      simp [exiting, Kernel.setPcb, other]
    exact selectable_other (by rw [same]) (by rw [same]) time
  constructor
  · rintro ⟨p, selectable⟩
    by_cases woken : Woken L k.currentRunning p
    · obtain ⟨q, goes⟩ := sound.woken.mp woken
      exact .inr ⟨p, q, goes⟩
    · have other : p ≠ k.currentRunning := by
        rintro rfl
        have exited : (((reaped k.currentRunning L (exiting k)).relink links).pcb
            k.currentRunning).status = .exited := by
          rw [relink_pcb, reaped_asleep woken]
          simp [exiting, Kernel.setPcb]
        rcases selectable with here | here | ⟨here, _⟩ <;> rw [exited] at here <;> cases here
      exact .inl ⟨p, other, (kept p other woken).mp selectable⟩
  · rintro (⟨p, other, selectable⟩ | ⟨p, q, goes⟩)
    · have stays : ¬Woken L k.currentRunning p := by
        intro woken
        obtain ⟨q, blocked, _⟩ := sound.woken.mp woken
        rcases selectable with here | here | ⟨here, _⟩ <;> rw [blocked] at here <;> cases here
      exact ⟨p, (kept p other stays).mpr selectable⟩
    · exact ⟨p, .inr (.inl (reaped_woken (sound.woken.mpr ⟨q, goes⟩)))⟩

/-- What the running process leaves behind. -/
theorem leave_left {m : Kernel} (peaceful : Peaceful k L) (suits : Suits k request)
    (result : leave fuel request k = some m) : ∃ M, Coherent m M ∅ ∧
      (∀ p, unreaped m.trace p = false) ∧ ((∃ p, Selectable m p) ↔ CanSwitch k request) := by
  have c := peaceful.coherent
  cases request with
  | blocked q =>
    obtain rfl := Option.some.inj result
    exact ⟨_, parkOn_coherent c suits.1 suits.2, peaceful.spared, parkOn_selectable⟩
  | sleeping time =>
    obtain rfl := Option.some.inj result
    refine ⟨_, yield_coherent c (.inr (.inl rfl)), peaceful.spared, ?_⟩
    rw [CanSwitch]
    refine (yield_selectable _).trans ?_
    simp
  | ready =>
    obtain rfl := Option.some.inj result
    refine ⟨_, yield_coherent c (.inr (.inr rfl)), peaceful.spared, ?_⟩
    rw [CanSwitch]
    refine (yield_selectable _).trans ?_
    simp
  | other =>
    obtain rfl := Option.some.inj result
    refine ⟨_, yield_coherent c (.inr (.inr rfl)), peaceful.spared, ?_⟩
    rw [CanSwitch]
    refine (yield_selectable _).trans ?_
    simp
  | exited =>
    obtain ⟨links, rfl, coherent⟩ := reap_spec (p := k.currentRunning) (exiting_coherent c) rfl
      (Set.mem_singleton _) (by simp [exiting, Kernel.setPcb]) result
    rw [Set.sdiff_self] at coherent
    refine ⟨_, coherent, fun p => ?_, reaped_selectable peaceful.toSound links⟩
    rw [relink_trace, unreaped_reaped]
    split
    · rfl
    · exact peaceful.spared p

theorem leave_halts (fuel : Nat) (request : Request) (peaceful : Peaceful k L)
    (enough : (L (.holding k.currentRunning)).length + numMaxTask + 1 < fuel) :
    ∃ m, leave fuel request k = some m := by
  cases request with
  | exited => exact reap_halts fuel (exiting_coherent peaceful.coherent) enough
  | _ => exact ⟨_, rfl⟩

/-- `scheduler` returns, with a running process, when somebody can go on. Otherwise it
dereferences the NULL of an empty queue or goes round forever. -/
theorem Peaceful.scheduler (peaceful : Peaceful k L) (suits : Suits k request) :
    (∃ fuel k', scheduler fuel clk request k = some k' ∧ k'.current.status = .running) ↔
      CanSwitch k request := by
  constructor
  · rintro ⟨fuel, k', result, _⟩
    rw [scheduler_eq, Option.bind_eq_some_iff] at result
    obtain ⟨m, left, switched⟩ := result
    obtain ⟨M, c, spared, selectable⟩ := leave_left peaceful suits left
    apply selectable.mp
    by_contra none
    rw [switch_stuck c spared fun p here => none ⟨p, here⟩] at switched
    cases switched
  · intro canSwitch
    obtain ⟨fuel, enough⟩ : ∃ fuel,
        (L (.holding k.currentRunning)).length + numMaxTask + 1 < fuel := ⟨_, Nat.lt_succ_self _⟩
    obtain ⟨m, left⟩ := leave_halts fuel request peaceful enough
    obtain ⟨M, c, spared, selectable⟩ := leave_left peaceful suits left
    obtain ⟨p, here⟩ := selectable.mpr canSwitch
    obtain ⟨k', switched⟩ := switch_halts fuel clk c spared here (by omega)
    obtain ⟨_, _, running, _⟩ := switch_spec c switched
    exact ⟨fuel, k', by rw [scheduler_eq, left, Option.bind_some, switched], running⟩

/-- Processes come, go, wait, sleep and are preempted, block on queues of their own choice and
are released from them, and acquire and release mutexes. -/
def Event.Ordinary : Event → Prop
  | .timer | .resume | .call (.spawn _) | .call .exit | .call (.wait _) | .call (.sleep _)
  | .call (.acquire _) | .call (.release _) => True
  | .call (.block q) | .call (.unblockOne q) | .call (.unblockAll q) => q.Foreign
  | _ => False

/-- What is released is held, and was acquired first or last of all that the caller holds. -/
def FromEnds (k : Kernel) : Event → Prop
  | .call (.release l) => holds k.trace k.currentRunning l = true ∧
      (k.links.head (.holding k.currentRunning) = some (.lock l) ∨
        k.links.tail (.holding k.currentRunning) = some (.lock l))
  | _ => True

instance Event.Ordinary.decidable (event : Event) : Decidable event.Ordinary := by
  apply event.decide <;> intros <;> unfold Event.Ordinary <;> infer_instance

instance FromEnds.decidable (k : Kernel) (event : Event) : Decidable (FromEnds k event) := by
  apply event.decide <;> intros <;> unfold FromEnds <;> infer_instance

theorem Event.Ordinary.spares {event : Event} (ordinary : event.Ordinary) : event.Spares := by
  rcases event with call | _ | _
  · cases call <;> first | exact ordinary.elim | trivial
  · trivial
  · trivial

theorem FromEnds.good {event : Event} (fromEnds : FromEnds k event) (ordinary : event.Ordinary)
    (spared : ∀ p, unreaped k.trace p = false) : Good k event := by
  rcases event with call | _ | _
  · cases call <;>
      first | exact ordinary.elim | exact fromEnds | exact ordinary | exact fun i _ => spared i
  · trivial
  · trivial

theorem reachable_peaceful (reach : Reachable Step
    (fun k event => event.Ordinary ∧ FromEnds k event) (initPcb shell) k) : ∃ L, Peaceful k L := by
  refine reach.invariant (fun k => ∃ L, Peaceful k L) ⟨_, initPcb_peaceful⟩ ?_
  rintro k event k' ⟨L, peaceful⟩ ⟨ordinary, fromEnds⟩ step
  exact step_peaceful peaceful ordinary.spares (fromEnds.good ordinary peaceful.spared) step

/-- In every reachable state `scheduler` ends with a running process exactly when somebody can
go on. -/
theorem reachable_scheduler (clk : Word) (reach : Reachable Step
    (fun k event => event.Ordinary ∧ FromEnds k event) (initPcb shell) k) (suits : Suits k request) :
    (∃ fuel k', scheduler fuel clk request k = some k' ∧ k'.current.status = .running) ↔
      CanSwitch k request := by
  obtain ⟨L, peaceful⟩ := reachable_peaceful reach
  exact peaceful.scheduler suits

/-- The shell starts a process and sleeps. -/
theorem reachable_scheduler_sleep : ∃ k fuel k', .spawn 1 ∈ k.trace ∧
    scheduler fuel 300 (.sleeping 5) k = some k' ∧ k'.current.status = .running := by
  obtain ⟨k, reach, spawned, other⟩ := runAllowed_found
    (fun k event => event.Ordinary ∧ FromEnds k event) 8 300 [.call (.spawn someTask)]
    (initPcb someTask)
    (fun k => .spawn 1 ∈ k.trace ∧ ∃ p, p ≠ k.currentRunning ∧ Selectable k p) (by decide)
  have suits : Suits k (.sleeping 5) := trivial
  obtain ⟨fuel, k', result, running⟩ :=
    (reachable_scheduler 300 reach suits).mpr (.inl other)
  exact ⟨k, fuel, k', spawned, result, running⟩

/-- The shell starts a process and waits for it, and that one sleeps: the loop rotates it for
ever. -/
theorem sleeper_alone : ¬∀ k, Reachable Step (fun _ event => event.Ordinary) (initPcb someTask) k →
    ∀ request clk, Suits k request →
      ∃ fuel k', scheduler fuel clk request k = some k' ∧ k'.current.status = .running := by
  intro ends
  obtain ⟨k, reach, alone, early⟩ := runAllowed_found
    (fun k event => event.Ordinary ∧ FromEnds k event) 8 300
    [.call (.spawn someTask), .call (.wait 2)] (initPcb someTask)
    (fun k => (∀ p, p ≠ k.currentRunning → ¬Selectable k p) ∧
      ¬getTimer k + 1 ≤ getTimer k) (by decide)
  obtain ⟨L, peaceful⟩ := reachable_peaceful reach
  have suits : Suits k (.sleeping 1) := trivial
  have found := ends k (reach.mono fun _ _ allowed => allowed.1) (.sleeping 1) 300 suits
  rcases (peaceful.scheduler suits).mp found with ⟨p, other, selectable⟩ | late
  · exact alone p other selectable
  · exact early late

end Tina
