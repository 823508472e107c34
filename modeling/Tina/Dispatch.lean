import Tina.Scheduling

/-! One call of `scheduler`: the running process leaves, the selection loop takes
another one, and that one enters. -/
namespace Tina

open LinkedQueue

variable {k k' : Kernel} {L L' : Lists} {off : Set Slot} {p i : Slot} {q : QueueId}
  {rest : List Item} {fuel : Nat} {clk : Word}

/-- The record of a process on no queue may change, as long as it is not parked. -/
theorem Coherent.adjust (c : Coherent k L off) (inside : p ∈ off) (v : Pcb)
    (free : v.status ≠ .blocked) : Coherent (k.setPcb p v) L off where
  spells := c.spells
  procs i q := by
    by_cases same : i = p
    · subst i; simp [inside, c.off_nowhere inside]
    · have place : (k.setPcb p v).place i = k.place i :=
        place_congr (by simp [Kernel.setPcb, same]) (by simp [Kernel.setPcb, same]) rfl
      rw [place, c.procs]
  parked i blocked := by
    have other : i ≠ p := by
      rintro rfl
      simp [Kernel.setPcb, free] at blocked
    simpa [Kernel.setPcb, other] using c.parked i (by simpa [Kernel.setPcb, other] using blocked)
  locks := c.locks
  locked := c.locked
  held := c.held
  running i running := by
    by_cases same : i = p
    · exact same ▸ inside
    · exact c.running i (by simpa [Kernel.setPcb, same] using running)
  retired i exited done outside := by
    have other : i ≠ p := fun same => outside (same ▸ inside)
    exact c.retired i (by simpa [Kernel.setPcb, other] using exited) done outside

/-- A process that no queue names and that has not been killed may be chosen. -/
def Runnable (s : TaskStatus) : Prop := s = .embryo ∨ s = .sleeping ∨ s = .ready

/-- Nobody waits for an exited process, and it holds nothing. -/
def Deserted (k : Kernel) (L : Lists) : Prop :=
  ∀ p, (k.pcb p).status = .exited → L (.waiting p) = [] ∧ L (.holding p) = []

/-- What the selection loop leaves alone while it rotates the ready queue. -/
structure Calm (k : Kernel) (L : Lists) (k' : Kernel) (L' : Lists) : Prop where
  queues : ∀ q, q ≠ .ready → L' q = L q
  lock : k'.lock = k.lock
  count : k'.count = k.count
  barrier : k'.barrier = k.barrier
  kont : k'.kont = k.kont
  processId : k'.processId = k.processId
  trace : ∃ ps : List Slot, k'.trace = ps.map .reap ++ k.trace
  chan : ∀ p, (k'.pcb p).chan = (k.pcb p).chan
  pid : ∀ p, (k'.pcb p).pid = (k.pcb p).pid
  status : ∀ p, (k'.pcb p).status = (k.pcb p).status ∨
    (k'.pcb p).status = .ready ∧ Runnable (k.pcb p).status

theorem Calm.trans {k'' : Kernel} {L'' : Lists} (first : Calm k L k' L')
    (second : Calm k' L' k'' L'') : Calm k L k'' L'' where
  queues q notReady := (second.queues q notReady).trans (first.queues q notReady)
  lock := second.lock.trans first.lock
  count := second.count.trans first.count
  barrier := second.barrier.trans first.barrier
  kont := second.kont.trans first.kont
  processId := second.processId.trans first.processId
  trace := by
    obtain ⟨ps, one⟩ := first.trace
    obtain ⟨qs, two⟩ := second.trace
    exact ⟨qs ++ ps, by simp [two, one]⟩
  chan p := (second.chan p).trans (first.chan p)
  pid p := (second.pid p).trans (first.pid p)
  status p := by
    rcases second.status p with same | ⟨ready, runnable⟩
    · rw [same]; exact first.status p
    · rcases first.status p with same | ⟨_, before⟩
      · exact Or.inr ⟨ready, same ▸ runnable⟩
      · exact Or.inr ⟨ready, before⟩

theorem Calm.onward (calm : Calm k L k' L') : Onward k k' where
  processId := calm.processId
  pid := calm.pid
  spawned := by
    obtain ⟨ps, trace⟩ := calm.trace
    simp [trace, spawns, Function.comp_def, Act.isSpawn]
  killed p reaped := by
    obtain ⟨ps, trace⟩ := calm.trace
    rw [trace] at reaped
    clear trace
    induction ps with
    | nil => exact reaped
    | cons i ps ih =>
      apply ih
      simp only [List.map_cons, List.cons_append, unreaped] at reaped
      split at reaped
      · contradiction
      · exact reaped
  live p status := by
    rcases calm.status p with same | ⟨_, runnable⟩
    · exact Or.inl (same ▸ status)
    · refine Or.inl fun exited => ?_
      rcases runnable with status | status | status <;> simp [exited] at status

theorem Calm.waking (calm : Calm k L k' L') : Waking k k' where
  toOnward := calm.onward
  woken p := by
    rcases calm.status p with same | ⟨ready, _⟩
    · exact Or.inl ⟨same, calm.chan p⟩
    · exact Or.inr (Or.inl ready)
  clean tidy p live chan := by
    rw [calm.chan] at chan
    rcases calm.status p with same | ⟨_, runnable⟩
    · rw [same] at live ⊢
      exact tidy p live chan
    · have blocked := tidy p (fun exited => by simp [exited, Runnable] at runnable) chan
      simp [blocked, Runnable] at runnable

/-- A ready-queue member that is neither parked nor running. -/
theorem Coherent.ready_status (c : Coherent k L off) (member : Item.pcb p ∈ L .ready) :
    Runnable (k.pcb p).status ∨ (k.pcb p).status = .exited := by
  have place := ((c.procs p .ready).mp member).2
  unfold Kernel.place at place
  split at place
  next status => exact Or.inl (Or.inl status)
  next status => exact Or.inl (Or.inr (Or.inr status))
  next status => exact Or.inl (Or.inr (Or.inl status))
  next status =>
    obtain ⟨q, chan, parking⟩ := c.parked p status
    rw [chan, Option.some.injEq] at place
    exact absurd place (parking_ne_ready parking)
  next => simp at place
  next status => exact Or.inr status

/-- The state in which the selection loop looks at the process it has dequeued. -/
def taken (p : Slot) (k : Kernel) : Kernel :=
  { k with links := (queueDequeue .ready k.links).2, currentRunning := p }

theorem taken_coherent (c : Coherent k L ∅) (front : L .ready = .pcb p :: rest) :
    Coherent (taken p k) (Function.update L .ready rest) {p} := by
  have dequeued := c.dequeue front
  rw [insert_empty_eq] at dequeued
  exact dequeued.reframe rfl rfl (fun _ => rfl) (fun _ => rfl) (fun _ => rfl) (fun _ _ => rfl)

theorem taken_calm : Calm k L (taken p k) (Function.update L .ready rest) where
  queues q notReady := by simp [notReady]
  lock := rfl
  count := rfl
  barrier := rfl
  kont := rfl
  processId := rfl
  trace := ⟨[], rfl⟩
  chan _ := rfl
  pid _ := rfl
  status _ := Or.inl rfl

theorem ready_calm (runnable : Runnable (k.pcb p).status) :
    Calm k L (k.setPcb p { k.pcb p with status := .ready }) L where
  queues _ _ := rfl
  lock := rfl
  count := rfl
  barrier := rfl
  kont := rfl
  processId := rfl
  trace := ⟨[], rfl⟩
  chan i := by by_cases same : i = p <;> simp [Kernel.setPcb, same]
  pid i := by by_cases same : i = p <;> simp [Kernel.setPcb, same]
  status i := by
    by_cases same : i = p
    · subst i; exact Or.inr ⟨by simp [Kernel.setPcb], runnable⟩
    · exact Or.inl (by simp [Kernel.setPcb, same])

theorem rotate_calm : Calm k L (k.push .ready (.pcb p))
    (Function.update L .ready (L .ready ++ [.pcb p])) where
  queues q notReady := by simp [notReady]
  lock := rfl
  count := rfl
  barrier := rfl
  kont := rfl
  processId := rfl
  trace := ⟨[], rfl⟩
  chan _ := rfl
  pid _ := rfl
  status _ := Or.inl rfl

theorem rotate_coherent (c : Coherent k L {p}) (runnable : Runnable (k.pcb p).status) :
    Coherent (k.push .ready (.pcb p)) (Function.update L .ready (L .ready ++ [.pcb p])) ∅ := by
  have place : (k.push .ready (.pcb p)).place p = some .ready := by
    rcases runnable with status | status | status <;> simp [Kernel.place, Kernel.push, status]
  have parking : ((k.push .ready (.pcb p)).pcb p).status = .blocked → QueueId.ready.Parking := by
    intro blocked
    rcases runnable with status | status | status <;> simp [Kernel.push, status] at blocked
  have moved := c.enqueue (m := k.push .ready (.pcb p)) (Set.mem_singleton p) rfl rfl
    (fun _ _ => rfl) (fun _ _ => rfl) (fun _ _ => rfl) (fun _ _ => rfl) place parking (by simp)
  simpa using moved

/-- Reaping a deserted process only records the fact. -/
theorem reaped_deserted (waiting : L (.waiting p) = []) (holding : L (.holding p) = []) :
    reaped p L k = k.record (.reap p) ∧ reapLists p L = L := by
  simp [reaped, reapLists, waiting, holding, released_nil, dropAll, dropLists]

theorem reap_calm (links : Links Item QueueId) :
    Calm k L ((k.record (.reap p)).relink links) L where
  queues _ _ := rfl
  lock := rfl
  count := rfl
  barrier := rfl
  kont := rfl
  processId := rfl
  trace := ⟨[p], rfl⟩
  chan _ := rfl
  pid _ := rfl
  status _ := Or.inl rfl

theorem Deserted.calm (empty : Deserted k L) (calm : Calm k L k' L') : Deserted k' L' := by
  intro p exited
  rw [calm.queues _ (by simp), calm.queues _ (by simp)]
  refine empty p ?_
  rcases calm.status p with same | ⟨ready, _⟩
  · rw [← same]; exact exited
  · rw [exited] at ready; contradiction

/-- The selection loop takes such a process when it looks at it. -/
def Selectable (k : Kernel) (p : Slot) : Prop :=
  (k.pcb p).status = .embryo ∨ (k.pcb p).status = .ready ∨
    (k.pcb p).status = .sleeping ∧ (k.pcb p).sleepEnd ≤ getTimer k

instance Selectable.decidable (k : Kernel) (p : Slot) : Decidable (Selectable k p) :=
  inferInstanceAs (Decidable (_ ∨ _))

/-- One round of the selection loop, by what it finds. -/
theorem select_eq (s : k.links.Spells L) (front : L .ready = .pcb p :: rest) :
    select (fuel + 1) k = match (checkSleeping (taken p k)).current.status with
      | .sleeping => select fuel ((checkSleeping (taken p k)).push .ready (.pcb p))
      | .embryo => some ((checkSleeping (taken p k)).setPcb p
          { (checkSleeping (taken p k)).current with status := .ready })
      | .exited => (reap fuel (checkSleeping (taken p k))).bind (select fuel)
      | .ready => some (checkSleeping (taken p k))
      | .running | .blocked => select fuel (checkSleeping (taken p k)) := by
  have pair : queueDequeue .ready k.links = (some (.pcb p), (queueDequeue .ready k.links).2) := by
    rw [← (queueDequeue_cons s front).1]
  rw [select, pair]
  rfl

/-- A process that can run is taken, whether it was asleep or not. -/
theorem select_takes (s : k.links.Spells L) (front : L .ready = .pcb p :: rest)
    (selectable : Selectable k p) :
    select (fuel + 1) k = some ((taken p k).setPcb p { k.pcb p with status := .ready }) := by
  have current : (taken p k).current = k.pcb p := rfl
  have ready : ((taken p k).setPcb p { k.pcb p with status := .ready }).current.status =
      .ready := by
    simp [Kernel.current, Kernel.setPcb, taken]
  rw [select_eq s front]
  by_cases awake : (k.pcb p).status = .sleeping ∧ (k.pcb p).sleepEnd ≤ getTimer k
  · have checked : checkSleeping (taken p k) =
        (taken p k).setPcb p { k.pcb p with status := .ready } := if_pos awake
    rw [checked, ready]
  · have checked : checkSleeping (taken p k) = taken p k := if_neg awake
    rw [checked, current]
    rcases selectable with status | status | late
    · rw [status]
    · have same : { k.pcb p with status := .ready } = k.pcb p := by rw [← status]
      have record : (taken p k).setPcb p (k.pcb p) = taken p k := by
        simp [Kernel.setPcb, taken]
      rw [status]
      simp only [same, record]
    · exact absurd late awake

theorem select_sleeper (s : k.links.Spells L) (front : L .ready = .pcb p :: rest)
    (asleep : (k.pcb p).status = .sleeping) (early : ¬(k.pcb p).sleepEnd ≤ getTimer k) :
    select (fuel + 1) k = select fuel ((taken p k).push .ready (.pcb p)) := by
  have checked : checkSleeping (taken p k) = taken p k := if_neg fun awake => early awake.2
  have status : (taken p k).current.status = .sleeping := asleep
  rw [select_eq s front, checked, status]

theorem select_killed (s : k.links.Spells L) (front : L .ready = .pcb p :: rest)
    (exited : (k.pcb p).status = .exited) :
    select (fuel + 1) k = (reap fuel (taken p k)).bind (select fuel) := by
  have checked : checkSleeping (taken p k) = taken p k := by
    refine if_neg fun awake => ?_
    have asleep : (k.pcb p).status = .sleeping := awake.1
    rw [exited] at asleep
    cases asleep
  have status : (taken p k).current.status = .exited := exited
  rw [select_eq s front, checked, status]

/-- The process at the front is taken, put back or reaped. -/
theorem select_cases (c : Coherent k L ∅) (front : L .ready = .pcb p :: rest)
    (result : select (fuel + 1) k = some k') :
    (Selectable k p ∧ k' = (taken p k).setPcb p { k.pcb p with status := .ready }) ∨
    ((k.pcb p).status = .sleeping ∧ select fuel ((taken p k).push .ready (.pcb p)) = some k') ∨
    ((k.pcb p).status = .exited ∧
      ∃ m, reap fuel (taken p k) = some m ∧ select fuel m = some k') := by
  by_cases selectable : Selectable k p
  · rw [select_takes c.spells front selectable] at result
    exact Or.inl ⟨selectable, (Option.some.inj result).symm⟩
  · rcases c.ready_status (p := p) (by simp [front]) with (status | status | status) | status
    · exact absurd (Or.inl status) selectable
    · rw [select_sleeper c.spells front status fun due =>
        selectable (Or.inr (Or.inr ⟨status, due⟩))] at result
      exact Or.inr (Or.inl ⟨status, result⟩)
    · exact absurd (Or.inr (Or.inl status)) selectable
    · rw [select_killed c.spells front status] at result
      exact Or.inr (Or.inr ⟨status, Option.bind_eq_some_iff.mp result⟩)

/-- The selection loop keeps coherence, whoever it finds on the way; when nobody
it reaps leaves anything behind, it only touches the ready queue. -/
theorem select_spec (c : Coherent k L ∅) (result : select fuel k = some k') : ∃ L',
    Coherent k' L' {k'.currentRunning} ∧ (k'.pcb k'.currentRunning).status = .ready ∧
    k'.kont = k.kont ∧ Waking k k' ∧ (Deserted k L → Calm k L k' L') := by
  induction fuel generalizing k L with
  | zero => simp [select] at result
  | succ fuel ih =>
    cases front : L .ready with
    | nil => simp [select, queueDequeue_nil c.spells front] at result
    | cons x rest =>
      obtain ⟨p, rfl⟩ := c.front_process (.inl rfl) front
      have c₁ := taken_coherent c front
      have calm₁ : Calm k L (taken p k) (Function.update L .ready rest) := taken_calm
      have alone : p ∈ ({p} : Set Slot) := Set.mem_singleton p
      rcases select_cases c front result with ⟨selectable, rfl⟩ | ⟨asleep, result⟩ |
        ⟨exited, m, reap, result⟩
      · have runnable : Runnable ((taken p k).pcb p).status := by
          rcases selectable with status | status | ⟨status, _⟩
          · exact Or.inl status
          · exact Or.inr (Or.inr status)
          · exact Or.inr (Or.inl status)
        have calm := calm₁.trans (ready_calm (k := taken p k) runnable)
        exact ⟨_, c₁.adjust alone _ (by simp), by simp [Kernel.setPcb, taken], calm.kont,
          calm.waking, fun _ => calm⟩
      · have runnable : Runnable ((taken p k).pcb p).status := Or.inr (Or.inl asleep)
        obtain ⟨L', coherent, ready, kont, waking, calm⟩ := ih (rotate_coherent c₁ runnable) result
        have calm₂ := calm₁.trans (rotate_calm (p := p))
        exact ⟨L', coherent, ready, kont, calm₂.waking.trans waking,
          fun empty => calm₂.trans (calm (empty.calm calm₂))⟩
      · obtain ⟨links, rfl, c₂⟩ := reap_spec (p := p) c₁ rfl alone exited reap
        rw [Set.sdiff_self] at c₂
        obtain ⟨L', coherent, ready, kont, waking, calm⟩ := ih c₂ result
        have same : k'.kont = k.kont := by
          rw [kont, relink_kont, reaped_kont]
          rfl
        have past := calm₁.waking.trans (((reaped_waking (p := p) c₁).relink links).trans waking)
        refine ⟨L', coherent, ready, same, past, fun empty => ?_⟩
        have gone := empty.calm calm₁ p exited
        obtain ⟨same, lists⟩ := reaped_deserted (k := taken p k) gone.1 gone.2
        rw [same, lists] at calm
        have calm₂ := calm₁.trans (reap_calm (p := p) links)
        exact calm₂.trans (calm (empty.calm calm₂))

/-- What the whole switch leaves alone once the running process has left. -/
structure Switched (k : Kernel) (L : Lists) (k' : Kernel) (L' : Lists) : Prop where
  queues : ∀ q, q ≠ .ready → L' q = L q
  lock : k'.lock = k.lock
  count : k'.count = k.count
  barrier : k'.barrier = k.barrier
  kont : k'.kont = k.kont
  processId : k'.processId = k.processId
  trace : ∃ ps : List Slot, k'.trace = .dispatch k'.currentRunning :: ps.map .reap ++ k.trace
  chan : ∀ p, (k'.pcb p).chan = (k.pcb p).chan
  pid : ∀ p, (k'.pcb p).pid = (k.pcb p).pid
  status : ∀ p, (k'.pcb p).status = (k.pcb p).status ∨ Runnable (k.pcb p).status ∧
    ((k'.pcb p).status = .ready ∨ (k'.pcb p).status = .running ∧ p = k'.currentRunning)

theorem saveCursor_coherent (c : Coherent k L off) : Coherent (saveCursor k) L off := by
  refine c.reframe rfl rfl ?_ ?_ (fun _ => rfl) (fun _ _ => rfl)
  · intro p; by_cases same : p = k.currentRunning <;>
      simp [saveCursor, Kernel.setPcb, Kernel.current, same]
  · intro p; by_cases same : p = k.currentRunning <;>
      simp [saveCursor, Kernel.setPcb, Kernel.current, same]

theorem saveCursor_calm : Calm k L (saveCursor k) L where
  queues _ _ := rfl
  lock := rfl
  count := rfl
  barrier := rfl
  kont := rfl
  processId := rfl
  trace := ⟨[], rfl⟩
  chan p := by
    by_cases same : p = k.currentRunning <;>
      simp [saveCursor, Kernel.setPcb, Kernel.current, same]
  pid p := by
    by_cases same : p = k.currentRunning <;>
      simp [saveCursor, Kernel.setPcb, Kernel.current, same]
  status p := by
    refine Or.inl ?_
    by_cases same : p = k.currentRunning <;>
      simp [saveCursor, Kernel.setPcb, Kernel.current, same]

/-- The common end of every call of `scheduler`. -/
def switch (fuel : Nat) (clk : Word) (k : Kernel) : Option Kernel := do
  let k ← select fuel (saveCursor k)
  some (enter clk k)

theorem scheduler_eq (request : Request) :
    scheduler fuel clk request k = (leave fuel request k).bind (switch fuel clk) := rfl

theorem switch_spec (c : Coherent k L ∅) (result : switch fuel clk k = some k') : ∃ L',
    Coherent k' L' {k'.currentRunning} ∧ (k'.pcb k'.currentRunning).status = .running ∧
    k'.kont = k.kont ∧ Waking k k' ∧ (Deserted k L → Switched k L k' L') := by
  simp only [switch, Option.bind_eq_bind, Option.bind_eq_some_iff, Option.some.injEq] at result
  obtain ⟨m, select, rfl⟩ := result
  obtain ⟨L', coherent, ready, kont, waking, calm⟩ := select_spec (saveCursor_coherent c) select
  have current : (enter clk m).currentRunning = m.currentRunning := rfl
  have record : ∀ p, (enter clk m).pcb p =
      if p = m.currentRunning then { m.pcb p with status := .running } else m.pcb p := by
    intro p
    by_cases same : p = m.currentRunning
    · subst p; simp [enter, setTimer, Kernel.record, Kernel.setPcb, Kernel.current]
    · simp [enter, setTimer, Kernel.record, Kernel.setPcb, same]
  have entered : Waking m (enter clk m) := by
    refine ⟨⟨rfl, fun p => ?_, rfl, fun _ => id, fun p status => Or.inl ?_⟩, fun p => ?_,
      fun tidy p live chan => ?_⟩
    · rw [record]; split <;> rfl
    · rw [record] at status
      split at status
      next same => simp [same, ready]
      · exact status
    · rw [record]
      split
      · exact Or.inr (Or.inr rfl)
      · exact Or.inl ⟨rfl, rfl⟩
    · rw [record] at live chan ⊢
      split at chan
      next same =>
        have blocked := tidy m.currentRunning (by simp [ready]) (same ▸ chan)
        simp [ready] at blocked
      next other =>
        rw [if_neg other] at live ⊢
        exact tidy p live chan
  have past := (saveCursor_calm (L := L)).waking.trans (waking.trans entered)
  refine ⟨L', ?_, by simp [current, record], kont, past, fun empty => ?_⟩
  · have running := coherent.adjust (Set.mem_singleton _)
      { m.pcb m.currentRunning with status := .running } (by simp)
    refine running.reframe rfl rfl (fun p => ?_) (fun p => ?_) (fun _ => rfl) (fun _ _ => rfl)
    · by_cases same : p = m.currentRunning <;> simp [record, Kernel.setPcb, same]
    · by_cases same : p = m.currentRunning <;> simp [record, Kernel.setPcb, same]
  · have calm := saveCursor_calm.trans (calm (empty.calm saveCursor_calm))
    refine ⟨calm.queues, calm.lock, calm.count, calm.barrier, calm.kont, calm.processId, ?_,
      fun p => ?_, fun p => ?_, fun p => ?_⟩
    · obtain ⟨ps, trace⟩ := calm.trace
      exact ⟨ps, congrArg (Act.dispatch m.currentRunning :: ·) trace⟩
    · rw [record, ← calm.chan p]; split <;> rfl
    · rw [record, ← calm.pid p]; split <;> rfl
    · rw [record]
      by_cases same : p = m.currentRunning
      · subst p
        refine Or.inr ⟨?_, Or.inr ⟨by simp, rfl⟩⟩
        rcases calm.status m.currentRunning with kept | ⟨_, runnable⟩
        · exact Or.inr (Or.inr (kept ▸ ready))
        · exact runnable
      · simp only [same, if_false]
        exact (calm.status p).imp id fun changed => ⟨changed.2, Or.inl changed.1⟩

end Tina
