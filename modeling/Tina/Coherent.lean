import Mathlib.Order.BooleanAlgebra.Set
import Tina.Machine

/-! What the link store means for processes and mutexes. A kernel function takes
processes off one queue and puts them on another; in between they are on none.
The set `off` names them, so that the invariant also holds inside a function. -/
namespace Tina

open LinkedQueue

abbrev Lists := QueueId → List Item

/-- Killed and neither reaped nor gone through `exit` since. -/
def unreaped : List Act → Slot → Bool
  | [], _ => false
  | .kill p :: trace, i => if p = i then true else unreaped trace i
  | .reap p :: trace, i => if p = i then false else unreaped trace i
  | _ :: trace, i => unreaped trace i

/-- Acquired and not released since. -/
def holds : List Act → Slot → Mutex → Bool
  | [], _, _ => false
  | .acquire p l :: trace, i, m => if p = i ∧ l = m then true else holds trace i m
  | .release p l :: trace, i, m => if p = i ∧ l = m then false else holds trace i m
  | _ :: trace, i, m => holds trace i m

def Act.isSpawn : Act → Bool
  | .spawn _ => true
  | _ => false

def Act.isDispatch : Act → Bool
  | .dispatch _ => true
  | _ => false

def spawns (trace : List Act) : Nat := trace.countP Act.isSpawn

def dispatches (trace : List Act) : Nat := trace.countP Act.isDispatch

/-- Queues a process can be parked on. -/
def QueueId.Parking : QueueId → Prop
  | .ready | .holding _ => False
  | _ => True

/-- The queue a process belongs on while it is off the processor. -/
def Kernel.place (k : Kernel) (p : Slot) : Option QueueId :=
  match (k.pcb p).status with
  | .embryo | .ready | .sleeping => some .ready
  | .blocked => (k.pcb p).chan
  | .running => none
  | .exited => if unreaped k.trace p then some .ready else none

/-- Queue membership is determined by the process records and by history. -/
structure Coherent (k : Kernel) (L : Lists) (off : Set Slot) : Prop where
  spells : k.links.Spells L
  procs : ∀ p q, Item.pcb p ∈ L q ↔ p ∉ off ∧ k.place p = some q
  parked : ∀ p, (k.pcb p).status = .blocked → ∃ q, (k.pcb p).chan = some q ∧ q.Parking
  locks : ∀ l q, Item.lock l ∈ L q → ∃ p, q = .holding p
  locked : ∀ l, k.lock l = .locked ↔ ∃ p, Item.lock l ∈ L (.holding p)
  held : ∀ p l, Item.lock l ∈ L (.holding p) ↔ holds k.trace p l = true
  running : ∀ p, (k.pcb p).status = .running → p ∈ off
  retired : ∀ p, (k.pcb p).status = .exited → unreaped k.trace p = false → p ∉ off →
    L (.waiting p) = [] ∧ L (.holding p) = []

def Kernel.relink (links : Links Item QueueId) (k : Kernel) : Kernel := { k with links := links }

section
variable (k : Kernel) (links : Links Item QueueId)

@[simp] theorem relink_links : (k.relink links).links = links := rfl
@[simp] theorem relink_pcb : (k.relink links).pcb = k.pcb := rfl
@[simp] theorem relink_lock : (k.relink links).lock = k.lock := rfl
@[simp] theorem relink_count : (k.relink links).count = k.count := rfl
@[simp] theorem relink_barrier : (k.relink links).barrier = k.barrier := rfl
@[simp] theorem relink_kont : (k.relink links).kont = k.kont := rfl
@[simp] theorem relink_trace : (k.relink links).trace = k.trace := rfl
@[simp] theorem relink_current : (k.relink links).currentRunning = k.currentRunning := rfl
@[simp] theorem relink_processId : (k.relink links).processId = k.processId := rfl
@[simp] theorem relink_relink (links' : Links Item QueueId) :
    (k.relink links).relink links' = k.relink links' := rfl

end

variable {k m : Kernel} {L : Lists} {off : Set Slot} {p : Slot} {q : QueueId} {x : Item}
  {rest : List Item} {l : Mutex} {i : Slot}

theorem place_congr (status : (m.pcb p).status = (k.pcb p).status)
    (chan : (m.pcb p).chan = (k.pcb p).chan)
    (reaped : unreaped m.trace p = unreaped k.trace p) : m.place p = k.place p := by
  simp only [Kernel.place, status, chan, reaped]

/-- Fields the queues do not depend on may change freely. -/
theorem Coherent.reframe (c : Coherent k L off) (links : m.links = k.links)
    (lock : m.lock = k.lock) (status : ∀ p, (m.pcb p).status = (k.pcb p).status)
    (chan : ∀ p, (m.pcb p).chan = (k.pcb p).chan)
    (reaped : ∀ p, unreaped m.trace p = unreaped k.trace p)
    (holding : ∀ p l, holds m.trace p l = holds k.trace p l) : Coherent m L off where
  spells := links ▸ c.spells
  procs p q := by rw [c.procs, place_congr (status p) (chan p) (reaped p)]
  parked p := by rw [status, chan]; exact c.parked p
  locks := c.locks
  locked l := by rw [lock]; exact c.locked l
  held p l := by rw [holding]; exact c.held p l
  running p := by rw [status]; exact c.running p
  retired p := by rw [status, reaped]; exact c.retired p

theorem Coherent.no_lock (c : Coherent k L off) (parking : q = .ready ∨ q.Parking) :
    Item.lock l ∉ L q := by
  intro member
  obtain ⟨p, rfl⟩ := c.locks l q member
  simp [QueueId.Parking] at parking

theorem place_not_holding (parking : (k.pcb p).status = .blocked → q.Parking)
    (place : k.place p = some q) : q ≠ .holding i := by
  rintro rfl
  unfold Kernel.place at place
  split at place
  all_goals try simp at place
  next blocked => exact parking blocked

theorem Coherent.no_process (c : Coherent k L off) : Item.pcb p ∉ L (.holding i) := by
  intro member
  have place := ((c.procs _ _).mp member).2
  refine place_not_holding (fun blocked => ?_) place rfl
  obtain ⟨q, chan, parking⟩ := c.parked p blocked
  have same : q = .holding i := by simpa [Kernel.place, blocked, chan] using place
  exact same ▸ parking

/-- Every item of a queue that processes wait on is a process. -/
theorem Coherent.front_process (c : Coherent k L off) (parking : q = .ready ∨ q.Parking)
    (front : L q = x :: rest) : ∃ p, x = .pcb p := by
  cases x with
  | pcb p => exact ⟨p, rfl⟩
  | lock l => exact absurd (by simp [front]) (c.no_lock (l := l) parking)

theorem Coherent.front_lock (c : Coherent k L off) (front : L (.holding p) = x :: rest) :
    ∃ l, x = .lock l := by
  cases x with
  | pcb i => exact absurd (by simp [front]) (c.no_process (p := i) (i := p))
  | lock l => exact ⟨l, rfl⟩

theorem Coherent.off_nowhere (c : Coherent k L off) (inside : p ∈ off) : Item.pcb p ∉ L q :=
  fun member => ((c.procs p q).mp member).1 inside

/-- Whoever is parked somewhere is blocked there. -/
theorem Coherent.waiter (c : Coherent k L off) (parking : q.Parking) (member : Item.pcb p ∈ L q) :
    (k.pcb p).status = .blocked ∧ (k.pcb p).chan = some q := by
  have place := ((c.procs p q).mp member).2
  have elsewhere : some QueueId.ready ≠ some q := by
    rintro same
    obtain rfl := Option.some.inj same
    exact parking
  unfold Kernel.place at place
  split at place
  next => exact absurd place elsewhere
  next => exact absurd place elsewhere
  next => exact absurd place elsewhere
  next blocked => exact ⟨blocked, place⟩
  next => contradiction
  next =>
    split at place
    · exact absurd place elsewhere
    · contradiction

/-- Other links for the same queues. -/
theorem Coherent.respell (c : Coherent k L off) {links : Links Item QueueId}
    (spells : links.Spells L) : Coherent (k.relink links) L off :=
  ⟨spells, c.procs, c.parked, c.locks, c.locked, c.held, c.running, c.retired⟩

/-- Taking a process off its queue, wherever it stands. -/
theorem Coherent.extract (c : Coherent k L off) (member : Item.pcb p ∈ L q)
    {links : Links Item QueueId}
    (spells : links.Spells (Function.update L q ((L q).erase (.pcb p)))) :
    Coherent (k.relink links) (Function.update L q ((L q).erase (.pcb p))) (insert p off) where
  spells := spells
  procs i r := by
    have place : (k.relink links).place i = k.place i := rfl
    have distinct := c.spells.nodup q
    rw [place]
    by_cases same : i = p
    · subst i
      have gone : Item.pcb p ∉ Function.update L q ((L q).erase (.pcb p)) r := by
        by_cases at_q : r = q
        · subst r; simp [distinct.mem_erase_iff]
        · simpa [at_q] using fun inside => at_q (c.spells.apart r q _ inside member)
      simp [gone]
    · have kept : Item.pcb i ∈ Function.update L q ((L q).erase (.pcb p)) r ↔
          Item.pcb i ∈ L r := by
        by_cases at_q : r = q
        · subst r; simp [distinct.mem_erase_iff, same]
        · simp [at_q]
      rw [kept, c.procs]
      simp [same]
  parked := c.parked
  locks l r inside := by
    by_cases at_q : r = q
    · subst r
      rw [Function.update_self] at inside
      exact c.locks l q (List.mem_of_mem_erase inside)
    · exact c.locks l r (by simpa [at_q] using inside)
  locked l := by
    have kept : ∀ i, Item.lock l ∈ Function.update L q ((L q).erase (.pcb p)) (.holding i) ↔
        Item.lock l ∈ L (.holding i) := by
      intro i
      by_cases at_q : QueueId.holding i = q
      · subst q; simp [List.mem_erase_of_ne]
      · simp [at_q]
    simpa [kept] using c.locked l
  held i l := by
    have kept : Item.lock l ∈ Function.update L q ((L q).erase (.pcb p)) (.holding i) ↔
        Item.lock l ∈ L (.holding i) := by
      by_cases at_q : QueueId.holding i = q
      · subst q; simp [List.mem_erase_of_ne]
      · simp [at_q]
    rw [kept]; exact c.held i l
  running i status := Set.mem_insert_of_mem p (c.running i status)
  retired i status reaped outside := by
    have old := c.retired i status reaped (fun inside => outside (Set.mem_insert_of_mem p inside))
    have waiting : QueueId.waiting i ≠ q := by
      rintro rfl; simp [old.1] at member
    have holding : QueueId.holding i ≠ q := by
      rintro rfl; simp [old.2] at member
    simpa [waiting, holding] using old

/-- Taking a process off the front of its queue. -/
theorem Coherent.dequeue (c : Coherent k L off) (front : L q = .pcb p :: rest) :
    Coherent (k.relink (queueDequeue q k.links).2) (Function.update L q rest) (insert p off) := by
  have erased : (L q).erase (.pcb p) = rest := by simp [front]
  have taken := c.extract (p := p) (q := q) (by simp [front])
    (erased.symm ▸ (queueDequeue_cons c.spells front).2)
  rwa [erased] at taken

/-- A process that belongs on no queue may count as one in between. -/
theorem Coherent.vacate (c : Coherent k L off) (nowhere : k.place p = none) :
    Coherent k L (insert p off) where
  spells := c.spells
  procs i q := by
    rw [c.procs]
    by_cases same : i = p <;> simp [same, nowhere]
  parked := c.parked
  locks := c.locks
  locked := c.locked
  held := c.held
  running i status := Set.mem_insert_of_mem p (c.running i status)
  retired i status reaped outside :=
    c.retired i status reaped fun inside => outside (Set.mem_insert_of_mem p inside)

/-- Putting a process back on the queue where its new status says it belongs. -/
theorem Coherent.enqueue (c : Coherent k L off) (inside : p ∈ off)
    (links : m.links = queuePush q (.pcb p) k.links) (lock : m.lock = k.lock)
    (status : ∀ i, i ≠ p → (m.pcb i).status = (k.pcb i).status)
    (chan : ∀ i, i ≠ p → (m.pcb i).chan = (k.pcb i).chan)
    (reaped : ∀ i, i ≠ p → unreaped m.trace i = unreaped k.trace i)
    (holding : ∀ i l, holds m.trace i l = holds k.trace i l)
    (place : m.place p = some q) (parking : (m.pcb p).status = .blocked → q.Parking)
    (attended : ∀ i, q = .waiting i → (m.pcb i).status ≠ .exited) :
    Coherent m (Function.update L q (L q ++ [.pcb p])) (off \ {p}) where
  spells := links ▸ queuePush_spells c.spells (fun r => c.off_nowhere inside)
  procs i r := by
    by_cases same : i = p
    · subst i
      rw [place]
      by_cases at_q : r = q
      · subst r; simp
      · simp [at_q, c.off_nowhere inside, Ne.symm at_q]
    · have kept : Item.pcb i ∈ Function.update L q (L q ++ [Item.pcb p]) r ↔ Item.pcb i ∈ L r := by
        by_cases at_q : r = q
        · subst r; simp [same]
        · simp [at_q]
      rw [kept, c.procs, place_congr (status i same) (chan i same) (reaped i same)]
      simp [same]
  parked i blocked := by
    by_cases same : i = p
    · subst same
      exact ⟨q, by simpa [Kernel.place, blocked] using place, parking blocked⟩
    · rw [status i same] at blocked
      rw [chan i same]
      exact c.parked i blocked
  locks l r member := by
    refine c.locks l r ?_
    by_cases at_q : r = q
    · subst r; simpa using member
    · simpa [at_q] using member
  locked l := by
    have kept : ∀ i, Item.lock l ∈ Function.update L q (L q ++ [Item.pcb p]) (.holding i) ↔
        Item.lock l ∈ L (.holding i) := by
      intro i
      by_cases at_q : QueueId.holding i = q
      · subst q; simp
      · simp [at_q]
    simpa [kept, lock] using c.locked l
  held i l := by
    have kept : Item.lock l ∈ Function.update L q (L q ++ [Item.pcb p]) (.holding i) ↔
        Item.lock l ∈ L (.holding i) := by
      by_cases at_q : QueueId.holding i = q
      · subst q; simp
      · simp [at_q]
    rw [kept, holding]; exact c.held i l
  running i running := by
    have other : i ≠ p := by
      rintro rfl
      simp [Kernel.place, running] at place
    exact ⟨c.running i (status i other ▸ running), other⟩
  retired i exited done outside := by
    by_cases same : i = p
    · subst same
      simp [Kernel.place, exited, done] at place
    · have outside : i ∉ off := fun inside => outside ⟨inside, same⟩
      have old := c.retired i (status i same ▸ exited) (reaped i same ▸ done) outside
      have waiting : QueueId.waiting i ≠ q := fun at_q => attended i at_q.symm exited
      have holding : QueueId.holding i ≠ q := by
        rintro rfl
        exact place_not_holding parking place rfl
      simpa [waiting, holding] using old

end Tina
