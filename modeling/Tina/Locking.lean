import Tina.Dispatch

/-! Giving up the processor, and the critical sections of `kernel/locking`. -/
namespace Tina

open LinkedQueue

variable {k k' : Kernel} {L L' : Lists} {off : Set Slot} {p i : Slot} {q : QueueId}
  {rest : List Item} {l : Mutex} {fuel : Nat} {clk : Word} {kont : Kont}

/-- A record update that neither the queues nor the history notice. -/
theorem Coherent.data (c : Coherent k L off) {m : Kernel} (links : m.links = k.links)
    (pcb : m.pcb = k.pcb) (lock : m.lock = k.lock) (trace : m.trace = k.trace) :
    Coherent m L off :=
  c.reframe links lock (fun _ => by rw [pcb]) (fun _ => by rw [pcb]) (fun _ => by rw [trace])
    (fun _ _ => by rw [trace])

/-- An action that neither kills, reaps, acquires nor releases. -/
def Act.Neutral : Act → Prop
  | .kill _ | .reap _ | .acquire .. | .release .. => False
  | _ => True

theorem unreaped_neutral {a : Act} (neutral : a.Neutral) (trace : List Act) :
    unreaped (a :: trace) i = unreaped trace i := by
  cases a <;> first | rfl | exact neutral.elim

theorem holds_neutral {a : Act} (neutral : a.Neutral) (trace : List Act) :
    holds (a :: trace) i l = holds trace i l := by
  cases a <;> first | rfl | exact neutral.elim

theorem Coherent.record (c : Coherent k L off) (a : Act) (neutral : a.Neutral) :
    Coherent (k.record a) L off :=
  c.reframe rfl rfl (fun _ => rfl) (fun _ => rfl) (fun _ => unreaped_neutral neutral _)
    (fun _ _ => holds_neutral neutral _)

/-- The running process goes to the end of `q`, blocked on it. -/
def parkOn (q : QueueId) (k : Kernel) : Kernel :=
  ((k.setPcb k.currentRunning { k.current with status := .blocked, chan := some q }).push q
    (.pcb k.currentRunning)).record (.block q k.currentRunning)

def parkLists (q : QueueId) (p : Slot) (L : Lists) : Lists :=
  Function.update L q (L q ++ [.pcb p])

theorem parkOn_coherent (c : Coherent k L {k.currentRunning}) (parking : q.Parking)
    (attended : ∀ i, q = .waiting i → i ≠ k.currentRunning ∧ (k.pcb i).status ≠ .exited) :
    Coherent (parkOn q k) (parkLists q k.currentRunning L) ∅ := by
  have moved := c.enqueue (m := parkOn q k) (q := q) (Set.mem_singleton _) rfl rfl
    (fun i other => by simp [parkOn, Kernel.setPcb, Kernel.push, Kernel.record, other])
    (fun i other => by simp [parkOn, Kernel.setPcb, Kernel.push, Kernel.record, other])
    (fun _ _ => rfl) (fun _ _ => rfl)
    (by simp [Kernel.place, parkOn, Kernel.setPcb, Kernel.push, Kernel.record])
    (fun _ => parking)
    (fun i here => by
      have := attended i here
      simp [parkOn, Kernel.setPcb, Kernel.push, Kernel.record, this])
  simpa [parkLists] using moved

/-- `do_block` stores the continuation, parks the process and switches. -/
def blockedOn (q : QueueId) (kont : Kont) (k : Kernel) : Kernel :=
  parkOn q { k with kont := Function.update k.kont k.currentRunning kont }

theorem blockedOn_coherent (c : Coherent k L {k.currentRunning}) (parking : q.Parking)
    (attended : ∀ i, q = .waiting i → i ≠ k.currentRunning ∧ (k.pcb i).status ≠ .exited) :
    Coherent (blockedOn q kont k) (parkLists q k.currentRunning L) ∅ :=
  parkOn_coherent (k := { k with kont := Function.update k.kont k.currentRunning kont })
    (c.data rfl rfl rfl rfl) parking attended

theorem doBlock_spec (c : Coherent k L {k.currentRunning}) (parking : q.Parking)
    (attended : ∀ i, q = .waiting i → i ≠ k.currentRunning ∧ (k.pcb i).status ≠ .exited)
    (result : doBlock fuel clk q kont k = some k') : ∃ L',
    Coherent k' L' {k'.currentRunning} ∧ (k'.pcb k'.currentRunning).status = .running ∧
    k'.kont = Function.update k.kont k.currentRunning kont ∧ Waking (blockedOn q kont k) k' ∧
    (Deserted (blockedOn q kont k) (parkLists q k.currentRunning L) →
      Switched (blockedOn q kont k) (parkLists q k.currentRunning L) k' L') :=
  switch_spec (blockedOn_coherent c parking attended) result

/-- The running process goes to the end of the ready queue, ready or asleep. -/
def yield (v : Pcb) (k : Kernel) : Kernel :=
  (k.setPcb k.currentRunning v).push .ready (.pcb k.currentRunning)

theorem yield_coherent (c : Coherent k L {k.currentRunning}) {v : Pcb}
    (runnable : Runnable v.status) :
    Coherent (yield v k) (parkLists .ready k.currentRunning L) ∅ := by
  have free : v.status ≠ .blocked := by
    intro blocked
    rcases runnable with status | status | status <;> simp [blocked] at status
  have adjusted := c.adjust (Set.mem_singleton _) v free
  exact rotate_coherent adjusted (by simpa [Kernel.setPcb] using runnable)

/-- The running process after `TASK_EXITED` has been stored, with the queues it
leaves to the scheduler. -/
def exiting (k : Kernel) : Kernel := k.setPcb k.currentRunning { k.current with status := .exited }

theorem doExit_eq : doExit fuel clk k = (reap fuel (exiting k)).bind (switch fuel clk) := rfl

theorem exiting_coherent (c : Coherent k L {k.currentRunning}) :
    Coherent (exiting k) L {k.currentRunning} :=
  c.adjust (Set.mem_singleton _) _ (by simp)

theorem doExit_spec (c : Coherent k L {k.currentRunning})
    (result : doExit fuel clk k = some k') : ∃ links L',
    Coherent ((reaped k.currentRunning L (exiting k)).relink links)
      (reapLists k.currentRunning L) ∅ ∧
    Coherent k' L' {k'.currentRunning} ∧ (k'.pcb k'.currentRunning).status = .running ∧
    k'.kont = k.kont ∧ Waking (exiting k) k' ∧
    (Deserted ((reaped k.currentRunning L (exiting k)).relink links)
        (reapLists k.currentRunning L) →
      Switched ((reaped k.currentRunning L (exiting k)).relink links)
        (reapLists k.currentRunning L) k' L') := by
  rw [doExit_eq, Option.bind_eq_some_iff] at result
  obtain ⟨m, reap, switch⟩ := result
  obtain ⟨links, rfl, coherent⟩ := reap_spec (p := k.currentRunning) (exiting_coherent c) rfl
    (Set.mem_singleton _) (by simp [exiting, Kernel.setPcb]) reap
  rw [Set.sdiff_self] at coherent
  obtain ⟨L', next, running, kont, waking, switched⟩ := switch_spec coherent switch
  have same : k'.kont = k.kont := by
    rw [kont, relink_kont, reaped_kont]
    rfl
  have past := (reaped_waking (p := k.currentRunning) (exiting_coherent c)).relink links
  exact ⟨links, L', coherent, next, running, same, past.trans waking, switched⟩

/-- `do_mutex_lock_acquire` past its loop. -/
def lockBy (l : Mutex) (k : Kernel) : Kernel :=
  { k.push (.holding k.currentRunning) (.lock l) with
    lock := Function.update k.lock l .locked }.record (.acquire k.currentRunning l)

def holdLists (p : Slot) (l : Mutex) (L : Lists) : Lists :=
  Function.update L (.holding p) (L (.holding p) ++ [.lock l])

theorem doMutexLockAcquire_free {after : After} (free : k.lock l ≠ .locked) :
    doMutexLockAcquire fuel clk l after k = afterAcquire fuel clk after (lockBy l k) := by
  simp [doMutexLockAcquire, free, lockBy]

theorem doMutexLockAcquire_taken {after : After} (taken : k.lock l = .locked) :
    doMutexLockAcquire fuel clk l after k =
      doBlock fuel clk (.block l) (.acquire l after) k := by
  simp [doMutexLockAcquire, taken]

theorem Coherent.unheld (c : Coherent k L off) (free : k.lock l ≠ .locked) :
    ∀ q, Item.lock l ∉ L q := by
  intro q member
  obtain ⟨p, rfl⟩ := c.locks l q member
  exact free ((c.locked l).mpr ⟨p, member⟩)

theorem lockBy_coherent (c : Coherent k L {k.currentRunning}) (free : k.lock l ≠ .locked) :
    Coherent (lockBy l k) (holdLists k.currentRunning l L) {k.currentRunning} := by
  have unheld := c.unheld free
  generalize running : k.currentRunning = p at *
  have member : ∀ i m, Item.lock m ∈ holdLists p l L (.holding i) ↔
      (p = i ∧ l = m) ∨ Item.lock m ∈ L (.holding i) := by
    intro i m
    by_cases here : i = p
    · subst i; simp [holdLists, or_comm, eq_comm]
    · simp [holdLists, here, Ne.symm here]
  constructor
  · have pushed := queuePush_spells (q := .holding p) c.spells unheld
    simpa [lockBy, Kernel.record, Kernel.push, running, holdLists] using pushed
  · intro i q
    have place : (lockBy l k).place i = k.place i := rfl
    rw [place, ← c.procs]
    by_cases here : q = .holding p
    · subst q; simp [holdLists]
    · simp [holdLists, here]
  · exact c.parked
  · intro m q inside
    by_cases here : q = .holding p
    · exact ⟨p, here⟩
    · exact c.locks m q (by simpa [holdLists, here] using inside)
  · intro m
    by_cases same : m = l
    · subst m
      simp [lockBy, Kernel.record, member]
    · simpa [lockBy, Kernel.record, member, same, Ne.symm same] using c.locked m
  · intro i m
    have trace : holds (lockBy l k).trace i m =
        if p = i ∧ l = m then true else holds k.trace i m := by
      rw [← running]; rfl
    rw [member, trace, c.held]
    by_cases this : p = i ∧ l = m <;> simp [this]
  · exact c.running
  · intro i exited done outside
    have old := c.retired i exited done outside
    have other : i ≠ p := fun same => outside (same ▸ Set.mem_singleton _)
    simpa [holdLists, other] using old

theorem lockBy_tail (c : Coherent k L off) (back : L (.holding p) = rest ++ [.lock l]) :
    Item.lock l ∈ L (.holding p) ∧
      (k.links.head (.holding p) = some (.lock l) ∨ k.links.tail (.holding p) = some (.lock l)) := by
  refine ⟨by simp [back], Or.inr ?_⟩
  rw [c.spells.tail, back]
  simp

/-- The mutex is free again and those who wait for it are woken. -/
def letGo (l : Mutex) (L : Lists) (k : Kernel) : Kernel :=
  wakeAll (.block l) (slots (L (.block l))) (unlock k.currentRunning l k)

theorem letGo_relink (links : Links Item QueueId) :
    letGo l L (k.relink links) = (letGo l L k).relink links := by
  have inner : unlock k.currentRunning l (k.relink links) =
      (unlock k.currentRunning l k).relink links := rfl
  rw [letGo, relink_current, inner, wakeAll_relink]
  rfl

/-- A release of the mutex acquired last: it is the tail of the holding queue. -/
theorem release_last (c : Coherent k L off)
    (back : L (.holding k.currentRunning) = rest ++ [.lock l])
    (result : doMutexLockRelease fuel l k = some k') : ∃ links, k' = (letGo l L k).relink links ∧
      Coherent k' (released (Function.update L (.holding k.currentRunning) rest) (.block l)) off := by
  obtain ⟨member, atEnd⟩ := lockBy_tail c back
  obtain ⟨links, same, coherent⟩ := doMutexLockRelease_spec c member atEnd result
  have distinct := c.spells.nodup (.holding k.currentRunning)
  rw [back] at distinct
  have unseen : Item.lock l ∉ rest :=
    fun inside => (List.nodup_append.mp distinct).2.2 _ inside _ (by simp) rfl
  have erased : (L (.holding k.currentRunning)).erase (.lock l) = rest := by
    simp [back, List.erase_append, unseen]
  exact ⟨links, same, by simpa [releaseLock, erased] using coherent⟩

/-- The first process of `q`, if any, is woken. -/
def wakeFirst (q : QueueId) (L : Lists) (k : Kernel) : Kernel :=
  match slots (L q) with
  | [] => k
  | p :: _ => wake q p k

def firstLists (q : QueueId) (L : Lists) : Lists :=
  match L q with
  | [] => L
  | x :: rest => Function.update (Function.update L q rest) .ready (L .ready ++ [x])

theorem doUnblockOne_spec (c : Coherent k L off) (parking : q.Parking)
    (result : doUnblockOne q k = some k') : ∃ links,
    k' = (wakeFirst q L k).relink links ∧ Coherent k' (firstLists q L) off := by
  rw [doUnblockOne, queueIsEmpty_spells c.spells] at result
  cases front : L q with
  | nil =>
    simp only [front, List.isEmpty_nil, if_true, Option.some.injEq] at result
    subst k'
    exact ⟨k.links, by simp [wakeFirst, front]; rfl, by simpa [firstLists, front] using c⟩
  | cons x rest =>
    obtain ⟨p, rfl⟩ := c.front_process (.inr parking) front
    obtain ⟨links, woken, next⟩ := unblockHead_spec c parking front
    simp only [front, List.isEmpty_cons, Bool.false_eq_true, if_false, woken,
      Option.some.injEq] at result
    subst k'
    exact ⟨links, by simp [wakeFirst, front], by simpa [firstLists, front] using next⟩

@[simp] theorem wakeFirst_current : (wakeFirst q L k).currentRunning = k.currentRunning := by
  unfold wakeFirst
  split <;> rfl

theorem firstLists_of_ne {r : QueueId} (notReady : r ≠ .ready) (other : r ≠ q) :
    firstLists q L r = L r := by
  cases front : L q <;> simp [firstLists, front, notReady, other]

end Tina
