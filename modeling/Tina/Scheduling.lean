import Mathlib.Order.Fin.Basic
import Tina.Coherent

/-! What the functions of `sched.c` do to coherent states. Each result is given
exactly up to the links, whose meaning the new lists carry. -/
namespace Tina

open LinkedQueue

def wake (q : QueueId) (p : Slot) (k : Kernel) : Kernel :=
  (k.setPcb p { k.pcb p with status := .ready, chan := none }).record (.wake q p)

def wakeAll (q : QueueId) (ps : List Slot) (k : Kernel) : Kernel :=
  ps.foldl (fun k p => wake q p k) k

/-- The processes of a queue, in order. -/
def slots (l : List Item) : List Slot :=
  l.filterMap fun x => match x with | .pcb p => some p | .lock _ => none

@[simp] theorem slots_nil : slots [] = [] := rfl
@[simp] theorem slots_cons_pcb (p : Slot) (l : List Item) : slots (.pcb p :: l) = p :: slots l := rfl
@[simp] theorem mem_slots {p : Slot} {l : List Item} : p ∈ slots l ↔ Item.pcb p ∈ l := by
  simp only [slots, List.mem_filterMap]
  constructor
  · rintro ⟨x, member, found⟩
    cases x with
    | pcb i => simp only [Option.some.injEq] at found; exact found ▸ member
    | lock l => simp at found
  · intro member
    exact ⟨_, member, rfl⟩

section
variable (q : QueueId) (p i : Slot) (ps : List Slot) (k : Kernel)

@[simp] theorem wakeAll_nil : wakeAll q [] k = k := rfl
@[simp] theorem wakeAll_cons : wakeAll q (p :: ps) k = wakeAll q ps (wake q p k) := rfl

theorem wakeAll_pcb : (wakeAll q ps k).pcb i =
    if i ∈ ps then { k.pcb i with status := .ready, chan := none } else k.pcb i := by
  induction ps generalizing k with
  | nil => rfl
  | cons p ps ih =>
    rw [wakeAll_cons, ih]
    by_cases same : i = p <;> simp [wake, Kernel.setPcb, Kernel.record, same]

theorem wakeAll_trace : (wakeAll q ps k).trace = (ps.map (Act.wake q)).reverse ++ k.trace := by
  induction ps generalizing k with
  | nil => rfl
  | cons p ps ih => simp [ih, wake, Kernel.setPcb, Kernel.record]

theorem wakeAll_relink (links : Links Item QueueId) :
    wakeAll q ps (k.relink links) = (wakeAll q ps k).relink links := by
  induction ps generalizing k with
  | nil => rfl
  | cons p ps ih => exact ih (wake q p k)

theorem wakeAll_data : (wakeAll q ps k).links = k.links ∧ (wakeAll q ps k).lock = k.lock ∧
    (wakeAll q ps k).count = k.count ∧ (wakeAll q ps k).barrier = k.barrier ∧
    (wakeAll q ps k).kont = k.kont ∧ (wakeAll q ps k).currentRunning = k.currentRunning ∧
    (wakeAll q ps k).processId = k.processId := by
  induction ps generalizing k with
  | nil => simp
  | cons p ps ih =>
    rw [wakeAll_cons]
    simpa [wake, Kernel.setPcb, Kernel.record] using ih (wake q p k)

@[simp] theorem wakeAll_links : (wakeAll q ps k).links = k.links := (wakeAll_data q ps k).1
@[simp] theorem wakeAll_lock : (wakeAll q ps k).lock = k.lock := (wakeAll_data q ps k).2.1
@[simp] theorem wakeAll_count : (wakeAll q ps k).count = k.count := (wakeAll_data q ps k).2.2.1
@[simp] theorem wakeAll_barrier : (wakeAll q ps k).barrier = k.barrier :=
  (wakeAll_data q ps k).2.2.2.1
@[simp] theorem wakeAll_kont : (wakeAll q ps k).kont = k.kont := (wakeAll_data q ps k).2.2.2.2.1
@[simp] theorem wakeAll_current : (wakeAll q ps k).currentRunning = k.currentRunning :=
  (wakeAll_data q ps k).2.2.2.2.2.1
@[simp] theorem wakeAll_processId : (wakeAll q ps k).processId = k.processId :=
  (wakeAll_data q ps k).2.2.2.2.2.2

@[simp] theorem unreaped_wakes (trace : List Act) :
    unreaped ((ps.map (Act.wake q)).reverse ++ trace) i = unreaped trace i := by
  induction ps generalizing trace with
  | nil => rfl
  | cons p ps ih => simpa [unreaped] using ih (.wake q p :: trace)

end

variable {k k' : Kernel} {L : Lists} {off : Set Slot} {p : Slot} {q : QueueId} {x : Item}
  {rest : List Item} {l : Mutex} {i : Slot} {fuel : Nat}

/-- The lists after everybody on `q` has been moved to the back of the ready queue. -/
def released (L : Lists) (q : QueueId) : Lists :=
  Function.update (Function.update L q []) .ready (L .ready ++ L q)

theorem parking_ne_ready (parking : q.Parking) : q ≠ .ready := by rintro rfl; exact parking

theorem unblockHead_spec (c : Coherent k L off) (parking : q.Parking)
    (front : L q = .pcb p :: rest) : ∃ links,
    unblockHead q k = some ((wake q p k).relink links) ∧
    Coherent ((wake q p k).relink links)
      (Function.update (Function.update L q rest) .ready (L .ready ++ [.pcb p])) off := by
  have notReady := parking_ne_ready parking
  have outside : p ∉ off := ((c.procs p q).mp (by simp [front])).1
  have dequeued := queueDequeue_cons c.spells front
  refine ⟨queuePush .ready (.pcb p) (queueDequeue q k.links).2, ?_, ?_⟩
  · have pair : queueDequeue q k.links = (some (.pcb p), (queueDequeue q k.links).2) := by
      rw [← dequeued.1]
    rw [unblockHead, pair]
    rfl
  · have moved := (c.dequeue front).enqueue (m := (wake q p k).relink
      (queuePush .ready (.pcb p) (queueDequeue q k.links).2)) (q := .ready) (p := p)
      (Set.mem_insert p off) rfl rfl
      (by intro i other; simp [wake, Kernel.setPcb, Kernel.record, other])
      (by intro i other; simp [wake, Kernel.setPcb, Kernel.record, other])
      (fun _ _ => rfl) (fun _ _ => rfl)
      (by simp [Kernel.place, wake, Kernel.setPcb, Kernel.record])
      (by simp [wake, Kernel.setPcb, Kernel.record]) (by simp)
    rw [Set.insert_sdiff_self_of_notMem outside] at moved
    simpa [Ne.symm notReady] using moved

theorem released_nil (empty : L q = []) : released L q = L := by
  funext r
  by_cases ready : r = .ready
  · subst r; simp [released, empty]
  · by_cases at_q : r = q
    · subst r; simp [released, ready, empty]
    · simp [released, ready, at_q]

theorem released_step (notReady : q ≠ .ready) (front : L q = x :: rest) :
    released (Function.update (Function.update L q rest) .ready (L .ready ++ [x])) q =
      released L q := by
  funext r
  by_cases ready : r = .ready
  · subst r; simp [released, notReady, front]
  · by_cases at_q : r = q
    · subst r; simp [released, ready]
    · simp [released, ready, at_q]

theorem doUnblockAll_spec (c : Coherent k L off) (parking : q.Parking)
    (result : doUnblockAll fuel q k = some k') : ∃ links,
    k' = (wakeAll q (slots (L q)) k).relink links ∧ Coherent k' (released L q) off := by
  induction fuel generalizing k L with
  | zero => simp [doUnblockAll] at result
  | succ fuel ih =>
    rw [doUnblockAll, queueIsEmpty_spells c.spells] at result
    cases front : L q with
    | nil =>
      simp only [front, List.isEmpty_nil, if_true, Option.some.injEq] at result
      subst k'
      exact ⟨k.links, rfl, (released_nil front).symm ▸ c⟩
    | cons x rest =>
      obtain ⟨p, rfl⟩ := c.front_process (.inr parking) front
      obtain ⟨links, woken, next⟩ := unblockHead_spec c parking front
      have notReady := parking_ne_ready parking
      simp only [front, List.isEmpty_cons, woken, Option.bind_eq_bind, Option.bind_some,
        Bool.false_eq_true, if_false] at result
      obtain ⟨links', same, coherent⟩ := ih next result
      rw [released_step notReady front] at coherent
      have remaining : slots (Function.update (Function.update L q rest) .ready
          (L .ready ++ [.pcb p]) q) = slots rest := by simp [notReady]
      refine ⟨links', ?_, coherent⟩
      rw [same, remaining]
      rw [wakeAll_relink]; rfl

/-- The record of a mutex after `do_mutex_lock_release` by `p`, before the wake-ups. -/
def unlock (p : Slot) (l : Mutex) (k : Kernel) : Kernel :=
  { k with lock := Function.update k.lock l .unlocked }.record (.release p l)

/-- Losing a mutex: the link surgery is whatever leaves the holding list without it. -/
theorem Coherent.unlock (c : Coherent k L off) (member : Item.lock l ∈ L (.holding p))
    {links : Links Item QueueId} (spells : links.Spells
      (Function.update L (.holding p) ((L (.holding p)).erase (.lock l)))) :
    Coherent ((unlock p l k).relink links)
      (Function.update L (.holding p) ((L (.holding p)).erase (.lock l))) off where
  spells := spells
  procs i q := by
    have place : ((Tina.unlock p l k).relink links).place i = k.place i := rfl
    rw [place, ← c.procs]
    by_cases here : q = .holding p
    · subst q; simp [List.mem_erase_of_ne]
    · simp [here]
  parked := c.parked
  locks m q inside := by
    refine c.locks m q ?_
    by_cases here : q = .holding p
    · subst q; exact List.mem_of_mem_erase (by simpa using inside)
    · simpa [here] using inside
  locked m := by
    have nodup := c.spells.nodup (.holding p)
    by_cases same : m = l
    · subst m
      have nobody : ∀ i, Item.lock l ∉ Function.update L (.holding p)
          ((L (.holding p)).erase (.lock l)) (.holding i) := by
        intro i inside
        by_cases here : i = p
        · subst i; exact (nodup.mem_erase_iff.mp (by simpa using inside)).1 rfl
        · have other : Item.lock l ∈ L (.holding i) := by simpa [here] using inside
          exact here (by simpa using c.spells.apart _ _ _ other member)
      simp [Tina.unlock, Kernel.record, nobody]
    · have kept : ∀ i, Item.lock m ∈ Function.update L (.holding p)
          ((L (.holding p)).erase (.lock l)) (.holding i) ↔ Item.lock m ∈ L (.holding i) := by
        intro i
        by_cases here : i = p
        · subst i; simp [List.mem_erase_of_ne, same]
        · simp [here]
      simpa [Tina.unlock, Kernel.record, same, kept] using c.locked m
  held i m := by
    have nodup := c.spells.nodup (.holding p)
    have same : holds ((Tina.unlock p l k).relink links).trace i m =
        if p = i ∧ l = m then false else holds k.trace i m := rfl
    rw [same]
    by_cases here : i = p
    · subst i
      by_cases this : l = m
      · subst m
        simp [nodup.mem_erase_iff]
      · have other : Item.lock m ≠ Item.lock l := by simpa using Ne.symm this
        simpa [List.mem_erase_of_ne other, this] using c.held p m
    · simpa [here, Ne.symm here] using c.held i m
  running := c.running
  retired i exited done outside := by
    have old := c.retired i exited done outside
    by_cases here : i = p
    · subst i; simp [old.2] at member
    · simpa [here] using old

/-- A release by the holder, seen through the lists. -/
def releaseLock (L : Lists) (p : Slot) (l : Mutex) : Lists :=
  released (Function.update L (.holding p) ((L (.holding p)).erase (.lock l))) (.block l)

theorem doMutexLockRelease_spec (c : Coherent k L off)
    (member : Item.lock l ∈ L (.holding k.currentRunning))
    (atEnd : k.links.head (.holding k.currentRunning) = some (.lock l) ∨
      k.links.tail (.holding k.currentRunning) = some (.lock l))
    (result : doMutexLockRelease fuel l k = some k') : ∃ links,
    k' = (wakeAll (.block l) (slots (L (.block l))) (unlock k.currentRunning l k)).relink links ∧
    Coherent k' (releaseLock L k.currentRunning l) off := by
  simp only [doMutexLockRelease, Option.bind_eq_bind, Option.bind_eq_some_iff] at result
  obtain ⟨has, test, result⟩ := result
  have has : has = true := by rw [queueHas_spells c.spells test]; simpa using member
  simp only [has, if_true] at result
  have unlocked := c.unlock member (queueRemove_spells (.pcb 0) c.spells atEnd)
  obtain ⟨links, same, coherent⟩ := doUnblockAll_spec (q := .block l) unlocked trivial result
  refine ⟨links, ?_, coherent⟩
  rw [same, wakeAll_relink]
  simp

theorem released_of_ne {r : QueueId} (notReady : r ≠ .ready) (other : r ≠ q) :
    released L q r = L r := by simp [released, notReady, other]

theorem released_self (parking : q.Parking) : released L q q = [] := by
  simp [released, parking_ne_ready parking]

/-- The mutexes of a holding queue, in order. -/
def mutexes (l : List Item) : List Mutex :=
  l.filterMap fun x => match x with | .lock l => some l | .pcb _ => none

@[simp] theorem mutexes_nil : mutexes [] = [] := rfl
@[simp] theorem mutexes_cons_lock (m : Mutex) (l : List Item) :
    mutexes (.lock m :: l) = m :: mutexes l := rfl
@[simp] theorem mem_mutexes {m : Mutex} {l : List Item} : m ∈ mutexes l ↔ Item.lock m ∈ l := by
  simp only [mutexes, List.mem_filterMap]
  constructor
  · rintro ⟨x, member, found⟩
    cases x with
    | pcb i => simp at found
    | lock i => simp only [Option.some.injEq] at found; exact found ▸ member
  · intro member
    exact ⟨_, member, rfl⟩

/-- Draining a holding queue: one release after the other, each waking those who
wait for that mutex. -/
def dropAll (p : Slot) : List Mutex → Lists → Kernel → Kernel
  | [], _, k => k
  | l :: ls, L, k =>
    dropAll p ls (releaseLock L p l) (wakeAll (.block l) (slots (L (.block l))) (unlock p l k))

def dropLists (p : Slot) : List Mutex → Lists → Lists
  | [], L => L
  | l :: ls, L => dropLists p ls (releaseLock L p l)

theorem dropAll_relink (ls : List Mutex) (links : Links Item QueueId) :
    dropAll p ls L (k.relink links) = (dropAll p ls L k).relink links := by
  induction ls generalizing L k with
  | nil => rfl
  | cons l ls ih =>
    have inner : unlock p l (k.relink links) = (unlock p l k).relink links := rfl
    rw [dropAll, inner, wakeAll_relink, ih]
    rfl

theorem releaseLock_holding (front : L (.holding p) = .lock l :: rest) :
    releaseLock L p l (.holding p) = rest := by
  simp [releaseLock, released, front]

/-- A mutex that the scheduler has already dequeued is released without surgery. -/
theorem releaseDequeued_spec (c : Coherent k L off)
    (front : L (.holding k.currentRunning) = .lock l :: rest)
    (result : doMutexLockRelease fuel l
      (k.relink (queueDequeue (.holding k.currentRunning) k.links).2) = some k') : ∃ links,
    k' = (wakeAll (.block l) (slots (L (.block l))) (unlock k.currentRunning l k)).relink links ∧
    Coherent k' (releaseLock L k.currentRunning l) off := by
  have dequeued := queueDequeue_cons c.spells front
  have nodup := c.spells.nodup (.holding k.currentRunning)
  rw [front, List.nodup_cons] at nodup
  simp only [doMutexLockRelease, Option.bind_eq_bind, Option.bind_eq_some_iff] at result
  obtain ⟨has, test, result⟩ := result
  have absent : has = false := by
    rw [queueHas_spells dequeued.2 test]
    simpa using nodup.1
  simp only [absent, Bool.false_eq_true, if_false] at result
  have erased : (L (.holding k.currentRunning)).erase (.lock l) = rest := by simp [front]
  have unlocked := c.unlock (p := k.currentRunning) (l := l) (by simp [front])
    (erased.symm ▸ dequeued.2)
  obtain ⟨links, same, coherent⟩ := doUnblockAll_spec (q := .block l) unlocked trivial result
  refine ⟨links, ?_, coherent⟩
  rw [same, wakeAll_relink]
  simp

theorem drainHolding_spec (c : Coherent k L off) (running : k.currentRunning = p)
    (result : drainHolding fuel k = some k') : ∃ links,
    k' = (dropAll p (mutexes (L (.holding p))) L k).relink links ∧
    Coherent k' (dropLists p (mutexes (L (.holding p))) L) off := by
  induction fuel generalizing k L with
  | zero => simp [drainHolding] at result
  | succ fuel ih =>
    rw [drainHolding, queueIsEmpty_spells c.spells] at result
    subst p
    cases front : L (.holding k.currentRunning) with
    | nil =>
      simp only [front, List.isEmpty_nil, if_true, Option.some.injEq] at result
      subst k'
      exact ⟨k.links, rfl, c⟩
    | cons x rest =>
      obtain ⟨l, rfl⟩ := c.front_lock front
      have pair : queueDequeue (.holding k.currentRunning) k.links =
          (some (.lock l), (queueDequeue (.holding k.currentRunning) k.links).2) := by
        rw [← (queueDequeue_cons c.spells front).1]
      simp only [front, List.isEmpty_cons, Bool.false_eq_true, if_false] at result
      rw [pair] at result
      simp only [Option.bind_eq_bind, Option.bind_eq_some_iff] at result
      obtain ⟨next, release, result⟩ := result
      obtain ⟨links, rfl, coherent⟩ := releaseDequeued_spec c front release
      obtain ⟨links', same, done⟩ := ih coherent (by simp [unlock, Kernel.record]) result
      rw [releaseLock_holding front] at same done
      refine ⟨links', ?_, done⟩
      rw [same, dropAll_relink]
      rfl

theorem dropAll_data (ls : List Mutex) :
    (dropAll p ls L k).links = k.links ∧ (dropAll p ls L k).count = k.count ∧
    (dropAll p ls L k).barrier = k.barrier ∧ (dropAll p ls L k).kont = k.kont ∧
    (dropAll p ls L k).currentRunning = k.currentRunning ∧
    (dropAll p ls L k).processId = k.processId := by
  induction ls generalizing L k with
  | nil => simp [dropAll]
  | cons l ls ih =>
    have rest := @ih
      (wakeAll (.block l) (slots (L (.block l))) (unlock p l k)) (releaseLock L p l)
    simpa [dropAll, unlock, Kernel.record] using rest

theorem dropAll_lock (ls : List Mutex) (m : Mutex) :
    (dropAll p ls L k).lock m = if m ∈ ls then .unlocked else k.lock m := by
  induction ls generalizing L k with
  | nil => simp [dropAll]
  | cons l ls ih =>
    rw [dropAll, ih]
    by_cases later : m ∈ ls
    · simp [later]
    · by_cases same : m = l <;> simp [later, same, unlock, Kernel.record]

theorem dropAll_pcb (ls : List Mutex) :
    (dropAll p ls L k).pcb i = if ∃ l ∈ ls, Item.pcb i ∈ L (.block l) then
      { k.pcb i with status := .ready, chan := none } else k.pcb i := by
  induction ls generalizing L k with
  | nil => simp [dropAll]
  | cons l ls ih =>
    rw [dropAll, ih, wakeAll_pcb]
    have record : (unlock p l k).pcb i = k.pcb i := rfl
    have blocked : ∀ m, releaseLock L p l (.block m) = if m = l then [] else L (.block m) := by
      intro m
      by_cases same : m = l
      · subst m; simp [releaseLock, released]
      · simp [releaseLock, released, same]
    simp only [blocked, record, mem_slots, List.mem_cons, exists_eq_or_imp]
    by_cases first : Item.pcb i ∈ L (.block l)
    · simp [first]
    · have agree : (∃ m ∈ ls, Item.pcb i ∈ if m = l then [] else L (.block m)) ↔
          ∃ m ∈ ls, Item.pcb i ∈ L (.block m) := by
        refine exists_congr fun m => and_congr_right fun _ => ?_
        by_cases same : m = l <;> simp [same, first]
      simp only [agree, first, false_or, if_false]

theorem dropAll_unreaped (ls : List Mutex) :
    unreaped (dropAll p ls L k).trace i = unreaped k.trace i := by
  induction ls generalizing L k with
  | nil => rfl
  | cons l ls ih =>
    rw [dropAll, ih, wakeAll_trace, unreaped_wakes]
    rfl

/-- Only releases by `p` and the wake-ups they cause. -/
theorem dropAll_trace (ls : List Mutex) : ∃ new, (dropAll p ls L k).trace = new ++ k.trace ∧
    ∀ a ∈ new, (∃ l, a = .release p l) ∨ ∃ l i, a = .wake (.block l) i := by
  induction ls generalizing L k with
  | nil => exact ⟨[], rfl, by simp⟩
  | cons l ls ih =>
    obtain ⟨new, trace, kinds⟩ := @ih
      (wakeAll (.block l) (slots (L (.block l))) (unlock p l k)) (releaseLock L p l)
    rw [wakeAll_trace] at trace
    refine ⟨new ++ ((slots (L (.block l))).map (Act.wake (.block l))).reverse ++ [.release p l],
      by simpa [dropAll, unlock, Kernel.record] using trace, ?_⟩
    intro a member
    simp only [List.mem_append, List.mem_reverse, List.mem_map, List.mem_singleton] at member
    rcases member with (inside | ⟨i, _, rfl⟩) | rfl
    · exact kinds a inside
    · exact Or.inr ⟨l, i, rfl⟩
    · exact Or.inl ⟨l, rfl⟩

theorem dropLists_of_ne (ls : List Mutex) {r : QueueId} (notReady : r ≠ .ready)
    (notHolding : r ≠ .holding p) (notBlock : ∀ l ∈ ls, r ≠ .block l) :
    dropLists p ls L r = L r := by
  induction ls generalizing L with
  | nil => rfl
  | cons l ls ih =>
    rw [dropLists, ih fun m member => notBlock m (by simp [member]), releaseLock,
      released_of_ne notReady (notBlock l (by simp))]
    simp [notHolding]

theorem dropLists_holding (ls : List Mutex) (front : L (.holding p) = ls.map .lock) :
    dropLists p ls L (.holding p) = [] := by
  induction ls generalizing L with
  | nil => exact front
  | cons l ls ih => exact ih (releaseLock_holding front)

theorem holding_mutexes (c : Coherent k L off) :
    L (.holding p) = (mutexes (L (.holding p))).map .lock := by
  have all : ∀ x ∈ L (.holding p), ∃ l, x = .lock l := by
    intro x member
    cases x with
    | pcb i => exact absurd member c.no_process
    | lock l => exact ⟨l, rfl⟩
  generalize L (.holding p) = items at all
  induction items with
  | nil => rfl
  | cons x items ih =>
    obtain ⟨l, rfl⟩ := all x (by simp)
    rw [mutexes_cons_lock, List.map_cons, ← ih fun y member => all y (by simp [member])]

/-- Everything a process leaves behind when it is reaped. -/
def reaped (p : Slot) (L : Lists) (k : Kernel) : Kernel :=
  (dropAll p (mutexes (L (.holding p))) (released L (.waiting p))
    (wakeAll (.waiting p) (slots (L (.waiting p))) k)).record (.reap p)

def reapLists (p : Slot) (L : Lists) : Lists :=
  dropLists p (mutexes (L (.holding p))) (released L (.waiting p))

/-- Once its queues are empty, a killed process is merely a free slot. -/
theorem Coherent.retire (c : Coherent k L off) (inside : p ∈ off)
    (exited : (k.pcb p).status = .exited) (waiting : L (.waiting p) = [])
    (holding : L (.holding p) = []) : Coherent (k.record (.reap p)) L (off \ {p}) where
  spells := c.spells
  procs i q := by
    by_cases same : i = p
    · subst i
      have nowhere : (k.record (.reap p)).place p = none := by
        simp [Kernel.place, Kernel.record, exited, unreaped]
      simp [nowhere, c.off_nowhere inside]
    · have place : (k.record (.reap p)).place i = k.place i :=
        place_congr rfl rfl (by simp [Kernel.record, unreaped, Ne.symm same])
      rw [place, c.procs]
      simp [same]
  parked := c.parked
  locks := c.locks
  locked := c.locked
  held := c.held
  running i status := by
    refine ⟨c.running i status, ?_⟩
    rintro rfl
    simp [Kernel.record, exited] at status
  retired i status done outside := by
    by_cases same : i = p
    · subst i; exact ⟨waiting, holding⟩
    · exact c.retired i status (by simpa [Kernel.record, unreaped, Ne.symm same] using done)
        fun member => outside ⟨member, same⟩

theorem reap_spec (c : Coherent k L off) (running : k.currentRunning = p) (inside : p ∈ off)
    (exited : (k.pcb p).status = .exited) (result : reap fuel k = some k') : ∃ links,
    k' = (reaped p L k).relink links ∧ Coherent k' (reapLists p L) (off \ {p}) := by
  simp only [reap, Option.bind_eq_bind, Option.bind_eq_some_iff, Option.some.injEq] at result
  obtain ⟨woken, first, drained, second, rfl⟩ := result
  rw [running] at first
  obtain ⟨links, rfl, c₁⟩ := doUnblockAll_spec (q := .waiting p) c trivial first
  obtain ⟨links', rfl, c₂⟩ := drainHolding_spec c₁ (by simpa using running) second
  have holding : released L (.waiting p) (.holding p) = L (.holding p) :=
    released_of_ne (by simp) (by simp)
  have front := holding_mutexes (p := p) c₁
  rw [holding] at c₂ front
  have current : ((dropAll p (mutexes (L (.holding p))) (released L (.waiting p))
      ((wakeAll (.waiting p) (slots (L (.waiting p))) k).relink links)).relink links').currentRunning
        = p := by simp [(dropAll_data _).2.2.2.2.1, running]
  have away : ∀ q, Item.pcb p ∉ L q := fun q => c.off_nowhere inside
  have status : ((dropAll p (mutexes (L (.holding p))) (released L (.waiting p))
      ((wakeAll (.waiting p) (slots (L (.waiting p))) k).relink links)).relink links').pcb p
        = k.pcb p := by
    rw [relink_pcb, dropAll_pcb, relink_pcb, wakeAll_pcb]
    have nowhere : ∀ q, Item.pcb p ∉ released L (.waiting p) q := fun q => c₁.off_nowhere inside
    simp [nowhere, away]
  have done := c₂.retire inside (by rw [status]; exact exited)
    (by
      rw [dropLists_of_ne _ (by simp) (by simp) (by simp)]
      exact released_self trivial)
    (dropLists_holding _ (holding.trans front))
  rw [holding, current]
  refine ⟨links', ?_, done⟩
  rw [dropAll_relink]
  rfl

theorem reaped_kont : (reaped p L k).kont = k.kont := by
  simp [reaped, Kernel.record, (dropAll_data _).2.2.2.1]

/-- What no call but `spawn` and `kill` ever changes: the process identifiers, and
that a free slot stays free. A killed process may still come back on its own. -/
structure Onward (k m : Kernel) : Prop where
  processId : m.processId = k.processId
  pid : ∀ p, (m.pcb p).pid = (k.pcb p).pid
  spawned : spawns m.trace = spawns k.trace
  killed : ∀ p, unreaped m.trace p = true → unreaped k.trace p = true
  live : ∀ p, (m.pcb p).status ≠ .exited →
    (k.pcb p).status ≠ .exited ∨ unreaped k.trace p = true

theorem Onward.trans {n : Kernel} (first : Onward k k') (second : Onward k' n) : Onward k n where
  processId := second.processId.trans first.processId
  pid p := (second.pid p).trans (first.pid p)
  spawned := second.spawned.trans first.spawned
  killed p reaped := first.killed p (second.killed p reaped)
  live p status := by
    rcases second.live p status with live | reaped
    · exact first.live p live
    · exact Or.inr (first.killed p reaped)

theorem Onward.relink (onward : Onward k k') (links : Links Item QueueId) :
    Onward k (k'.relink links) :=
  ⟨onward.processId, onward.pid, onward.spawned, onward.killed, onward.live⟩

/-- Only blocked processes have a channel, as long as no slot is used twice. -/
def Clean (k : Kernel) : Prop :=
  ∀ p, (k.pcb p).status ≠ .exited → (k.pcb p).chan ≠ none → (k.pcb p).status = .blocked

/-- Once the running process has left, the others are only ever woken. -/
structure Waking (k m : Kernel) : Prop extends Onward k m where
  woken : ∀ p, ((m.pcb p).status = (k.pcb p).status ∧ (m.pcb p).chan = (k.pcb p).chan) ∨
    (m.pcb p).status = .ready ∨ (m.pcb p).status = .running
  clean : Clean k → Clean m

theorem Waking.trans {n : Kernel} (first : Waking k k') (second : Waking k' n) : Waking k n where
  toOnward := first.toOnward.trans second.toOnward
  woken p := by
    rcases second.woken p with ⟨status, chan⟩ | woken
    · rw [status, chan]
      exact first.woken p
    · exact Or.inr woken
  clean tidy := second.clean (first.clean tidy)

theorem Waking.relink (waking : Waking k k') (links : Links Item QueueId) :
    Waking k (k'.relink links) :=
  ⟨waking.toOnward.relink links, waking.woken, waking.clean⟩

theorem spawns_wakes (ps : List Slot) (trace : List Act) :
    spawns ((ps.map (Act.wake q)).reverse ++ trace) = spawns trace := by
  simp [spawns, Function.comp_def, Act.isSpawn]

theorem dropAll_spawns (ls : List Mutex) :
    spawns (dropAll p ls L k).trace = spawns k.trace := by
  induction ls generalizing L k with
  | nil => rfl
  | cons l ls ih =>
    rw [dropAll, ih, wakeAll_trace, spawns_wakes]
    rfl

theorem unreaped_reaped : unreaped (reaped p L k).trace i =
    if p = i then false else unreaped k.trace i := by
  simp only [reaped, Kernel.record, unreaped, dropAll_unreaped, wakeAll_trace, unreaped_wakes]

/-- Reaping wakes blocked processes only. -/
theorem reaped_onward (c : Coherent k L off) : Onward k (reaped p L k) where
  processId := by simp [reaped, Kernel.record, (dropAll_data _).2.2.2.2.2]
  pid i := by
    simp only [reaped, Kernel.record, dropAll_pcb, wakeAll_pcb]
    split <;> split <;> rfl
  spawned := by
    simp only [reaped, Kernel.record]
    change spawns (dropAll _ _ _ _).trace = _
    rw [dropAll_spawns, wakeAll_trace, spawns_wakes]
  killed i := by
    rw [unreaped_reaped]
    split <;> simp
  live i status := by
    refine Or.inl fun exited => status ?_
    have blocked : ∀ q, q.Parking → Item.pcb i ∉ L q := by
      intro q parking member
      have := (c.waiter parking member).1
      simp [exited] at this
    have woken : ∀ m, Item.pcb i ∉ released L (.waiting p) (.block m) := by
      intro m
      rw [released_of_ne (by simp) (by simp)]
      exact blocked _ trivial
    simp [reaped, Kernel.record, dropAll_pcb, wakeAll_pcb, woken, blocked (.waiting p) trivial,
      exited]

theorem reaped_waking (c : Coherent k L off) : Waking k (reaped p L k) where
  toOnward := reaped_onward c
  woken i := by
    simp only [reaped, Kernel.record, dropAll_pcb, wakeAll_pcb]
    split <;> split <;> simp
  clean tidy i := by
    simp only [reaped, Kernel.record, dropAll_pcb, wakeAll_pcb]
    split
    · simp
    · split
      · simp
      · exact tidy i

end Tina
