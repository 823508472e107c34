import Mathlib.Data.List.Rotate
import Tina.Fuel
import Tina.Ownership
import Tina.Recycling
import Tina.Selection

/-! The order in which the selection loop takes processes. Nothing is asked of the state but
that the queues are chains and hold what they are for. -/
namespace Tina

open LinkedQueue Fuel

variable {k k' : Kernel} {L L' : Lists} {p i : Slot} {q : QueueId} {x : Item} {l : Mutex}
  {rest pre : List Item} {ls : List Mutex} {fuel : Nat} {clk : Word}

/-- Every item of the list is a process. -/
def Processes (items : List Item) : Prop := ∀ x ∈ items, ∃ p, x = .pcb p

/-- Every item of the list is a mutex. -/
def Mutexes (items : List Item) : Prop := ∀ x ∈ items, ∃ l, x = .lock l

theorem unblockHead_chain (s : k.links.Spells L) (notReady : q ≠ .ready)
    (front : L q = .pcb p :: rest) : ∃ links,
    unblockHead q k = some ((wake q p k).relink links) ∧ links.Spells
      (Function.update (Function.update L q rest) .ready (L .ready ++ [.pcb p])) := by
  obtain ⟨first, dequeued⟩ := queueDequeue_cons s front
  have gone : ∀ r, Item.pcb p ∉ Function.update L q rest r := by
    intro r inside
    by_cases here : r = q
    · subst r
      have distinct := s.nodup q
      rw [front, List.nodup_cons] at distinct
      exact distinct.1 (by simpa using inside)
    · exact here (s.apart r q _ (by simpa [here] using inside) (by simp [front]))
  refine ⟨queuePush .ready (.pcb p) (queueDequeue q k.links).2, ?_, ?_⟩
  · have pair : queueDequeue q k.links = (some (.pcb p), (queueDequeue q k.links).2) := by
      rw [← first]
    rw [unblockHead, pair]
    rfl
  · have pushed := queuePush_spells (q := .ready) dequeued gone
    rwa [Function.update_of_ne (Ne.symm notReady)] at pushed

/-- Everybody on the queue goes to the back of the ready queue, in order. -/
theorem doUnblockAll_chain (s : k.links.Spells L) (notReady : q ≠ .ready)
    (procs : Processes (L q)) : ∃ links,
    Returns (fun fuel => doUnblockAll fuel q k) ((wakeAll q (slots (L q)) k).relink links) ∧
    links.Spells (released L q) := by
  generalize waiting : L q = items at procs
  induction items generalizing k L with
  | nil =>
    refine ⟨k.links, (Returns.now k).round fun fuel => ?_, (released_nil waiting).symm ▸ s⟩
    rw [doUnblockAll, queueIsEmpty_spells s, waiting]
    rfl
  | cons x items ih =>
    obtain ⟨p, rfl⟩ := procs x (by simp)
    obtain ⟨links, woken, next⟩ := unblockHead_chain s notReady waiting
    obtain ⟨links', returns, spells⟩ := ih (k := (wake q p k).relink links) next
      (by simp [notReady]) (fun y inside => procs y (by simp [inside]))
    rw [released_step notReady waiting] at spells
    refine ⟨links', ?_, spells⟩
    rw [wakeAll_relink] at returns
    refine returns.round fun fuel => ?_
    rw [doUnblockAll, queueIsEmpty_spells s, waiting, woken]
    rfl

/-- A mutex that has been taken off its holder is unlocked, and who waits for it is woken. -/
theorem releaseDequeued_chain (s : k.links.Spells L)
    (front : L (.holding k.currentRunning) = .lock l :: rest) (procs : Processes (L (.block l))) :
    ∃ links, Returns (fun fuel => doMutexLockRelease fuel l
        (k.relink (queueDequeue (.holding k.currentRunning) k.links).2))
      ((wakeAll (.block l) (slots (L (.block l))) (unlock k.currentRunning l k)).relink links) ∧
    links.Spells (releaseLock L k.currentRunning l) := by
  have distinct := s.nodup (.holding k.currentRunning)
  rw [front, List.nodup_cons] at distinct
  obtain ⟨-, dequeued⟩ := queueDequeue_cons s front
  have lists : Function.update L (.holding k.currentRunning) rest =
      Function.update L (.holding k.currentRunning)
        ((L (.holding k.currentRunning)).erase (.lock l)) := by
    rw [front, List.erase_cons_head]
  have test : Returns (fun fuel => queueHas fuel (.holding k.currentRunning) (.lock l)
      (queueDequeue (.holding k.currentRunning) k.links).2) false := by
    refine ⟨rest.length + 1, fun fuel enough => ?_⟩
    refine (queueHas_returns dequeued (by rw [Function.update_self]; omega)).trans ?_
    rw [Function.update_self, decide_eq_false distinct.1]
  have unlocked : ((unlock k.currentRunning l k).relink
      (queueDequeue (.holding k.currentRunning) k.links).2).links.Spells
        (Function.update L (.holding k.currentRunning) rest) := dequeued
  obtain ⟨links, woken, spells⟩ := doUnblockAll_chain (q := .block l) unlocked (by simp)
    (by simpa using procs)
  rw [wakeAll_relink, relink_relink, Function.update_of_ne (by simp)] at woken
  rw [lists] at spells
  exact ⟨links, test.bind woken, spells⟩

theorem releaseLock_block (m : Mutex) :
    releaseLock L p l (.block m) = if m = l then [] else L (.block m) := by
  by_cases same : m = l
  · subst m; simp [releaseLock, released]
  · simp [releaseLock, released, same]

theorem releaseLock_block_processes {m : Mutex} (procs : Processes (L (.block m))) :
    Processes (releaseLock L p l (.block m)) := by
  rw [releaseLock_block]
  split
  · exact fun x inside => by cases inside
  · exact procs

theorem drainHolding_chain (s : k.links.Spells L) (running : k.currentRunning = p)
    (holding : L (.holding p) = ls.map .lock)
    (procs : ∀ l ∈ ls, Processes (L (.block l))) : ∃ links,
    Returns (fun fuel => drainHolding fuel k) ((dropAll p ls L k).relink links) ∧
    links.Spells (dropLists p ls L) := by
  induction ls generalizing k L with
  | nil =>
    subst p
    refine ⟨k.links, (Returns.now k).round fun fuel => ?_, s⟩
    rw [drainHolding, queueIsEmpty_spells s, holding]
    rfl
  | cons l ls ih =>
    have front : L (.holding k.currentRunning) = .lock l :: ls.map .lock := running ▸ holding
    obtain ⟨links, release, next⟩ := releaseDequeued_chain s front (procs l (by simp))
    rw [running] at next
    obtain ⟨links', rest, spells⟩ := ih (k := (wakeAll (.block l) (slots (L (.block l)))
      (unlock p l k)).relink links) (L := releaseLock L p l) next
      (by simpa [unlock, Kernel.record] using running) (releaseLock_holding holding)
      (fun m inside => releaseLock_block_processes (procs m (by simp [inside])))
    rw [dropAll_relink] at rest
    refine ⟨links', ?_, spells⟩
    rw [← running] at rest ⊢
    refine (release.bind rest).round fun fuel => ?_
    have pair : queueDequeue (.holding k.currentRunning) k.links =
        (some (.lock l), (queueDequeue (.holding k.currentRunning) k.links).2) := by
      rw [← (queueDequeue_cons s front).1]
    rw [drainHolding, queueIsEmpty_spells s, front]
    simp only [List.isEmpty_cons, Bool.false_eq_true, if_false]
    rw [pair]
    rfl

/-- What is asked of the queues of a process that is to be reaped. -/
structure Reapable (L : Lists) (p : Slot) : Prop where
  waiting : Processes (L (.waiting p))
  holding : Mutexes (L (.holding p))
  blocks : ∀ l, Item.lock l ∈ L (.holding p) → Processes (L (.block l))

theorem Mutexes.spelled {items : List Item} (locks : Mutexes items) :
    items = (mutexes items).map .lock := by
  induction items with
  | nil => rfl
  | cons x items ih =>
    obtain ⟨l, rfl⟩ := locks x (by simp)
    rw [mutexes_cons_lock, List.map_cons, ← ih fun y inside => locks y (by simp [inside])]

theorem reap_chain (s : k.links.Spells L) (running : k.currentRunning = p)
    (reapable : Reapable L p) : ∃ links,
    Returns (fun fuel => reap fuel k) ((reaped p L k).relink links) ∧
    links.Spells (reapLists p L) := by
  obtain ⟨links, woken, waited⟩ := doUnblockAll_chain (q := .waiting p) s (by simp)
    reapable.waiting
  have holding : released L (.waiting p) (.holding p) = (mutexes (L (.holding p))).map .lock := by
    rw [released_of_ne (by simp) (by simp)]
    exact reapable.holding.spelled
  obtain ⟨links', drained, spells⟩ := drainHolding_chain (p := p)
    (k := (wakeAll (.waiting p) (slots (L (.waiting p))) k).relink links) waited
    (by simpa using running) holding fun l inside => by
      rw [released_of_ne (by simp) (by simp)]
      exact reapable.blocks l (mem_mutexes.mp inside)
  rw [dropAll_relink] at drained
  have current : (dropAll p (mutexes (L (.holding p))) (released L (.waiting p))
      (wakeAll (.waiting p) (slots (L (.waiting p))) k)).currentRunning = p := by
    rw [(dropAll_data _).2.2.2.2.1, wakeAll_current, running]
  refine ⟨links', ?_, spells⟩
  have unfolded : ∀ fuel, reap fuel k = (doUnblockAll fuel (.waiting p) k).bind fun k =>
      (drainHolding fuel k).bind fun k => some (k.record (.reap k.currentRunning)) := by
    subst p
    exact fun _ => rfl
  simp only [unfolded]
  refine woken.bind (drained.bind ?_)
  rw [relink_current, relink_current, current]
  exact Returns.now _

/-! The lists after a process has been reaped. -/

theorem dropLists_block (m : Mutex) :
    dropLists p ls L (.block m) = if m ∈ ls then [] else L (.block m) := by
  induction ls generalizing L with
  | nil => rfl
  | cons l ls ih =>
    rw [dropLists, ih, releaseLock_block]
    by_cases later : m ∈ ls
    · simp [later]
    · by_cases same : m = l <;> simp [later, same]

theorem dropLists_ready (distinct : ls.Nodup) :
    dropLists p ls L .ready = L .ready ++ ls.flatMap fun l => L (.block l) := by
  induction ls generalizing L with
  | nil => simp [dropLists]
  | cons l ls ih =>
    obtain ⟨first, distinct⟩ := List.nodup_cons.mp distinct
    have others : (ls.flatMap fun m => releaseLock L p l (.block m)) =
        ls.flatMap fun m => L (.block m) := by
      refine List.flatMap_congr fun m inside => ?_
      rw [releaseLock_block, if_neg fun same : m = l => first (same ▸ inside)]
    have ready : releaseLock L p l .ready = L .ready ++ L (.block l) := by
      simp [releaseLock, released]
    rw [dropLists, ih distinct, others, ready, List.flatMap_cons, List.append_assoc]

theorem mutexes_nodup {items : List Item} (locks : Mutexes items) (distinct : items.Nodup) :
    (mutexes items).Nodup := by
  rw [locks.spelled] at distinct
  exact distinct.of_map

/-- Those who wait for `p` to end or for its mutexes, in the order in which they are woken. -/
def wokenBy (L : Lists) (p : Slot) : List Item :=
  L (.waiting p) ++ (mutexes (L (.holding p))).flatMap fun l => L (.block l)

theorem reapLists_ready (s : k.links.Spells L) (reapable : Reapable L p) :
    reapLists p L .ready = L .ready ++ wokenBy L p := by
  have others : ((mutexes (L (.holding p))).flatMap fun l => released L (.waiting p) (.block l)) =
      (mutexes (L (.holding p))).flatMap fun l => L (.block l) :=
    List.flatMap_congr fun l _ => released_of_ne (by simp) (by simp)
  have first : released L (.waiting p) .ready = L .ready ++ L (.waiting p) := by simp [released]
  rw [reapLists, dropLists_ready (mutexes_nodup reapable.holding (s.nodup _)), others, first,
    wokenBy, List.append_assoc]

/-- The queues that are emptied when `p` is reaped. -/
def Drained (L : Lists) (p : Slot) (q : QueueId) : Prop :=
  q = .waiting p ∨ q = .holding p ∨ ∃ l, Item.lock l ∈ L (.holding p) ∧ q = .block l

theorem reapLists_left (reapable : Reapable L p) (left : Drained L p q) : reapLists p L q = [] := by
  rcases left with rfl | rfl | ⟨l, held, rfl⟩
  · rw [reapLists, dropLists_of_ne _ (by simp) (by simp) (by simp)]
    exact released_self trivial
  · refine dropLists_holding _ ?_
    rw [released_of_ne (by simp) (by simp)]
    exact reapable.holding.spelled
  · rw [reapLists, dropLists_block, if_pos (mem_mutexes.mpr held)]

theorem reapLists_kept (notReady : q ≠ .ready) (kept : ¬Drained L p q) : reapLists p L q = L q := by
  simp only [Drained, not_or, not_exists, not_and] at kept
  rw [reapLists, dropLists_of_ne _ notReady kept.2.1 fun l inside =>
    kept.2.2 l (mem_mutexes.mp inside)]
  exact released_of_ne notReady kept.1

theorem mem_wokenBy : Item.pcb i ∈ wokenBy L p ↔ Woken L p i := by
  simp only [wokenBy, Woken, List.mem_append, List.mem_flatMap, mem_mutexes]
  exact or_comm

theorem reaped_pcb (woken : Woken L p i) :
    (reaped p L k).pcb i = { k.pcb i with status := .ready, chan := none } := by
  simp only [reaped, Kernel.record, dropAll_pcb, wakeAll_pcb, mem_slots]
  by_cases waits : Item.pcb i ∈ L (.waiting p)
  · simp [waits]
  · simp only [waits, if_false]
    rw [if_pos (woken_locked.mpr (woken.resolve_right waits))]

/-! One round of the selection loop. -/

/-- A ready queue that the loop can work on: everybody on it may run, sleeps or has been
killed, and the queues of the killed ones hold what they are for. -/
structure Lined (k : Kernel) (L : Lists) : Prop where
  spells : k.links.Spells L
  members : ∀ x ∈ L .ready, ∃ i, x = .pcb i ∧
    (Runnable (k.pcb i).status ∨ (k.pcb i).status = .exited)
  killed : ∀ i, Item.pcb i ∈ L .ready → (k.pcb i).status = .exited → Reapable L i

/-- What goes to the back of the ready queue when the loop passes `i`. -/
def requeued (k : Kernel) (L : Lists) (i : Slot) : List Item :=
  if (k.pcb i).status = .exited then wokenBy L i else [.pcb i]

/-- Killed and passed. -/
def Culled (k : Kernel) (pre : List Slot) (j : Slot) : Prop :=
  j ∈ pre ∧ (k.pcb j).status = .exited

/-- What has happened when the loop has passed `pre`; it has not yet looked at `rest`. -/
structure Passed (k : Kernel) (L : Lists) (pre : List Slot) (rest : List Item) (k' : Kernel)
    (L' : Lists) : Prop where
  spells : k'.links.Spells L'
  ready : L' .ready = rest ++ pre.flatMap (requeued k L)
  woken : ∀ i j, Culled k pre j → Woken L j i →
    k'.pcb i = { k.pcb i with status := .ready, chan := none }
  asleep : ∀ i, (∀ j, Culled k pre j → ¬Woken L j i) → k'.pcb i = k.pcb i
  unlocked : ∀ j l, Culled k pre j → Item.lock l ∈ L (.holding j) → k'.lock l = .unlocked
  locked : ∀ l, (∀ j, Culled k pre j → Item.lock l ∉ L (.holding j)) → k'.lock l = k.lock l
  left : ∀ j q, Culled k pre j → Drained L j q → L' q = []
  kept : ∀ q, q ≠ .ready → (∀ j, Culled k pre j → ¬Drained L j q) → L' q = L q
  count : k'.count = k.count
  barrier : k'.barrier = k.barrier
  kont : k'.kont = k.kont
  processId : k'.processId = k.processId
  time : k'.timeElapsed = k.timeElapsed
  cursor : k'.screenCursorX = k.screenCursorX ∧ k'.screenCursorY = k.screenCursorY

variable {j : Slot} {pre : List Slot} {tail : List Item} {k₁ m : Kernel} {L₁ M : Lists}

theorem passed_nil (s : k.links.Spells L) : Passed k L [] (L .ready) k L where
  spells := s
  ready := by simp
  woken i j culled := by cases culled.1
  asleep _ _ := rfl
  unlocked j l culled := by cases culled.1
  locked _ _ := rfl
  left j q culled := by cases culled.1
  kept _ _ _ := rfl
  count := rfl
  barrier := rfl
  kont := rfl
  processId := rfl
  time := rfl
  cursor := ⟨rfl, rfl⟩

/-- Whoever is on the ready queue waits for nobody. -/
theorem ready_not_woken (s : k.links.Spells L) (inside : Item.pcb i ∈ L .ready) :
    ¬Woken L j i := by
  rintro (⟨l, _, waits⟩ | waits)
  · cases s.apart _ _ _ inside waits
  · cases s.apart _ _ _ inside waits

theorem Drained.unique (s : k.links.Spells L) (one : Drained L i q) (two : Drained L j q) :
    i = j := by
  rcases one with rfl | rfl | ⟨l, held, rfl⟩ <;>
    simp only [Drained, reduceCtorEq, QueueId.waiting.injEq, QueueId.holding.injEq,
      QueueId.block.injEq, false_or, or_false, and_false, exists_false] at two
  · exact two
  · exact two
  · obtain ⟨m, held', rfl⟩ := two
    simpa using s.apart _ _ _ held held'

theorem Drained.not_ready (left : Drained L j .ready) : False := by
  simp [Drained] at left

section Compose

variable {behind : List Item} (s : k.links.Spells L) (first : Passed k L [i] behind k₁ L₁)

include s first

/-- The queues of the others are as they were. -/
theorem Passed.others (other : j ≠ i) (left : Drained L j q) : L₁ q = L q := by
  refine first.kept q (fun same => ?_) fun x culled taken => ?_
  · subst q
    exact left.not_ready
  · obtain rfl : x = i := List.mem_singleton.mp culled.1
    exact other (left.unique s taken)

theorem Passed.held (other : j ≠ i) : L₁ (.holding j) = L (.holding j) :=
  first.others s other (Or.inr (Or.inl rfl))

theorem Passed.left_iff (other : j ≠ i) : Drained L₁ j q ↔ Drained L j q := by
  rw [Drained, first.held s other]
  rfl

theorem Passed.woken_iff (other : j ≠ i) {p : Slot} : Woken L₁ j p ↔ Woken L j p := by
  rw [Woken, Woken, first.held s other, first.others s other (q := .waiting j) (Or.inl rfl)]
  refine or_congr (exists_congr fun l => and_congr_right fun held => ?_) Iff.rfl
  rw [first.others s other (Or.inr (Or.inr ⟨l, held, rfl⟩))]

theorem Passed.wokenBy_eq (other : j ≠ i) : wokenBy L₁ j = wokenBy L j := by
  rw [wokenBy, wokenBy, first.held s other, first.others s other (q := .waiting j) (Or.inl rfl)]
  refine congrArg _ (List.flatMap_congr fun l held => ?_)
  exact first.others s other (Or.inr (Or.inr ⟨l, mem_mutexes.mp held, rfl⟩))

theorem Passed.pcb_ready (inside : Item.pcb j ∈ L .ready) : k₁.pcb j = k.pcb j :=
  first.asleep j fun _ _ => ready_not_woken s inside

theorem Passed.requeued_eq (other : j ≠ i) (inside : Item.pcb j ∈ L .ready) :
    requeued k₁ L₁ j = requeued k L j := by
  rw [requeued, requeued, first.pcb_ready s inside, first.wokenBy_eq s other]

/-- Who is passed in two rounds: the one of the first, and those of the others. -/
theorem Passed.culled_iff (queue : L .ready = .pcb i :: pre.map .pcb ++ tail) :
    (Culled k (i :: pre) j ↔ Culled k [i] j ∨ Culled k₁ pre j) ∧
      (Culled k₁ pre j → j ≠ i) := by
  have distinct := s.nodup .ready
  rw [queue, List.cons_append, List.nodup_cons] at distinct
  have other : j ∈ pre → j ≠ i := by
    rintro inside rfl
    exact distinct.1 (by simp [inside])
  have same : j ∈ pre → (k₁.pcb j).status = (k.pcb j).status := by
    intro inside
    rw [first.pcb_ready s (by simp [queue, inside])]
  refine ⟨?_, fun culled => other culled.1⟩
  simp only [Culled, List.mem_cons, List.not_mem_nil, or_false, or_and_right]
  exact or_congr Iff.rfl (and_congr_right fun inside => by rw [same inside])

theorem Passed.cons (queue : L .ready = .pcb i :: pre.map .pcb ++ tail)
    (second : Passed k₁ L₁ pre (tail ++ requeued k L i) m M) :
    Passed k L (i :: pre) tail m M := by
  have split := fun j => first.culled_iff (j := j) s queue
  constructor
  · exact second.spells
  · have others : pre.flatMap (requeued k₁ L₁) = pre.flatMap (requeued k L) := by
      refine List.flatMap_congr fun j inside => ?_
      have distinct := s.nodup .ready
      rw [queue, List.cons_append, List.nodup_cons] at distinct
      refine first.requeued_eq s ?_ (by simp [queue, inside])
      rintro rfl
      exact distinct.1 (by simp [inside])
    rw [second.ready, others, List.flatMap_cons, List.append_assoc]
  · intro i' j culled woken
    have twice : k₁.pcb i' = k.pcb i' ∨
        k₁.pcb i' = { k.pcb i' with status := .ready, chan := none } := by
      by_cases early : ∃ j, Culled k [i] j ∧ Woken L j i'
      · obtain ⟨j, culled, woken⟩ := early
        exact Or.inr (first.woken i' j culled woken)
      · exact Or.inl (first.asleep i' fun j culled woken => early ⟨j, culled, woken⟩)
    rcases (split j).1.mp culled with one | two
    · by_cases again : ∃ j, Culled k₁ pre j ∧ Woken L₁ j i'
      · obtain ⟨j, culled, woken⟩ := again
        rw [second.woken i' j culled woken]
        rcases twice with same | same <;> rw [same]
      · rw [second.asleep i' fun j culled woken => again ⟨j, culled, woken⟩]
        exact first.woken i' j one woken
    · rw [second.woken i' j two ((first.woken_iff s ((split j).2 two)).mpr woken)]
      rcases twice with same | same <;> rw [same]
  · intro i' stays
    rw [second.asleep i' fun j culled woken => stays j ((split j).1.mpr (Or.inr culled))
      ((first.woken_iff s ((split j).2 culled)).mp woken)]
    exact first.asleep i' fun j culled => stays j ((split j).1.mpr (Or.inl culled))
  · intro j l culled held
    rcases (split j).1.mp culled with one | two
    · by_cases again : ∃ j, Culled k₁ pre j ∧ Item.lock l ∈ L₁ (.holding j)
      · obtain ⟨j, culled, held⟩ := again
        exact second.unlocked j l culled held
      · rw [second.locked l fun j culled held => again ⟨j, culled, held⟩]
        exact first.unlocked j l one held
    · exact second.unlocked j l two (by rwa [first.held s ((split j).2 two)])
  · intro l free
    rw [second.locked l fun j culled held => free j ((split j).1.mpr (Or.inr culled))
      (by rwa [← first.held s ((split j).2 culled)])]
    exact first.locked l fun j culled => free j ((split j).1.mpr (Or.inl culled))
  · intro j q culled left
    rcases (split j).1.mp culled with one | two
    · by_cases again : ∃ j, Culled k₁ pre j ∧ Drained L₁ j q
      · obtain ⟨j, culled, left⟩ := again
        exact second.left j q culled left
      · rw [second.kept q (fun same => (same ▸ left).not_ready)
          fun j culled left => again ⟨j, culled, left⟩]
        exact first.left j q one left
    · exact second.left j q two ((first.left_iff s ((split j).2 two)).mpr left)
  · intro q notReady stays
    rw [second.kept q notReady fun j culled left => stays j ((split j).1.mpr (Or.inr culled))
      ((first.left_iff s ((split j).2 culled)).mp left)]
    exact first.kept q notReady fun j culled => stays j ((split j).1.mpr (Or.inl culled))
  · exact second.count.trans first.count
  · exact second.barrier.trans first.barrier
  · exact second.kont.trans first.kont
  · exact second.processId.trans first.processId
  · exact second.time.trans first.time
  · exact ⟨second.cursor.1.trans first.cursor.1, second.cursor.2.trans first.cursor.2⟩

end Compose

theorem Passed.lined (lined : Lined k L) (queue : L .ready = .pcb i :: tail)
    (first : Passed k L [i] tail k₁ L₁) : Lined k₁ L₁ := by
  have distinct := lined.spells.nodup .ready
  rw [queue, List.nodup_cons] at distinct
  have old : ∀ {j}, Item.pcb j ∈ tail → j ≠ i ∧ Item.pcb j ∈ L .ready := by
    refine fun inside => ⟨fun same => distinct.1 (same ▸ inside), ?_⟩
    rw [queue]
    exact List.mem_cons_of_mem _ inside
  have member : Item.pcb i ∈ L .ready := by simp [queue]
  have ready : L₁ .ready = tail ++ requeued k L i := by simpa using first.ready
  obtain ⟨i', same, status⟩ := lined.members _ member
  obtain rfl : i = i' := by simpa using same
  -- what is requeued is on a queue of the killed process, or is the sleeper itself
  have back : ∀ x ∈ requeued k L i, ∃ j, x = .pcb j ∧ Runnable (k₁.pcb j).status := by
    intro x inside
    rw [requeued] at inside
    split at inside
    next exited =>
      have procs : Processes (wokenBy L i) := by
        have reapable := lined.killed i member exited
        intro y waits
        rcases List.mem_append.mp waits with waits | waits
        · exact reapable.waiting y waits
        · obtain ⟨l, held, waits⟩ := List.mem_flatMap.mp waits
          exact reapable.blocks l (mem_mutexes.mp held) y waits
      obtain ⟨j, rfl⟩ := procs x inside
      have woken := first.woken j i ⟨List.mem_singleton_self i, exited⟩ (mem_wokenBy.mp inside)
      exact ⟨j, rfl, by rw [woken]; exact Or.inr (Or.inr rfl)⟩
    next live =>
      obtain rfl := List.mem_singleton.mp inside
      refine ⟨i, rfl, ?_⟩
      rw [first.pcb_ready lined.spells member]
      exact status.resolve_right live
  refine ⟨first.spells, fun x inside => ?_, fun j inside exited => ?_⟩
  · rw [ready, List.mem_append] at inside
    rcases inside with inside | inside
    · obtain ⟨j, rfl, status⟩ := lined.members x (by simp [queue, inside])
      refine ⟨j, rfl, ?_⟩
      rwa [first.pcb_ready lined.spells (old inside).2]
    · obtain ⟨j, rfl, runnable⟩ := back x inside
      exact ⟨j, rfl, Or.inl runnable⟩
  · rw [ready, List.mem_append] at inside
    rcases inside with inside | inside
    · obtain ⟨other, inside⟩ := old inside
      rw [first.pcb_ready lined.spells inside] at exited
      have reapable := lined.killed j inside exited
      refine ⟨?_, ?_, fun l held => ?_⟩
      · rw [first.others lined.spells other (q := .waiting j) (Or.inl rfl)]
        exact reapable.waiting
      · rw [first.held lined.spells other]
        exact reapable.holding
      · rw [first.held lined.spells other] at held
        rw [first.others lined.spells other (Or.inr (Or.inr ⟨l, held, rfl⟩))]
        exact reapable.blocks l held
    · obtain ⟨i', same, runnable⟩ := back _ inside
      obtain rfl : j = i' := by simpa using same
      rw [exited] at runnable
      simp [Runnable] at runnable

/-- A sleeper whose time has not come goes to the back. -/
theorem pass_sleeper (lined : Lined k L) (queue : L .ready = .pcb i :: tail)
    (runnable : Runnable (k.pcb i).status) (early : ¬Selectable k i) :
    ∃ k₁ L₁, Passed k L [i] tail k₁ L₁ ∧
      ∀ k', Returns (fun fuel => select fuel k₁) k' → Returns (fun fuel => select fuel k) k' := by
  have live : (k.pcb i).status ≠ .exited := by
    intro exited
    rw [exited] at runnable
    simp [Runnable] at runnable
  have nobody : ∀ {j}, ¬Culled k [i] j := by
    rintro j ⟨inside, exited⟩
    obtain rfl : j = i := List.mem_singleton.mp inside
    exact live exited
  obtain ⟨-, dequeued⟩ := queueDequeue_cons lined.spells queue
  have distinct := lined.spells.nodup .ready
  rw [queue, List.nodup_cons] at distinct
  have gone : ∀ r, Item.pcb i ∉ Function.update L .ready tail r := by
    intro r inside
    by_cases ready : r = .ready
    · subst r
      exact distinct.1 (by simpa using inside)
    · exact ready (lined.spells.apart r .ready _ (by simpa [ready] using inside) (by simp [queue]))
  have pushed := queuePush_spells (q := .ready) dequeued gone
  rw [Function.update_self, Function.update_idem] at pushed
  refine ⟨(taken i k).push .ready (.pcb i), _, ⟨pushed, ?_, ?_, ?_, ?_, ?_, ?_, ?_, rfl, rfl, rfl,
    rfl, rfl, rfl, rfl⟩, fun k' later => later.round fun fuel => ?_⟩
  · simp [requeued, live]
  · exact fun _ _ culled => absurd culled nobody
  · exact fun _ _ => rfl
  · exact fun _ _ culled => absurd culled nobody
  · exact fun _ _ => rfl
  · exact fun _ _ culled => absurd culled nobody
  · exact fun q notReady _ => Function.update_of_ne notReady _ _
  · exact select_rotates lined.spells queue runnable early

theorem wakeAll_cursor (ps : List Slot) :
    (wakeAll q ps k).screenCursorX = k.screenCursorX ∧
      (wakeAll q ps k).screenCursorY = k.screenCursorY := by
  induction ps generalizing k with
  | nil => exact ⟨rfl, rfl⟩
  | cons p ps ih => exact ih

theorem dropAll_cursor (ls : List Mutex) :
    (dropAll p ls L k).screenCursorX = k.screenCursorX ∧
      (dropAll p ls L k).screenCursorY = k.screenCursorY := by
  induction ls generalizing L k with
  | nil => exact ⟨rfl, rfl⟩
  | cons l ls ih =>
    have woken := wakeAll_cursor (q := .block l) (slots (L (.block l))) (k := unlock p l k)
    exact ⟨ih.1.trans woken.1, ih.2.trans woken.2⟩

theorem reaped_data : (reaped p L k).count = k.count ∧ (reaped p L k).barrier = k.barrier ∧
    (reaped p L k).processId = k.processId ∧
    (reaped p L k).screenCursorX = k.screenCursorX ∧
    (reaped p L k).screenCursorY = k.screenCursorY := by
  have woken := wakeAll_cursor (q := .waiting p) (slots (L (.waiting p))) (k := k)
  have dropped := @dropAll_cursor (wakeAll (.waiting p) (slots (L (.waiting p))) k)
    (released L (.waiting p)) p (mutexes (L (.holding p)))
  refine ⟨?_, ?_, ?_, dropped.1.trans woken.1, dropped.2.trans woken.2⟩ <;>
    simp [reaped, Kernel.record, dropAll_data]

/-- A killed process is reaped. -/
theorem pass_killed (lined : Lined k L) (queue : L .ready = .pcb i :: tail)
    (exited : (k.pcb i).status = .exited) :
    ∃ k₁ L₁, Passed k L [i] tail k₁ L₁ ∧
      ∀ k', Returns (fun fuel => select fuel k₁) k' → Returns (fun fuel => select fuel k) k' := by
  have reapable := lined.killed i (by simp [queue]) exited
  obtain ⟨-, dequeued⟩ := queueDequeue_cons lined.spells queue
  have others : ∀ {q}, q ≠ .ready → Function.update L .ready tail q = L q :=
    fun notReady => Function.update_of_ne notReady _ _
  have held : Function.update L .ready tail (.holding i) = L (.holding i) := others (by simp)
  have waiting : Function.update L .ready tail (.waiting i) = L (.waiting i) := others (by simp)
  have blocks : ∀ l, Function.update L .ready tail (.block l) = L (.block l) :=
    fun l => others (by simp)
  have reapable' : Reapable (Function.update L .ready tail) i := by
    refine ⟨waiting ▸ reapable.waiting, held ▸ reapable.holding, fun l inside => ?_⟩
    rw [blocks]
    exact reapable.blocks l (held ▸ inside)
  have wokenSame : ∀ {j}, Woken (Function.update L .ready tail) i j ↔ Woken L i j := by
    intro j
    simp only [Woken, held, waiting, blocks]
  have drainedSame : ∀ {q}, Drained (Function.update L .ready tail) i q ↔ Drained L i q := by
    intro q
    simp only [Drained, held]
  obtain ⟨links, reap, spells⟩ := reap_chain (k := taken i k) (p := i) dequeued rfl reapable'
  obtain ⟨count, barrier, processId, cursorX, cursorY⟩ :=
    @reaped_data (taken i k) (Function.update L .ready tail) i
  have own : Culled k [i] i := ⟨List.mem_singleton_self i, exited⟩
  have only : ∀ {j}, Culled k [i] j → j = i := fun culled => List.mem_singleton.mp culled.1
  refine ⟨(reaped i (Function.update L .ready tail) (taken i k)).relink links, _, ⟨spells, ?_, ?_,
    ?_, ?_, ?_, ?_, ?_, count, barrier, ?_, processId, ?_, ⟨cursorX, cursorY⟩⟩,
    fun k' later => (reap.bind later).round fun fuel => ?_⟩
  · have woken : wokenBy (Function.update L .ready tail) i = wokenBy L i := by
      simp only [wokenBy, held, waiting, blocks]
    rw [reapLists_ready (k := taken i k) dequeued reapable', woken, Function.update_self]
    simp [requeued, exited]
  · intro j x culled woken
    obtain rfl := only culled
    exact reaped_pcb (k := taken x k) (wokenSame.mpr woken)
  · intro j stays
    exact reaped_asleep (k := taken i k) fun woken => stays i own (wokenSame.mp woken)
  · intro x l culled inside
    obtain rfl := only culled
    rw [relink_lock, reaped_lock, held, if_pos (mem_mutexes.mpr inside)]
  · intro l free
    rw [relink_lock, reaped_lock, held, if_neg fun inside => free i own (mem_mutexes.mp inside)]
    rfl
  · intro x q culled drained
    obtain rfl := only culled
    exact reapLists_left reapable' (drainedSame.mpr drained)
  · intro q notReady stays
    rw [reapLists_kept notReady fun drained => stays i own (drainedSame.mp drained)]
    exact others notReady
  · exact reaped_kont
  · exact reaped_time
  · exact select_killed lined.spells queue exited

theorem Passed.selectable_iff (s : k.links.Spells L) (first : Passed k L [i] tail k₁ L₁)
    (inside : Item.pcb j ∈ L .ready) : Selectable k₁ j ↔ Selectable k j := by
  simp only [Selectable, getTimer, first.pcb_ready s inside, first.time]

/-- The loop passes everybody whom it cannot take. -/
theorem select_passes (lined : Lined k L) (queue : L .ready = pre.map .pcb ++ tail)
    (early : ∀ i ∈ pre, ¬Selectable k i) : ∃ m M, Passed k L pre tail m M ∧
      ∀ k', Returns (fun fuel => select fuel m) k' → Returns (fun fuel => select fuel k) k' := by
  induction pre generalizing k L tail with
  | nil =>
    have same : L .ready = tail := queue
    exact ⟨k, L, same ▸ passed_nil lined.spells, fun _ => id⟩
  | cons i pre ih =>
    have front : L .ready = .pcb i :: (pre.map .pcb ++ tail) := queue
    have member : Item.pcb i ∈ L .ready := by simp [front]
    have round : ∃ k₁ L₁, Passed k L [i] (pre.map .pcb ++ tail) k₁ L₁ ∧ ∀ k',
        Returns (fun fuel => select fuel k₁) k' → Returns (fun fuel => select fuel k) k' := by
      obtain ⟨i', same, status⟩ := lined.members _ member
      obtain rfl : i = i' := by simpa using same
      rcases status with runnable | exited
      · exact pass_sleeper lined front runnable (early i (by simp))
      · exact pass_killed lined front exited
    obtain ⟨k₁, L₁, first, later⟩ := round
    have ready : L₁ .ready = pre.map .pcb ++ (tail ++ requeued k L i) := by
      simpa using first.ready
    obtain ⟨m, M, second, onward⟩ := ih (first.lined lined front) ready fun j inside => by
      rw [first.selectable_iff lined.spells (by simp [front, inside])]
      exact early j (by simp [inside])
    exact ⟨m, M, first.cons lined.spells queue second,
      fun k' returns => later k' (onward k' returns)⟩

/-- The outcome of the selection loop, when `p` is the first process it can take. -/
structure Chosen (k : Kernel) (L : Lists) (pre : List Slot) (p : Slot) (rest : List Item)
    (k' : Kernel) (L' : Lists) : Prop where
  spells : k'.links.Spells L'
  current : k'.currentRunning = p
  taken : k'.pcb p = { k.pcb p with status := .ready }
  ready : L' .ready = rest ++ pre.flatMap (requeued k L)
  woken : ∀ i j, Culled k pre j → Woken L j i →
    k'.pcb i = { k.pcb i with status := .ready, chan := none }
  asleep : ∀ i, i ≠ p → (∀ j, Culled k pre j → ¬Woken L j i) → k'.pcb i = k.pcb i
  unlocked : ∀ j l, Culled k pre j → Item.lock l ∈ L (.holding j) → k'.lock l = .unlocked
  locked : ∀ l, (∀ j, Culled k pre j → Item.lock l ∉ L (.holding j)) → k'.lock l = k.lock l
  drained : ∀ j q, Culled k pre j → Drained L j q → L' q = []
  kept : ∀ q, q ≠ .ready → (∀ j, Culled k pre j → ¬Drained L j q) → L' q = L q
  present : ∀ i, (∃ q, Item.pcb i ∈ L' q) ↔
    (∃ q, Item.pcb i ∈ L q) ∧ i ≠ p ∧ ¬Culled k pre i
  count : k'.count = k.count
  barrier : k'.barrier = k.barrier
  kont : k'.kont = k.kont
  processId : k'.processId = k.processId
  time : k'.timeElapsed = k.timeElapsed
  cursor : k'.screenCursorX = k.screenCursorX ∧ k'.screenCursorY = k.screenCursorY

/-- What the loop does when it takes the process at the front. -/
theorem select_front (s : k.links.Spells L) (front : L .ready = .pcb p :: rest)
    (selectable : Selectable k p) : Returns (fun fuel => select fuel k)
      ((taken p k).setPcb p { k.pcb p with status := .ready }) :=
  (Returns.now _).round fun _ => select_takes s front selectable

/-- Nobody but the killed is lost, and nobody appears. -/
theorem Passed.present (lined : Lined k L) (queue : L .ready = pre.map .pcb ++ tail)
    (passed : Passed k L pre tail m M) :
    (∃ q, Item.pcb i ∈ M q) ↔ (∃ q, Item.pcb i ∈ L q) ∧ ¬Culled k pre i := by
  have distinct := lined.spells.nodup .ready
  rw [queue] at distinct
  have apart : Item.pcb i ∈ tail → i ∉ pre := fun inside before =>
    (List.nodup_append.mp distinct).2.2 _ (List.mem_map_of_mem before) _ inside rfl
  have parked : ∀ q, q ≠ .ready → Item.pcb i ∈ L q → ¬Culled k pre i := by
    intro q notReady inside culled
    exact notReady (lined.spells.apart _ _ _ inside (by simp [queue, culled.1]))
  constructor
  · rintro ⟨q, inside⟩
    by_cases ready : q = .ready
    · subst q
      rw [passed.ready, List.mem_append, List.mem_flatMap] at inside
      rcases inside with behind | ⟨j, before, inside⟩
      · exact ⟨⟨.ready, by simp [queue, behind]⟩, fun culled => apart behind culled.1⟩
      · rw [requeued] at inside
        split at inside
        · rcases mem_wokenBy.mp inside with ⟨l, _, waits⟩ | waits
          · exact ⟨⟨_, waits⟩, parked _ (by simp) waits⟩
          · exact ⟨⟨_, waits⟩, parked _ (by simp) waits⟩
        next live =>
          obtain rfl : i = j := by simpa using inside
          exact ⟨⟨.ready, by simp [queue, before]⟩, fun culled => live culled.2⟩
    · by_cases drained : ∃ j, Culled k pre j ∧ Drained L j q
      · obtain ⟨j, culled, drained⟩ := drained
        rw [passed.left j q culled drained] at inside
        cases inside
      · rw [passed.kept q ready fun j culled here => drained ⟨j, culled, here⟩] at inside
        exact ⟨⟨q, inside⟩, parked q ready inside⟩
  · rintro ⟨⟨q, inside⟩, spared⟩
    have back : ∀ j, Culled k pre j → Woken L j i → ∃ q, Item.pcb i ∈ M q := by
      intro j culled woken
      refine ⟨.ready, ?_⟩
      rw [passed.ready, List.mem_append, List.mem_flatMap]
      refine Or.inr ⟨j, culled.1, ?_⟩
      rw [requeued, if_pos culled.2]
      exact mem_wokenBy.mpr woken
    by_cases ready : q = .ready
    · subst q
      refine ⟨.ready, ?_⟩
      rw [queue, List.mem_append] at inside
      rw [passed.ready, List.mem_append, List.mem_flatMap]
      rcases inside with before | behind
      · obtain ⟨i', earlier, same⟩ := List.mem_map.mp before
        obtain rfl : i' = i := by simpa using same
        refine Or.inr ⟨i', earlier, ?_⟩
        rw [requeued, if_neg fun exited => spared ⟨earlier, exited⟩]
        exact List.mem_singleton_self _
      · exact Or.inl behind
    · by_cases drained : ∃ j, Culled k pre j ∧ Drained L j q
      · obtain ⟨j, culled, rfl | rfl | ⟨l, held, rfl⟩⟩ := drained
        · exact back j culled (Or.inr inside)
        · obtain ⟨l, same⟩ := (lined.killed j (by simp [queue, culled.1]) culled.2).holding _ inside
          cases same
        · exact back j culled (Or.inl ⟨l, held, inside⟩)
      · refine ⟨q, ?_⟩
        rw [passed.kept q ready fun j culled here => drained ⟨j, culled, here⟩]
        exact inside

/-- Only the process that is taken leaves the queues. -/
theorem present_dequeued (s : m.links.Spells M) (front : M .ready = .pcb p :: rest) :
    (∃ q, Item.pcb i ∈ Function.update M .ready rest q) ↔ (∃ q, Item.pcb i ∈ M q) ∧ i ≠ p := by
  have distinct := s.nodup .ready
  rw [front, List.nodup_cons] at distinct
  constructor
  · rintro ⟨q, inside⟩
    by_cases ready : q = .ready
    · subst q
      rw [Function.update_self] at inside
      exact ⟨⟨.ready, by simp [front, inside]⟩, fun same => distinct.1 (same ▸ inside)⟩
    · rw [Function.update_of_ne ready] at inside
      refine ⟨⟨q, inside⟩, ?_⟩
      rintro rfl
      exact ready (s.apart q .ready _ inside (by simp [front]))
  · rintro ⟨⟨q, inside⟩, other⟩
    by_cases ready : q = .ready
    · subst q
      rw [front, List.mem_cons] at inside
      refine ⟨.ready, ?_⟩
      rw [Function.update_self]
      exact inside.resolve_left (by simpa using other)
    · exact ⟨q, by rwa [Function.update_of_ne ready]⟩

theorem Passed.chosen (lined : Lined k L) (queue : L .ready = pre.map .pcb ++ .pcb p :: rest)
    (selectable : Selectable k p) (passed : Passed k L pre (.pcb p :: rest) m M) :
    ∃ k' L', Returns (fun fuel => select fuel m) k' ∧ Chosen k L pre p rest k' L' := by
  have member : Item.pcb p ∈ L .ready := by simp [queue]
  have record : m.pcb p = k.pcb p :=
    passed.asleep p fun _ _ => ready_not_woken lined.spells member
  have front : M .ready = .pcb p :: (rest ++ pre.flatMap (requeued k L)) := passed.ready
  have taken : Selectable m p := by
    simp only [Selectable, getTimer, record, passed.time]
    exact selectable
  obtain ⟨-, dequeued⟩ := queueDequeue_cons passed.spells front
  refine ⟨_, _, select_front passed.spells front taken, ⟨dequeued, rfl, ?_, ?_, ?_, ?_,
    passed.unlocked, passed.locked, ?_, ?_, ?_, passed.count, passed.barrier, passed.kont,
    passed.processId, passed.time, passed.cursor⟩⟩
  · simp [Kernel.setPcb, record]
  · exact Function.update_self _ _ _
  · intro i j culled woken
    have other : i ≠ p := fun same => ready_not_woken lined.spells (same ▸ member) woken
    simp [Kernel.setPcb, Tina.taken, other, passed.woken i j culled woken]
  · intro i other stays
    simp [Kernel.setPcb, Tina.taken, other, passed.asleep i stays]
  · intro j q culled drained
    rw [Function.update_of_ne fun same => (same ▸ drained).not_ready]
    exact passed.left j q culled drained
  · intro q notReady stays
    rw [Function.update_of_ne notReady]
    exact passed.kept q notReady stays
  · intro i
    rw [present_dequeued passed.spells front, passed.present lined queue, and_assoc,
      and_comm (a := ¬_)]

/-- The loop takes the first process it can take, whatever stands before it. -/
theorem select_first (lined : Lined k L) (some : ∃ p, Item.pcb p ∈ L .ready ∧ Selectable k p) :
    ∃ (pre : List Slot) (p : Slot) (rest : List Item),
      L .ready = pre.map .pcb ++ .pcb p :: rest ∧ Selectable k p ∧
      (∀ i ∈ pre, ¬Selectable k i) ∧ ∃ k' L', Returns (fun fuel => select fuel k) k' ∧
        Chosen k L pre p rest k' L' := by
  have split : ∀ items : List Item, (∀ x ∈ items, ∃ i, x = .pcb i) →
      (∃ p, Item.pcb p ∈ items ∧ Selectable k p) →
      ∃ (pre : List Slot) (p : Slot) (rest : List Item),
        items = pre.map .pcb ++ .pcb p :: rest ∧ Selectable k p ∧ ∀ i ∈ pre, ¬Selectable k i := by
    intro items procs some
    induction items with
    | nil => simp at some
    | cons x items ih =>
      obtain ⟨i, rfl⟩ := procs x (by simp)
      by_cases now : Selectable k i
      · exact ⟨[], i, items, rfl, now, by simp⟩
      · obtain ⟨p, inside, selectable⟩ := some
        have later : Item.pcb p ∈ items := by
          refine (List.mem_cons.mp inside).resolve_left fun same => now ?_
          obtain rfl : p = i := by simpa using same
          exact selectable
        obtain ⟨pre, p, rest, rfl, selectable, early⟩ :=
          ih (fun y inside => procs y (by simp [inside])) ⟨p, later, selectable⟩
        refine ⟨i :: pre, p, rest, rfl, selectable, fun j inside => ?_⟩
        rcases List.mem_cons.mp inside with rfl | inside
        · exact now
        · exact early j inside
  have procs : ∀ x ∈ L .ready, ∃ i, x = .pcb i := fun x inside => by
    obtain ⟨i, same, -⟩ := lined.members x inside
    exact ⟨i, same⟩
  obtain ⟨pre, p, rest, queue, selectable, early⟩ := split _ procs some
  obtain ⟨m, M, passed, onward⟩ := select_passes lined queue early
  obtain ⟨k', L', returns, chosen⟩ := passed.chosen lined queue selectable
  exact ⟨pre, p, rest, queue, selectable, early, k', L', onward k' returns, chosen⟩

/-! Preemption among processes that are all ready. -/

/-- One timer interrupt after the other. -/
def preemptions (fuel : Nat) : List Word → Kernel → Option Kernel
  | [], k => some k
  | clk :: clks, k => (doScheduler fuel clk k).bind (preemptions fuel clks)

/-- The processor and the ready queue, when everybody queued is ready. -/
structure Turns (k : Kernel) (L : Lists) (ps : List Slot) : Prop where
  spells : k.links.Spells L
  queue : L .ready = ps.map .pcb
  ready : ∀ i ∈ ps, (k.pcb i).status = .ready
  alone : ∀ q, Item.pcb k.currentRunning ∉ L q

/-- The running process goes to the back and the first one runs. -/
theorem doScheduler_turn {p : Slot} {ps qs : List Slot} (turns : Turns k L ps)
    (next : ps ++ [k.currentRunning] = p :: qs) (clk : Word) :
    ∃ k' L', Returns (fun fuel => doScheduler fuel clk k) k' ∧ k'.currentRunning = p ∧
      Turns k' L' qs ∧ k'.trace = .dispatch p :: k.trace := by
  have pushed := queuePush_spells (q := .ready) turns.spells turns.alone
  have statuses : ∀ i ∈ p :: qs, ((saveCursor ((k.setPcb k.currentRunning
      { k.current with status := .ready }).push .ready (.pcb k.currentRunning))).pcb i).status =
        .ready := by
    intro i inside
    rw [← next, List.mem_append, List.mem_singleton] at inside
    by_cases own : i = k.currentRunning
    · subst own
      simp [saveCursor, Kernel.push, Kernel.setPcb, Kernel.current]
    · have ready := turns.ready i (inside.resolve_right own)
      simp [saveCursor, Kernel.push, Kernel.setPcb, Kernel.current, own, ready]
  have front : Function.update L .ready (L .ready ++ [.pcb k.currentRunning]) .ready =
      .pcb p :: qs.map .pcb := by
    rw [Function.update_self, turns.queue, ← List.map_cons, ← next, List.map_append]
    rfl
  generalize saved : saveCursor ((k.setPcb k.currentRunning
    { k.current with status := .ready }).push .ready (.pcb k.currentRunning)) = m at statuses
  have links : m.links = queuePush .ready (.pcb k.currentRunning) k.links := by rw [← saved]; rfl
  have trace : m.trace = k.trace := by rw [← saved]; rfl
  rw [← links] at pushed
  have selected := select_front pushed front (Or.inr (Or.inl (statuses p (by simp))))
  obtain ⟨-, dequeued⟩ := queueDequeue_cons pushed front
  refine ⟨enter clk ((taken p m).setPcb p { m.pcb p with status := .ready }), _,
    ?_, rfl, ⟨dequeued, Function.update_self _ _ _, ?_, ?_⟩, ?_⟩
  · have unfolded : ∀ fuel, doScheduler fuel clk k =
        (select fuel m).bind fun k => some (enter clk k) := by
      subst m
      exact fun _ => rfl
    simp only [unfolded]
    exact selected.bind (Returns.now _)
  · intro i inside
    have other : i ≠ p := by
      rintro rfl
      have distinct := pushed.nodup .ready
      rw [front, List.nodup_cons] at distinct
      exact distinct.1 (List.mem_map_of_mem inside)
    have ready := statuses i (by simp [inside])
    simp [enter, setTimer, Kernel.record, Kernel.setPcb, taken, other, ready]
  · intro q inside
    exact ((present_dequeued pushed front).mp ⟨q, inside⟩).2 rfl
  · rw [← trace]
    rfl

/-- Preemption after preemption: the processes take turns. -/
theorem preemptions_turn {ps : List Slot} (turns : Turns k L ps) (clks : List Word) :
    ∃ k' L' qs, ∃ order : List Slot, Returns (fun fuel => preemptions fuel clks k) k' ∧
      Turns k' L' qs ∧ k'.currentRunning :: qs = (k.currentRunning :: ps).rotate clks.length ∧
      k'.trace = (order.map .dispatch).reverse ++ k.trace ∧ order.length = clks.length ∧
      ∀ n < clks.length, order[n]? = ((k.currentRunning :: ps).rotate (n + 1)).head? := by
  induction clks generalizing k L ps with
  | nil => exact ⟨k, L, ps, [], Returns.now k, turns, (List.rotate_zero _).symm, rfl, rfl, by simp⟩
  | cons clk clks ih =>
    obtain ⟨p, qs, next⟩ : ∃ p qs, ps ++ [k.currentRunning] = p :: qs := by
      cases ps with
      | nil => exact ⟨_, _, rfl⟩
      | cons p ps => exact ⟨_, _, rfl⟩
    obtain ⟨m, M, first, rfl, turned, one⟩ := doScheduler_turn turns next clk
    obtain ⟨k', L', rs, order, rest, done, rotated, trace, length, turn⟩ := ih turned
    have cycle : ∀ n, (k.currentRunning :: ps).rotate (n + 1) =
        (m.currentRunning :: qs).rotate n := by
      intro n
      rw [List.rotate_cons_succ, next]
    refine ⟨k', L', rs, m.currentRunning :: order, first.bind rest, done, ?_, ?_, ?_, ?_⟩
    · rw [List.length_cons, cycle]
      exact rotated
    · rw [trace, one]
      simp
    · simp [length]
    · intro n bound
      rw [cycle]
      cases n with
      | zero => rw [List.rotate_zero]; rfl
      | succ n => exact turn n (by simpa using bound)

/-- The invariant of the kernel's runs is more than the loop asks for. -/
theorem Coherent.lined {off : Set Slot} (c : Coherent k L off) : Lined k L where
  spells := c.spells
  members x inside := by
    cases x with
    | pcb i => exact ⟨i, rfl, c.ready_status inside⟩
    | lock l => exact absurd inside (c.no_lock (.inl rfl))
  killed i _ _ := by
    have procs : ∀ q : QueueId, q.Parking → Processes (L q) := by
      intro q parking x inside
      cases x with
      | pcb i => exact ⟨i, rfl⟩
      | lock l => exact absurd inside (c.no_lock (.inr parking))
    refine ⟨procs _ trivial, fun x inside => ?_, fun l _ => procs _ trivial⟩
    cases x with
    | pcb j => exact absurd inside c.no_process
    | lock l => exact ⟨l, rfl⟩

/-- The selection loop takes the first process it can take and sends back whom it passes;
among processes that are all ready, preemption is round robin. -/
theorem dispatch_order (lined : Lined k L) :
    ((∃ p, Item.pcb p ∈ L .ready ∧ Selectable k p) →
      ∃ (pre : List Slot) (p : Slot) (rest : List Item),
        L .ready = pre.map .pcb ++ .pcb p :: rest ∧ Selectable k p ∧
        (∀ i ∈ pre, ¬Selectable k i) ∧ ∃ k' L', Returns (fun fuel => select fuel k) k' ∧
          Chosen k L pre p rest k' L') ∧
    ∀ ps, Turns k L ps → ∀ clks, ∃ k' L' qs, ∃ order : List Slot,
      Returns (fun fuel => preemptions fuel clks k) k' ∧ Turns k' L' qs ∧
      k'.currentRunning :: qs = (k.currentRunning :: ps).rotate clks.length ∧
      k'.trace = (order.map .dispatch).reverse ++ k.trace ∧ order.length = clks.length ∧
      (∀ n < clks.length, order[n]? = ((k.currentRunning :: ps).rotate (n + 1)).head?) ∧
      (clks.length = ps.length → order = ps) := by
  refine ⟨select_first lined, fun ps turns clks => ?_⟩
  obtain ⟨k', L', qs, order, returns, done, rotated, trace, length, turn⟩ :=
    preemptions_turn turns clks
  refine ⟨k', L', qs, order, returns, done, rotated, trace, length, turn, fun whole => ?_⟩
  refine List.ext_getElem? fun n => ?_
  by_cases bound : n < clks.length
  · rw [turn n bound, List.head?_rotate (by rw [List.length_cons]; omega),
      List.getElem?_cons_succ]
  · rw [List.getElem?_eq_none (by omega), List.getElem?_eq_none (by omega)]

/-- Slot 1 has been killed and stands before slot 2, which has just been spawned. -/
theorem dispatch_order_killed : ∃ k L, (k.pcb 1).status = .exited ∧ Item.pcb 1 ∈ L .ready ∧
    ∃ (pre : List Slot) (p : Slot) (rest : List Item),
      L .ready = pre.map .pcb ++ .pcb p :: rest ∧ Selectable k p ∧
      (∀ i ∈ pre, ¬Selectable k i) ∧ ∃ k' L', Returns (fun fuel => select fuel k) k' ∧
        Chosen k L pre p rest k' L' := by
  obtain ⟨k, reach, current, killed, pending, embryo⟩ := runAllowed_found
    (fun k event => event.Recycles ∧ Careful k event) 8 300
    [.call (.spawn someTask), .call (.spawn someTask), .call (.kill 2)] (initPcb someTask)
    (fun k => k.currentRunning = 0 ∧ (k.pcb 1).status = .exited ∧ unreaped k.trace 1 = true ∧
      (k.pcb 2).status = .embryo) (by decide)
  obtain ⟨L, sound⟩ : ∃ L, Sound k L := by
    refine reach.invariant (fun k => ∃ L, Sound k L) ⟨_, initPcb_sound⟩ ?_
    rintro k event k' ⟨L, sound⟩ ⟨recycles, careful⟩ step
    exact step_sound sound (recycles.good careful) step
  have c := sound.coherent
  rw [current] at c
  have first : Item.pcb 1 ∈ L .ready :=
    (c.procs 1 .ready).mpr ⟨by decide, by simp [Kernel.place, killed, pending]⟩
  have second : Item.pcb 2 ∈ L .ready :=
    (c.procs 2 .ready).mpr ⟨by decide, by simp [Kernel.place, embryo]⟩
  exact ⟨k, L, killed, first, (dispatch_order c.lined).1 ⟨2, second, Or.inl embryo⟩⟩

end Tina
