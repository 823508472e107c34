import Tina.Quiet

/-! Condition variables with one mutex. Who waits, who has been woken and who has
returned is read off the history; the queue of the condition agrees with it. -/
namespace Tina

open LinkedQueue Transition

variable {k k' m : Kernel} {L L' M : Lists} {p i : Slot} {q : QueueId} {l : Mutex} {c : Nat}
  {event : Event} {shell : TaskInfo} {fuel : Nat} {clk : Word} {kont : Kont} {after : After}

/-- The processes that have entered `do_condition_wait` and that no wake-up has
reached, longest-waiting first. -/
def waiters (l : Mutex) (c : Nat) : List Act → List Slot
  | [] => []
  | .wait p m d :: trace =>
    if m = l ∧ d = c then waiters l c trace ++ [p] else waiters l c trace
  | .wake (.cond d) p :: trace => if d = c then (waiters l c trace).erase p else waiters l c trace
  | _ :: trace => waiters l c trace

/-- Those that a stretch of history wakes on a condition, last first. -/
def wakeups (c : Nat) : List Act → List Slot
  | [] => []
  | .wake (.cond d) p :: trace => if d = c then p :: wakeups c trace else wakeups c trace
  | _ :: trace => wakeups c trace

/-- Each wake-up reached the longest-waiting process, and whoever returned from
`do_condition_wait` then held the mutex, alone. -/
def Faithful (l : Mutex) (c : Nat) : List Act → Prop
  | [] => True
  | .wake (.cond d) p :: trace =>
    (d = c → (waiters l c trace).head? = some p) ∧ Faithful l c trace
  | .waited p m d :: trace =>
    (m = l ∧ d = c → ∀ i, holds trace i l = true ↔ i = p) ∧ Faithful l c trace
  | _ :: trace => Faithful l c trace

/-- Between its release of the mutex and its place on the queue, a waiter only wakes
those that wait for the mutex. -/
def Atomic (l : Mutex) (c : Nat) (trace : List Act) : Prop :=
  ∀ new p old, trace = new ++ .wait p l c :: old → ∃ newer wakes,
    new = newer ++ .block (.cond c) p :: (wakes ++ [.release p l]) ∧
    ∀ a ∈ wakes, ∃ i, a = .wake (.block l) i

/-- An action that neither begins nor ends a wait on a condition. -/
def Act.Plain : Act → Prop
  | .wait .. | .waited .. | .wake (.cond _) _ => False
  | _ => True

theorem Act.Aside.plain {a : Act} (aside : a.Aside) : a.Plain := by
  unfold Act.Aside at aside
  split at aside <;> trivial

theorem plain_append {new : List Act} (trace : List Act) (plain : ∀ a ∈ new, a.Plain) :
    waiters l c (new ++ trace) = waiters l c trace ∧ wakeups c new = [] ∧
    (Faithful l c (new ++ trace) ↔ Faithful l c trace) := by
  induction new with
  | nil => exact ⟨rfl, rfl, Iff.rfl⟩
  | cons a new ih =>
    have here := plain a (by simp)
    have later := ih fun b member => plain b (by simp [member])
    cases a with
    | wake q p => cases q <;> first | exact here.elim | exact later
    | _ => first | exact here.elim | exact later

/-- History without a new wait keeps the old ones atomic. -/
theorem atomic_append {trace new : List Act} (atomic : Atomic l c trace)
    (none : ∀ a ∈ new, ∀ p, a ≠ .wait p l c) : Atomic l c (new ++ trace) := by
  intro before p old split
  rcases List.append_eq_append_iff.mp split with ⟨rest, here, there⟩ | ⟨rest, here, there⟩
  · obtain ⟨newer, wakes, shape, kinds⟩ := atomic rest p old there
    exact ⟨new ++ newer, wakes, by rw [here, shape, List.append_assoc], kinds⟩
  · cases rest with
    | nil =>
      obtain ⟨newer, wakes, shape, _⟩ := atomic [] p old (by simpa using there.symm)
      simp at shape
    | cons a rest =>
      obtain ⟨rfl, _⟩ := List.cons.inj there
      exact absurd rfl (none (.wait p l c) (by simp [here]) p)

theorem atomic_wait {trace new wakes : List Act} (atomic : Atomic l c trace)
    (none : ∀ a ∈ new, ∀ p, a ≠ .wait p l c)
    (kinds : ∀ a ∈ wakes, ∃ i, a = .wake (.block l) i) :
    Atomic l c (new ++ .block (.cond c) p :: (wakes ++ [.release p l]) ++ .wait p l c :: trace) := by
  intro before j old split
  have quiet : ∀ a ∈ new ++ .block (.cond c) p :: (wakes ++ [.release p l]),
      ∀ j, a ≠ .wait j l c := by
    intro a member j
    simp only [List.mem_append, List.mem_cons, List.not_mem_nil, or_false] at member
    rcases member with inside | rfl | inside | rfl
    · exact none a inside j
    · simp
    · obtain ⟨i, rfl⟩ := kinds a inside
      simp
    · simp
  rcases List.append_eq_append_iff.mp split with ⟨rest, here, there⟩ | ⟨rest, here, there⟩
  · cases rest with
    | nil =>
      obtain ⟨same, _⟩ := List.cons.inj there
      obtain rfl : p = j := by simpa using same
      exact ⟨new, wakes, by simpa using here, kinds⟩
    | cons a rest =>
      obtain ⟨rfl, tail⟩ := List.cons.inj there
      obtain ⟨newer, older, shape, earlier⟩ := atomic rest j old tail
      exact ⟨new ++ .block (.cond c) p :: (wakes ++ [.release p l]) ++ .wait p l c :: newer,
        older, by rw [here, shape]; simp, earlier⟩
  · cases rest with
    | nil =>
      obtain ⟨same, _⟩ := List.cons.inj there
      obtain rfl : j = p := by simpa using same
      exact ⟨new, wakes, by simpa using here.symm, kinds⟩
    | cons a rest =>
      obtain ⟨rfl, _⟩ := List.cons.inj there
      exact absurd rfl (quiet (.wait j l c) (by rw [here]; simp) j)

theorem wakeups_append (new old : List Act) :
    wakeups c (new ++ old) = wakeups c new ++ wakeups c old := by
  induction new with
  | nil => rfl
  | cons a new ih =>
    cases a with
    | wake q p =>
      cases q with
      | cond d => by_cases same : d = c <;> simp [wakeups, same, ih]
      | _ => exact ih
    | _ => exact ih

/-- Waking a condition from the front of its queue serves those who wait in turn. -/
theorem wakes_append (woken rest : List Slot) (trace : List Act)
    (waiting : waiters l c trace = woken ++ rest) (faithful : Faithful l c trace) :
    waiters l c ((woken.map (Act.wake (.cond c))).reverse ++ trace) = rest ∧
    wakeups c (woken.map (Act.wake (.cond c))).reverse = woken.reverse ∧
    Faithful l c ((woken.map (Act.wake (.cond c))).reverse ++ trace) := by
  induction woken generalizing trace with
  | nil => exact ⟨waiting, rfl, faithful⟩
  | cons p woken ih =>
    have remaining : waiters l c (.wake (.cond c) p :: trace) = woken ++ rest := by
      simp [waiters, waiting]
    have served : Faithful l c (.wake (.cond c) p :: trace) :=
      ⟨fun _ => by simp [waiting], faithful⟩
    obtain ⟨left, told, still⟩ := ih _ remaining served
    simp only [List.map_cons, List.reverse_cons, List.append_assoc, List.singleton_append]
    refine ⟨left, ?_, still⟩
    rw [wakeups_append, told]
    simp [wakeups]

def After.Watches (l : Mutex) (c : Nat) (after : After) : Prop :=
  after = .user ∨ after = .condition l c

/-- Where a process that uses the one mutex and the one condition may have stopped. -/
def Kont.Watches (l : Mutex) (c : Nat) (kont : Kont) : Prop :=
  kont = .user ∨ kont = .condition l c ∨ ∃ after, kont = .acquire l after ∧ after.Watches l c

/-- The state of one condition and its mutex in terms of their history. -/
structure Monitored (l : Mutex) (c : Nat) (k : Kernel) (L : Lists) : Prop
    extends Peaceful k L where
  mutex : ∀ p m, Item.lock m ∈ L (.holding p) → m = l
  queue : L (.cond c) = (waiters l c k.trace).map .pcb
  konts : ∀ p, (k.kont p).Watches l c
  faithful : Faithful l c k.trace
  atomic : Atomic l c k.trace

/-- A stretch that passes the condition by. -/
structure Bypass (l : Mutex) (c : Nat) (k : Kernel) (L : Lists) (k' : Kernel) (L' : Lists) :
    Prop where
  queue : L' (.cond c) = L (.cond c)
  mutex : ∀ p m, Item.lock m ∈ L' (.holding p) → Item.lock m ∈ L (.holding p) ∨ m = l
  konts : ∀ p, k'.kont p = k.kont p ∨ (k'.kont p).Watches l c
  trace : ∃ new, k'.trace = new ++ k.trace ∧ ∀ a ∈ new, a.Plain

/-- The history grows, and by these wake-ups. -/
def Notified (c : Nat) (woken : List Slot) (k k' : Kernel) : Prop :=
  ∃ new, k'.trace = new ++ k.trace ∧ wakeups c new = woken.reverse

theorem Monitored.bypass (monitored : Monitored l c k L) (peaceful : Peaceful k' L')
    (bypass : Bypass l c k L k' L') : Monitored l c k' L' ∧ Notified c [] k k' := by
  obtain ⟨new, trace, plain⟩ := bypass.trace
  obtain ⟨waiting, silent, faithful⟩ := plain_append (l := l) (c := c) k.trace plain
  refine ⟨{ peaceful with mutex := ?_, queue := ?_, konts := ?_, faithful := ?_, atomic := ?_ },
    new, trace, silent⟩
  · intro p m member
    rcases bypass.mutex p m member with before | same
    · exact monitored.mutex p m before
    · exact same
  · rw [bypass.queue, trace, waiting]
    exact monitored.queue
  · intro p
    rcases bypass.konts p with same | watches
    · rw [same]
      exact monitored.konts p
    · exact watches
  · rw [trace, faithful]
    exact monitored.faithful
  · rw [trace]
    refine atomic_append monitored.atomic fun a member p => ?_
    rintro rfl
    exact plain _ member

/-- Whoever holds the one mutex holds nothing else. -/
theorem Monitored.holding (monitored : Monitored l c k L) (member : Item.lock l ∈ L (.holding p)) :
    L (.holding p) = [] ++ [.lock l] := by
  have all : ∀ x ∈ L (.holding p), x = .lock l := by
    intro x inside
    cases x with
    | pcb i => exact absurd inside monitored.coherent.no_process
    | lock m => rw [monitored.mutex p m inside]
  have copies := List.eq_replicate_of_mem all
  have distinct := monitored.coherent.spells.nodup (.holding p)
  rw [copies, List.nodup_replicate] at distinct
  have some : 0 < (L (.holding p)).length := List.length_pos_of_mem member
  have one : (L (.holding p)).length = 1 := by omega
  rw [one] at copies
  exact copies

/-- Blocking, once it is known what the process that blocks leaves behind. -/
theorem doBlock_parked (coherent : Coherent m M {m.currentRunning})
    (spared : ∀ p, unreaped m.trace p = false) (foreign : q.Foreign)
    (result : doBlock fuel clk q kont m = some k') : ∃ L', Coherent k' L' {k'.currentRunning} ∧
    (∀ r, r ≠ .ready → L' r = parkLists q m.currentRunning M r) ∧
    k'.kont = Function.update m.kont m.currentRunning kont ∧
    ∃ ps : List Slot, k'.trace = (.dispatch k'.currentRunning :: ps.map .reap) ++
      .block q m.currentRunning :: m.trace := by
  have attended : ∀ i, q = .waiting i → i ≠ m.currentRunning ∧ (m.pcb i).status ≠ .exited :=
    fun i same => absurd same (foreign.unattended i)
  have parked : Coherent (blockedOn q kont m) (parkLists q m.currentRunning M) ∅ :=
    blockedOn_coherent coherent foreign.parking attended
  obtain ⟨L', coherent', _, stored, _, switched⟩ :=
    doBlock_spec coherent foreign.parking attended result
  have switched := switched (parked.deserted spared)
  exact ⟨L', coherent', switched.queues, stored, switched.trace⟩

theorem doBlock_bypass (coherent : Coherent k L {k.currentRunning})
    (spared : ∀ p, unreaped k.trace p = false)
    (watches : (Kont.acquire l after).Watches l c)
    (result : doBlock fuel clk (.block l) (.acquire l after) k = some k') :
    ∃ L', Coherent k' L' {k'.currentRunning} ∧ Bypass l c k L k' L' := by
  obtain ⟨L', coherent', lists, stored, ps, trace⟩ :=
    doBlock_parked (q := .block l) coherent spared trivial result
  refine ⟨L', coherent', ?_, ?_, ?_, _ ++ [_], by rw [trace, List.append_assoc]; rfl, ?_⟩
  · rw [lists _ (by simp)]
    simp [parkLists]
  · intro p m member
    rw [lists _ (by simp)] at member
    exact Or.inl (by simpa [parkLists] using member)
  · intro p
    rw [stored]
    by_cases own : p = k.currentRunning
    · subst p
      exact Or.inr (by simpa using watches)
    · exact Or.inl (by simp [own])
  · intro a member
    simp only [List.cons_append, List.mem_cons, List.mem_append, List.mem_map,
      List.not_mem_nil, or_false] at member
    rcases member with rfl | ⟨i, _, rfl⟩ | rfl <;> trivial

theorem lockBy_bypass : Bypass l c k L (lockBy l k) (holdLists k.currentRunning l L) where
  queue := holdLists_of_ne (by simp)
  mutex p m member := by
    by_cases own : p = k.currentRunning
    · subst p
      simpa [holdLists] using member
    · exact Or.inl (by simpa [holdLists, own] using member)
  konts _ := Or.inl rfl
  trace := ⟨[.acquire k.currentRunning l], rfl, by simp [Act.Plain]⟩

theorem lockBy_peaceful (peaceful : Peaceful k L) (free : k.lock l ≠ .locked) :
    Peaceful (lockBy l k) (holdLists k.currentRunning l L) :=
  ⟨peaceful.steady lockBy_steady (lockBy_coherent peaceful.coherent free), peaceful.spared⟩

/-- Nobody else holds a mutex that has just been taken. -/
theorem lockBy_alone (coherent : Coherent k L {k.currentRunning}) (free : k.lock l ≠ .locked) :
    holds (lockBy l k).trace i l = true ↔ i = k.currentRunning := by
  have nobody : holds k.trace i l = false := by
    rw [Bool.eq_false_iff]
    exact fun held => coherent.unheld free _ ((coherent.held i l).mpr held)
  by_cases own : k.currentRunning = i
  · simp [lockBy, Kernel.record, holds, own]
  · simp [lockBy, Kernel.record, Kernel.push, holds, own, Ne.symm own, nobody]

/-- An entry into the mutex, and a return from `do_condition_wait`. -/
theorem acquire_monitored (monitored : Monitored l c k L) (watches : after.Watches l c)
    (peaceful : Peaceful k' M) (result : doMutexLockAcquire fuel clk l after k = some k') :
    ∃ L', Monitored l c k' L' ∧ Notified c [] k k' := by
  by_cases taken : k.lock l = .locked
  · rw [doMutexLockAcquire_taken taken] at result
    obtain ⟨L', coherent, bypass⟩ := doBlock_bypass monitored.coherent monitored.spared
      (Or.inr (Or.inr ⟨after, rfl, watches⟩)) result
    exact ⟨L', monitored.bypass ⟨peaceful.toSound.restate coherent, peaceful.spared⟩ bypass⟩
  · rw [doMutexLockAcquire_free taken] at result
    obtain ⟨locked, silent⟩ := monitored.bypass (lockBy_peaceful monitored.toPeaceful taken)
      (lockBy_bypass (l := l) (c := c))
    rcases watches with rfl | rfl
    · obtain rfl : lockBy l k = k' := by simpa [afterAcquire] using result
      exact ⟨_, locked, silent⟩
    · obtain rfl : (lockBy l k).record (.waited k.currentRunning l c) = k' :=
        Option.some.inj result
      have coherent := locked.coherent.record (.waited k.currentRunning l c) trivial
      refine ⟨_, ⟨⟨peaceful.toSound.restate coherent, peaceful.spared⟩, locked.mutex, locked.queue,
        locked.konts, ?_, ?_⟩,
        [.waited k.currentRunning l c, .acquire k.currentRunning l], rfl, rfl⟩
      · exact ⟨fun _ i => lockBy_alone monitored.coherent taken, locked.faithful⟩
      · change Atomic l c ([.waited k.currentRunning l c] ++ (lockBy l k).trace)
        exact atomic_append locked.atomic (by simp)

/-- The processes of a list of queued ones, as `do_unblock_one` and
`do_unblock_all` find them. -/
theorem slots_map (ps : List Slot) : slots (ps.map .pcb) = ps := by
  induction ps with
  | nil => rfl
  | cons p ps ih => simp [ih]

/-- The processes `woken` are made ready, and nothing else changes for any process. -/
structure Delivery (l : Mutex) (c : Nat) (woken : List Slot) (k k' : Kernel) : Prop where
  history : Notified c woken k k'
  rest : waiters l c k'.trace = (waiters l c k.trace).drop woken.length
  pcb : ∀ p, k'.pcb p =
    if p ∈ woken then { k.pcb p with status := .ready, chan := none } else k.pcb p
  kont : k'.kont = k.kont
  current : k'.currentRunning = k.currentRunning

/-- What a signal and a broadcast have in common. -/
theorem wakes_monitored (monitored : Monitored l c k L) (peaceful : Peaceful k' M)
    {links : Links Item QueueId} {woken rest : List Slot}
    (same : k' = (wakeAll (.cond c) woken k).relink links)
    (waiting : waiters l c k.trace = woken ++ rest) (coherent : Coherent k' L' {k.currentRunning})
    (queue : L' (.cond c) = rest.map .pcb) (others : ∀ p, L' (.holding p) = L (.holding p)) :
    Monitored l c k' L' ∧ Delivery l c woken k k' := by
  obtain ⟨left, told, faithful⟩ := wakes_append woken rest k.trace waiting monitored.faithful
  have trace : k'.trace = (woken.map (Act.wake (.cond c))).reverse ++ k.trace := by
    rw [same, relink_trace, wakeAll_trace]
  have current : k'.currentRunning = k.currentRunning := by simp [same]
  have kont : k'.kont = k.kont := by simp [same]
  rw [← current] at coherent
  refine ⟨⟨⟨peaceful.toSound.restate coherent, peaceful.spared⟩, ?_, ?_, ?_, ?_, ?_⟩,
    ⟨_, trace, told⟩, ?_, ?_, kont, current⟩
  · intro p m member
    rw [others] at member
    exact monitored.mutex p m member
  · rw [queue, trace, left]
  · rw [kont]
    exact monitored.konts
  · rw [trace]
    exact faithful
  · rw [trace]
    refine atomic_append monitored.atomic fun a member p => ?_
    simp only [List.mem_reverse, List.mem_map] at member
    obtain ⟨i, _, rfl⟩ := member
    simp
  · rw [trace, left, waiting, List.drop_left]
  · intro p
    rw [same, relink_pcb, wakeAll_pcb]

theorem signal_monitored (monitored : Monitored l c k L) (peaceful : Peaceful k' M)
    (result : doConditionSignal c k = some k') : ∃ L', Monitored l c k' L' ∧
    Delivery l c ((waiters l c k.trace).take 1) k k' := by
  obtain ⟨links, same, coherent⟩ :=
    doUnblockOne_spec (q := .cond c) monitored.coherent trivial result
  have woken : wakeFirst (.cond c) L k = wakeAll (.cond c) ((waiters l c k.trace).take 1) k := by
    rw [wakeFirst, monitored.queue, slots_map]
    cases waiters l c k.trace <;> rfl
  refine ⟨_, wakes_monitored monitored peaceful (woken ▸ same)
    (List.take_append_drop 1 _).symm coherent ?_ fun p => firstLists_of_ne (by simp) (by simp)⟩
  rw [firstLists_self (by trivial), monitored.queue, List.drop_one, List.map_tail]

theorem broadcast_monitored (monitored : Monitored l c k L) (peaceful : Peaceful k' M)
    (result : doConditionBroadcast fuel c k = some k') : ∃ L', Monitored l c k' L' ∧
    Delivery l c (waiters l c k.trace) k k' := by
  obtain ⟨links, same, coherent⟩ :=
    doUnblockAll_spec (q := .cond c) monitored.coherent trivial result
  rw [monitored.queue, slots_map] at same
  exact ⟨_, wakes_monitored monitored peaceful same (List.append_nil _).symm coherent
    (released_self (by trivial)) fun p => released_of_ne (by simp) (by simp)⟩

/-- A release of the mutex. -/
theorem release_bypass (coherent : Coherent k L {k.currentRunning})
    (back : L (.holding k.currentRunning) = [] ++ [.lock l])
    (result : doMutexLockRelease fuel l k = some k') : ∃ L',
    Coherent k' L' {k'.currentRunning} ∧ Bypass l c k L k' L' ∧
    k'.currentRunning = k.currentRunning ∧ k'.kont = k.kont ∧
    ∃ wakes, k'.trace = wakes ++ .release k.currentRunning l :: k.trace ∧
      ∀ a ∈ wakes, ∃ i, a = .wake (.block l) i := by
  obtain ⟨links, same, coherent'⟩ := release_last coherent back result
  have current : k'.currentRunning = k.currentRunning := by
    simp [same, letGo, unlock, Kernel.record]
  have kont : k'.kont = k.kont := by simp [same, letGo, unlock, Kernel.record]
  have trace : k'.trace = ((slots (L (.block l))).map (Act.wake (.block l))).reverse ++
      .release k.currentRunning l :: k.trace := by
    rw [same, relink_trace, letGo, wakeAll_trace]
    rfl
  have kinds : ∀ a ∈ ((slots (L (.block l))).map (Act.wake (.block l))).reverse,
      ∃ i, a = .wake (.block l) i := by
    intro a member
    simp only [List.mem_reverse, List.mem_map] at member
    obtain ⟨i, _, rfl⟩ := member
    exact ⟨i, rfl⟩
  refine ⟨_, by rw [current]; exact coherent', ?_, current, kont, _, trace, kinds⟩
  refine ⟨?_, ?_, fun p => Or.inl (by rw [kont]), _ ++ [_],
    by rw [trace, List.append_assoc]; rfl, ?_⟩
  · rw [released_of_ne (by simp) (by simp)]
    simp
  · intro p m member
    rw [released_of_ne (by simp) (by simp)] at member
    by_cases own : p = k.currentRunning
    · simp [own] at member
    · exact Or.inl (by simpa [own] using member)
  · intro a member
    simp only [List.mem_append, List.mem_singleton] at member
    rcases member with inside | rfl
    · obtain ⟨i, rfl⟩ := kinds a inside
      trivial
    · trivial

theorem unreaped_plain {wakes trace : List Act}
    (kinds : ∀ a ∈ wakes, ∃ i, a = .wake (.block l) i) :
    unreaped (wakes ++ .release p l :: trace) i = unreaped trace i := by
  induction wakes with
  | nil => rfl
  | cons a wakes ih =>
    obtain ⟨j, rfl⟩ := kinds a (by simp)
    exact ih fun b member => kinds b (by simp [member])

/-- `do_condition_wait` up to the next process. -/
theorem condWait_monitored (monitored : Monitored l c k L) (peaceful : Peaceful k' M)
    (held : Item.lock l ∈ L (.holding k.currentRunning))
    (result : doConditionWait fuel clk l c k = some k') :
    ∃ L', Monitored l c k' L' ∧ Notified c [] k k' := by
  rw [doConditionWait_eq, Option.bind_eq_some_iff] at result
  obtain ⟨m, release, block⟩ := result
  obtain ⟨M', coherent, bypass, current, kont, wakes, trace, kinds⟩ :=
    release_bypass (c := c) (monitored.coherent.record (.wait k.currentRunning l c) trivial)
      (monitored.holding held) release
  have spared : ∀ p, unreaped m.trace p = false := by
    intro p
    rw [trace, unreaped_plain kinds]
    exact monitored.spared p
  obtain ⟨L', coherent', lists, stored, ps, history⟩ :=
    doBlock_parked (q := .cond c) coherent spared trivial block
  change m.currentRunning = k.currentRunning at current
  rw [current] at lists history stored
  have split : k'.trace = (.dispatch k'.currentRunning :: ps.map .reap) ++
      .block (.cond c) k.currentRunning :: (wakes ++ [.release k.currentRunning l]) ++
      .wait k.currentRunning l c :: k.trace := by
    rw [history, trace]
    simp [Kernel.record]
  have switch : ∀ a ∈ Act.dispatch k'.currentRunning :: ps.map .reap, a.Plain ∧
      ∀ p, a ≠ .wait p l c := by
    intro a member
    simp only [List.mem_cons, List.mem_map] at member
    rcases member with rfl | ⟨i, _, rfl⟩ <;> exact ⟨trivial, by simp⟩
  have plain : ∀ a ∈ (.dispatch k'.currentRunning :: ps.map .reap) ++
      .block (.cond c) k.currentRunning :: (wakes ++ [.release k.currentRunning l]), a.Plain := by
    intro a member
    rcases List.mem_append.mp member with inside | later
    · exact (switch a inside).1
    · simp only [List.mem_cons, List.mem_append, List.not_mem_nil, or_false] at later
      rcases later with rfl | inside | rfl
      · trivial
      · obtain ⟨i, rfl⟩ := kinds a inside
        trivial
      · trivial
  obtain ⟨waiting, silent, faithful⟩ := plain_append (l := l) (c := c)
    (.wait k.currentRunning l c :: k.trace) plain
  refine ⟨L', ⟨⟨peaceful.toSound.restate coherent', peaceful.spared⟩, ?_, ?_, ?_, ?_, ?_⟩,
    (.dispatch k'.currentRunning :: ps.map .reap) ++ .block (.cond c) k.currentRunning ::
      (wakes ++ [.release k.currentRunning l]) ++ [.wait k.currentRunning l c],
    by rw [split]; simp, ?_⟩
  · intro p m' member
    rw [lists _ (by simp)] at member
    rcases bypass.mutex p m' (by simpa [parkLists] using member) with before | same
    · exact monitored.mutex p m' before
    · exact same
  · rw [lists _ (by simp), split, waiting]
    simp [parkLists, bypass.queue, monitored.queue, waiters]
  · intro p
    rw [stored, kont]
    by_cases own : p = k.currentRunning
    · subst p
      exact Or.inr (Or.inl (by simp))
    · simpa [own, Kernel.record] using monitored.konts p
  · rw [split, faithful]
    exact monitored.faithful
  · rw [split]
    exact atomic_wait monitored.atomic (fun a member => (switch a member).2) kinds
  · rw [wakeups_append, silent]
    rfl

/-- A process that exits while it holds the mutex gives it back. -/
theorem exit_bypass (peaceful : Peaceful k L) (result : doExit fuel clk k = some k') :
    ∃ L', Coherent k' L' {k'.currentRunning} ∧ Bypass l c k L k' L' := by
  obtain ⟨links, L', between, coherent, _, _, _, switched⟩ := doExit_spec peaceful.coherent result
  have switched := switched (between.deserted fun p => by
    rw [relink_trace, unreaped_reaped]
    split
    · rfl
    · exact peaceful.spared p)
  have only : ∀ r, r ≠ .ready → r ≠ .holding k.currentRunning → r ≠ .waiting k.currentRunning →
      (∀ m, r ≠ .block m) → L' r = L r := by
    intro r notReady notHolding notWaiting notBlock
    rw [switched.queues r notReady, reapLists,
      dropLists_of_ne _ notReady notHolding fun m _ => notBlock m,
      released_of_ne notReady notWaiting]
  refine ⟨L', coherent, only _ (by simp) (by simp) (by simp) (by simp), ?_, ?_, ?_⟩
  · intro p m member
    by_cases own : p = k.currentRunning
    · subst p
      rw [switched.queues _ (by simp), reapLists, dropLists_holding] at member
      · simp at member
      · rw [released_of_ne (by simp) (by simp)]
        exact holding_mutexes peaceful.coherent
    · rw [only _ (by simp) (by simpa using own) (by simp) (by simp)] at member
      exact Or.inl member
  · intro p
    left
    rw [switched.kont, relink_kont, reaped_kont]
    rfl
  · obtain ⟨ps, trace⟩ := switched.trace
    obtain ⟨dropped, drop, kinds⟩ := dropAll_trace (p := k.currentRunning)
      (L := released L (.waiting k.currentRunning))
      (k := wakeAll (.waiting k.currentRunning) (slots (L (.waiting k.currentRunning))) (exiting k))
      (mutexes (L (.holding k.currentRunning)))
    refine ⟨(.dispatch k'.currentRunning :: ps.map .reap) ++ .reap k.currentRunning :: (dropped ++
      ((slots (L (.waiting k.currentRunning))).map (Act.wake (.waiting k.currentRunning))).reverse),
      ?_, ?_⟩
    · rw [trace, relink_trace, reaped]
      simp only [Kernel.record, drop, wakeAll_trace]
      simp [exiting, Kernel.setPcb]
    · intro a member
      simp only [List.cons_append, List.mem_cons, List.mem_append, List.mem_map,
        List.mem_reverse] at member
      rcases member with rfl | ⟨i, _, rfl⟩ | rfl | inside | ⟨i, _, rfl⟩
      · trivial
      · trivial
      · trivial
      · rcases kinds a inside with ⟨m, rfl⟩ | ⟨m, i, rfl⟩ <;> trivial
      · trivial

theorem Aside.bypass (aside : Aside k L k' L') : Bypass l c k L k' L' where
  queue := aside.queues (.cond c) trivial
  mutex p m member := by
    rw [aside.queues (.holding p) trivial] at member
    exact Or.inl member
  konts p := by
    rcases aside.kont p with same | ⟨_, idle, _⟩
    · exact Or.inl same
    · exact Or.inr (Or.inl idle)
  trace := by
    obtain ⟨new, trace, acts⟩ := aside.trace
    exact ⟨new, trace, fun a member => (acts a member).plain⟩

/-- Processes come and go and use one mutex and one condition, the condition only
while they hold the mutex. -/
def Event.Monitors (l : Mutex) (c : Nat) (k : Kernel) : Event → Prop
  | .call (.acquire m) => m = l ∧ holds k.trace k.currentRunning l = false
  | .call (.release m) => m = l ∧ holds k.trace k.currentRunning l = true
  | .call (.condWait m d) => m = l ∧ d = c ∧ holds k.trace k.currentRunning l = true
  | .call (.signal d) | .call (.broadcast d) => d = c ∧ holds k.trace k.currentRunning l = true
  | .resume => True
  | event => event.Aside

instance Event.Monitors.decidable (l : Mutex) (c : Nat) (k : Kernel) (event : Event) :
    Decidable (event.Monitors l c k) := by
  apply event.decide <;> intros <;> unfold Event.Monitors <;> infer_instance

/-- What a step does to those who wait. -/
def Delivered (l : Mutex) (c : Nat) (k : Kernel) (event : Event) (k' : Kernel) : Prop :=
  match event with
  | .call (.signal _) => Delivery l c ((waiters l c k.trace).take 1) k k'
  | .call (.broadcast _) => Delivery l c (waiters l c k.trace) k k'
  | _ => Notified c [] k k'

theorem Monitored.returning (monitored : Monitored l c k L) : Monitored l c (returning k) L := by
  have user : Kont.user.Fits := trivial
  have fits : ∀ p, ((Tina.returning k).kont p).Fits :=
    fun p => fits_update monitored.toSound user p _
  refine ⟨⟨⟨returning_coherent monitored.coherent, monitored.active, fits⟩, monitored.spared⟩,
    monitored.mutex, monitored.queue, fun p => ?_, monitored.faithful, monitored.atomic⟩
  by_cases own : p = k.currentRunning
  · exact Or.inl (by simp [Tina.returning, own])
  · simpa [Tina.returning, own] using monitored.konts p

theorem resume_monitored (monitored : Monitored l c k L) (peaceful : Peaceful k' M)
    (result : resume fuel clk k = some k') : ∃ L', Monitored l c k' L' ∧ Notified c [] k k' := by
  rcases monitored.konts k.currentRunning with idle | inside | ⟨after, inside, watches⟩
  · simp [resume, idle] at result
  · simp only [resume, inside] at result
    exact acquire_monitored (k := returning k) monitored.returning (Or.inr rfl) peaceful result
  · simp only [resume, inside] at result
    exact acquire_monitored (k := returning k) monitored.returning watches peaceful result

theorem Event.Monitors.good (monitored : Monitored l c k L) (monitors : event.Monitors l c k) :
    Good k event ∧ event.Spares := by
  have tail : holds k.trace k.currentRunning l = true →
      k.links.tail (.holding k.currentRunning) = some (.lock l) := by
    intro held
    rw [monitored.coherent.spells.tail,
      monitored.holding ((monitored.coherent.held _ _).mpr held)]
    rfl
  rcases event with call | _ | _
  · cases call with
    | spawn task => exact ⟨fun i _ => monitored.spared i, trivial⟩
    | release m =>
      obtain ⟨rfl, held⟩ := monitors
      exact ⟨⟨held, Or.inr (tail held)⟩, trivial⟩
    | condWait m d =>
      obtain ⟨rfl, _, held⟩ := monitors
      exact ⟨tail held, trivial⟩
    | kill | block | unblockOne | unblockAll => exact monitors.elim
    | _ => exact ⟨trivial, trivial⟩
  · exact ⟨trivial, trivial⟩
  · exact ⟨trivial, trivial⟩

theorem call_monitored {call : Call} (monitored : Monitored l c k L)
    (monitors : (Event.call call).Monitors l c k) (peaceful : Peaceful k' M)
    (aside : ¬ (Event.call call).Aside)
    (result : systemCall fuel clk call k = some k') :
    ∃ L', Monitored l c k' L' ∧ Delivered l c k (.call call) k' := by
  have held : holds k.trace k.currentRunning l = true →
      Item.lock l ∈ L (.holding k.currentRunning) :=
    (monitored.coherent.held _ _).mpr
  cases call with
  | acquire m =>
    obtain ⟨rfl, _⟩ := monitors
    exact acquire_monitored monitored (Or.inl rfl) peaceful result
  | release m =>
    obtain ⟨rfl, here⟩ := monitors
    obtain ⟨L', coherent, bypass, _⟩ := release_bypass (c := c) monitored.coherent
      (monitored.holding (held here)) result
    exact ⟨L', monitored.bypass ⟨peaceful.toSound.restate coherent, peaceful.spared⟩ bypass⟩
  | condWait m d =>
    obtain ⟨rfl, rfl, here⟩ := monitors
    exact condWait_monitored monitored peaceful (held here) result
  | signal d =>
    obtain ⟨rfl, _⟩ := monitors
    exact signal_monitored monitored peaceful result
  | broadcast d =>
    obtain ⟨rfl, _⟩ := monitors
    exact broadcast_monitored monitored peaceful result
  | _ => first | exact monitors.elim | exact absurd trivial aside

/-- Only the step of a process that signals or broadcasts wakes anybody. -/
theorem step_monitored (monitored : Monitored l c k L) (monitors : event.Monitors l c k)
    (step : Step k event k') : ∃ L', Monitored l c k' L' ∧ Delivered l c k event k' := by
  obtain ⟨good, spares⟩ := Event.Monitors.good monitored monitors
  obtain ⟨M, peaceful⟩ := step_peaceful monitored.toPeaceful spares good step
  by_cases exit : event = .call .exit
  · subst exit
    obtain ⟨fuel, clk, result⟩ := step
    simp only [execute] at result
    split at result
    next idle =>
      obtain ⟨L', coherent, bypass⟩ := exit_bypass (c := c) (l := l) monitored.toPeaceful result
      exact ⟨L', monitored.bypass ⟨peaceful.toSound.restate coherent, peaceful.spared⟩ bypass⟩
    next => contradiction
  by_cases aside : event.Aside
  · obtain ⟨L', peaceful, isAside⟩ := step_aside monitored.toPeaceful aside
      (fun same => absurd same exit) step
    have outcome := monitored.bypass peaceful isAside.bypass
    refine ⟨L', outcome.1, ?_⟩
    rcases event with call | _ | _
    · cases call <;> first | exact aside.elim | exact outcome.2
    · exact outcome.2
    · exact aside.elim
  · obtain ⟨fuel, clk, result⟩ := step
    rcases event with call | _ | _
    · simp only [execute] at result
      split at result
      · exact call_monitored monitored monitors peaceful aside result
      · contradiction
    · exact absurd trivial aside
    · exact resume_monitored monitored peaceful result

theorem doConditionInit_monitored :
    Monitored l c (doConditionInit c (doMutexLockInit l (initPcb shell))) fun _ => [] := by
  have start : Peaceful (initPcb shell) fun _ => [] := initPcb_peaceful
  have first := queueInit_spells (q := .block l) start.coherent.spells rfl
  have second := queueInit_spells (q := .cond c) first rfl
  have lock : Function.update (initPcb shell).lock l .unlocked = (initPcb shell).lock := by
    rw [← initPcb_quiet.lock l, Function.update_eq_self]
  have coherent : Coherent (doConditionInit c (doMutexLockInit l (initPcb shell))) (fun _ => [])
      {(initPcb shell).currentRunning} :=
    (start.coherent.respell second).reframe rfl lock (fun _ => rfl) (fun _ => rfl) (fun _ => rfl)
      (fun _ _ => rfl)
  have trace : (doConditionInit c (doMutexLockInit l (initPcb shell))).trace = [.spawn 0] :=
    initPcb_trace
  refine ⟨⟨⟨coherent, start.active, start.fits⟩, start.spared⟩, by simp, ?_,
    fun p => Or.inl ?_, ?_, ?_⟩
  · rw [trace]
    rfl
  · exact @initPcb_idle p shell
  · rw [trace]
    trivial
  · rw [trace]
    intro new p old split
    have inside : Act.wait p l c ∈ [Act.spawn 0] := split ▸ by simp
    simp at inside

/-- What can be relied on in every state. -/
structure Monitor (l : Mutex) (c : Nat) (k : Kernel) : Prop where
  queue : k.links.Walk (k.links.head (.cond c)) ((waiters l c k.trace).map .pcb)
  asleep : ∀ p ∈ waiters l c k.trace, p ≠ k.currentRunning ∧ (k.pcb p).status = .blocked ∧
    (k.pcb p).chan = some (.cond c)
  atomic : Atomic l c k.trace
  longest : ∀ new p old, k.trace = new ++ .wake (.cond c) p :: old →
    (waiters l c old).head? = some p
  returns : ∀ new p old, k.trace = new ++ .waited p l c :: old →
    ∀ i, holds old i l = true ↔ i = p

theorem Faithful.longest {trace : List Act} (faithful : Faithful l c trace) (new old : List Act)
    (split : trace = new ++ .wake (.cond c) p :: old) : (waiters l c old).head? = some p := by
  subst split
  induction new with
  | nil => exact faithful.1 rfl
  | cons a new ih =>
    refine ih ?_
    cases a with
    | wake q p => cases q <;> first | exact faithful | exact faithful.2
    | _ => first | exact faithful | exact faithful.2

theorem Faithful.returns {trace : List Act} (faithful : Faithful l c trace) (new old : List Act)
    (split : trace = new ++ .waited p l c :: old) : holds old i l = true ↔ i = p := by
  subst split
  induction new with
  | nil => exact faithful.1 ⟨rfl, rfl⟩ i
  | cons a new ih =>
    refine ih ?_
    cases a with
    | wake q p => cases q <;> first | exact faithful | exact faithful.2
    | _ => first | exact faithful | exact faithful.2

theorem Monitored.monitor (monitored : Monitored l c k L) : Monitor l c k where
  queue := monitored.queue ▸ monitored.coherent.spells.walk (.cond c)
  asleep p member := by
    have inside : Item.pcb p ∈ L (.cond c) := by
      rw [monitored.queue]
      exact List.mem_map_of_mem member
    refine ⟨?_, monitored.coherent.waiter trivial inside⟩
    rintro rfl
    exact monitored.coherent.off_nowhere (Set.mem_singleton _) inside
  atomic := monitored.atomic
  longest new _ old split := monitored.faithful.longest new old split
  returns new _ old split _ := monitored.faithful.returns new old split

/-- For every run of any processes that use the mutex and the condition, and every
step such a run can take next. -/
theorem reachable_monitor (reach : Reachable Step (fun k event => event.Monitors l c k)
    (doConditionInit c (doMutexLockInit l (initPcb shell))) k) :
    Monitor l c k ∧ ∀ event k', event.Monitors l c k → Step k event k' →
      Delivered l c k event k' := by
  have invariant : ∃ L, Monitored l c k L := by
    refine reach.invariant (fun k => ∃ L, Monitored l c k L) ⟨_, doConditionInit_monitored⟩ ?_
    rintro k event k' ⟨L, monitored⟩ monitors step
    obtain ⟨L', next, _⟩ := step_monitored monitored monitors step
    exact ⟨L', next⟩
  obtain ⟨L, monitored⟩ := invariant
  refine ⟨monitored.monitor, fun event k' monitors step => ?_⟩
  obtain ⟨_, _, delivered⟩ := step_monitored monitored monitors step
  exact delivered

/-- Two processes wait, one is signalled and returns while the other waits on. -/
theorem reachable_monitor_signal : ∃ k : Kernel, (waiters (.user 0) 0 k.trace = [1] ∧
    .waited 0 (.user 0) 0 ∈ k.trace) ∧ Monitor (.user 0) 0 k ∧
    ∀ event k', event.Monitors (.user 0) 0 k → Step k event k' →
      Delivered (.user 0) 0 k event k' := by
  obtain ⟨k, reach, waits⟩ := runAllowed_found (fun k event => event.Monitors (.user 0) 0 k) 8 300
    [.call (.spawn someTask), .call (.spawn someTask), .call (.acquire (.user 0)),
      .call (.condWait (.user 0) 0), .call (.acquire (.user 0)), .call (.condWait (.user 0) 0),
      .call (.acquire (.user 0)), .call (.signal 0), .timer, .resume,
      .call (.release (.user 0)), .timer, .resume]
    (doConditionInit 0 (doMutexLockInit (.user 0) (initPcb someTask)))
    (fun k => waiters (.user 0) 0 k.trace = [1] ∧ .waited 0 (.user 0) 0 ∈ k.trace)
    (by decide +kernel)
  exact ⟨k, waits, reachable_monitor reach⟩

end Tina
