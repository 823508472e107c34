import Mathlib.Data.Finset.Card
import Mathlib.Data.Fintype.Basic
import Tina.Quiet

/-! Counting semaphores: conservation of units, and no wake-up that is lost. The
credit of a semaphore is carried by the processes that have been woken on it and have
not looked at the count since. -/
namespace Tina

open LinkedQueue Transition

variable {k k' m : Kernel} {L L' M : Lists} {off : Set Slot} {p i : Slot} {q : QueueId}
  {l : Mutex} {s t : Nat} {v : Int} {event : Event} {shell task : TaskInfo} {fuel : Nat}
  {clk : Word} {id : Int}

/-- Taken off the queue of `s`, and the inner mutex not acquired since: the process
has not re-tested the count. -/
def woken (s : Nat) : List Act → Slot → Bool
  | [], _ => false
  | .wake q p :: trace, i => if q = .sem s ∧ p = i then true else woken s trace i
  | .acquire p l :: trace, i => if l = .sem s ∧ p = i then false else woken s trace i
  | _ :: trace, i => woken s trace i

/-- The live processes that are still to re-test. -/
def retesting (s : Nat) (k : Kernel) : Finset Slot :=
  Finset.univ.filter fun p => (k.pcb p).status ≠ .exited ∧ woken s k.trace p = true

/-- `do_semaphore_up`, from outside. -/
structure Raised (t : Nat) (k : Kernel) (L : Lists) (k' : Kernel) (L' : Lists) : Prop where
  queue : L' (.sem t) = (L (.sem t)).tail
  others : ∀ q, q ≠ .ready → q ≠ .sem t → L' q = L q
  lock : k'.lock = k.lock
  count : k'.count = Function.update k.count t (int32 (k.count t + 1))
  kont : k'.kont = k.kont
  trace : k'.trace = .release k.currentRunning (.sem t) ::
    (firstWoken (.sem t) (L (.sem t)) ++ .up t :: .acquire k.currentRunning (.sem t) :: k.trace)
  status : ∀ p, k'.pcb p = if (slots (L (.sem t))).head? = some p
    then { k.pcb p with status := .ready, chan := none } else k.pcb p
  current : k'.currentRunning = k.currentRunning

/-- A `do_semaphore_down`, from its beginning or from a re-test, that takes its unit. -/
structure Lowered (t : Nat) (k : Kernel) (L : Lists) (k' : Kernel) (L' : Lists) : Prop where
  positive : 0 < k.count t
  queues : ∀ q, q ≠ .ready → L' q = L q
  lock : k'.lock = k.lock
  count : k'.count = Function.update k.count t (int32 (k.count t - 1))
  kont : k'.kont = Function.update k.kont k.currentRunning .user
  trace : k'.trace = .release k.currentRunning (.sem t) :: .down t ::
    .acquire k.currentRunning (.sem t) :: k.trace
  pcb : k'.pcb = k.pcb
  current : k'.currentRunning = k.currentRunning

/-- One that does not. -/
structure Refused (t : Nat) (k : Kernel) (L : Lists) (k' : Kernel) (L' : Lists) : Prop where
  empty : k.count t ≤ 0
  queue : L' (.sem t) = L (.sem t) ++ [.pcb k.currentRunning]
  others : ∀ q, q ≠ .ready → q ≠ .sem t → L' q = L q
  lock : k'.lock = k.lock
  count : k'.count = k.count
  kont : k'.kont = Function.update k.kont k.currentRunning (.down t)
  trace : ∃ ps : List Slot, k'.trace = .dispatch k'.currentRunning :: ps.map .reap ++
    .block (.sem t) k.currentRunning :: .release k.currentRunning (.sem t) ::
    .acquire k.currentRunning (.sem t) :: k.trace
  status : ∀ p, (k'.pcb p).status = .exited ↔ p ≠ k.currentRunning ∧ (k.pcb p).status = .exited
  clean : Clean k → Clean k'
  running : k'.current.status = .running

theorem up_spec (coherent : Coherent k L {k.currentRunning}) (quiet : Quiet k L)
    (result : doSemaphoreUp fuel clk t k = some k') : ∃ L',
    Coherent k' L' {k'.currentRunning} ∧ Raised t k L k' L' := by
  rw [doSemaphoreUp, doMutexLockAcquire_free quiet.free] at result
  have holding : ∀ p, L (.holding p) = [] := fun p => quiet.holding coherent
  have locked := lockBy_coherent coherent (l := .sem t) quiet.free
  have back : holdLists k.currentRunning (.sem t) L (.holding (lockBy (.sem t) k).currentRunning) =
      [] ++ [.lock (.sem t)] := by
    simp [holdLists, holding, lockBy, Kernel.record, Kernel.push]
  obtain ⟨links, rfl, coherent'⟩ := semaphoreUp_spec locked back result
  have sem : holdLists k.currentRunning (.sem t) L (.sem t) = L (.sem t) :=
    holdLists_of_ne (by simp)
  have nobody : firstLists (.sem t) (holdLists k.currentRunning (.sem t) L) (.block (.sem t)) = [] := by
    rw [firstLists_of_ne (by simp) (by simp), holdLists_of_ne (by simp), quiet.block]
  rw [letGo_unblocked nobody] at coherent' ⊢
  refine ⟨letGoLists (.sem t) k.currentRunning []
    (firstLists (.sem t) (holdLists k.currentRunning (.sem t) L)), ?_, ?_⟩
  · simpa [unlock, Kernel.record, countUp, lockBy, Kernel.push] using coherent'
  obtain ⟨lock, count, barrier, kont⟩ := wakeFirst_data (q := .sem t)
    (L := holdLists k.currentRunning (.sem t) L) (k := countUp t (lockBy (.sem t) k))
  have lists : ∀ q, q ≠ .ready → q ≠ .sem t → letGoLists (.sem t) k.currentRunning []
      (firstLists (.sem t) (holdLists k.currentRunning (.sem t) L)) q = L q := by
    intro q notReady other
    refine letGoLists_of_ne notReady (holding _) (quiet.block _) fun notHolding _ => ?_
    rw [firstLists_of_ne notReady other, holdLists_of_ne notHolding]
  constructor
  · have own : letGoLists (.sem t) k.currentRunning []
        (firstLists (.sem t) (holdLists k.currentRunning (.sem t) L)) (.sem t) =
        firstLists (.sem t) (holdLists k.currentRunning (.sem t) L) (.sem t) := by
      simp [letGoLists, released]
    exact own.trans (by rw [firstLists_self (q := .sem t) trivial, sem])
  · exact lists
  · simp only [relink_lock, unlock, Kernel.record, lock]
    exact relock quiet
  · simp only [relink_count, unlock, Kernel.record, count]
    rfl
  · simp only [relink_kont, unlock, Kernel.record, kont]
    rfl
  · simp only [relink_trace, unlock, Kernel.record, wakeFirst_trace, wakeFirst_current, sem]
    rfl
  · intro p
    simp only [relink_pcb, unlock, Kernel.record, wakeFirst_pcb, sem]
    rfl
  · simp [unlock, Kernel.record, countUp, lockBy, Kernel.push]

theorem down_spec (coherent : Coherent k L {k.currentRunning}) (quiet : Quiet k L)
    (resting : Resting k L)
    (result : doSemaphoreDown fuel clk t (returning k) = some k') : ∃ L',
    Coherent k' L' {k'.currentRunning} ∧ (Lowered t k L k' L' ∨ Refused t k L k' L') := by
  have settled : Quiet (returning k) L := ⟨quiet.lock, quiet.block⟩
  have free : (returning k).lock (.sem t) ≠ .locked := settled.free
  rw [doSemaphoreDown, doMutexLockAcquire_free free] at result
  have holding : ∀ p, L (.holding p) = [] := fun p => quiet.holding coherent
  have locked := lockBy_coherent (returning_coherent coherent) free
  have positiveOrNot : (lockBy (.sem t) (returning k)).count t = k.count t := rfl
  by_cases empty : k.count t ≤ 0
  · have wait : (doMutexLockRelease fuel (.sem t) (lockBy (.sem t) (returning k))).bind
        (doBlock fuel clk (.sem t) (.down t)) = some k' :=
      (semaphoreDown_wait (k := lockBy (.sem t) (returning k)) empty).symm.trans result
    obtain ⟨L', coherent', running, stalled⟩ := stall_spec (m := lockBy (.sem t) (returning k))
      (q := .sem t) locked holding (quiet.block _) resting trivial (by simp) wait
    refine ⟨L', coherent', Or.inr ?_⟩
    constructor
    · exact empty
    · exact stalled.queue
    · exact stalled.others
    · exact stalled.lock.trans (relock settled)
    · exact stalled.count
    · rw [stalled.kont]
      exact Function.update_idem ..
    · exact stalled.trace
    · exact stalled.status
    · exact stalled.clean
    · exact running
  · have back : holdLists k.currentRunning (.sem t) L
        (.holding (lockBy (.sem t) (returning k)).currentRunning) = [] ++ [.lock (.sem t)] := by
      simp [holdLists, holding, lockBy, Kernel.record, Kernel.push, returning]
    obtain ⟨links, rfl, coherent'⟩ := semaphoreDown_take locked empty back result
    have nobody : holdLists k.currentRunning (.sem t) L (.block (.sem t)) = [] := by
      rw [holdLists_of_ne (by simp), quiet.block]
    have lists : ∀ q, q ≠ .ready → letGoLists (.sem t) k.currentRunning []
        (holdLists k.currentRunning (.sem t) L) q = L q := fun q notReady =>
      letGoLists_of_ne notReady (holding _) (quiet.block _) fun other _ => holdLists_of_ne other
    have free : letGo (.sem t) (holdLists (returning k).currentRunning (.sem t) L)
        (countDown t (lockBy (.sem t) (returning k))) = unlock k.currentRunning (.sem t)
          (countDown t (lockBy (.sem t) (returning k))) := letGo_unblocked nobody
    rw [free] at coherent' ⊢
    refine ⟨_, coherent', Or.inl ?_⟩
    constructor
    · omega
    · exact lists
    · exact relock settled
    · rfl
    · rfl
    · rfl
    · rfl
    · rfl

/-- The events of one or more semaphores. -/
def Event.Counting : Event → Prop
  | .call (.up _) | .call (.down _) | .resume => True
  | _ => False

theorem Event.Counting.good {event : Event} (counting : event.Counting) : Good k event := by
  rcases event with call | _ | _
  · cases call <;> first | exact counting.elim | trivial
  · trivial
  · trivial

theorem Event.Counting.spares {event : Event} (counting : event.Counting) : event.Spares := by
  rcases event with call | _ | _
  · cases call <;> first | exact counting.elim | trivial
  · trivial
  · trivial

/-- A process inside the kernel is inside `do_semaphore_down`. -/
def Downs (k : Kernel) : Prop := ∀ p, k.kont p = .user ∨ ∃ t, k.kont p = .down t

/-- The three things that can happen to a semaphore. A `down` may be a re-test. -/
theorem counting_step (coherent : Coherent k L {k.currentRunning}) (quiet : Quiet k L)
    (resting : Resting k L) (downs : Downs k) (counting : event.Counting)
    (step : Step k event k') : ∃ t L', Coherent k' L' {k'.currentRunning} ∧
      (event = .call (.up t) ∧ k.kont k.currentRunning = .user ∧ Raised t k L k' L' ∨
      (event = .call (.down t) ∧ k.kont k.currentRunning = .user ∨
          event = .resume ∧ k.kont k.currentRunning = .down t) ∧
        (Lowered t k L k' L' ∨ Refused t k L k' L')) := by
  obtain ⟨fuel, clk, result⟩ := step
  rcases event with call | _ | _
  · simp only [execute] at result
    split at result
    next idle =>
      cases call with
      | up t =>
        obtain ⟨L', coherent', raised⟩ := up_spec coherent quiet result
        exact ⟨t, L', coherent', Or.inl ⟨rfl, idle, raised⟩⟩
      | down t =>
        rw [systemCall, ← returning_idle idle] at result
        obtain ⟨L', coherent', outcome⟩ := down_spec coherent quiet resting result
        exact ⟨t, L', coherent', Or.inr ⟨Or.inl ⟨rfl, idle⟩, outcome⟩⟩
      | _ => exact counting.elim
    next => contradiction
  · exact counting.elim
  · simp only [execute] at result
    rcases downs k.currentRunning with idle | ⟨t, inside⟩
    · simp [resume, idle] at result
    · simp only [resume, inside] at result
      obtain ⟨L', coherent', outcome⟩ := down_spec coherent quiet resting result
      exact ⟨t, L', coherent', Or.inr ⟨Or.inr ⟨rfl, inside⟩, outcome⟩⟩

@[simp] theorem mem_retesting : p ∈ retesting s k ↔
    (k.pcb p).status ≠ .exited ∧ woken s k.trace p = true := by simp [retesting]

@[simp] theorem woken_reaps (ps : List Slot) (trace : List Act) :
    woken s (ps.map .reap ++ trace) p = woken s trace p := by
  induction ps with
  | nil => rfl
  | cons i ps ih => exact ih

theorem woken_aside (new trace : List Act) (aside : ∀ a ∈ new, a.Aside) :
    woken s (new ++ trace) p = woken s trace p := by
  induction new with
  | nil => rfl
  | cons a new ih =>
    have here := aside a (by simp)
    have later := ih fun b member => aside b (by simp [member])
    cases a with
    | wake q i => cases q <;> first | exact here.elim | simpa [woken] using later
    | _ => first | exact here.elim | exact later

/-- What the history and the continuations say about who waits on `s`, and the
credit: while somebody waits, every unit has somebody on the way to it. -/
structure Served (s : Nat) (k : Kernel) (L : Lists) : Prop where
  quiet : Quiet k L
  downs : Downs k
  woke : ∀ p, woken s k.trace p = true → k.kont p = .down s
  waits : ∀ p, Item.pcb p ∈ L (.sem s) → k.kont p = .down s ∧ woken s k.trace p = false
  low : -2147483648 ≤ k.count s
  credit : L (.sem s) ≠ [] → k.count s ≤ (retesting s k).card

theorem int32_low (x : Int) : -2147483648 ≤ int32 x := Int.le_bmod (by decide)

theorem int32_le {x : Int} (low : -2147483648 ≤ x) : int32 x ≤ x := by
  unfold int32
  rw [Int.bmod_eq_emod]
  split <;> omega

theorem Raised.quiet (raised : Raised t k L k' L') (quiet : Quiet k L) : Quiet k' L' where
  lock l := by rw [raised.lock]; exact quiet.lock l
  block l := by rw [raised.others _ (by simp) (by simp)]; exact quiet.block l

theorem Lowered.quiet (lowered : Lowered t k L k' L') (quiet : Quiet k L) : Quiet k' L' where
  lock l := by rw [lowered.lock]; exact quiet.lock l
  block l := by rw [lowered.queues _ (by simp)]; exact quiet.block l

theorem Refused.quiet (refused : Refused t k L k' L') (quiet : Quiet k L) : Quiet k' L' where
  lock l := by rw [refused.lock]; exact quiet.lock l
  block l := by rw [refused.others _ (by simp) (by simp)]; exact quiet.block l

theorem Raised.exited (raised : Raised t k L k' L') (coherent : Coherent k L off) :
    (k'.pcb p).status = .exited ↔ (k.pcb p).status = .exited := by
  rw [raised.status]
  split
  next front =>
    have member : Item.pcb p ∈ L (.sem t) := mem_slots.mp (List.mem_of_head? front)
    simp [(coherent.waiter (q := .sem t) trivial member).1]
  next => rfl

/-- The units in flight after an `up` of the same semaphore. -/
theorem Raised.woken_self (raised : Raised s k L k' L') : woken s k'.trace p =
    if (slots (L (.sem s))).head? = some p then true
    else if k.currentRunning = p then false else woken s k.trace p := by
  rw [raised.trace, firstWoken]
  cases slots (L (.sem s)) with
  | nil => simp [woken]
  | cons i rest => simp [woken]

theorem Raised.woken_other (raised : Raised t k L k' L') (other : t ≠ s) :
    woken s k'.trace p = woken s k.trace p := by
  rw [raised.trace, firstWoken]
  cases slots (L (.sem t)) with
  | nil => simp [woken, other]
  | cons i rest => simp [woken, other]

theorem Lowered.woken (lowered : Lowered t k L k' L') : woken s k'.trace p =
    if t = s ∧ k.currentRunning = p then false else Tina.woken s k.trace p := by
  rw [lowered.trace]
  simp [Tina.woken]

theorem Refused.woken (refused : Refused t k L k' L') : woken s k'.trace p =
    if t = s ∧ k.currentRunning = p then false else Tina.woken s k.trace p := by
  obtain ⟨ps, trace⟩ := refused.trace
  rw [trace]
  have skip : ∀ rest, Tina.woken s (.dispatch k'.currentRunning :: ps.map .reap ++ rest) p =
      Tina.woken s rest p := woken_reaps ps
  rw [skip]
  simp [Tina.woken]

theorem Raised.served (raised : Raised t k L k' L') (served : Served s k L)
    (coherent : Coherent k L {k.currentRunning}) (idle : k.kont k.currentRunning = .user) :
    Served s k' L' := by
  have own : woken s k.trace k.currentRunning = false := by
    rw [Bool.eq_false_iff]
    intro woke
    simp [served.woke _ woke] at idle
  have quiet := raised.quiet served.quiet
  have downs : Downs k' := by
    intro p
    rw [raised.kont]
    exact served.downs p
  by_cases same : t = s
  · subst t
    have count : k'.count s = int32 (k.count s + 1) := by rw [raised.count, Function.update_self]
    have alive : ∀ p, woken s k.trace p = true → woken s k'.trace p = true := by
      intro p woke
      rw [raised.woken_self]
      split
      · rfl
      · rw [if_neg (by rintro rfl; simp [own] at woke)]
        exact woke
    refine ⟨quiet, downs, fun p woke => ?_, fun p member => ?_, count ▸ int32_low _, fun waiting => ?_⟩
    · rw [raised.kont]
      rw [raised.woken_self] at woke
      split at woke
      next front => exact (served.waits p (mem_slots.mp (List.mem_of_head? front))).1
      next =>
        split at woke
        · contradiction
        · exact served.woke p woke
    · rw [raised.queue] at member
      obtain ⟨kont, asleep⟩ := served.waits p (List.mem_of_mem_tail member)
      refine ⟨raised.kont ▸ kont, ?_⟩
      have distinct := coherent.spells.nodup (.sem s)
      have notFirst : (slots (L (.sem s))).head? ≠ some p := by
        cases front : L (.sem s) with
        | nil => simp [front] at member
        | cons x rest =>
          obtain ⟨i, rfl⟩ := coherent.front_process (q := .sem s) (Or.inr trivial) front
          rw [front, List.nodup_cons] at distinct
          rw [front] at member
          simp only [slots_cons_pcb, List.head?_cons, ne_eq, Option.some.injEq]
          rintro rfl
          exact distinct.1 member
      rw [raised.woken_self, if_neg notFirst, asleep, ite_self]
    · rw [raised.queue] at waiting
      cases front : L (.sem s) with
      | nil => simp [front] at waiting
      | cons x rest =>
        -- the process at the head joins those that are on their way to the new unit
        obtain ⟨h, rfl⟩ := coherent.front_process (q := .sem s) (Or.inr trivial) front
        have head : Item.pcb h ∈ L (.sem s) := by simp [front]
        have fresh : h ∉ retesting s k := by simp [(served.waits h head).2]
        have more : insert h (retesting s k) ⊆ retesting s k' := by
          intro p member
          rw [Finset.mem_insert] at member
          rw [mem_retesting, ne_eq, raised.exited coherent]
          rcases member with rfl | member
          · refine ⟨by simp [(coherent.waiter (q := .sem s) trivial head).1], ?_⟩
            rw [raised.woken_self, front]
            simp
          · obtain ⟨live, woke⟩ := mem_retesting.mp member
            exact ⟨live, alive p woke⟩
        have cards := Finset.card_le_card more
        rw [Finset.card_insert_of_notMem fresh] at cards
        have before := served.credit (by simp [front])
        have bound := int32_le (x := k.count s + 1) (by have := served.low; omega)
        rw [count]
        omega
  · have count : k'.count s = k.count s := by
      rw [raised.count, Function.update_of_ne (Ne.symm same)]
    have queue : L' (.sem s) = L (.sem s) := raised.others _ (by simp) (by simp [Ne.symm same])
    have set : retesting s k' = retesting s k := by
      ext p
      simp only [mem_retesting, ne_eq, raised.exited coherent, raised.woken_other same]
    refine ⟨quiet, downs, fun p woke => ?_, fun p member => ?_, count ▸ served.low, fun waiting => ?_⟩
    · rw [raised.kont]
      exact served.woke p (raised.woken_other same ▸ woke)
    · rw [raised.kont, raised.woken_other same]
      exact served.waits p (queue ▸ member)
    · rw [count, set]
      exact served.credit (queue ▸ waiting)

theorem Lowered.served (lowered : Lowered t k L k' L') (served : Served s k L)
    (coherent : Coherent k L {k.currentRunning})
    (entered : k.kont k.currentRunning = .user ∨ k.kont k.currentRunning = .down t) :
    Served s k' L' := by
  have queue : L' (.sem s) = L (.sem s) := lowered.queues _ (by simp)
  have positive := lowered.positive
  refine ⟨lowered.quiet served.quiet, fun p => ?_, fun p woke => ?_, fun p member => ?_, ?_,
    fun waiting => ?_⟩
  · rw [lowered.kont]
    by_cases same : p = k.currentRunning
    · subst p; simp
    · simpa [same] using served.downs p
  · rw [lowered.woken] at woke
    split at woke
    · contradiction
    next other =>
      have before := served.woke p woke
      have distinct : p ≠ k.currentRunning := by
        rintro rfl
        rcases entered with idle | inside
        · simp [idle] at before
        · rw [inside] at before
          simp only [Kont.down.injEq] at before
          exact other ⟨before, rfl⟩
      rw [lowered.kont, Function.update_of_ne distinct]
      exact before
  · obtain ⟨kont, asleep⟩ := served.waits p (queue ▸ member)
    have distinct : p ≠ k.currentRunning := by
      rintro rfl
      exact coherent.off_nowhere (Set.mem_singleton _) (queue ▸ member)
    rw [lowered.kont, Function.update_of_ne distinct, lowered.woken, asleep, ite_self]
    exact ⟨kont, rfl⟩
  · rw [lowered.count]
    by_cases same : s = t
    · subst t
      rw [Function.update_self]
      exact int32_low _
    · rw [Function.update_of_ne same]
      exact served.low
  · have before := served.credit (queue ▸ waiting)
    rw [lowered.count]
    by_cases same : s = t
    · subst t
      have fewer : (retesting s k).erase k.currentRunning ⊆ retesting s k' := by
        intro p member
        obtain ⟨other, inside⟩ := Finset.mem_erase.mp member
        rw [mem_retesting] at inside ⊢
        rw [lowered.pcb, lowered.woken, if_neg (fun both => other both.2.symm)]
        exact inside
      have cards := Finset.card_le_card fewer
      have erased := Finset.pred_card_le_card_erase (s := retesting s k) (a := k.currentRunning)
      have bound := int32_le (x := k.count s - 1) (by omega)
      rw [Function.update_self]
      omega
    · have set : retesting s k' = retesting s k := by
        ext p
        rw [mem_retesting, mem_retesting, lowered.pcb, lowered.woken,
          if_neg (fun both => same both.1.symm)]
      rw [Function.update_of_ne same, set]
      exact before

theorem Refused.served (refused : Refused t k L k' L') (served : Served s k L)
    (coherent : Coherent k L {k.currentRunning})
    (entered : k.kont k.currentRunning = .user ∨ k.kont k.currentRunning = .down t) :
    Served s k' L' := by
  have quiet := refused.quiet served.quiet
  have distinct : ∀ p, Item.pcb p ∈ L (.sem s) → p ≠ k.currentRunning := by
    rintro p member rfl
    exact coherent.off_nowhere (Set.mem_singleton _) member
  refine ⟨quiet, fun p => ?_, fun p woke => ?_, fun p member => ?_, refused.count ▸ served.low,
    fun waiting => ?_⟩
  · rw [refused.kont]
    by_cases same : p = k.currentRunning
    · subst p; simp
    · simpa [same] using served.downs p
  · rw [refused.woken] at woke
    split at woke
    · contradiction
    next other =>
      have before := served.woke p woke
      have distinct : p ≠ k.currentRunning := by
        rintro rfl
        rcases entered with idle | inside
        · simp [idle] at before
        · rw [inside] at before
          simp only [Kont.down.injEq] at before
          exact other ⟨before, rfl⟩
      rw [refused.kont, Function.update_of_ne distinct]
      exact before
  · by_cases same : s = t
    · subst t
      rw [refused.queue, List.mem_append, List.mem_singleton, Item.pcb.injEq] at member
      rcases member with old | rfl
      · obtain ⟨kont, asleep⟩ := served.waits p old
        rw [refused.kont, Function.update_of_ne (distinct p old), refused.woken, asleep, ite_self]
        exact ⟨kont, rfl⟩
      · rw [refused.kont, Function.update_self, refused.woken]
        simp
    · rw [refused.others _ (by simp) (by simp [same])] at member
      obtain ⟨kont, asleep⟩ := served.waits p member
      rw [refused.kont, Function.update_of_ne (distinct p member), refused.woken, asleep, ite_self]
      exact ⟨kont, rfl⟩
  · have empty := refused.empty
    rw [refused.count]
    by_cases same : s = t
    · subst t
      omega
    · rw [refused.others _ (by simp) (by simp [same])] at waiting
      have more : retesting s k ⊆ retesting s k' := by
        intro p inside
        rw [mem_retesting] at inside ⊢
        rw [refused.woken, if_neg (fun both => same both.1.symm), ne_eq, refused.status]
        exact ⟨fun both => inside.1 both.2, inside.2⟩
      have cards := Finset.card_le_card more
      have before := served.credit waiting
      omega

/-- The life of processes moves no unit, as long as those that owe one keep on. -/
theorem Aside.served (aside : Aside k L k' L') (served : Served s k L)
    (coherent : Coherent k L off)
    (kept : ∀ p, woken s k.trace p = true → k'.kont p = k.kont p) : Served s k' L' := by
  obtain ⟨new, trace, acts⟩ := aside.trace
  have same : ∀ p, woken s k'.trace p = woken s k.trace p := fun p => trace ▸ woken_aside new _ acts
  have queue : L' (.sem s) = L (.sem s) := aside.queues (.sem s) trivial
  refine ⟨⟨fun l => ?_, fun l => ?_⟩, fun p => ?_, fun p woke => ?_, fun p member => ?_,
    aside.count ▸ served.low, fun waiting => ?_⟩
  · rw [aside.lock]; exact served.quiet.lock l
  · rw [aside.queues (.block l) trivial]; exact served.quiet.block l
  · rcases aside.kont p with kont | ⟨_, kont, _⟩
    · rw [kont]; exact served.downs p
    · exact Or.inl kont
  · rw [same] at woke
    exact (kept p woke).trans (served.woke p woke)
  · obtain ⟨inside, woke⟩ := served.waits p (queue ▸ member)
    rw [same]
    have blocked := (coherent.waiter (q := .sem s) trivial (queue ▸ member)).1
    refine ⟨?_, woke⟩
    rcases aside.kont p with kont | ⟨exited, _⟩
    · rw [kont, inside]
    · simp [blocked] at exited
  · have more : retesting s k ⊆ retesting s k' := by
      intro p inside
      rw [mem_retesting] at inside ⊢
      rw [same]
      refine ⟨fun exited => ?_, inside.2⟩
      rcases aside.exited p exited with before | rfl
      · exact inside.1 before
      · have woke := served.woke _ inside.2
        simp [aside.idle] at woke
    have cards := Finset.card_le_card more
    have before := served.credit (queue ▸ waiting)
    rw [aside.count]
    omega

/-- Initialising a semaphore that nobody uses yet. -/
theorem doSemaphoreInit_coherent (coherent : Coherent k L off) (queue : L (.sem s) = [])
    (block : L (.block (.sem s)) = []) (free : k.lock (.sem s) = .unlocked) :
    Coherent (doSemaphoreInit s v k) L off := by
  have first := queueInit_spells (q := .sem s) coherent.spells queue
  have second := queueInit_spells (q := .block (.sem s)) first block
  have lock : (doSemaphoreInit s v k).lock = k.lock := by
    simp only [doSemaphoreInit, doMutexLockInit]
    rw [← free, Function.update_eq_self]
  exact (coherent.respell second).reframe rfl lock (fun _ => rfl) (fun _ => rfl) (fun _ => rfl)
    (fun _ _ => rfl)

/-- A fresh semaphore, before anybody has blocked anywhere. -/
theorem doSemaphoreInit_served (nonneg : 0 ≤ v) (quiet : Quiet k L)
    (idle : ∀ p, k.kont p = .user) (fresh : ∀ p, woken s k.trace p = false)
    (queue : L (.sem s) = []) : Served s (doSemaphoreInit s v k) L where
  quiet := ⟨fun l => by
    simp only [doSemaphoreInit, doMutexLockInit]
    by_cases same : l = .sem s
    · subst l; simp
    · simpa [same] using quiet.lock l, quiet.block⟩
  downs p := Or.inl (idle p)
  woke p woke := by
    have : woken s k.trace p = true := woke
    simp [fresh] at this
  waits p member := by simp [queue] at member
  low := by
    simp only [doSemaphoreInit, Function.update_self]
    omega
  credit waiting := absurd queue waiting

end Tina
