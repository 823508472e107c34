import Tina.Conservation

/-! Semaphores and `kill`. A killed process takes with it the unit it was woken for;
the run stays safe as long as that unit is not the one somebody else waits for. -/
namespace Tina

open LinkedQueue Transition

variable {k k' m : Kernel} {L L' : Lists} {p i : Slot} {q : QueueId} {s t : Nat} {v : Int}
  {event : Event} {shell task : TaskInfo} {id : Int}

/-- Any processes use one semaphore, are preempted and killed. -/
def Event.Contends (s : Nat) : Event → Prop
  | .timer | .resume | .call (.kill _) => True
  | .call (.up t) | .call (.down t) => t = s
  | _ => False

/-- A `kill` that does not take a blocked process out of the middle of the queue, and
takes a woken one only if nobody waits or the other woken ones cover the count. -/
def Spares (s : Nat) (k : Kernel) : Event → Prop
  | .call (.kill id) => ∀ i, lookup id k = some i →
      ((k.pcb i).status = .blocked →
        k.links.head (.sem s) = some (.pcb i) ∨ k.links.tail (.sem s) = some (.pcb i)) ∧
      (i ∈ retesting s k → k.links.head (.sem s) ≠ none → k.count s < (retesting s k).card)
  | _ => True

instance Event.Contends.decidable (s : Nat) (event : Event) : Decidable (event.Contends s) := by
  apply event.decide <;> intros <;> unfold Event.Contends <;> infer_instance

instance Spares.decidable (s : Nat) (k : Kernel) (event : Event) : Decidable (Spares s k event) := by
  apply event.decide <;> intros <;> unfold Spares <;> infer_instance

/-- What is preserved: besides the credit, that nobody is anywhere but on the ready
queue or on the queue of `s`. -/
structure Contended (s : Nat) (k : Kernel) (L : Lists) : Prop extends Sound k L, Served s k L where
  sole : ∀ q, q ≠ .ready → q ≠ .sem s → L q = []
  only : ∀ p t, k.kont p = .down t → t = s
  clean : Clean k
  own : k.current.chan = none

theorem Contended.resting (contended : Contended s k L) : Resting k L := fun p _ _ =>
  ⟨contended.sole _ (by simp) (by simp), contended.sole _ (by simp) (by simp)⟩

/-- Whoever is blocked is blocked on `s`. -/
theorem Contended.station (contended : Contended s k L) (blocked : (k.pcb p).status = .blocked) :
    p ≠ k.currentRunning ∧ (k.pcb p).chan = some (.sem s) ∧ Item.pcb p ∈ L (.sem s) := by
  have other : p ≠ k.currentRunning := by
    rintro rfl
    rcases contended.active with current | current | ⟨current, _⟩ <;>
      simp [Kernel.current, blocked] at current
  obtain ⟨q, chan, parking⟩ := contended.coherent.parked p blocked
  have member : Item.pcb p ∈ L q := (contended.coherent.procs p q).mpr
    ⟨by simpa using other, by simp [Kernel.place, blocked, chan]⟩
  have here : q = .sem s := by
    by_contra elsewhere
    simp [contended.sole q (parking_ne_ready parking) elsewhere] at member
  subst q
  exact ⟨other, chan, member⟩

theorem Contended.removable (contended : Contended s k L) (spares : Spares s k (.call (.kill id)))
    (found : lookup id k = some i) : Removable k i := by
  by_cases free : (k.pcb i).chan = none
  · exact Or.inl free
  · have blocked := contended.clean i (lookup_live found).2 free
    obtain ⟨_, chan, _⟩ := contended.station blocked
    refine Or.inr ⟨blocked, fun q here => ?_⟩
    obtain rfl : QueueId.sem s = q := by simpa [chan] using here
    exact (spares i found).1 blocked

theorem clean_own (clean : Clean k) (running : k.current.status = .running) :
    k.current.chan = none := by
  by_contra chan
  have blocked := clean k.currentRunning (by simp [Kernel.current] at running; simp [running]) chan
  simp [Kernel.current, blocked] at running

/-- A preemption touches no semaphore. -/
theorem timer_contended (contended : Contended s k L) (step : Step k .timer k') :
    ∃ L', Contended s k' L' := by
  obtain ⟨_, sound, _⟩ := step_sequel contended.toSound (show Event.timer.Keeps from trivial)
    trivial step
  obtain ⟨fuel, clk, result⟩ := step
  simp only [execute] at result
  split at result
  next idle =>
    have runnable : Runnable ({ k.current with status := .ready } : Pcb).status := Or.inr (Or.inr rfl)
    obtain ⟨_, _, running, stored, waking, _⟩ :=
      switch_spec (yield_coherent contended.coherent runnable) result
    obtain ⟨L', coherent, queues, aside⟩ :=
      yield_aside contended.coherent contended.resting idle _ runnable result
    have kont : k'.kont = k.kont := stored
    have served := aside.served contended.toServed contended.coherent fun p _ => by rw [kont]
    have clean : Clean k' := by
      refine waking.clean fun p live chan => ?_
      by_cases same : p = k.currentRunning
      · subst p
        simp [yield, Kernel.setPcb, Kernel.push, contended.own] at chan
      · simp only [yield, Kernel.setPcb, Kernel.push, Function.update_of_ne same] at live chan ⊢
        exact contended.clean p live chan
    refine ⟨L', { sound.restate coherent, served with
      sole := fun q notReady other => ?_, only := fun p t inside => ?_,
      clean := clean, own := clean_own clean running }⟩
    · rw [queues q notReady]
      exact contended.sole q notReady other
    · rw [kont] at inside
      exact contended.only p t inside
  next => contradiction

theorem Raised.contended (raised : Raised s k L k' L') (contended : Contended s k L)
    (sound : Sound k' L') (idle : k.kont k.currentRunning = .user) : Contended s k' L' := by
  have served := raised.served contended.toServed contended.coherent idle
  refine { sound, served with
    sole := fun q notReady other => ?_, only := fun p t inside => ?_,
    clean := fun p live chan => ?_, own := ?_ }
  · rw [raised.others q notReady other]
    exact contended.sole q notReady other
  · rw [raised.kont] at inside
    exact contended.only p t inside
  · rw [raised.status] at live chan ⊢
    split at chan
    · contradiction
    next notFirst =>
      rw [if_neg notFirst] at live ⊢
      exact contended.clean p live chan
  · have notFirst : (slots (L (.sem s))).head? ≠ some k.currentRunning := by
      intro front
      exact contended.coherent.off_nowhere (Set.mem_singleton _)
        (mem_slots.mp (List.mem_of_head? front))
    rw [Kernel.current, raised.current, raised.status, if_neg notFirst]
    exact contended.own

theorem Lowered.contended (lowered : Lowered s k L k' L') (contended : Contended s k L)
    (sound : Sound k' L')
    (entered : k.kont k.currentRunning = .user ∨ k.kont k.currentRunning = .down s) :
    Contended s k' L' := by
  have served := lowered.served contended.toServed contended.coherent entered
  refine { sound, served with
    sole := fun q notReady other => ?_, only := fun p t inside => ?_,
    clean := fun p live chan => ?_, own := ?_ }
  · rw [lowered.queues q notReady]
    exact contended.sole q notReady other
  · rw [lowered.kont] at inside
    by_cases same : p = k.currentRunning
    · subst p; simp at inside
    · exact contended.only p t (by simpa [same] using inside)
  · rw [lowered.pcb] at live chan ⊢
    exact contended.clean p live chan
  · rw [Kernel.current, lowered.current, lowered.pcb]
    exact contended.own

theorem Refused.contended (refused : Refused s k L k' L') (contended : Contended s k L)
    (sound : Sound k' L')
    (entered : k.kont k.currentRunning = .user ∨ k.kont k.currentRunning = .down s) :
    Contended s k' L' := by
  have served := refused.served contended.toServed contended.coherent entered
  have clean := refused.clean contended.clean
  refine { sound, served with
    sole := fun q notReady other => ?_, only := fun p t inside => ?_,
    clean := clean, own := clean_own clean refused.running }
  · rw [refused.others q notReady other]
    exact contended.sole q notReady other
  · rw [refused.kont] at inside
    by_cases same : p = k.currentRunning
    · subst p
      simpa [eq_comm] using inside
    · exact contended.only p t (by simpa [same] using inside)

/-- What `kill` does to the two lists it touches. -/
structure Condemned (s : Nat) (i : Slot) (k : Kernel) (L : Lists) (k' : Kernel) (L' : Lists) :
    Prop where
  same : ∃ links, k' = (condemn i k).relink links
  queue : ∀ p, Item.pcb p ∈ L' (.sem s) → Item.pcb p ∈ L (.sem s)
  others : ∀ q, q ≠ .ready → q ≠ .sem s → L' q = L q

theorem kill_condemns (contended : Contended s k L) (removable : Removable k i)
    (found : lookup id k = some i) : ∃ L', Coherent (kill id k) L' {k.currentRunning} ∧
    Condemned s i k L (kill id k) L' := by
  obtain ⟨_, live⟩ := lookup_live found
  rw [kill_eq found]
  cases chan : (k.pcb i).chan with
  | none =>
    exact ⟨L, condemn_coherent contended.coherent live chan, ⟨k.links, rfl⟩,
      fun _ member => member, fun _ _ _ => rfl⟩
  | some q =>
    rcases removable with free | ⟨blocked, atEnd⟩
    · simp [chan] at free
    · obtain ⟨other, station, _⟩ := contended.station blocked
      obtain rfl : q = .sem s := by simpa [chan] using station
      refine ⟨_, condemn_blocked contended.coherent blocked (by simpa using other) chan
        (atEnd _ chan), ⟨_, rfl⟩, fun p member => ?_, fun q notReady other => ?_⟩
      · simp only [parkLists, Function.update_of_ne (show QueueId.sem s ≠ .ready by simp),
          Function.update_self] at member
        exact List.mem_of_mem_erase member
      · simp [parkLists, notReady, other]

theorem Condemned.contended (condemned : Condemned s i k L k' L') (contended : Contended s k L)
    (sound : Sound k' L')
    (covered : i ∈ retesting s k → L (.sem s) ≠ [] → k.count s < (retesting s k).card) :
    Contended s k' L' := by
  obtain ⟨links, rfl⟩ := condemned.same
  have woken : ∀ p, woken s ((condemn i k).relink links).trace p = woken s k.trace p := fun _ => rfl
  have fewer : (retesting s k).erase i ⊆ retesting s ((condemn i k).relink links) := by
    intro p member
    obtain ⟨other, inside⟩ := Finset.mem_erase.mp member
    rw [mem_retesting] at inside ⊢
    rw [relink_pcb, condemn_status, if_neg other]
    exact inside
  have cards := Finset.card_le_card fewer
  have status : ∀ p, ((condemn i k).pcb p).status ≠ .exited → p ≠ i := by
    rintro p live rfl
    simp [condemn_status] at live
  refine { sound with
    quiet := ⟨contended.quiet.lock, fun l => ?_⟩, downs := contended.downs,
    woke := contended.woke, waits := fun p member => contended.waits p (condemned.queue p member),
    low := contended.low, credit := fun waiting => ?_,
    sole := fun q notReady other => ?_, only := contended.only,
    clean := fun p live chan => ?_, own := ?_ }
  · rw [condemned.others _ (by simp) (by simp)]
    exact contended.quiet.block l
  · have before : L (.sem s) ≠ [] := by
      obtain ⟨x, rest, front⟩ := List.exists_cons_of_ne_nil waiting
      obtain ⟨p, rfl⟩ := sound.coherent.front_process (q := .sem s) (Or.inr trivial) front
      exact List.ne_nil_of_mem (condemned.queue p (by simp [front]))
    have credit := contended.credit before
    have count : ((condemn i k).relink links).count s = k.count s := rfl
    rw [count]
    by_cases inside : i ∈ retesting s k
    · have strict := covered inside before
      rw [Finset.card_erase_of_mem inside] at cards
      omega
    · rw [Finset.erase_eq_of_notMem inside] at cards
      omega
  · rw [condemned.others q notReady other]
    exact contended.sole q notReady other
  · have other := status p live
    simp only [relink_pcb, condemn_status, condemn_chan, if_neg other] at live chan ⊢
    exact contended.clean p live chan
  · have chan : ((condemn i k).relink links).current.chan = k.current.chan := by
      rw [Kernel.current, relink_pcb, condemn_chan]
      rfl
    rw [chan]
    exact contended.own

theorem kill_contended (contended : Contended s k L) (spares : Spares s k (.call (.kill id))) :
    ∃ L', Contended s (kill id k) L' := by
  cases found : lookup id k with
  | none =>
    have same : kill id k = k := by simp [kill, found]
    exact ⟨L, same.symm ▸ contended⟩
  | some i =>
    have removable := contended.removable spares found
    obtain ⟨_, sound⟩ := kill_sound contended.toSound fun j same => by
      obtain rfl : i = j := Option.some.inj (found.symm.trans same)
      exact removable
    obtain ⟨L', coherent, condemned⟩ := kill_condemns contended removable found
    have current : (kill id k).currentRunning = k.currentRunning := by
      obtain ⟨_, same⟩ := condemned.same
      rw [same]
      rfl
    refine ⟨L', condemned.contended contended (sound.restate (by rwa [current]))
      fun inside waiting => (spares i found).2 inside ?_⟩
    rw [contended.coherent.spells.head]
    simpa using waiting

theorem step_contended (contended : Contended s k L) (contends : event.Contends s)
    (spares : Spares s k event) (step : Step k event k') : ∃ L', Contended s k' L' := by
  have counting : event.Counting → ∃ L', Contended s k' L' := by
    intro counting
    have keeps : event.Keeps := by
      rcases event with call | _ | _
      · cases call <;> first | exact counting.elim | trivial
      · trivial
      · trivial
    obtain ⟨_, sound, _⟩ := step_sequel contended.toSound keeps counting.good step
    obtain ⟨t, L', coherent, outcome⟩ := counting_step contended.coherent contended.quiet
      contended.resting contended.downs counting step
    have sound := sound.restate coherent
    refine ⟨L', ?_⟩
    rcases outcome with ⟨rfl, idle, raised⟩ | ⟨entered, outcome⟩
    · obtain rfl : t = s := contends
      exact raised.contended contended sound idle
    · obtain rfl : t = s := by
        rcases entered with ⟨rfl, _⟩ | ⟨_, inside⟩
        · exact contends
        · exact contended.only _ _ inside
      have entered := entered.imp And.right And.right
      rcases outcome with lowered | refused
      · exact lowered.contended contended sound entered
      · exact refused.contended contended sound entered
  rcases event with call | _ | _
  · cases call with
    | kill id =>
      obtain ⟨fuel, clk, result⟩ := step
      simp only [execute] at result
      split at result
      · obtain rfl := Option.some.inj result
        exact kill_contended contended spares
      · contradiction
    | up t => exact counting trivial
    | down t => exact counting trivial
    | _ => exact contends.elim
  · exact timer_contended contended step
  · exact counting trivial

/-- Any number of processes, spawned before the semaphore is used. -/
def spawnAll (tasks : List TaskInfo) (k : Kernel) : Kernel :=
  tasks.foldl (fun k task => spawn task k) k

/-- Before anybody has used a synchronization object. -/
structure Fresh (k : Kernel) (L : Lists) : Prop extends Peaceful k L where
  lock : ∀ l, k.lock l = .unlocked
  lists : ∀ q, q ≠ .ready → L q = []
  idle : ∀ p, k.kont p = .user
  unwoken : ∀ s p, woken s k.trace p = false
  chan : ∀ p, (k.pcb p).chan = none

theorem initPcb_fresh (shell : TaskInfo) : Fresh (initPcb shell) fun _ => [] := by
  refine { initPcb_peaceful with
    lock := initPcb_quiet.lock, lists := fun _ _ => rfl, idle := fun _ => initPcb_idle,
    unwoken := fun _ _ => by rw [initPcb_trace]; rfl, chan := fun p => ?_ }
  obtain ⟨_, _, same⟩ := initPcb_eq shell
  rw [same]
  by_cases zero : p = 0 <;> simp [zero, assignt, assignTask, Kernel.setPcb, Kernel.record, boot]

theorem spawn_fresh (task : TaskInfo) (fresh : Fresh k L) : ∃ L', Fresh (spawn task k) L' := by
  obtain ⟨⟨_, peaceful⟩, _, rest⟩ := spawn_peaceful fresh.toPeaceful task
  rcases rest with same | ⟨i, exited, other, same⟩
  · exact ⟨L, same.symm ▸ fresh⟩
  · have reused := assignt_spec fresh.coherent exited (fresh.spared i) (by simpa using other) task
    rw [same] at peaceful ⊢
    refine ⟨parkLists .ready i L, { peaceful.toSound.restate reused with
      spared := peaceful.spared, lock := fresh.lock, lists := fun q notReady => ?_,
      idle := fun p => ?_, unwoken := fresh.unwoken, chan := fun p => ?_ }⟩
    · simp [parkLists, notReady, fresh.lists q notReady]
    · by_cases new : p = i
      · subst p; simp [assignt, assignTask, Kernel.setPcb, Kernel.record]
      · simp [assignt, assignTask, Kernel.setPcb, Kernel.record, new, fresh.idle]
    · by_cases new : p = i
      · subst p; simp [assignt, assignTask, Kernel.setPcb, Kernel.record, fresh.chan]
      · simp [assignt, assignTask, Kernel.setPcb, Kernel.record, new, fresh.chan]

theorem spawnAll_fresh (tasks : List TaskInfo) (fresh : Fresh k L) :
    ∃ L', Fresh (spawnAll tasks k) L' := by
  induction tasks generalizing k L with
  | nil => exact ⟨L, fresh⟩
  | cons task tasks ih =>
    obtain ⟨L', fresh'⟩ := spawn_fresh task fresh
    exact ih fresh'

theorem Fresh.contended (fresh : Fresh k L) (nonneg : 0 ≤ v) :
    Contended s (doSemaphoreInit s v k) L := by
  have queue : ∀ q, q ≠ .ready → L q = [] := fresh.lists
  have quiet : Quiet k L := ⟨fresh.lock, fun l => queue _ (by simp)⟩
  have peaceful : Peaceful (doSemaphoreInit s v k) L :=
    doSemaphoreInit_peaceful fresh.toPeaceful (queue _ (by simp)) (queue _ (by simp)) (fresh.lock _)
  have served : Served s (doSemaphoreInit s v k) L :=
    doSemaphoreInit_served nonneg quiet fresh.idle (fresh.unwoken s) (queue _ (by simp))
  refine { peaceful.toSound, served with
    sole := fun q notReady _ => queue q notReady, only := fun p t inside => ?_,
    clean := fun p _ chan => absurd (fresh.chan p) chan, own := fresh.chan _ }
  have idle : k.kont p = .down t := inside
  simp [fresh.idle p] at idle

/-- In every run that kills with care, no unit lies idle while a live process waits
and nobody is on the way to it. -/
theorem reachable_no_lost_wakeup (tasks : List TaskInfo) (nonneg : 0 ≤ v)
    (reach : Reachable Step (fun k event => event.Contends s ∧ Spares s k event)
      (doSemaphoreInit s v (spawnAll tasks (initPcb shell))) k) :
    ¬ (0 < k.count s ∧
      (∃ p, (k.pcb p).status = .blocked ∧ (k.pcb p).chan = some (.sem s)) ∧
      ∀ p, (k.pcb p).status ≠ .exited → woken s k.trace p = false) := by
  have invariant : ∃ L, Contended s k L := by
    obtain ⟨L, fresh⟩ := spawnAll_fresh tasks (initPcb_fresh shell)
    refine reach.invariant (fun k => ∃ L, Contended s k L) ⟨L, fresh.contended nonneg⟩ ?_
    rintro k event k' ⟨L, contended⟩ ⟨contends, spares⟩ step
    exact step_contended contended contends spares step
  obtain ⟨L, contended⟩ := invariant
  rintro ⟨positive, ⟨p, blocked, _⟩, nobody⟩
  obtain ⟨_, _, member⟩ := contended.station blocked
  have credit := contended.credit (List.ne_nil_of_mem member)
  have empty : retesting s k = ∅ := by
    rw [Finset.eq_empty_iff_forall_notMem]
    intro i inside
    obtain ⟨live, woke⟩ := mem_retesting.mp inside
    simp [nobody i live] at woke
  rw [empty, Finset.card_empty] at credit
  omega

/-- A waiting process is woken while another one is killed. -/
theorem reachable_no_lost_wakeup_kill : ∃ k : Kernel,
    (.wake (.sem 0) 0 ∈ k.trace ∧ .kill 2 ∈ k.trace) ∧
    ¬ (0 < k.count 0 ∧
      (∃ p, (k.pcb p).status = .blocked ∧ (k.pcb p).chan = some (.sem 0)) ∧
      ∀ p, (k.pcb p).status ≠ .exited → woken 0 k.trace p = false) := by
  obtain ⟨k, reach, killed⟩ := runAllowed_found
    (fun k event => event.Contends 0 ∧ Spares 0 k event) 8 300
    [.call (.down 0), .call (.up 0), .call (.kill 3)]
    (doSemaphoreInit 0 0 (spawnAll [someTask, someTask] (initPcb someTask)))
    (fun k => .wake (.sem 0) 0 ∈ k.trace ∧ .kill 2 ∈ k.trace) (by decide)
  exact ⟨k, killed, reachable_no_lost_wakeup [someTask, someTask] (by decide) reach⟩

/-- Two processes wait, an `up` wakes the first, and a `kill` takes it before it runs:
the unit stays in the count and the second one stays on the queue. -/
theorem kill_loses_wakeup : ∃ k, Reachable Step (fun _ event => event.Contends 0)
    (doSemaphoreInit 0 0 (spawnAll [someTask, someTask] (initPcb someTask))) k ∧
    0 < k.count 0 ∧ ((k.pcb 1).status = .blocked ∧ (k.pcb 1).chan = some (.sem 0)) ∧
    ∀ p, (k.pcb p).status ≠ .exited → woken 0 k.trace p = false :=
  runAllowed_found (fun _ event => event.Contends 0) 8 300
    [.call (.down 0), .call (.down 0), .call (.up 0), .call (.kill 1)]
    (doSemaphoreInit 0 0 (spawnAll [someTask, someTask] (initPcb someTask)))
    (fun k => 0 < k.count 0 ∧ ((k.pcb 1).status = .blocked ∧ (k.pcb 1).chan = some (.sem 0)) ∧
      ∀ p, (k.pcb p).status ≠ .exited → woken 0 k.trace p = false) (by decide)

end Tina
