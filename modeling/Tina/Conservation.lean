import Tina.Semaphore

/-! Semaphore conservation over whole runs without `kill`. -/
namespace Tina

open LinkedQueue Transition

variable {k k' : Kernel} {L L' : Lists} {p : Slot} {q : QueueId} {s t : Nat} {v : Int}
  {event : Event} {shell : TaskInfo} {l : List Item}

/-- Processes come and go and use semaphores. -/
def Event.Conserves (event : Event) : Prop := event.Aside ∨ event.Counting

/-- No `up` of `s` is made when its count is the greatest `int`. -/
def Headroom (s : Nat) (k : Kernel) (event : Event) : Prop :=
  event = .call (.up s) → k.count s < 2147483647

instance Event.Counting.decidable (event : Event) : Decidable event.Counting := by
  apply event.decide <;> intros <;> unfold Event.Counting <;> infer_instance

instance Event.Conserves.decidable (event : Event) : Decidable event.Conserves :=
  inferInstanceAs (Decidable (event.Aside ∨ event.Counting))

instance Headroom.decidable (s : Nat) (k : Kernel) (event : Event) :
    Decidable (Headroom s k event) :=
  inferInstanceAs (Decidable (event = .call (.up s) → k.count s < 2147483647))

/-- Units put in, and units taken out. -/
def raises (s : Nat) (trace : List Act) : Nat := trace.count (.up s)
def takes (s : Nat) (trace : List Act) : Nat := trace.count (.down s)

theorem tally_aside (new trace : List Act) (aside : ∀ a ∈ new, a.Aside) :
    raises s (new ++ trace) = raises s trace ∧ takes s (new ++ trace) = takes s trace := by
  have noUp : Act.up s ∉ new := fun member => aside _ member
  have noDown : Act.down s ∉ new := fun member => aside _ member
  simp [raises, takes, List.count_eq_zero_of_not_mem, noUp, noDown]

theorem tally_firstWoken (trace : List Act) :
    raises s (firstWoken q l ++ trace) = raises s trace ∧
    takes s (firstWoken q l ++ trace) = takes s trace := by
  unfold firstWoken
  cases (slots l).head? <;> simp [raises, takes]

theorem tally_reaps (ps : List Slot) (trace : List Act) :
    raises s (ps.map .reap ++ trace) = raises s trace ∧
    takes s (ps.map .reap ++ trace) = takes s trace :=
  tally_aside _ _ fun a member => reap_aside ps a member

/-- What every run preserves. -/
structure Conserved (s : Nat) (v : Int) (k : Kernel) (L : Lists) : Prop
    extends Peaceful k L, Served s k L where
  spent : ∀ p, (k.pcb p).status = .exited → woken s k.trace p = false
  tally : k.count s = v + raises s k.trace - takes s k.trace
  nonneg : 0 ≤ k.count s
  high : k.count s < 2147483648

theorem Conserved.aside (conserved : Conserved s v k L) (peaceful : Peaceful k' L')
    (aside : Aside k L k' L') : Conserved s v k' L' := by
  obtain ⟨new, trace, acts⟩ := aside.trace
  obtain ⟨ups, downs⟩ := tally_aside (s := s) new k.trace acts
  have kept : ∀ p, woken s k.trace p = true → k'.kont p = k.kont p := by
    intro p woke
    rcases aside.kont p with same | ⟨exited, _⟩
    · exact same
    · simp [conserved.spent p exited] at woke
  have served := aside.served conserved.toServed conserved.coherent kept
  refine { peaceful, served with spent := fun p exited => ?_, tally := ?_, nonneg := ?_, high := ?_ }
  · rw [trace, woken_aside new _ acts]
    rcases aside.exited p exited with before | rfl
    · exact conserved.spent p before
    · rw [Bool.eq_false_iff]
      intro woke
      simpa [aside.idle] using conserved.woke _ woke
  · rw [aside.count, trace, ups, downs]
    exact conserved.tally
  · rw [aside.count]
    exact conserved.nonneg
  · rw [aside.count]
    exact conserved.high

theorem Conserved.raised (conserved : Conserved s v k L) (peaceful : Peaceful k' L')
    (raised : Raised t k L k' L') (idle : k.kont k.currentRunning = .user)
    (room : t = s → k.count s < 2147483647) : Conserved s v k' L' := by
  have served := raised.served conserved.toServed conserved.coherent idle
  have nonneg := conserved.nonneg
  have tally := conserved.tally
  have counts : raises s k'.trace = raises s k.trace + (if t = s then 1 else 0) ∧
      takes s k'.trace = takes s k.trace := by
    rw [raised.trace]
    obtain ⟨up, down⟩ := tally_firstWoken (s := s) (q := .sem t) (l := L (.sem t))
      (.up t :: .acquire k.currentRunning (.sem t) :: k.trace)
    constructor
    · refine Eq.trans ?_ (up.trans ?_)
      · simp [raises]
      · by_cases same : t = s <;> simp [raises, same]
    · refine Eq.trans ?_ (down.trans ?_)
      · simp [takes]
      · simp [takes]
  have after : k'.count s = k.count s + if t = s then 1 else 0 := by
    rw [raised.count]
    by_cases same : t = s
    · subst t
      have := room rfl
      rw [Function.update_self, if_pos rfl]
      exact int32_of_lt (by omega) (by omega)
    · rw [Function.update_of_ne (Ne.symm same), if_neg same, Int.add_zero]
  refine { peaceful, served with spent := fun p exited => ?_, tally := ?_, nonneg := ?_, high := ?_ }
  · rw [raised.exited conserved.coherent] at exited
    by_cases same : t = s
    · subst t
      have notFirst : (slots (L (.sem s))).head? ≠ some p := by
        intro front
        have member : Item.pcb p ∈ L (.sem s) := mem_slots.mp (List.mem_of_head? front)
        simp [(conserved.coherent.waiter (q := .sem s) trivial member).1] at exited
      rw [raised.woken_self, if_neg notFirst, conserved.spent p exited, ite_self]
    · rw [raised.woken_other same]
      exact conserved.spent p exited
  · rw [after, counts.1, counts.2, tally]
    by_cases same : t = s <;> simp only [same, if_true, if_false] <;> omega
  · rw [after]
    split <;> omega
  · rw [after]
    split
    next same => have := room same; omega
    next => have := conserved.high; omega

theorem Conserved.lowered (conserved : Conserved s v k L) (peaceful : Peaceful k' L')
    (lowered : Lowered t k L k' L')
    (entered : k.kont k.currentRunning = .user ∨ k.kont k.currentRunning = .down t) :
    Conserved s v k' L' := by
  have served := lowered.served conserved.toServed conserved.coherent entered
  have nonneg := conserved.nonneg
  have tally := conserved.tally
  have positive := lowered.positive
  have counts : raises s k'.trace = raises s k.trace ∧
      takes s k'.trace = takes s k.trace + if t = s then 1 else 0 := by
    rw [lowered.trace]
    by_cases same : t = s <;> simp [raises, takes, same]
  have after : k'.count s = k.count s - (if t = s then 1 else 0) ∧ 0 ≤ k'.count s := by
    rw [lowered.count]
    by_cases same : t = s
    · subst t
      have := conserved.high
      rw [Function.update_self, if_pos rfl, int32_of_lt (by omega) (by omega)]
      omega
    · rw [Function.update_of_ne (Ne.symm same), if_neg same, Int.sub_zero]
      exact ⟨rfl, nonneg⟩
  refine { peaceful, served with spent := fun p exited => ?_, tally := ?_, nonneg := after.2, high := ?_ }
  · rw [lowered.pcb] at exited
    rw [lowered.woken, conserved.spent p exited, ite_self]
  · rw [after.1, counts.1, counts.2, tally]
    by_cases same : t = s <;> simp only [same, if_true, if_false] <;> omega
  · have := conserved.high
    rw [after.1]
    split <;> omega

theorem Conserved.refused (conserved : Conserved s v k L) (peaceful : Peaceful k' L')
    (refused : Refused t k L k' L')
    (entered : k.kont k.currentRunning = .user ∨ k.kont k.currentRunning = .down t) :
    Conserved s v k' L' := by
  have served := refused.served conserved.toServed conserved.coherent entered
  obtain ⟨ps, trace⟩ := refused.trace
  have counts : raises s k'.trace = raises s k.trace ∧ takes s k'.trace = takes s k.trace := by
    obtain ⟨up, down⟩ := tally_reaps (s := s) ps (.block (.sem t) k.currentRunning ::
      .release k.currentRunning (.sem t) :: .acquire k.currentRunning (.sem t) :: k.trace)
    rw [trace]
    constructor
    · refine Eq.trans ?_ (up.trans ?_) <;> simp [raises]
    · refine Eq.trans ?_ (down.trans ?_) <;> simp [takes]
  refine { peaceful, served with spent := fun p exited => ?_, tally := ?_, nonneg := ?_, high := ?_ }
  · rw [refused.status] at exited
    rw [refused.woken, conserved.spent p exited.2, ite_self]
  · rw [refused.count, counts.1, counts.2]
    exact conserved.tally
  · rw [refused.count]
    exact conserved.nonneg
  · rw [refused.count]
    exact conserved.high

theorem step_conserved (conserved : Conserved s v k L) (conserves : event.Conserves)
    (room : Headroom s k event) (step : Step k event k') : ∃ L', Conserved s v k' L' := by
  rcases conserves with aside | counting
  · obtain ⟨L', peaceful, isAside⟩ := step_aside conserved.toPeaceful aside
      (fun _ => conserved.quiet.holding conserved.coherent) step
    exact ⟨L', conserved.aside peaceful isAside⟩
  · obtain ⟨M, peaceful⟩ :=
      step_peaceful conserved.toPeaceful counting.spares counting.good step
    obtain ⟨t, L', coherent, outcome⟩ := counting_step conserved.coherent conserved.quiet
      conserved.resting conserved.downs counting step
    have peaceful' : Peaceful k' L' := ⟨peaceful.toSound.restate coherent, peaceful.spared⟩
    refine ⟨L', ?_⟩
    rcases outcome with ⟨rfl, idle, raised⟩ | ⟨entered, lowered | refused⟩
    · exact conserved.raised peaceful' raised idle fun same => room (by rw [same])
    · exact conserved.lowered peaceful' lowered (entered.imp And.right And.right)
    · exact conserved.refused peaceful' refused (entered.imp And.right And.right)

theorem doSemaphoreInit_peaceful (peaceful : Peaceful k L) (queue : L (.sem s) = [])
    (block : L (.block (.sem s)) = []) (free : k.lock (.sem s) = .unlocked) :
    Peaceful (doSemaphoreInit s v k) L :=
  ⟨⟨doSemaphoreInit_coherent peaceful.coherent queue block free, peaceful.active, peaceful.fits⟩,
    peaceful.spared⟩

theorem doSemaphoreInit_conserved (nonneg : 0 ≤ v) (int : v < 2147483648) :
    Conserved s v (doSemaphoreInit s v (initPcb shell)) fun _ => [] := by
  have fresh : ∀ p, woken s (initPcb shell).trace p = false := fun p => by
    rw [initPcb_trace]
    rfl
  have lock : (initPcb shell).lock (.sem s) = .unlocked := initPcb_quiet.lock _
  have peaceful : Peaceful (doSemaphoreInit s v (initPcb shell)) fun _ => [] :=
    doSemaphoreInit_peaceful initPcb_peaceful rfl rfl lock
  have served : Served s (doSemaphoreInit s v (initPcb shell)) fun _ => [] :=
    doSemaphoreInit_served nonneg initPcb_quiet (fun _ => initPcb_idle) fresh rfl
  have trace : (doSemaphoreInit s v (initPcb shell)).trace = [.spawn 0] := initPcb_trace
  have count : (doSemaphoreInit s v (initPcb shell)).count s = v := by simp [doSemaphoreInit]
  refine { peaceful, served with spent := fun p _ => fresh p, tally := ?_, nonneg := ?_, high := ?_ }
  · rw [count, trace]
    simp [raises, takes]
  · rw [count]; exact nonneg
  · rw [count]; exact int

/-- What can be relied on in every state: `L (.sem s)` is what the links of the
semaphore's queue spell. -/
structure Conservation (s : Nat) (v : Int) (k : Kernel) (L : Lists) : Prop where
  chain : k.links.Walk (k.links.head (.sem s)) (L (.sem s))
  queue : ∀ p, Item.pcb p ∈ L (.sem s) ↔
    (k.pcb p).status = .blocked ∧ (k.pcb p).chan = some (.sem s)
  count : k.count s = v + raises s k.trace - takes s k.trace
  nonneg : 0 ≤ k.count s
  unlocked : k.lock (.sem s) = .unlocked
  covered : L (.sem s) ≠ [] → k.count s ≤ (retesting s k).card
  noLostWakeup : ¬ (0 < k.count s ∧ L (.sem s) ≠ [] ∧ retesting s k = ∅)

theorem Conserved.conservation (conserved : Conserved s v k L) : Conservation s v k L where
  chain := conserved.coherent.spells.walk _
  queue p := by
    constructor
    · exact conserved.coherent.waiter (q := .sem s) trivial
    · rintro ⟨blocked, chan⟩
      refine (conserved.coherent.procs p _).mpr ⟨?_, by simp [Kernel.place, blocked, chan]⟩
      rintro rfl
      rcases conserved.active with current | current | ⟨current, _⟩ <;>
        simp [Kernel.current, blocked] at current
  count := conserved.tally
  nonneg := conserved.nonneg
  unlocked := conserved.quiet.lock _
  covered := conserved.credit
  noLostWakeup := by
    rintro ⟨positive, waiting, nobody⟩
    have := conserved.credit waiting
    rw [nobody, Finset.card_empty] at this
    omega

/-- For every initial value and every run of `up` and `down` by any processes. -/
theorem reachable_conservation (nonneg : 0 ≤ v) (int : v < 2147483648)
    (reach : Reachable Step (fun k event => event.Conserves ∧ Headroom s k event)
      (doSemaphoreInit s v (initPcb shell)) k) : ∃ L, Conservation s v k L := by
  have invariant : ∃ L, Conserved s v k L := by
    refine reach.invariant (fun k => ∃ L, Conserved s v k L)
      ⟨_, doSemaphoreInit_conserved nonneg int⟩ ?_
    rintro k event k' ⟨L, conserved⟩ ⟨conserves, room⟩ step
    exact step_conserved conserved conserves room step
  obtain ⟨L, conserved⟩ := invariant
  exact ⟨L, conserved.conservation⟩

/-- The shell downs an empty semaphore and a second process ups it. -/
theorem reachable_conservation_handover : ∃ k, (raises 5 k.trace = 1 ∧ takes 5 k.trace = 1 ∧
    .block (.sem 5) 0 ∈ k.trace) ∧ ∃ L, Conservation 5 0 k L := by
  obtain ⟨k, reach, handed⟩ := runAllowed_found
    (fun k event => event.Conserves ∧ Headroom 5 k event) 8 300
    [.call (.spawn someTask), .call (.down 5), .call (.up 5), .timer, .resume]
    (doSemaphoreInit 5 0 (initPcb someTask)) (fun k => raises 5 k.trace = 1 ∧
      takes 5 k.trace = 1 ∧ .block (.sem 5) 0 ∈ k.trace) (by decide)
  exact ⟨k, handed, reachable_conservation (by decide) (by decide) reach⟩

/-- At the greatest `int` a single `up` makes the count negative. -/
theorem up_overflows : ∃ k, Reachable Step (fun _ event => event.Conserves)
    (doSemaphoreInit 0 2147483647 (initPcb someTask)) k ∧
    raises 0 k.trace = 1 ∧ takes 0 k.trace = 0 ∧ k.count 0 = -2147483648 :=
  runAllowed_found (fun _ event => event.Conserves) 8 300 [.call (.up 0)]
    (doSemaphoreInit 0 2147483647 (initPcb someTask))
    (fun k => raises 0 k.trace = 1 ∧ takes 0 k.trace = 0 ∧ k.count 0 = -2147483648) (by decide)

end Tina
