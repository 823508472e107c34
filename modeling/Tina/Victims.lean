import Tina.Recycling
import Tina.Selection

/-! Whether a killed process runs again. `kill` only writes a status, and every later writer
of that status has to leave the dead alone. -/
namespace Tina

open LinkedQueue Transition

variable {k k' m : Kernel} {L M : Lists} {off : Set Slot} {p i : Slot} {q : QueueId}
  {kont : Kont} {event : Event} {fuel : Nat} {clk : Word} {id : Int} {shell task : TaskInfo}

/-- Nobody waits who has exited. -/
theorem Coherent.not_woken (c : Coherent k L off) (exited : (k.pcb i).status = .exited) :
    ¬Woken L p i := by
  have live : ∀ q : QueueId, q.Parking → Item.pcb i ∉ L q := by
    intro q parking waits
    have blocked := (c.waiter parking waits).1
    rw [exited] at blocked
    cases blocked
  rintro (⟨l, _, waits⟩ | waits)
  · exact live (.block l) trivial waits
  · exact live (.waiting p) trivial waits

theorem setPcb_exited {v : Pcb} (exited : (k.pcb i).status = .exited)
    (live : (k.pcb p).status ≠ .exited) : ((k.setPcb p v).pcb i).status = .exited := by
  have other : i ≠ p := by
    rintro rfl
    exact live exited
  simpa [Kernel.setPcb, other] using exited

/-- The selection loop wakes sleepers and those who wait for a process it reaps. -/
theorem select_exited (c : Coherent k L ∅) (result : select fuel k = some k')
    (exited : (k.pcb i).status = .exited) : (k'.pcb i).status = .exited := by
  induction fuel generalizing k L with
  | zero => cases result
  | succ fuel ih =>
    cases front : L .ready with
    | nil =>
      rw [select, queueDequeue_nil c.spells front] at result
      cases result
    | cons x rest =>
      obtain ⟨p, rfl⟩ := c.front_process (.inl rfl) front
      have c₁ := taken_coherent c front
      rcases select_cases c front result with ⟨selectable, rfl⟩ | ⟨asleep, result⟩ |
        ⟨status, m, reap, result⟩
      · have live : (k.pcb p).status ≠ .exited := by
          rcases selectable with status | status | ⟨status, _⟩ <;> simp [status]
        exact setPcb_exited (k := taken p k) exited live
      · exact ih (rotate_coherent c₁ (Or.inr (Or.inl asleep))) result exited
      · obtain ⟨links, rfl, c₂⟩ := reap_spec (p := p) c₁ rfl (Set.mem_singleton p) status reap
        rw [Set.sdiff_self] at c₂
        refine ih c₂ result ?_
        rw [relink_pcb, reaped_asleep (k := taken p k) (c₁.not_woken (k := taken p k) exited)]
        exact exited

theorem switch_exited (c : Coherent k L ∅) (result : switch fuel clk k = some k')
    (exited : (k.pcb i).status = .exited) : (k'.pcb i).status = .exited := by
  simp only [switch, Option.bind_eq_bind, Option.bind_eq_some_iff, Option.some.injEq] at result
  obtain ⟨m, select, rfl⟩ := result
  have c₁ := saveCursor_coherent c
  have saved : ((saveCursor k).pcb i).status = .exited := by
    by_cases same : i = k.currentRunning
    · subst i
      simpa [saveCursor, Kernel.setPcb, Kernel.current] using exited
    · simpa [saveCursor, Kernel.setPcb, same] using exited
  obtain ⟨_, _, ready, _⟩ := select_spec c₁ select
  have left := select_exited c₁ select saved
  have other : i ≠ m.currentRunning := by
    rintro rfl
    rw [ready] at left
    cases left
  simpa [enter, setTimer, Kernel.record, Kernel.setPcb, other] using left

/-- Whoever has exited and is not running stays so. -/
def Buries (k k' : Kernel) : Prop :=
  ∀ i, i ≠ k.currentRunning → (k.pcb i).status = .exited → (k'.pcb i).status = .exited

theorem Steady.buries (steady : Steady k m) (later : Buries m k') : Buries k k' := by
  intro i other exited
  exact later i (by rwa [steady.current]) ((steady.exited i).mpr exited)

theorem doBlock_buries (sound : Sound k L) (parking : q.Parking)
    (attended : ∀ i, q = .waiting i → i ≠ k.currentRunning ∧ (k.pcb i).status ≠ .exited)
    (result : doBlock fuel clk q kont k = some k') : Buries k k' := by
  intro i other exited
  refine switch_exited (blockedOn_coherent sound.coherent parking attended) result ?_
  simpa [blockedOn, parkOn, Kernel.setPcb, Kernel.push, Kernel.record, other] using exited

theorem Outcome.buries (outcome : Outcome k k') : Buries k k' := by
  cases outcome with
  | stays L' steady coherent => exact fun i _ exited => (steady.exited i).mpr exited
  | blocks m M q kont fuel clk steady sound parking fits attended block =>
    exact steady.buries (doBlock_buries sound parking attended block)

theorem yield_buries (sound : Sound k L) (v : Pcb) (runnable : Runnable v.status)
    (result : switch fuel clk (yield v k) = some k') : Buries k k' := by
  intro i other exited
  refine switch_exited (yield_coherent sound.coherent runnable) result ?_
  simpa [yield, Kernel.setPcb, Kernel.push, other] using exited

/-- After an exit the running process has exited too. -/
theorem doExit_exited (sound : Sound k L) (result : doExit fuel clk k = some k')
    (exited : (k.pcb i).status = .exited ∨ i = k.currentRunning) :
    (k'.pcb i).status = .exited := by
  rw [doExit_eq, Option.bind_eq_some_iff] at result
  obtain ⟨m, reap, result⟩ := result
  have c := exiting_coherent sound.coherent
  have own : ((exiting k).pcb k.currentRunning).status = .exited := by
    simp [exiting, Kernel.setPcb]
  obtain ⟨links, rfl, c₁⟩ := reap_spec (p := k.currentRunning) c rfl (Set.mem_singleton _) own reap
  rw [Set.sdiff_self] at c₁
  refine switch_exited c₁ result ?_
  have before : ((exiting k).pcb i).status = .exited := by
    by_cases same : i = k.currentRunning
    · rw [same]
      exact own
    · simpa [exiting, Kernel.setPcb, same] using exited.resolve_right same
  rw [relink_pcb, reaped_asleep (c.not_woken before)]
  exact before

/-- What a process may still do that has killed itself: exit, and what cannot put it back on
a queue. -/
def Event.Final : Event → Prop
  | .call .exit | .call (.spawn _) | .call (.kill _) => True
  | .call c => c.Passes
  | _ => False

/-- A `spawn` gives the new process a number that no live one has. -/
def Numbers (k : Kernel) : Event → Prop
  | .call (.spawn _) => ∀ p, (k.pcb p).status ≠ .exited → (k.pcb p).pid ≠ k.processId
  | _ => True

/-- A step after which the dead are still dead. -/
structure Mortal (k : Kernel) (event : Event) : Prop where
  good : Good k event
  numbers : Numbers k event
  final : k.current.status = .exited → event.Final

/-- The slot that the step fills anew. -/
def Filled (k : Kernel) (event : Event) (i : Slot) : Prop :=
  ∃ task, event = .call (.spawn task) ∧ freeSlot k = some i

instance Good.decidable (k : Kernel) (event : Event) : Decidable (Good k event) := by
  apply event.decide <;> intros <;> unfold Good <;> infer_instance

instance Numbers.decidable (k : Kernel) (event : Event) : Decidable (Numbers k event) := by
  apply event.decide <;> intros <;> unfold Numbers <;> infer_instance

instance Event.Final.decidable (event : Event) : Decidable event.Final := by
  apply event.decide <;> intros <;> unfold Event.Final <;> first | infer_instance |
    (unfold Call.Passes; infer_instance)

instance Mortal.decidable (k : Kernel) (event : Event) : Decidable (Mortal k event) :=
  decidable_of_iff (Good k event ∧ Numbers k event ∧ (k.current.status = .exited → event.Final))
    ⟨fun ⟨good, numbers, final⟩ => ⟨good, numbers, final⟩, fun m => ⟨m.good, m.numbers, m.final⟩⟩

theorem step_buries (sound : Sound k L) (mortal : Mortal k event) (step : Step k event k')
    (exited : (k.pcb i).status = .exited) : (k'.pcb i).status = .exited ∨ Filled k event i := by
  obtain ⟨fuel, clk, result⟩ := step
  have lasts : Buries k k' → i ≠ k.currentRunning → (k'.pcb i).status = .exited :=
    fun buries other => buries i other exited
  have alive : ¬event.Final → i ≠ k.currentRunning := by
    rintro unfinished rfl
    exact unfinished (mortal.final exited)
  rcases event with call | _ | _
  · simp only [execute] at result
    split at result
    · by_cases lingers : call.Lingers
      · by_cases passes : call.Passes
        · obtain ⟨_, steady, _⟩ := call_steady sound passes mortal.good result
          exact Or.inl ((steady.exited i).mpr exited)
        · refine Or.inl (lasts (call_outcome sound lingers mortal.good result).buries (alive ?_))
          cases call <;> first | exact passes | exact lingers.elim
      · cases call with
        | sleep time =>
          exact Or.inl (lasts (yield_buries sound _ (Or.inr (Or.inl (by rfl))) result)
            (alive fun done => done))
        | exit => exact Or.inl (doExit_exited sound result (Or.inl exited))
        | spawn task =>
          obtain rfl := Option.some.inj result
          unfold spawn
          cases found : freeSlot k with
          | none => exact Or.inl exited
          | some j =>
            by_cases same : i = j
            · exact Or.inr ⟨task, rfl, by rw [same, found]⟩
            · refine Or.inl ?_
              simpa [assignt, assignTask, Kernel.setPcb, Kernel.record, same] using exited
        | kill id =>
          obtain rfl := Option.some.inj result
          refine Or.inl ?_
          cases found : lookup id k with
          | none => simpa [kill, found] using exited
          | some j =>
            have after : ((condemn j k).pcb i).status = .exited := by
              rw [condemn_status]
              split
              · rfl
              · exact exited
            rw [kill_eq found]
            split
            · exact after
            · exact after
        | _ => exact absurd trivial lingers
    · cases result
  · simp only [execute] at result
    split at result
    · exact Or.inl (lasts (yield_buries sound _ (Or.inr (Or.inr (by rfl))) result)
        (alive fun done => done))
    · cases result
  · exact Or.inl (lasts (fun j other dead => (resume_outcome sound result).buries j other dead)
      (alive fun done => done))

theorem step_pid (sound : Sound k L) (good : Good k event) (step : Step k event k') :
    (Filled k event p → (k'.pcb p).pid = k.processId) ∧
      (¬Filled k event p → (k'.pcb p).pid = (k.pcb p).pid) := by
  by_cases keeps : event.Keeps
  · obtain ⟨_, _, onward, _⟩ := step_sequel sound keeps good step
    refine ⟨?_, fun _ => onward.pid p⟩
    rintro ⟨task, rfl, _⟩
    exact keeps.elim
  · obtain ⟨fuel, clk, result⟩ := step
    rcases event with call | _ | _
    · simp only [execute] at result
      split at result
      · cases call with
        | spawn task =>
          obtain rfl := Option.some.inj result
          unfold spawn
          constructor
          · rintro ⟨_, _, found⟩
            simp [found, assignt, assignTask, Kernel.setPcb, Kernel.record]
          · intro old
            cases found : freeSlot k with
            | none => rfl
            | some j =>
              have other : p ≠ j := by
                rintro rfl
                exact old ⟨task, rfl, found⟩
              simp [assignt, assignTask, Kernel.setPcb, Kernel.record, other]
        | kill id =>
          obtain rfl := Option.some.inj result
          refine ⟨?_, fun _ => ?_⟩
          · rintro ⟨_, same, _⟩
            cases same
          · cases found : lookup id k with
            | none => simp [kill, found]
            | some j =>
              have record : ((condemn j k).pcb p).pid = (k.pcb p).pid := by
                by_cases same : p = j <;> simp [condemn, Kernel.setPcb, Kernel.record, same]
              rw [kill_eq found]
              split
              · exact record
              · exact record
        | _ => exact absurd trivial keeps
      · cases result
    · exact absurd trivial keeps
    · exact absurd trivial keeps

/-- No two live processes have the same number. -/
def Distinct (k : Kernel) : Prop :=
  ∀ p i, (k.pcb p).status ≠ .exited → (k.pcb i).status ≠ .exited →
    (k.pcb p).pid = (k.pcb i).pid → p = i

theorem step_distinct (sound : Sound k L) (mortal : Mortal k event) (step : Step k event k')
    (distinct : Distinct k) : Distinct k' := by
  have before : ∀ {p}, (k'.pcb p).status ≠ .exited → ¬Filled k event p →
      (k.pcb p).status ≠ .exited ∧ (k'.pcb p).pid = (k.pcb p).pid := fun live old =>
    ⟨fun exited => (step_buries sound mortal step exited).elim live old,
      (step_pid sound mortal.good step).2 old⟩
  have fresh : ∀ {p i}, Filled k event p → (k.pcb i).status ≠ .exited →
      (k.pcb i).pid ≠ k.processId := by
    rintro p i ⟨task, rfl, _⟩ live
    exact mortal.numbers i live
  intro p i liveP liveI same
  by_cases newP : Filled k event p <;> by_cases newI : Filled k event i
  · obtain ⟨_, _, foundP⟩ := newP
    obtain ⟨_, _, foundI⟩ := newI
    rw [foundP] at foundI
    exact Option.some.inj foundI
  · obtain ⟨live, pid⟩ := before liveI newI
    rw [(step_pid sound mortal.good step).1 newP, pid] at same
    exact absurd same.symm (fresh newP live)
  · obtain ⟨live, pid⟩ := before liveP newP
    rw [(step_pid sound mortal.good step).1 newI, pid] at same
    exact absurd same (fresh newI live)
  · obtain ⟨liveP, pidP⟩ := before liveP newP
    obtain ⟨liveI, pidI⟩ := before liveI newI
    rw [pidP, pidI] at same
    exact distinct p i liveP liveI same

/-- No process with this number is live. -/
def Dead (id : Int) (k : Kernel) : Prop := ∀ p, (k.pcb p).pid = id → (k.pcb p).status = .exited

/-- The number is not given to a new process. -/
def Retires (id : Int) (k : Kernel) : Event → Prop
  | .call (.spawn _) => k.processId ≠ id
  | _ => True

instance Retires.decidable (id : Int) (k : Kernel) (event : Event) :
    Decidable (Retires id k event) := by
  apply event.decide <;> intros <;> unfold Retires <;> infer_instance

theorem step_dead (sound : Sound k L) (mortal : Mortal k event) (retires : Retires id k event)
    (step : Step k event k') (dead : Dead id k) : Dead id k' := by
  intro p pid
  by_cases filled : Filled k event p
  · rw [(step_pid sound mortal.good step).1 filled] at pid
    obtain ⟨task, rfl, _⟩ := filled
    exact absurd pid retires
  · rw [(step_pid sound mortal.good step).2 filled] at pid
    exact (step_buries sound mortal step (dead p pid)).resolve_right filled

theorem kill_dead (distinct : Distinct k) (found : lookup id k = some i) : Dead id (kill id k) := by
  have after : Dead id (condemn i k) := by
    intro p pid
    have record : ((condemn i k).pcb p).pid = (k.pcb p).pid := by
      by_cases same : p = i <;> simp [condemn, Kernel.setPcb, Kernel.record, same]
    rw [record] at pid
    rw [condemn_status]
    split
    · rfl
    next other =>
      by_contra live
      obtain ⟨same, lives⟩ := lookup_live found
      exact other (distinct p i live lives (pid.trans same.symm))
  rw [kill_eq found]
  split
  · exact after
  · exact after

theorem initPcb_distinct : Distinct (initPcb shell) := by
  obtain ⟨_, _, same⟩ := initPcb_eq shell
  have live : ∀ p, ((initPcb shell).pcb p).status ≠ .exited → p = 0 := by
    intro p status
    rw [same] at status
    by_contra other
    simp [other] at status
  intro p i liveP liveI _
  rw [live p liveP, live i liveI]

theorem reachable_distinct (reach : Reachable Step Mortal (initPcb shell) k) :
    ∃ L, Sound k L ∧ Distinct k := by
  refine reach.invariant (fun k => ∃ L, Sound k L ∧ Distinct k)
    ⟨_, initPcb_sound, initPcb_distinct⟩ ?_
  rintro k event k' ⟨L, sound, distinct⟩ mortal step
  obtain ⟨L', sound'⟩ := step_sound sound mortal.good step
  exact ⟨L', sound', step_distinct sound mortal step distinct⟩

variable {k₀ k₁ : Kernel}

/-- A process that has been killed stays dead in every run whose steps leave the dead alone. -/
theorem killed_stays_dead (reach : Reachable Step Mortal (initPcb shell) k₀)
    (found : lookup id k₀ = some i) (mortal : Mortal k₀ (.call (.kill id)))
    (killed : Step k₀ (.call (.kill id)) k₁)
    (later : Reachable Step (fun k event => Mortal k event ∧ Retires id k event) k₁ k) :
    Dead id k := by
  obtain ⟨L, sound, distinct⟩ := reachable_distinct reach
  obtain ⟨L₁, sound₁⟩ := step_sound sound mortal.good killed
  have dead : Dead id k₁ := by
    obtain ⟨fuel, clk, result⟩ := killed
    simp only [execute] at result
    split at result
    · obtain rfl := Option.some.inj result
      exact kill_dead distinct found
    · cases result
  have after : ∃ L, Sound k L ∧ Dead id k := by
    refine later.invariant (fun k => ∃ L, Sound k L ∧ Dead id k) ⟨_, sound₁, dead⟩ ?_
    rintro k event k' ⟨L, sound, dead⟩ ⟨mortal, retires⟩ step
    obtain ⟨L', sound'⟩ := step_sound sound mortal.good step
    exact ⟨L', sound', step_dead sound mortal retires step dead⟩
  obtain ⟨_, _, dead⟩ := after
  exact dead

/-- Process 2 is killed on the ready queue, reaped there, and its slot is used again. -/
theorem killed_stays_dead_reaped : ∃ k, (.reap 1 ∈ k.trace ∧ k.trace.head? = some (.spawn 1)) ∧
    Dead 2 k := by
  obtain ⟨k₀, reach, user, found, mortal, run⟩ := runAllowed_found Mortal 8 300
    [.call (.spawn someTask), .call (.spawn someTask)] (initPcb someTask)
    (fun k => k.kont k.currentRunning = .user ∧ lookup 2 k = some 1 ∧
      Mortal k (.call (.kill 2)) ∧
      (runAllowed (fun k event => Mortal k event ∧ Retires 2 k event) 8 300
        [.timer, .call (.spawn someTask)] (kill 2 k)).any (fun k => decide
          (.reap 1 ∈ k.trace ∧ k.trace.head? = some (.spawn 1))) = true) (by decide)
  obtain ⟨k, later, reused⟩ := runAllowed_found (fun k event => Mortal k event ∧ Retires 2 k event)
    8 300 _ _ (fun k => .reap 1 ∈ k.trace ∧ k.trace.head? = some (.spawn 1)) run
  have killed : Step k₀ (.call (.kill 2)) (kill 2 k₀) :=
    ⟨8, 300, by simp [execute, user, systemCall]⟩
  exact ⟨k, reused, killed_stays_dead reach found mortal killed later⟩

/-- The shell kills itself; the next timer interrupt makes it ready and it runs on. -/
theorem killed_runs_again : ∃ k, Reachable Step (fun _ _ => True) (initPcb someTask) k ∧
    .kill 0 ∈ k.trace ∧ (k.pcb 0).pid = 1 ∧ (k.pcb 0).status = .running ∧
    k.trace.head? = some (.dispatch 0) :=
  runAllowed_found (fun _ _ => True) 8 300 [.call (.kill 1), .timer] (initPcb someTask)
    (fun k => .kill 0 ∈ k.trace ∧ (k.pcb 0).pid = 1 ∧ (k.pcb 0).status = .running ∧
      k.trace.head? = some (.dispatch 0)) (by decide)

end Tina
