import Tina.Partition

/-! The reuse of process slots. `kill` leaves its target linked, and `spawn` looks at
the status only; what goes wrong when the two meet, and what holds when they do not. -/
namespace Tina

open LinkedQueue Transition

variable {k k' m : Kernel} {L M : Lists} {p i : Slot} {q : QueueId} {task shell : TaskInfo}
  {event : Event} {fuel : Nat} {clk : Word} {kont : Kont} {id : Int}

/-- The events of `Schedules`, and `kill`. -/
def Event.Recycles : Event → Prop
  | .call (.kill _) => True
  | event => event.Schedules

/-- `spawn` does not meet a killed process that is still to be reaped, and `kill`
does not meet one that `queue_remove` cannot take off. -/
def Careful (k : Kernel) : Event → Prop
  | .call (.spawn _) => ∀ i, freeSlot k = some i → unreaped k.trace i = false
  | .call (.kill id) => ∀ i, lookup id k = some i → Removable k i
  | _ => True

instance Event.Recycles.decidable (event : Event) : Decidable event.Recycles := by
  apply event.decide <;> intros <;> unfold Event.Recycles <;> infer_instance

instance Careful.decidable (k : Kernel) (event : Event) : Decidable (Careful k event) := by
  apply event.decide <;> intros <;> unfold Careful <;> infer_instance

theorem Event.Recycles.good (recycles : event.Recycles) (careful : Careful k event) :
    Good k event := by
  rcases event with call | _ | _
  · cases call <;> first | exact recycles | exact careful | trivial
  · trivial
  · trivial

/-- A waiting process stays where it is, or becomes ready and perhaps runs, or is
itself the one that is killed. -/
def Attended (k : Kernel) (event : Event) (k' : Kernel) (p : Slot) : Prop :=
  (k'.pcb p).status = (k.pcb p).status ∧ (k'.pcb p).chan = (k.pcb p).chan ∨
    (k'.pcb p).status = .ready ∨ (k'.pcb p).status = .running ∨
    ∃ id, event = .call (.kill id) ∧ lookup id k = some p

theorem Sound.blocked_other (sound : Sound k L) (blocked : (k.pcb p).status = .blocked) :
    p ≠ k.currentRunning := by
  rintro rfl
  rcases sound.active with current | current | ⟨current, _⟩ <;>
    simp [Kernel.current, blocked] at current

/-- After the running process has left, whatever happens is a wake-up. -/
theorem Waking.attended (waking : Waking m k')
    (left : (m.pcb p).status = (k.pcb p).status ∧ (m.pcb p).chan = (k.pcb p).chan) :
    Attended k event k' p := by
  rcases waking.woken p with ⟨status, chan⟩ | ready | running
  · exact Or.inl ⟨status.trans left.1, chan.trans left.2⟩
  · exact Or.inr (Or.inl ready)
  · exact Or.inr (Or.inr (Or.inl running))

theorem doBlock_attended (sound : Sound k L) (parking : q.Parking)
    (attended : ∀ i, q = .waiting i → i ≠ k.currentRunning ∧ (k.pcb i).status ≠ .exited)
    (other : p ≠ k.currentRunning) (result : doBlock fuel clk q kont k = some k') :
    Attended k event k' p := by
  obtain ⟨_, _, _, _, waking, _⟩ := doBlock_spec sound.coherent parking attended result
  refine waking.attended ?_
  simp [blockedOn, parkOn, Kernel.setPcb, Kernel.push, Kernel.record, other]

theorem yield_attended (sound : Sound k L) (v : Pcb) (runnable : Runnable v.status)
    (other : p ≠ k.currentRunning) (result : switch fuel clk (yield v k) = some k') :
    Attended k event k' p := by
  obtain ⟨_, _, _, _, waking, _⟩ := switch_spec (yield_coherent sound.coherent runnable) result
  refine waking.attended ?_
  simp [yield, Kernel.setPcb, Kernel.push, other]

theorem wakeAll_attended (ps : List Slot) (links : Links Item QueueId) :
    Attended k event ((wakeAll q ps k).relink links) p := by
  simp only [Attended, relink_pcb, wakeAll_pcb]
  split <;> simp

/-- Nobody who waits is dropped by a careful step. -/
theorem step_attended (sound : Sound k L) (recycles : event.Recycles)
    (careful : Careful k event) (step : Step k event k') (blocked : (k.pcb p).status = .blocked) :
    Attended k event k' p := by
  have other := sound.blocked_other blocked
  obtain ⟨fuel, clk, result⟩ := step
  rcases event with call | _ | _
  · simp only [execute] at result
    split at result
    · cases call with
      | spawn task =>
        obtain rfl := Option.some.inj result
        unfold Attended spawn
        cases found : freeSlot k with
        | none => exact Or.inl ⟨rfl, rfl⟩
        | some i =>
          have distinct : p ≠ i := by
            rintro rfl
            simp [freeSlot_exited found] at blocked
          refine Or.inl ⟨?_, ?_⟩ <;>
            simp [assignt, assignTask, Kernel.setPcb, Kernel.record, distinct]
      | kill id =>
        obtain rfl := Option.some.inj result
        cases found : lookup id k with
        | none => exact Or.inl (by simp [kill, found])
        | some i =>
          by_cases same : i = p
          · exact Or.inr (Or.inr (Or.inr ⟨id, rfl, same ▸ found⟩))
          · refine Or.inl ?_
            rw [kill_eq found]
            split <;> simp [condemn_status, condemn_chan, Ne.symm same]
      | exit =>
        obtain ⟨_, _, _, _, _, _, waking, _⟩ := doExit_spec sound.coherent result
        refine waking.attended ?_
        simp [exiting, Kernel.setPcb, other]
      | wait id =>
        rcases wait_spec result with rfl | ⟨i, found, distinct, block⟩
        · exact Or.inl ⟨rfl, rfl⟩
        · refine doBlock_attended sound (by trivial) ?_ other block
          rintro j same
          obtain rfl : i = j := by simpa using same
          exact ⟨distinct, (lookup_live found).2⟩
      | sleep time => exact yield_attended sound _ (Or.inr (Or.inl (by rfl))) other result
      | block q =>
        exact doBlock_attended sound (QueueId.Foreign.parking recycles)
          (fun i same => absurd same (QueueId.Foreign.unattended recycles i)) other result
      | unblockOne q =>
        obtain ⟨links, rfl, _⟩ :=
          doUnblockOne_spec sound.coherent (QueueId.Foreign.parking recycles) result
        rw [wakeFirst]
        split
        · exact Or.inl ⟨rfl, rfl⟩
        next i _ _ => exact wakeAll_attended [i] links
      | unblockAll q =>
        obtain ⟨links, rfl, _⟩ :=
          doUnblockAll_spec sound.coherent (QueueId.Foreign.parking recycles) result
        exact wakeAll_attended _ links
      | _ => exact recycles.elim
    · contradiction
  · simp only [execute] at result
    split at result
    · exact yield_attended sound _ (Or.inr (Or.inr (by rfl))) other result
    · contradiction
  · exact recycles.elim

/-- Slots are only reused when nothing refers to them, and nobody is lost by it. -/
structure Recycled (k : Kernel) (L : Lists) : Prop where
  chain : ∀ q, k.links.Walk (k.links.head q) (L q)
  slot : ∀ task i, Careful k (.call (.spawn task)) → freeSlot k = some i →
    (∀ q, Item.pcb i ∉ L q) ∧ L (.waiting i) = [] ∧ L (.holding i) = [] ∧ i ≠ k.currentRunning
  kept : ∀ task, Careful k (.call (.spawn task)) → ∀ q, ∃ l,
    (spawn task k).links.Walk ((spawn task k).links.head q) (L q ++ l)
  linked : ∀ p, p ≠ k.currentRunning → (k.pcb p).status ≠ .exited →
    ∃ q, Item.pcb p ∈ L q ∧ if (k.pcb p).status = .blocked then (k.pcb p).chan = some q
      else q = .ready
  waiting : ∀ p i, (k.pcb p).status = .blocked → (k.pcb p).chan = some (.waiting i) →
    ((k.pcb i).status ≠ .exited ∨ i = k.currentRunning ∨ Item.pcb i ∈ L .ready) ∧
    ∀ event k', event.Recycles → Careful k event → Step k event k' → Attended k event k' p

theorem Sound.recycled (sound : Sound k L) : Recycled k L where
  chain := sound.coherent.spells.walk
  slot task i careful found := by
    have done := careful i found
    have exited := freeSlot_exited found
    have other := sound.free_other exited done
    obtain ⟨waiting, holding⟩ := sound.coherent.retired i exited done other
    refine ⟨fun q member => ?_, waiting, holding, other⟩
    simpa [Kernel.place, exited, done] using ((sound.coherent.procs i q).mp member).2
  kept task careful q := by
    unfold spawn
    cases found : freeSlot k with
    | none => exact ⟨[], by simpa using sound.coherent.spells.walk q⟩
    | some i =>
      have done := careful i found
      have exited := freeSlot_exited found
      have reused := assignt_spec sound.coherent exited done (sound.free_other exited done) task
      by_cases ready : q = .ready
      · subst q
        exact ⟨[.pcb i], by simpa [parkLists] using reused.spells.walk .ready⟩
      · exact ⟨[], by simpa [parkLists, ready] using reused.spells.walk q⟩
  linked p other live := by
    have inside : ∀ q, k.place p = some q → Item.pcb p ∈ L q :=
      fun q place => (sound.coherent.procs p q).mpr ⟨by simpa using other, place⟩
    cases status : (k.pcb p).status with
    | blocked =>
      obtain ⟨q, chan, _⟩ := sound.coherent.parked p status
      exact ⟨q, inside q (by simp [Kernel.place, status, chan]), by simpa using chan⟩
    | running => exact absurd (sound.coherent.running p status) (by simpa using other)
    | exited => exact absurd status live
    | _ => exact ⟨.ready, inside .ready (by simp [Kernel.place, status]), by simp⟩
  waiting p i blocked chan := by
    refine ⟨?_, fun event k' recycles careful step =>
      step_attended sound recycles careful step blocked⟩
    have other := sound.blocked_other blocked
    have member : Item.pcb p ∈ L (.waiting i) := (sound.coherent.procs p _).mpr
      ⟨by simpa using other, by simp [Kernel.place, blocked, chan]⟩
    by_cases live : (k.pcb i).status = .exited
    · refine Or.inr ?_
      by_cases current : i = k.currentRunning
      · exact Or.inl current
      · refine Or.inr ((sound.coherent.procs i _).mpr ⟨by simpa using current, ?_⟩)
        have pending : unreaped k.trace i = true := by
          by_contra done
          have empty := sound.coherent.retired i live (by simpa using done) (by simpa using current)
          simp [empty.1] at member
        simp [Kernel.place, live, pending]
    · exact Or.inl live

/-- In every run of careful steps, only slots that nothing refers to are reused. -/
theorem reachable_recycled (reach : Reachable Step
    (fun k event => event.Recycles ∧ Careful k event) (initPcb shell) k) :
    ∃ L, Recycled k L := by
  have invariant : ∃ L, Sound k L := by
    refine reach.invariant (fun k => ∃ L, Sound k L) ⟨_, initPcb_sound⟩ ?_
    rintro k event k' ⟨L, sound⟩ ⟨recycles, careful⟩ step
    exact step_sound sound (recycles.good careful) step
  obtain ⟨L, sound⟩ := invariant
  exact ⟨L, sound.recycled⟩

/-- A process is killed, reaped and its slot used again. -/
theorem reachable_recycled_kill : ∃ k, (k.trace.head? = some (.spawn 1) ∧
    unreaped k.trace 1 = false ∧ .kill 1 ∈ k.trace) ∧ ∃ L, Recycled k L := by
  obtain ⟨k, reach, killed⟩ := runAllowed_found
    (fun k event => event.Recycles ∧ Careful k event) 8 300
    [.call (.spawn someTask), .call (.spawn someTask), .call (.kill 2), .timer,
      .call (.spawn someTask)] (initPcb someTask) (fun k => k.trace.head? = some (.spawn 1) ∧
      unreaped k.trace 1 = false ∧ .kill 1 ∈ k.trace) (by decide)
  exact ⟨k, killed, reachable_recycled reach⟩

/-- Without care: slot 1 is killed while it is first on the ready queue and slot 2
follows it; the next `spawn` takes slot 1 and cuts slot 2 off. -/
theorem spawn_cuts_queue : ∃ k m,
    Reachable Step (fun _ event => event.Recycles) (initPcb someTask) k ∧
    Step k (.call (.spawn someTask)) m ∧
    freeSlot k = some 1 ∧ k.links.Walk (k.links.head .ready) [.pcb 1, .pcb 2] ∧
    (m.pcb 2).status = .embryo ∧ m.links.Walk (m.links.head .ready) [.pcb 1] := by
  obtain ⟨k, reach, user, rest⟩ := runAllowed_found (fun _ event => event.Recycles) 8 300
    [.call (.spawn someTask), .call (.spawn someTask), .call (.kill 2)] (initPcb someTask)
    (fun k => k.kont k.currentRunning = .user ∧ freeSlot k = some 1 ∧
      k.links.Walk (k.links.head .ready) [.pcb 1, .pcb 2] ∧
      ((spawn someTask k).pcb 2).status = .embryo ∧
      (spawn someTask k).links.Walk ((spawn someTask k).links.head .ready) [.pcb 1]) (by decide)
  exact ⟨k, _, reach, ⟨8, 300, by simp [execute, user, systemCall]⟩, rest⟩

end Tina
