import Tina.Soundness

/-! The scheduler as a partition: in every reachable state the processes are
distributed over the queues as their records say. -/
namespace Tina

open LinkedQueue Transition

variable {k k' : Kernel} {L : Lists} {p i : Slot} {task shell : TaskInfo} {event : Event}

/-- Processes coming, going, waiting, sleeping, being preempted, and blocking on and
being released from queues of their own choice. -/
def Event.Schedules : Event → Prop
  | .timer | .call (.spawn _) | .call .exit | .call (.wait _) | .call (.sleep _) => True
  | .call (.block q) | .call (.unblockOne q) | .call (.unblockAll q) => q.Foreign
  | _ => False

instance Event.Schedules.decidable (event : Event) : Decidable event.Schedules := by
  apply event.decide <;> intros <;> unfold Event.Schedules <;> infer_instance

theorem Event.Schedules.good (schedules : event.Schedules)
    (spared : ∀ p, unreaped k.trace p = false) : Good k event := by
  rcases event with call | _ | _
  · cases call <;> first | exact schedules | exact fun i _ => spared i | trivial
  · trivial
  · trivial

theorem Event.Schedules.spares (schedules : event.Schedules) : event.Spares := by
  rcases event with call | _ | _
  · cases call <;> first | exact schedules.elim | trivial
  · trivial
  · trivial

/-- Each live process has a serial number, of which its identifier is the 32-bit
value; the identifiers differ as long as the counter has not come round. -/
structure Named (k : Kernel) : Prop where
  next : k.processId = int32 (spawns k.trace + 1)
  serial : ∀ p, (k.pcb p).status ≠ .exited → ∃ n : Nat, 1 ≤ n ∧ n ≤ spawns k.trace ∧
    (k.pcb p).pid = int32 n
  distinct : spawns k.trace ≤ 2 ^ 31 → ∀ p i, (k.pcb p).status ≠ .exited →
    (k.pcb i).status ≠ .exited → (k.pcb p).pid = (k.pcb i).pid → p = i

theorem Named.onward (named : Named k) (onward : Onward k k')
    (spared : ∀ p, unreaped k.trace p = false) : Named k' := by
  have live : ∀ p, (k'.pcb p).status ≠ .exited → (k.pcb p).status ≠ .exited := by
    intro p status
    rcases onward.live p status with live | reaped
    · exact live
    · simp [spared] at reaped
  refine ⟨?_, ?_, ?_⟩
  · rw [onward.processId, onward.spawned]
    exact named.next
  · intro p status
    rw [onward.spawned, onward.pid]
    exact named.serial p (live p status)
  · intro few p i statusP statusI same
    rw [onward.spawned] at few
    rw [onward.pid, onward.pid] at same
    exact named.distinct few p i (live p statusP) (live i statusI) same

/-- The new process gets a number that no live process has. -/
theorem Named.spawned (named : Named k) : Named (assignt task i k) := by
  have count : spawns (assignt task i k).trace = spawns k.trace + 1 := by
    simp [assignt, assignTask, Kernel.setPcb, Kernel.record, spawns, List.countP_cons, Act.isSpawn]
  have next : (assignt task i k).processId = int32 (k.processId + 1) := rfl
  have fresh : ((assignt task i k).pcb i).pid = int32 (spawns k.trace + 1) := by
    rw [← named.next]
    simp [assignt, assignTask, Kernel.setPcb, Kernel.record]
  have kept : ∀ p, p ≠ i → (assignt task i k).pcb p = k.pcb p := by
    intro p other
    simp [assignt, assignTask, Kernel.setPcb, Kernel.record, other]
  have differ : spawns k.trace + 1 ≤ 2 ^ 31 → ∀ p, p ≠ i →
      ((assignt task i k).pcb p).status ≠ .exited →
      ((assignt task i k).pcb p).pid ≠ ((assignt task i k).pcb i).pid := by
    intro few p other status same
    rw [fresh] at same
    rw [kept p other] at same status
    obtain ⟨n, _, old, pid⟩ := named.serial p status
    have := int32_inj (same.symm.trans pid) (by omega) (by omega)
    omega
  refine ⟨?_, ?_, ?_⟩
  · rw [next, named.next, count, int32_add]
    push_cast
    rfl
  · intro p status
    rw [count]
    by_cases same : p = i
    · subst p
      exact ⟨spawns k.trace + 1, by omega, by omega, by rw [fresh]; push_cast; rfl⟩
    · rw [kept p same] at status ⊢
      obtain ⟨n, low, high, pid⟩ := named.serial p status
      exact ⟨n, low, by omega, pid⟩
  · intro few p j statusP statusJ same
    rw [count] at few
    by_cases left : p = i
    · by_cases right : j = i
      · rw [left, right]
      · exact absurd (left ▸ same.symm) (differ few j right statusJ)
    · by_cases right : j = i
      · exact absurd (right ▸ same) (differ few p left statusP)
      · rw [kept p left] at same statusP
        rw [kept j right] at same statusJ
        exact named.distinct (by omega) p j statusP statusJ same

/-- What a run of scheduling events preserves. -/
structure Scheduled (k : Kernel) (L : Lists) : Prop extends Peaceful k L where
  dispatched : 0 < dispatches k.trace → k.current.status = .running
  named : Named k

theorem initPcb_scheduled : Scheduled (initPcb shell) fun _ => [] := by
  refine ⟨initPcb_peaceful, ?_, ?_⟩
  · simp [initPcb_trace, dispatches, Act.isDispatch]
  · obtain ⟨_, _, same⟩ := initPcb_eq shell
    have live : ∀ p, ((initPcb shell).pcb p).status ≠ .exited → p = 0 := by
      intro p status
      rw [same] at status
      by_contra other
      simp [other] at status
    have first : ((initPcb shell).pcb 0).pid = 1 := by
      rw [same]
      simp [assignt, assignTask, Kernel.setPcb, Kernel.record, boot]
    refine ⟨?_, ?_, ?_⟩
    · rw [initPcb_trace, same]
      rfl
    · intro p status
      exact ⟨1, le_rfl, by rw [initPcb_trace]; decide, by rw [live p status, first]; decide⟩
    · intro _ p i statusP statusI _
      rw [live p statusP, live i statusI]

theorem step_scheduled (scheduled : Scheduled k L) (schedules : event.Schedules)
    (step : Step k event k') : ∃ L', Scheduled k' L' := by
  have good := schedules.good scheduled.spared
  obtain ⟨L', peaceful⟩ := step_peaceful scheduled.toPeaceful schedules.spares good step
  by_cases keeps : event.Keeps
  · obtain ⟨_, _, onward, progress⟩ := step_sequel scheduled.toSound keeps good step
    refine ⟨L', peaceful, fun some => ?_, scheduled.named.onward onward scheduled.spared⟩
    rcases progress with running | ⟨status, dispatches⟩
    · exact running
    · rw [status]
      exact scheduled.dispatched (dispatches ▸ some)
  · obtain ⟨task, rfl⟩ : ∃ task, event = .call (.spawn task) := by
      rcases event with call | _ | _
      · cases call <;> first | exact ⟨_, rfl⟩ | exact absurd trivial keeps | exact schedules.elim
      · exact absurd trivial keeps
      · exact absurd trivial keeps
    obtain ⟨fuel, clk, result⟩ := step
    simp only [execute] at result
    split at result
    · obtain rfl := Option.some.inj result
      obtain ⟨_, ⟨status, count⟩, outcome⟩ := spawn_peaceful scheduled.toPeaceful task
      refine ⟨L', peaceful, fun some => ?_, ?_⟩
      · rw [status]
        exact scheduled.dispatched (count ▸ some)
      · rcases outcome with same | ⟨i, _, _, same⟩
        · rw [same]
          exact scheduled.named
        · rw [same]
          exact scheduled.named.spawned
    · contradiction

/-- Where the processes are. The lists are what the links of each queue spell. -/
structure Partition (k : Kernel) (L : Lists) : Prop where
  chain : ∀ q, k.links.Walk (k.links.head q) (L q) ∧ k.links.tail q = (L q).getLast?
  ready : ∀ p, p ≠ k.currentRunning →
    (k.pcb p).status = .embryo ∨ (k.pcb p).status = .ready ∨ (k.pcb p).status = .sleeping →
    (L .ready).count (.pcb p) = 1 ∧ ∀ q, q ≠ .ready → Item.pcb p ∉ L q
  blocked : ∀ p, (k.pcb p).status = .blocked → ∃ q, (k.pcb p).chan = some q ∧
    (L q).count (.pcb p) = 1 ∧ ∀ r, r ≠ q → Item.pcb p ∉ L r
  nowhere : ∀ p, p = k.currentRunning ∨ (k.pcb p).status = .exited → ∀ q, Item.pcb p ∉ L q
  running : 0 < dispatches k.trace → ∀ p, (k.pcb p).status = .running ↔ p = k.currentRunning
  pids : spawns k.trace ≤ 2 ^ 31 → ∀ p i, (k.pcb p).status ≠ .exited →
    (k.pcb i).status ≠ .exited → (k.pcb p).pid = (k.pcb i).pid → p = i

/-- A process with a place is there once and nowhere else. -/
theorem Coherent.once {off : Set Slot} {q : QueueId} (coherent : Coherent k L off)
    (outside : p ∉ off) (place : k.place p = some q) :
    (L q).count (.pcb p) = 1 ∧ ∀ r, r ≠ q → Item.pcb p ∉ L r := by
  have member : Item.pcb p ∈ L q := (coherent.procs p q).mpr ⟨outside, place⟩
  refine ⟨List.count_eq_one_of_mem (coherent.spells.nodup q) member, fun r other inside => ?_⟩
  exact other (coherent.spells.apart r q _ inside member)

theorem Scheduled.partition (scheduled : Scheduled k L) : Partition k L where
  chain q := ⟨scheduled.coherent.spells.walk q, scheduled.coherent.spells.tail q⟩
  ready p other status := by
    refine scheduled.coherent.once (by simpa using other) ?_
    rcases status with status | status | status <;> simp [Kernel.place, status]
  blocked p status := by
    obtain ⟨q, chan, _⟩ := scheduled.coherent.parked p status
    have outside : p ∉ ({k.currentRunning} : Set Slot) := by
      rintro rfl
      rcases scheduled.active with current | current | ⟨current, _⟩ <;>
        simp [Kernel.current, status] at current
    exact ⟨q, chan, scheduled.coherent.once outside (by simp [Kernel.place, status, chan])⟩
  nowhere p absent q member := by
    obtain ⟨outside, place⟩ := (scheduled.coherent.procs p q).mp member
    rcases absent with rfl | exited
    · exact outside (Set.mem_singleton _)
    · simp [Kernel.place, exited, scheduled.spared] at place
  running some p := by
    constructor
    · exact scheduled.coherent.running p
    · rintro rfl
      exact scheduled.dispatched some
  pids := scheduled.named.distinct

/-- Every reachable state is a partition; a step that finds nobody to dispatch has no
result and so is not part of a run. -/
theorem reachable_partition
    (reach : Reachable Step (fun _ event => event.Schedules) (initPcb shell) k) :
    ∃ L, Partition k L := by
  have invariant : ∃ L, Scheduled k L := by
    refine reach.invariant (fun k => ∃ L, Scheduled k L) ⟨_, initPcb_scheduled⟩ ?_
    rintro k event k' ⟨L, scheduled⟩ schedules step
    exact step_scheduled scheduled schedules step
  obtain ⟨L, scheduled⟩ := invariant
  exact ⟨L, scheduled.partition⟩

/-- The shell starts a process and waits for it, and that one exits. -/
theorem reachable_partition_wait : ∃ k, (k.trace.head? = some (.dispatch 0) ∧
    .block (.waiting 1) 0 ∈ k.trace) ∧ ∃ L, Partition k L := by
  obtain ⟨k, reach, waited⟩ := runAllowed_found (fun _ event => event.Schedules) 8 300
    [.call (.spawn someTask), .call (.wait 2), .call .exit] (initPcb someTask)
    (fun k => k.trace.head? = some (.dispatch 0) ∧ .block (.waiting 1) 0 ∈ k.trace) (by decide)
  exact ⟨k, waited, reachable_partition reach⟩

end Tina
