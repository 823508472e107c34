import Tina.Soundness

/-! Mutual exclusion. Who owns a mutex is recorded by its place on a holding queue
only, so ownership survives as long as `queue_remove` takes off the right item. -/
namespace Tina

open LinkedQueue Transition

variable {k k' m : Kernel} {L : Lists} {p i : Slot} {l : Mutex} {shell : TaskInfo}
  {event : Event} {fuel : Nat} {clk : Word}

/-- Processes acquire mutexes they do not hold, release mutexes they hold, start,
exit and are preempted. -/
def Owns (k : Kernel) : Event → Prop
  | .timer | .resume | .call (.spawn _) | .call .exit => True
  | .call (.acquire l) => holds k.trace k.currentRunning l = false
  | .call (.release l) => holds k.trace k.currentRunning l = true
  | _ => False

/-- What is released was acquired first or last of all that the caller holds. -/
def AtEnd (k : Kernel) : Event → Prop
  | .call (.release l) => k.links.head (.holding k.currentRunning) = some (.lock l) ∨
      k.links.tail (.holding k.currentRunning) = some (.lock l)
  | _ => True

instance Owns.decidable (k : Kernel) (event : Event) : Decidable (Owns k event) := by
  apply event.decide <;> intros <;> unfold Owns <;> infer_instance

instance AtEnd.decidable (k : Kernel) (event : Event) : Decidable (AtEnd k event) := by
  apply event.decide <;> intros <;> unfold AtEnd <;> infer_instance

theorem Owns.good (owns : Owns k event) (atEnd : AtEnd k event)
    (spared : ∀ p, unreaped k.trace p = false) : Good k event := by
  rcases event with call | _ | _
  · cases call <;> first | exact owns.elim | exact ⟨owns, atEnd⟩ | exact fun i _ => spared i | trivial
  · trivial
  · trivial

theorem Owns.spares (owns : Owns k event) : event.Spares := by
  rcases event with call | _ | _
  · cases call <;> first | exact owns.elim | trivial
  · trivial
  · trivial

theorem reaped_lock : (reaped p L k).lock l =
    if l ∈ mutexes (L (.holding p)) then .unlocked else k.lock l := by
  simp [reaped, Kernel.record, dropAll_lock]

/-- Whoever waits for a mutex of a reaped process is woken. -/
theorem reaped_ready (owned : Item.lock l ∈ L (.holding p)) (waits : Item.pcb i ∈ L (.block l)) :
    ((reaped p L k).pcb i).status = .ready := by
  have inside : ∃ m ∈ mutexes (L (.holding p)), Item.pcb i ∈ released L (.waiting p) (.block m) := by
    refine ⟨l, mem_mutexes.mpr owned, ?_⟩
    rw [released_of_ne (by simp) (by simp)]
    exact waits
  simp only [reaped, Kernel.record, dropAll_pcb, if_pos inside]

/-- An exit unlocks what the process held, and nothing else. -/
theorem exit_unlocks (peaceful : Peaceful k L) (step : Step k (.call .exit) k') :
    (∀ l, k'.lock l =
      if Item.lock l ∈ L (.holding k.currentRunning) then .unlocked else k.lock l) ∧
    ∀ l p, Item.lock l ∈ L (.holding k.currentRunning) → Item.pcb p ∈ L (.block l) →
      (k'.pcb p).status = .ready ∨ (k'.pcb p).status = .running ∧ p = k'.currentRunning := by
  obtain ⟨fuel, clk, result⟩ := step
  simp only [execute] at result
  split at result
  · obtain ⟨links, L', between, _, _, _, _, switched⟩ := doExit_spec peaceful.coherent result
    have spared : ∀ p, unreaped ((reaped k.currentRunning L (exiting k)).relink links).trace p =
        false := by
      intro p
      rw [relink_trace, unreaped_reaped]
      split
      · rfl
      · exact peaceful.spared p
    have switched := switched (between.deserted spared)
    constructor
    · intro l
      rw [switched.lock, relink_lock, reaped_lock]
      simp only [mem_mutexes]
      rfl
    · intro l p owned waits
      have ready := reaped_ready (k := exiting k) owned waits
      rcases switched.status p with same | ⟨_, outcome⟩
      · exact Or.inl (same.trans ready)
      · exact outcome
  · contradiction

/-- Mutexes and their owners, with ownership as the history of the calls has it. -/
structure Owned (k : Kernel) (L : Lists) : Prop where
  chain : ∀ q, k.links.Walk (k.links.head q) (L q)
  unique : ∀ l p i, Item.lock l ∈ L (.holding p) → Item.lock l ∈ L (.holding i) → p = i
  locked : ∀ l, k.lock l = .locked ↔ ∃ p, (L (.holding p)).count (.lock l) = 1
  held : ∀ p l, holds k.trace p l = true ↔ Item.lock l ∈ L (.holding p)
  exit : ∀ k', Step k (.call .exit) k' →
    (∀ l, k'.lock l =
      if Item.lock l ∈ L (.holding k.currentRunning) then .unlocked else k.lock l) ∧
    ∀ l p, Item.lock l ∈ L (.holding k.currentRunning) → Item.pcb p ∈ L (.block l) →
      (k'.pcb p).status = .ready ∨ (k'.pcb p).status = .running ∧ p = k'.currentRunning

theorem Peaceful.owned (peaceful : Peaceful k L) : Owned k L where
  chain := peaceful.coherent.spells.walk
  unique l p i here there := by
    simpa using peaceful.coherent.spells.apart (.holding p) (.holding i) _ here there
  locked l := by
    rw [peaceful.coherent.locked]
    refine exists_congr fun p => ⟨fun member => ?_, fun count => ?_⟩
    · exact List.count_eq_one_of_mem (peaceful.coherent.spells.nodup _) member
    · exact List.count_pos_iff.mp (by omega)
  held p l := (peaceful.coherent.held p l).symm
  exit _ step := exit_unlocks peaceful step

/-- Every run that releases from the ends of the holding queues keeps ownership right. -/
theorem reachable_owned
    (reach : Reachable Step (fun k event => Owns k event ∧ AtEnd k event) (initPcb shell) k) :
    ∃ L, Owned k L := by
  have invariant : ∃ L, Peaceful k L := by
    refine reach.invariant (fun k => ∃ L, Peaceful k L) ⟨_, initPcb_peaceful⟩ ?_
    rintro k event k' ⟨L, peaceful⟩ ⟨owns, atEnd⟩ step
    exact step_peaceful peaceful owns.spares (owns.good atEnd peaceful.spared) step
  obtain ⟨L, peaceful⟩ := invariant
  exact ⟨L, peaceful.owned⟩

/-- Three mutexes released in the order of their acquisition. -/
theorem reachable_owned_fifo : ∃ k, (k.trace.head? = some (.release 0 (.user 3)) ∧
    .acquire 0 (.user 3) ∈ k.trace) ∧ ∃ L, Owned k L := by
  obtain ⟨k, reach, released⟩ := runAllowed_found (fun k event => Owns k event ∧ AtEnd k event)
    8 300 [.call (.acquire (.user 1)), .call (.acquire (.user 2)), .call (.acquire (.user 3)),
      .call (.release (.user 1)), .call (.release (.user 2)), .call (.release (.user 3))]
    (initPcb someTask) (fun k => k.trace.head? = some (.release 0 (.user 3)) ∧
      .acquire 0 (.user 3) ∈ k.trace) (by decide)
  exact ⟨k, released, reachable_owned reach⟩

/-- Released from the middle, mutex 2 leaves a link behind that the release of mutex 3
does not clear: 3 is unlocked and still on the holding queue. -/
theorem release_leaves_link : ∃ k, Reachable Step Owns (initPcb someTask) k ∧
    holds k.trace 0 (.user 3) = false ∧ k.lock (.user 3) = .unlocked ∧
    k.links.Walk (k.links.head (.holding 0)) [.lock (.user 1), .lock (.user 3)] := by
  exact runAllowed_found Owns 8 300
    [.call (.acquire (.user 1)), .call (.acquire (.user 2)), .call (.acquire (.user 3)),
      .call (.release (.user 2)), .call (.release (.user 3))] (initPcb someTask)
    (fun k => holds k.trace 0 (.user 3) = false ∧ k.lock (.user 3) = .unlocked ∧
      k.links.Walk (k.links.head (.holding 0)) [.lock (.user 1), .lock (.user 3)]) (by decide)

end Tina
