import Tina.Soundness

/-! What the calls of `sem.c` and `barrier.c` do when no mutex is held, which is how
the kernel is whenever it may switch: each call gives its inner mutex back before it
blocks or returns. -/
namespace Tina

open LinkedQueue

variable {k k' m : Kernel} {L L' M : Lists} {off : Set Slot} {p i : Slot} {q : QueueId}
  {l : Mutex} {s b c : Nat} {event : Event} {fuel : Nat} {clk : Word} {kont : Kont}

structure Quiet (k : Kernel) (L : Lists) : Prop where
  lock : ∀ l, k.lock l = .unlocked
  block : ∀ l, L (.block l) = []

theorem Quiet.free (quiet : Quiet k L) : k.lock l ≠ .locked := by simp [quiet.lock]

theorem Quiet.holding (quiet : Quiet k L) (coherent : Coherent k L off) :
    L (.holding p) = [] := by
  rw [holding_mutexes coherent]
  refine List.map_eq_nil_iff.mpr (List.eq_nil_iff_forall_not_mem.mpr fun l member => ?_)
  exact quiet.free ((coherent.locked l).mpr ⟨p, mem_mutexes.mp member⟩)

/-- Nothing is left on the queues of a process that has exited, the current one apart. -/
def Resting (k : Kernel) (L : Lists) : Prop :=
  ∀ p, p ≠ k.currentRunning → (k.pcb p).status = .exited →
    L (.waiting p) = [] ∧ L (.holding p) = []

theorem Peaceful.resting (peaceful : Peaceful k L) : Resting k L := fun p other exited =>
  peaceful.coherent.retired p exited (peaceful.spared p) (by simpa using other)

/-- Actions that concern the processes alone. -/
def Act.Aside : Act → Prop
  | .spawn _ | .reap _ | .dispatch _ | .block (.waiting _) _ | .wake (.waiting _) _ => True
  | _ => False

/-- Queues that the life of processes does not touch. -/
def QueueId.Shared : QueueId → Prop
  | .ready | .waiting _ => False
  | _ => True

/-- The life of processes, seen from the synchronization objects. -/
structure Aside (k : Kernel) (L : Lists) (k' : Kernel) (L' : Lists) : Prop where
  queues : ∀ q, q.Shared → L' q = L q
  lock : k'.lock = k.lock
  count : k'.count = k.count
  barrier : k'.barrier = k.barrier
  kont : ∀ p, k'.kont p = k.kont p ∨
    (k.pcb p).status = .exited ∧ k'.kont p = .user ∧ p ≠ k.currentRunning
  idle : k.kont k.currentRunning = .user
  trace : ∃ new, k'.trace = new ++ k.trace ∧ ∀ a ∈ new, a.Aside
  exited : ∀ p, (k'.pcb p).status = .exited →
    (k.pcb p).status = .exited ∨ p = k.currentRunning

def Event.Aside : Event → Prop
  | .timer | .call (.spawn _) | .call .exit | .call (.wait _) | .call (.sleep _) => True
  | _ => False

instance Event.Aside.decidable (event : Event) : Decidable event.Aside := by
  apply event.decide <;> intros <;> unfold Event.Aside <;> infer_instance

theorem reap_aside (ps : List Slot) (a : Act) (member : a ∈ ps.map Act.reap) : a.Aside := by
  obtain ⟨p, _, rfl⟩ := List.mem_map.mp member
  trivial

/-- Whatever the running process does before it leaves, the switch adds nothing. -/
theorem Switched.aside (switched : Switched m M k' L') (idle : k.kont k.currentRunning = .user)
    (queues : ∀ q, q.Shared → M q = L q) (lock : m.lock = k.lock) (count : m.count = k.count)
    (barrier : m.barrier = k.barrier) (kont : m.kont = k.kont)
    (trace : ∃ new, m.trace = new ++ k.trace ∧ ∀ a ∈ new, a.Aside)
    (exited : ∀ p, (m.pcb p).status = .exited → (k.pcb p).status = .exited ∨
      p = k.currentRunning) : Aside k L k' L' where
  queues q shared := by
    rw [switched.queues q (by rintro rfl; exact shared), queues q shared]
  lock := switched.lock.trans lock
  count := switched.count.trans count
  barrier := switched.barrier.trans barrier
  kont p := Or.inl (by rw [switched.kont, kont])
  idle := idle
  trace := by
    obtain ⟨ps, last⟩ := switched.trace
    obtain ⟨new, first, aside⟩ := trace
    refine ⟨.dispatch k'.currentRunning :: ps.map .reap ++ new, by rw [last, first]; simp, ?_⟩
    intro a member
    simp only [List.cons_append, List.mem_cons, List.mem_append] at member
    rcases member with rfl | inside | inside
    · trivial
    · exact reap_aside ps a inside
    · exact aside a inside
  exited p status := by
    rcases switched.status p with same | ⟨_, ready | ⟨running, _⟩⟩
    · exact exited p (same ▸ status)
    · simp [ready] at status
    · simp [running] at status

theorem yield_aside (coherent : Coherent k L {k.currentRunning}) (resting : Resting k L)
    (idle : k.kont k.currentRunning = .user) (v : Pcb) (runnable : Runnable v.status)
    (result : switch fuel clk (yield v k) = some k') :
    ∃ L', Coherent k' L' {k'.currentRunning} ∧ (∀ q, q ≠ .ready → L' q = L q) ∧
      Aside k L k' L' := by
  obtain ⟨L', coherent', _, _, _, switched⟩ :=
    switch_spec (yield_coherent coherent runnable) result
  have lists : ∀ q, q ≠ .ready → parkLists .ready k.currentRunning L q = L q := by
    intro q notReady
    simp [parkLists, notReady]
  have status : ∀ p, ((yield v k).pcb p).status = .exited →
      p ≠ k.currentRunning ∧ (k.pcb p).status = .exited := by
    intro p exited
    by_cases same : p = k.currentRunning
    · subst p
      simp only [yield, Kernel.setPcb, Kernel.push, Function.update_self] at exited
      rcases runnable with status | status | status <;> simp [exited] at status
    · exact ⟨same, by simpa [yield, Kernel.setPcb, Kernel.push, same] using exited⟩
  have empty : Deserted (yield v k) (parkLists .ready k.currentRunning L) := by
    intro p exited
    obtain ⟨other, exited⟩ := status p exited
    rw [lists _ (by simp), lists _ (by simp)]
    exact resting p other exited
  have queues : ∀ q, q ≠ .ready → L' q = L q := fun q notReady =>
    ((switched empty).queues q notReady).trans (lists q notReady)
  refine ⟨L', coherent', queues, (switched empty).aside idle ?_ rfl rfl rfl rfl
    ⟨[], rfl, by simp⟩ ?_⟩
  · intro q shared
    exact lists q (by rintro rfl; exact shared)
  · intro p exited
    exact Or.inl (status p exited).2

theorem wait_aside (peaceful : Peaceful k L) (idle : k.kont k.currentRunning = .user)
    (live : (k.pcb i).status ≠ .exited) (other : i ≠ k.currentRunning)
    (result : doBlock fuel clk (.waiting i) .user k = some k') :
    ∃ L', Coherent k' L' {k'.currentRunning} ∧ Aside k L k' L' := by
  have attended : ∀ j, QueueId.waiting i = .waiting j →
      j ≠ k.currentRunning ∧ (k.pcb j).status ≠ .exited := by
    rintro j same
    obtain rfl : i = j := by simpa using same
    exact ⟨other, live⟩
  have parked : Coherent (blockedOn (.waiting i) .user k)
      (parkLists (.waiting i) k.currentRunning L) ∅ :=
    blockedOn_coherent peaceful.coherent trivial attended
  obtain ⟨L', coherent, _, _, _, switched⟩ := doBlock_spec peaceful.coherent (by trivial) attended
    result
  have empty := parked.deserted (fun p => peaceful.spared p)
  refine ⟨L', coherent, (switched empty).aside idle ?_ rfl rfl rfl ?_ ⟨[.block (.waiting i)
    k.currentRunning], rfl, by simp [Act.Aside]⟩ ?_⟩
  · intro q shared
    have elsewhere : q ≠ .waiting i := by rintro rfl; exact shared
    simp [parkLists, elsewhere]
  · change Function.update k.kont k.currentRunning .user = k.kont
    rw [← idle, Function.update_eq_self]
  · intro p status
    by_cases same : p = k.currentRunning
    · exact Or.inr same
    · exact Or.inl (by simpa [blockedOn, parkOn, Kernel.setPcb, Kernel.push, Kernel.record, same]
        using status)

theorem reaped_unheld (holding : L (.holding p) = []) : reaped p L k =
    (wakeAll (.waiting p) (slots (L (.waiting p))) k).record (.reap p) := by
  simp [reaped, holding, dropAll]

theorem exit_aside (peaceful : Peaceful k L) (idle : k.kont k.currentRunning = .user)
    (holding : L (.holding k.currentRunning) = []) (result : doExit fuel clk k = some k') :
    ∃ L', Coherent k' L' {k'.currentRunning} ∧ Aside k L k' L' := by
  obtain ⟨links, L', between, coherent, _, _, _, switched⟩ := doExit_spec peaceful.coherent result
  have empty := between.deserted fun p => by
    rw [relink_trace, unreaped_reaped]
    split
    · rfl
    · exact peaceful.spared p
  have switched := switched empty
  rw [reaped_unheld holding] at switched
  refine ⟨L', coherent, switched.aside idle ?_ ?_ ?_ ?_ ?_ ?_ ?_⟩
  · intro q shared
    have notReady : q ≠ .ready := by rintro rfl; exact shared
    have elsewhere : q ≠ .waiting k.currentRunning := by rintro rfl; exact shared
    simp [reapLists, holding, dropLists, released, notReady, elsewhere]
  · simp [Kernel.record, exiting, Kernel.setPcb]
  · simp [Kernel.record, exiting, Kernel.setPcb]
  · simp [Kernel.record, exiting, Kernel.setPcb]
  · simp [Kernel.record, exiting, Kernel.setPcb]
  · refine ⟨.reap k.currentRunning :: ((slots (L (.waiting k.currentRunning))).map
      (Act.wake (.waiting k.currentRunning))).reverse, ?_, ?_⟩
    · simp [Kernel.record, wakeAll_trace, exiting, Kernel.setPcb]
    · intro a member
      simp only [List.mem_cons, List.mem_reverse, List.mem_map] at member
      rcases member with rfl | ⟨j, _, rfl⟩ <;> trivial
  · intro p status
    by_cases same : p = k.currentRunning
    · exact Or.inr same
    · simp only [relink_pcb, Kernel.record, wakeAll_pcb] at status
      split at status
      · contradiction
      · exact Or.inl (by simpa [exiting, Kernel.setPcb, same] using status)

theorem spawn_aside (peaceful : Peaceful k L) (idle : k.kont k.currentRunning = .user)
    (task : TaskInfo) : ∃ L', Coherent (spawn task k) L' {(spawn task k).currentRunning} ∧
    Aside k L (spawn task k) L' := by
  unfold spawn
  cases found : freeSlot k with
  | none =>
    exact ⟨L, peaceful.coherent, fun _ _ => rfl, rfl, rfl, rfl, fun _ => Or.inl rfl, idle,
      ⟨[], rfl, by simp⟩, fun _ => Or.inl⟩
  | some i =>
    have exited := freeSlot_exited found
    have other := peaceful.free_other exited (peaceful.spared i)
    have reused := assignt_spec peaceful.coherent exited (peaceful.spared i) other task
    refine ⟨_, reused, ?_, rfl, rfl, rfl, fun p => ?_, idle, ⟨[.spawn i], rfl, by simp [Act.Aside]⟩,
      fun p status => ?_⟩
    · intro q shared
      have notReady : q ≠ .ready := by rintro rfl; exact shared
      simp [parkLists, notReady]
    · by_cases same : p = i
      · subst p
        exact Or.inr ⟨exited, by simp [assignt, assignTask, Kernel.setPcb, Kernel.record], other⟩
      · exact Or.inl (by simp [assignt, assignTask, Kernel.setPcb, Kernel.record, same])
    · by_cases same : p = i
      · subst p; exact Or.inl exited
      · exact Or.inl (by
          simpa [assignt, assignTask, Kernel.setPcb, Kernel.record, same] using status)

/-- Everything but the synchronization calls leaves the synchronization objects alone. -/
theorem step_aside (peaceful : Peaceful k L) (aside : event.Aside)
    (holding : event = .call .exit → L (.holding k.currentRunning) = [])
    (step : Step k event k') : ∃ L', Peaceful k' L' ∧ Aside k L k' L' := by
  have good : Good k event := by
    rcases event with call | _ | _
    · cases call <;> first | exact aside.elim | exact fun i _ => peaceful.spared i | trivial
    · trivial
    · trivial
  have spares : event.Spares := by
    rcases event with call | _ | _
    · cases call <;> first | exact aside.elim | trivial
    · trivial
    · trivial
  obtain ⟨M, peaceful'⟩ := step_peaceful peaceful spares good step
  have outcome : ∃ L', Coherent k' L' {k'.currentRunning} ∧ Aside k L k' L' := by
    obtain ⟨fuel, clk, result⟩ := step
    rcases event with call | _ | _
    · simp only [execute] at result
      split at result
      next idle =>
        cases call with
        | spawn task =>
          obtain rfl := Option.some.inj result
          exact spawn_aside peaceful idle task
        | exit => exact exit_aside peaceful idle (holding rfl) result
        | wait id =>
          rcases wait_spec result with rfl | ⟨i, found, other, block⟩
          · exact ⟨L, peaceful.coherent, fun _ _ => rfl, rfl, rfl, rfl, fun _ => Or.inl rfl, idle,
              ⟨[], rfl, by simp⟩, fun _ => Or.inl⟩
          · exact wait_aside peaceful idle (lookup_live found).2 other block
        | sleep time =>
          obtain ⟨L', coherent, _, aside⟩ := yield_aside peaceful.coherent peaceful.resting idle _
            (Or.inr (Or.inl (by rfl))) result
          exact ⟨L', coherent, aside⟩
        | _ => exact aside.elim
      next => contradiction
    · simp only [execute] at result
      split at result
      next idle =>
        obtain ⟨L', coherent, _, aside⟩ := yield_aside peaceful.coherent peaceful.resting idle _
          (Or.inr (Or.inr (by rfl))) result
        exact ⟨L', coherent, aside⟩
      next => contradiction
    · exact aside.elim
  obtain ⟨L', coherent, isAside⟩ := outcome
  exact ⟨L', ⟨peaceful'.toSound.restate coherent, peaceful'.spared⟩, isAside⟩

/-- The wake-up that `do_unblock_one` records, if there is anybody to wake. -/
def firstWoken (q : QueueId) (l : List Item) : List Act :=
  ((slots l).head?.map (Act.wake q)).toList

theorem wakeFirst_trace : (wakeFirst q L k).trace = firstWoken q (L q) ++ k.trace := by
  unfold wakeFirst firstWoken
  cases slots (L q) <;> rfl

theorem wakeFirst_pcb : (wakeFirst q L k).pcb p =
    if (slots (L q)).head? = some p then { k.pcb p with status := .ready, chan := none }
    else k.pcb p := by
  unfold wakeFirst
  cases slots (L q) with
  | nil => rfl
  | cons i rest =>
    by_cases same : p = i
    · subst p; simp [wake, Kernel.setPcb, Kernel.record]
    · simp [wake, Kernel.setPcb, Kernel.record, same, Ne.symm same]

theorem wakeFirst_data : (wakeFirst q L k).lock = k.lock ∧ (wakeFirst q L k).count = k.count ∧
    (wakeFirst q L k).barrier = k.barrier ∧ (wakeFirst q L k).kont = k.kont := by
  unfold wakeFirst
  split <;> exact ⟨rfl, rfl, rfl, rfl⟩

theorem firstLists_self (parking : q.Parking) : firstLists q L q = (L q).tail := by
  unfold firstLists
  cases front : L q with
  | nil => simpa using front
  | cons x rest => simp [parking_ne_ready parking]

theorem letGo_unblocked (nobody : L (.block l) = []) : letGo l L k = unlock k.currentRunning l k := by
  simp [letGo, nobody]

/-- Taking a mutex and letting it go again, with `f` in between. -/
theorem letGoLists_of_ne {r : QueueId} (notReady : r ≠ .ready) (holding : M (.holding p) = [])
    (nobody : M (.block l) = []) (same : r ≠ .holding p → r ≠ .block l → L r = M r)
    : letGoLists l p [] L r = M r := by
  by_cases holds : r = .holding p
  · subst r; simp [letGoLists, released, holding]
  · by_cases blocks : r = .block l
    · subst r; simp [letGoLists, released, nobody]
    · simp [letGoLists, released, notReady, holds, blocks, same holds blocks]

theorem holdLists_of_ne {r : QueueId} (other : r ≠ .holding p) : holdLists p l L r = L r := by
  simp [holdLists, other]

/-- The running process has given its mutex back and blocked, and another one runs. -/
structure Stalled (q : QueueId) (kont : Kont) (l : Mutex) (m : Kernel) (L : Lists) (k' : Kernel)
    (L' : Lists) : Prop where
  queue : L' q = L q ++ [.pcb m.currentRunning]
  others : ∀ r, r ≠ .ready → r ≠ q → L' r = L r
  lock : k'.lock = Function.update m.lock l .unlocked
  count : k'.count = m.count
  barrier : k'.barrier = m.barrier
  kont : k'.kont = Function.update m.kont m.currentRunning kont
  trace : ∃ ps : List Slot, k'.trace = .dispatch k'.currentRunning :: ps.map .reap ++
    .block q m.currentRunning :: .release m.currentRunning l :: m.trace
  status : ∀ p, ((k'.pcb p).status = .exited ↔ p ≠ m.currentRunning ∧ (m.pcb p).status = .exited)
  clean : Clean m → Clean k'

/-- From the moment the mutex is taken to the next process. -/
theorem stall_spec (coherent : Coherent m (holdLists m.currentRunning l L) {m.currentRunning})
    (holding : ∀ p, L (.holding p) = []) (nobody : L (.block l) = []) (resting : Resting m L)
    (foreign : q.Foreign) (elsewhere : q ≠ .block l)
    (result : (doMutexLockRelease fuel l m).bind (doBlock fuel clk q kont) = some k') :
    ∃ L', Coherent k' L' {k'.currentRunning} ∧ (k'.pcb k'.currentRunning).status = .running ∧
      Stalled q kont l m L k' L' := by
  have back : holdLists m.currentRunning l L (.holding m.currentRunning) = [] ++ [.lock l] := by
    simp [holdLists, holding]
  obtain ⟨links, L', _, coherent', running, _, waking, switched⟩ :=
    releaseBlock_spec coherent back foreign.parking foreign.unattended result
  have free : holdLists m.currentRunning l L (.block l) = [] := by
    rw [holdLists_of_ne (by simp), nobody]
  rw [letGo_unblocked free] at switched waking
  have lists : ∀ r, r ≠ .ready →
      letGoLists l m.currentRunning [] (holdLists m.currentRunning l L) r = L r := fun r notReady =>
    letGoLists_of_ne notReady (holding _) nobody fun other _ => holdLists_of_ne other
  have notReady : q ≠ .ready := parking_ne_ready foreign.parking
  have notHolding : ∀ p, q ≠ .holding p := by
    rintro p rfl
    exact foreign
  have parked : ∀ r, r ≠ .ready → r ≠ q → parkLists q m.currentRunning
      (letGoLists l m.currentRunning [] (holdLists m.currentRunning l L)) r = L r := by
    intro r notReady other
    simp [parkLists, other, lists r notReady]
  have status : ∀ p, ((blockedOn q kont ((unlock m.currentRunning l m).relink links)).pcb p).status =
      if p = m.currentRunning then .blocked else (m.pcb p).status := by
    intro p
    by_cases same : p = m.currentRunning <;>
      simp [blockedOn, parkOn, Kernel.setPcb, Kernel.push, Kernel.record, unlock, same]
  have empty : Deserted (blockedOn q kont ((unlock m.currentRunning l m).relink links))
      (parkLists q m.currentRunning
        (letGoLists l m.currentRunning [] (holdLists m.currentRunning l L))) := by
    intro p exited
    rw [status] at exited
    split at exited
    · contradiction
    next other =>
      rw [parked _ (by simp) (Ne.symm (foreign.unattended p)), parked _ (by simp)
        (Ne.symm (notHolding p))]
      exact resting p other exited
  have switched := switched empty
  refine ⟨L', coherent', running, ?_⟩
  constructor
  · rw [switched.queues q notReady]
    simp [parkLists, lists q notReady, unlock, Kernel.record]
  · intro r notReady other
    rw [switched.queues r notReady]
    exact parked r notReady other
  · exact switched.lock
  · exact switched.count
  · exact switched.barrier
  · exact switched.kont
  · exact switched.trace
  · intro p
    rcases switched.status p with same | ⟨runnable, outcome⟩
    · rw [same, status]
      by_cases own : p = m.currentRunning <;> simp [own]
    · rw [status] at runnable
      constructor
      · intro exited
        rcases outcome with ready | ⟨running, _⟩
        · simp [ready] at exited
        · simp [running] at exited
      · rintro ⟨other, exited⟩
        simp [other, exited, Runnable] at runnable
  · intro clean
    refine waking.clean fun p live chan => ?_
    rw [status] at live ⊢
    by_cases own : p = m.currentRunning
    · simp [own]
    · rw [if_neg own] at live ⊢
      exact clean p live (by
        simpa [blockedOn, parkOn, Kernel.setPcb, Kernel.push, Kernel.record, unlock, own] using chan)

theorem relock (quiet : Quiet k L) :
    Function.update (Function.update k.lock l .locked) l .unlocked = k.lock := by
  rw [Function.update_idem, ← quiet.lock l, Function.update_eq_self]

theorem returning_idle (idle : k.kont k.currentRunning = .user) : returning k = k := by
  unfold returning
  rw [← idle, Function.update_eq_self]

theorem returning_coherent (coherent : Coherent k L off) : Coherent (returning k) L off :=
  coherent.data rfl rfl rfl rfl

variable {shell : TaskInfo}

theorem initPcb_quiet : Quiet (initPcb shell) fun _ => [] := by
  obtain ⟨_, _, same⟩ := initPcb_eq shell
  exact ⟨fun l => by rw [same]; rfl, fun _ => rfl⟩

theorem initPcb_idle : (initPcb shell).kont p = .user := by
  obtain ⟨_, _, same⟩ := initPcb_eq shell
  rw [same]
  by_cases zero : p = 0 <;> simp [zero, assignt, assignTask, Kernel.setPcb, Kernel.record, boot]

end Tina
