import Tina.Moves

/-! Which mutexes are linked. A mutex gets into a queue when somebody acquires it, and in no other
way, so the links that a step of the kernel follows and writes are those of processes, of mutexes
that were linked before, and of the one that it names. -/
namespace Tina

open LinkedQueue

variable {k k' m : Kernel} {P : Mutex → Prop} {q : QueueId} {l : Mutex} {s b fuel : Nat}
  {clk : Word} {after : After} {event : Event}

/-- All mutexes that are in a queue, or that a link still leads to, are in `P`. -/
def Kernel.LocksIn (P : Mutex → Prop) (k : Kernel) : Prop := k.links.Within (OnLocks P)

/-- The mutex that a process is to acquire when it comes back into the kernel. -/
def Kont.mutexes : Kont → List Mutex
  | .user => []
  | .acquire l _ | .condition l _ => [l]
  | .down s => [.sem s]
  | .barrier b => [.barrier b]

def Call.mutexes : Call → List Mutex
  | .acquire l | .release l | .condWait l _ => [l]
  | .up s | .down s => [.sem s]
  | .barrierWait b => [.barrier b]
  | _ => []

def Event.mutexes (k : Kernel) : Event → List Mutex
  | .call c => c.mutexes
  | .timer => []
  | .resume => (k.kont k.currentRunning).mutexes

theorem keeping : Tolerant fun k m => KeepsLocks k.links m.links where
  refl _ _ within := within
  trans first second P within := second P (first P within)
  links _ _ keeps := keeps
  lock _ _ _ within := within
  pcb _ _ _ _ _ within := within
  record _ _ _ _ within := within

theorem scheduler_keeps {request : Request} (result : scheduler fuel clk request k = some k') :
    KeepsLocks k.links k'.links := by
  obtain ⟨m, first, result⟩ := Option.bind_eq_some_iff.mp result
  obtain ⟨n, second, result⟩ := Option.bind_eq_some_iff.mp result
  obtain rfl := Option.some.inj result
  have left := keeping.leave first
  have chosen := keeping.select (fun _ _ _ within => within) second
  exact fun P within => chosen P (left P within)

theorem doBlock_keeps {kont : Kont} (result : doBlock fuel clk q kont k = some k') :
    KeepsLocks k.links k'.links := by
  have left := scheduler_keeps result
  exact left

theorem semaphoreUp_keeps (result : semaphoreUp fuel s k = some k') :
    KeepsLocks k.links k'.links := by
  obtain ⟨m, first, rest⟩ := Option.bind_eq_some_iff.mp result
  have woken := keeping.doUnblockOne first
  have released := keeping.doMutexLockRelease rest
  exact fun P within => released P (woken P within)

theorem semaphoreDown_keeps (result : semaphoreDown fuel clk s k = some k') :
    KeepsLocks k.links k'.links := by
  rw [semaphoreDown] at result
  split at result
  · obtain ⟨m, first, rest⟩ := Option.bind_eq_some_iff.mp result
    have released := keeping.doMutexLockRelease first
    exact fun P within => doBlock_keeps rest P (released P within)
  · have released := keeping.doMutexLockRelease result
    exact released

theorem barrierLeave_keeps (result : barrierLeave fuel b k = some k') :
    KeepsLocks k.links k'.links := by
  obtain ⟨m, first, rest⟩ := Option.bind_eq_some_iff.mp result
  obtain rfl := Option.some.inj rest
  have released := keeping.doMutexLockRelease first
  exact released

theorem barrierArrive_keeps (result : barrierArrive fuel clk b k = some k') :
    KeepsLocks k.links k'.links := by
  simp only [barrierArrive] at result
  split at result
  · obtain ⟨m, first, rest⟩ := Option.bind_eq_some_iff.mp result
    have woken := keeping.doUnblockAll first
    have left := barrierLeave_keeps rest
    exact fun P within => left P (woken P within)
  · obtain ⟨m, first, rest⟩ := Option.bind_eq_some_iff.mp result
    have released := keeping.doMutexLockRelease first
    exact fun P within => doBlock_keeps rest P (released P within)

theorem afterAcquire_keeps (result : afterAcquire fuel clk after k = some k') :
    KeepsLocks k.links k'.links := by
  cases after with
  | user => exact Option.some.inj result ▸ keeping.refl k
  | condition l c => exact Option.some.inj result ▸ keeping.refl k
  | up s => exact semaphoreUp_keeps result
  | down s => exact semaphoreDown_keeps result
  | arrive b => exact barrierArrive_keeps result
  | leave b => exact barrierLeave_keeps result

/-- The one place where a mutex is put into a queue. -/
theorem doMutexLockAcquire_locksIn (locks : k.LocksIn P) (inside : P l)
    (result : doMutexLockAcquire fuel clk l after k = some k') : k'.LocksIn P := by
  rw [doMutexLockAcquire] at result
  split at result
  · exact doBlock_keeps result P locks
  · exact afterAcquire_keeps result P (queuePush_within locks inside)

theorem resume_locksIn (locks : k.LocksIn P)
    (named : ∀ l ∈ (k.kont k.currentRunning).mutexes, P l)
    (result : resume fuel clk k = some k') : k'.LocksIn P := by
  have back : ∀ kont, Kernel.LocksIn P { k with kont := kont } := fun _ => locks
  simp only [resume] at result
  split at result
  · contradiction
  all_goals
    rename_i inside
    rw [inside] at named
    exact doMutexLockAcquire_locksIn (back _) (named _ List.mem_cons_self) result

theorem spawn_keeps {task : TaskInfo} : KeepsLocks k.links (spawn task k).links := by
  intro P within
  rw [spawn]
  split
  · exact queueInit_within (queueInit_within (keeps_push P within))
  · exact within

theorem systemCall_locksIn {call : Call} (locks : k.LocksIn P) (named : ∀ l ∈ call.mutexes, P l)
    (result : systemCall fuel clk call k = some k') : k'.LocksIn P := by
  cases call with
  | sleep time => exact scheduler_keeps result P locks
  | spawn task => exact Option.some.inj result ▸ spawn_keeps P locks
  | kill id => exact Option.some.inj result ▸ keeping.kill id P locks
  | wait id =>
    simp only [systemCall, wait] at result
    split at result
    · exact Option.some.inj result ▸ locks
    · split at result
      · exact Option.some.inj result ▸ locks
      · exact doBlock_keeps result P locks
  | exit => exact scheduler_keeps result P locks
  | block q => exact doBlock_keeps result P locks
  | unblockOne q => exact keeping.doUnblockOne result P locks
  | unblockAll q => exact keeping.doUnblockAll result P locks
  | release l => exact keeping.doMutexLockRelease result P locks
  | condWait l c =>
    obtain ⟨m, first, rest⟩ := Option.bind_eq_some_iff.mp result
    exact doBlock_keeps rest P (keeping.doMutexLockRelease first P locks)
  | signal c => exact keeping.doUnblockOne result P locks
  | broadcast c => exact keeping.doUnblockAll result P locks
  | acquire l | up s | down s | barrierWait b =>
    exact doMutexLockAcquire_locksIn locks (named _ List.mem_cons_self) result

/-- What is linked after a step was linked before it, or it is what the step names. -/
theorem step_locksIn (locks : k.LocksIn P) (named : ∀ l ∈ event.mutexes k, P l)
    (step : Step k event k') : k'.LocksIn P := by
  obtain ⟨fuel, clk, result⟩ := step
  cases event with
  | resume => exact resume_locksIn locks named result
  | call c =>
    have idle := execute_idle result (by simp)
    simp only [execute, if_pos idle] at result
    exact systemCall_locksIn locks named result
  | timer =>
    have idle := execute_idle result (by simp)
    simp only [execute, if_pos idle] at result
    exact scheduler_keeps result P locks

/-- At the beginning no mutex is. -/
theorem initPcb_locksIn {shell : TaskInfo} : (initPcb shell).LocksIn P := by
  have nothing : boot.links.Within (OnLocks P) := ⟨nofun, nofun, nofun, nofun⟩
  have filled : (fillPcb shell).links.Within (OnLocks P) :=
    queueInit_within (queueInit_within (keeps_push P (queueInit_within nothing)))
  rw [initPcb]
  split
  next taken => exact keeps_dequeue taken P filled
  · exact filled

theorem doSemaphoreInit_locksIn {val : Int} (locks : k.LocksIn P) :
    (doSemaphoreInit s val k).LocksIn P :=
  queueInit_within (queueInit_within locks)

end Tina
