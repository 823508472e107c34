import Tina.Lock
import Tina.Transition

/-! Runs. Kernel code is not preemptible: a step lasts from the moment a process
has the processor to the next point where the kernel may switch. -/
namespace Tina

open Transition

inductive Call where
  | sleep (time : Word)
  | spawn (task : TaskInfo)
  | kill (id : Int)
  | wait (id : Int)
  | exit
  | block (q : QueueId)
  | unblockOne (q : QueueId)
  | unblockAll (q : QueueId)
  | acquire (l : Mutex)
  | release (l : Mutex)
  | condWait (l : Mutex) (c : Nat)
  | signal (c : Nat)
  | broadcast (c : Nat)
  | up (s : Nat)
  | down (s : Nat)
  | barrierWait (b : Nat)
  deriving DecidableEq, Repr

def systemCall (fuel : Nat) (clk : Word) (call : Call) (k : Kernel) : Option Kernel :=
  match call with
  | .sleep time => doSleep fuel clk time k
  | .spawn task => some (spawn task k)
  | .kill id => some (kill id k)
  | .wait id => wait fuel clk id k
  | .exit => doExit fuel clk k
  | .block q => doBlock fuel clk q .user k
  | .unblockOne q => doUnblockOne q k
  | .unblockAll q => doUnblockAll fuel q k
  | .acquire l => doMutexLockAcquire fuel clk l .user k
  | .release l => doMutexLockRelease fuel l k
  | .condWait l c => doConditionWait fuel clk l c k
  | .signal c => doConditionSignal c k
  | .broadcast c => doConditionBroadcast fuel c k
  | .up s => doSemaphoreUp fuel clk s k
  | .down s => doSemaphoreDown fuel clk s k
  | .barrierWait b => doBarrierWait fuel clk b k

/-- The running process makes a system call or is preempted by the timer, or, when
it was dispatched inside the kernel, continues there. -/
inductive Event where
  | call (c : Call)
  | timer
  | resume
  deriving DecidableEq, Repr

/-- A property of events is decided by cases. -/
def Event.decide {P : Event → Prop} (event : Event)
    (sleep : ∀ time, Decidable (P (.call (.sleep time))))
    (spawn : ∀ task, Decidable (P (.call (.spawn task))))
    (kill : ∀ id, Decidable (P (.call (.kill id))))
    (wait : ∀ id, Decidable (P (.call (.wait id)))) (exit : Decidable (P (.call .exit)))
    (block : ∀ q, Decidable (P (.call (.block q))))
    (unblockOne : ∀ q, Decidable (P (.call (.unblockOne q))))
    (unblockAll : ∀ q, Decidable (P (.call (.unblockAll q))))
    (acquire : ∀ l, Decidable (P (.call (.acquire l))))
    (release : ∀ l, Decidable (P (.call (.release l))))
    (condWait : ∀ l c, Decidable (P (.call (.condWait l c))))
    (signal : ∀ c, Decidable (P (.call (.signal c))))
    (broadcast : ∀ c, Decidable (P (.call (.broadcast c))))
    (up : ∀ s, Decidable (P (.call (.up s)))) (down : ∀ s, Decidable (P (.call (.down s))))
    (barrierWait : ∀ b, Decidable (P (.call (.barrierWait b)))) (timer : Decidable (P .timer))
    (resume : Decidable (P .resume)) : Decidable (P event) :=
  match event with
  | .call (.sleep time) => sleep time
  | .call (.spawn task) => spawn task
  | .call (.kill id) => kill id
  | .call (.wait id) => wait id
  | .call .exit => exit
  | .call (.block q) => block q
  | .call (.unblockOne q) => unblockOne q
  | .call (.unblockAll q) => unblockAll q
  | .call (.acquire l) => acquire l
  | .call (.release l) => release l
  | .call (.condWait l c) => condWait l c
  | .call (.signal c) => signal c
  | .call (.broadcast c) => broadcast c
  | .call (.up s) => up s
  | .call (.down s) => down s
  | .call (.barrierWait b) => barrierWait b
  | .timer => timer
  | .resume => resume

def execute (fuel : Nat) (clk : Word) (event : Event) (k : Kernel) : Option Kernel :=
  match event with
  | .call c => if k.kont k.currentRunning = .user then systemCall fuel clk c k else none
  | .timer => if k.kont k.currentRunning = .user then doScheduler fuel clk k else none
  | .resume => resume fuel clk k

def Step (k : Kernel) (event : Event) (next : Kernel) : Prop :=
  ∃ fuel clk, execute fuel clk event k = some next

/-- The task of concrete runs. -/
def someTask : TaskInfo := ⟨0, 0xa0800000, .kernelProcess⟩

variable {start k k' : Kernel} {allowed : Kernel → Event → Prop} {fuel : Nat} {clk : Word}

/-- Executable runs, which stop at a step that is not allowed. -/
def runAllowed (allowed : Kernel → Event → Prop) [∀ k event, Decidable (allowed k event)]
    (fuel : Nat) (clk : Word) : List Event → Kernel → Option Kernel
  | [], k => some k
  | event :: events, k =>
    if allowed k event then do
      let k ← execute fuel clk event k
      runAllowed allowed fuel clk events k
    else none

theorem runAllowed_reachable [∀ k event, Decidable (allowed k event)] (events : List Event)
    (reach : Reachable Step allowed start k)
    (result : runAllowed allowed fuel clk events k = some k') :
    Reachable Step allowed start k' := by
  induction events generalizing k with
  | nil =>
    obtain rfl := Option.some.inj result
    exact reach
  | cons event events ih =>
    rw [runAllowed] at result
    split at result
    next ok =>
      simp only [Option.bind_eq_bind, Option.bind_eq_some_iff] at result
      obtain ⟨next, first, result⟩ := result
      exact ih (.step reach ok ⟨fuel, clk, first⟩) result
    next => contradiction

/-- A concrete run is evaluated together with what is asked of its last state. -/
theorem runAllowed_found (allowed : Kernel → Event → Prop)
    [∀ k event, Decidable (allowed k event)] (fuel : Nat) (clk : Word) (events : List Event)
    (k : Kernel) (P : Kernel → Prop) [DecidablePred P]
    (found : (runAllowed allowed fuel clk events k).any (fun k => decide (P k)) = true) :
    ∃ k', Reachable Step allowed k k' ∧ P k' := by
  rw [Option.any_eq_true] at found
  obtain ⟨k', result, holds⟩ := found
  exact ⟨k', runAllowed_reachable events .start result, of_decide_eq_true holds⟩

end Tina
