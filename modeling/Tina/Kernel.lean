import Mathlib.Algebra.Ring.Nat
import Tina.Queue

/-! The data of the process and synchronization half of the kernel: `sched.h`,
`lock.h`, `sem.h`, `barrier.h` and `cond.h`. Records are named, not placed: the
store is typed and no two of them share a word. What the declared layouts do to
that picture is a separate question, answered over an explicit memory. -/
namespace Tina

open LinkedQueue

abbrev Word := BitVec 32

abbrev numMaxTask : Nat := 32
abbrev Slot := Fin numMaxTask

instance : NeZero numMaxTask := ⟨by decide⟩

/-- Signed arithmetic of the compiled kernel (`addiu`), with its wrap-around. -/
def int32 (x : Int) : Int := x.bmod (2 ^ 32)

theorem int32_of_lt {x : Int} (low : -2147483648 ≤ x) (high : x < 2147483648) : int32 x = x :=
  Int.bmod_eq_of_le (by omega) (by omega)

@[simp] theorem int32_add (x y : Int) : int32 (int32 x + y) = int32 (x + y) := Int.bmod_add_bmod

/-- Numbers less than `2 ^ 32` apart keep their difference. -/
theorem int32_inj {x y : Int} (same : int32 x = int32 y) (above : y ≤ x)
    (close : x - y < 4294967296) : x = y := by
  have residues : x % (2 ^ 32 : Nat) = y % (2 ^ 32 : Nat) := by
    rw [← Int.bmod_emod, ← Int.bmod_emod (x := y)]
    exact congrArg (· % ((2 ^ 32 : Nat) : Int)) same
  omega

inductive TaskStatus where
  | embryo | sleeping | blocked | running | ready | exited
  deriving DecidableEq, Repr

inductive TaskType where
  | kernelProcess | kernelThread | userProcess | userThread
  deriving DecidableEq, Repr

inductive LockStatus where
  | unlocked | locked
  deriving DecidableEq, Repr

/-- A `mutex_lock_t` stands alone or is the `lock` field of a semaphore or barrier. -/
inductive Mutex where
  | user (address : Nat)
  | sem (s : Nat)
  | barrier (b : Nat)
  deriving DecidableEq, Repr

/-- What is linked through `prev` and `next`. -/
inductive Item where
  | pcb (i : Slot)
  | lock (l : Mutex)
  deriving DecidableEq, Repr

/-- Every `queue_t`: the global ready queue, the two inside a PCB, the one inside
each mutex, semaphore, barrier and condition, and those a program declares. -/
inductive QueueId where
  | ready
  | holding (i : Slot)
  | waiting (i : Slot)
  | block (l : Mutex)
  | sem (s : Nat)
  | barrier (b : Nat)
  | cond (c : Nat)
  | user (address : Nat)
  deriving DecidableEq, Repr

/-- The links and the two queues of a `pcb_t` live in the shared link store. -/
structure Pcb where
  kernelStackTop : Word
  userStackTop : Word
  pid : Int
  type : TaskType
  status : TaskStatus
  cursorX : Int
  cursorY : Int
  sleepEnd : Word
  chan : Option QueueId
  name : Word
  deriving DecidableEq, Repr

structure TaskInfo where
  name : Word
  entryPoint : Word
  type : TaskType
  deriving DecidableEq, Repr

structure Barrier where
  count : Int
  max : Int
  deriving DecidableEq, Repr

/-- What the caller of `do_mutex_lock_acquire` does once the mutex is taken. -/
inductive After where
  | user
  | condition (l : Mutex) (c : Nat)
  | up (s : Nat)
  | down (s : Nat)
  | arrive (b : Nat)
  | leave (b : Nat)
  deriving DecidableEq, Repr

/-- Where a process that gave up the processor continues: the only part of its
saved kernel stack that differs between the call sites of `do_block`. -/
inductive Kont where
  | user
  | acquire (l : Mutex) (after : After)
  | down (s : Nat)
  | barrier (b : Nat)
  | condition (l : Mutex) (c : Nat)
  deriving DecidableEq, Repr

/-- Observable actions, for stating properties of runs. -/
inductive Act where
  | spawn (p : Slot)
  | kill (p : Slot)
  | reap (p : Slot)
  | dispatch (p : Slot)
  | block (q : QueueId) (p : Slot)
  | wake (q : QueueId) (p : Slot)
  | acquire (p : Slot) (l : Mutex)
  | release (p : Slot) (l : Mutex)
  | up (s : Nat)
  | down (s : Nat)
  | arrive (b : Nat) (p : Slot)
  | leave (b : Nat) (p : Slot)
  | wait (p : Slot) (l : Mutex) (c : Nat)
  | waited (p : Slot) (l : Mutex) (c : Nat)
  deriving DecidableEq, Repr

/-- `currentRunning` is never NULL here: a call that would store NULL there and
dereference it has no result. `trace` is history, newest first; no function of
the kernel reads it. -/
structure Kernel where
  links : Links Item QueueId
  pcb : Slot → Pcb
  lock : Mutex → LockStatus
  count : Nat → Int
  barrier : Nat → Barrier
  currentRunning : Slot
  processId : Int
  timeElapsed : Word
  screenCursorX : Int
  screenCursorY : Int
  kont : Slot → Kont
  trace : List Act

namespace Kernel

def setPcb (i : Slot) (v : Pcb) (k : Kernel) : Kernel :=
  { k with pcb := Function.update k.pcb i v }

def record (a : Act) (k : Kernel) : Kernel := { k with trace := a :: k.trace }

def push (q : QueueId) (x : Item) (k : Kernel) : Kernel :=
  { k with links := queuePush q x k.links }

def current (k : Kernel) : Pcb := k.pcb k.currentRunning

end Kernel

end Tina
