import Tina.Kernel

/-! `kernel/sched/sched.c`, `time.c`, the timer of `irq.c`, and the part of
`lock.c` the scheduler calls. A loop takes fuel and has no result when it runs
out; neither has a use of a null or mistyped pointer. -/
namespace Tina

open LinkedQueue

def getTimer (k : Kernel) : Word := k.timeElapsed / 1000000

/-- `clk` is the reading of the hardware counter. -/
def setTimer (clk : Word) (k : Kernel) : Kernel :=
  { k with timeElapsed := k.timeElapsed + clk * 2 / 300 }

/-- The body shared by `do_unblock_one` and the loop of `do_unblock_all`. -/
def unblockHead (q : QueueId) (k : Kernel) : Option Kernel :=
  match queueDequeue q k.links with
  | (some (.pcb p), links) =>
    some ((({ k with links := links }.setPcb p
      { k.pcb p with status := .ready, chan := none }).push .ready (.pcb p)).record (.wake q p))
  | _ => none

def doUnblockOne (q : QueueId) (k : Kernel) : Option Kernel :=
  if queueIsEmpty q k.links then some k else unblockHead q k

def doUnblockAll : Nat → QueueId → Kernel → Option Kernel
  | 0, _, _ => none
  | fuel + 1, q, k =>
    if queueIsEmpty q k.links then some k
    else do
      let k ← unblockHead q k
      doUnblockAll fuel q k

def doMutexLockRelease (fuel : Nat) (l : Mutex) (k : Kernel) : Option Kernel := do
  let holding := QueueId.holding k.currentRunning
  let has ← queueHas fuel holding (.lock l) k.links
  let links := if has then (queueRemove (.pcb 0) holding (.lock l) k.links).2 else k.links
  doUnblockAll fuel (.block l)
    ({ k with links := links, lock := Function.update k.lock l .unlocked }.record
      (.release k.currentRunning l))

/-- `while (!queue_is_empty(&current_running->holding))`. -/
def drainHolding : Nat → Kernel → Option Kernel
  | 0, _ => none
  | fuel + 1, k =>
    let holding := QueueId.holding k.currentRunning
    if queueIsEmpty holding k.links then some k
    else match queueDequeue holding k.links with
      | (some (.lock lk), links) => do
        let k ← doMutexLockRelease fuel lk { k with links := links }
        drainHolding fuel k
      | _ => none

/-- What both `TASK_EXITED` branches of `scheduler` do for `current_running`. -/
def reap (fuel : Nat) (k : Kernel) : Option Kernel := do
  let k ← doUnblockAll fuel (.waiting k.currentRunning) k
  let k ← drainHolding fuel k
  some (k.record (.reap k.currentRunning))

def checkSleeping (k : Kernel) : Kernel :=
  if k.current.status = .sleeping ∧ k.current.sleepEnd ≤ getTimer k then
    k.setPcb k.currentRunning { k.current with status := .ready }
  else k

/-- The `do … while (current_running->status != TASK_READY)` loop. -/
def select : Nat → Kernel → Option Kernel
  | 0, _ => none
  | fuel + 1, k =>
    match queueDequeue .ready k.links with
    | (some (.pcb p), links) =>
      let k := checkSleeping { k with links := links, currentRunning := p }
      match k.current.status with
      | .sleeping => select fuel (k.push .ready (.pcb p))
      | .embryo => some (k.setPcb p { k.current with status := .ready })
      | .exited => do
        let k ← reap fuel k
        select fuel k
      | .ready => some k
      | .running | .blocked => select fuel k
    | _ => none

/-- The two arguments of `scheduler`, whose first is a queue or a time depending
on the second. -/
inductive Request where
  | blocked (queue : QueueId)
  | sleeping (time : Word)
  | ready
  | exited
  | other
  deriving DecidableEq, Repr

/-- The opening `switch (status)` of `scheduler`. -/
def leave (fuel : Nat) (request : Request) (k : Kernel) : Option Kernel :=
  let p := k.currentRunning
  match request with
  | .blocked queue =>
    some (((k.setPcb p { k.current with status := .blocked, chan := some queue }).push queue
      (.pcb p)).record (.block queue p))
  | .sleeping time =>
    some ((k.setPcb p { k.current with
      status := .sleeping, sleepEnd := getTimer k + time }).push .ready (.pcb p))
  | .ready | .other => some ((k.setPcb p { k.current with status := .ready }).push .ready (.pcb p))
  | .exited => reap fuel (k.setPcb p { k.current with status := .exited })

def saveCursor (k : Kernel) : Kernel :=
  k.setPcb k.currentRunning
    { k.current with cursorX := k.screenCursorX, cursorY := k.screenCursorY }

/-- What follows the selection loop: the chosen process gets its cursor back and
becomes the running one, and the clock is read and reset. -/
def enter (clk : Word) (k : Kernel) : Kernel :=
  (setTimer clk (({ k with
    screenCursorX := k.current.cursorX, screenCursorY := k.current.cursorY }).setPcb
      k.currentRunning { k.current with status := .running })).record (.dispatch k.currentRunning)

def scheduler (fuel : Nat) (clk : Word) (request : Request) (k : Kernel) : Option Kernel := do
  let k ← leave fuel request k
  let k ← select fuel (saveCursor k)
  some (enter clk k)

/-- `run_sched` passes 3, which is no case label of `scheduler`. -/
def doScheduler (fuel : Nat) (clk : Word) (k : Kernel) : Option Kernel :=
  scheduler fuel clk .other k

def doSleep (fuel : Nat) (clk : Word) (sleepTime : Word) (k : Kernel) : Option Kernel :=
  scheduler fuel clk (.sleeping sleepTime) k

def doExit (fuel : Nat) (clk : Word) (k : Kernel) : Option Kernel := scheduler fuel clk .exited k

/-- `kont` is what the caller of `do_block` still has to do when it returns. -/
def doBlock (fuel : Nat) (clk : Word) (queue : QueueId) (kont : Kont) (k : Kernel) : Option Kernel :=
  scheduler fuel clk (.blocked queue) { k with kont := Function.update k.kont k.currentRunning kont }

end Tina
