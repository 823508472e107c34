import Tina.Proc

/-! `kernel/locking`: `lock.c`, `sem.c`, `barrier.c` and `cond.c`. A function that
may block ends there with its continuation stored in `kont`; `resume` runs what
`block_sched` returns into. -/
namespace Tina

open LinkedQueue

def doMutexLockInit (l : Mutex) (k : Kernel) : Kernel :=
  { k with
    lock := Function.update k.lock l .unlocked
    links := queueInit (.block l) k.links }

def doSemaphoreInit (s : Nat) (val : Int) (k : Kernel) : Kernel :=
  let k := doMutexLockInit (.sem s) { k with links := queueInit (.sem s) k.links }
  { k with count := Function.update k.count s val }

def doBarrierInit (b : Nat) (goal : Int) (k : Kernel) : Kernel :=
  let k := doMutexLockInit (.barrier b)
    { k with barrier := Function.update k.barrier b ⟨0, goal⟩ }
  { k with links := queueInit (.barrier b) k.links }

def doConditionInit (c : Nat) (k : Kernel) : Kernel :=
  { k with links := queueInit (.cond c) k.links }

/-- `do_semaphore_up` once it has the inner mutex. -/
def semaphoreUp (fuel : Nat) (s : Nat) (k : Kernel) : Option Kernel := do
  let k := ({ k with count := Function.update k.count s (int32 (k.count s + 1)) }).record (.up s)
  let k ← doUnblockOne (.sem s) k
  doMutexLockRelease fuel (.sem s) k

/-- `do_semaphore_down` from the test of its loop on, with the inner mutex. -/
def semaphoreDown (fuel : Nat) (clk : Word) (s : Nat) (k : Kernel) : Option Kernel :=
  if k.count s ≤ 0 then do
    let k ← doMutexLockRelease fuel (.sem s) k
    doBlock fuel clk (.sem s) (.down s) k
  else
    doMutexLockRelease fuel (.sem s)
      (({ k with count := Function.update k.count s (int32 (k.count s - 1)) }).record (.down s))

/-- The end of `do_barrier_wait`. -/
def barrierLeave (fuel : Nat) (b : Nat) (k : Kernel) : Option Kernel := do
  let k ← doMutexLockRelease fuel (.barrier b) k
  some (k.record (.leave b k.currentRunning))

/-- `do_barrier_wait` once it has the inner mutex. -/
def barrierArrive (fuel : Nat) (clk : Word) (b : Nat) (k : Kernel) : Option Kernel := do
  let barrier := k.barrier b
  let count := int32 (barrier.count + 1)
  let k := { k with barrier := Function.update k.barrier b { barrier with count := count } }
  let k := k.record (.arrive b k.currentRunning)
  if count = barrier.max then
    let k ← doUnblockAll fuel (.barrier b) k
    barrierLeave fuel b
      { k with barrier := Function.update k.barrier b { k.barrier b with count := 0 } }
  else
    let k ← doMutexLockRelease fuel (.barrier b) k
    doBlock fuel clk (.barrier b) (.barrier b) k

def afterAcquire (fuel : Nat) (clk : Word) (after : After) (k : Kernel) : Option Kernel :=
  match after with
  | .user => some k
  | .condition l c => some (k.record (.waited k.currentRunning l c))
  | .up s => semaphoreUp fuel s k
  | .down s => semaphoreDown fuel clk s k
  | .arrive b => barrierArrive fuel clk b k
  | .leave b => barrierLeave fuel b k

/-- The loop re-tests after every wake-up, so blocking in it and entering it anew
continue in the same way. -/
def doMutexLockAcquire (fuel : Nat) (clk : Word) (l : Mutex) (after : After) (k : Kernel) :
    Option Kernel :=
  if k.lock l = .locked then doBlock fuel clk (.block l) (.acquire l after) k
  else
    afterAcquire fuel clk after
      (({ k.push (.holding k.currentRunning) (.lock l) with
        lock := Function.update k.lock l .locked }).record (.acquire k.currentRunning l))

def doSemaphoreUp (fuel : Nat) (clk : Word) (s : Nat) (k : Kernel) : Option Kernel :=
  doMutexLockAcquire fuel clk (.sem s) (.up s) k

def doSemaphoreDown (fuel : Nat) (clk : Word) (s : Nat) (k : Kernel) : Option Kernel :=
  doMutexLockAcquire fuel clk (.sem s) (.down s) k

def doBarrierWait (fuel : Nat) (clk : Word) (b : Nat) (k : Kernel) : Option Kernel :=
  doMutexLockAcquire fuel clk (.barrier b) (.arrive b) k

def doConditionWait (fuel : Nat) (clk : Word) (l : Mutex) (c : Nat) (k : Kernel) :
    Option Kernel := do
  let k ← doMutexLockRelease fuel l (k.record (.wait k.currentRunning l c))
  doBlock fuel clk (.cond c) (.condition l c) k

def doConditionSignal (c : Nat) (k : Kernel) : Option Kernel := doUnblockOne (.cond c) k

def doConditionBroadcast (fuel : Nat) (c : Nat) (k : Kernel) : Option Kernel :=
  doUnblockAll fuel (.cond c) k

/-- `block_sched` returns in the dispatched process. -/
def resume (fuel : Nat) (clk : Word) (k : Kernel) : Option Kernel :=
  let p := k.currentRunning
  let back := { k with kont := Function.update k.kont p .user }
  match k.kont p with
  | .user => none
  | .acquire l after => doMutexLockAcquire fuel clk l after back
  | .down s => doMutexLockAcquire fuel clk (.sem s) (.down s) back
  | .barrier b => doMutexLockAcquire fuel clk (.barrier b) (.leave b) back
  | .condition l c => doMutexLockAcquire fuel clk l (.condition l c) back

end Tina
