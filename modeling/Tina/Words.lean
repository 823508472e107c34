import Tina.Layout
import Tina.Lifecycle

/-! The typed store of the kernel in words. Where no two fields share a word, the calls on
queues and mutexes do to the memory what they do to the typed store, and write nothing
else. -/
namespace Tina

open LinkedQueue

/-- `kill`, once it has found the process. -/
def strike (i : Slot) (k : Kernel) : Kernel :=
  match (k.pcb i).chan with
  | none => condemn i k
  | some chan => (condemn i k).relink
      (queuePush .ready (.pcb i) (queueRemove (.pcb 0) chan (.pcb i) k.links).2)

theorem kill_strike {id : Int} {k : Kernel} {i : Slot} (found : lookup id k = some i) :
    kill id k = strike i k := kill_eq found

end Tina

namespace Tina.Layout

open LinkedQueue

/-- `sizeof(queue_t)`. -/
def sizeofQueue : Nat := 4 * 2

/-- In a `pcb_t`, after `holding`. -/
def offWaiting : Nat := offHolding + sizeofQueue

/-- In a `semaphore_t`, after `queue` and `count`. -/
def offSemLock : Nat := sizeofQueue + 4

/-- In a `barrier_t`, after `count` and `max`. -/
def offBarrierQueue : Nat := 4 * 2
def offBarrierLock : Nat := offBarrierQueue + sizeofQueue

/-- The numbers of `task_status_t`. -/
def statusCode : TaskStatus → Nat
  | .embryo => 0
  | .sleeping => 1
  | .blocked => 2
  | .running => 3
  | .ready => 4
  | .exited => 5

def lockCode : LockStatus → Nat
  | .unlocked => unlocked
  | .locked => locked

def doUnblockOne (g : Globals) (queue : Nat) (M : Memory) : Memory :=
  if M queue = 0 then M else unblockHead g queue M

/-- The case `TASK_BLOCKED` at the beginning of `scheduler`. -/
def blockOn (current queue : Nat) (M : Memory) : Memory :=
  let M := M.store (current + offStatus) (statusCode .blocked)
  let M := M.store (current + offChan) queue
  queuePush queue current M

/-- What `kill` does with the process it has found. -/
def strike (g : Globals) (target : Nat) (M : Memory) : Memory :=
  let M := M.store (target + offStatus) (statusCode .exited)
  if M (target + offChan) = 0 then M
  else queuePush g.readyQueue target (queueRemove g (M (target + offChan)) target M).2

/-- A word of the kernel that the calls on queues and mutexes use. -/
inductive Cell where
  | head (q : QueueId)
  | tail (q : QueueId)
  | prev (x : Item)
  | next (x : Item)
  | status (i : Slot)
  | chan (i : Slot)
  | lock (l : Mutex)
  deriving DecidableEq

/-- Where the objects of the kernel lie: the process array, the ready queue, and mutexes,
semaphores, barriers, conditions and queues by their names. -/
structure Places where
  globals : Globals
  mutex : Nat → Nat
  sem : Nat → Nat
  barrier : Nat → Nat
  cond : Nat → Nat
  queue : Nat → Nat

namespace Places

variable (P : Places)

def lockAt : Mutex → Nat
  | .user a => P.mutex a
  | .sem s => P.sem s + offSemLock
  | .barrier b => P.barrier b + offBarrierLock

def itemAt : Item → Nat
  | .pcb i => pcbAt P.globals i
  | .lock l => P.lockAt l

def queueAt : QueueId → Nat
  | .ready => P.globals.readyQueue
  | .holding i => pcbAt P.globals i + offHolding
  | .waiting i => pcbAt P.globals i + offWaiting
  | .block l => P.lockAt l + offBlockQueue
  | .sem s => P.sem s
  | .barrier b => P.barrier b + offBarrierQueue
  | .cond c => P.cond c
  | .user a => P.queue a

def address : Cell → Nat
  | .head q => P.queueAt q
  | .tail q => P.queueAt q + offTail
  | .prev x => P.itemAt x + offPrev
  | .next x => P.itemAt x + offNext
  | .status i => pcbAt P.globals i + offStatus
  | .chan i => pcbAt P.globals i + offChan
  | .lock l => P.lockAt l

/-- A null pointer is 0. -/
def pointer : Option Item → Nat
  | none => 0
  | some x => P.itemAt x

def channel : Option QueueId → Nat
  | none => 0
  | some q => P.queueAt q

/-- What the word of a cell is in the typed store. -/
def word (k : Kernel) : Cell → Nat
  | .head q => P.pointer (k.links.head q)
  | .tail q => P.pointer (k.links.tail q)
  | .prev x => P.pointer (k.links.prev x)
  | .next x => P.pointer (k.links.next x)
  | .status i => statusCode (k.pcb i).status
  | .chan i => P.channel (k.pcb i).chan
  | .lock l => lockCode (k.lock l)

end Places

/-- No two fields share a word, and none lies where the links of NULL would be. -/
structure Placement extends Places where
  distinct : Function.Injective toPlaces.address
  above : ∀ c, offNext < toPlaces.address c

/-- The memory holds the typed store; elsewhere, the links of NULL apart, it is as it was. -/
structure Placement.Holds (P : Placement) (M₀ : Memory) (k : Kernel) (M : Memory) : Prop where
  word : ∀ c, M (P.address c) = P.word k c
  frame : ∀ a, (∀ c, P.address c ≠ a) → a ≠ offPrev → a ≠ offNext → M a = M₀ a

variable {P : Placement} {M₀ M N : Memory} {k k' : Kernel} {p v : Option Item} {q : QueueId}
  {x : Item} {i : Slot} {l : Mutex} {h : Links Item QueueId} {c : Cell} {a w fuel : Nat}

/-! Stores. -/

/-- A store into a cell that the typed store knows of. -/
theorem Placement.Holds.store (holds : P.Holds M₀ k M)
    (cell : ∀ d, P.word k' d = if d = c then w else P.word k d) :
    P.Holds M₀ k' (M.store (P.address c) w) where
  word d := by
    rw [cell, store_apply]
    by_cases same : d = c
    · simp [same]
    · rw [if_neg (fun equal => same (P.distinct equal)), if_neg same, holds.word]
  frame a outside prev next := by
    rw [store_other (Ne.symm (outside c)), holds.frame a outside prev next]

/-- A store through NULL hits no cell. -/
theorem Placement.Holds.lost (holds : P.Holds M₀ k M) (null : a = offPrev ∨ a = offNext) :
    P.Holds M₀ k (M.store a w) where
  word d := by
    have above := P.above d
    rw [store_other (by rcases null with rfl | rfl <;> simp at above ⊢ <;> omega), holds.word]
  frame b outside prev next := by
    have other : b ≠ a := by rcases null with rfl | rfl <;> assumption
    rw [store_other other, holds.frame b outside prev next]

theorem Placement.Holds.setNext (holds : P.Holds M₀ (k.relink h) M) (p v : Option Item) :
    P.Holds M₀ (k.relink (h.setNext p v)) (M.store (P.pointer p + offNext) (P.pointer v)) := by
  cases p with
  | none => exact holds.lost (Or.inr (Nat.zero_add _))
  | some x =>
    refine holds.store (c := .next x) fun d => ?_
    cases d <;> simp [Places.word, Function.update_apply, apply_ite P.pointer]

theorem Placement.Holds.setPrev (holds : P.Holds M₀ (k.relink h) M) (p v : Option Item) :
    P.Holds M₀ (k.relink (h.setPrev p v)) (M.store (P.pointer p + offPrev) (P.pointer v)) := by
  cases p with
  | none => exact holds.lost (Or.inl (Nat.zero_add _))
  | some x =>
    refine holds.store (c := .prev x) fun d => ?_
    cases d <;> simp [Places.word, Function.update_apply, apply_ite P.pointer]

theorem Placement.Holds.setHead (holds : P.Holds M₀ (k.relink h) M) (q : QueueId)
    (v : Option Item) :
    P.Holds M₀ (k.relink (h.setHead q v)) (M.store (P.queueAt q) (P.pointer v)) := by
  refine holds.store (c := .head q) fun d => ?_
  cases d <;> simp [Places.word, Function.update_apply, apply_ite P.pointer]

theorem Placement.Holds.setTail (holds : P.Holds M₀ (k.relink h) M) (q : QueueId)
    (v : Option Item) :
    P.Holds M₀ (k.relink (h.setTail q v)) (M.store (P.queueAt q + offTail) (P.pointer v)) := by
  refine holds.store (c := .tail q) fun d => ?_
  cases d <;> simp [Places.word, Function.update_apply, apply_ite P.pointer]

/-- The state of a process, without its links. -/
theorem Placement.Holds.setStatus (holds : P.Holds M₀ k M) (i : Slot) (status : TaskStatus) :
    P.Holds M₀ (k.setPcb i { k.pcb i with status := status })
      (M.store (pcbAt P.globals i + offStatus) (statusCode status)) := by
  refine holds.store (c := .status i) fun d => ?_
  cases d <;> simp [Places.word, Kernel.setPcb, Function.update_apply] <;> grind

theorem Placement.Holds.setChan (holds : P.Holds M₀ k M) (i : Slot) (chan : Option QueueId) :
    P.Holds M₀ (k.setPcb i { k.pcb i with chan := chan })
      (M.store (pcbAt P.globals i + offChan) (P.channel chan)) := by
  refine holds.store (c := .chan i) fun d => ?_
  cases d <;> simp [Places.word, Kernel.setPcb, Function.update_apply] <;> grind

theorem Placement.Holds.setLock (holds : P.Holds M₀ k M) (l : Mutex) (status : LockStatus) :
    P.Holds M₀ { k with lock := Function.update k.lock l status }
      (M.store (P.lockAt l) (lockCode status)) := by
  refine holds.store (c := .lock l) fun d => ?_
  cases d <;> simp [Places.word, Function.update_apply, apply_ite lockCode]

/-! Pointers. -/

theorem Placement.itemAt_pos (P : Placement) (x : Item) : 0 < P.itemAt x := by
  have above := P.above (.prev x)
  simp only [Places.address, offPrev_eq, offNext_eq] at above
  omega

theorem Placement.pointer_eq_zero (P : Placement) : P.pointer p = 0 ↔ p = none := by
  cases p with
  | none => simp [Places.pointer]
  | some x => simpa [Places.pointer] using (P.itemAt_pos x).ne'

theorem Placement.pointer_some (P : Placement) : P.pointer (some x) ≠ 0 := (P.itemAt_pos x).ne'

theorem Placement.pointer_inj (P : Placement) : P.pointer p = P.pointer v ↔ p = v := by
  refine ⟨fun same => ?_, congrArg _⟩
  cases p with
  | none => exact (P.pointer_eq_zero.mp same.symm).symm
  | some x =>
    cases v with
    | none => exact P.pointer_eq_zero.mp same
    | some y =>
      have cell : Cell.prev x = .prev y := P.distinct (congrArg (· + offPrev) same)
      simpa using cell

/-! Queues. -/

theorem queuePush_holds (holds : P.Holds M₀ (k.relink h) M) (q : QueueId) (x : Item) :
    P.Holds M₀ (k.relink (Tina.queuePush q x h))
      (queuePush (P.queueAt q) (P.itemAt x) M) := by
  have head : M (P.queueAt q) = P.pointer (h.head q) := holds.word (.head q)
  have tail : M (P.queueAt q + offTail) = P.pointer (h.tail q) := holds.word (.tail q)
  by_cases empty : h.head q = none
  · rw [queuePush, Tina.queuePush, if_pos empty, if_pos (by rw [head, empty]; rfl)]
    exact (((holds.setHead q (some x)).setTail q (some x)).setNext (some x) none).setPrev
      (some x) none
  · rw [queuePush, Tina.queuePush, if_neg empty,
      if_neg (by rw [head, P.pointer_eq_zero]; exact empty)]
    have linked := (holds.setNext (h.tail q) (some x)).setNext (some x) none
    rw [← tail] at linked
    have same : _ = P.pointer (h.tail q) := (linked.word (.tail q)).trans
      (by simp [Places.word])
    have done := (linked.setPrev (some x) (h.tail q)).setTail q (some x)
    rw [← same] at done
    simp only [Links.setNext_tail]
    exact done

theorem queueDequeue_holds (holds : P.Holds M₀ (k.relink h) M) (q : QueueId) :
    (queueDequeue (P.queueAt q) M).1 = P.pointer (Tina.queueDequeue q h).1 ∧
      P.Holds M₀ (k.relink (Tina.queueDequeue q h).2) (queueDequeue (P.queueAt q) M).2 := by
  have head : M (P.queueAt q) = P.pointer (h.head q) := holds.word (.head q)
  rw [queueDequeue, Tina.queueDequeue]
  cases first : h.head q with
  | none =>
    rw [if_pos (by rw [head, first]; rfl)]
    exact ⟨rfl, holds⟩
  | some temp =>
    have at_temp : M (P.queueAt q) = P.itemAt temp := by rw [head, first]; rfl
    have next : M (P.itemAt temp + offNext) = P.pointer (h.next temp) := holds.word (.next temp)
    rw [if_neg (by rw [at_temp]; exact (P.itemAt_pos temp).ne')]
    refine ⟨at_temp, ?_⟩
    simp only [at_temp]
    by_cases only : h.next temp = none
    · rw [if_pos only, if_pos (by rw [next, only]; rfl)]
      exact (((holds.setTail q none).setHead q none).setPrev (some temp) none).setNext (some temp)
        none
    · rw [if_neg only, if_neg (by rw [next, P.pointer_eq_zero]; exact only)]
      have moved := holds.setHead q (h.next temp)
      rw [← next] at moved
      have front : _ = P.pointer (h.next temp) := (moved.word (.head q)).trans
        (by simp [Places.word])
      have freed := ((moved.setPrev (h.next temp) none).setPrev (some temp) none).setNext
        (some temp) none
      rw [← front] at freed
      simp only [Links.setHead_head, Function.update_self]
      exact freed

theorem Placement.item_eq (P : Placement) (same : a = P.pointer p) :
    P.itemAt x = a ↔ p = some x := by
  rw [same, eq_comm]
  exact P.pointer_inj (v := some x)

theorem queueRemove_holds (holds : P.Holds M₀ (k.relink h) M) (q : QueueId) (x : Item) :
    P.Holds M₀ (k.relink (Tina.queueRemove (.pcb 0) q x h).2)
      (queueRemove P.globals (P.queueAt q) (P.itemAt x) M).2 := by
  have head : M (P.queueAt q) = P.pointer (h.head q) := holds.word (.head q)
  have tail : M (P.queueAt q + offTail) = P.pointer (h.tail q) := holds.word (.tail q)
  have next : M (P.itemAt x + offNext) = P.pointer (h.next x) := holds.word (.next x)
  have prev : M (P.itemAt x + offPrev) = P.pointer (h.prev x) := holds.word (.prev x)
  -- the links of the item are cleared in each case
  have cleared : ∀ {g : Links Item QueueId} {N : Memory}, P.Holds M₀ (k.relink g) N →
      P.Holds M₀ (k.relink ((g.setPrev (some x) none).setNext (some x) none))
        ((N.store (P.itemAt x + offPrev) 0).store (P.itemAt x + offNext) 0) :=
    fun rest => (rest.setPrev (some x) none).setNext (some x) none
  rw [queueRemove, Tina.queueRemove]
  simp only [P.item_eq head, P.item_eq tail]
  refine cleared ?_
  by_cases first : h.head q = some x
  · by_cases last : h.tail q = some x
    · simp only [first, last, and_self, ↓reduceIte]
      exact (holds.setHead q none).setTail q none
    · simp only [first, last, and_false, ↓reduceIte]
      have moved := holds.setHead q (h.next x)
      rw [← next] at moved
      have front : _ = P.pointer (h.next x) := (moved.word (.head q)).trans
        (by simp [Places.word])
      have freed := moved.setPrev (h.next x) none
      rw [← front] at freed
      simp only [Links.setHead_head, Function.update_self]
      exact freed
  · by_cases last : h.tail q = some x
    · simp only [first, last, false_and, ↓reduceIte]
      have moved := holds.setTail q (h.prev x)
      rw [← prev] at moved
      have back : _ = P.pointer (h.prev x) := (moved.word (.tail q)).trans
        (by simp [Places.word])
      have freed := moved.setNext (h.prev x) none
      rw [← back] at freed
      simp only [Links.setTail_tail, Function.update_self]
      exact freed
    · simp only [first, last, false_and, ↓reduceIte]
      have skipped := holds.setNext (h.prev x) (h.next x)
      rw [← prev, ← next] at skipped
      generalize h.setNext (h.prev x) (h.next x) = g at skipped ⊢
      generalize M.store (M (P.itemAt x + offPrev) + offNext) (M (P.itemAt x + offNext)) = N
        at skipped ⊢
      have first : N (P.globals.pcb + offNext) = P.pointer (g.next (.pcb 0)) := by
        have word := skipped.word (.next (.pcb 0))
        simp only [Places.address, Places.itemAt, pcbAt, Fin.val_zero, Nat.zero_mul,
          Nat.add_zero] at word
        exact word
      have before : N (P.itemAt x + offPrev) = P.pointer (g.prev x) := skipped.word (.prev x)
      rw [first, before]
      exact skipped.setPrev (g.next (.pcb 0)) (g.prev x)

theorem queueHas_holds (holds : P.Holds M₀ k M) (q : QueueId) (x : Item) (fuel : Nat) :
    queueHas fuel (P.queueAt q) (P.itemAt x) M = Tina.queueHas fuel q x k.links := by
  have tail : M (P.queueAt q + offTail) = P.pointer (k.links.tail q) := holds.word (.tail q)
  have from_here : ∀ p, hasFrom fuel (P.queueAt q) (P.itemAt x) (P.pointer p) M =
      queueHasFrom q x k.links fuel p := by
    induction fuel with
    | zero => exact fun _ => rfl
    | succ fuel ih =>
      intro p
      rw [hasFrom, queueHasFrom.eq_def, tail]
      simp only [P.pointer_inj]
      by_cases last : p = k.links.tail q
      · rw [if_pos last, if_pos last]
        have here : P.pointer p = P.itemAt x ↔ p = some x := P.pointer_inj (v := some x)
        exact congrArg some (by rw [Bool.eq_iff_iff]; simpa using here)
      · rw [if_neg last, if_neg last]
        cases p with
        | none => rfl
        | some y =>
          have here : P.pointer (some y) = P.itemAt x ↔ y = x :=
            (P.pointer_inj (v := some x)).trans (by simp)
          have next : M (P.pointer (some y) + offNext) = P.pointer (k.links.next y) :=
            holds.word (.next y)
          rw [if_neg P.pointer_some, next, ih]
          simp only [here]
  have head : M (P.queueAt q) = P.pointer (k.links.head q) := holds.word (.head q)
  rw [queueHas, head, from_here]
  rfl

/-! Calls. -/

theorem Placement.Holds.congr (holds : P.Holds M₀ k M) (same : ∀ c, P.word k' c = P.word k c) :
    P.Holds M₀ k' M :=
  ⟨fun c => (holds.word c).trans (same c).symm, holds.frame⟩

theorem Placement.Holds.push (holds : P.Holds M₀ k M) (q : QueueId) (x : Item) :
    P.Holds M₀ (k.push q x) (queuePush (P.queueAt q) (P.itemAt x) M) :=
  queuePush_holds (k := k) (h := k.links) holds q x

theorem unblockHead_holds (holds : P.Holds M₀ k M) (result : Tina.unblockHead q k = some k') :
    P.Holds M₀ k' (unblockHead P.globals (P.queueAt q) M) := by
  obtain ⟨first, rest⟩ := queueDequeue_holds (h := k.links) holds q
  rw [Tina.unblockHead] at result
  split at result
  next i links dequeued =>
    rw [dequeued] at first rest
    obtain rfl := Option.some.inj result
    rw [unblockHead]
    generalize queueDequeue (P.queueAt q) M = found at first rest
    obtain ⟨temp, N⟩ := found
    obtain rfl : temp = pcbAt P.globals i := first
    have woken := ((rest.setStatus i .ready).setChan i none).push .ready (.pcb i)
    refine woken.congr fun c => ?_
    cases c <;> simp [Places.word, Kernel.setPcb, Kernel.push, Kernel.record]
  next => cases result

theorem doUnblockAll_holds (holds : P.Holds M₀ k M)
    (result : Tina.doUnblockAll fuel q k = some k') : ∃ N,
    doUnblockAll fuel P.globals (P.queueAt q) M = some N ∧ P.Holds M₀ k' N := by
  induction fuel generalizing k M with
  | zero => cases result
  | succ fuel ih =>
    have head : M (P.queueAt q) = P.pointer (k.links.head q) := holds.word (.head q)
    rw [Tina.doUnblockAll, queueIsEmpty] at result
    rw [doUnblockAll, head]
    cases front : k.links.head q with
    | none =>
      rw [front] at result
      obtain rfl := Option.some.inj result
      exact ⟨M, rfl, holds⟩
    | some x =>
      rw [front] at result
      obtain ⟨m, first, rest⟩ := Option.bind_eq_some_iff.mp result
      rw [if_neg P.pointer_some]
      exact ih (unblockHead_holds holds first) rest

theorem doUnblockOne_holds (holds : P.Holds M₀ k M) (result : Tina.doUnblockOne q k = some k') :
    P.Holds M₀ k' (doUnblockOne P.globals (P.queueAt q) M) := by
  have head : M (P.queueAt q) = P.pointer (k.links.head q) := holds.word (.head q)
  rw [Tina.doUnblockOne, queueIsEmpty] at result
  rw [doUnblockOne, head]
  cases front : k.links.head q with
  | none =>
    rw [front] at result
    obtain rfl := Option.some.inj result
    exact holds
  | some x =>
    rw [front] at result
    rw [if_neg P.pointer_some]
    exact unblockHead_holds holds result

theorem blockOn_holds (holds : P.Holds M₀ k M) (i : Slot) (q : QueueId) :
    P.Holds M₀ (parkOn q { k with currentRunning := i })
      (blockOn (pcbAt P.globals i) (P.queueAt q) M) := by
  have parked := ((holds.setStatus i .blocked).setChan i (some q)).push q (.pcb i)
  refine parked.congr fun c => ?_
  cases c <;>
    simp [Places.word, parkOn, Kernel.setPcb, Kernel.push, Kernel.record, Kernel.current]

theorem doMutexLockAcquire_holds (holds : P.Holds M₀ k M) (free : k.lock l ≠ .locked) (i : Slot) :
    ∃ N, doMutexLockAcquire (pcbAt P.globals i) (P.lockAt l) M = some N ∧
      P.Holds M₀ (lockBy l { k with currentRunning := i }) N := by
  have word : M (P.lockAt l) = lockCode (k.lock l) := holds.word (.lock l)
  have open_now : M (P.lockAt l) ≠ locked := by
    rw [word]
    cases status : k.lock l with
    | unlocked => simp [lockCode, unlocked, locked]
    | locked => exact absurd status free
  rw [doMutexLockAcquire, if_neg open_now]
  have taken := (holds.push (.holding i) (.lock l)).setLock l .locked
  refine ⟨_, rfl, taken.congr fun c => ?_⟩
  cases c <;> simp [Places.word, lockBy, Kernel.push, Kernel.record]

theorem doMutexLockRelease_holds (holds : P.Holds M₀ k M) (i : Slot)
    (result : Tina.doMutexLockRelease fuel l { k with currentRunning := i } = some k') :
    ∃ N, doMutexLockRelease fuel P.globals (pcbAt P.globals i) (P.lockAt l) M = some N ∧
      P.Holds M₀ k' N := by
  simp only [Tina.doMutexLockRelease, Option.bind_eq_bind, Option.bind_eq_some_iff] at result
  obtain ⟨has, test, result⟩ := result
  have asked : queueHas fuel (pcbAt P.globals i + offHolding) (P.lockAt l) M = some has :=
    (queueHas_holds holds (.holding i) (.lock l) fuel).trans test
  rw [doMutexLockRelease, asked]
  have cut : P.Holds M₀ (k.relink (if has then
      (Tina.queueRemove (.pcb 0) (.holding i) (.lock l) k.links).2 else k.links))
      (if has then (queueRemove P.globals (pcbAt P.globals i + offHolding) (P.lockAt l) M).2
        else M) := by
    cases has with
    | true => exact queueRemove_holds (h := k.links) holds (.holding i) (.lock l)
    | false => exact holds
  refine doUnblockAll_holds (q := .block l) ((cut.setLock l .unlocked).congr fun c => ?_) result
  cases c <;> rfl

theorem strike_holds (holds : P.Holds M₀ k M) (i : Slot) :
    P.Holds M₀ (Tina.strike i k) (strike P.globals (pcbAt P.globals i) M) := by
  have dead : P.Holds M₀ (condemn i k) _ := (holds.setStatus i .exited).congr fun c => by
    cases c <;> rfl
  rw [Tina.strike, strike]
  generalize M.store (pcbAt P.globals i + offStatus) (statusCode .exited) = N at dead ⊢
  have word : N (pcbAt P.globals i + offChan) = P.channel (k.pcb i).chan := by
    rw [← condemn_chan (i := i)]
    exact dead.word (.chan i)
  cases chan : (k.pcb i).chan with
  | none =>
    rw [chan] at word
    rw [if_pos (show N (pcbAt P.globals i + offChan) = 0 from word)]
    exact dead
  | some q =>
    rw [chan] at word
    have here : P.channel (some q) ≠ 0 := by
      have above := P.above (.head q)
      simp only [Places.address] at above
      simp only [Places.channel]
      omega
    have removed := queueRemove_holds (k := condemn i k) (h := k.links) dead q (.pcb i)
    rw [word, if_neg here]
    exact queuePush_holds removed .ready (.pcb i)

/-! Runs. -/

/-- A call, the running process of which is given. -/
inductive Deed where
  | block (i : Slot) (q : QueueId)
  | unblockOne (q : QueueId)
  | unblockAll (q : QueueId)
  | acquire (i : Slot) (l : Mutex)
  | release (i : Slot) (l : Mutex)
  | kill (i : Slot)
  deriving DecidableEq

namespace Deed

/-- In the typed store. A mutex that is locked is left to `do_block`. -/
def perform (fuel : Nat) (k : Kernel) : Deed → Option Kernel
  | .block i q => leave fuel (.blocked q) { k with currentRunning := i }
  | .unblockOne q => Tina.doUnblockOne q k
  | .unblockAll q => Tina.doUnblockAll fuel q k
  | .acquire i l => if k.lock l = .locked then none
    else Tina.doMutexLockAcquire fuel 0 l .user { k with currentRunning := i }
  | .release i l => Tina.doMutexLockRelease fuel l { k with currentRunning := i }
  | .kill i => some (Tina.strike i k)

/-- In the memory. -/
def write (P : Places) (fuel : Nat) (M : Memory) : Deed → Option Memory
  | .block i q => some (blockOn (pcbAt P.globals i) (P.queueAt q) M)
  | .unblockOne q => some (Layout.doUnblockOne P.globals (P.queueAt q) M)
  | .unblockAll q => Layout.doUnblockAll fuel P.globals (P.queueAt q) M
  | .acquire i l => Layout.doMutexLockAcquire (pcbAt P.globals i) (P.lockAt l) M
  | .release i l => Layout.doMutexLockRelease fuel P.globals (pcbAt P.globals i) (P.lockAt l) M
  | .kill i => some (Layout.strike P.globals (pcbAt P.globals i) M)

end Deed

theorem deed_holds (holds : P.Holds M₀ k M) (deed : Deed) (done : deed.perform fuel k = some k') :
    ∃ N, deed.write P.toPlaces fuel M = some N ∧ P.Holds M₀ k' N := by
  cases deed with
  | block i q =>
    obtain rfl := Option.some.inj done
    exact ⟨_, rfl, blockOn_holds holds i q⟩
  | unblockOne q => exact ⟨_, rfl, doUnblockOne_holds holds done⟩
  | unblockAll q => exact doUnblockAll_holds holds done
  | acquire i l =>
    simp only [Deed.perform] at done
    split at done
    · cases done
    next free =>
      rw [doMutexLockAcquire_free (k := { k with currentRunning := i }) free] at done
      obtain rfl := Option.some.inj done
      exact doMutexLockAcquire_holds holds free i
  | release i l => exact doMutexLockRelease_holds holds i done
  | kill i =>
    obtain rfl := Option.some.inj done
    exact ⟨_, rfl, strike_holds holds i⟩

/-- The words on the way from one item to the next end at NULL. -/
def Threads (M : Memory) : Nat → List Nat → Prop
  | a, [] => a = 0
  | a, b :: bs => a = b ∧ Threads M (M (b + offNext)) bs

theorem Placement.Holds.threads (holds : P.Holds M₀ k M) {items : List Item}
    (walk : k.links.Walk p items) : Threads M (P.pointer p) (items.map P.itemAt) := by
  induction items generalizing p with
  | nil => exact P.pointer_eq_zero.mpr walk
  | cons x items ih =>
    obtain ⟨rfl, rest⟩ := walk
    have next : M (P.itemAt x + offNext) = P.pointer (k.links.next x) := holds.word (.next x)
    exact ⟨rfl, next ▸ ih rest⟩

/-! Objects far enough apart. -/

/-- A field by its object and its offset in the room that the object is given. -/
inductive Spot where
  | ready (offset : Nat)
  | pcb (i : Slot) (offset : Nat)
  | far (name offset : Nat)
  deriving DecidableEq

namespace Spot

def lock (offset : Nat) : Mutex → Spot
  | .user a => .far a offset
  | .sem s => .far s (412 + offset)
  | .barrier b => .far b (816 + offset)

def item (offset : Nat) : Item → Spot
  | .pcb i => .pcb i offset
  | .lock l => lock offset l

def queue (offset : Nat) : QueueId → Spot
  | .ready => .ready offset
  | .holding i => .pcb i (offHolding + offset)
  | .waiting i => .pcb i (offWaiting + offset)
  | .block l => lock (offBlockQueue + offset) l
  | .sem s => .far s (400 + offset)
  | .barrier b => .far b (808 + offset)
  | .cond c => .far c (1200 + offset)
  | .user a => .far a (1300 + offset)

def of : Cell → Spot
  | .head q => queue 0 q
  | .tail q => queue offTail q
  | .prev x => item offPrev x
  | .next x => item offNext x
  | .status i => .pcb i offStatus
  | .chan i => .pcb i offChan
  | .lock l => lock 0 l

/-- The field that lies there. -/
def cell : Spot → Option Cell
  | .ready 0 => some (.head .ready)
  | .ready 4 => some (.tail .ready)
  | .pcb i 320 => some (.prev (.pcb i))
  | .pcb i 324 => some (.next (.pcb i))
  | .pcb i 336 => some (.status i)
  | .pcb i 352 => some (.chan i)
  | .pcb i 356 => some (.head (.holding i))
  | .pcb i 360 => some (.tail (.holding i))
  | .pcb i 364 => some (.head (.waiting i))
  | .pcb i 368 => some (.tail (.waiting i))
  | .far a 0 => some (.lock (.user a))
  | .far a 4 => some (.head (.block (.user a)))
  | .far a 8 => some (.tail (.block (.user a)))
  | .far a 320 => some (.prev (.lock (.user a)))
  | .far a 324 => some (.next (.lock (.user a)))
  | .far s 400 => some (.head (.sem s))
  | .far s 404 => some (.tail (.sem s))
  | .far s 412 => some (.lock (.sem s))
  | .far s 416 => some (.head (.block (.sem s)))
  | .far s 420 => some (.tail (.block (.sem s)))
  | .far s 732 => some (.prev (.lock (.sem s)))
  | .far s 736 => some (.next (.lock (.sem s)))
  | .far b 808 => some (.head (.barrier b))
  | .far b 812 => some (.tail (.barrier b))
  | .far b 816 => some (.lock (.barrier b))
  | .far b 820 => some (.head (.block (.barrier b)))
  | .far b 824 => some (.tail (.block (.barrier b)))
  | .far b 1136 => some (.prev (.lock (.barrier b)))
  | .far b 1140 => some (.next (.lock (.barrier b)))
  | .far c 1200 => some (.head (.cond c))
  | .far c 1204 => some (.tail (.cond c))
  | .far a 1300 => some (.head (.user a))
  | .far a 1304 => some (.tail (.user a))
  | _ => none

theorem cell_of (c : Cell) : (of c).cell = some c := by
  rcases c with q | q | x | x | i | i | l
  · rcases q with _ | i | i | (a | s | b) | s | b | c | a <;> rfl
  · rcases q with _ | i | i | (a | s | b) | s | b | c | a <;> rfl
  · rcases x with i | (a | s | b) <;> rfl
  · rcases x with i | (a | s | b) <;> rfl
  · rfl
  · rfl
  · rcases l with a | s | b <;> rfl

def address : Spot → Nat
  | .ready o => 400 + o
  | .pcb i o => 1000 + i * sizeofPcb + o
  | .far a o => 20000 + 2000 * a + o

/-- The field lies inside the room. -/
def Fits : Spot → Prop
  | .ready o => o < 600
  | .pcb _ o => o < sizeofPcb
  | .far _ o => o < 2000

theorem address_inj {s t : Spot} (fits : s.Fits) (fits' : t.Fits) (same : s.address = t.address) :
    s = t := by
  have few : ∀ i : Slot, (i : Nat) < 32 := fun i => i.isLt
  rcases s with o | ⟨i, o⟩ | ⟨a, o⟩ <;> rcases t with o' | ⟨j, o'⟩ | ⟨b, o'⟩ <;>
    simp only [address, Fits, sizeofPcb_eq] at same fits fits'
  · exact congrArg _ (by omega)
  · omega
  · omega
  · omega
  · obtain rfl : i = j := Fin.ext (by omega)
    exact congrArg _ (by omega)
  · have := few i
    omega
  · omega
  · have := few j
    omega
  · obtain rfl : a = b := by omega
    exact congrArg _ (by omega)

end Spot

/-- Where no object lies closer behind another than a `pcb_t` is long. -/
def spreadPlaces : Places where
  globals := ⟨1000, 400⟩
  mutex a := 20000 + 2000 * a
  sem s := 20400 + 2000 * s
  barrier b := 20800 + 2000 * b
  cond c := 21200 + 2000 * c
  queue a := 21300 + 2000 * a

theorem spread_lock (l : Mutex) (o : Nat) :
    spreadPlaces.lockAt l + o = (Spot.lock o l).address := by
  cases l <;> simp only [Places.lockAt, spreadPlaces, Spot.lock, Spot.address, offSemLock,
    offBarrierLock, offBarrierQueue, sizeofQueue] <;> omega

theorem spread_item (x : Item) (o : Nat) :
    spreadPlaces.itemAt x + o = (Spot.item o x).address := by
  cases x with
  | pcb i => rfl
  | lock l => exact spread_lock l o

theorem spread_queue (q : QueueId) (o : Nat) :
    spreadPlaces.queueAt q + o = (Spot.queue o q).address := by
  cases q with
  | block l =>
    rw [Places.queueAt, Nat.add_assoc]
    exact spread_lock l _
  | _ => simp only [Places.queueAt, spreadPlaces, Spot.queue, Spot.address, pcbAt, offWaiting,
      offHolding_eq, sizeofQueue, offBarrierQueue] <;> omega

theorem spread_spot (c : Cell) : spreadPlaces.address c = (Spot.of c).address := by
  cases c with
  | head q => exact spread_queue q 0
  | tail q => exact spread_queue q offTail
  | prev x => exact spread_item x offPrev
  | next x => exact spread_item x offNext
  | status i => rfl
  | chan i => rfl
  | lock l => exact spread_lock l 0

theorem Spot.lock_fits (l : Mutex) {o : Nat} (small : o < sizeofPcb) : (Spot.lock o l).Fits := by
  cases l <;> simp only [Spot.lock, Spot.Fits, sizeofPcb_eq] at small ⊢ <;> omega

theorem Spot.of_fits (c : Cell) : (Spot.of c).Fits := by
  have queue : ∀ q o, o < 8 → (Spot.queue o q).Fits := by
    intro q o small
    cases q with
    | block l => exact Spot.lock_fits l (by simp; omega)
    | _ =>
      simp only [Spot.queue, Spot.Fits, offWaiting, offHolding_eq, sizeofQueue, sizeofPcb_eq]
      omega
  have item : ∀ x o, o < sizeofPcb → (Spot.item o x).Fits := by
    intro x o small
    cases x with
    | pcb i => exact small
    | lock l => exact Spot.lock_fits l small
  cases c with
  | head q => exact queue q 0 (by decide)
  | tail q => exact queue q offTail (by decide)
  | prev x => exact item x offPrev (by decide)
  | next x => exact item x offNext (by decide)
  | status i => exact (by decide : offStatus < sizeofPcb)
  | chan i => exact (by decide : offChan < sizeofPcb)
  | lock l => exact Spot.lock_fits l (by decide)

/-- Objects that are far enough apart share no word. -/
def spread : Placement where
  toPlaces := spreadPlaces
  distinct c d same := by
    rw [spread_spot, spread_spot] at same
    have spot := Spot.address_inj (Spot.of_fits c) (Spot.of_fits d) same
    exact Option.some.inj ((Spot.cell_of c).symm.trans (spot ▸ Spot.cell_of d))
  above c := by
    rw [spread_spot]
    cases Spot.of c <;> (simp only [Spot.address, offNext_eq]; omega)

/-- Whatever sequence of calls the typed store goes through, the memory goes through it too:
afterwards it holds the typed store, its chains are the queues, and no other word has changed,
the links of NULL apart. -/
theorem deeds_hold (holds : P.Holds M₀ k M) (deeds : List Deed)
    (done : deeds.foldlM (Deed.perform fuel) k = some k') : ∃ N,
    deeds.foldlM (Deed.write P.toPlaces fuel) M = some N ∧ P.Holds M₀ k' N ∧
    ∀ L : Lists, k'.links.Spells L → ∀ q, Threads N (N (P.queueAt q)) ((L q).map P.itemAt) := by
  induction deeds generalizing k M with
  | nil =>
    obtain rfl := Option.some.inj done
    refine ⟨M, rfl, holds, fun L spells q => ?_⟩
    have head : M (P.queueAt q) = P.pointer (k.links.head q) := holds.word (.head q)
    rw [head]
    exact holds.threads (spells.walk q)
  | cons deed deeds ih =>
    rw [List.foldlM_cons] at done ⊢
    obtain ⟨m, first, rest⟩ := Option.bind_eq_some_iff.mp done
    obtain ⟨N, written, held⟩ := deed_holds holds deed first
    obtain ⟨N', later, result⟩ := ih held rest
    exact ⟨N', by rw [written]; exact later, result⟩

/-- Process 2 waits for the mutex that process 1 gives back. -/
theorem deeds_hold_handover : ∃ k' N,
    [.acquire 1 (.user 0), .block 2 (.block (.user 0)), .release 1 (.user 0)].foldlM
      (Deed.write spread.toPlaces 3) (fun _ => 0) = some N ∧ spread.Holds (fun _ => 0) k' N ∧
    (k'.pcb 2).status = .ready ∧
    ∀ L : Lists, k'.links.Spells L → ∀ q,
      Threads N (N (spread.queueAt q)) ((L q).map spread.itemAt) := by
  have blank : spread.Holds (fun _ => 0) boot (fun _ => 0) :=
    ⟨fun c => by cases c <;> rfl, fun _ _ _ _ => rfl⟩
  obtain ⟨k', done, ready⟩ : ∃ k', [.acquire 1 (.user 0), .block 2 (.block (.user 0)),
      .release 1 (.user 0)].foldlM (Deed.perform 3) boot = some k' ∧
        (k'.pcb 2).status = .ready := ⟨_, rfl, by decide⟩
  obtain ⟨N, written, holds, chains⟩ := deeds_hold blank _ done
  exact ⟨k', N, written, holds, ready, chains⟩

end Tina.Layout
