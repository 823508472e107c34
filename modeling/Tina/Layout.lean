import Tina.Kernel

/-! The queues and mutexes again, over the words they lie in. `queue.c` casts every
item to `pcb_t`, so where it writes the links of a mutex depends on two struct
layouts. Pointers and ints are words, all of them aligned. -/
namespace Tina.Layout

/-- What each word holds, by its address. -/
abbrev Memory := Nat → Nat

def Memory.store (a v : Nat) (M : Memory) : Memory := Function.update M a v

variable {M N : Memory} {a b v : Nat}

@[simp] theorem store_same : M.store a v a = v := Function.update_self ..
theorem store_other (other : b ≠ a) : M.store a v b = M b := Function.update_of_ne other ..

/-- `sizeof(regs_context_t)`: 32 registers and seven more words. -/
def sizeofRegsContext : Nat := 4 * (32 + 7)

/-- Two contexts and two stack tops come first in a `pcb_t`. -/
def offPrev : Nat := 2 * sizeofRegsContext + 4 * 2
def offNext : Nat := offPrev + 4

/-- After `next`, `pid` and `type`. -/
def offStatus : Nat := offNext + 4 * 3

/-- After `status`, the cursor and `sleep_end`. -/
def offChan : Nat := offStatus + 4 * 4
def offHolding : Nat := offChan + 4

/-- `holding`, `waiting` and `name` come last. -/
def sizeofPcb : Nat := offHolding + 4 * (2 + 2 + 1)

/-- In a `mutex_lock_t`, after `status`. -/
def offBlockQueue : Nat := 4

/-- `status`, `block_queue` and the two links that nothing uses. -/
def sizeofMutex : Nat := 4 * (1 + 2 + 2)

/-- In a `queue_t`, after `head`. -/
def offTail : Nat := 4

@[simp] theorem offPrev_eq : offPrev = 320 := rfl
@[simp] theorem offNext_eq : offNext = 324 := rfl
@[simp] theorem offStatus_eq : offStatus = 336 := rfl
@[simp] theorem offChan_eq : offChan = 352 := rfl
@[simp] theorem offHolding_eq : offHolding = 356 := rfl
@[simp] theorem sizeofPcb_eq : sizeofPcb = 376 := rfl
@[simp] theorem offBlockQueue_eq : offBlockQueue = 4 := rfl
@[simp] theorem sizeofMutex_eq : sizeofMutex = 20 := rfl
@[simp] theorem offTail_eq : offTail = 4 := rfl

def unlocked : Nat := 0
def locked : Nat := 1
def taskReady : Nat := 4

/-- The addresses of `pcb` and `ready_queue`. -/
structure Globals where
  pcb : Nat
  readyQueue : Nat

def queuePush (queue item : Nat) (M : Memory) : Memory :=
  if M queue = 0 then
    let M := M.store queue item
    let M := M.store (queue + offTail) item
    let M := M.store (item + offNext) 0
    M.store (item + offPrev) 0
  else
    let M := M.store (M (queue + offTail) + offNext) item
    let M := M.store (item + offNext) 0
    let M := M.store (item + offPrev) (M (queue + offTail))
    M.store (queue + offTail) item

def queueDequeue (queue : Nat) (M : Memory) : Nat × Memory :=
  let temp := M queue
  if temp = 0 then (0, M)
  else
    let M :=
      if M (temp + offNext) = 0 then (M.store (queue + offTail) 0).store queue 0
      else
        let M := M.store queue (M (M queue + offNext))
        M.store (M queue + offPrev) 0
    (temp, (M.store (temp + offPrev) 0).store (temp + offNext) 0)

/-- The last case goes through `pcb->next`, that is `pcb[0].next`. -/
def queueRemove (g : Globals) (queue item : Nat) (M : Memory) : Nat × Memory :=
  let next := M (item + offNext)
  let M :=
    if item = M queue ∧ item = M (queue + offTail) then (M.store queue 0).store (queue + offTail) 0
    else if item = M queue then
      let M := M.store queue (M (item + offNext))
      M.store (M queue + offPrev) 0
    else if item = M (queue + offTail) then
      let M := M.store (queue + offTail) (M (item + offPrev))
      M.store (M (queue + offTail) + offNext) 0
    else
      let M := M.store (M (item + offPrev) + offNext) (M (item + offNext))
      M.store (M (g.pcb + offNext) + offPrev) (M (item + offPrev))
  (next, (M.store (item + offPrev) 0).store (item + offNext) 0)

/-- The loop of `queue_has`. -/
def hasFrom : Nat → (queue item iterator : Nat) → Memory → Option Bool
  | 0, _, _, _, _ => none
  | fuel + 1, queue, item, iterator, M =>
    if iterator = M (queue + offTail) then some (iterator == item)
    else if iterator = 0 then some false
    else if iterator = item then some true
    else hasFrom fuel queue item (M (iterator + offNext)) M

def queueHas (fuel queue item : Nat) (M : Memory) : Option Bool :=
  hasFrom fuel queue item (M queue) M

/-- The body of the loop of `do_unblock_all`. -/
def unblockHead (g : Globals) (queue : Nat) (M : Memory) : Memory :=
  let (q, M) := queueDequeue queue M
  let M := M.store (q + offStatus) taskReady
  let M := M.store (q + offChan) 0
  queuePush g.readyQueue q M

def doUnblockAll : Nat → Globals → Nat → Memory → Option Memory
  | 0, _, _, _ => none
  | fuel + 1, g, queue, M =>
    if M queue = 0 then some M else doUnblockAll fuel g queue (unblockHead g queue M)

/-- A locked mutex sends the caller to `do_block`, which is not part of this memory. -/
def doMutexLockAcquire (current lock : Nat) (M : Memory) : Option Memory :=
  if M lock = locked then none
  else some ((queuePush (current + offHolding) lock M).store lock locked)

def doMutexLockRelease (fuel : Nat) (g : Globals) (current lock : Nat) (M : Memory) :
    Option Memory := do
  let has ← queueHas fuel (current + offHolding) lock M
  let M := if has then (queueRemove g (current + offHolding) lock M).2 else M
  doUnblockAll fuel g (lock + offBlockQueue) (M.store lock unlocked)

theorem store_apply : M.store a v b = if b = a then v else M b := by
  by_cases same : b = a
  · subst b; simp
  · simp [store_other same, same]

section
variable {queue item temp : Nat}

/-- Besides its head and tail, a push writes the links of the item and the `next` of
the item before it. -/
theorem queuePush_frame (head : a ≠ queue) (tail : a ≠ queue + 4) (prev : a ≠ item + 320)
    (next : a ≠ item + 324) (last : M queue ≠ 0 → a ≠ M (queue + 4) + 324) :
    queuePush queue item M a = M a := by
  unfold queuePush
  split
  next => simp [store_other, *]
  next filled => simp [store_other, *]

theorem queuePush_tail (apart : queue + 4 ≠ item + 320 ∧ queue + 4 ≠ item + 324) :
    queuePush queue item M (queue + 4) = item := by
  unfold queuePush
  split
  next =>
    simp only [offTail_eq, offNext_eq, offPrev_eq]
    rw [store_other apart.1, store_other apart.2, store_same]
  next => exact store_same

theorem queuePush_head (prev : queue ≠ item + 320) (next : queue ≠ item + 324)
    (last : M queue ≠ 0 → queue ≠ M (queue + 4) + 324) :
    queuePush queue item M queue = if M queue = 0 then item else M queue := by
  unfold queuePush
  split
  next => simp [store_other, *]
  next full => simp [store_other, *]

/-- A dequeue writes the links of the item it returns and the `prev` of the next one. -/
theorem queueDequeue_frame (filled : M queue = temp) (some : temp ≠ 0) (head : a ≠ queue)
    (tail : a ≠ queue + 4) (prev : a ≠ temp + 320) (next : a ≠ temp + 324)
    (second : a ≠ M (temp + 324) + 320 ∨ M (temp + 324) = 0) :
    (queueDequeue queue M).2 a = M a := by
  unfold queueDequeue
  rw [if_neg (by rw [filled]; exact some)]
  split
  next => simp [store_other, *]
  next more =>
    rcases second with second | second
    · simp [store_other, *]
    · simp [filled, second] at more

theorem queueDequeue_head (filled : M queue = temp) (some : temp ≠ 0)
    (apart : queue ≠ temp + 320 ∧ queue ≠ temp + 324)
    (second : queue ≠ M (temp + 324) + 320 ∨ M (temp + 324) = 0) :
    (queueDequeue queue M).2 queue = M (temp + 324) := by
  unfold queueDequeue
  rw [if_neg (by rw [filled]; exact some)]
  split
  next none =>
    have last : M (temp + 324) = 0 := by simpa [filled] using none
    simp [store_other, apart, filled, last]
  next more =>
    rcases second with second | second
    · simp [store_other, *]
    · simp [filled, second] at more

end

variable {g : Globals} {lock q : Nat} {held ws : List Nat} {i j : Slot} {fuel : Nat}

def pcbAt (g : Globals) (i : Slot) : Nat := g.pcb + i * sizeofPcb

def InPcb (g : Globals) (a : Nat) : Prop := g.pcb ≤ a ∧ a < g.pcb + numMaxTask * sizeofPcb

def InMutex (m a : Nat) : Prop := m ≤ a ∧ a < m + sizeofMutex

theorem pcbAt_inPcb (off : Nat) (inside : off < 376) : InPcb g (pcbAt g i + off) := by
  have := i.isLt
  simp only [InPcb, pcbAt, sizeofPcb_eq, numMaxTask] at *
  omega

/-- The same offset of two records, or of none. -/
theorem pcbAt_ne (off off' : Nat) (inside : off < 376) (inside' : off' < 376)
    (other : off ≠ off' ∨ pcbAt g i ≠ pcbAt g j) : pcbAt g i + off ≠ pcbAt g j + off' := by
  simp only [pcbAt, sizeofPcb_eq] at *
  omega

/-- Following `next` from one process to the other. -/
def Next (M : Memory) : List Nat → Prop
  | [] => True
  | w :: ws => M (w + offNext) = ws.headD 0 ∧ Next M ws

theorem Next.congr (next : Next M ws) (same : ∀ w ∈ ws, N (w + 324) = M (w + 324)) :
    Next N ws := by
  induction ws with
  | nil => trivial
  | cons w ws ih =>
    refine ⟨?_, ih next.2 fun x member => same x (by simp [member])⟩
    rw [offNext_eq, same w (by simp)]
    exact next.1

/-- `ws` are the processes on a queue outside the PCBs, and the ready queue is as the
queue functions leave it. -/
structure Waiting (g : Globals) (queue : Nat) (M : Memory) (ws : List Nat) : Prop where
  head : M queue = ws.headD 0
  next : Next M ws
  pcbs : ∀ w ∈ ws, ∃ i, w = pcbAt g i
  nodup : ws.Nodup
  ready : M g.readyQueue = 0 ∨
    (∃ i, M g.readyQueue = pcbAt g i) ∧ ∃ i, M (g.readyQueue + 4) = pcbAt g i ∧ pcbAt g i ∉ ws

/-- A queue outside the PCBs and apart from the ready queue. -/
structure Sited (g : Globals) (queue : Nat) : Prop where
  null : 376 ≤ g.pcb
  outside : ∀ a, InPcb g a → a ≠ queue ∧ a ≠ queue + 4
  global : ∀ a, InPcb g a → a ≠ g.readyQueue ∧ a ≠ g.readyQueue + 4
  apart : queue + 8 ≤ g.readyQueue ∨ g.readyQueue + 8 ≤ queue

theorem queueDequeue_fst {queue temp : Nat} (filled : M queue = temp) (some : temp ≠ 0) :
    (queueDequeue queue M).1 = temp := by
  unfold queueDequeue
  rw [if_neg (by rw [filled]; exact some)]
  exact filled

/-- The memory between the dequeue and the push. -/
def marked (queue temp : Nat) (M : Memory) : Memory :=
  ((queueDequeue queue M).2.store (temp + 336) taskReady).store (temp + 352) 0

theorem unblockHead_eq {queue temp : Nat} (filled : M queue = temp) (some : temp ≠ 0) :
    unblockHead g queue M = queuePush g.readyQueue temp (marked queue temp M) := by
  have first := queueDequeue_fst filled some
  simp only [unblockHead, first]
  rfl

/-- A word that is neither a link nor a field of the first process `temp`, and no
`prev` of the second. -/
def Clear (temp second a : Nat) : Prop :=
  (∀ off ∈ [320, 324, 336, 352], a ≠ temp + off) ∧ (a ≠ second + 320 ∨ second = 0)

theorem marked_frame {queue temp second : Nat} (filled : M queue = temp) (some : temp ≠ 0)
    (follows : M (temp + 324) = second) (head : a ≠ queue) (tail : a ≠ queue + 4)
    (clear : Clear temp second a) : marked queue temp M a = M a := by
  obtain ⟨own, next⟩ := clear
  rw [marked, store_other (own 352 (by simp)), store_other (own 336 (by simp))]
  exact queueDequeue_frame filled some head tail (own 320 (by simp)) (own 324 (by simp))
    (follows.symm ▸ next)

/-- One process moves from the queue to the ready queue. -/
theorem unblockHead_spec {queue w : Nat} (sited : Sited g queue)
    (waiting : Waiting g queue M (w :: ws)) :
    Waiting g queue (unblockHead g queue M) ws ∧
    ∀ a, ¬ InPcb g a → a ≠ queue → a ≠ queue + 4 → a ≠ g.readyQueue → a ≠ g.readyQueue + 4 →
      unblockHead g queue M a = M a := by
  obtain ⟨i, rfl⟩ := waiting.pcbs w (by simp)
  have absent : pcbAt g i ∉ ws := (List.nodup_cons.mp waiting.nodup).1
  have filled : M queue = pcbAt g i := waiting.head
  have some : pcbAt g i ≠ 0 := by
    have := sited.null
    simp only [pcbAt]
    omega
  have follows : M (pcbAt g i + 324) = ws.headD 0 := waiting.next.1
  have second : ws.headD 0 = 0 ∨ ∃ j, ws.headD 0 = pcbAt g j := by
    cases ws with
    | nil => exact Or.inl rfl
    | cons x ws => exact Or.inr (waiting.pcbs x (by simp))
  have small : ∀ off ∈ [320, 324, 336, 352], off < 376 := by simp
  have place := sited.apart
  -- words outside the PCBs are none of those written inside them
  have clear : ∀ a, ¬ InPcb g a → Clear (pcbAt g i) (ws.headD 0) a := by
    intro a outside
    refine ⟨fun off member same => outside (same ▸ pcbAt_inPcb off (small off member)), ?_⟩
    rcases second with none | ⟨j, next⟩
    · exact Or.inr none
    · exact Or.inl fun same => outside (same ▸ next ▸ pcbAt_inPcb 320 (by simp))
  have readyHead : marked queue (pcbAt g i) M g.readyQueue = M g.readyQueue :=
    marked_frame filled some follows (by omega) (by omega)
      (clear _ fun inside => (sited.global _ inside).1 rfl)
  have readyTail : marked queue (pcbAt g i) M (g.readyQueue + 4) = M (g.readyQueue + 4) :=
    marked_frame filled some follows (by omega) (by omega)
      (clear _ fun inside => (sited.global _ inside).2 rfl)
  have lasts : marked queue (pcbAt g i) M g.readyQueue ≠ 0 → ∃ j, pcbAt g j ∉ pcbAt g i :: ws ∧
      marked queue (pcbAt g i) M (g.readyQueue + 4) = pcbAt g j := by
    rw [readyHead, readyTail]
    intro full
    rcases waiting.ready with empty | ⟨_, j, last, free⟩
    · exact absurd empty full
    · exact ⟨j, free, last⟩
  rw [unblockHead_eq filled some]
  -- pushing on the ready queue writes there and in PCBs
  have push : ∀ a, ¬ InPcb g a → a ≠ g.readyQueue → a ≠ g.readyQueue + 4 →
      queuePush g.readyQueue (pcbAt g i) (marked queue (pcbAt g i) M) a =
        marked queue (pcbAt g i) M a := by
    intro a outside head tail
    refine queuePush_frame head tail ((clear a outside).1 320 (by simp))
      ((clear a outside).1 324 (by simp)) fun full same => ?_
    obtain ⟨j, _, last⟩ := lasts full
    rw [last] at same
    exact outside (same ▸ pcbAt_inPcb 324 (by simp))
  have queueOut : ¬ InPcb g queue := fun inside => (sited.outside queue inside).1 rfl
  have readyOut : ¬ InPcb g g.readyQueue := fun inside => (sited.global _ inside).1 rfl
  have readyOut' : ¬ InPcb g (g.readyQueue + 4) := fun inside => (sited.global _ inside).2 rfl
  refine ⟨⟨?_, ?_, fun x member => waiting.pcbs x (by simp [member]),
    (List.nodup_cons.mp waiting.nodup).2, Or.inr ⟨?_, i, ?_, absent⟩⟩, ?_⟩
  · have own := (clear queue queueOut).1
    rw [push queue queueOut (by omega) (by omega), marked, store_other (own 352 (by simp)),
      store_other (own 336 (by simp)), ← follows]
    exact queueDequeue_head filled some ⟨own 320 (by simp), own 324 (by simp)⟩
      (follows.symm ▸ (clear queue queueOut).2)
  · refine waiting.next.2.congr fun x member => ?_
    obtain ⟨k, rfl⟩ := waiting.pcbs x (by simp [member])
    have other : pcbAt g k ≠ pcbAt g i := fun same => absent (same ▸ member)
    have inside : InPcb g (pcbAt g k + 324) := pcbAt_inPcb 324 (by simp)
    have own : ∀ off ∈ [320, 324, 336, 352], pcbAt g k + 324 ≠ pcbAt g i + off :=
      fun off range => pcbAt_ne 324 off (by simp) (small off range) (Or.inr other)
    rw [queuePush_frame (sited.global _ inside).1 (sited.global _ inside).2 (own 320 (by simp))
      (own 324 (by simp))]
    · refine marked_frame filled some follows (sited.outside _ inside).1 (sited.outside _ inside).2
        ⟨own, ?_⟩
      rcases second with none | ⟨j, next⟩
      · exact Or.inr none
      · rw [next]
        exact Or.inl (pcbAt_ne 324 320 (by simp) (by simp) (Or.inl (by simp)))
    · intro full
      obtain ⟨j, free, last⟩ := lasts full
      rw [last]
      refine pcbAt_ne 324 324 (by simp) (by simp) (Or.inr fun equal => free ?_)
      simp [← equal, member]
  · rw [queuePush_head ((clear _ readyOut).1 320 (by simp)) ((clear _ readyOut).1 324 (by simp)),
      readyHead]
    · rcases waiting.ready with empty | ⟨⟨j, head⟩, _⟩
      · exact ⟨i, if_pos empty⟩
      · by_cases empty : M g.readyQueue = 0
        · exact ⟨i, if_pos empty⟩
        · exact ⟨j, by rw [if_neg empty, head]⟩
    · intro full same
      obtain ⟨j, _, last⟩ := lasts full
      rw [last] at same
      exact readyOut (same ▸ pcbAt_inPcb 324 (by simp))
  · exact queuePush_tail ⟨(clear _ readyOut').1 320 (by simp), (clear _ readyOut').1 324 (by simp)⟩
  · intro a outside head tail readyHead readyTail
    rw [push a outside readyHead readyTail]
    exact marked_frame filled some follows head tail (clear a outside)

theorem doUnblockAll_frame {queue : Nat} (sited : Sited g queue) (waiting : Waiting g queue M ws)
    (enough : ws.length < fuel) : ∃ N, doUnblockAll fuel g queue M = some N ∧
    ∀ a, ¬ InPcb g a → a ≠ queue → a ≠ queue + 4 → a ≠ g.readyQueue → a ≠ g.readyQueue + 4 →
      N a = M a := by
  induction ws generalizing M fuel with
  | nil =>
    obtain ⟨fuel, rfl⟩ := Nat.exists_eq_succ_of_ne_zero (Nat.ne_of_gt enough)
    refine ⟨M, ?_, fun _ _ _ _ _ _ => rfl⟩
    have empty : M queue = 0 := waiting.head
    rw [doUnblockAll, if_pos empty]
  | cons w ws ih =>
    obtain ⟨fuel, rfl⟩ := Nat.exists_eq_succ_of_ne_zero (Nat.ne_of_gt (Nat.zero_lt_of_lt enough))
    obtain ⟨next, first⟩ := unblockHead_spec sited waiting
    obtain ⟨N, result, rest⟩ := ih next (Nat.lt_of_succ_lt_succ enough)
    have filled : M queue ≠ 0 := by
      obtain ⟨i, rfl⟩ := waiting.pcbs w (by simp)
      have := sited.null
      have := waiting.head
      simp only [pcbAt, List.headD_cons] at this
      omega
    refine ⟨N, by rw [doUnblockAll, if_neg filled, result], fun a outside h₁ h₂ h₃ h₄ => ?_⟩
    rw [rest a outside h₁ h₂ h₃ h₄, first a outside h₁ h₂ h₃ h₄]

/-- A sequence of stores. -/
def writeAll : List (Nat × Nat) → Memory → Memory
  | [], M => M
  | w :: writes, M => writeAll writes (M.store w.1 w.2)

theorem writeAll_other {writes : List (Nat × Nat)} (other : ∀ w ∈ writes, a ≠ w.1) :
    writeAll writes M a = M a := by
  induction writes generalizing M with
  | nil => rfl
  | cons w writes ih =>
    rw [writeAll, ih fun x member => other x (by simp [member]), store_other (other w (by simp))]

theorem writeAll_snoc {writes : List (Nat × Nat)} :
    writeAll (writes ++ [(a, v)]) M = (writeAll writes M).store a v := by
  induction writes generalizing M with
  | nil => rfl
  | cons w writes ih => exact ih

/-- Stores, of which only those inside `P` may hit the same word, leave the words outside
alone just when each of them does. -/
theorem writeAll_harmless {writes : List (Nat × Nat)} {P : Nat → Prop}
    (distinct : writes.Pairwise fun w x => w.1 = x.1 → P w.1) :
    (∀ a, ¬ P a → writeAll writes M a = M a) ↔ ∀ w ∈ writes, P w.1 ∨ M w.1 = w.2 := by
  induction writes generalizing M with
  | nil => simp [writeAll]
  | cons w writes ih =>
    obtain ⟨apart, distinct⟩ := List.pairwise_cons.mp distinct
    have rest : (∀ x ∈ writes, P x.1 ∨ M.store w.1 w.2 x.1 = x.2) ↔
        ∀ x ∈ writes, P x.1 ∨ M x.1 = x.2 := by
      refine forall₂_congr fun x member => ?_
      by_cases same : x.1 = w.1
      · simp [same, apart x member same.symm]
      · rw [store_other same]
    rw [List.forall_mem_cons, ← rest, ← ih distinct]
    constructor
    · intro kept
      have last : ¬ P w.1 → writeAll writes (M.store w.1 w.2) w.1 = w.2 := by
        intro outside
        rw [writeAll_other fun x member same => outside (apart x member same), store_same]
      refine ⟨?_, fun a outside => ?_⟩
      · by_cases inside : P w.1
        · exact Or.inl inside
        · exact Or.inr ((kept _ inside).symm.trans (last inside))
      · by_cases same : a = w.1
        · subst a
          rw [store_same]
          exact last outside
        · rw [store_other same]
          exact kept a outside
    · rintro ⟨here, later⟩ a outside
      rw [writeAll, later a outside, store_apply]
      split
      next same =>
        subst a
        rcases here with inside | same
        · exact absurd inside outside
        · exact same.symm
      next => rfl

/-- The words by which the queues of processes are found. -/
def Found (g : Globals) (queue : Nat) (M : Memory) (ws : List Nat) (a : Nat) : Prop :=
  a = queue ∨ (∃ w ∈ ws, a = w + 324) ∨ a = g.readyQueue ∨
    M g.readyQueue ≠ 0 ∧ a = g.readyQueue + 4

theorem Waiting.congr {queue : Nat} (waiting : Waiting g queue M ws)
    (same : ∀ a, Found g queue M ws a → N a = M a) : Waiting g queue N ws where
  head := (same queue (Or.inl rfl)).trans waiting.head
  next := waiting.next.congr fun w member => same _ (Or.inr (Or.inl ⟨w, member, rfl⟩))
  pcbs := waiting.pcbs
  nodup := waiting.nodup
  ready := by
    rw [same g.readyQueue (Or.inr (Or.inr (Or.inl rfl)))]
    rcases waiting.ready with empty | ⟨head, last⟩
    · exact Or.inl empty
    · by_cases empty : M g.readyQueue = 0
      · exact Or.inl empty
      · rw [same (g.readyQueue + 4) (Or.inr (Or.inr (Or.inr ⟨empty, rfl⟩)))]
        exact Or.inr ⟨head, last⟩

theorem Next.value {w : Nat} (next : Next M ws) (member : w ∈ ws) :
    M (w + 324) = 0 ∨ M (w + 324) ∈ ws := by
  induction ws with
  | nil => simp at member
  | cons x ws ih =>
    rcases List.mem_cons.mp member with rfl | later
    · have here : M (w + 324) = ws.headD 0 := next.1
      rw [here]
      cases ws <;> simp
    · rcases ih next.2 later with zero | inside
      · exact Or.inl zero
      · exact Or.inr (List.mem_cons_of_mem _ inside)

/-- They hold NULL or the address of a process, never that of a mutex. -/
theorem Waiting.value {queue : Nat} (waiting : Waiting g queue M ws)
    (found : Found g queue M ws a) : M a = 0 ∨ ∃ i, M a = pcbAt g i := by
  rcases found with rfl | ⟨w, member, rfl⟩ | rfl | ⟨full, rfl⟩
  · rw [waiting.head]
    cases ws with
    | nil => exact Or.inl rfl
    | cons w ws => exact Or.inr (waiting.pcbs w (by simp))
  · rcases waiting.next.value member with zero | inside
    · exact Or.inl zero
    · exact Or.inr (waiting.pcbs _ inside)
  · rcases waiting.ready with empty | ⟨head, _⟩
    · exact Or.inl empty
    · exact Or.inr head
  · rcases waiting.ready with empty | ⟨_, j, last, _⟩
    · exact absurd empty full
    · exact Or.inr ⟨j, last⟩

/-- `prev` and `next` of the mutexes on a holding queue, the first of which has
`before` before it. -/
def Linked (M : Memory) (before : Nat) : List Nat → Prop
  | [] => True
  | m :: ms => M (m + offPrev) = before ∧ M (m + offNext) = ms.headD 0 ∧ Linked M m ms

theorem Linked.split {before m : Nat} (pre : List Nat) {post : List Nat}
    (linked : Linked M before (pre ++ m :: post)) :
    M (m + 320) = pre.getLastD before ∧ M (m + 324) = post.headD 0 := by
  induction pre generalizing before with
  | nil => exact ⟨linked.1, linked.2.1⟩
  | cons x pre ih =>
    have rest := ih linked.2.2
    cases pre <;> exact rest

/-- The mutexes held, in the order they were taken. -/
structure Held (queue : Nat) (M : Memory) (held : List Nat) : Prop where
  head : M queue = held.headD 0
  tail : M (queue + 4) = held.getLastD 0
  linked : Linked M 0 held
  nodup : held.Nodup

/-- The search runs along the list of mutexes that are left. -/
theorem hasFrom_member {queue : Nat} {before m : Nat} {rest : List Nat}
    (linked : Linked M before (m :: rest)) (tail : M (queue + 4) = (m :: rest).getLastD 0)
    (nodup : (m :: rest).Nodup) (null : ∀ x ∈ m :: rest, x ≠ 0) (member : lock ∈ m :: rest)
    (enough : rest.length < fuel) : hasFrom fuel queue lock m M = some true := by
  induction rest generalizing m before fuel with
  | nil =>
    obtain ⟨fuel, rfl⟩ := Nat.exists_eq_succ_of_ne_zero (Nat.ne_of_gt enough)
    obtain rfl : lock = m := by simpa using member
    have last : lock = M (queue + 4) := tail.symm
    rw [hasFrom, offTail_eq, if_pos last]
    simp
  | cons n rest ih =>
    obtain ⟨fuel, rfl⟩ := Nat.exists_eq_succ_of_ne_zero (Nat.ne_of_gt (Nat.zero_lt_of_lt enough))
    have later : (m :: n :: rest).getLastD 0 ∈ n :: rest := by
      rw [List.getLastD_cons, List.getLastD_cons]
      exact List.getLastD_mem_cons
    have unfinished : m ≠ M (queue + 4) := by
      rw [tail]
      exact fun same => (List.nodup_cons.mp nodup).1 (same ▸ later)
    rw [hasFrom, offTail_eq, if_neg unfinished, if_neg (null m (by simp))]
    by_cases here : m = lock
    · rw [if_pos here]
    · have follows : M (m + 324) = n := linked.2.1
      rw [if_neg here, offNext_eq, follows]
      refine ih linked.2.2 (by rw [tail]; simp) (List.nodup_cons.mp nodup).2
        (fun x inside => null x (by simp [inside])) ?_ (Nat.lt_of_succ_lt_succ enough)
      rcases List.mem_cons.mp member with same | inside
      · exact absurd same.symm here
      · exact inside

theorem queueHas_member {queue : Nat} (stored : Held queue M held) (null : ∀ x ∈ held, x ≠ 0)
    (member : lock ∈ held) (enough : held.length ≤ fuel) :
    queueHas fuel queue lock M = some true := by
  cases held with
  | nil => simp at member
  | cons m rest =>
    rw [queueHas, stored.head]
    exact hasFrom_member stored.linked stored.tail stored.nodup null member enough

/-- The kernel's memory between two operations, as seen from process `i` and one mutex:
`held` are the mutexes on the process' holding queue and `ws` the processes on the
mutex' block queue. No object lies at NULL, and no two share a word. -/
structure Formed (g : Globals) (i : Slot) (lock : Nat) (held ws : List Nat) (M : Memory) :
    Prop where
  null : sizeofPcb ≤ g.pcb ∧ sizeofPcb ≤ g.readyQueue ∧ ∀ m ∈ lock :: held, sizeofPcb ≤ m
  outside : ∀ m ∈ lock :: held, m + sizeofMutex ≤ g.pcb ∨ g.pcb + numMaxTask * sizeofPcb ≤ m
  apart : ∀ m ∈ held, m ≠ lock → m + sizeofMutex ≤ lock ∨ lock + sizeofMutex ≤ m
  global : g.readyQueue + 8 ≤ g.pcb ∨ g.pcb + numMaxTask * sizeofPcb ≤ g.readyQueue
  other : g.readyQueue + 8 ≤ lock ∨ lock + sizeofMutex ≤ g.readyQueue
  holding : Held (pcbAt g i + offHolding) M held
  waiting : Waiting g (lock + offBlockQueue) M ws
  first : M (g.pcb + offNext) = 0 ∨ ∃ j, M (g.pcb + offNext) = pcbAt g j

/-- The words that an operation on the mutex may change. -/
def Own (g : Globals) (lock : Nat) (held : List Nat) (a : Nat) : Prop :=
  InPcb g a ∨ InMutex lock a ∨ (∃ m ∈ held, InMutex m a) ∨
    a = g.readyQueue ∨ a = g.readyQueue + offTail

section
variable (formed : Formed g i lock held ws M) {m p n : Nat} {pre post : List Nat}
include formed

theorem Formed.sited : Sited g (lock + 4) := by
  have null := formed.null.1
  have global := formed.global
  have other := formed.other
  have here := formed.outside lock (by simp)
  simp only [sizeofPcb_eq, sizeofMutex_eq, numMaxTask] at *
  refine ⟨null, fun a inside => ?_, fun a inside => ?_, by omega⟩
  · simp only [InPcb, sizeofPcb_eq, numMaxTask] at inside
    omega
  · simp only [InPcb, sizeofPcb_eq, numMaxTask] at inside
    omega

/-- A mutex and its link words, next to the fields of a process. -/
theorem Formed.mutex (member : m ∈ lock :: held) :
    376 ≤ m ∧ ∀ (j : Slot) (off : Nat), off < 376 → m ≠ pcbAt g j + off ∧
      (304 < off → m + 320 ≠ pcbAt g j + off ∧ m + 324 ≠ pcbAt g j + off) := by
  have null := formed.null.2.2 m member
  have outside := formed.outside m member
  simp only [sizeofPcb_eq, sizeofMutex_eq, numMaxTask] at null outside
  refine ⟨null, fun j off small => ?_⟩
  have := j.isLt
  simp only [pcbAt, sizeofPcb_eq, numMaxTask] at *
  omega

/-- A word that holds the address of a mutex is not one of those by which the queues of
processes are found. -/
theorem Formed.lost (member : M a ∈ lock :: held) : ¬ Found g (lock + 4) M ws a := by
  intro found
  obtain ⟨null, outside⟩ := formed.mutex member
  rcases formed.waiting.value found with zero | ⟨j, same⟩
  · omega
  · exact (outside j 0 (by omega)).1 same

/-- Nor is a word of a PCB other than `next`. -/
theorem Formed.lost_pcb (j : Slot) {off : Nat} (small : off < 376) (other : off ≠ 324) :
    ¬ Found g (lock + 4) M ws (pcbAt g j + off) := by
  have inside : InPcb g (pcbAt g j + off) := pcbAt_inPcb off small
  rintro (same | ⟨w, member, same⟩ | same | ⟨_, same⟩)
  · exact (formed.sited.outside _ inside).1 same
  · obtain ⟨k, rfl⟩ := formed.waiting.pcbs w member
    exact pcbAt_ne off 324 small (by omega) (Or.inl other) same
  · exact (formed.sited.global _ inside).1 same
  · exact (formed.sited.global _ inside).2 same

theorem Formed.lost_status : ¬ Found g (lock + 4) M ws lock := by
  have other := formed.other
  simp only [sizeofMutex_eq] at other
  rintro (same | ⟨w, member, same⟩ | same | ⟨_, same⟩)
  · omega
  · obtain ⟨k, rfl⟩ := formed.waiting.pcbs w member
    exact ((formed.mutex (m := lock) (by simp)).2 k 324 (by omega)).1 same
  · omega
  · omega

theorem Formed.distinct (member : m ∈ held) (other : m ≠ lock) :
    m + 20 ≤ lock ∨ lock + 20 ≤ m := formed.apart m member other

/-- An acquisition, when no mutex is held and when `p` is the last one taken. -/
theorem acquire_first (none : held = []) (free : M lock = unlocked) :
    doMutexLockAcquire (pcbAt g i) lock M = some (writeAll [(pcbAt g i + 356, lock),
      (pcbAt g i + 360, lock), (lock + 324, 0), (lock + 320, 0), (lock, locked)] M) := by
  have head : M (pcbAt g i + 356) = 0 := by
    have := formed.holding.head
    rw [none] at this
    exact this
  have unlocked : M lock ≠ locked := by simp [free, unlocked, locked]
  rw [doMutexLockAcquire, if_neg unlocked, queuePush, offHolding_eq, if_pos head]
  rfl

theorem acquire_next (some : held = pre ++ [p]) (free : M lock = unlocked) :
    doMutexLockAcquire (pcbAt g i) lock M = .some (writeAll [(p + 324, lock), (lock + 324, 0),
      (lock + 320, p), (pcbAt g i + 360, lock), (lock, locked)] M) := by
  have inside : p ∈ lock :: held := by simp [some]
  have tail : M (pcbAt g i + 360) = p := by
    have := formed.holding.tail
    rw [some] at this
    simpa [Nat.add_assoc] using this
  have head : M (pcbAt g i + 356) ≠ 0 := by
    have front := formed.holding.head
    have first : held.headD 0 ∈ lock :: held := by
      rw [some]
      cases pre <;> simp
    have := (formed.mutex first).1
    rw [offHolding_eq] at front
    omega
  have kept : ((M.store (p + 324) lock).store (lock + 324) 0) (pcbAt g i + 360) = p := by
    have late : 304 < 360 := by omega
    rw [store_other (((formed.mutex (m := lock) (by simp)).2 i 360 (by omega)).2 late).2.symm,
      store_other (((formed.mutex inside).2 i 360 (by omega)).2 late).2.symm, tail]
  have unlocked : M lock ≠ locked := by simp [free, unlocked, locked]
  rw [doMutexLockAcquire, if_neg unlocked, queuePush, offHolding_eq, if_neg head]
  simp only [offTail_eq, offNext_eq, offPrev_eq, Nat.add_assoc, Nat.reduceAdd, tail, kept]
  rfl

/-- `queue_remove`, one theorem for each place where the mutex may stand. -/
theorem remove_only (only : held = [lock]) :
    (queueRemove g (pcbAt g i + 356) lock M).2 = writeAll [(pcbAt g i + 356, 0),
      (pcbAt g i + 360, 0), (lock + 320, 0), (lock + 324, 0)] M := by
  have head : M (pcbAt g i + 356) = lock := by
    have := formed.holding.head
    rw [only] at this
    exact this
  have tail : M (pcbAt g i + 360) = lock := by
    have := formed.holding.tail
    rw [only] at this
    simpa [Nat.add_assoc] using this
  simp only [queueRemove, offTail_eq, Nat.add_assoc, Nat.reduceAdd, head, tail, and_self, if_true]
  rfl

theorem remove_front (front : held = lock :: n :: post) :
    (queueRemove g (pcbAt g i + 356) lock M).2 = writeAll [(pcbAt g i + 356, n),
      (n + 320, 0), (lock + 320, 0), (lock + 324, 0)] M := by
  have head : M (pcbAt g i + 356) = lock := by
    have := formed.holding.head
    rw [front] at this
    exact this
  have tail : M (pcbAt g i + 360) ≠ lock := by
    have last := formed.holding.tail
    have distinct := formed.holding.nodup
    rw [front] at last distinct
    rw [List.getLastD_cons, List.getLastD_cons] at last
    simp only [offHolding_eq, Nat.add_assoc, Nat.reduceAdd] at last
    rw [last]
    exact fun same => (List.nodup_cons.mp distinct).1 (same ▸ List.getLastD_mem_cons)
  have next : M (lock + 324) = n := by
    have linked := formed.holding.linked
    rw [front] at linked
    exact (linked.split []).2
  simp only [queueRemove, offTail_eq, offNext_eq, offPrev_eq, Nat.add_assoc, Nat.reduceAdd, head,
    Ne.symm tail, and_false, if_true, if_false, next, store_same]
  rfl

/-- The mutex is not the first one when another stands before it. -/
theorem Formed.behind (place : held = pre ++ p :: lock :: post) :
    M (pcbAt g i + 356) ≠ lock ∧ p ≠ lock ∧ M (lock + 320) = p ∧ M (p + 324) = lock := by
  have head := formed.holding.head
  have distinct := formed.holding.nodup
  have linked := formed.holding.linked
  rw [place] at head distinct linked
  have apart := List.nodup_append.mp distinct
  have other : p ≠ lock := fun same => (List.nodup_cons.mp apart.2.1).1 (by simp [same])
  refine ⟨?_, other, ?_, (linked.split _).2⟩
  · rw [offHolding_eq] at head
    rw [head]
    cases pre with
    | nil => exact other
    | cons x pre => exact apart.2.2 x (by simp) lock (by simp)
  · have shape : pre ++ p :: lock :: post = (pre ++ [p]) ++ lock :: post := by simp
    rw [shape] at linked
    simpa using (linked.split _).1

theorem remove_back (back : held = pre ++ [p, lock]) :
    (queueRemove g (pcbAt g i + 356) lock M).2 = writeAll [(pcbAt g i + 360, p),
      (p + 324, 0), (lock + 320, 0), (lock + 324, 0)] M := by
  obtain ⟨head, _, before, _⟩ := formed.behind back
  have tail : M (pcbAt g i + 360) = lock := by
    have := formed.holding.tail
    rw [back] at this
    simpa [Nat.add_assoc] using this
  simp only [queueRemove, offTail_eq, offNext_eq, offPrev_eq, Nat.add_assoc, Nat.reduceAdd, tail,
    Ne.symm head, false_and, if_true, if_false, before, store_same]
  rfl

theorem remove_middle (middle : held = pre ++ p :: lock :: n :: post) :
    (queueRemove g (pcbAt g i + 356) lock M).2 = writeAll [(p + 324, n),
      (M (g.pcb + 324) + 320, p), (lock + 320, 0), (lock + 324, 0)] M := by
  obtain ⟨head, other, before, _⟩ := formed.behind middle
  have inside : p ∈ held := by simp [middle]
  have apart := formed.distinct inside other
  have tail : M (pcbAt g i + 360) ≠ lock := by
    have last := formed.holding.tail
    have distinct := formed.holding.nodup
    rw [middle] at last distinct
    have later := (List.nodup_cons.mp (List.nodup_append.mp distinct).2.1).2
    simp only [offHolding_eq, Nat.add_assoc, Nat.reduceAdd] at last
    rw [last]
    have shape : (pre ++ p :: lock :: n :: post).getLastD 0 = post.getLastD n := by
      cases post <;> simp [List.getLast?_cons]
    rw [shape]
    exact fun same => (List.nodup_cons.mp later).1 (same ▸ List.getLastD_mem_cons)
  have next : M (lock + 324) = n := by
    have linked := formed.holding.linked
    have shape : pre ++ p :: lock :: n :: post = (pre ++ [p]) ++ lock :: n :: post := by simp
    rw [middle, shape] at linked
    exact (linked.split _).2
  have first : M.store (p + 324) n (g.pcb + 324) = M (g.pcb + 324) := by
    refine store_other fun same => ?_
    have place : p + 324 = pcbAt g 0 + 324 := by simpa [pcbAt] using same.symm
    exact (((formed.mutex (List.mem_cons_of_mem _ inside)).2 0 324 (by omega)).2 (by omega)).2 place
  have kept : M.store (p + 324) n (lock + 320) = p := by
    rw [store_other (by omega), before]
  simp only [queueRemove, offTail_eq, offNext_eq, offPrev_eq, Nat.add_assoc, Nat.reduceAdd,
    Ne.symm tail, Ne.symm head, and_false, if_false, next, before, first, kept]
  rfl

/-- A release that finds the mutex writes these words and then wakes the waiters. -/
theorem release_writes {writes : List (Nat × Nat)} (member : lock ∈ held)
    (enough : held.length + ws.length < fuel)
    (removed : (queueRemove g (pcbAt g i + 356) lock M).2 = writeAll writes M)
    (distinct : writes.Pairwise fun w x => w.1 ≠ x.1)
    (clear : ∀ w ∈ writes, ¬ Found g (lock + 4) M ws w.1 ∨ M w.1 = w.2) :
    ∃ N, doMutexLockRelease fuel g (pcbAt g i) lock M = some N ∧
      ((∀ a, ¬ Own g lock held a → N a = M a) ↔
        ∀ w ∈ writes, Own g lock held w.1 ∨ M w.1 = w.2) := by
  have has : queueHas fuel (pcbAt g i + 356) lock M = some true :=
    queueHas_member formed.holding
      (fun x inside => by have := (formed.mutex (List.mem_cons_of_mem _ inside)).1; omega)
      member (by omega)
  have all : ∀ w ∈ writes ++ [(lock, unlocked)], ¬ Found g (lock + 4) M ws w.1 ∨ M w.1 = w.2 := by
    intro w inside
    rcases List.mem_append.mp inside with early | late
    · exact clear w early
    · rw [List.mem_singleton.mp late]
      exact Or.inl formed.lost_status
  have pairs : ∀ P : Nat → Prop, P lock →
      (writes ++ [(lock, unlocked)]).Pairwise fun w x => w.1 = x.1 → P w.1 := by
    intro P inside
    refine List.pairwise_append.mpr ⟨distinct.imp fun other same => absurd same other,
      List.pairwise_singleton .., fun w _ x last same => ?_⟩
    rw [same, List.mem_singleton.mp last]
    exact inside
  have kept := (writeAll_harmless (P := fun a => ¬ Found g (lock + 4) M ws a)
    (pairs (fun a => ¬ Found g (lock + 4) M ws a) formed.lost_status)).mpr all
  have waiting : Waiting g (lock + 4) (writeAll (writes ++ [(lock, unlocked)]) M) ws :=
    formed.waiting.congr fun a found => kept a (not_not.mpr found)
  have waiters : ws.length < fuel := by omega
  obtain ⟨N, result, rest⟩ := doUnblockAll_frame formed.sited waiting waiters
  refine ⟨N, ?_, ?_⟩
  · simp only [doMutexLockRelease, offHolding_eq, has, Option.bind_eq_bind, Option.bind_some,
      if_true, removed, ← writeAll_snoc]
    exact result
  · have record : ∀ off < 20, Own g lock held (lock + off) :=
      fun off small => Or.inr (Or.inl ⟨by omega, by simp only [sizeofMutex_eq]; omega⟩)
    have same : ∀ a, ¬ Own g lock held a → N a = writeAll (writes ++ [(lock, unlocked)]) M a := by
      intro a outside
      refine rest a (fun inside => outside (Or.inl inside)) ?_ ?_ ?_ ?_
      · exact fun equal => outside (equal ▸ record 4 (by omega))
      · exact fun equal => outside (equal ▸ record 8 (by omega))
      · exact fun equal => outside (Or.inr (Or.inr (Or.inr (Or.inl equal))))
      · exact fun equal => outside (Or.inr (Or.inr (Or.inr (Or.inr equal))))
    have status : Own g lock held lock := record 0 (by omega)
    rw [forall₂_congr fun a outside => by rw [same a outside], writeAll_harmless (pairs _ status)]
    simp only [List.forall_mem_append, List.forall_mem_singleton, status, true_or, and_true]

end

inductive Operation where
  | acquire | release
  deriving DecidableEq, Repr

namespace Operation

def perform (fuel : Nat) (g : Globals) (current lock : Nat) (M : Memory) :
    Operation → Option Memory
  | .acquire => doMutexLockAcquire current lock M
  | .release => doMutexLockRelease fuel g current lock M

/-- An unlocked mutex is acquired, and one that is held is released. -/
def Applies (lock : Nat) (held : List Nat) (M : Memory) : Operation → Prop
  | .acquire => M lock = unlocked ∧ lock ∉ held
  | .release => lock ∈ held

/-- What a link of the mutex or of its neighbours on the holding queue is written to is
one of the words that may change, or already has the value; a neighbour's link always
changes. From the middle of the queue, `pcb[0].next` may be NULL. -/
def Harmless (g : Globals) (lock : Nat) (held : List Nat) (M : Memory) : Operation → Prop
  | .acquire =>
    (Own g lock held (lock + offPrev) ∨ M (lock + offPrev) = held.getLastD 0) ∧
    (Own g lock held (lock + offNext) ∨ M (lock + offNext) = 0) ∧
    ∀ p, held.getLast? = some p → Own g lock held (p + offNext)
  | .release => ∀ pre post, held = pre ++ lock :: post →
    (∀ p, pre.getLast? = some p →
      Own g lock held (p + offNext) ∧ Own g lock held (lock + offPrev)) ∧
    (∀ n, post.head? = some n → Own g lock held (lock + offNext) ∧
      (pre = [] → Own g lock held (n + offPrev))) ∧
    ∀ p n, pre.getLast? = some p → post.head? = some n → M (g.pcb + offNext) = 0 → M offPrev = p

end Operation

theorem own_queue (off : Nat) (small : off < 376) : Own g lock held (pcbAt g i + off) :=
  Or.inl (pcbAt_inPcb off small)

theorem own_status : Own g lock held lock :=
  Or.inr (Or.inl ⟨Nat.le_refl _, by simp [sizeofMutex_eq]⟩)

section
variable (formed : Formed g i lock held ws M) {m p n : Nat} {pre post : List Nat}
include formed

theorem acquire_frame (free : M lock = unlocked) (fresh : lock ∉ held) :
    ∃ N, doMutexLockAcquire (pcbAt g i) lock M = some N ∧
      ((∀ a, ¬ Own g lock held a → N a = M a) ↔ Operation.acquire.Harmless g lock held M) := by
  have null := (formed.mutex (m := lock) (by simp)).1
  have queue : Own g lock held (pcbAt g i + 356) := own_queue 356 (by omega)
  have queueTail : Own g lock held (pcbAt g i + 360) := own_queue 360 (by omega)
  have status : Own g lock held lock := own_status
  rcases List.eq_nil_or_concat held with none | ⟨pre, p, some⟩
  · refine ⟨_, acquire_first formed none free, ?_⟩
    rw [writeAll_harmless]
    · simp only [List.forall_mem_cons, queue, queueTail, status, true_or, true_and]
      subst held
      simp [Operation.Harmless, and_comm]
    · simp [queue, queueTail]
  · rw [List.concat_eq_append] at some
    have inside : p ∈ held := by simp [some]
    have other : p ≠ lock := fun same => fresh (same ▸ inside)
    have apart := formed.distinct inside other
    have last : M (p + 324) = 0 := by
      have linked := formed.holding.linked
      rw [some] at linked
      exact (linked.split _).2
    refine ⟨_, acquire_next formed some free, ?_⟩
    rw [writeAll_harmless]
    · have changes : M (p + 324) ≠ lock := by omega
      have tailOf : held.getLastD 0 = p ∧ held.getLast? = .some p := by simp [some]
      simp only [Operation.Harmless, tailOf, List.forall_mem_cons, queueTail, status, changes]
      simp only [or_false, true_or, List.not_mem_nil, IsEmpty.forall_iff, implies_true, and_self,
        and_true, offPrev_eq, offNext_eq, Option.some.injEq, forall_eq']
      constructor
      · exact fun ⟨link, back, next⟩ => ⟨next, back, link⟩
      · exact fun ⟨next, back, link⟩ => ⟨link, back, next⟩
    · have next : p + 324 ≠ lock + 324 ∧ p + 324 ≠ lock + 320 := by omega
      have link : lock + 324 ≠ lock + 320 := by omega
      simp only [List.pairwise_cons, List.forall_mem_cons, next, link, queueTail, List.not_mem_nil,
        false_implies, implies_true, List.Pairwise.nil, and_true, true_and]
      exact ⟨⟨fun same => same ▸ queueTail, fun same => same ▸ status⟩,
        ⟨fun same => same ▸ queueTail, fun same => absurd same (by omega)⟩,
        fun same => same ▸ queueTail, fun same => absurd same (by omega)⟩

/-- A mutex stands on the queue only once. -/
theorem harmless_release (pre post : List Nat) (place : held = pre ++ lock :: post) :
    Operation.release.Harmless g lock held M ↔
      (∀ p, pre.getLast? = some p → Own g lock held (p + 324) ∧ Own g lock held (lock + 320)) ∧
      (∀ n, post.head? = some n → Own g lock held (lock + 324) ∧
        (pre = [] → Own g lock held (n + 320))) ∧
      ∀ p n, pre.getLast? = some p → post.head? = some n → M (g.pcb + 324) = 0 → M 320 = p := by
  have distinct := formed.holding.nodup
  rw [place, List.nodup_append] at distinct
  have before : lock ∉ pre := fun inside => distinct.2.2 lock inside lock (by simp) rfl
  have after : lock ∉ post := (List.nodup_cons.mp distinct.2.1).1
  constructor
  · intro harmless
    exact harmless pre post place
  · intro harmless pre' post' place'
    obtain ⟨rfl, _, rfl⟩ := (List.append_cons_inj_of_notMem before after).mp
      (place.symm.trans place')
    exact harmless

theorem release_only (place : held = [lock]) (enough : held.length + ws.length < fuel) :
    ∃ N, doMutexLockRelease fuel g (pcbAt g i) lock M = some N ∧
      ((∀ a, ¬ Own g lock held a → N a = M a) ↔ Operation.release.Harmless g lock held M) := by
  have mutex := (formed.mutex (m := lock) (by simp)).2 i
  have head := (mutex 356 (by omega)).2 (by omega)
  have tail := (mutex 360 (by omega)).2 (by omega)
  have linked := formed.holding.linked
  rw [place] at linked
  have links : M (lock + 320) = 0 ∧ M (lock + 324) = 0 := linked.split []
  have apart : [(pcbAt g i + 356, 0), (pcbAt g i + 360, 0), (lock + 320, 0),
      (lock + 324, 0)].Pairwise fun w x => w.1 ≠ x.1 := by
    simp only [List.pairwise_cons, List.forall_mem_cons, List.not_mem_nil, false_implies,
      implies_true, List.Pairwise.nil, and_true]
    omega
  have clear : ∀ w ∈ [(pcbAt g i + 356, 0), (pcbAt g i + 360, 0), (lock + 320, 0),
      (lock + 324, 0)], ¬ Found g (lock + 4) M ws w.1 ∨ M w.1 = w.2 := by
    simp only [List.forall_mem_cons, List.not_mem_nil, false_implies, implies_true, and_true]
    exact ⟨Or.inl (formed.lost_pcb i (by omega) (by omega)),
      Or.inl (formed.lost_pcb i (by omega) (by omega)), Or.inr links.1, Or.inr links.2⟩
  obtain ⟨N, result, frame⟩ := release_writes formed (by simp [place]) enough
    (remove_only formed place) apart clear
  refine ⟨N, result, frame.trans ?_⟩
  rw [harmless_release formed [] [] place]
  simp [links, own_queue]

theorem release_front (place : held = lock :: n :: post) (enough : held.length + ws.length < fuel) :
    ∃ N, doMutexLockRelease fuel g (pcbAt g i) lock M = some N ∧
      ((∀ a, ¬ Own g lock held a → N a = M a) ↔ Operation.release.Harmless g lock held M) := by
  have inside : n ∈ held := by simp [place]
  have distinct := formed.holding.nodup
  have linked := formed.holding.linked
  rw [place] at linked distinct
  have other : n ≠ lock := fun same => (List.nodup_cons.mp distinct).1 (by simp [same])
  have between := formed.distinct inside other
  have mutex := formed.mutex (m := lock) (by simp)
  have mutex' := formed.mutex (List.mem_cons_of_mem lock inside)
  have head := (mutex.2 i 356 (by omega)).2 (by omega)
  have head' := (mutex'.2 i 356 (by omega)).2 (by omega)
  have links : M (lock + 320) = 0 ∧ M (lock + 324) = n := linked.split []
  have back : M (n + 320) = lock := (linked.split [lock]).1
  have apart : [(pcbAt g i + 356, n), (n + 320, 0), (lock + 320, 0),
      (lock + 324, 0)].Pairwise fun w x => w.1 ≠ x.1 := by
    simp only [List.pairwise_cons, List.forall_mem_cons, List.not_mem_nil, false_implies,
      implies_true, List.Pairwise.nil, and_true]
    omega
  have clear : ∀ w ∈ [(pcbAt g i + 356, n), (n + 320, 0), (lock + 320, 0), (lock + 324, 0)],
      ¬ Found g (lock + 4) M ws w.1 ∨ M w.1 = w.2 := by
    simp only [List.forall_mem_cons, List.not_mem_nil, false_implies, implies_true, and_true]
    exact ⟨Or.inl (formed.lost_pcb i (by omega) (by omega)),
      Or.inl (formed.lost (by simp [back])), Or.inr links.1,
      Or.inl (formed.lost (by simp [links.2, inside]))⟩
  obtain ⟨N, result, frame⟩ := release_writes formed (by simp [place]) enough
    (remove_front formed place) apart clear
  refine ⟨N, result, frame.trans ?_⟩
  rw [harmless_release formed [] (n :: post) place]
  have changes : M (n + 320) ≠ 0 ∧ M (lock + 324) ≠ 0 := by omega
  simp [links.1, own_queue, changes, and_comm]

theorem release_back (place : held = pre ++ [p, lock]) (enough : held.length + ws.length < fuel) :
    ∃ N, doMutexLockRelease fuel g (pcbAt g i) lock M = some N ∧
      ((∀ a, ¬ Own g lock held a → N a = M a) ↔ Operation.release.Harmless g lock held M) := by
  obtain ⟨_, other, before, back⟩ := formed.behind place
  have inside : p ∈ held := by simp [place]
  have between := formed.distinct inside other
  have shape : held = (pre ++ [p]) ++ lock :: [] := by simp [place]
  have linked := formed.holding.linked
  rw [shape] at linked
  have last : M (lock + 324) = 0 := (linked.split _).2
  have mutex := formed.mutex (m := lock) (by simp)
  have mutex' := formed.mutex (List.mem_cons_of_mem lock inside)
  have tail := (mutex.2 i 360 (by omega)).2 (by omega)
  have tail' := (mutex'.2 i 360 (by omega)).2 (by omega)
  have apart : [(pcbAt g i + 360, p), (p + 324, 0), (lock + 320, 0),
      (lock + 324, 0)].Pairwise fun w x => w.1 ≠ x.1 := by
    simp only [List.pairwise_cons, List.forall_mem_cons, List.not_mem_nil, false_implies,
      implies_true, List.Pairwise.nil, and_true]
    omega
  have clear : ∀ w ∈ [(pcbAt g i + 360, p), (p + 324, 0), (lock + 320, 0), (lock + 324, 0)],
      ¬ Found g (lock + 4) M ws w.1 ∨ M w.1 = w.2 := by
    simp only [List.forall_mem_cons, List.not_mem_nil, false_implies, implies_true, and_true]
    exact ⟨Or.inl (formed.lost_pcb i (by omega) (by omega)),
      Or.inl (formed.lost (by simp [back])), Or.inl (formed.lost (by simp [before, inside])),
      Or.inr last⟩
  obtain ⟨N, result, frame⟩ := release_writes formed (by simp [place]) enough
    (remove_back formed place) apart clear
  refine ⟨N, result, frame.trans ?_⟩
  rw [harmless_release formed (pre ++ [p]) [] shape]
  have changes : M (p + 324) ≠ 0 ∧ M (lock + 320) ≠ 0 := by omega
  simp [last, own_queue, changes]

/-- What NULL is taken for has its `prev` below every object. -/
theorem Formed.low : ¬ Own g lock held 320 ∧ ¬ Found g (lock + 4) M ws 320 := by
  have null := formed.null
  simp only [sizeofPcb_eq] at null
  have here := null.2.2 lock (by simp)
  constructor
  · rintro (inside | inside | ⟨m, member, inside⟩ | same | same)
    · have := inside.1
      omega
    · have := inside.1
      omega
    · have := inside.1
      have := null.2.2 m (by simp [member])
      omega
    · omega
    · omega
  · rintro (same | ⟨w, member, same⟩ | same | ⟨_, same⟩)
    · omega
    · omega
    · omega
    · omega

theorem release_middle (place : held = pre ++ p :: lock :: n :: post)
    (enough : held.length + ws.length < fuel) :
    ∃ N, doMutexLockRelease fuel g (pcbAt g i) lock M = some N ∧
      ((∀ a, ¬ Own g lock held a → N a = M a) ↔ Operation.release.Harmless g lock held M) := by
  obtain ⟨_, other, before, back⟩ := formed.behind place
  have inside : p ∈ held := by simp [place]
  have inside' : n ∈ held := by simp [place]
  have between := formed.distinct inside other
  have shape : held = (pre ++ [p]) ++ lock :: n :: post := by simp [place]
  have linked := formed.holding.linked
  have distinct := formed.holding.nodup
  rw [shape] at linked distinct
  have next : M (lock + 324) = n := (linked.split _).2
  have other' : n ≠ lock := by
    have later := (List.nodup_append.mp distinct).2.1
    exact fun same => (List.nodup_cons.mp later).1 (by simp [same])
  have mutex := formed.mutex (m := lock) (by simp)
  have mutex' := formed.mutex (List.mem_cons_of_mem lock inside)
  have mutex'' := formed.mutex (List.mem_cons_of_mem lock inside')
  -- `pcb[0].next` leads to a process or to NULL
  obtain ⟨target, first, own, lost, aside⟩ : ∃ target, M (g.pcb + 324) = target ∧
      (Own g lock held (target + 320) ∨ M (target + 320) = p ↔
        (M (g.pcb + 324) = 0 → M 320 = p)) ∧
      ¬ Found g (lock + 4) M ws (target + 320) ∧
      ∀ m ∈ [p, lock], m + 320 ≠ target + 320 ∧ m + 324 ≠ target + 320 := by
    rcases formed.first with null | ⟨j, same⟩
    · have low := formed.low
      have null : M (g.pcb + 324) = 0 := null
      refine ⟨0, null, by simp [low.1, null], low.2, ?_⟩
      simp only [List.forall_mem_cons, List.not_mem_nil, false_implies, implies_true, and_true]
      omega
    · have same : M (g.pcb + 324) = pcbAt g j := same
      have address : pcbAt g j ≠ 0 := by
        have := formed.null.1
        simp only [sizeofPcb_eq] at this
        simp only [pcbAt]
        omega
      refine ⟨pcbAt g j, same, by simp [own_queue, same, address],
        formed.lost_pcb j (by omega) (by omega), ?_⟩
      simp only [List.forall_mem_cons, List.not_mem_nil, false_implies, implies_true, and_true]
      exact ⟨(mutex'.2 j 320 (by omega)).2 (by omega), (mutex.2 j 320 (by omega)).2 (by omega)⟩
  simp only [List.forall_mem_cons, List.not_mem_nil, false_implies, implies_true, and_true] at aside
  have removed := remove_middle formed place
  rw [first] at removed
  have apart : [(p + 324, n), (target + 320, p), (lock + 320, 0),
      (lock + 324, 0)].Pairwise fun w x => w.1 ≠ x.1 := by
    simp only [List.pairwise_cons, List.forall_mem_cons, List.not_mem_nil, false_implies,
      implies_true, List.Pairwise.nil, and_true]
    omega
  have clear : ∀ w ∈ [(p + 324, n), (target + 320, p), (lock + 320, 0), (lock + 324, 0)],
      ¬ Found g (lock + 4) M ws w.1 ∨ M w.1 = w.2 := by
    simp only [List.forall_mem_cons, List.not_mem_nil, false_implies, implies_true, and_true]
    exact ⟨Or.inl (formed.lost (by simp [back])), Or.inl lost,
      Or.inl (formed.lost (by simp [before, inside])),
      Or.inl (formed.lost (by simp [next, inside']))⟩
  obtain ⟨N, result, frame⟩ := release_writes formed (by simp [place]) enough removed apart clear
  refine ⟨N, result, frame.trans ?_⟩
  rw [harmless_release formed (pre ++ [p]) (n :: post) shape]
  have changes : M (p + 324) ≠ n ∧ M (lock + 320) ≠ 0 ∧ M (lock + 324) ≠ 0 := by omega
  simp only [List.forall_mem_cons, changes, own]
  simp only [or_false, List.not_mem_nil, IsEmpty.forall_iff, implies_true, and_true,
    List.getLast?_append, List.getLast?_singleton, Option.some_or, Option.some.injEq,
    forall_eq', List.head?_cons, List.append_eq_nil_iff, List.cons_ne_self, and_false,
    forall_apply_eq_imp_iff]
  constructor
  · exact fun ⟨before, head, back, next⟩ => ⟨⟨before, back⟩, next, head⟩
  · exact fun ⟨⟨before, back⟩, next, head⟩ => ⟨before, head, back, next⟩

end

/-- For every memory in which the records are placed apart and the queues are intact,
every mutex outside the PCBs and every process: the operation, which does return, changes
nothing but its own records exactly when it is harmless. -/
theorem perform_frame (formed : Formed g i lock held ws M) (op : Operation)
    (applies : op.Applies lock held M) (enough : held.length + ws.length < fuel) :
    ∃ N, op.perform fuel g (pcbAt g i) lock M = some N ∧
      ((∀ a, ¬ Own g lock held a → N a = M a) ↔ op.Harmless g lock held M) := by
  cases op with
  | acquire => exact acquire_frame formed applies.1 applies.2
  | release =>
    obtain ⟨pre, post, place⟩ := List.append_of_mem applies
    rcases List.eq_nil_or_concat pre with rfl | ⟨pre, p, rfl⟩
    · cases post with
      | nil => exact release_only formed place enough
      | cons n post => exact release_front formed place enough
    · have place : held = pre ++ p :: lock :: post := by simpa using place
      cases post with
      | nil => exact release_back formed place enough
      | cons n post => exact release_middle formed place enough

/-- Where the build in the repository puts `pcb`, `ready_queue` and `mboxs`. -/
def build : Globals := ⟨0xa080e3a0, 0xa080b6c0⟩
def mboxs : Nat := 0xa080c9b4

/-- `boxid`, `ref_count`, `name`, `volume`, `wp`, `rp` and `buffer` come before the two
semaphores, each a queue, a count and a mutex. -/
def offRefCount : Nat := 4
def offRsem : Nat := 4 * 2 + 16 + 4 * 3 + 32
def offRsemLock : Nat := offRsem + 4 * (2 + 1)
def sizeofMailbox : Nat := offRsem + 2 * (4 * (2 + 1) + sizeofMutex)

def mboxAt (i : Nat) : Nat := mboxs + i * sizeofMailbox

/-- The mutex in the read semaphore of mailbox 0 is free, and mailbox 3 is in use. -/
def mailboxMemory : Memory := Memory.store (mboxAt 3 + offRefCount) 1 fun _ => 0

/-- Taking the mutex clears the reference count of mailbox 3. -/
theorem acquire_spills : Formed build 0 (mboxAt 0 + offRsemLock) [] [] mailboxMemory ∧
    Operation.acquire.Applies (mboxAt 0 + offRsemLock) [] mailboxMemory ∧
    ¬ Own build (mboxAt 0 + offRsemLock) [] (mboxAt 3 + offRefCount) ∧
    mailboxMemory (mboxAt 3 + offRefCount) = 1 ∧
    ∃ N, Operation.acquire.perform 1 build (pcbAt build 0) (mboxAt 0 + offRsemLock) mailboxMemory =
      some N ∧ N (mboxAt 3 + offRefCount) = 0 := by
  refine ⟨?_, ⟨by decide, by simp⟩, ?_, by decide, _, rfl, by decide⟩
  · refine ⟨by decide, by decide, by simp, by decide, by decide, ⟨?_, ?_, trivial, List.nodup_nil⟩,
      ⟨?_, trivial, by simp, List.nodup_nil, Or.inl ?_⟩, Or.inl ?_⟩ <;> decide
  · simp [Own, InPcb, InMutex]
    decide

/-- Process 0 holds one mutex, for which process 1 waits. -/
def contendedMemory : Memory :=
  writeAll [(pcbAt build 0 + offHolding, mboxAt 0 + offRsemLock),
    (pcbAt build 0 + offHolding + offTail, mboxAt 0 + offRsemLock),
    (mboxAt 0 + offRsemLock, locked),
    (mboxAt 0 + offRsemLock + offBlockQueue, pcbAt build 1),
    (mboxAt 0 + offRsemLock + offBlockQueue + offTail, pcbAt build 1)] fun _ => 0

/-- The only mutex a process holds is released without harm. -/
theorem perform_frame_only : ∃ N, Operation.release.perform 3 build (pcbAt build 0)
      (mboxAt 0 + offRsemLock) contendedMemory = some N ∧
    ∀ a, ¬ Own build (mboxAt 0 + offRsemLock) [mboxAt 0 + offRsemLock] a →
      N a = contendedMemory a := by
  have formed : Formed build 0 (mboxAt 0 + offRsemLock) [mboxAt 0 + offRsemLock] [pcbAt build 1]
      contendedMemory := by
    refine ⟨by decide, by decide, by decide, by decide, by decide,
      ⟨by decide, by decide, ⟨by decide, by decide, trivial⟩, by simp⟩,
      ⟨by decide, ⟨by decide, trivial⟩, by simp, by simp, Or.inl (by decide)⟩,
      Or.inl (by decide)⟩
  have enough : [mboxAt 0 + offRsemLock].length + [pcbAt build 1].length < 3 := by decide
  obtain ⟨N, result, frame⟩ := perform_frame formed .release (List.mem_singleton.mpr rfl) enough
  refine ⟨N, result, frame.mpr ?_⟩
  rw [harmless_release formed [] [] rfl]
  simp

end Tina.Layout
