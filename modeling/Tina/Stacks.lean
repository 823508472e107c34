import Tina.Frames
import Tina.Lifecycle

/-! User stacks and the page table. Stacks are placed by slot number, and the table has
room for the pages of the first eight. Which slots are in use at all depends on nothing but
the spawns: no other function of the kernel brings a slot to life that had no process. -/
namespace Tina

open LinkedQueue Links Transition Paging

variable {A : Slot → Prop} {k k' m : Kernel} {p i : Slot} {q : QueueId} {l : Mutex} {s b c : Nat}
  {fuel : Nat} {clk : Word} {task shell : TaskInfo} {event : Event}

def stackTop (i : Slot) : Word := ustackBase + BitVec.ofNat 32 i * ustackSize

/-- A process is in an assigned slot; any mutex may be linked. -/
def OfSlot (A : Slot → Prop) : Item → Prop
  | .pcb i => A i
  | .lock _ => True

/-- Every process that the kernel can reach is in a slot of `A`, with the stack of its slot. -/
structure Placed (A : Slot → Prop) (k : Kernel) : Prop where
  links : k.links.Within (OfSlot A)
  current : A k.currentRunning
  live : ∀ i, (k.pcb i).status ≠ .exited → A i
  top : ∀ i, A i → (k.pcb i).userStackTop = stackTop i

/-- The other fields of the kernel do not matter. -/
theorem Placed.data (placed : Placed A k) (links : m.links.Within (OfSlot A))
    (pcb : m.pcb = k.pcb) (current : A m.currentRunning) : Placed A m where
  links := links
  current := current
  live i := pcb ▸ placed.live i
  top i := pcb ▸ placed.top i

theorem Placed.record (placed : Placed A k) (a : Act) : Placed A (k.record a) :=
  placed.data placed.links rfl placed.current

theorem Placed.setPcb (placed : Placed A k) {v : Pcb} (inside : A i)
    (same : v.userStackTop = (k.pcb i).userStackTop) : Placed A (k.setPcb i v) := by
  have other : ∀ j, j ≠ i → (k.setPcb i v).pcb j = k.pcb j :=
    fun j different => Function.update_of_ne different _ _
  have new : (k.setPcb i v).pcb i = v := Function.update_self _ _ _
  refine ⟨placed.links, placed.current, fun j live => ?_, fun j assigned => ?_⟩
  · by_cases here : j = i
    · exact here ▸ inside
    · exact placed.live j (other j here ▸ live)
  · by_cases here : j = i
    · rw [here, new, same]
      exact placed.top i inside
    · rw [other j here]
      exact placed.top j assigned

theorem Placed.push (placed : Placed A k) {x : Item} (inside : OfSlot A x) :
    Placed A (k.push q x) :=
  placed.data (queuePush_within placed.links inside) rfl placed.current

theorem Placed.dequeue (placed : Placed A k) {x : Option Item} {links : Links Item QueueId}
    (taken : queueDequeue q k.links = (x, links)) :
    links.Within (OfSlot A) ∧ ∀ y, x = some y → OfSlot A y := by
  have both := queueDequeue_within (q := q) placed.links
  rw [taken] at both
  exact both

theorem unblockHead_placed (placed : Placed A k) (result : unblockHead q k = some k') :
    Placed A k' := by
  rw [unblockHead] at result
  split at result
  next p links taken =>
    obtain ⟨within, inside⟩ := placed.dequeue taken
    obtain rfl := Option.some.inj result
    have inside : A p := inside _ rfl
    have relinked : Placed A { k with links := links } := placed.data within rfl placed.current
    refine Placed.record (Placed.push (x := .pcb p) ?_ inside) _
    exact relinked.setPcb inside (by rfl)
  · contradiction

theorem doUnblockOne_placed (placed : Placed A k) (result : doUnblockOne q k = some k') :
    Placed A k' := by
  rw [doUnblockOne] at result
  split at result
  · exact Option.some.inj result ▸ placed
  · exact unblockHead_placed placed result

theorem doUnblockAll_placed (placed : Placed A k) (result : doUnblockAll fuel q k = some k') :
    Placed A k' := by
  induction fuel generalizing k with
  | zero => contradiction
  | succ fuel ih =>
    rw [doUnblockAll] at result
    split at result
    · exact Option.some.inj result ▸ placed
    · obtain ⟨m, first, rest⟩ := Option.bind_eq_some_iff.mp result
      exact ih (unblockHead_placed placed first) rest

theorem doMutexLockRelease_placed (placed : Placed A k)
    (result : doMutexLockRelease fuel l k = some k') : Placed A k' := by
  obtain ⟨has, _, rest⟩ := Option.bind_eq_some_iff.mp result
  refine doUnblockAll_placed ?_ rest
  refine Placed.record ?_ _
  refine placed.data ?_ rfl placed.current
  split
  · exact queueRemove_within placed.links
  · exact placed.links

theorem drainHolding_placed (placed : Placed A k) (result : drainHolding fuel k = some k') :
    Placed A k' := by
  induction fuel generalizing k with
  | zero => contradiction
  | succ fuel ih =>
    simp only [drainHolding] at result
    split at result
    · exact Option.some.inj result ▸ placed
    · split at result
      next taken =>
        obtain ⟨m, first, rest⟩ := Option.bind_eq_some_iff.mp result
        have relinked := placed.data (m := { k with links := _ }) (placed.dequeue taken).1 rfl
          placed.current
        exact ih (doMutexLockRelease_placed relinked first) rest
      · contradiction

theorem reap_placed (placed : Placed A k) (result : reap fuel k = some k') : Placed A k' := by
  obtain ⟨m, first, result⟩ := Option.bind_eq_some_iff.mp result
  obtain ⟨n, second, result⟩ := Option.bind_eq_some_iff.mp result
  obtain rfl := Option.some.inj result
  exact (drainHolding_placed (doUnblockAll_placed placed first) second).record _

theorem checkSleeping_placed (placed : Placed A k) : Placed A (checkSleeping k) := by
  rw [checkSleeping]
  split
  · exact placed.setPcb placed.current rfl
  · exact placed

theorem select_placed (placed : Placed A k) (result : select fuel k = some k') :
    Placed A k' := by
  induction fuel generalizing k with
  | zero => contradiction
  | succ fuel ih =>
    simp only [select] at result
    split at result
    next p links taken =>
      obtain ⟨within, inside⟩ := placed.dequeue taken
      have inside : A p := inside _ rfl
      have chosen : Placed A (checkSleeping { k with links := links, currentRunning := p }) :=
        checkSleeping_placed (placed.data within rfl inside)
      have running : (checkSleeping { k with links := links, currentRunning := p }).currentRunning = p := by
        rw [checkSleeping]
        split <;> rfl
      generalize checkSleeping { k with links := links, currentRunning := p } = m
        at chosen running result
      split at result
      · exact ih (chosen.push (x := .pcb p) inside) result
      · obtain rfl := Option.some.inj result
        exact chosen.setPcb inside (by rw [Kernel.current, running])
      · obtain ⟨n, first, rest⟩ := Option.bind_eq_some_iff.mp result
        exact ih (reap_placed chosen first) rest
      · exact Option.some.inj result ▸ chosen
      · exact ih chosen result
      · exact ih chosen result
    · contradiction

theorem leave_placed (placed : Placed A k) {request : Request}
    (result : leave fuel request k = some k') : Placed A k' := by
  have moved : ∀ v : Pcb, v.userStackTop = k.current.userStackTop →
      Placed A (k.setPcb k.currentRunning v) := fun v same => placed.setPcb placed.current same
  cases request with
  | exited => exact reap_placed (moved _ (by rfl)) result
  | blocked queue =>
    obtain rfl := Option.some.inj result
    refine Placed.record (Placed.push (x := .pcb k.currentRunning) ?_ placed.current) _
    exact moved _ (by rfl)
  | _ =>
    obtain rfl := Option.some.inj result
    refine Placed.push (x := .pcb k.currentRunning) ?_ placed.current
    exact moved _ (by rfl)

theorem enter_placed (placed : Placed A k) : Placed A (enter clk k) := by
  have cursor : Placed A { k with
      screenCursorX := k.current.cursorX, screenCursorY := k.current.cursorY } :=
    placed.data placed.links rfl placed.current
  have running := cursor.setPcb (v := { k.current with status := .running }) placed.current (by rfl)
  refine Placed.record ?_ _
  exact running.data running.links rfl running.current

theorem scheduler_placed (placed : Placed A k) {request : Request}
    (result : scheduler fuel clk request k = some k') : Placed A k' := by
  obtain ⟨m, first, result⟩ := Option.bind_eq_some_iff.mp result
  obtain ⟨n, second, result⟩ := Option.bind_eq_some_iff.mp result
  obtain rfl := Option.some.inj result
  have left := leave_placed placed first
  have saved : Placed A (saveCursor m) := left.setPcb left.current (by rfl)
  exact enter_placed (select_placed saved second)

theorem doBlock_placed (placed : Placed A k) {kont : Kont}
    (result : doBlock fuel clk q kont k = some k') : Placed A k' := by
  refine scheduler_placed ?_ result
  exact placed.data placed.links rfl placed.current

theorem semaphoreUp_placed (placed : Placed A k) (result : semaphoreUp fuel s k = some k') :
    Placed A k' := by
  obtain ⟨m, first, rest⟩ := Option.bind_eq_some_iff.mp result
  refine doMutexLockRelease_placed (doUnblockOne_placed ?_ first) rest
  refine Placed.record ?_ _
  exact placed.data placed.links rfl placed.current

theorem semaphoreDown_placed (placed : Placed A k)
    (result : semaphoreDown fuel clk s k = some k') : Placed A k' := by
  rw [semaphoreDown] at result
  split at result
  · obtain ⟨m, first, rest⟩ := Option.bind_eq_some_iff.mp result
    exact doBlock_placed (doMutexLockRelease_placed placed first) rest
  · refine doMutexLockRelease_placed ?_ result
    refine Placed.record ?_ _
    exact placed.data placed.links rfl placed.current

theorem barrierLeave_placed (placed : Placed A k)
    (result : barrierLeave fuel b k = some k') : Placed A k' := by
  obtain ⟨m, first, rest⟩ := Option.bind_eq_some_iff.mp result
  obtain rfl := Option.some.inj rest
  exact (doMutexLockRelease_placed placed first).record _

theorem barrierArrive_placed (placed : Placed A k)
    (result : barrierArrive fuel clk b k = some k') : Placed A k' := by
  have arrived : ∀ barrier a, Placed A ({ k with barrier := barrier }.record a) := by
    intro barrier a
    refine Placed.record ?_ a
    exact placed.data placed.links rfl placed.current
  simp only [barrierArrive] at result
  split at result
  · obtain ⟨m, first, rest⟩ := Option.bind_eq_some_iff.mp result
    have woken := doUnblockAll_placed (arrived _ _) first
    refine barrierLeave_placed ?_ rest
    exact woken.data woken.links rfl woken.current
  · obtain ⟨m, first, rest⟩ := Option.bind_eq_some_iff.mp result
    exact doBlock_placed (doMutexLockRelease_placed (arrived _ _) first) rest

theorem afterAcquire_placed (placed : Placed A k) {after : After}
    (result : afterAcquire fuel clk after k = some k') : Placed A k' := by
  cases after with
  | user => exact Option.some.inj result ▸ placed
  | condition l c => exact Option.some.inj result ▸ placed.record _
  | up s => exact semaphoreUp_placed placed result
  | down s => exact semaphoreDown_placed placed result
  | arrive b => exact barrierArrive_placed placed result
  | leave b => exact barrierLeave_placed placed result

theorem doMutexLockAcquire_placed (placed : Placed A k) {after : After}
    (result : doMutexLockAcquire fuel clk l after k = some k') : Placed A k' := by
  rw [doMutexLockAcquire] at result
  split at result
  · exact doBlock_placed placed result
  · have pushed : Placed A (k.push (.holding k.currentRunning) (.lock l)) := placed.push trivial
    refine afterAcquire_placed ?_ result
    refine Placed.record ?_ _
    exact pushed.data pushed.links rfl pushed.current

theorem resume_placed (placed : Placed A k) (result : resume fuel clk k = some k') :
    Placed A k' := by
  have back : ∀ kont, Placed A { k with kont := kont } :=
    fun kont => placed.data placed.links rfl placed.current
  simp only [resume] at result
  split at result
  · contradiction
  all_goals exact doMutexLockAcquire_placed (back _) result

theorem kill_placed (placed : Placed A k) (id : Int) : Placed A (kill id k) := by
  rw [kill]
  split
  · exact placed
  next i found =>
    have inside : A i := by
      refine placed.live i ?_
      have matching := List.find?_some found
      simp only [Bool.and_eq_true, bne_iff_ne] at matching
      exact matching.2
    have condemned : Placed A ((k.setPcb i { k.pcb i with status := .exited }).record (.kill i)) := by
      refine Placed.record ?_ _
      exact placed.setPcb inside (by rfl)
    dsimp only
    split
    · exact condemned
    · refine condemned.data ?_ rfl condemned.current
      exact queuePush_within (queueRemove_within condemned.links) inside

theorem assignt_placed (placed : Placed A k) :
    Placed (fun j => A j ∨ j = i) (assignt task i k) := by
  have wider : k.links.Within (OfSlot fun j => A j ∨ j = i) := by
    have weaken : ∀ x, OfSlot A x → OfSlot (fun j => A j ∨ j = i) x := by
      intro x inside
      cases x with
      | pcb j => exact Or.inl inside
      | lock l => trivial
    have old := placed.links
    exact ⟨fun x y same => weaken y (old.next x y same), fun x y same => weaken y (old.prev x y same),
      fun r y same => weaken y (old.head r y same), fun r y same => weaken y (old.tail r y same)⟩
  have other : ∀ j, j ≠ i → (assignt task i k).pcb j = k.pcb j :=
    fun j different => Function.update_of_ne different _ _
  have new : (assignt task i k).pcb i = _ := Function.update_self _ _ _
  refine ⟨?_, Or.inl placed.current, fun j live => ?_, fun j assigned => ?_⟩
  · exact queueInit_within (queueInit_within (queuePush_within wider (Or.inr rfl)))
  · by_cases here : j = i
    · exact Or.inr here
    · rw [other j here] at live
      exact Or.inl (placed.live j live)
  · by_cases here : j = i
    · rw [here, new]
      rfl
    · rw [other j here]
      exact placed.top j (assigned.resolve_right here)

theorem systemCall_placed (placed : Placed A k) {call : Call} (other : ∀ task, call ≠ .spawn task)
    (result : systemCall fuel clk call k = some k') : Placed A k' := by
  cases call with
  | sleep time => exact scheduler_placed placed result
  | spawn task => exact absurd rfl (other task)
  | kill id => exact Option.some.inj result ▸ kill_placed placed id
  | wait id =>
    simp only [systemCall, wait] at result
    split at result
    · exact Option.some.inj result ▸ placed
    · split at result
      · exact Option.some.inj result ▸ placed
      · exact doBlock_placed placed result
  | exit => exact scheduler_placed placed result
  | block q => exact doBlock_placed placed result
  | unblockOne q => exact doUnblockOne_placed placed result
  | unblockAll q => exact doUnblockAll_placed placed result
  | acquire l => exact doMutexLockAcquire_placed placed result
  | release l => exact doMutexLockRelease_placed placed result
  | condWait l c =>
    obtain ⟨m, first, rest⟩ := Option.bind_eq_some_iff.mp result
    exact doBlock_placed (doMutexLockRelease_placed (placed.record _) first) rest
  | signal c => exact doUnblockOne_placed placed result
  | broadcast c => exact doUnblockAll_placed placed result
  | up s => exact doMutexLockAcquire_placed placed result
  | down s => exact doMutexLockAcquire_placed placed result
  | barrierWait b => exact doMutexLockAcquire_placed placed result

theorem initPcb_placed : Placed (· = 0) (initPcb shell) := by
  have nothing : boot.links.Within (OfSlot (· = 0)) := ⟨nofun, nofun, nofun, nofun⟩
  have filled : Placed (· = 0) (fillPcb shell) := by
    refine ⟨?_, rfl, fun i live => ?_, fun i zero => ?_⟩
    · refine queueInit_within (queueInit_within (queuePush_within ?_ ?_))
      · exact queueInit_within nothing
      · exact rfl
    · by_contra other
      exact live (by simp only [fillPcb, if_neg other])
    · subst zero
      rfl
  rw [initPcb]
  split
  next p links taken =>
    obtain ⟨within, inside⟩ := filled.dequeue taken
    exact filled.data within rfl (inside _ rfl)
  · exact filled

/-- The address lies in the stack region of the slot. -/
def InStack (k : Kernel) (i : Slot) (address : Word) : Prop :=
  ((k.pcb i).userStackTop - ustackSize).toNat ≤ address.toNat ∧
    address.toNat < (k.pcb i).userStackTop.toNat

/-- A fault in the stack of a live process stays inside the page table. -/
def Covered (k : Kernel) : Prop := ∀ i, (k.pcb i).status ≠ .exited →
  ∀ address, InStack k i address → ∀ pid m, (doTLBRefill address pid m).isSome = true

/-- One of the slots 0 to 7 has status `TASK_EXITED`, or none of all has. -/
def LowSlot (k : Kernel) : Prop :=
  (∃ i, i.val < 8 ∧ (k.pcb i).status = .exited) ∨ ∀ i, (k.pcb i).status ≠ .exited

def SpawnsLow (k : Kernel) : Event → Prop
  | .call (.spawn _) => LowSlot k
  | _ => True

instance LowSlot.decidable : DecidablePred LowSlot :=
  fun k => inferInstanceAs (Decidable ((∃ i : Slot, i.val < 8 ∧ (k.pcb i).status = .exited) ∨
    ∀ i : Slot, (k.pcb i).status ≠ .exited))

instance SpawnsLow.decidable (k : Kernel) (event : Event) : Decidable (SpawnsLow k event) := by
  apply event.decide <;> intros <;> unfold SpawnsLow <;> infer_instance

theorem fill_isSome {v : Nat} {m : Memory} : (fill v m).isSome = true ↔ v < pageEntryNumber := by
  rw [fill, pageEntry]
  by_cases inside : v < pageEntryNumber
  · simp only [inside, iff_true]
    change (if m.pageEntrys v >>> 28 ≠ pteValid then doPageFault v m else some m).isSome = true
    split
    · rw [doPageFault, if_pos inside]
      rfl
    · rfl
  · simp only [inside, iff_false]
    intro some
    cases some

/-- A refill leaves the table exactly for the addresses beyond its pages. -/
theorem doTLBRefill_isSome {badvaddr pid : Word} {m : Memory} :
    (doTLBRefill badvaddr pid m).isSome = true ↔ Mapped m (badvaddr, pid) := by
  obtain ⟨even, odd⟩ := refill_index badvaddr
  simp only [Mapped, pageEntryNumber]
  constructor
  · intro result
    by_contra beyond
    have first : fill (2 * (badvaddr.toNat / 0x2000)) m = none := by
      rw [← Option.not_isSome_iff_eq_none, fill_isSome, pageEntryNumber]
      omega
    simp only [doTLBRefill, even, first] at result
    contradiction
  · intro mapped
    have inside0 : 2 * (badvaddr.toNat / 0x2000) < pageEntryNumber := by
      rw [pageEntryNumber]
      omega
    have inside1 : 2 * (badvaddr.toNat / 0x2000) + 1 < pageEntryNumber := by
      rw [pageEntryNumber]
      omega
    obtain ⟨m₁, fill0⟩ := Option.isSome_iff_exists.mp (fill_isSome (m := m) |>.mpr inside0)
    obtain ⟨m₂, fill1⟩ := Option.isSome_iff_exists.mp (fill_isSome (m := m₁) |>.mpr inside1)
    simp only [doTLBRefill, even, odd, fill0, fill1, pageEntry, if_pos inside0, if_pos inside1,
      Option.bind_eq_bind, Option.bind_some, Option.isSome_some]

/-- The stack of slot `i` takes the `i`-th four megabytes. -/
theorem stackTop_region (i : Slot) : (stackTop i).toNat = 0x400000 * (i.val + 1) ∧
    (stackTop i - ustackSize).toNat = 0x400000 * i.val := by
  have place : ∀ i : Slot, (stackTop i).toNat = 0x400000 * (i.val + 1) ∧
    (stackTop i - ustackSize).toNat = 0x400000 * i.val := by decide
  exact place i

theorem Placed.covered (placed : Placed A k) (low : ∀ i, A i → i.val < 8) : Covered k := by
  intro i live address inside pid m
  have assigned := placed.live i live
  obtain ⟨above, below⟩ := stackTop_region i
  have few := low i assigned
  rw [InStack, placed.top i assigned, above] at inside
  rw [doTLBRefill_isSome, Mapped, pageEntryNumber]
  dsimp only
  omega

/-- A process in a later slot has its whole stack outside the table. -/
theorem not_covered (live : (k.pcb i).status ≠ .exited) (top : (k.pcb i).userStackTop = stackTop i)
    (high : 8 ≤ i.val) : ¬Covered k := by
  intro covered
  obtain ⟨above, below⟩ := stackTop_region i
  have inside : InStack k i (stackTop i - ustackSize) := by
    rw [InStack, top, above, below]
    omega
  have mapped := doTLBRefill_isSome.mp (covered i live _ inside 0 cleared)
  rw [Mapped, pageEntryNumber] at mapped
  dsimp only at mapped
  omega

theorem freeSlot_first (found : freeSlot k = some i) {j : Slot} (free : (k.pcb j).status = .exited) :
    i ≤ j := by
  obtain ⟨_, before, after, split, passed⟩ := List.find?_eq_some_iff_append.mp found
  have member : j ∈ before ++ i :: after := split ▸ List.mem_finRange j
  have sorted : (before ++ i :: after).Pairwise (· < ·) := split ▸ List.pairwise_lt_finRange _
  rcases List.mem_append.mp member with early | late
  · have busy := passed j early
    rw [free] at busy
    contradiction
  · rcases List.mem_cons.mp late with rfl | later
    · exact Nat.le_refl _
    · exact Nat.le_of_lt ((List.pairwise_cons.mp (List.pairwise_append.mp sorted).2.1).1 j later)

theorem freeSlot_none (full : freeSlot k = none) (i : Slot) : (k.pcb i).status ≠ .exited := by
  intro free
  have busy := List.find?_eq_none.mp full i (List.mem_finRange i)
  rw [free] at busy
  exact busy rfl

theorem LowSlot.low (low : LowSlot k) (found : freeSlot k = some i) : i.val < 8 := by
  rcases low with ⟨j, few, free⟩ | full
  · exact Nat.lt_of_le_of_lt (freeSlot_first found free) few
  · exact absurd (freeSlot_exited found) (full i)

theorem spawn_placed (placed : Placed A k) (few : ∀ i, A i → i.val < 8) (low : LowSlot k) :
    ∃ A, (∀ i, A i → i.val < 8) ∧ Placed A (spawn task k) := by
  rw [spawn]
  split
  next i found =>
    refine ⟨fun j => A j ∨ j = i, ?_, assignt_placed placed⟩
    rintro j (old | rfl)
    · exact few j old
    · exact low.low found
  · exact ⟨A, few, placed⟩

theorem spawn_covered (placed : Placed A k) (few : ∀ i, A i → i.val < 8) :
    Covered (spawn task k) ↔ LowSlot k := by
  constructor
  · intro covered
    cases found : freeSlot k with
    | none => exact Or.inr (freeSlot_none found)
    | some i =>
      simp only [spawn, found] at covered
      have new : (assignt task i k).pcb i = _ := Function.update_self _ _ _
      by_cases low : i.val < 8
      · exact Or.inl ⟨i, low, freeSlot_exited found⟩
      · refine absurd covered (not_covered (i := i) ?_ ?_ (Nat.le_of_not_lt low))
        · rw [new]
          exact nofun
        · rw [new]
          rfl
  · intro low
    obtain ⟨A', few', placed'⟩ := spawn_placed placed few low
    exact placed'.covered few'

/-- Faults in stacks stay inside the page table as long as spawns find a slot below 8. -/
theorem reachable_covered (reach : Reachable Step SpawnsLow (initPcb shell) k) :
    Covered k ∧ ∀ task, Covered (spawn task k) ↔ LowSlot k := by
  have invariant : ∃ A, (∀ i, A i → i.val < 8) ∧ Placed A k := by
    refine reach.invariant (fun k => ∃ A, (∀ i, A i → i.val < 8) ∧ Placed A k)
      ⟨_, fun i zero => zero ▸ (by decide), initPcb_placed⟩ ?_
    rintro k event k' ⟨A, few, placed⟩ low ⟨fuel, clk, result⟩
    rcases event with call | _ | _
    · simp only [execute] at result
      split at result
      · by_cases spawning : ∃ task, call = .spawn task
        · obtain ⟨task, rfl⟩ := spawning
          obtain rfl := Option.some.inj result
          exact spawn_placed placed few low
        · exact ⟨A, few, systemCall_placed placed (fun task same => spawning ⟨task, same⟩) result⟩
      · contradiction
    · simp only [execute] at result
      split at result
      · exact ⟨A, few, scheduler_placed placed result⟩
      · contradiction
    · exact ⟨A, few, resume_placed placed result⟩
  obtain ⟨A, few, placed⟩ := invariant
  exact ⟨placed.covered few, fun task => spawn_covered placed few⟩

/-- Seven tasks beside the shell, one of them killed and its slot used again. -/
theorem reachable_covered_full : ∃ k, ((k.pcb 7).status ≠ .exited ∧ ¬LowSlot k) ∧ Covered k ∧
    ∀ task, Covered (spawn task k) ↔ LowSlot k := by
  obtain ⟨k, reach, full⟩ := runAllowed_found SpawnsLow 40 300
    (List.replicate 7 (.call (.spawn someTask)) ++
      [.call (.kill 4), .call (.spawn someTask)]) (initPcb someTask)
    (fun k => (k.pcb 7).status ≠ .exited ∧ ¬LowSlot k) (by decide)
  exact ⟨k, full, reachable_covered reach⟩

/-- The eighth task beside the shell gets a stack that starts where the table ends. -/
theorem eighth_spawn_uncovered : ∃ k, Reachable Step (fun _ _ => True) (initPcb someTask) k ∧
    (k.pcb 8).status ≠ .exited ∧ InStack k 8 0x2000000 ∧
    ∀ pid m, doTLBRefill 0x2000000 pid m = none := by
  obtain ⟨k, reach, live, inside⟩ := runAllowed_found (fun _ _ => True) 40 300
    (List.replicate 8 (.call (.spawn someTask))) (initPcb someTask)
    (fun k => (k.pcb 8).status ≠ .exited ∧
      ((k.pcb 8).userStackTop - ustackSize).toNat ≤ (0x2000000 : Word).toNat ∧
      (0x2000000 : Word).toNat < (k.pcb 8).userStackTop.toNat) (by decide)
  refine ⟨k, reach, live, inside, fun pid m => ?_⟩
  have beyond : ¬(0x2000000 : Word).toNat < pageEntryNumber * 0x1000 := by decide
  rw [← Option.not_isSome_iff_eq_none, doTLBRefill_isSome]
  exact beyond

end Tina
