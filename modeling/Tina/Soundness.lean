import Tina.Lifecycle

/-! Every step of the kernel preserves coherence, as long as the two places where
`queue_remove` and `spawn` do damage are avoided. -/
namespace Tina

open LinkedQueue

variable {k k' m : Kernel} {L L' M : Lists} {off : Set Slot} {p i : Slot} {q : QueueId}
  {rest : List Item} {l : Mutex} {s b c : Nat} {fuel : Nat} {clk : Word} {kont : Kont} {id : Int}

/-- A queue a program may block on: not the ready queue and not one inside a PCB. -/
def QueueId.Foreign : QueueId → Prop
  | .ready | .holding _ | .waiting _ => False
  | _ => True

instance QueueId.Foreign.decidable : DecidablePred QueueId.Foreign := fun q => by
  cases q <;> first | exact instDecidableTrue | exact instDecidableFalse

theorem QueueId.Foreign.parking (foreign : q.Foreign) : q.Parking := by
  cases q <;> first | exact foreign.elim | trivial

theorem QueueId.Foreign.unattended (foreign : q.Foreign) (i : Slot) : q ≠ .waiting i := by
  rintro rfl
  exact foreign

/-- The mutex at hand is the one that the rest of the call releases. -/
def After.Fits (l : Mutex) : After → Prop
  | .user | .condition _ _ => True
  | .up s | .down s => l = .sem s
  | .arrive b | .leave b => l = .barrier b

def Kont.Fits : Kont → Prop
  | .acquire l after => after.Fits l
  | _ => True

/-- The running process is not on its way to another queue. -/
def Active (k : Kernel) : Prop :=
  k.current.status = .running ∨ k.current.status = .embryo ∨
    k.current.status = .exited ∧ unreaped k.trace k.currentRunning = true

structure Sound (k : Kernel) (L : Lists) : Prop where
  coherent : Coherent k L {k.currentRunning}
  active : Active k
  fits : ∀ p, (k.kont p).Fits

theorem Sound.restate (sound : Sound k L) (coherent : Coherent k M {k.currentRunning}) :
    Sound k M := ⟨coherent, sound.active, sound.fits⟩

/-- What a piece of a call that does not switch leaves alone. -/
structure Steady (k m : Kernel) : Prop where
  current : m.currentRunning = k.currentRunning
  status : m.current.status = k.current.status
  exited : ∀ p, (m.pcb p).status = .exited ↔ (k.pcb p).status = .exited
  reaped : ∀ p, unreaped m.trace p = unreaped k.trace p
  kont : m.kont = k.kont
  processId : m.processId = k.processId
  pid : ∀ p, (m.pcb p).pid = (k.pcb p).pid
  spawned : spawns m.trace = spawns k.trace
  dispatched : dispatches m.trace = dispatches k.trace

theorem Steady.refl (k : Kernel) : Steady k k :=
  ⟨rfl, rfl, fun _ => Iff.rfl, fun _ => rfl, rfl, rfl, fun _ => rfl, rfl, rfl⟩

theorem Steady.trans {n : Kernel} (first : Steady k m) (second : Steady m n) : Steady k n where
  current := second.current.trans first.current
  status := second.status.trans first.status
  exited p := (second.exited p).trans (first.exited p)
  reaped p := (second.reaped p).trans (first.reaped p)
  kont := second.kont.trans first.kont
  processId := second.processId.trans first.processId
  pid p := (second.pid p).trans (first.pid p)
  spawned := second.spawned.trans first.spawned
  dispatched := second.dispatched.trans first.dispatched

theorem Steady.relink (steady : Steady k m) (links : Links Item QueueId) :
    Steady k (m.relink links) :=
  ⟨steady.current, steady.status, steady.exited, steady.reaped, steady.kont, steady.processId,
    steady.pid, steady.spawned, steady.dispatched⟩

/-- An action that is neither a spawn nor a dispatch either. -/
theorem Steady.record (steady : Steady k m) (a : Act) (neutral : a.Neutral)
    (plain : a.isSpawn = false ∧ a.isDispatch = false) : Steady k (m.record a) where
  current := steady.current
  status := steady.status
  exited := steady.exited
  reaped p := (unreaped_neutral neutral _).trans (steady.reaped p)
  kont := steady.kont
  processId := steady.processId
  pid := steady.pid
  spawned := by
    rw [← steady.spawned]
    simp [Kernel.record, spawns, plain.1]
  dispatched := by
    rw [← steady.dispatched]
    simp [Kernel.record, dispatches, plain.2]

theorem Steady.onward (steady : Steady k m) : Onward k m where
  processId := steady.processId
  pid := steady.pid
  spawned := steady.spawned
  killed p reaped := steady.reaped p ▸ reaped
  live p status := Or.inl fun exited => status ((steady.exited p).mpr exited)

theorem Steady.active (steady : Steady k m) (active : Active k) : Active m := by
  unfold Active
  rw [steady.status, steady.current, steady.reaped]
  exact active

theorem Sound.steady (sound : Sound k L) (steady : Steady k m)
    (coherent : Coherent m M {k.currentRunning}) : Sound m M where
  coherent := by rw [steady.current]; exact coherent
  active := steady.active sound.active
  fits p := by rw [steady.kont]; exact sound.fits p

/-- The members of a list are asleep in the kernel, neither running nor exited. -/
def Patient (k : Kernel) (l : List Item) : Prop :=
  ∀ p, Item.pcb p ∈ l → p ≠ k.currentRunning ∧ (k.pcb p).status ≠ .exited

theorem Sound.patient (sound : Sound k L) (parking : q.Parking) : Patient k (L q) := by
  intro p member
  constructor
  · rintro rfl
    exact sound.coherent.off_nowhere (Set.mem_singleton _) member
  · rw [(sound.coherent.waiter parking member).1]
    simp

theorem Steady.patient {l : List Item} (steady : Steady k m) (patient : Patient k l) :
    Patient m l := by
  intro p member
  obtain ⟨other, live⟩ := patient p member
  exact ⟨steady.current ▸ other, fun exited => live ((steady.exited p).mp exited)⟩

theorem lockBy_steady : Steady k (lockBy l k) :=
  ⟨rfl, rfl, fun _ => Iff.rfl, fun _ => rfl, rfl, rfl, fun _ => rfl, rfl, rfl⟩
theorem countUp_steady : Steady k (countUp s k) :=
  ⟨rfl, rfl, fun _ => Iff.rfl, fun _ => rfl, rfl, rfl, fun _ => rfl, rfl, rfl⟩
theorem countDown_steady : Steady k (countDown s k) :=
  ⟨rfl, rfl, fun _ => Iff.rfl, fun _ => rfl, rfl, rfl, fun _ => rfl, rfl, rfl⟩
theorem countArrival_steady : Steady k (countArrival b k) :=
  ⟨rfl, rfl, fun _ => Iff.rfl, fun _ => rfl, rfl, rfl, fun _ => rfl, rfl, rfl⟩
theorem resetCount_steady : Steady k (resetCount b k) :=
  ⟨rfl, rfl, fun _ => Iff.rfl, fun _ => rfl, rfl, rfl, fun _ => rfl, rfl, rfl⟩
theorem unlock_steady : Steady k (unlock p l k) :=
  ⟨rfl, rfl, fun _ => Iff.rfl, fun _ => rfl, rfl, rfl, fun _ => rfl, rfl, rfl⟩

theorem wake_steady (other : p ≠ k.currentRunning) (live : (k.pcb p).status ≠ .exited) :
    Steady k (wake q p k) where
  current := rfl
  status := by simp [wake, Kernel.current, Kernel.setPcb, Kernel.record, Ne.symm other]
  exited i := by
    by_cases same : i = p
    · subst i; simp [wake, Kernel.setPcb, Kernel.record, live]
    · simp [wake, Kernel.setPcb, Kernel.record, same]
  reaped _ := rfl
  kont := rfl
  processId := rfl
  pid i := by by_cases same : i = p <;> simp [wake, Kernel.setPcb, Kernel.record, same]
  spawned := rfl
  dispatched := rfl

/-- Nobody wakes the running process: it is on no queue. -/
theorem wakeAll_steady {l : List Item} (patient : Patient k l) :
    Steady k (wakeAll q (slots l) k) := by
  have members : ∀ p ∈ slots l, p ≠ k.currentRunning ∧ (k.pcb p).status ≠ .exited :=
    fun p member => patient p (mem_slots.mp member)
  generalize slots l = ps at members
  induction ps generalizing k with
  | nil => exact Steady.refl k
  | cons p ps ih =>
    obtain ⟨other, live⟩ := members p (by simp)
    have first : Steady k (wake q p k) := wake_steady other live
    have patient' : Patient (wake q p k) l := first.patient patient
    refine first.trans (ih patient' fun i member => ?_)
    obtain ⟨other, live⟩ := members i (by simp [member])
    exact ⟨other, fun exited => live ((first.exited i).mp exited)⟩

theorem letGo_steady (patient : Patient k (L (.block l))) : Steady k (letGo l L k) :=
  unlock_steady.trans (wakeAll_steady (k := unlock k.currentRunning l k) patient)

theorem wakeFirst_steady (patient : Patient k (L q)) : Steady k (wakeFirst q L k) := by
  unfold wakeFirst
  split
  · exact Steady.refl k
  next p ps front =>
    have member : p ∈ slots (L q) := by simp [front]
    obtain ⟨other, live⟩ := patient p (mem_slots.mp member)
    exact wake_steady other live

/-- The running process is still the one in the same status. -/
def Undisturbed (k k' : Kernel) : Prop :=
  k'.current.status = k.current.status ∧ dispatches k'.trace = dispatches k.trace

/-- The outcome of a call: again sound, nothing undone that only `spawn` and `kill`
undo, and either a process has been dispatched or the same one goes on. -/
def Sequel (k k' : Kernel) : Prop :=
  ∃ L', Sound k' L' ∧ Onward k k' ∧ (k'.current.status = .running ∨ Undisturbed k k')

theorem Steady.undisturbed (steady : Steady k m) : Undisturbed k m :=
  ⟨steady.status, steady.dispatched⟩

theorem Sound.sequel (sound : Sound k L) (steady : Steady k k')
    (coherent : Coherent k' L' {k.currentRunning}) : Sequel k k' :=
  ⟨L', sound.steady steady coherent, steady.onward, Or.inr steady.undisturbed⟩

theorem Sequel.after (sequel : Sequel m k') (first : Onward k m) (same : Undisturbed k m) :
    Sequel k k' := by
  obtain ⟨L', sound, onward, running | still⟩ := sequel
  · exact ⟨L', sound, first.trans onward, Or.inl running⟩
  · exact ⟨L', sound, first.trans onward, Or.inr ⟨still.1.trans same.1, still.2.trans same.2⟩⟩

/-- A dispatched process starts a sound stretch. -/
theorem sound_dispatched (coherent : Coherent k L {k.currentRunning})
    (running : (k.pcb k.currentRunning).status = .running) (fits : ∀ p, (k.kont p).Fits) :
    Sound k L := ⟨coherent, Or.inl running, fits⟩

theorem fits_update (sound : Sound k L) (fits : kont.Fits) (p i : Slot) :
    (Function.update k.kont i kont p).Fits := by
  by_cases same : p = i
  · subst p; simpa using fits
  · simpa [same] using sound.fits p

/-- A process that blocks may have killed itself; blocking revives it. -/
theorem blockedOn_onward (sound : Sound k L) : Onward k (blockedOn q kont k) where
  processId := rfl
  pid p := by
    by_cases same : p = k.currentRunning <;>
      simp [blockedOn, parkOn, Kernel.setPcb, Kernel.push, Kernel.record, Kernel.current, same]
  spawned := rfl
  killed _ := id
  live p status := by
    by_cases same : p = k.currentRunning
    · subst p
      rcases sound.active with running | embryo | ⟨_, reaped⟩
      · exact Or.inl (by simpa [Kernel.current] using running ▸ by simp)
      · exact Or.inl (by simpa [Kernel.current] using embryo ▸ by simp)
      · exact Or.inr reaped
    · exact Or.inl (by simpa [blockedOn, parkOn, Kernel.setPcb, Kernel.push, Kernel.record, same]
        using status)

theorem doBlock_sound (sound : Sound k L) (parking : q.Parking) (fits : kont.Fits)
    (attended : ∀ i, q = .waiting i → i ≠ k.currentRunning ∧ (k.pcb i).status ≠ .exited)
    (result : doBlock fuel clk q kont k = some k') : Sequel k k' := by
  obtain ⟨L', coherent, running, stored, waking, _⟩ :=
    doBlock_spec sound.coherent parking attended result
  exact ⟨L', sound_dispatched coherent running fun p => stored ▸ fits_update sound fits p _,
    (blockedOn_onward sound).trans waking.toOnward, Or.inl running⟩

/-- What a call comes to that does not reach the scheduler before it blocks: the running
process stays where it is, or the call ends in a `do_block`. -/
inductive Outcome (k k' : Kernel) : Prop where
  | stays (L' : Lists) (steady : Steady k k') (coherent : Coherent k' L' {k.currentRunning})
  | blocks (m : Kernel) (M : Lists) (q : QueueId) (kont : Kont) (fuel : Nat) (clk : Word)
      (steady : Steady k m) (sound : Sound m M) (parking : q.Parking) (fits : kont.Fits)
      (attended : ∀ i, q = .waiting i → i ≠ m.currentRunning ∧ (m.pcb i).status ≠ .exited)
      (block : doBlock fuel clk q kont m = some k')

theorem Outcome.after (outcome : Outcome m k') (first : Steady k m) : Outcome k k' := by
  cases outcome with
  | stays L' steady coherent =>
    exact .stays L' (first.trans steady) (by rw [← first.current]; exact coherent)
  | blocks n M q kont fuel clk steady sound parking fits attended block =>
    exact .blocks n M q kont fuel clk (first.trans steady) sound parking fits attended block

theorem Outcome.sequel (outcome : Outcome k k') (sound : Sound k L) : Sequel k k' := by
  cases outcome with
  | stays L' steady coherent => exact sound.sequel steady coherent
  | blocks m M q kont fuel clk steady sound parking fits attended block =>
    exact (doBlock_sound sound parking fits attended block).after steady.onward steady.undisturbed

theorem releaseBlock_outcome (sound : Sound k L)
    (back : L (.holding k.currentRunning) = rest ++ [.lock l]) (foreign : q.Foreign)
    (fits : kont.Fits)
    (result : (doMutexLockRelease fuel l k).bind (doBlock fuel clk q kont) = some k') :
    Outcome k k' := by
  rw [Option.bind_eq_some_iff] at result
  obtain ⟨m, release, block⟩ := result
  obtain ⟨links, rfl, coherent⟩ := release_last sound.coherent back release
  have steady := (letGo_steady (l := l) (sound.patient (by trivial))).relink links
  exact .blocks _ _ q kont fuel clk steady (sound.steady steady coherent) foreign.parking fits
    (fun i same => absurd same (foreign.unattended i)) block

/-- A voluntary or forced switch: the running process goes to the ready queue. -/
theorem yield_sound (sound : Sound k L) (v : Pcb) (runnable : Runnable v.status)
    (pid : v.pid = k.current.pid) (result : switch fuel clk (yield v k) = some k') :
    Sequel k k' := by
  obtain ⟨L', coherent, running, stored, waking, _⟩ :=
    switch_spec (yield_coherent sound.coherent runnable) result
  have yielded : Onward k (yield v k) := by
    refine ⟨rfl, fun p => ?_, rfl, fun _ => id, fun p status => ?_⟩
    · by_cases same : p = k.currentRunning
      · subst p; simpa [yield, Kernel.setPcb, Kernel.push, Kernel.current] using pid
      · simp [yield, Kernel.setPcb, Kernel.push, same]
    · by_cases same : p = k.currentRunning
      · subst p
        rcases sound.active with status | status | ⟨_, reaped⟩
        · exact Or.inl fun exited => by simp [Kernel.current, exited] at status
        · exact Or.inl fun exited => by simp [Kernel.current, exited] at status
        · exact Or.inr reaped
      · exact Or.inl (by simpa [yield, Kernel.setPcb, Kernel.push, same] using status)
  exact ⟨L', sound_dispatched coherent running fun p => stored ▸ sound.fits p,
    yielded.trans waking.toOnward, Or.inl running⟩

theorem doExit_sound (sound : Sound k L) (result : doExit fuel clk k = some k') :
    Sequel k k' := by
  obtain ⟨_, L', _, coherent, running, stored, waking, _⟩ := doExit_spec sound.coherent result
  have exited : Onward k (exiting k) := by
    refine ⟨rfl, fun p => ?_, rfl, fun _ => id, fun p status => Or.inl ?_⟩
    · by_cases same : p = k.currentRunning <;>
        simp [exiting, Kernel.setPcb, Kernel.current, same]
    · by_cases same : p = k.currentRunning
      · subst p; simp [exiting, Kernel.setPcb] at status
      · simpa [exiting, Kernel.setPcb, same] using status
  exact ⟨L', sound_dispatched coherent running fun p => stored ▸ sound.fits p,
    exited.trans waking.toOnward, Or.inl running⟩

theorem semaphoreUp_outcome (sound : Sound k L)
    (back : L (.holding k.currentRunning) = rest ++ [.lock (.sem s)])
    (result : semaphoreUp fuel s k = some k') : Outcome k k' := by
  obtain ⟨links, rfl, coherent⟩ := semaphoreUp_spec sound.coherent back result
  have woken : Steady k (wakeFirst (.sem s) L (countUp s k)) :=
    countUp_steady.trans (wakeFirst_steady (k := countUp s k) (sound.patient (by trivial)))
  have patient : Patient k (firstLists (.sem s) L (.block (.sem s))) := by
    rw [firstLists_of_ne (by simp) (by simp)]
    exact sound.patient (by trivial)
  exact .stays _ ((woken.trans (letGo_steady (woken.patient patient))).relink links) coherent

theorem semaphoreDown_outcome (sound : Sound k L)
    (back : L (.holding k.currentRunning) = rest ++ [.lock (.sem s)])
    (result : semaphoreDown fuel clk s k = some k') : Outcome k k' := by
  by_cases positive : k.count s ≤ 0
  · rw [semaphoreDown_wait positive] at result
    exact releaseBlock_outcome (q := .sem s) sound back trivial (by trivial) result
  · obtain ⟨links, rfl, coherent⟩ := semaphoreDown_take sound.coherent positive back result
    have steady := countDown_steady.trans (letGo_steady (k := countDown s k) (l := .sem s)
      (sound.patient (by trivial)))
    exact .stays _ (steady.relink links) coherent

theorem barrierLeave_outcome (sound : Sound k L)
    (back : L (.holding k.currentRunning) = rest ++ [.lock (.barrier b)])
    (result : barrierLeave fuel b k = some k') : Outcome k k' := by
  obtain ⟨links, rfl, coherent⟩ := barrierLeave_spec sound.coherent back result
  have steady := (letGo_steady (l := .barrier b) (sound.patient (by trivial))).record
    (.leave b k.currentRunning) trivial ⟨rfl, rfl⟩
  exact .stays _ (steady.relink links) coherent

theorem barrierArrive_outcome (sound : Sound k L)
    (back : L (.holding k.currentRunning) = rest ++ [.lock (.barrier b)])
    (result : barrierArrive fuel clk b k = some k') : Outcome k k' := by
  have counted : Sound (countArrival b k) L :=
    sound.steady countArrival_steady (countArrival_coherent sound.coherent)
  by_cases last : int32 ((k.barrier b).count + 1) = (k.barrier b).max
  · obtain ⟨links, rfl, coherent⟩ := barrierArrive_last sound.coherent last back result
    have woken := (countArrival_steady.trans (wakeAll_steady (q := .barrier b)
      (counted.patient (q := .barrier b) trivial))).trans (resetCount_steady (b := b))
    have patient : Patient k (released L (.barrier b) (.block (.barrier b))) := by
      rw [released_of_ne (by simp) (by simp)]
      exact sound.patient (by trivial)
    have steady := (woken.trans (letGo_steady (woken.patient patient))).record
      (.leave b k.currentRunning) trivial ⟨rfl, rfl⟩
    exact .stays _ (steady.relink links) coherent
  · rw [barrierArrive_early last] at result
    exact (releaseBlock_outcome (q := .barrier b) counted back trivial (by trivial) result).after
      countArrival_steady

theorem afterAcquire_outcome (sound : Sound k L)
    (back : L (.holding k.currentRunning) = rest ++ [.lock l]) (after : After)
    (fits : after.Fits l) (result : afterAcquire fuel clk after k = some k') : Outcome k k' := by
  cases after with
  | user =>
    obtain rfl : k = k' := by simpa [afterAcquire] using result
    exact .stays L (Steady.refl k) sound.coherent
  | condition m c =>
    obtain rfl : k.record (.waited k.currentRunning m c) = k' := by
      simpa [afterAcquire] using result
    exact .stays L ((Steady.refl k).record _ trivial ⟨rfl, rfl⟩) (sound.coherent.record _ trivial)
  | up s => exact semaphoreUp_outcome sound (fits ▸ back) result
  | down s => exact semaphoreDown_outcome sound (fits ▸ back) result
  | arrive b => exact barrierArrive_outcome sound (fits ▸ back) result
  | leave b => exact barrierLeave_outcome sound (fits ▸ back) result

theorem doMutexLockAcquire_outcome (sound : Sound k L) (after : After) (fits : after.Fits l)
    (result : doMutexLockAcquire fuel clk l after k = some k') : Outcome k k' := by
  by_cases taken : k.lock l = .locked
  · rw [doMutexLockAcquire_taken taken] at result
    exact .blocks k L (.block l) (.acquire l after) fuel clk (Steady.refl k) sound trivial fits
      (by simp) result
  · rw [doMutexLockAcquire_free taken] at result
    have locked : Sound (lockBy l k) (holdLists k.currentRunning l L) :=
      sound.steady lockBy_steady (lockBy_coherent sound.coherent taken)
    have back : holdLists k.currentRunning l L (.holding (lockBy l k).currentRunning) =
        L (.holding k.currentRunning) ++ [.lock l] := by
      simp [holdLists, lockBy, Kernel.record, Kernel.push]
    exact (afterAcquire_outcome locked back after fits result).after lockBy_steady

/-- The state in which a blocked call goes on. -/
def returning (k : Kernel) : Kernel :=
  { k with kont := Function.update k.kont k.currentRunning .user }

theorem Sound.returning (sound : Sound k L) : Sound (returning k) L :=
  ⟨sound.coherent.data rfl rfl rfl rfl, sound.active, fun p => fits_update sound (by trivial) p _⟩

theorem resume_outcome (sound : Sound k L) (result : resume fuel clk k = some k') :
    Outcome (returning k) k' := by
  have fits := sound.fits k.currentRunning
  have back := sound.returning
  cases stored : k.kont k.currentRunning with
  | user => simp [resume, stored] at result
  | acquire l after =>
    simp only [resume, stored] at result
    rw [stored] at fits
    exact doMutexLockAcquire_outcome back after fits result
  | down s =>
    simp only [resume, stored] at result
    exact doMutexLockAcquire_outcome back (.down s) rfl result
  | barrier b =>
    simp only [resume, stored] at result
    exact doMutexLockAcquire_outcome back (.leave b) rfl result
  | condition l c =>
    simp only [resume, stored] at result
    exact doMutexLockAcquire_outcome back (.condition l c) trivial result

theorem resume_sound (sound : Sound k L) (result : resume fuel clk k = some k') :
    Sequel k k' := by
  have onward : Onward k (returning k) := ⟨rfl, fun _ => rfl, rfl, fun _ => id, fun _ => Or.inl⟩
  exact ((resume_outcome sound result).sequel sound.returning).after onward ⟨rfl, rfl⟩

/-- A step in which neither `spawn` nor `queue_remove` meets what it cannot handle:
`spawn` takes a slot that is not waiting to be reaped, and what leaves a queue
otherwise than from its front is at one of its ends. -/
def Good (k : Kernel) : Event → Prop
  | .call (.spawn _) => ∀ i, freeSlot k = some i → unreaped k.trace i = false
  | .call (.kill id) => ∀ i, lookup id k = some i → Removable k i
  | .call (.block q) | .call (.unblockOne q) | .call (.unblockAll q) => q.Foreign
  | .call (.release l) => holds k.trace k.currentRunning l = true ∧
      (k.links.head (.holding k.currentRunning) = some (.lock l) ∨
        k.links.tail (.holding k.currentRunning) = some (.lock l))
  | .call (.condWait l _) => k.links.tail (.holding k.currentRunning) = some (.lock l)
  | _ => True

theorem unblockOne_steady (sound : Sound k L) (parking : q.Parking)
    (result : doUnblockOne q k = some k') :
    ∃ L', Steady k k' ∧ Coherent k' L' {k.currentRunning} := by
  obtain ⟨links, rfl, coherent⟩ := doUnblockOne_spec sound.coherent parking result
  exact ⟨_, (wakeFirst_steady (sound.patient parking)).relink links, coherent⟩

theorem unblockAll_steady (sound : Sound k L) (parking : q.Parking)
    (result : doUnblockAll fuel q k = some k') :
    ∃ L', Steady k k' ∧ Coherent k' L' {k.currentRunning} := by
  obtain ⟨links, rfl, coherent⟩ := doUnblockAll_spec sound.coherent parking result
  exact ⟨_, (wakeAll_steady (sound.patient parking)).relink links, coherent⟩

theorem release_steady (sound : Sound k L) (member : Item.lock l ∈ L (.holding k.currentRunning))
    (atEnd : k.links.head (.holding k.currentRunning) = some (.lock l) ∨
      k.links.tail (.holding k.currentRunning) = some (.lock l))
    (result : doMutexLockRelease fuel l k = some k') :
    ∃ L', Steady k k' ∧ Coherent k' L' {k.currentRunning} := by
  obtain ⟨links, rfl, coherent⟩ := doMutexLockRelease_spec sound.coherent member atEnd result
  exact ⟨_, (letGo_steady (sound.patient (by trivial))).relink links, coherent⟩

/-- The calls that never reach the scheduler. -/
def Call.Passes : Call → Prop
  | .unblockOne _ | .unblockAll _ | .release _ | .signal _ | .broadcast _ => True
  | _ => False

theorem call_steady (sound : Sound k L) {call : Call} (passes : call.Passes)
    (good : Good k (.call call)) (result : systemCall fuel clk call k = some k') :
    ∃ L', Steady k k' ∧ Coherent k' L' {k.currentRunning} := by
  cases call with
  | unblockOne q => exact unblockOne_steady sound (QueueId.Foreign.parking good) result
  | unblockAll q => exact unblockAll_steady sound (QueueId.Foreign.parking good) result
  | release l => exact release_steady sound ((sound.coherent.held _ l).mpr good.1) good.2 result
  | signal c => exact unblockOne_steady (q := .cond c) sound trivial result
  | broadcast c => exact unblockAll_steady (q := .cond c) sound trivial result
  | _ => exact passes.elim

/-- The active process owns no free slot. -/
theorem Sound.free_other (sound : Sound k L) (exited : (k.pcb i).status = .exited)
    (done : unreaped k.trace i = false) : i ≠ k.currentRunning := by
  rintro rfl
  rcases sound.active with status | status | ⟨_, reaped⟩
  · simp [Kernel.current, exited] at status
  · simp [Kernel.current, exited] at status
  · simp [done] at reaped

theorem spawn_sound (sound : Sound k L) (task : TaskInfo)
    (good : ∀ i, freeSlot k = some i → unreaped k.trace i = false) :
    ∃ L', Sound (spawn task k) L' := by
  unfold spawn
  cases found : freeSlot k with
  | none => exact ⟨L, sound⟩
  | some i =>
    have exited := freeSlot_exited found
    have other := sound.free_other exited (good i found)
    have coherent := assignt_spec sound.coherent exited (good i found) other task
    have status : (assignt task i k).current.status = k.current.status := by
      simp [assignt, assignTask, Kernel.current, Kernel.setPcb, Kernel.record, Ne.symm other]
    refine ⟨_, coherent, ?_, fun p => ?_⟩
    · unfold Active
      rw [status]
      exact sound.active
    · exact fits_update sound (by trivial) p i

theorem kill_sound (sound : Sound k L)
    (good : ∀ i, lookup id k = some i → Removable k i) : ∃ L', Sound (kill id k) L' := by
  cases found : lookup id k with
  | none => exact ⟨L, by simpa [kill, found] using sound⟩
  | some i =>
    have idle : ∀ p ∈ ({k.currentRunning} : Set Slot), (k.pcb p).status ≠ .blocked := by
      rintro p rfl blocked
      rcases sound.active with status | status | ⟨status, _⟩ <;>
        simp [Kernel.current, blocked] at status
    obtain ⟨links, same, L', coherent⟩ := kill_spec sound.coherent found (good i found) idle
    refine ⟨L', ?_, ?_, fun p => ?_⟩
    · have current : (kill id k).currentRunning = k.currentRunning := by rw [same]; rfl
      rw [current]
      exact coherent
    · rw [same]
      have active := sound.active
      unfold Active Kernel.current at active ⊢
      rw [relink_trace, relink_pcb, relink_current, condemn_current, unreaped_condemn,
        condemn_status]
      by_cases own : k.currentRunning = i
      · simp [own]
      · simpa [own, Ne.symm own] using active
    · rw [same]
      exact sound.fits p

theorem wait_outcome (sound : Sound k L) (result : wait fuel clk id k = some k') :
    Outcome k k' := by
  rcases wait_spec result with rfl | ⟨i, found, other, block⟩
  · exact .stays L (Steady.refl k') sound.coherent
  · refine .blocks k L (.waiting i) .user fuel clk (Steady.refl k) sound trivial trivial ?_ block
    rintro j same
    obtain rfl : i = j := by simpa using same
    exact ⟨other, (lookup_live found).2⟩

/-- The calls that only rearrange processes. -/
def Call.Keeps : Call → Prop
  | .spawn _ | .kill _ => False
  | _ => True

/-- The calls that reach the scheduler, if at all, in a `do_block`. -/
def Call.Lingers : Call → Prop
  | .spawn _ | .kill _ | .sleep _ | .exit => False
  | _ => True

theorem call_outcome (sound : Sound k L) {call : Call} (lingers : call.Lingers)
    (good : Good k (.call call)) (result : systemCall fuel clk call k = some k') :
    Outcome k k' := by
  by_cases passes : call.Passes
  · obtain ⟨L', steady, coherent⟩ := call_steady sound passes good result
    exact .stays L' steady coherent
  · cases call with
    | wait id => exact wait_outcome sound result
    | block q =>
      exact .blocks k L q .user fuel clk (Steady.refl k) sound (QueueId.Foreign.parking good)
        trivial (fun i same => absurd same (QueueId.Foreign.unattended good i)) result
    | acquire l => exact doMutexLockAcquire_outcome sound .user trivial result
    | condWait l c =>
      have last : (L (.holding k.currentRunning)).getLast? = some (.lock l) := by
        rw [← sound.coherent.spells.tail]; exact good
      obtain ⟨rest, back⟩ := List.getLast?_eq_some_iff.mp last
      have steady := (Steady.refl k).record (.wait k.currentRunning l c) trivial ⟨rfl, rfl⟩
      have waiting := sound.steady steady (sound.coherent.record _ trivial)
      rw [systemCall, doConditionWait_eq] at result
      exact (releaseBlock_outcome (q := .cond c) waiting back trivial (by trivial) result).after
        steady
    | up s => exact doMutexLockAcquire_outcome sound (.up s) rfl result
    | down s => exact doMutexLockAcquire_outcome sound (.down s) rfl result
    | barrierWait b => exact doMutexLockAcquire_outcome sound (.arrive b) rfl result
    | sleep _ | spawn _ | kill _ | exit => exact lingers.elim
    | _ => exact absurd trivial passes

theorem call_sequel (sound : Sound k L) {call : Call} (keeps : call.Keeps)
    (good : Good k (.call call)) (result : systemCall fuel clk call k = some k') :
    Sequel k k' := by
  by_cases lingers : call.Lingers
  · exact (call_outcome sound lingers good result).sequel sound
  · cases call with
    | sleep time => exact yield_sound sound _ (Or.inr (Or.inl (by rfl))) (by rfl) result
    | exit => exact doExit_sound sound result
    | spawn task => exact keeps.elim
    | kill id => exact keeps.elim
    | _ => exact absurd trivial lingers

def Event.Keeps : Event → Prop
  | .call c => c.Keeps
  | _ => True

theorem step_sequel {event : Event} (sound : Sound k L) (keeps : event.Keeps)
    (good : Good k event) (step : Step k event k') : Sequel k k' := by
  obtain ⟨fuel, clk, result⟩ := step
  cases event with
  | call c =>
    simp only [execute] at result
    split at result
    · exact call_sequel sound keeps good result
    · contradiction
  | timer =>
    simp only [execute] at result
    split at result
    · exact yield_sound sound _ (Or.inr (Or.inr (by rfl))) (by rfl) result
    · contradiction
  | resume => exact resume_sound sound result

/-- The one step by which soundness spreads over every run. -/
theorem step_sound {event : Event} (sound : Sound k L) (good : Good k event)
    (step : Step k event k') : ∃ L', Sound k' L' := by
  by_cases keeps : event.Keeps
  · obtain ⟨L', sound', _⟩ := step_sequel sound keeps good step
    exact ⟨L', sound'⟩
  · obtain ⟨fuel, clk, result⟩ := step
    rcases event with call | _ | _
    · simp only [execute] at result
      split at result
      · cases call with
        | spawn task =>
          obtain rfl := Option.some.inj result
          exact spawn_sound sound task good
        | kill id =>
          obtain rfl := Option.some.inj result
          exact kill_sound sound good
        | _ => exact absurd trivial keeps
      · contradiction
    · exact absurd trivial keeps
    · exact absurd trivial keeps

variable {shell : TaskInfo}

/-- The links that `assign_task` gives the shell, before it is taken off again. -/
theorem fillPcb_spells (shell : TaskInfo) : (fillPcb shell).links.Spells (parkLists .ready 0 fun _ => []) := by
  have cleared := queueInit_spells (q := .ready) boot_spells rfl
  have pushed := queuePush_spells (q := .ready) (x := .pcb 0) cleared (by simp)
  have first := queueInit_spells (q := .holding 0) pushed (by simp)
  exact queueInit_spells (q := .waiting 0) first (by simp)

/-- `init_pcb` leaves the shell running and every other slot free. -/
theorem initPcb_eq (shell : TaskInfo) : ∃ links, links.Spells (fun _ => []) ∧ initPcb shell =
    { assignt shell 0 boot with
      links := links
      pcb := fun i => if i = 0 then (assignt shell 0 boot).pcb i
        else { (assignt shell 0 boot).pcb i with status := .exited } } := by
  have front : parkLists .ready 0 (fun _ => []) .ready = [.pcb 0] := rfl
  obtain ⟨first, spells⟩ := queueDequeue_cons (fillPcb_spells shell) front
  have emptied : Function.update (parkLists .ready 0 fun _ => []) .ready [] = fun _ => [] := by
    funext q
    by_cases ready : q = .ready <;> simp [parkLists, ready]
  rw [emptied] at spells
  refine ⟨_, spells, ?_⟩
  have pair : queueDequeue .ready (fillPcb shell).links =
      (some (.pcb 0), (queueDequeue .ready (fillPcb shell).links).2) := by rw [← first]
  rw [initPcb, pair]
  rfl

theorem initPcb_sound : Sound (initPcb shell) fun _ => [] := by
  obtain ⟨links, spells, same⟩ := initPcb_eq shell
  have status : ∀ i, ((initPcb shell).pcb i).status = if i = 0 then .embryo else .exited := by
    intro i
    rw [same]
    by_cases zero : i = 0 <;> simp [zero, assignt, assignTask, Kernel.setPcb, Kernel.record]
  have current : (initPcb shell).currentRunning = 0 := by rw [same]; rfl
  have trace : (initPcb shell).trace = [.spawn 0] := by rw [same]; rfl
  have kont : ∀ p, (initPcb shell).kont p = .user := by
    intro p
    rw [same]
    by_cases zero : p = 0 <;> simp [zero, assignt, assignTask, Kernel.setPcb, Kernel.record, boot]
  have lock : ∀ l, (initPcb shell).lock l = .unlocked := by intro l; rw [same]; rfl
  refine ⟨?_, Or.inr (Or.inl ?_), fun p => by rw [kont]; trivial⟩
  · rw [current]
    constructor
    · rw [same]; exact spells
    · intro i q
      by_cases zero : i = 0 <;>
        simp [zero, Kernel.place, status, trace, unreaped]
    · intro i blocked
      rw [status] at blocked
      split at blocked <;> contradiction
    · simp
    · simp [lock]
    · simp [trace, holds]
    · intro i running
      rw [status] at running
      split at running <;> contradiction
    · simp
  · rw [Kernel.current, current, status, if_pos rfl]

/-- In a run without `kill`, whoever has exited has been reaped. -/
structure Peaceful (k : Kernel) (L : Lists) : Prop extends Sound k L where
  spared : ∀ p, unreaped k.trace p = false

def Event.Spares : Event → Prop
  | .call (.kill _) => False
  | _ => True

/-- Exited processes leave nothing behind, in a state between two stretches. -/
theorem Coherent.deserted (coherent : Coherent k L ∅)
    (spared : ∀ p, unreaped k.trace p = false) : Deserted k L :=
  fun p exited => coherent.retired p exited (spared p) (Set.notMem_empty p)

/-- What a `spawn` into a free slot does and leaves alone. -/
theorem spawn_peaceful (peaceful : Peaceful k L) (task : TaskInfo) :
    (∃ L', Peaceful (spawn task k) L') ∧ Undisturbed k (spawn task k) ∧
      (spawn task k = k ∨ ∃ i, (k.pcb i).status = .exited ∧ i ≠ k.currentRunning ∧
        spawn task k = assignt task i k) := by
  obtain ⟨L', sound⟩ := spawn_sound peaceful.toSound task
    fun i _ => peaceful.spared i
  cases found : freeSlot k with
  | none =>
    have same : spawn task k = k := by simp [spawn, found]
    exact ⟨⟨L, same.symm ▸ peaceful⟩, by rw [same]; exact ⟨rfl, rfl⟩, Or.inl same⟩
  | some i =>
    have same : spawn task k = assignt task i k := by simp [spawn, found]
    have exited := freeSlot_exited found
    have other := peaceful.free_other exited (peaceful.spared i)
    refine ⟨⟨L', sound, fun p => ?_⟩, ?_, Or.inr ⟨i, exited, other, same⟩⟩
    · rw [same]
      exact peaceful.spared p
    · rw [same]
      refine ⟨?_, rfl⟩
      simp [assignt, assignTask, Kernel.current, Kernel.setPcb, Kernel.record, Ne.symm other]

theorem step_peaceful {event : Event} (peaceful : Peaceful k L) (spares : event.Spares)
    (good : Good k event) (step : Step k event k') : ∃ L', Peaceful k' L' := by
  by_cases keeps : event.Keeps
  · obtain ⟨L', sound, onward, _⟩ := step_sequel peaceful.toSound keeps good step
    refine ⟨L', sound, fun p => ?_⟩
    rw [Bool.eq_false_iff]
    exact fun reaped => by simpa [peaceful.spared p] using onward.killed p reaped
  · obtain ⟨fuel, clk, result⟩ := step
    rcases event with call | _ | _
    · simp only [execute] at result
      split at result
      · cases call with
        | spawn task =>
          obtain rfl := Option.some.inj result
          exact (spawn_peaceful peaceful task).1
        | kill id => exact spares.elim
        | _ => exact absurd trivial keeps
      · contradiction
    · exact absurd trivial keeps
    · exact absurd trivial keeps

theorem initPcb_trace : (initPcb shell).trace = [.spawn 0] := by
  obtain ⟨_, _, same⟩ := initPcb_eq shell
  rw [same]
  rfl

theorem initPcb_peaceful : Peaceful (initPcb shell) fun _ => [] :=
  ⟨initPcb_sound, fun p => by rw [initPcb_trace]; rfl⟩

end Tina
